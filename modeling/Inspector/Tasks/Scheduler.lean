import Inspector.Tasks.Pool

/-! # The scheduler

A task runs when its function is called. While it runs, any operation can be called from it, also
those that run tasks; when it returns, the loop that has called it goes on. There is no next state
where a null pointer is called or a loop does not end.
-/

namespace Inspector

namespace Tasks

/-- Operations, the return of the task that runs, and changes of the surroundings. -/
inductive Op (φ δ : Type*)
  | addImmediate (fn : Option φ) (data : Option δ)
  | addDelayed (fn : Option φ) (data : Option δ) (delayMs : BitVec 32)
  | addSystick (fn : Option φ) (data : Option δ)
  | runOnReset (fn : Option φ) (data : Option δ)
  | runOnStartup (fn : Option φ) (data : Option δ)
  | delete (fn : Option φ) (data : Option δ)
  | deleteSystick (fn : Option φ) (data : Option δ)
  | execute
  | executeOnStartup
  | ret
  | elapse (ms : ℕ)
  | system (coldStart driverStarted linestateEvent : Bool)

namespace State

variable {n : ℕ} {φ δ : Type*}

/-- A node is freed whose task is about to run. -/
def beginRun (q : Queue) (i : Fin n) (s : State n φ δ) : State n φ δ :=
  (s.free i).setHistory fun h => { h with ran := ⟨q, s.task i, s.system.clock⟩ :: h.ran }

/-- `task_run` up to the call: the node is freed before the function is called. -/
def taskRun (q : Queue) (i : Fin n) (s : State n φ δ) :
    Option (Option (Fin n) × State n φ δ) :=
  if (s.pool i).fn.isSome then some (s.next i, s.beginRun q i) else none

/-- Take a delayed task out of its list. In the code an interrupt may have put another one in front
of it in the meantime. -/
def unlinkDelayed (i : Fin n) (s : State n φ δ) : Option (State n φ δ) :=
  match s.head .delayed with
  | none => some s
  | some h =>
    if h = i then some (s.setHead .delayed (s.next i))
    else
      (Linked.seek s.next (· = i) n h).map fun t =>
        if s.next t = some i then s.setNext t (s.next i) else s

/-- The loop of `task_execute` over delayed tasks. -/
def executeDelayed (now : ℕ) (s : State n φ δ) : Option (State n φ δ) :=
  match s.head .delayed with
  | none => some (s.setLock false)
  | some i =>
    if diff (s.pool i).time (ticks now) ≤ 0 then do
      let s ← s.unlinkDelayed i
      let (_, s) ← s.taskRun .delayed i
      return s.pushFrame (.delayed now)
    else some (s.setLock false)

/-- The loop of `task_execute` over systick tasks. -/
def executeSystick (now : ℕ) (task : Option (Fin n)) (s : State n φ δ) : Option (State n φ δ) :=
  match task with
  | none => s.executeDelayed now
  | some i =>
    if (s.pool i).fn.isSome then
      some ((s.setHistory fun h => { h with ticked := s.task i :: h.ticked }).pushFrame
        (.systick i now))
    else none

/-- The part of `task_execute` that is not entered twice. -/
def executeTick (s : State n φ δ) : Option (State n φ δ) :=
  if s.lock then some s
  else
    let now := s.system.clock
    if ticks now = s.lastMs ∨ s.head .delayed = s.head .systick then some s
    else
      { s with lock := true, lastMs := ticks now, history.ticked := [] }.executeSystick now
        (s.head .systick)

/-- The loop of `task_execute` over immediate tasks. -/
def executeImmediate (task : Option (Fin n)) (s : State n φ δ) : Option (State n φ δ) :=
  match task with
  | none => s.executeTick
  | some i => do
    let (next, s) ← s.taskRun .immediate i
    return s.pushFrame (.immediate next)

/-- `task_execute`. -/
def execute (s : State n φ δ) : Option (State n φ δ) :=
  if (s.head .immediate).isSome ∧ s.system.driverStarted then
    (s.setHead .immediate none).executeImmediate (s.head .immediate)
  else s.executeTick

/-- The end of `task_execute_on_startup`, which does not return unless the driver has been started. -/
def startupEnd (s : State n φ δ) : State n φ δ :=
  if s.system.driverStarted then s else s.pushFrame .forever

/-- The loop of `task_execute_on_startup` over tasks to run after a reset. -/
def executeOnReset (s : State n φ δ) : Option (State n φ δ) :=
  match s.head .onReset with
  | none => some s.startupEnd
  | some i => do
    let (next, s) ← s.taskRun .onReset i
    return s.pushFrame (.startup .onReset next)

/-- The loop of `task_execute_on_startup` over tasks to run after booting. -/
def executeOnBooted (s : State n φ δ) : Option (State n φ δ) :=
  match s.head .onBooted with
  | none => s.executeOnReset
  | some i => do
    let (next, s) ← s.taskRun .onBooted i
    return s.pushFrame (.startup .onBooted next)

/-- The task that runs returns. -/
def ret (s : State n φ δ) : Option (State n φ δ) :=
  match s.frames with
  | [] => some s
  | frame :: frames =>
    let s' := { s with frames := frames }
    match frame with
    | .immediate next => s'.executeImmediate next
    | .systick i now => s'.executeSystick now (s'.next i)
    | .delayed now => s'.executeDelayed now
    | .startup .onBooted next => (s'.setHead .onBooted next).executeOnBooted
    | .startup _ next => (s'.setHead .onReset next).executeOnReset
    | .forever => some s

variable [DecidableEq φ] [DecidableEq δ]

/-- The loop that clears the tasks to run after booting, except for one function. -/
def clearOnBooted (reportWarning : φ) :
    ℕ → Option (Fin n) → Option (Fin n) → State n φ δ → Option (State n φ δ)
  | _, _, none, s => some s
  | 0, _, some _, _ => none
  | fuel + 1, prev, some i, s =>
    if (s.pool i).fn = some reportWarning then
      clearOnBooted reportWarning fuel (some i) (s.next i) s
    else
      let s := (s.unlink .onBooted prev i).discard i
      clearOnBooted reportWarning fuel prev (prev.elim (s.head .onBooted) s.next) s

/-- The loop that clears the delayed tasks. -/
def clearDelayed : ℕ → State n φ δ → Option (State n φ δ)
  | 0, s => if (s.head .delayed).isSome then none else some s
  | fuel + 1, s =>
    match s.head .delayed with
    | none => some s
    | some i => (s.delete (s.pool i).fn none).bind (clearDelayed fuel)

/-- The loop that clears the systick tasks. -/
def clearSystick : ℕ → State n φ δ → Option (State n φ δ)
  | 0, s => if (s.head .systick).isSome then none else some s
  | fuel + 1, s =>
    match s.head .systick with
    | none => some s
    | some i => (s.deleteSystick (s.pool i).fn none).bind (clearSystick fuel)

/-- The queues are cleared when the driver has not been started. -/
def clear (reportWarning : φ) (s : State n φ δ) : Option (State n φ δ) := do
  let s ← s.clearOnBooted reportWarning n none (s.head .onBooted)
  let s ← s.clearDelayed n
  s.clearSystick n

/-- `task_execute_on_startup`. -/
def executeOnStartup (reportWarning : φ) (s : State n φ δ) : Option (State n φ δ) := do
  let s ← (if s.system.driverStarted then some s else s.clear reportWarning)
  if (s.head .onBooted).isSome ∧ (s.system.driverStarted ∨ ¬ s.system.linestateEvent) then
    s.executeOnBooted
  else s.executeOnReset

/-- One operation. -/
def step (reportWarning : φ) (s : State n φ δ) (op : Op φ δ) : Option (State n φ δ) :=
  match op with
  | .addImmediate fn data => (s.addImmediate fn data).map Prod.snd
  | .addDelayed fn data delayMs => (s.addDelayed fn data delayMs).map Prod.snd
  | .addSystick fn data => (s.addSystick fn data).map Prod.snd
  | .runOnReset fn data => (s.runOnReset fn data).map Prod.snd
  | .runOnStartup fn data => (s.runOnStartup fn data).map Prod.snd
  | .delete fn data => s.delete fn data
  | .deleteSystick fn data => s.deleteSystick fn data
  | .execute => s.execute
  | .executeOnStartup => s.executeOnStartup reportWarning
  | .ret => s.ret
  | .elapse ms => some { s with system.clock := s.system.clock + ms }
  | .system coldStart driverStarted linestateEvent =>
    some { s with system := ⟨coldStart, driverStarted, linestateEvent, s.system.clock⟩ }

end State

end Tasks

end Inspector
