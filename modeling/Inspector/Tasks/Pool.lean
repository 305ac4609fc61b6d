import Mathlib.Data.Int.Notation
import Inspector.Linked.Chain
import Inspector.Numerals
import Mathlib.Algebra.Group.Nat.Defs

/-! # The task pool

Tasks are kept in a pool of nodes. A node is free when it has no function, and otherwise it is
linked into one of five lists.
-/

namespace Inspector

namespace Tasks

/-- The lists of `tasks`. -/
inductive Queue
  | immediate
  | delayed
  | systick
  | onBooted
  | onReset
  deriving DecidableEq, Repr

/-- A task that has been accepted: how many were accepted before it, its function and data, and the
count of ticks it is due at. -/
structure Task (φ δ : Type*) where
  serial : ℕ
  fn : Option φ
  data : Option δ
  due : ℕ
  deriving DecidableEq

/-- `core_task_t`; no function and no data stand for null pointers. The last two fields only tell
tasks apart, the code has neither of them. -/
structure CoreTask (n : ℕ) (φ δ : Type*) where
  time : BitVec 32 := 0
  fn : Option φ := none
  data : Option δ := none
  next : Option (Fin n) := none
  serial : ℕ := 0
  due : ℕ := 0

/-- Where a running task returns to: the loop of `task_execute` over immediate tasks, its loops over
systick tasks and over delayed ones, the loops of `task_execute_on_startup`, and the loop that this
never leaves. Pointers are those the loops keep; tick counts are not cut off at 32 bits. -/
inductive Frame (n : ℕ)
  | immediate (next : Option (Fin n))
  | systick (task : Fin n) (now : ℕ)
  | delayed (now : ℕ)
  | startup (q : Queue) (next : Option (Fin n))
  | forever
  deriving DecidableEq

/-- A run of a task that runs once. -/
structure Run (φ δ : Type*) where
  queue : Queue
  task : Task φ δ
  clock : ℕ
  deriving DecidableEq

/-- The tasks accepted, run and deleted so far, and the systick tasks run in the last tick, the
latest ones first. -/
structure History (φ δ : Type*) where
  accepted : List (Task φ δ) := []
  ran : List (Run φ δ) := []
  deleted : List (Task φ δ) := []
  ticked : List (Task φ δ) := []

/-- What the scheduler finds around it: `sys.cold_start`, `sys.driver_started`, whether the stream
has a line state event, and the ticks elapsed. -/
structure System where
  coldStart : Bool := true
  driverStarted : Bool := false
  linestateEvent : Bool := false
  clock : ℕ := 0

structure State (n : ℕ) (φ δ : Type*) where
  head : Queue → Option (Fin n) := fun _ => none
  lastFreed : Option (Fin n) := none
  pool : Fin n → CoreTask n φ δ := fun _ => {}
  lastMs : BitVec 32 := 0
  lock : Bool := false
  frames : List (Frame n) := []
  system : System := {}
  history : History φ δ := {}

namespace State

variable {n : ℕ} {φ δ : Type*}

/-- `hal.get_elapsed_ticks`. -/
def ticks (now : ℕ) : BitVec 32 := BitVec.ofNat 32 now

def next (s : State n φ δ) (i : Fin n) : Option (Fin n) := (s.pool i).next

def task (s : State n φ δ) (i : Fin n) : Task φ δ :=
  ⟨(s.pool i).serial, (s.pool i).fn, (s.pool i).data, (s.pool i).due⟩

def setHead (q : Queue) (v : Option (Fin n)) (s : State n φ δ) : State n φ δ :=
  { s with head := Function.update s.head q v }

def setNode (i : Fin n) (f : CoreTask n φ δ → CoreTask n φ δ) (s : State n φ δ) : State n φ δ :=
  { s with pool := Function.update s.pool i (f (s.pool i)) }

def setNext (i : Fin n) (v : Option (Fin n)) (s : State n φ δ) : State n φ δ :=
  s.setNode i fun c => { c with next := v }

def setTime (i : Fin n) (time : BitVec 32) (s : State n φ δ) : State n φ δ :=
  s.setNode i fun c => { c with time := time }

def pushFrame (frame : Frame n) (s : State n φ δ) : State n φ δ :=
  { s with frames := frame :: s.frames }

def setLock (lock : Bool) (s : State n φ δ) : State n φ δ := { s with lock := lock }

def setHistory (f : History φ δ → History φ δ) (s : State n φ δ) : State n φ δ :=
  { s with history := f s.history }

/-- `task_free`. -/
def free (i : Fin n) (s : State n φ δ) : State n φ δ :=
  { s.setNode i fun c => { c with fn := none, next := none } with
    lastFreed := s.lastFreed.or (some i) }

/-- `task_alloc`: the node freed last, or else the last free one of the pool. -/
def alloc (s : State n φ δ) : Option (Fin n × State n φ δ) :=
  match s.lastFreed with
  | some i => some (i, { s with lastFreed := none })
  | none =>
    ((List.finRange n).reverse.find? fun i => (s.pool i).fn.isNone).map fun i => (i, s)

/-- A new task is written to a node. -/
def fill (i : Fin n) (fn : φ) (data : Option δ) (due : ℕ) (s : State n φ δ) : State n φ δ :=
  let s' := s.setNode i fun c =>
    { c with
      fn := some fn
      data := data
      next := none
      serial := s.history.accepted.length
      due := due }
  s'.setHistory fun h => { h with accepted := s'.task i :: h.accepted }

/-- A node is put at the end of a list. The loop to the end does not end if the list is circular. -/
def append (q : Queue) (i : Fin n) (s : State n φ δ) : Option (State n φ δ) :=
  match s.head q with
  | none => some (s.setHead q (some i))
  | some h => (Linked.seek s.next (fun _ => false) n h).map fun t => s.setNext t (some i)

/-- What `task_add_immediate`, `task_add_systick` and the others have in common, and whether the
task is accepted. -/
def enqueue (q : Queue) (fn : Option φ) (data : Option δ) (s : State n φ δ) :
    Option (Bool × State n φ δ) :=
  match fn with
  | none => some (false, s)
  | some f =>
    match s.alloc with
    | none => some (false, s)
    | some (i, s) =>
      ((s.fill i f data s.system.clock).append q i).map fun s => (true, s)

/-- `task_add_immediate`. -/
def addImmediate (fn : Option φ) (data : Option δ) (s : State n φ δ) :
    Option (Bool × State n φ δ) :=
  s.enqueue .immediate fn data

/-- `task_add_systick`. -/
def addSystick (fn : Option φ) (data : Option δ) (s : State n φ δ) :
    Option (Bool × State n φ δ) :=
  s.enqueue .systick fn data

/-- `task_run_on_reset`. -/
def runOnReset (fn : Option φ) (data : Option δ) (s : State n φ δ) :
    Option (Bool × State n φ δ) :=
  if s.system.coldStart then some (false, s) else s.enqueue .onReset fn data

/-- `task_run_on_startup`. -/
def runOnStartup (fn : Option φ) (data : Option δ) (s : State n φ δ) :
    Option (Bool × State n φ δ) :=
  if s.system.coldStart then s.enqueue .onBooted fn data else s.addImmediate fn data

/-- A signed difference of times. -/
def diff (a b : BitVec 32) : ℤ := (a - b).toInt

/-- A node is put into the delayed list: in front of the first task unless it is due later, or else
in front of the first one that is due later. -/
def insert (i : Fin n) (s : State n φ δ) : Option (State n φ δ) :=
  match s.head .delayed with
  | none => some (s.setHead .delayed (some i))
  | some h =>
    if diff (s.pool i).time (s.pool h).time ≤ 0 then
      some ((s.setNext i (some h)).setHead .delayed (some i))
    else
      (Linked.seek s.next (fun u => diff (s.pool i).time (s.pool u).time < 0) n h).map fun t =>
        (s.setNext i (s.next t)).setNext t (some i)

/-- `task_add_delayed`. -/
def addDelayed (fn : Option φ) (data : Option δ) (delayMs : BitVec 32) (s : State n φ δ) :
    Option (Bool × State n φ δ) :=
  match fn with
  | none => some (false, s)
  | some f =>
    match s.alloc with
    | none => some (false, s)
    | some (i, s) =>
      let time := ticks s.system.clock + delayMs
      let s := (s.setTime i time).fill i f data (s.system.clock + delayMs.toNat)
      (s.insert i).map fun s => (true, s)

/-- A node is taken out of a list; `prev` is the one in front of it, if any. -/
def unlink (q : Queue) (prev : Option (Fin n)) (i : Fin n) (s : State n φ δ) : State n φ δ :=
  match prev with
  | some p => s.setNext p (s.next i)
  | none => s.setHead q (s.next i)

/-- A task is freed that has not run. -/
def discard (i : Fin n) (s : State n φ δ) : State n φ δ :=
  (s.free i).setHistory fun h => { h with deleted := s.task i :: h.deleted }

/-- The first task of a list that meets a condition is deleted. -/
def remove (q : Queue) (p : Fin n → Bool) (s : State n φ δ) : Option (State n φ δ) :=
  (Linked.search s.next p n none (s.head q)).map fun found =>
    match found with
    | none => s
    | some (prev, i) => (s.unlink q prev i).discard i

variable [DecidableEq φ] [DecidableEq δ]

/-- `task_delete`; no data stand for any data. -/
def delete (fn : Option φ) (data : Option δ) (s : State n φ δ) : Option (State n φ δ) :=
  s.remove .delayed fun i =>
    fn = (s.pool i).fn ∧ (data = none ∨ data = (s.pool i).data)

/-- The condition of `task_delete_systick`. -/
def matchesSystick (fn : Option φ) (data : Option δ) (s : State n φ δ) (i : Fin n) : Bool :=
  fn = (s.pool i).fn ∧ data = (s.pool i).data

/-- The task that `task_delete_systick` finds. -/
def firstSystick (fn : Option φ) (data : Option δ) (s : State n φ δ) : Option (Fin n) :=
  ((Linked.search s.next (s.matchesSystick fn data) n none (s.head .systick)).bind id).map Prod.snd

/-- `task_delete_systick`. -/
def deleteSystick (fn : Option φ) (data : Option δ) (s : State n φ δ) :
    Option (State n φ δ) :=
  s.remove .systick (s.matchesSystick fn data)

end State

end Tasks

end Inspector
