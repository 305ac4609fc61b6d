import Inspector.Streams.Suspend

/-! # Delivery of suspended input

The input keeps what was pending when a tool change was acknowledged in front of what is received
later. The stream does the same as long as everything received after the acknowledge has been read
when the input is resumed; otherwise the backup replaces it, and it is lost.
-/

namespace Inspector

namespace Suspend

variable {n : ℕ} {α : Type*}

/-- The course of a tool change. -/
inductive Phase
  | normal
  | awaiting
  | changing
  deriving DecidableEq, Repr

/-- An input without buffers: what can be read, what is kept until the tool is changed, and all
characters that have been accepted and delivered. -/
structure Input (α : Type*) where
  phase : Phase := .normal
  live : List α := []
  held : List α := []
  accepted : List α := []
  delivered : List α := []

namespace Input

variable (isAck : α → Bool) (size : ℕ) (a : Input α)

/-- What is pending is kept when the tool change is acknowledged. -/
def acknowledge : Input α := { a with phase := .changing, live := [], held := a.live }

/-- A character is accepted while there is room for it. -/
def accept (c : α) : Input α :=
  if a.live.length < size then { a with live := a.live ++ [c], accepted := a.accepted ++ [c] }
  else a

def receive (c : α) (realtime : Bool) : Input α :=
  if a.phase = .awaiting ∧ isAck c then a.acknowledge
  else if realtime then a
  else a.accept size c

/-- The first character that can be read is delivered. -/
def deliver : Input α :=
  match a.live with
  | [] => a
  | c :: l => { a with live := l, delivered := a.delivered ++ [c] }

def read : Input α := if a.phase = .awaiting then a else a.deliver

/-- What was kept comes first when the input is resumed. -/
def suspend (suspend : Bool) : Input α :=
  match a.phase, suspend with
  | .normal, true => { a with phase := .awaiting }
  | .awaiting, false => { a with phase := .normal }
  | .changing, false => { a with phase := .normal, live := a.held ++ a.live, held := [] }
  | _, _ => a

def exec (a : Input α) : Op α → Input α
  | .receive c realtime => a.receive isAck size c realtime
  | .read => a.read
  | .suspend suspend => a.suspend suspend

/-- Every accepted character has been delivered once, or is still there. -/
def Conserved : Prop := a.accepted.Perm (a.delivered ++ (a.held ++ a.live))

variable {isAck : α → Bool} {size : ℕ} {a : Input α}

theorem Conserved.exec (h : a.Conserved) (hheld : a.phase ≠ .changing → a.held = []) (op : Op α) :
    (a.exec isAck size op).Conserved := by
  cases op with
  | receive c realtime =>
    change (a.receive isAck size c realtime).Conserved
    rw [receive]
    split_ifs with hack hreal
    · have hnil : a.held = [] := hheld (by rw [hack.1]; exact Phase.noConfusion)
      rw [Conserved, hnil, List.nil_append] at h
      rw [Conserved, acknowledge, List.append_nil]
      exact h
    · exact h
    · rw [accept]
      split_ifs
      · rw [Conserved, ← List.append_assoc a.held, ← List.append_assoc a.delivered]
        exact h.append_right [c]
      · exact h
  | read =>
    change a.read.Conserved
    rw [read, deliver]
    split_ifs
    · exact h
    · cases hlive : a.live with
      | nil => exact h
      | cons c l =>
        rw [Conserved, hlive] at h
        apply h.trans
        rw [List.append_assoc]
        exact List.perm_middle.append_left a.delivered
  | suspend b =>
    change (a.suspend b).Conserved
    rw [suspend.eq_def]
    split
    · exact h
    · exact h
    · exact h
    · exact h

end Input

namespace State

/-- The fields that belong to a phase. -/
def At (s : State n α) : Phase → Prop
  | .normal =>
    s.handler = .normal ∧ s.halRead = .own ∧ s.rxbufferSet = false ∧
      s.enqueueRealtimeCommand = none ∧ s.rxbuffer.backup = false
  | .awaiting =>
    s.handler = .awaitToolchangeAck ∧ s.halRead = .null ∧ s.rxbufferSet = true ∧
      s.streamRead = .own ∧ s.enqueueRealtimeCommand = some .normal ∧ s.rxbuffer.backup = false
  | .changing =>
    s.handler = .normal ∧ s.halRead = .own ∧ s.rxbufferSet = true ∧
      s.enqueueRealtimeCommand = none ∧ s.rxbuffer.backup = true ∧ s.rxbackup.backup = false

/-- The fields do not depend on what is in the receive buffer. -/
theorem At.setBuffer {s : State n α} {p : Phase} (h : s.At p) {r : RxBuffer n α}
    (hr : r.backup = s.rxbuffer.backup) : ({ s with rxbuffer := r } : State n α).At p := by
  cases p with
  | normal => exact ⟨h.1, h.2.1, h.2.2.1, h.2.2.2.1, hr.trans h.2.2.2.2⟩
  | awaiting => exact ⟨h.1, h.2.1, h.2.2.1, h.2.2.2.1, h.2.2.2.2.1, hr.trans h.2.2.2.2.2⟩
  | changing =>
    exact ⟨h.1, h.2.1, h.2.2.1, h.2.2.2.1, hr.trans h.2.2.2.2.1, h.2.2.2.2.2⟩

/-- What can be read. -/
def live (s : State n α) : List α := s.rxbuffer.contents

/-- What is in the backup while the tool is changed. -/
def held (s : State n α) : List α := if s.rxbuffer.backup then s.rxbackup.contents else []

end State

/-- A stream stands for an input. -/
structure Refines (x : Session n α) (a : Input α) : Prop where
  fields : x.state.At a.phase
  live : x.state.live = a.live
  held : x.state.held = a.held
  accepted : x.accepted = a.accepted
  delivered : x.delivered = a.delivered

/-- When the input is resumed all that has been received after the acknowledge has been read. -/
def Permitted (o : Option (Session n α)) (op : Op α) : Prop :=
  ∀ x ∈ o, op = .suspend false → x.state.rxbuffer.backup = true →
    x.state.rxbuffer.tail = x.state.rxbuffer.head

/-- Every accepted character has been delivered once, or is still in the receive buffer or the
backup. -/
def Conserved (x : Session n α) : Prop :=
  x.accepted.Perm (x.delivered ++ (x.state.held ++ x.state.live))

variable {isAck : α → Bool} {x : Session n α} {a : Input α}

theorem Refines.conserved_iff (h : Refines x a) : Conserved x ↔ a.Conserved := by
  rw [Conserved, Input.Conserved, h.live, h.held, h.accepted, h.delivered]

theorem refines_init (zero : α) : Refines { state := State.init n zero } ({} : Input α) := by
  refine ⟨⟨rfl, rfl, rfl, rfl, rfl⟩, ?_, rfl, rfl, rfl⟩
  exact Cyclic.Queue.contents_eq_nil_iff.mpr rfl

theorem Refines.held_eq_nil (h : Refines x a) (ha : a.phase ≠ .changing) : a.held = [] := by
  rw [← h.held, State.held, if_neg]
  have hfields := h.fields
  cases hphase : a.phase with
  | normal =>
    rw [hphase] at hfields
    obtain ⟨-, -, -, -, hbackup⟩ := hfields
    rw [hbackup]
    exact Bool.false_ne_true
  | awaiting =>
    rw [hphase] at hfields
    obtain ⟨-, -, -, -, -, hbackup⟩ := hfields
    rw [hbackup]
    exact Bool.false_ne_true
  | changing => exact absurd hphase ha

theorem State.putC_of_full {s : State n α} (h : Cyclic.next s.rxbuffer.head = s.rxbuffer.tail)
    (c : α) : s.putC c = (false, { s with rxbuffer := { s.rxbuffer with overflow := true } }) :=
  if_pos h

theorem State.putC_of_room {s : State n α} (h : Cyclic.next s.rxbuffer.head ≠ s.rxbuffer.tail)
    (c : α) : s.putC c =
      (true, { s with rxbuffer := { s.rxbuffer with toQueue := s.rxbuffer.toQueue.put c } }) :=
  if_neg h

/-- A character is put in the receive buffer if there is room for it. -/
theorem Refines.accept (h : Refines x a) (c : α) :
    Refines
      { x with
        state := (x.state.putC c).2
        accepted := if (x.state.putC c).1 then x.accepted ++ [c] else x.accepted }
      (a.accept n c) := by
  have hle := Cyclic.Queue.length_contents_le x.state.rxbuffer.toQueue
  have hfull : Cyclic.next x.state.rxbuffer.head = x.state.rxbuffer.tail ↔
      x.state.rxbuffer.contents.length = n := Cyclic.Queue.full_iff
  have hlive : x.state.rxbuffer.contents = a.live := h.live
  rw [hlive] at hle hfull
  by_cases hnext : Cyclic.next x.state.rxbuffer.head = x.state.rxbuffer.tail
  · rw [State.putC_of_full hnext, Input.accept, if_neg (hfull.mp hnext).not_lt]
    exact ⟨h.fields.setBuffer rfl, h.live, h.held, h.accepted, h.delivered⟩
  · rw [State.putC_of_room hnext, Input.accept, if_pos (lt_of_le_of_ne hle (hfull.not.mp hnext))]
    refine ⟨h.fields.setBuffer rfl, ?_, h.held, congrArg (· ++ [c]) h.accepted, h.delivered⟩
    exact (Cyclic.Queue.contents_put hnext c).trans (congrArg (· ++ [c]) hlive)

/-- What the handler does with a character: it is the acknowledge, or it is left to the other
handlers. -/
theorem Refines.enqueue (h : Refines x a) (c : α) (realtime : Bool) :
    x.state.enqueue isAck c realtime =
      if a.phase = .awaiting ∧ isAck c then some (true, x.state.acknowledge)
      else some (realtime, x.state) := by
  have hfields := h.fields
  rw [State.enqueue]
  cases hphase : a.phase with
  | normal =>
    rw [hphase] at hfields
    rw [hfields.1]
    rfl
  | awaiting =>
    rw [hphase] at hfields
    obtain ⟨hhandler, -, -, -, henqueue, hbackup⟩ := hfields
    rw [hhandler, henqueue, hbackup]
    by_cases hack : isAck c = true <;> simp [hack]
  | changing =>
    rw [hphase] at hfields
    rw [hfields.1]
    rfl

/-- The acknowledge keeps what is pending in the backup. -/
theorem Refines.acknowledge (h : Refines x a) (ha : a.phase = .awaiting) :
    Refines { x with state := x.state.acknowledge } a.acknowledge := by
  have hfields := h.fields
  rw [ha] at hfields
  obtain ⟨-, -, hset, hread, henqueue, hbackup⟩ := hfields
  refine ⟨⟨?_, hread, hset, rfl, rfl, hbackup⟩, ?_, ?_, h.accepted, h.delivered⟩
  · change x.state.enqueueRealtimeCommand.getD x.state.handler = .normal
    rw [henqueue]
    rfl
  · exact Cyclic.Queue.contents_clear
  · exact h.live

theorem Refines.receive (h : Refines x a) (c : α) (realtime : Bool) :
    ∃ x', x.receive isAck c realtime = some x' ∧ Refines x' (a.receive isAck n c realtime) := by
  rw [Session.receive, State.receive, h.enqueue, Input.receive]
  split_ifs with hack hreal
  · exact ⟨_, rfl, h.acknowledge hack.1⟩
  · rw [hreal]
    exact ⟨_, rfl, h⟩
  · rw [Bool.not_eq_true] at hreal
    rw [hreal]
    exact ⟨_, rfl, h.accept c⟩

theorem Refines.read (h : Refines x a) : Refines x.read a.read := by
  have hfields := h.fields
  by_cases hphase : a.phase = .awaiting
  · rw [hphase] at hfields
    have hread : x.state.read = (none, x.state) := by
      rw [State.read, hfields.2.1]
    rw [Session.read, hread, Input.read, if_pos hphase]
    exact ⟨h.fields, h.live, h.held, h.accepted, (List.append_nil _).trans h.delivered⟩
  · have hown : x.state.halRead = .own := by
      cases hp : a.phase with
      | normal =>
        rw [hp] at hfields
        exact hfields.2.1
      | awaiting => exact absurd hp hphase
      | changing =>
        rw [hp] at hfields
        exact hfields.2.1
    have hlive : x.state.rxbuffer.contents = a.live := h.live
    rw [Session.read, State.read, hown, State.serialRead, Input.read, if_neg hphase, Input.deliver]
    by_cases htail : x.state.rxbuffer.tail = x.state.rxbuffer.head
    · rw [Cyclic.Queue.contents_eq_nil_iff.mpr htail] at hlive
      rw [if_pos htail, ← hlive]
      refine ⟨h.fields, ?_, h.held, h.accepted, (List.append_nil _).trans h.delivered⟩
      exact h.live
    · rw [Cyclic.Queue.contents_eq_cons htail] at hlive
      rw [if_neg htail, ← hlive]
      exact ⟨h.fields.setBuffer rfl, rfl, h.held, h.accepted, congrArg (· ++ _) h.delivered⟩

/-- The backup replaces what can be read. -/
theorem State.suspend_changing {s : State n α} (hs : s.At .changing) :
    (s.streamRxSuspend false).2.At .normal ∧ (s.streamRxSuspend false).2.live = s.held ∧
      (s.streamRxSuspend false).2.held = [] := by
  obtain ⟨hhandler, hread, hset, henqueue, hbackup, hrxbackup⟩ := hs
  have hsuspend : (s.streamRxSuspend false).2 =
      { s with rxbuffer := s.rxbackup, rxbufferSet := false } := by
    simp [streamRxSuspend, restore, hset, hbackup, henqueue]
  rw [hsuspend]
  refine ⟨⟨hhandler, hread, rfl, henqueue, hrxbackup⟩, ?_, ?_⟩
  · rw [held, if_pos hbackup]
    rfl
  · rw [held, if_neg (by rw [hrxbackup]; exact Bool.false_ne_true)]

/-- The stream follows the input when everything received after the acknowledge has been read. -/
theorem Refines.suspend (h : Refines x a) (b : Bool)
    (hread : b = false → a.phase = .changing → a.live = []) :
    Refines (x.suspend b) (a.suspend b) := by
  have hfields := h.fields
  cases hphase : a.phase with
  | normal =>
    rw [hphase] at hfields
    obtain ⟨hhandler, hhal, hset, henqueue, hbackup⟩ := hfields
    cases b with
    | true =>
      have hsuspend : (x.state.streamRxSuspend true).2 = { x.state with
          rxbufferSet := true
          streamRead := x.state.halRead
          enqueueRealtimeCommand := some x.state.handler
          handler := .awaitToolchangeAck
          halRead := .null } := by
        simp [State.streamRxSuspend, hset]
      rw [Session.suspend, hsuspend, Input.suspend.eq_def, hphase]
      refine ⟨⟨rfl, rfl, rfl, hhal, ?_, hbackup⟩, h.live, h.held, h.accepted, h.delivered⟩
      exact congrArg some hhandler
    | false =>
      have hsuspend : (x.state.streamRxSuspend false).2 = x.state := by
        simp [State.streamRxSuspend, hset]
      rw [Session.suspend, hsuspend, Input.suspend.eq_def, hphase]
      exact h
  | awaiting =>
    rw [hphase] at hfields
    obtain ⟨hhandler, hhal, hset, hown, henqueue, hbackup⟩ := hfields
    cases b with
    | true =>
      have hsuspend : (x.state.streamRxSuspend true).2 = x.state := by
        simp [State.streamRxSuspend, hset]
      rw [Session.suspend, hsuspend, Input.suspend.eq_def, hphase]
      exact h
    | false =>
      have hsuspend : (x.state.streamRxSuspend false).2 = { x.state with
          rxbufferSet := false
          enqueueRealtimeCommand := none
          handler := .normal
          halRead := x.state.streamRead } := by
        simp [State.streamRxSuspend, State.restore, State.setEnqueueRtHandler, hset, hbackup,
          henqueue]
      rw [Session.suspend, hsuspend, Input.suspend.eq_def, hphase]
      exact ⟨⟨rfl, hown, rfl, rfl, hbackup⟩, h.live, h.held, h.accepted, h.delivered⟩
  | changing =>
    rw [hphase] at hfields
    cases b with
    | true =>
      have hsuspend : (x.state.streamRxSuspend true).2 = x.state := by
        simp [State.streamRxSuspend, hfields.2.2.1]
      rw [Session.suspend, hsuspend, Input.suspend.eq_def, hphase]
      exact h
    | false =>
      obtain ⟨hnormal, hlive, hheld⟩ := State.suspend_changing hfields
      rw [Input.suspend.eq_def, hphase, hread rfl hphase, List.append_nil]
      exact ⟨hnormal, hlive.trans h.held, hheld, h.accepted, h.delivered⟩

theorem Refines.tail_eq_head_iff (h : Refines x a) :
    x.state.rxbuffer.tail = x.state.rxbuffer.head ↔ a.live = [] := by
  rw [← h.live]
  exact Cyclic.Queue.contents_eq_nil_iff.symm

theorem Refines.backup_iff (h : Refines x a) :
    x.state.rxbuffer.backup = true ↔ a.phase = .changing := by
  have hfields := h.fields
  cases hphase : a.phase with
  | normal =>
    rw [hphase] at hfields
    simp [hfields.2.2.2.2]
  | awaiting =>
    rw [hphase] at hfields
    simp [hfields.2.2.2.2.2]
  | changing =>
    rw [hphase] at hfields
    simp [hfields.2.2.2.2.1]

/-- What the condition says about the input. -/
theorem Refines.permitted_iff (h : Refines x a) (op : Op α) :
    Permitted (some x) op ↔ (op = .suspend false → a.phase = .changing → a.live = []) := by
  rw [← h.backup_iff, ← h.tail_eq_head_iff]
  constructor
  · exact fun hp => hp x rfl
  · rintro hp _ ⟨⟩
    exact hp

/-- A step that meets the condition is followed by the input. -/
theorem Refines.step (h : Refines x a) {op : Op α} (hp : Permitted (some x) op) :
    ∃ x', exec isAck (some x) op = some x' ∧ Refines x' (a.exec isAck n op) := by
  cases op with
  | receive c realtime => exact h.receive c realtime
  | read => exact ⟨_, rfl, h.read⟩
  | suspend b =>
    refine ⟨_, rfl, h.suspend b ?_⟩
    rintro rfl
    exact (h.permitted_iff _).mp hp rfl

/-- A step keeps every character if and only if it meets the condition. -/
theorem Refines.conserved_step (h : Refines x a) (hc : a.Conserved) (op : Op α) :
    ∃ x', exec isAck (some x) op = some x' ∧ (Conserved x' ↔ Permitted (some x) op) := by
  by_cases hp : Permitted (some x) op
  · obtain ⟨x', hx', h'⟩ := h.step hp
    exact ⟨x', hx', iff_of_true (h'.conserved_iff.mpr (hc.exec h.held_eq_nil op)) hp⟩
  · obtain ⟨rfl, hphase, hlive⟩ : op = .suspend false ∧ a.phase = .changing ∧ a.live ≠ [] := by
      simpa only [h.permitted_iff, Classical.not_imp] using hp
    have hfields := h.fields
    rw [hphase] at hfields
    obtain ⟨-, hlive', hheld'⟩ := State.suspend_changing hfields
    refine ⟨_, rfl, iff_of_false ?_ hp⟩
    intro hlost
    have hkept := h.conserved_iff.mpr hc
    have hshort : x.accepted.Perm (x.delivered ++ ([] ++ x.state.held)) := by
      rw [← hheld', ← hlive']
      exact hlost
    have hlen := (hkept.symm.trans hshort).length_eq
    simp only [List.length_append, List.length_nil] at hlen
    exact hlive (h.live ▸ List.length_eq_zero_iff.mp (by omega))

/-- In every run whose resumptions find everything read that has been received after the
acknowledge, the stream delivers what the input delivers, and no character is lost or delivered
twice. A step keeps every character if and only if it meets the condition. -/
theorem suspension (isAck : α → Bool) (zero : α) (ops : List (Op α))
    (h : Transition.Along (exec isAck) Permitted
      (some { state := State.init n zero : Session n α }) ops) :
    ∃ x, ops.foldl (exec isAck) (some { state := State.init n zero }) = some x ∧
      Refines x (ops.foldl (Input.exec isAck n) {}) ∧ Conserved x ∧
      ∀ op, ∃ x', exec isAck (some x) op = some x' ∧ (Conserved x' ↔ Permitted (some x) op) := by
  have hrun : ∀ (ops : List (Op α)) (x : Session n α) (a : Input α), Refines x a → a.Conserved →
      Transition.Along (exec isAck) Permitted (some x) ops →
      ∃ x', ops.foldl (exec isAck) (some x) = some x' ∧
        Refines x' (ops.foldl (Input.exec isAck n) a) ∧
        (ops.foldl (Input.exec isAck n) a).Conserved := by
    intro ops
    induction ops with
    | nil => exact fun x a h hc _ => ⟨x, rfl, h, hc⟩
    | cons op ops ih =>
      rintro x a h hc ⟨hp, hops⟩
      obtain ⟨x', hx', h'⟩ := h.step hp
      rw [hx'] at hops
      rw [List.foldl_cons, List.foldl_cons, hx']
      exact ih x' _ h' (hc.exec h.held_eq_nil op) hops
  obtain ⟨x, hx, hrefines, hc⟩ := hrun ops _ _ (refines_init zero) (List.Perm.refl []) h
  exact ⟨x, hx, hrefines, hrefines.conserved_iff.mpr hc, hrefines.conserved_step hc⟩

/-- `CMD_TOOL_ACK`. -/
def cmdToolAck (c : UInt8) : Bool := c = 0xA3

/-- Two characters are pending when the tool change is acknowledged, and one that is received later
is read before the input is resumed. -/
def toolChange : List (Op UInt8) :=
  [.receive 71 false, .suspend true, .receive 49 false, .read, .receive 0xA3 true,
    .receive 36 false, .read, .suspend false, .read, .read]

theorem suspension_toolChange :
    ∃ x, toolChange.foldl (exec cmdToolAck) (some { state := State.init 1023 (0 : UInt8) }) = some x ∧
      Refines x (toolChange.foldl (Input.exec cmdToolAck 1023) {}) ∧ Conserved x ∧
      ∀ op, ∃ x', exec cmdToolAck (some x) op = some x' ∧
        (Conserved x' ↔ Permitted (some x) op) := by
  apply suspension cmdToolAck (0 : UInt8) toolChange
  have hother : ∀ (o : Option (Session 1023 UInt8)) (op : Op UInt8), op ≠ .suspend false →
      Permitted o op := fun _ _ hne _ _ he => absurd he hne
  refine ⟨hother _ _ nofun, hother _ _ nofun, hother _ _ nofun, hother _ _ nofun,
    hother _ _ nofun, hother _ _ nofun, hother _ _ nofun, ?_, hother _ _ nofun,
    hother _ _ nofun, trivial⟩
  rintro x ⟨⟩ - -
  rfl

/-- A character is received after the acknowledge and not read before the input is resumed; it has
been accepted, but is neither delivered nor there any more. -/
theorem not_suspension :
    (([.suspend true, .receive 0xA3 true, .receive 71 false, .suspend false] : List (Op UInt8)).foldl
      (exec cmdToolAck) (some { state := State.init 1023 (0 : UInt8) })).map
        (fun x => (x.accepted, x.delivered, x.state.held, x.state.live)) =
          some ([71], [], [], []) := by
  rfl

end Suspend

end Inspector
