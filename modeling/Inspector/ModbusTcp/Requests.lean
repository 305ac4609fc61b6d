import Inspector.ModbusTcp.Sending
import Inspector.Transition.Run

/-! # The requests

As long as the first request is not unlinked in front of others, and no request is unlinked while a
blocking send waits for it, every request that has been queued stays queued, in order, until it has
been replied to or has timed out, and reports at most one outcome.
-/

namespace Inspector

namespace ModbusTcp

open Modbus (Callbacks maxAduSize)
open Streams (Allocator)

variable {s s' : State} {l : List ℕ} {q : ℕ} {alloc : Allocator}

namespace State

variable (s)

/-- A blocking send goes on to wait, or its request is not in front of others and it has been
replied to or has timed out after it was transmitted. -/
def Turns (ticks : UInt32) : Prop :=
  ∀ q ∈ s.waiting.head?, ¬((s.entries q).sync = true ∧ ticks - (s.entries q).timeout < 50) →
    ((s.entries q).sync = true → (s.entries q).timeout ≠ 0) ∧
      (s.requests.head? = some q → s.requests = [q])

/-- A packet has the number of an entry. -/
def isFor (p : Packet) (i : ℕ) : Bool := (s.entries i).adu.tid = p.tid

/-- A reply to an entry fits in a message, and if the entry is unlinked it is neither waited for nor
in front of others. -/
def Answers (p : Packet) (i : ℕ) : Prop :=
  ((s.entries i).adu.pdu.code = p.code → (s.entries i).callbacks.onRxPacket.isSome = true →
    2 ≤ p.length.toNat ∧ p.length.toNat ≤ maxAduSize) ∧
      ((s.entries i).sync = false → Removable s s.requests i)

end State

/-- A blocking send stops to wait, or it does not. -/
theorem Good.turn (h : Good s l) {ticks : UInt32} (hturn : s.Turns ticks) :
    ∃ s' l', s.turn ticks = some s' ∧ Good s' l' := by
  rw [State.turn]
  cases hw : s.waiting with
  | nil => exact ⟨s, l, rfl, h⟩
  | cons q w =>
    have hwaits : q ∈ s.waiting := by
      rw [hw]
      exact List.mem_cons_self
    simp only [h.mem_allocated hwaits, Option.bind_some]
    split_ifs with hgo
    · exact ⟨s, l, rfl, h⟩
    · obtain ⟨hsent, hhead⟩ := hturn q (by rw [hw]; rfl) hgo
      obtain ⟨l₁, l₂, rfl⟩ := List.append_of_mem (h.queued.waiting hwaits)
      rw [h.queued.requests_eq] at hhead
      have hwsub : w ⊆ s.waiting := by
        rw [hw]
        exact List.subset_cons_self q w
      have hnodup := h.queued.nodup_waiting
      rw [hw] at hnodup
      obtain ⟨hq, hnodup⟩ := List.nodup_cons.mp hnodup
      let s₁ : State := { s with waiting := w }
      have hqueued : Queued s₁ (l₁ ++ q :: l₂) :=
        ⟨h.queued.chain, h.queued.nodup, h.queued.allocated,
          fun i hi => h.queued.waiting (hwsub hi), hnodup⟩
      have haccounted : Accounted s₁ (l₁ ++ q :: l₂) :=
        ⟨h.accounted.numbers, h.accounted.settled,
          fun i hi => h.accounted.answered i (hwsub hi), h.accounted.once, h.accounted.future⟩
      have hmem : ∀ i ∈ l₁ ++ l₂, i ∈ s.waiting → i ∈ w := by
        intro i hi hiw
        rw [hw] at hiw
        exact (List.mem_cons.mp hiw).resolve_left (h.queued.ne_of_mem hi)
      have hquiet : Quiet s₁ (l₁ ++ l₂) := fun i hi hs =>
        h.quiet i (append_subset_middle hi) fun hiw => hs (hmem i hi hiw)
      have hsync : ∀ i ∈ l₁ ++ l₂, (s₁.entries i).sync = true → i ∈ s₁.waiting :=
        fun i hi hs => hmem i hi (h.sync i (append_subset_middle hi) hs)
      have hfront : l₁ = [] → l₂ = [] := by
        rintro rfl
        exact (List.cons_eq_cons.mp (hhead rfl)).2
      rw [State.stopWaiting]
      split_ifs with hexp
      · have hevents : Concerns (s.number q) [.expired (s.number q)] :=
          ⟨by simp, by simp [Event.reported]⟩
        obtain ⟨hunlink, hgood⟩ := hqueued.retire haccounted hquiet hsync hfront hq hevents
          (h.accounted.once _) (.inr List.mem_cons_self)
        refine ⟨_, _, ?_, hgood⟩
        exact congrArg (Option.map Prod.snd) hunlink
      · have hreplied : (s.entries q).sync = false := by
          by_contra hs
          rw [Bool.not_eq_false] at hs
          exact hexp ⟨hs, hsent hs⟩
        have hevents : Concerns (s.number q) [] := ⟨by simp, by simp⟩
        obtain ⟨hunlink, hgood⟩ := hqueued.retire haccounted hquiet hsync hfront hq hevents
          (h.accounted.once _) (.inl (h.accounted.answered q hwaits hreplied))
        refine ⟨_, _, ?_, hgood⟩
        exact congrArg (Option.map Prod.snd) hunlink

/-- What is recorded when an entry is replied to. -/
theorem State.answer_eq (s : State) (p : Packet) (e : Entry)
    (hfits : e.adu.pdu.code = p.code → e.callbacks.onRxPacket.isSome = true →
      2 ≤ p.length.toNat ∧ p.length.toNat ≤ maxAduSize) :
    ∃ s' events, s.answer p e = some s' ∧ s'.log (.replied e.number) = s.record events ∧
      Concerns e.number events ∧ (events.filterMap Event.reported).length ≤ 1 ∧
      .replied e.number ∈ events := by
  have hone : ∀ outcome, Concerns e.number [.replied e.number, .outcome e.number outcome] :=
    fun outcome => ⟨by simp, by simp [Event.reported]⟩
  have hnone : Concerns e.number [.replied e.number] := ⟨by simp, by simp [Event.reported]⟩
  rw [answer]
  split_ifs with hcode hexception hpacket hlength
  · exact ⟨_, _, rfl, rfl, hone _, Nat.le_refl 1, List.mem_cons_self⟩
  · exact ⟨s, _, rfl, rfl, hnone, Nat.zero_le 1, List.mem_cons_self⟩
  · exact ⟨_, _, rfl, rfl, hone _, Nat.le_refl 1, List.mem_cons_self⟩
  · exact absurd (hfits (not_not.mp hcode) hpacket) hlength
  · exact ⟨s, _, rfl, rfl, hnone, Nat.zero_le 1, List.mem_cons_self⟩

/-- A blocking send is told that its request has been replied to. -/
theorem Good.reply (h : Good s l) (hq : q ∈ l) (hsync : (s.entries q).sync = true)
    {events : List Event} (hevents : Concerns (s.number q) events)
    (hcount : (events.filterMap Event.reported).length ≤ 1)
    (hreplied : .replied (s.number q) ∈ events) :
    Good ((s.record events).setEntry q { s.entries q with sync := false }) l := by
  have hnext : ((s.record events).setEntry q { s.entries q with sync := false }).next = s.next := by
    ext1 j
    by_cases hj : j = q <;> simp [State.next, State.setEntry, State.record, hj]
  have hnumber : ((s.record events).setEntry q { s.entries q with sync := false }).number =
      s.number := by
    ext1 j
    by_cases hj : j = q <;> simp [State.number, State.setEntry, State.record, hj]
  have hother : ∀ j, j ≠ q →
      ((s.record events).setEntry q { s.entries q with sync := false }).entries j = s.entries j :=
    fun j hj => Function.update_of_ne hj _ _
  have hself : (((s.record events).setEntry q { s.entries q with sync := false }).entries q).sync =
      false := by
    simp [State.setEntry]
  have hzero : s.reports (s.number q) = 0 := h.quiet q hq fun _ => hsync
  have hrecord := h.accounted.record hevents (h.accounted.number_lt hq)
    (by rw [hzero, Nat.zero_add]; exact hcount)
  refine ⟨⟨?_, h.queued.nodup, h.queued.allocated, h.queued.waiting, h.queued.nodup_waiting⟩,
    ⟨?_, hrecord.settled, ?_, hrecord.once, hrecord.future⟩, ?_, ?_⟩
  · rw [hnext]
    exact h.queued.chain
  · rw [hnumber]
    exact hrecord.numbers
  · intro j hj hs
    rw [hnumber]
    by_cases he : j = q
    · subst he
      exact List.mem_append_left _ hreplied
    · rw [hother j he] at hs
      exact hrecord.answered j hj hs
  · intro j hj hs
    by_cases he : j = q
    · subst he
      rw [hself] at hs
      exact absurd (hs (h.sync j hj hsync)) Bool.false_ne_true
    · rw [hother j he] at hs
      rw [hnumber]
      have hne : s.number j ≠ s.number q := fun heq => he (h.accounted.number_inj hj hq heq)
      exact (hevents.reports_of_ne hne).trans (h.quiet j hj hs)
  · intro j hj hs
    by_cases he : j = q
    · subst he
      exact absurd (hself.symm.trans hs) Bool.false_ne_true
    · rw [hother j he] at hs
      exact h.sync j hj hs

/-- A reply is handled. -/
theorem Good.processPacket (h : Good s l) {p : Packet}
    (hp : 8 ≤ p.totLen → ∀ i ∈ s.requests.find? (s.isFor p), s.Answers p i) :
    ∃ s' l', s.processPacket p = some s' ∧ Good s' l' := by
  rw [State.processPacket]
  split_ifs with hlen
  · exact ⟨s, l, rfl, h⟩
  · rw [h.queued.requests_eq] at hp
    rcases h.queued.scan_eq fun _ e => e.adu.tid = p.tid with
      ⟨-, hscan⟩ | ⟨l₁, q, l₂, rfl, hq, hbefore, hscan⟩
    · rw [hscan]
      exact ⟨s, l, rfl, h⟩
    · have hnot : ∀ i ∈ l₁, ¬s.isFor p i = true := fun i hi => Bool.eq_false_iff.mp (hbefore i hi)
      have hfor : s.isFor p q = true := hq
      have hfound : (l₁ ++ q :: l₂).find? (s.isFor p) = some q := by
        rw [List.find?_append, List.find?_eq_none.mpr hnot, List.find?_cons_of_pos hfor]
        rfl
      have hmem : q ∈ l₁ ++ q :: l₂ := List.mem_append_right _ List.mem_cons_self
      obtain ⟨hfits, hremove⟩ := hp (Nat.le_of_not_lt hlen) q hfound
      obtain ⟨s₁, events, hanswer, hrecord, hevents, hcount, hreplied⟩ :=
        s.answer_eq p (s.entries q) hfits
      rw [hscan, Option.bind_some]
      simp only [h.queued.entry_eq hmem, Option.bind_some, hanswer, hrecord]
      rw [State.settle]
      split_ifs with hsync
      · exact ⟨_, _, rfl, h.reply hmem hsync hevents hcount hreplied⟩
      · rw [Bool.not_eq_true] at hsync
        have hq := hremove hsync
        rw [h.queued.requests_eq] at hq
        obtain ⟨hunlink, hgood⟩ := h.retire hq hevents hcount (.inl hreplied)
        exact ⟨_, _, congrArg (Option.map Prod.snd) hunlink, hgood⟩

/-- The condition on a call. -/
def State.Allows (s : State) (alloc : Allocator) : Op → Prop
  | .send before env pdu _ _ block => s.Sends alloc before env pdu block
  | .goOn ticks => s.Turns ticks
  | .poll idx env => (s.session idx).connected = true → s.Processes idx env
  | .sent idx env => (s.setSession idx { s.session idx with txBusy := false }).Processes idx env
  | .recv p => 8 ≤ p.totLen → ∀ i ∈ s.requests.find? (s.isFor p), s.Answers p i
  | .connect _ _ => True

instance (s : State) (idx : Fin nClients) (env : Env) : Decidable (s.Processes idx env) :=
  have (i : ℕ) : Decidable (Removable s s.requests i) := inferInstanceAs (Decidable (_ ∧ _))
  inferInstanceAs (Decidable (_ ∧ _))

instance (s : State) (before : UInt32) (env : Env) (pdu : Pdu) (block : Bool) :
    Decidable (s.Sends alloc before env pdu block) :=
  have (idx : Fin nClients) : Decidable (s.Blocks alloc before idx env pdu) :=
    inferInstanceAs (Decidable (_ ∧ _))
  inferInstanceAs (Decidable (_ ∧ _))

instance (s : State) (p : Packet) (i : ℕ) : Decidable (s.Answers p i) :=
  have (i : ℕ) : Decidable (Removable s s.requests i) := inferInstanceAs (Decidable (_ ∧ _))
  inferInstanceAs (Decidable (_ ∧ _))

instance (s : State) : ∀ op, Decidable (s.Allows alloc op)
  | .send before env pdu _ _ block =>
    inferInstanceAs (Decidable (s.Sends alloc before env pdu block))
  | .goOn _ => inferInstanceAs (Decidable (∀ q ∈ s.waiting.head?, _ → _ ∧ _))
  | .poll idx env => inferInstanceAs (Decidable (_ → s.Processes idx env))
  | .sent idx env => inferInstanceAs (Decidable (State.Processes _ idx env))
  | .recv p => inferInstanceAs (Decidable (_ → ∀ i ∈ s.requests.find? (s.isFor p), s.Answers p i))
  | .connect _ _ => inferInstanceAs (Decidable True)

/-- A call that meets the condition has a result and keeps the invariant. -/
theorem Good.step (h : Good s l) {op : Op} (hop : s.Allows alloc op) :
    ∃ s' l', exec alloc (some s) op = some s' ∧ Good s' l' := by
  cases op with
  | send before env pdu callbacks context block =>
    obtain ⟨r, s', l', hsend, hgood⟩ := h.send hop callbacks context
    refine ⟨s', l', ?_, hgood⟩
    rw [exec, Option.bind_some, hsend]
    rfl
  | goOn ticks => exact h.turn hop
  | poll idx env =>
    rw [exec, Option.bind_some, State.modbusTcpClientPoll]
    split_ifs with hconnected
    · obtain ⟨s', l', hprocess, hgood, -⟩ := h.process (hop hconnected)
      exact ⟨s', l', hprocess, hgood⟩
    · exact ⟨s, l, rfl, h⟩
  | sent idx env =>
    obtain ⟨s', l', hprocess, hgood, -⟩ := (h.setSession idx _).process hop
    exact ⟨s', l', hprocess, hgood⟩
  | recv p => exact h.processPacket hop
  | connect idx connected => exact ⟨_, l, rfl, h.setSession idx _⟩

theorem good_init (id : Fin nClients → Option UInt8) : Good (State.init id) [] := by
  refine ⟨⟨.nil, List.nodup_nil, .refl [], nofun, List.nodup_nil⟩, ⟨rfl, nofun, nofun, ?_, ?_⟩,
    nofun, nofun⟩
  · exact fun _ => Nat.zero_le 1
  · exact fun _ _ => ⟨nofun, rfl⟩

/-- What is expected of a state: the queue holds the requests that have not been unlinked, in order;
those that have been unlinked had been replied to or had timed out; the entries of the queue and
those that blocking sends wait for have not been freed; and no request has reported two outcomes. -/
structure Sound (s : State) : Prop where
  queue : ∃ l, Linked.Chain s.next s.queue l ∧ l ⊆ s.allocated ∧
    l.map s.number = (List.range s.made).filter fun k => .unlinked k ∉ s.history
  settled : ∀ k, .unlinked k ∈ s.history → .replied k ∈ s.history ∨ .expired k ∈ s.history
  waiting : s.waiting ⊆ s.allocated
  once : ∀ k, s.reports k ≤ 1

theorem Good.sound (h : Good s l) : Sound s := by
  refine ⟨⟨l, h.queued.chain, h.queued.allocated.subset, h.accounted.numbers⟩, h.accounted.settled,
    ?_, h.accounted.once⟩
  exact fun i hi => h.queued.allocated.subset (h.queued.waiting hi)

/-- The condition on a call in a run. -/
def Permitted (alloc : Allocator) (o : Option State) (op : Op) : Prop := ∀ s ∈ o, s.Allows alloc op

/-- In every run of calls that meet the condition every state is as expected, and no call uses an
entry that has been freed or writes a reply outside of its message. -/
theorem request_queue (alloc : Allocator) (id : Fin nClients → Option UInt8) (ops : List Op)
    (h : Transition.Along (exec alloc) (Permitted alloc) (some (State.init id)) ops) :
    ∀ o ∈ Transition.states (exec alloc) (some (State.init id)) ops, ∃ s, o = some s ∧ Sound s := by
  let I : Option State → Prop := fun o => ∃ s l, o = some s ∧ Good s l
  have hstep : ∀ o op, Permitted alloc o op → I o → I (exec alloc o op) := by
    rintro o op hop ⟨s, l, rfl, hs⟩
    obtain ⟨s', l', hs', hgood⟩ := hs.step (hop s rfl)
    exact ⟨s', l', hs', hgood⟩
  have hinit : I (some (State.init id)) := ⟨_, [], rfl, good_init id⟩
  intro o ho
  obtain ⟨s, l, hs, hgood⟩ := Transition.forall_states hstep hinit h o ho
  exact ⟨s, hs, hgood.sound⟩

instance (o : Option State) (op : Op) : Decidable (Permitted alloc o op) :=
  inferInstanceAs (Decidable (∀ s ∈ o, s.Allows alloc op))

/-- A request that writes a register of a unit. -/
def writeRegister : Pdu := { length := 6, uid := 1, code := 6, data := [0, 0, 0, 1] }

/-- Callbacks for a reply and for an exception. -/
def callbacks : Callbacks := { onRxPacket := some 1, onRxException := some (.user 1) }

/-- A reply of a length to the request with a number. -/
def replyTo (tid length : UInt8) : Packet :=
  ⟨12, fun i => [0, tid, 0, 0, 0, length, 1, 6].getD i 0⟩

/-- The settings of all units. -/
def units : Fin nClients → Option UInt8 := fun _ => some 1

def sendAsync : Op := .send 100 {} writeRegister (some callbacks) 0 false

def sendBlocking (ticks : UInt32) : Op :=
  .send ticks { ticks := ticks } writeRegister (some callbacks) 0 true

/-- Two requests, each replied to before the next one is made. -/
def dialogue : List Op :=
  [.connect 3 true, sendAsync, .poll 3 { ticks := 100 }, .recv (replyTo 1 6), .sent 3 {},
    sendBlocking 200, .recv (replyTo 2 6), .goOn 210]

theorem request_queue_dialogue :
    Transition.Along (exec Streams.firstFit) (Permitted Streams.firstFit)
        (some (State.init units)) dialogue ∧
      ∀ o ∈ Transition.states (exec Streams.firstFit) (some (State.init units)) dialogue,
        ∃ s, o = some s ∧ Sound s := by
  have h : Transition.Along (exec Streams.firstFit) (Permitted Streams.firstFit)
      (some (State.init units)) dialogue := by decide
  exact ⟨h, request_queue Streams.firstFit units dialogue h⟩

/-- When the first of two requests has been replied to, the other one is not in the queue any more;
a blocking send uses its entry when that has been freed at its timeout; and a reply of thirteen
bytes is written outside of its message. -/
theorem not_request_queue :
    ([.connect 3 true, sendAsync, sendAsync, .poll 3 { ticks := 100 }, .recv (replyTo 1 6)].foldl
      (exec Streams.firstFit) (some (State.init units))).map
        (fun s => (s.queue, s.made, decide (.unlinked 1 ∈ s.history))) = some (none, 2, false) ∧
    ([sendBlocking 100, .sent 3 { ticks := 150 }, .goOn 150].foldl
      (exec Streams.firstFit) (some (State.init units))).isNone = true ∧
    ([sendBlocking 100, .recv (replyTo 1 13)].foldl
      (exec Streams.firstFit) (some (State.init units))).isNone = true := by
  refine ⟨?_, ?_, ?_⟩ <;> decide

end ModbusTcp

end Inspector
