import Inspector.Modbus.Rtu
import Inspector.Transition.Run

/-! # The asynchronous queue

A message that is in flight stays in its place of the queue, in front of those that wait. It is
overwritten when the queue has been flushed behind it and filled up to its place again; and a
message that is not put in the queue is lost although the send returns true.
-/

namespace Inspector

namespace Modbus

variable {n : ℕ} {s s' : State n} {i : Fin (n + 1)} {env : Env}

/-- A reply to the message can be read. -/
def Message.Fits (msg : Message) : Prop := msg.rxLength ≠ 0 ∧ msg.rxLength ≤ maxAduSize

/-- What holds of the state at all times. -/
structure Coherent (s : State n) : Prop where
  idle : s.packet = none ↔ s.state = .Idle ∨ s.state = .Silent
  isBlocking : s.isBlocking = false ↔ s.blocking = .none
  sync : s.packet = some .sync ↔ ∃ msg callbacks, s.blocking = .awaitReply msg callbacks
  queued : ∀ i, s.packet = some (.queue i) →
    (s.state = .TX ∨ s.state = .AwaitReply) ∧ (s.queue.data i).async = true ∧
      (s.queue.data i).msg.Fits ∧ ¬s.queue.Holds i
  waiting : ∀ e ∈ s.queue.contents, e.async = true ∧ e.msg.Fits
  syncMsg : s.packet = some .sync →
    s.syncMsg.async = false ∧ (s.state = .TX ∨ s.state = .AwaitReply → s.syncMsg.msg.Fits)
  awaitIdle : ∀ msg callbacks, s.blocking = .awaitIdle msg callbacks → msg.Fits
  awaitReply : ∀ msg callbacks, s.blocking = .awaitReply msg callbacks → msg.Fits

/-- The message in flight is as it was and its place is not used again, unless it has been handled. -/
def InFlightKept (s s' : State n) : Prop :=
  ∀ i, s.packet = some (.queue i) → s'.packet = some (.queue i) →
    s'.queue.data i = s.queue.data i ∧ ¬s'.queue.Holds i

/-- The messages that wait in the queue. -/
def State.pending (s : State n) : List Message := s.queue.contents.map Entry.msg

/-- A step that puts nothing in the queue, and takes out of it what it sends. -/
structure Works (s s' : State n) (sent : Option Message) : Prop where
  coherent : Coherent s'
  pending : s.pending = sent.toList ++ s'.pending
  inFlight : InFlightKept s s'

theorem coherent_init : Coherent ({} : State n) := by
  have hnil : ({} : State n).queue.contents = [] := Cyclic.Queue.contents_eq_nil_iff.mpr rfl
  refine ⟨iff_of_true rfl (.inl rfl), iff_of_true rfl rfl, iff_of_false nofun ?_, nofun, ?_, nofun,
    nofun, nofun⟩
  · rintro ⟨msg, callbacks, h⟩
    cases h
  · rw [hnil]
    exact nofun

theorem Coherent.inFlightKept (h : Coherent s) (hqueue : s'.queue = s.queue) :
    InFlightKept s s' := by
  intro i hi _
  rw [hqueue]
  exact ⟨rfl, (h.queued i hi).2.2.2⟩

theorem Coherent.works_self (h : Coherent s) : Works s s none :=
  ⟨h, rfl, h.inFlightKept rfl⟩

/-- Times do not matter. -/
theorem Coherent.setTimes (h : Coherent s) (rxTimeout : ℕ) (silenceUntil : UInt32) :
    Coherent { s with rxTimeout := rxTimeout, silenceUntil := silenceUntil } :=
  ⟨h.idle, h.isBlocking, h.sync, h.queued, h.waiting, h.syncMsg, h.awaitIdle, h.awaitReply⟩

/-- The first message of the queue is sent. -/
theorem Coherent.works_pollIdle (h : Coherent s) :
    Works s (s.pollIdle env).1 (s.pollIdle env).2 := by
  rw [State.pollIdle]
  split_ifs with hsend
  · obtain ⟨hne, hpacket, hblocking⟩ := hsend
    have hcontents := Cyclic.Queue.contents_eq_cons hne
    have hfirst := h.waiting _ (by rw [hcontents]; exact List.mem_cons_self)
    have hnone : s.blocking = .none := h.isBlocking.mp hblocking
    refine ⟨⟨?_, h.isBlocking, ?_, ?_, ?_, nofun, h.awaitIdle, h.awaitReply⟩, ?_, ?_⟩
    · exact iff_of_false nofun nofun
    · refine iff_of_false nofun ?_
      rintro ⟨msg, callbacks, hb⟩
      rw [State.txMessage] at hb
      exact Blocking.noConfusion (hnone.symm.trans hb)
    · intro i hi
      obtain rfl : s.queue.tail = i := by
        simpa [State.txMessage] using hi
      exact ⟨.inl rfl, hfirst.1, hfirst.2, Cyclic.Queue.not_holds_tail hne⟩
    · intro e he
      exact h.waiting e (by rw [hcontents]; exact List.mem_cons_of_mem _ he)
    · rw [State.pending, hcontents]
      rfl
    · intro i hi
      rw [hpacket] at hi
      cases hi
  · exact h.works_self

/-- The message in flight has been handled. -/
theorem Coherent.works_release (h : Coherent s) (hpacket : s.packet = some (.queue i)) (e : Entry)
    (rxTimeout : ℕ) (silenceUntil : UInt32) :
    Works s
      { s with
        queue := { s.queue with data := Function.update s.queue.data i e }
        packet := none
        state := .Silent
        rxTimeout := rxTimeout
        silenceUntil := silenceUntil } none := by
  obtain ⟨-, -, -, hholds⟩ := h.queued i hpacket
  have hcontents := Cyclic.Queue.contents_update hholds e
  have hblocking : ¬∃ msg callbacks, s.blocking = .awaitReply msg callbacks := by
    rw [← h.sync, hpacket]
    exact nofun
  refine ⟨⟨?_, h.isBlocking, ?_, nofun, ?_, nofun, h.awaitIdle, h.awaitReply⟩, ?_, ?_⟩
  · exact iff_of_true rfl (.inr rfl)
  · exact iff_of_false nofun hblocking
  · intro e' he'
    exact h.waiting e' (hcontents ▸ he')
  · exact congrArg (List.map Entry.msg) hcontents.symm
  · exact fun _ _ => nofun

/-- A blocking send is told what has become of its message. -/
theorem Coherent.works_sync (h : Coherent s) (hpacket : s.packet = some .sync) (e : Entry)
    (he : e.async = false) (state : BusState) (hstate : state ≠ .Idle ∧ state ≠ .Silent)
    (hfits : state = .TX ∨ state = .AwaitReply → e.msg.Fits) (rxTimeout : ℕ)
    (silenceUntil : UInt32) :
    Works s
      { s with
        syncMsg := e
        state := state
        rxTimeout := rxTimeout
        silenceUntil := silenceUntil } none := by
  refine ⟨⟨?_, h.isBlocking, h.sync, ?_, h.waiting, fun _ => ⟨he, hfits⟩, h.awaitIdle,
    h.awaitReply⟩, rfl, h.inFlightKept rfl⟩
  · rw [hpacket]
    exact iff_of_false nofun (not_or.mpr hstate)
  · intro i hi
    cases hpacket.symm.trans hi

theorem Works.of_rxTimeout {rxTimeout : ℕ} {sent : Option Message}
    (h : Works { s with rxTimeout := rxTimeout } s' sent) : Works s s' sent :=
  ⟨h.coherent, h.pending, h.inFlight⟩

/-- A blocking send is told that there is no good reply, or that there is one. -/
theorem Coherent.works_silence (h : Coherent s) (hpacket : s.packet = some .sync) {e : Entry}
    (he : e.async = false) {state : BusState}
    (hstate : state = .TimeoutException ∨ state = .Exception ∨ state = .GotReply) :
    Works s (({ s with syncMsg := e } : State n).silence env state) none := by
  apply h.works_sync hpacket e he state
  · rcases hstate with rfl | rfl | rfl <;> exact ⟨nofun, nofun⟩
  · rcases hstate with rfl | rfl | rfl <;> rintro (⟨⟨⟩⟩ | ⟨⟨⟩⟩)

theorem Coherent.works_timeout (h : Coherent s) {slot : Slot n} (hpacket : s.packet = some slot) :
    Works s (s.timeout env slot) none := by
  cases slot with
  | queue i =>
    have hasync : (s.entry (.queue i)).async = true := (h.queued i hpacket).2.1
    have hworks := h.works_release hpacket (s.queue.data i) s.rxTimeout
      (env.ticks + env.silenceTimeout)
    rw [Function.update_eq_self] at hworks
    rw [State.timeout, if_pos hasync]
    exact hworks
  | sync =>
    have hasync : ¬(s.entry .sync).async = true := by
      rw [State.entry, (h.syncMsg hpacket).1]
      exact Bool.false_ne_true
    rw [State.timeout, if_neg hasync]
    split_ifs
    · exact h.works_silence hpacket (h.syncMsg hpacket).1 (.inr (.inl rfl))
    · exact h.works_silence hpacket (h.syncMsg hpacket).1 (.inl rfl)

theorem Coherent.works_checkReply (h : Coherent s) {slot : Slot n} (hpacket : s.packet = some slot)
    {e : Entry} (he : e.async = (s.entry slot).async) (len : ℕ) :
    Works s ((s.setEntry e slot).checkReply env slot len) none := by
  cases slot with
  | queue i =>
    have hentry : (s.setEntry e (.queue i)).entry (.queue i) = e := by
      simp [State.setEntry, State.entry]
    have hasync : e.async = true := he.trans (h.queued i hpacket).2.1
    rw [State.checkReply, State.crcError, State.gotReply, hentry, if_pos hasync, if_pos hasync]
    split_ifs
    · exact h.works_release hpacket e s.rxTimeout _
    · simp only [State.setEntry, Function.update_idem]
      exact h.works_release hpacket _ s.rxTimeout _
    · exact h.works_release hpacket e s.rxTimeout _
  | sync =>
    have hentry : (s.setEntry e .sync).entry .sync = e := rfl
    have hasync : e.async = false := he.trans (h.syncMsg hpacket).1
    have hnot : ¬e.async = true := by
      rw [hasync]
      exact Bool.false_ne_true
    rw [State.checkReply, State.crcError, State.gotReply, hentry, if_neg hnot, if_neg hnot]
    split_ifs
    · exact h.works_silence hpacket hasync (.inr (.inl rfl))
    · exact h.works_silence hpacket hasync (.inr (.inr rfl))

/-- The reply is read and dealt with. -/
theorem Coherent.works_reply (h : Coherent s) (env : Env) {slot : Slot n}
    (hpacket : s.packet = some slot)
    (hfits : (s.entry slot).msg.Fits) :
    ∃ s', s.reply env slot = some s' ∧ Works s s' none := by
  have hbounds : ¬((s.entry slot).msg.rxLength = 0 ∨ maxAduSize < (s.entry slot).msg.rxLength) :=
    not_or.mpr ⟨hfits.1, hfits.2.not_gt⟩
  refine ⟨_, if_neg hbounds, ?_⟩
  apply h.works_checkReply hpacket
  rfl

theorem Coherent.works_pollReply (h : Coherent s) (env : Env) {slot : Slot n}
    (hpacket : s.packet = some slot) (hstate : s.state = .AwaitReply) :
    ∃ s', s.pollReply env slot = some s' ∧ Works s s' none := by
  have htimes := fun rxTimeout => h.setTimes rxTimeout s.silenceUntil
  have hfits : (s.entry slot).msg.Fits := by
    cases slot with
    | queue i => exact (h.queued i hpacket).2.2.1
    | sync => exact (h.syncMsg hpacket).2 (.inr hstate)
  rw [State.pollReply]
  split_ifs
  · exact ⟨_, rfl, ((htimes 0).works_timeout hpacket).of_rxTimeout⟩
  · obtain ⟨s', hs', hworks⟩ := (htimes (s.rxTimeout - 1)).works_reply env hpacket hfits
    exact ⟨s', hs', hworks.of_rxTimeout⟩
  · exact ⟨_, rfl, (htimes (s.rxTimeout - 1)).works_self.of_rxTimeout⟩

/-- A change of the state of the bus that does not concern the packet. -/
theorem Coherent.works_setState (h : Coherent s) (state : BusState) (silenceUntil : UInt32)
    (hidle : (s.state = .Idle ∨ s.state = .Silent) ↔ (state = .Idle ∨ state = .Silent))
    (hbusy : state = .TX ∨ state = .AwaitReply → s.state = .TX ∨ s.state = .AwaitReply)
    (hqueued : ∀ i, s.packet = some (.queue i) → state = .TX ∨ state = .AwaitReply) :
    Works s { s with state := state, silenceUntil := silenceUntil } none := by
  refine ⟨⟨h.idle.trans hidle, h.isBlocking, h.sync, ?_, h.waiting, ?_, h.awaitIdle,
    h.awaitReply⟩, rfl, h.inFlightKept rfl⟩
  · intro i hi
    exact ⟨hqueued i hi, (h.queued i hi).2⟩
  · intro hpacket
    exact ⟨(h.syncMsg hpacket).1, fun hs => (h.syncMsg hpacket).2 (hbusy hs)⟩

/-- The poll keeps what waits, apart from the message that it sends. -/
theorem Coherent.works_poll (h : Coherent s) (env : Env) :
    ∃ s' sent, s.modbusPoll env = some (s', sent) ∧ Works s s' sent := by
  rw [State.modbusPoll]
  cases hstate : s.state with
  | Idle => exact ⟨_, _, rfl, h.works_pollIdle⟩
  | Silent =>
    refine ⟨_, _, rfl, ?_⟩
    have hnone : s.packet = none := h.idle.mpr (.inr hstate)
    split_ifs
    · apply h.works_setState .Idle 0 (iff_of_true (.inr hstate) (.inl rfl))
      · rintro (⟨⟨⟩⟩ | ⟨⟨⟩⟩)
      · intro i hi
        cases hnone.symm.trans hi
    · exact h.works_self
  | TX =>
    refine ⟨_, _, rfl, ?_⟩
    split_ifs
    · apply h.works_setState .AwaitReply s.silenceUntil
      · rw [hstate]
        exact iff_of_false nofun nofun
      · exact fun _ => .inl hstate
      · exact fun _ _ => .inr rfl
    · exact h.works_self
  | AwaitReply =>
    cases hpacket : s.packet with
    | none =>
      rcases h.idle.mp hpacket with hs | hs <;> cases hstate.symm.trans hs
    | some slot =>
      obtain ⟨s', hs', hworks⟩ := h.works_pollReply env hpacket hstate
      refine ⟨s', none, ?_, hworks⟩
      simp only [Option.bind_some]
      rw [hs']
      rfl
  | TimeoutException =>
    cases hpacket : s.packet with
    | none =>
      rcases h.idle.mp hpacket with hs | hs <;> cases hstate.symm.trans hs
    | some slot =>
      refine ⟨_, _, rfl, ?_⟩
      cases slot with
      | queue i =>
        rcases (h.queued i hpacket).1 with hs | hs <;> cases hstate.symm.trans hs
      | sync =>
        have hasync : ¬(s.entry .sync).async = true := by
          rw [State.entry, (h.syncMsg hpacket).1]
          exact Bool.false_ne_true
        rw [if_neg hasync]
        exact h.works_silence hpacket (h.syncMsg hpacket).1 (.inl rfl)
  | GotReply => exact ⟨s, none, rfl, h.works_self⟩
  | Exception => exact ⟨s, none, rfl, h.works_self⟩
  | Retry => exact ⟨s, none, rfl, h.works_self⟩

/-- A blocking send begins or sends again. -/
theorem Coherent.works_txSync (h : Coherent s) (env : Env)
    (hqueued : ∀ i, s.packet ≠ some (.queue i))
    {msg : Message} (hfits : msg.Fits) (hblocking : s.isBlocking = true)
    (callbacks callbacks' : Option Callbacks) (silenceUntil : UInt32) :
    Works s
      (({ s with
        silenceUntil := silenceUntil
        syncMsg := addMessage env msg false callbacks'
        blocking := .awaitReply msg callbacks } : State n).txMessage env .sync) none := by
  refine ⟨⟨iff_of_false nofun nofun, ?_, iff_of_true rfl ⟨msg, callbacks, rfl⟩, nofun, h.waiting,
    fun _ => ⟨rfl, fun _ => hfits⟩, nofun, ?_⟩, rfl, ?_⟩
  · refine iff_of_false ?_ nofun
    change ¬s.isBlocking = false
    rw [hblocking]
    exact Bool.noConfusion
  · rintro _ _ ⟨⟩
    exact hfits
  · exact fun i hi => absurd hi (hqueued i)

theorem Coherent.works_finish (h : Coherent s) {s₁ : State n} (hqueue : s₁.queue = s.queue) :
    Works s s₁.finish none := by
  refine ⟨⟨iff_of_true rfl ?_, iff_of_true rfl rfl, iff_of_false nofun ?_, nofun, ?_, nofun, nofun,
    nofun⟩, ?_, fun _ _ => nofun⟩
  · rw [State.finish]
    split_ifs
    · exact .inr rfl
    · exact .inl rfl
  · rintro ⟨msg, callbacks, hb⟩
    cases hb
  · exact fun e he => h.waiting e (hqueue ▸ he)
  · rw [State.pending, ← hqueue]
    rfl

/-- What a callback that is called in the loop does to the state. -/
theorem State.call_eq (env : Env) (slot : Slot n) (callback : Option Callback) :
    ∃ state silenceUntil, s.call env slot callback =
      { s with state := state, silenceUntil := silenceUntil } ∧
      (state = s.state ∨ state = .Retry) := by
  rw [call, retryException]
  split_ifs
  · exact ⟨_, _, rfl, .inr rfl⟩
  · exact ⟨s.state, s.silenceUntil, rfl, .inl rfl⟩
  · exact ⟨s.state, s.silenceUntil, rfl, .inl rfl⟩

/-- A blocking send that has called a callback either goes on or ends. -/
theorem Coherent.works_goOn (h : Coherent s) (hpacket : s.packet = some .sync)
    (hblocking : s.isBlocking = true)
    (hstate : s.state = .TimeoutException ∨ s.state = .Exception) (callback : Option Callback) :
    (((s.call env .sync callback).goOn .sync).isBlocking = true →
      Works s ((s.call env .sync callback).goOn .sync) none) ∧
    Works s ((s.call env .sync callback).goOn .sync).finish none := by
  obtain ⟨state, silenceUntil, hcall, hs⟩ := State.call_eq (s := s) env .sync callback
  rw [hcall]
  refine ⟨fun hgo => ?_, h.works_finish rfl⟩
  have hgoOn : ({ s with state := state, silenceUntil := silenceUntil } : State n).goOn .sync =
      { s with state := state, silenceUntil := silenceUntil } := by
    rw [State.goOn] at hgo ⊢
    simp only at hgo
    rw [hgo, ← hblocking]
  rw [hgoOn]
  apply h.works_setState
  · rcases hstate with hstate | hstate <;> rcases hs with rfl | rfl <;> rw [hstate] <;>
      exact iff_of_false nofun nofun
  · rcases hs with rfl | rfl
    · exact id
    · rintro (⟨⟨⟩⟩ | ⟨⟨⟩⟩)
  · intro i hi
    cases hpacket.symm.trans hi

/-- A turn of the loop of a blocking send. -/
theorem Coherent.works_turn (h : Coherent s) (env : Env) {msg : Message}
    {callbacks : Option Callbacks}
    (hawait : s.blocking = .awaitReply msg callbacks) :
    ∃ s₁, s.turn env msg callbacks = some s₁ ∧ (s₁.isBlocking = true → Works s s₁ none) ∧
      Works s s₁.finish none := by
  have hpacket : s.packet = some .sync := h.sync.mpr ⟨msg, callbacks, hawait⟩
  have hblocking : s.isBlocking = true := by
    rw [← Bool.not_eq_false, h.isBlocking, hawait]
    exact Blocking.noConfusion
  have hself : (s.isBlocking = true → Works s s none) ∧ Works s s.finish none :=
    ⟨fun _ => h.works_self, h.works_finish rfl⟩
  rw [State.turn]
  cases hstate : s.state with
  | TimeoutException =>
    rw [hpacket]
    exact ⟨_, rfl, h.works_goOn hpacket hblocking (.inl hstate) _⟩
  | Exception =>
    rw [hpacket]
    exact ⟨_, rfl, h.works_goOn hpacket hblocking (.inr hstate) _⟩
  | GotReply =>
    rw [hpacket]
    exact ⟨_, rfl, nofun, h.works_finish rfl⟩
  | Retry =>
    rw [hpacket]
    refine ⟨s.retry env .sync msg callbacks, rfl, ?_⟩
    rw [State.retry]
    split_ifs
    · refine ⟨fun _ => ?_, h.works_finish rfl⟩
      have hqueued : ∀ i, s.packet ≠ some (.queue i) := fun i hi => by
        cases hpacket.symm.trans hi
      have hworks := h.works_txSync env hqueued (h.awaitReply msg callbacks hawait)
        hblocking callbacks (some (State.lastRetry (s.entry .sync).callbacks callbacks)) 0
      rw [← hawait] at hworks
      exact hworks
    · exact hself
  | Idle => exact ⟨s, rfl, hself⟩
  | Silent => exact ⟨s, rfl, hself⟩
  | TX => exact ⟨s, rfl, hself⟩
  | AwaitReply => exact ⟨s, rfl, hself⟩

/-- A blocking send keeps what waits. -/
theorem Coherent.works_goOnBlocking (h : Coherent s) (env : Env) :
    ∃ s', s.goOnBlocking env = some s' ∧ Works s s' none := by
  rw [State.goOnBlocking]
  cases hb : s.blocking with
  | none => exact ⟨s, rfl, h.works_self⟩
  | awaitIdle msg callbacks =>
    have hblocking : s.isBlocking = true := by
      rw [← Bool.not_eq_false, h.isBlocking, hb]
      exact Blocking.noConfusion
    simp only
    split_ifs with hidle
    · refine ⟨_, rfl, ?_⟩
      have hnone : s.packet = none := h.idle.mpr (.inl hidle)
      have hqueued : ∀ i, s.packet ≠ some (.queue i) := fun i hi => by
        cases hnone.symm.trans hi
      exact h.works_txSync env hqueued (h.awaitIdle msg callbacks hb) hblocking callbacks callbacks
        s.silenceUntil
    · exact ⟨s, rfl, h.works_self⟩
  | awaitReply msg callbacks =>
    obtain ⟨s₁, hs₁, hworks, hfinish⟩ := h.works_turn env hb
    refine ⟨if s₁.isBlocking then s₁ else s₁.finish, ?_, ?_⟩
    · simp only [hs₁, Option.map_some]
    · split_ifs with hgo
      · exact hworks hgo
      · exact hfinish

/-- The condition on a call: a message for which the send returns true is put in the queue, and not
in the place of the one in flight. -/
def State.Allows (s : State n) : Op → Prop
  | .send env msg callbacks block =>
    if msg.oversize then callbacks.isSome = true
    else if block ∧ ¬env.blockingEvent then True
    else s.free ∧ Cyclic.next s.queue.head ≠ s.queue.tail ∧ s.packet ≠ some (.queue s.queue.head)
  | _ => True

/-- The messages for which the send has returned true are those that have been transmitted or
flushed and those that wait, each once and in order. -/
def Kept (x : Session n) : Prop := x.returned = x.settled.map Prod.fst ++ x.state.pending

/-- A call has a result, keeps every message and leaves the one in flight alone. -/
def Meets (x : Session n) (op : Op) : Prop :=
  ∃ x', exec (some x) op = some x' ∧ Kept x' ∧ InFlightKept x.state x'.state

theorem Message.fits_withCrc {msg : Request} (h : ¬msg.oversize = true) :
    msg.withCrc.Fits := by
  have hsize := msg.two_le_rxLength
  have hle : ¬(maxAduSize < msg.txLength ∨ maxAduSize < msg.rxLength) := by
    simpa [Message.oversize] using h
  refine ⟨?_, Nat.le_of_not_lt fun hlt => hle (.inr hlt)⟩
  change msg.rxLength ≠ 0
  omega

theorem State.enqueue_of (hfree : s.free = true) (hroom : Cyclic.next s.queue.head ≠ s.queue.tail)
    (msg : Message) (callbacks : Option Callbacks) :
    s.enqueue env msg callbacks =
      { s with queue := s.queue.put (addMessage env msg true callbacks) } :=
  if_pos ⟨hfree, hroom⟩

/-- A message is put in the queue, not in the place of the one in flight. -/
theorem Coherent.put (h : Coherent s) (hroom : Cyclic.next s.queue.head ≠ s.queue.tail)
    (hpacket : s.packet ≠ some (.queue s.queue.head)) {e : Entry} (he : e.async = true)
    (hfits : e.msg.Fits) : Coherent { s with queue := s.queue.put e } := by
  refine ⟨h.idle, h.isBlocking, h.sync, ?_, ?_, h.syncMsg, h.awaitIdle, h.awaitReply⟩
  · intro i hi
    obtain ⟨hstate, hasync, hmsg, hholds⟩ := h.queued i hi
    have hne : i ≠ s.queue.head := by
      rintro rfl
      exact hpacket hi
    have hdata : (s.queue.put e).data i = s.queue.data i := Function.update_of_ne hne _ _
    refine ⟨hstate, ?_, ?_, Cyclic.Queue.not_holds_put hroom hholds hne e⟩
    · exact (congrArg Entry.async hdata).trans hasync
    · exact (congrArg (fun e => e.msg.Fits) hdata).mpr hmsg
  · intro e' he'
    change e' ∈ (s.queue.put e).contents at he'
    rw [Cyclic.Queue.contents_put hroom] at he'
    rcases List.mem_append.mp he' with he' | he'
    · exact h.waiting e' he'
    · obtain rfl := List.mem_singleton.mp he'
      exact ⟨he, hfits⟩

theorem Coherent.flush (h : Coherent s) : Coherent s.modbusRtuFlushQueue := by
  have hnil : s.modbusRtuFlushQueue.queue.contents = [] := Cyclic.Queue.contents_clear
  refine ⟨h.idle, h.isBlocking, h.sync, ?_, ?_, h.syncMsg, h.awaitIdle, h.awaitReply⟩
  · intro i hi
    obtain ⟨hstate, hasync, hmsg, -⟩ := h.queued i hi
    exact ⟨hstate, hasync, hmsg, Cyclic.Queue.not_holds_clear i⟩
  · rw [hnil]
    exact nofun

/-- A blocking send begins. -/
theorem Coherent.begin (h : Coherent s) (hblocking : ¬s.isBlocking = true) {msg : Message}
    (hfits : msg.Fits) (callbacks : Option Callbacks) :
    Coherent { s with isBlocking := true, blocking := .awaitIdle msg callbacks } := by
  have hnone : s.blocking = .none := h.isBlocking.mp (by simpa using hblocking)
  have hsync : s.packet ≠ some .sync := by
    rw [Ne, h.sync, hnone]
    rintro ⟨_, _, hb⟩
    cases hb
  refine ⟨h.idle, iff_of_false nofun nofun, iff_of_false hsync ?_, h.queued, h.waiting,
    fun hs => absurd hs hsync, ?_, nofun⟩
  · rintro ⟨_, _, hb⟩
    cases hb
  · rintro _ _ ⟨⟩
    exact hfits

variable {x : Session n}

/-- A step that puts nothing in the queue keeps every message. -/
theorem Works.kept {sent : Option Message} (h : Works x.state s' sent) (hkept : Kept x) :
    Kept { x with
      state := s'
      settled := x.settled ++ sent.toList.map fun msg => (msg, true) } := by
  rw [Kept, h.pending] at hkept
  rw [Kept, hkept, List.map_append, List.map_map, List.append_assoc]
  cases sent <;> rfl

/-- The invariant of a run. -/
structure Good (x : Session n) : Prop where
  coherent : Coherent x.state
  kept : Kept x

theorem Works.good {sent : Option Message} (h : Works x.state s' sent) (hkept : Kept x) :
    Good { x with
      state := s'
      settled := x.settled ++ sent.toList.map fun msg => (msg, true) } :=
  ⟨h.coherent, h.kept hkept⟩

theorem Good.send (h : Good x) (env : Env) (msg : Request) (callbacks : Option Callbacks)
    (block : Bool) (hop : x.state.Allows (.send env msg callbacks block)) :
    ∃ x', x.send env msg.toMessage callbacks block = some x' ∧ Good x' ∧
      InFlightKept x.state x'.state := by
  obtain ⟨hcoherent, hkept⟩ := h
  have hself : InFlightKept x.state x.state := hcoherent.inFlightKept rfl
  rw [State.Allows] at hop
  rw [Session.send, State.modbusSendRtu]
  split_ifs at hop ⊢ with hsize hblock hbusy
  · obtain ⟨c, rfl⟩ := Option.isSome_iff_exists.mp hop
    exact ⟨x, rfl, ⟨hcoherent, hkept⟩, hself⟩
  · exact ⟨x, rfl, ⟨hcoherent, hkept⟩, hself⟩
  · have hbegin := hcoherent.begin hbusy (Message.fits_withCrc hsize) callbacks
    obtain ⟨s', hs', hworks⟩ := hbegin.works_goOnBlocking env
    rw [hs']
    refine ⟨{ x with state := s' }, rfl, ⟨hworks.coherent, ?_⟩, hworks.inFlight⟩
    exact hkept.trans (congrArg (x.settled.map Prod.fst ++ ·) hworks.pending)
  · obtain ⟨hfree, hroom, hpacket⟩ := hop
    rw [State.enqueue_of hfree hroom]
    have hput := hcoherent.put (e := addMessage env msg.withCrc true callbacks) hroom hpacket rfl
      (Message.fits_withCrc hsize)
    refine ⟨_, rfl, ⟨hput, ?_⟩, ?_⟩
    · change x.returned ++ [msg.withCrc] = x.settled.map Prod.fst ++
        (x.state.queue.put _).contents.map Entry.msg
      rw [hkept, Cyclic.Queue.contents_put hroom, List.map_append, List.append_assoc]
      rfl
    · intro i hi hi'
      have hne : i ≠ x.state.queue.head := by
        rintro rfl
        exact hpacket hi
      exact ⟨Function.update_of_ne hne _ _, (hput.queued i hi').2.2.2⟩

/-- A send that does not meet the condition loses a message, or uses the place of the one in flight. -/
theorem Good.not_send (h : Good x) (env : Env) (msg : Request) (callbacks : Option Callbacks)
    (block : Bool) (hop : ¬x.state.Allows (.send env msg callbacks block)) :
    ¬Meets x (.send env msg callbacks block) := by
  rintro ⟨x', hx', hkept', hinFlight⟩
  rw [exec, Option.bind_some, Session.send, State.modbusSendRtu] at hx'
  rw [State.Allows] at hop
  split_ifs at hop hx' with hsize hblock
  · rw [Option.not_isSome_iff_eq_none.mp hop] at hx'
    cases hx'
  · exact hop trivial
  · exact hop trivial
  · obtain rfl := Option.some.inj hx'
    by_cases hput : x.state.free = true ∧ Cyclic.next x.state.queue.head ≠ x.state.queue.tail
    · obtain ⟨hfree, hroom⟩ := hput
      have hpacket : x.state.packet = some (.queue x.state.queue.head) := by
        by_contra hne
        exact hop ⟨hfree, hroom, hne⟩
      simp only [State.enqueue_of hfree hroom] at hinFlight
      exact (hinFlight _ hpacket hpacket).2 (Cyclic.Queue.holds_put hroom _)
    · have hsame : x.state.enqueue env msg.withCrc callbacks = x.state := if_neg hput
      simp only [hsame] at hkept'
      change x.returned ++ [msg.withCrc] = x.settled.map Prod.fst ++ x.state.pending at hkept'
      rw [← h.kept] at hkept'
      exact List.cons_ne_nil _ _ (List.append_right_eq_self.mp hkept')

/-- A call that meets the condition keeps the invariant and leaves the message in flight alone. -/
theorem Good.step (h : Good x) {op : Op} (hop : x.state.Allows op) :
    ∃ x', exec (some x) op = some x' ∧ Good x' ∧ InFlightKept x.state x'.state := by
  obtain ⟨hcoherent, hkept⟩ := h
  cases op with
  | send env msg callbacks block => exact Good.send ⟨hcoherent, hkept⟩ env msg callbacks block hop
  | goOn env =>
    obtain ⟨s', hs', hworks⟩ := hcoherent.works_goOnBlocking env
    refine ⟨{ x with state := s' }, ?_, ?_, hworks.inFlight⟩
    · rw [exec, Option.bind_some, Session.goOn, hs']
      rfl
    · have hgood := hworks.good hkept
      rwa [Option.toList_none, List.map_nil, List.append_nil] at hgood
  | poll env =>
    obtain ⟨s', sent, hs', hworks⟩ := hcoherent.works_poll env
    refine ⟨_, ?_, hworks.good hkept, hworks.inFlight⟩
    rw [exec, Option.bind_some, Session.poll, hs']
    rfl
  | flush =>
    refine ⟨x.flush, rfl, ⟨hcoherent.flush, ?_⟩, fun i _ _ => ⟨rfl, Cyclic.Queue.not_holds_clear i⟩⟩
    have hnil : x.flush.state.pending = [] :=
      congrArg (List.map Entry.msg) Cyclic.Queue.contents_clear
    rw [Kept, hnil, List.append_nil]
    change x.returned = (x.settled ++ x.state.queue.contents.map fun e => (e.msg, false)).map Prod.fst
    rw [List.map_append, List.map_map]
    exact hkept

theorem Good.meets_iff (h : Good x) (op : Op) : Meets x op ↔ x.state.Allows op := by
  constructor
  · intro hmeets
    by_contra hop
    cases op with
    | send env msg callbacks block => exact h.not_send env msg callbacks block hop hmeets
    | goOn env => exact hop trivial
    | poll env => exact hop trivial
    | flush => exact hop trivial
  · intro hop
    obtain ⟨x', hx', hgood, hinFlight⟩ := h.step hop
    exact ⟨x', hx', hgood.kept, hinFlight⟩

/-- The condition on a call in a run. -/
def Permitted (o : Option (Session n)) (op : Op) : Prop := ∀ x ∈ o, x.state.Allows op

/-- A request of eight bytes that is told apart by its context. -/
def request (context : ℕ) : Request where
  txLength := 8
  rxLength := 8
  context := context
  two_le_txLength := by decide
  two_le_rxLength := by decide

/-- A message that is not blocking. -/
def sendAsync (context : ℕ) : Op := .send {} (request context) none false

/-- A message is sent while another one is in flight, and the queue is flushed. -/
def requests : List Op := [sendAsync 1, .poll {}, sendAsync 2, .flush]

end Modbus

end Inspector
