import Inspector.Telnet.Session
import Inspector.Transition.Run

/-! # Transparency of the telnet connection

What has been received is what has been read, then what is in the receive buffer, then what is left
of the pending packet; a packet that arrives while one is pending is lost. What has been written is
what TCP has accepted, then what is in `txbuf`, then what is in the transmit buffer; when TCP takes
a part of `txbuf` the rest is moved by one place too many.
-/

namespace Inspector

namespace Telnet

variable {n m : ℕ} {α : Type*} {s s' : State n m α} {tcp : Tcp}

namespace State

/-- What is left of the pending packet. -/
def pending (s : State n m α) : List α := s.packet.elim [] PacketChain.chars

/-- The characters on their way in and out. -/
def incoming (s : State n m α) : List α := s.rxbuf.contents ++ s.pending

def outgoing (s : State n m α) : List α := s.buffered ++ s.transmit.contents

theorem takePart_contents (rx : Cyclic.Queue n α) (l : List α) :
    (takePart rx l).1.contents ++ (takePart rx l).2 = rx.contents ++ l := by
  induction l generalizing rx with
  | nil => rfl
  | cons c l ih =>
    rw [takePart]
    split_ifs with hfull
    · rfl
    · rw [ih, Cyclic.Queue.contents_put hfull, List.append_assoc]
      rfl

/-- The loop over a packet puts a part of it in the receive buffer and keeps the rest. -/
theorem takePacket_contents (rx : Cyclic.Queue n α) (payload : List α) (next : List (List α)) :
    (takePacket rx payload next).1.contents ++
      (takePacket rx payload next).2.elim [] PacketChain.chars =
        rx.contents ++ (payload ++ next.flatten) := by
  induction next generalizing rx payload with
  | nil =>
    have hpart := takePart_contents rx payload
    rw [takePacket, List.flatten_nil, List.append_nil, ← hpart]
    obtain ⟨rx', rest⟩ := takePart rx payload
    cases rest with
    | nil => rfl
    | cons c l => exact congrArg (rx'.contents ++ ·) (List.append_nil (c :: l))
  | cons l next ih =>
    have hpart := takePart_contents rx payload
    rw [takePacket, ← List.append_assoc, ← hpart]
    obtain ⟨rx', rest⟩ := takePart rx payload
    cases rest with
    | nil =>
      rw [List.append_nil, List.flatten_cons]
      exact ih rx' l
    | cons c cs => exact (List.append_assoc rx'.contents (c :: cs) (l :: next).flatten).symm

theorem input_incoming (s : State n m α) : s.input.incoming = s.incoming := by
  rw [input]
  cases hpacket : s.packet with
  | none => rfl
  | some p =>
    have hpending : s.pending = p.chars := by
      rw [pending, hpacket]
      rfl
    have htake := takePacket_contents s.rxbuf p.payload p.next
    change _ = s.rxbuf.contents ++ s.pending
    rw [hpending]
    exact htake

/-- What the loop that fills `txbuf` does to it and leaves alone. -/
structure Fills (s s' : State n m α) (k : ℕ) : Prop where
  txLen : s'.txLen = s.txLen + k
  outgoing : s'.outgoing = s.outgoing
  rxbuf : s'.rxbuf = s.rxbuf
  packet : s'.packet = s.packet
  waiting : s'.waiting = s.waiting

theorem buffered_pull (s : State n m α) :
    s.pull.buffered = s.buffered ++ [s.transmit.data s.transmit.tail] := by
  have hlast : s.pull.txbuf s.txLen = s.transmit.data s.transmit.tail :=
    Function.update_self _ _ _
  have hfront : ∀ i ∈ List.range s.txLen, s.pull.txbuf i = s.txbuf i := fun i hi =>
    Function.update_of_ne (List.mem_range.mp hi).ne _ _
  change (List.range (s.txLen + 1)).map s.pull.txbuf = _
  rw [List.range_succ, List.map_append, List.map_singleton, hlast, List.map_congr_left hfront]
  rfl

theorem fills_fill {k : ℕ} (hk : k ≤ s.transmit.contents.length) : Fills s (fill k s) k := by
  induction k generalizing s with
  | zero => exact ⟨rfl, rfl, rfl, rfl, rfl⟩
  | succ k ih =>
    have hne : s.transmit.tail ≠ s.transmit.head := by
      rw [Ne, ← Cyclic.Queue.contents_eq_nil_iff]
      intro hnil
      rw [hnil] at hk
      exact Nat.not_succ_le_zero k hk
    have hcontents := Cyclic.Queue.contents_eq_cons hne
    rw [hcontents, List.length_cons] at hk
    have hfills := ih (s := s.pull) (Nat.le_of_succ_le_succ hk)
    refine ⟨?_, ?_, hfills.rxbuf, hfills.packet, hfills.waiting⟩
    · change (fill k s.pull).txLen = _
      rw [hfills.txLen, Nat.add_comm k 1, ← Nat.add_assoc]
      rfl
    · change (fill k s.pull).outgoing = _
      rw [hfills.outgoing, outgoing, outgoing, hcontents, buffered_pull, List.append_assoc]
      rfl

/-- `txbuf` is filled with everything there is to send, and never beyond its end. -/
theorem fills_refill (hlen : s.txLen ≤ m) :
    ∃ k, Fills s s.refill k ∧ s.refill.txLen ≤ m := by
  rw [refill]
  split_ifs with hzero
  · have hfills := fills_fill (s := s) le_rfl
    refine ⟨_, hfills, ?_⟩
    rw [hfills.txLen, hzero, Nat.zero_add]
    exact Cyclic.Queue.length_contents_le s.transmit
  · exact ⟨0, ⟨rfl, rfl, rfl, rfl, rfl⟩, hlen⟩

/-- Filling does not look at the receive buffer. -/
theorem fill_input (k : ℕ) (rx : Cyclic.Queue n α) (packet : Option (PacketChain α)) :
    fill k { s with rxbuf := rx, packet := packet } =
      { fill k s with rxbuf := rx, packet := packet } := by
  induction k generalizing s with
  | zero => rfl
  | succ k ih => exact ih (s := s.pull)

theorem refill_input (rx : Cyclic.Queue n α) (packet : Option (PacketChain α)) :
    ({ s with rxbuf := rx, packet := packet } : State n m α).refill =
      { s.refill with rxbuf := rx, packet := packet } := by
  rw [refill, refill]
  simp only
  split_ifs
  · exact fill_input _ _ _
  · rfl

/-- The loop does not try more than it is given. -/
theorem tcpWrite_le (tcp : Tcp) (fuel : ℕ) {len : ℕ} (hlen : 0 < len) :
    (tcpWrite tcp fuel len).2 ≤ len := by
  induction fuel generalizing len with
  | zero => exact le_rfl
  | succ fuel ih =>
    have hsmaller : tcp.smaller len ≤ len := by
      rw [Tcp.smaller]
      split_ifs
      · exact hlen
      · exact Nat.div_le_self len 2
    rw [tcpWrite]
    cases tcp.write len with
    | OK => exact le_rfl
    | other => exact le_rfl
    | MEM =>
      simp only
      split_ifs with hgo
      · exact (ih (Nat.zero_lt_one.trans hgo)).trans hsmaller
      · exact hsmaller

/-- What is in `txbuf` after a part of it has been taken. -/
theorem buffered_shift (len : ℕ) :
    (s.shift len).buffered =
      (List.range (s.txLen - len)).map fun i => s.txbuf (len + 1 + i) := by
  rw [shift, buffered]
  apply List.map_congr_left
  intro i hi
  exact if_pos (List.mem_range.mp hi)

theorem drop_buffered (len : ℕ) :
    s.buffered.drop len = (List.range (s.txLen - len)).map fun i => s.txbuf (len + i) := by
  apply List.ext_getElem
  · simp [buffered]
  · intro i _ _
    simp [buffered]

/-- Moving the rest of `txbuf` leaves it as it is if and only if each character is the same as the
one behind it. -/
theorem shift_iff (len : ℕ) :
    (s.shift len).buffered = s.buffered.drop len ↔
      ∀ i < s.txLen - len, s.txbuf (len + i) = s.txbuf (len + 1 + i) := by
  rw [buffered_shift, drop_buffered, List.map_inj_left]
  simp only [List.mem_range, eq_comm]

/-- What TCP takes leaves the rest of `txbuf` as it is. -/
def Takes (tcp : Tcp) (s : State n m α) : Prop :=
  ∀ len, tcpWrite tcp s.refill.txLen s.refill.txLen = (.OK, len) →
    ∀ i < s.refill.txLen - len, s.refill.txbuf (len + i) = s.refill.txbuf (len + 1 + i)

/-- The condition on a call: no packet is received while one is pending, what TCP takes leaves the
rest of `txbuf` as it is, and no other character has been put while a write has waited. -/
def Allows (s : State n m α) : Op α → Prop
  | .recv p tcp =>
    s.packet = none ∧ ((takePacket s.rxbuf p.payload p.next).2 = none → s.Takes tcp)
  | .handler tcp => s.Takes tcp
  | .resume =>
    ∀ w ∈ s.waiting.head?, s.transmit.tail ≠ w.2 → w.2 = Cyclic.next s.transmit.head
  | _ => True

/-- What a call of the output part does. -/
theorem transmitBuffer_eq (tcp : Tcp) (hlen : s.txLen ≤ m) :
    ∃ taken s', s.transmitBuffer tcp = some (taken, s') ∧ s'.rxbuf = s.rxbuf ∧
      s'.packet = s.packet ∧ s'.txLen ≤ m ∧
      (s.outgoing = taken ++ s'.outgoing ↔
        ∀ len, tcpWrite tcp s.txLen s.txLen = (.OK, len) →
          ∀ i < s.txLen - len, s.txbuf (len + i) = s.txbuf (len + 1 + i)) := by
  rw [transmitBuffer]
  by_cases hzero : s.txLen = 0
  · rw [if_pos hzero]
    refine ⟨[], s, rfl, rfl, rfl, hlen, iff_of_true rfl fun len _ i hi => ?_⟩
    rw [hzero, Nat.zero_sub] at hi
    exact absurd hi (Nat.not_lt_zero i)
  · rw [if_neg hzero]
    have hle := tcpWrite_le tcp s.txLen (Nat.pos_of_ne_zero hzero)
    obtain ⟨err, len⟩ := tcpWrite tcp s.txLen s.txLen
    cases err with
    | OK =>
      have hiff : (∀ k, (Err.OK, len) = (Err.OK, k) →
          ∀ i < s.txLen - k, s.txbuf (k + i) = s.txbuf (k + 1 + i)) ↔
          (s.shift len).buffered = s.buffered.drop len := by
        rw [shift_iff]
        constructor
        · exact fun h => h len rfl
        · rintro h k ⟨⟩
          exact h
      rw [hiff]
      simp only [sent]
      split_ifs with hall
      · refine ⟨_, _, rfl, rfl, rfl, Nat.zero_le m, iff_of_true ?_ ?_⟩
        · have hlength : s.buffered.length = len := by
            rw [buffered, List.length_map, List.length_range, hall]
          rw [← hlength, List.take_length]
          rfl
        · rw [buffered_shift, drop_buffered, hall, Nat.sub_self]
          rfl
      · refine ⟨_, _, rfl, rfl, rfl, (Nat.sub_le _ _).trans hlen, ?_⟩
        change s.buffered ++ s.transmit.contents =
          s.buffered.take len ++ ((s.shift len).buffered ++ s.transmit.contents) ↔ _
        rw [← List.append_assoc, List.append_left_inj]
        constructor
        · intro h
          exact (List.append_cancel_left ((List.take_append_drop len s.buffered).trans h)).symm
        · intro h
          rw [h, List.take_append_drop]
    | MEM => exact ⟨[], s, rfl, rfl, rfl, hlen, iff_of_true rfl fun _ => nofun⟩
    | other => exact ⟨[], s, rfl, rfl, rfl, hlen, iff_of_true rfl fun _ => nofun⟩

theorem input_eq (s : State n m α) :
    s.input = { s with rxbuf := s.input.rxbuf, packet := s.input.packet } := by
  rw [input]
  cases hpacket : s.packet with
  | none => rfl
  | some p => rfl

/-- The handler keeps what is on its way in; it keeps what is on its way out if and only if TCP
takes what leaves the rest of `txbuf` as it is. -/
theorem telnetStreamHandler_eq (tcp : Tcp) (hlen : s.txLen ≤ m) :
    ∃ taken s', s.telnetStreamHandler tcp = some (taken, s') ∧ s'.incoming = s.incoming ∧
      s'.txLen ≤ m ∧ (s.outgoing = taken ++ s'.outgoing ↔ s.Takes tcp) := by
  obtain ⟨k, hfills, hle⟩ := fills_refill hlen
  have hrefill : s.input.refill =
      { s.refill with rxbuf := s.input.rxbuf, packet := s.input.packet } := by
    rw [input_eq s]
    exact refill_input _ _
  obtain ⟨taken, s', hs', hrx, hpacket, hle', hiff⟩ :=
    transmitBuffer_eq (s := s.input.refill) tcp (by rw [hrefill]; exact hle)
  refine ⟨taken, s', hs', ?_, hle', ?_⟩
  · rw [← input_incoming s, incoming, incoming, pending, pending, hrx, hpacket, hrefill]
  · rw [← hfills.outgoing]
    rw [hrefill] at hiff
    exact hiff

/-- The received packet is kept if none is pending. -/
theorem telnetRecv_eq (tcp : Tcp) (hlen : s.txLen ≤ m) (p : Pbuf α) :
    ∃ taken s', s.telnetRecv tcp p = some (taken, s') ∧ s'.txLen ≤ m ∧
      (s'.incoming = s.incoming ++ p.chars ∧ s.outgoing = taken ++ s'.outgoing ↔
        s.Allows (.recv p tcp)) := by
  cases hpacket : s.packet with
  | some q =>
    have hne : p.chars ≠ [] := fun h => p.payload_ne_nil (List.append_eq_nil_iff.mp h).1
    refine ⟨[], s, ?_, hlen, iff_of_false ?_ ?_⟩
    · rw [telnetRecv, hpacket]
      rfl
    · rintro ⟨hin, -⟩
      exact hne (List.self_eq_append_right.mp hin)
    · rintro ⟨hnone, -⟩
      cases hpacket.symm.trans hnone
  | none =>
    have hincoming : s.incoming = s.rxbuf.contents := by
      rw [incoming, pending, hpacket]
      exact List.append_nil _
    have hnot : ¬s.packet.isSome = true := by
      rw [hpacket]
      exact Bool.false_ne_true
    have htake := takePacket_contents s.rxbuf p.payload p.next
    rw [hincoming, telnetRecv, if_neg hnot, Allows]
    generalize takePacket s.rxbuf p.payload p.next = r at htake ⊢
    obtain ⟨rx, rest⟩ := r
    cases rest with
    | none =>
      have hpending : ({ s with rxbuf := rx } : State n m α).pending = [] := by
        rw [pending]
        simp only [hpacket]
        rfl
      obtain ⟨taken, s', hs', hin, hle, hiff⟩ :=
        telnetStreamHandler_eq (s := { s with rxbuf := rx }) tcp hlen
      have htakes : ({ s with rxbuf := rx } : State n m α).Takes tcp ↔ s.Takes tcp := by
        rw [Takes, Takes, refill_input rx s.packet]
      refine ⟨taken, s', hs', hle, ?_⟩
      rw [htakes] at hiff
      constructor
      · rintro ⟨-, hout⟩
        exact ⟨hpacket, fun _ => hiff.mp hout⟩
      · rintro ⟨-, ht⟩
        refine ⟨?_, hiff.mpr (ht rfl)⟩
        rw [hin, incoming, hpending]
        exact htake
    | some rest =>
      exact ⟨[], _, rfl, hlen, iff_of_true ⟨htake, rfl⟩ ⟨hpacket, nofun⟩⟩

/-- A write puts its character behind the others, or waits. -/
theorem streamPutC_outgoing (s : State n m α) (c : α) :
    (s.streamPutC c).outgoing =
      s.outgoing ++ if s.transmit.tail = Cyclic.next s.transmit.head then [] else [c] := by
  rw [streamPutC]
  split_ifs with hfull
  · exact (List.append_nil _).symm
  · have hput := Cyclic.Queue.contents_put (Ne.symm hfull) c
    change s.buffered ++ (s.transmit.put c).contents = _
    rw [hput, ← List.append_assoc]
    rfl

/-- A write that has waited puts its character behind the others if and only if the head has not
been moved. -/
theorem putAt_outgoing {c : α} {nextHead : Fin (m + 1)} (hroom : s.transmit.tail ≠ nextHead) :
    (s.putAt c nextHead).outgoing = s.outgoing ++ [c] ↔ nextHead = Cyclic.next s.transmit.head := by
  have hcontents : (s.putAt c nextHead).outgoing = s.outgoing ++ [c] ↔
      (s.putAt c nextHead).transmit.contents = s.transmit.contents ++ [c] := by
    change s.buffered ++ (s.putAt c nextHead).transmit.contents = _ ↔ _
    rw [outgoing, List.append_assoc, List.append_right_inj]
  rw [hcontents]
  constructor
  · intro h
    have hlen := congrArg List.length h
    rw [List.length_append, List.length_singleton, Cyclic.Queue.length_contents,
      Cyclic.Queue.length_contents] at hlen
    change Cyclic.dist s.transmit.tail nextHead =
      Cyclic.dist s.transmit.tail s.transmit.head + 1 at hlen
    rw [← Cyclic.iterate_dist s.transmit.tail nextHead, hlen, Function.iterate_succ_apply',
      Cyclic.iterate_dist]
  · rintro rfl
    exact Cyclic.Queue.contents_put hroom.symm c

end State

/-- What has been received and written is in the right places. -/
structure Kept (x : Connection n m α) : Prop where
  received : x.received = x.read ++ x.state.incoming
  written : x.written = x.accepted ++ x.state.outgoing

/-- A call has a result and keeps what has been received and written. -/
def Meets (x : Connection n m α) (op : Op α) : Prop := ∃ x', exec (some x) op = some x' ∧ Kept x'

variable {x : Connection n m α}

theorem Kept.getC (h : Kept x) : Kept x.getC := by
  refine ⟨?_, ?_⟩
  · rw [Connection.getC, State.streamGetC]
    split_ifs with htail
    · exact h.received.trans (congrArg (· ++ _) (List.append_nil _).symm)
    · have hcontents := Cyclic.Queue.contents_eq_cons htail
      refine h.received.trans ?_
      rw [State.incoming, hcontents]
      exact (List.append_assoc x.read [_] _).symm
  · rw [Connection.getC, State.streamGetC]
    split_ifs <;> exact h.written

theorem Kept.putC (h : Kept x) (c : α) : Kept (x.putC c) := by
  refine ⟨?_, ?_⟩
  · rw [Connection.putC, State.streamPutC]
    split_ifs <;> exact h.received
  · change (if _ then x.written else x.written ++ [c]) = x.accepted ++ (x.state.streamPutC c).outgoing
    rw [State.streamPutC_outgoing, h.written]
    split_ifs
    · rw [List.append_nil]
    · exact List.append_assoc _ _ _

/-- When a call that receives and transmits keeps everything. -/
theorem Kept.iff (h : Kept x) (s' : State n m α) (chars taken : List α) :
    Kept { x with state := s', received := x.received ++ chars, accepted := x.accepted ++ taken } ↔
      s'.incoming = x.state.incoming ++ chars ∧ x.state.outgoing = taken ++ s'.outgoing := by
  have hreceived : x.received ++ chars = x.read ++ s'.incoming ↔
      s'.incoming = x.state.incoming ++ chars := by
    rw [h.received, List.append_assoc, List.append_right_inj, eq_comm]
  have hwritten : x.written = (x.accepted ++ taken) ++ s'.outgoing ↔
      x.state.outgoing = taken ++ s'.outgoing := by
    rw [h.written, List.append_assoc, List.append_right_inj]
  constructor
  · rintro ⟨hr, hw⟩
    exact ⟨hreceived.mp hr, hwritten.mp hw⟩
  · rintro ⟨hr, hw⟩
    exact ⟨hreceived.mpr hr, hwritten.mpr hw⟩

theorem Kept.resume_iff (h : Kept x) : Kept x.resume ↔ x.state.Allows .resume := by
  rw [Connection.resume, State.streamResume, State.Allows]
  cases hwaiting : x.state.waiting with
  | nil =>
    refine iff_of_true ⟨h.received, ?_⟩ nofun
    exact (List.append_nil _).trans h.written
  | cons w waiting =>
    obtain ⟨c, nextHead⟩ := w
    simp only [List.head?_cons, Option.mem_some_iff, forall_eq']
    split_ifs with hfull
    · refine iff_of_true ⟨h.received, ?_⟩ fun hne => absurd hfull hne
      exact (List.append_nil _).trans h.written
    · have hput := State.putAt_outgoing (c := c) hfull
      constructor
      · rintro ⟨-, hw⟩ -
        apply hput.mp
        change x.written ++ [c] = x.accepted ++ (x.state.putAt c nextHead).outgoing at hw
        rw [h.written, List.append_assoc, List.append_right_inj] at hw
        exact hw.symm
      · intro hhead
        refine ⟨h.received, ?_⟩
        change x.written ++ [c] = x.accepted ++ (x.state.putAt c nextHead).outgoing
        rw [hput.mpr (hhead hfull), h.written, List.append_assoc]

/-- The invariant of a connection. -/
structure Good (x : Connection n m α) : Prop where
  kept : Kept x
  txLen_le : x.state.txLen ≤ m

/-- A call has a result; it keeps everything if and only if it meets the condition. -/
theorem Good.step (h : Good x) (op : Op α) :
    ∃ x', exec (some x) op = some x' ∧ x'.state.txLen ≤ m ∧ (Kept x' ↔ x.state.Allows op) := by
  obtain ⟨hkept, hle⟩ := h
  cases op with
  | recv p tcp =>
    obtain ⟨taken, s', hs', hle', hiff⟩ := State.telnetRecv_eq tcp hle p
    refine ⟨_, ?_, hle', (hkept.iff s' p.chars taken).trans hiff⟩
    rw [exec, Option.bind_some, Connection.recv, hs']
    rfl
  | handler tcp =>
    obtain ⟨taken, s', hs', hin, hle', hiff⟩ := State.telnetStreamHandler_eq tcp hle
    have hall := (hkept.iff s' [] taken).trans
      (and_iff_right (hin.trans (List.append_nil _).symm))
    rw [List.append_nil] at hall
    refine ⟨_, ?_, hle', hall.trans hiff⟩
    rw [exec, Option.bind_some, Connection.handler, hs']
    rfl
  | read =>
    refine ⟨x.getC, rfl, ?_, iff_of_true hkept.getC trivial⟩
    rw [Connection.getC, State.streamGetC]
    split_ifs <;> exact hle
  | write c =>
    refine ⟨x.putC c, rfl, ?_, iff_of_true (hkept.putC c) trivial⟩
    rw [Connection.putC, State.streamPutC]
    split_ifs <;> exact hle
  | resume =>
    refine ⟨x.resume, rfl, ?_, hkept.resume_iff⟩
    rw [Connection.resume, State.streamResume]
    split
    · exact hle
    · split_ifs <;> exact hle
  | giveUp => exact ⟨_, rfl, hle, iff_of_true ⟨hkept.received, hkept.written⟩ trivial⟩

theorem Good.meets_iff (h : Good x) (op : Op α) : Meets x op ↔ x.state.Allows op := by
  obtain ⟨x', hx', -, hiff⟩ := h.step op
  rw [← hiff, Meets, hx']
  constructor
  · rintro ⟨x'', ⟨⟩, hkept⟩
    exact hkept
  · exact fun hkept => ⟨x', rfl, hkept⟩

/-- The condition on a call of a connection. -/
def Permitted (o : Option (Connection n m α)) (op : Op α) : Prop := ∀ x ∈ o, x.state.Allows op

/-- A connection that has been accepted begins with nothing on its way if and only if nothing of an
earlier one is left in `txbuf`. In every run from there whose calls meet the condition, what has
been received is what has been read and what is on its way in, and what has been written is what TCP
has accepted and what is on its way out, in order. A call keeps to that if and only if it meets the
condition. -/
theorem transparent (s : State n m α) (zero : α) (ops : List (Op α)) :
    (Kept { state := s.telnetAccept zero } ↔ s.txLen = 0) ∧
    (s.txLen = 0 →
      Transition.Along exec Permitted (some { state := s.telnetAccept zero }) ops →
      ∃ x, ops.foldl exec (some { state := s.telnetAccept zero }) = some x ∧ Kept x ∧
        x.read <+: x.received ∧ x.accepted <+: x.written ∧
        ∀ op, Meets x op ↔ x.state.Allows op) := by
  have hin : (s.telnetAccept zero).incoming = [] := by
    have hnil : (s.telnetAccept zero).rxbuf.contents = [] :=
      Cyclic.Queue.contents_eq_nil_iff.mpr rfl
    rw [State.incoming, hnil]
    rfl
  have hout : (s.telnetAccept zero).outgoing = s.buffered := by
    have hnil : (s.telnetAccept zero).transmit.contents = [] :=
      Cyclic.Queue.contents_eq_nil_iff.mpr rfl
    rw [State.outgoing, hnil]
    exact List.append_nil _
  have hstart : Kept { state := s.telnetAccept zero } ↔ s.txLen = 0 := by
    have hlen : s.buffered.length = s.txLen := by
      rw [State.buffered, List.length_map, List.length_range]
    constructor
    · rintro ⟨-, hw⟩
      rw [← hlen, ← hout]
      exact congrArg List.length hw.symm
    · intro hzero
      refine ⟨hin.symm, ?_⟩
      change [] = (s.telnetAccept zero).outgoing
      rw [hout, eq_comm, ← List.length_eq_zero_iff, hlen, hzero]
  refine ⟨hstart, fun hzero h => ?_⟩
  let I : Option (Connection n m α) → Prop := fun o => ∃ x, o = some x ∧ Good x
  have hstep : ∀ o op, Permitted o op → I o → I (exec o op) := by
    rintro o op hop ⟨x, rfl, hx⟩
    obtain ⟨x', hx', hle, hiff⟩ := hx.step op
    exact ⟨x', hx', hiff.mpr (hop x rfl), hle⟩
  have hinit : I (some { state := s.telnetAccept zero }) :=
    ⟨_, rfl, hstart.mpr hzero, hzero.le.trans (Nat.zero_le m)⟩
  obtain ⟨x, hx, hgood⟩ := Transition.forall_states hstep hinit h _ Transition.foldl_mem_states
  refine ⟨x, hx, hgood.kept, ?_, ?_, hgood.meets_iff⟩
  · rw [hgood.kept.received]
    exact List.prefix_append _ _
  · rw [hgood.kept.written]
    exact List.prefix_append _ _

/-- TCP takes everything. -/
def takesAll : Tcp := ⟨fun _ => .OK, fun _ => false⟩

/-- TCP takes two characters and no more. -/
def takesTwo : Tcp := ⟨fun len => if len = 2 then .OK else .MEM, fun _ => false⟩

/-- The static buffers before the first connection. -/
def boot : State 3 7 UInt8 := ⟨⟨fun _ => 0, 0, 0⟩, ⟨fun _ => 0, 0, 0⟩, none, [], fun _ => 0, 0⟩

def packet (l : List UInt8) (hl : l ≠ []) : Pbuf UInt8 := ⟨l, [], hl, nofun⟩

/-- A packet is longer than the receive buffer; what is written is taken by TCP at once. -/
def dialogue : List (Op UInt8) :=
  [.recv (packet [71, 49, 88, 57, 10] (by decide)) takesAll, .read, .read, .handler takesAll, .read,
    .write 111, .write 107, .handler takesAll]

theorem transparent_dialogue :
    ∃ x, dialogue.foldl exec (some { state := boot.telnetAccept 0 }) = some x ∧ Kept x ∧
      x.read <+: x.received ∧ x.accepted <+: x.written ∧
      ∀ op, Meets x op ↔ x.state.Allows op := by
  apply (transparent boot 0 dialogue).2 rfl
  have htakes : ∀ s : State 3 7 UInt8, s.Takes takesAll := by
    intro s len hlen i hi
    cases hfuel : s.refill.txLen with
    | zero =>
      rw [hfuel, Nat.zero_sub] at hi
      exact absurd hi (Nat.not_lt_zero i)
    | succ k =>
      rw [hfuel] at hlen hi
      obtain rfl : k + 1 = len := congrArg Prod.snd hlen
      rw [Nat.sub_self] at hi
      exact absurd hi (Nat.not_lt_zero i)
  refine ⟨?_, fun _ _ => trivial, fun _ _ => trivial, fun _ _ => htakes _, fun _ _ => trivial,
    fun _ _ => trivial, fun _ _ => trivial, fun _ _ => htakes _, trivial⟩
  rintro x ⟨⟩
  exact ⟨rfl, fun _ => htakes _⟩

/-- A packet that arrives while one is pending is lost; and when TCP takes two of four characters
the third one is left out and a stale one follows. -/
theorem not_transparent :
    (([.recv (packet [1, 2, 3, 4] (by decide)) takesAll, .recv (packet [5] (by decide)) takesAll,
      .read, .read, .read, .handler takesAll, .read, .read] : List (Op UInt8)).foldl exec
        (some { state := boot.telnetAccept 0 })).map (fun x => (x.received, x.read)) =
          some ([1, 2, 3, 4, 5], [1, 2, 3, 4]) ∧
    (([.write 1, .write 2, .write 3, .write 4, .handler takesTwo, .handler takesAll] :
      List (Op UInt8)).foldl exec (some { state := boot.telnetAccept 0 })).map
        (fun x => (x.written, x.accepted)) = some ([1, 2, 3, 4], [1, 2, 4, 0]) := by
  constructor <;> decide

end Telnet

end Inspector
