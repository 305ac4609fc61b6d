import Inspector.Checksum.Register
import Inspector.Ymodem.Transfer

/-! # Packets that arrive

A packet that arrives whole and in time at a receiver that waits for one is acknowledged, and the
file holds its payload, unless the packet is one that has been taken before: the receiver compares
its number with that of the packet behind the expected one, so it refuses what is sent again when an
acknowledgement was lost.
-/

namespace Inspector

namespace Ymodem

/-- The characters that arrive. -/
def puts (d : List Op) : Bytes := d.filterMap fun op =>
  match op with
  | .put c => some c
  | _ => none

/-- A step without a timeout, with a file system that does what it is asked for, and without an
answer of the sender. -/
def InTime (o : Option Session) : Op → Prop
  | .put _ => True
  | .enter now => ∀ x ∈ o, now < x.receiver.nextTimeout
  | .read vfs _ => vfs.opens = true ∧ 1024 ≤ vfs.room
  | .hear => False
  | .lose => False

/-- The packet that the sender sends arrives, and all of it is read. -/
structure Delivers (x : Session) (b : Block) (d : List Op) : Prop where
  inTime : Transition.Along exec InTime (some x) d
  arrives : x.receiver.rxBuffer.contents ++ puts d = b.packet (UInt8.ofNat x.index)
  empties : ∀ x' ∈ d.foldl exec (some x), x'.receiver.rxBuffer.contents = []

/-- The receiver waits for a packet. -/
def State.Waits (s : State) : Prop := s.attached = true ∧ s.process = .awaitSoh

/-- A packet is acknowledged, and the file holds what has been sent. -/
def Answers (T : Transfer) (x : Session) (d : List Op) : Prop :=
  ∃ x', d.foldl exec (some x) = some x' ∧
    ASCII_ACK ∈ x'.receiver.sent.drop x.receiver.sent.length ∧ x'.receiver.file = T.content x.index

theorem Block.length_frame (b : Block) (a c : UInt8) :
    (b.frame a c).length = b.bytes.length + 5 := by
  simp [Block.frame, crcBytes]

theorem Block.length_of_start {b b' : Block} (h : b'.start = b.start) :
    b'.bytes.length = b.bytes.length := by
  rw [Block.start, Block.start] at h
  have := b.length_eq
  have := b'.length_eq
  split_ifs at h
  · omega
  · cases h
  · cases h
  · omega

namespace State

variable {s s' : State} {l rest : Bytes} {b : Block} {a c : UInt8}

/-- What has been read of a packet is not all of it. -/
theorem Reads.length_lt (h : s.Reads l) (hpre : l <+: b.frame a c) :
    l.length < b.bytes.length + 5 := by
  have hheaded : ∀ {hdr tail : Bytes}, s.Headed hdr → hdr ++ tail <+: b.frame a c →
      hdr.length = 3 ∧ s.packetLen = b.bytes.length := by
    rintro hdr tail ⟨st, a', hst, -, rfl⟩ hp
    exact ⟨rfl, hst.length_eq (List.cons_prefix_cons.mp hp).1⟩
  rw [Reads] at h
  split at h
  · obtain ⟨-, -, st, -, hl⟩ := h
    split at hl
    · obtain ⟨a', -, rfl⟩ := hl
      simp
    · subst hl
      simp
  · obtain ⟨-, -, hidx, hdr, hhdr, rfl⟩ := h
    obtain ⟨hlen, hpacket⟩ := hheaded hhdr hpre
    rw [List.length_append, hlen, s.length_bytes]
    omega
  · obtain ⟨-, hdr, hhdr, hl⟩ := h
    split at hl
    · obtain ⟨hi, -, rfl⟩ := hl
      rw [List.append_assoc] at hpre
      obtain ⟨hlen, hpacket⟩ := hheaded hhdr hpre
      rw [List.length_append, List.length_append, hlen, s.length_bytes, List.length_singleton]
      omega
    · subst hl
      obtain ⟨hlen, hpacket⟩ := hheaded hhdr hpre
      rw [List.length_append, hlen, s.length_bytes]
      omega
  · subst h
    simp

/-- The second byte that has been read is a number that the receiver takes. -/
theorem Reads.numbered {st : UInt8} (h : s.Reads (st :: a :: l)) : s.Numbered a := by
  have hheaded : ∀ {hdr tail : Bytes}, s.Headed hdr → st :: a :: l = hdr ++ tail → s.Numbered a := by
    rintro hdr tail ⟨st', a', -, ha', rfl⟩ heq
    cases heq
    exact ha'
  rw [Reads] at h
  split at h
  · obtain ⟨-, -, st', -, hl⟩ := h
    split at hl
    · obtain ⟨a', ha', hl⟩ := hl
      cases hl
      exact ha'
    · cases hl
  · obtain ⟨-, -, -, hdr, hhdr, hl⟩ := h
    exact hheaded hhdr hl
  · obtain ⟨-, hdr, hhdr, hl⟩ := h
    split at hl
    · obtain ⟨hi, -, hl⟩ := hl
      rw [List.append_assoc] at hl
      exact hheaded hhdr hl
    · exact hheaded hhdr hl
  · cases h

/-- A byte of the expected packet continues it, or completes it if it is the last one. -/
theorem Reads.expected (h : s.Reads l) (hlistens : s.Listens)
    (hpacket : b.packet s.packetNum = l ++ c :: rest) (vfs : Vfs) :
    (∃ s', s.processChar vfs c = some (.NOOP, s') ∧ rest ≠ [] ∧ s'.Reads (l ++ [c]) ∧ s'.Listens ∧
      Passes s s' ∧ s'.attached = s.attached) ∨
    rest = [] ∧ s.Completes l c b s.packetNum := by
  have hpre : l ++ [c] <+: b.packet s.packetNum :=
    ⟨rest, by rw [hpacket, List.append_assoc]; rfl⟩
  cases outcome hlistens h vfs c with
  | continues s' hproc hreads hlistens' hpasses hattached =>
    refine .inl ⟨s', hproc, ?_, hreads, hlistens', hpasses, hattached⟩
    rintro rfl
    have hlt := hreads.length_lt hpre
    rw [← hpacket, Block.packet, Block.length_frame] at hlt
    exact lt_irrefl _ hlt
  | refuses st s' hproc hst hpasses hbegins => exact absurd ⟨b, s.packetNum, .inl rfl, hpre⟩ hbegins
  | completes b' a hcomplete =>
    right
    obtain ⟨rest', hrest'⟩ := hpre
    rw [hcomplete.frame, Block.packet] at hrest'
    have hstart : b'.start = b.start := (List.cons.inj hrest').1
    have hlen := Block.length_of_start hstart
    have hframe := congrArg List.length hrest'
    rw [List.length_append, Block.length_frame, Block.length_frame] at hframe
    obtain rfl : rest' = [] := List.length_eq_zero_iff.mp (by omega)
    rw [List.append_nil] at hrest'
    obtain ⟨rfl, hbytes⟩ : a = s.packetNum ∧ b'.bytes = b.bytes := by
      simp only [Block.frame, List.cons.injEq] at hrest'
      exact ⟨hrest'.2.1, (List.append_inj hrest'.2.2.2 hlen).1⟩
    obtain rfl : b' = b := by
      cases b'
      cases b
      cases hbytes
      rfl
    refine ⟨?_, hcomplete⟩
    have hall := hcomplete.frame
    rw [← Block.packet, hpacket] at hall
    simpa using hall

end State

section Arrival

variable {T : Transfer} {x : Session} {k : ℕ} {b : Block} {d : List Op} {sent rest : Bytes}

/-- How far the expected packet has come: a part of it has been read, or it has been taken. -/
inductive Progress (T : Transfer) (k : ℕ) (b : Block) (sent : Bytes) (s : State) (rest : Bytes) : Prop
  | reading (l : Bytes) (hpacket : b.packet (UInt8.ofNat k) = l ++ rest) (hrest : rest ≠ [])
      (hreads : s.Reads l) (hlistens : s.Listens) (hattached : s.attached = true)
      (hledger : s.ledger = T.ledger k) (hsent : s.sent = sent)
  | done (hrest : rest = []) (hattached : s.attached = true)
      (hack : ASCII_ACK ∈ s.sent.drop sent.length) (hfile : s.file = T.content k)

/-- A packet with another number is not read beyond that. -/
inductive Refuses (b : Block) (num : UInt8) (sent : Bytes) (s : State) (rest : Bytes) : Prop
  | purging (hprocess : s.process = .purge) (hattached : s.attached = true) (hsent : s.sent = sent)
  | reading (l : Bytes) (hpacket : b.packet num = l ++ rest) (hlen : l.length ≤ 1) (hreads : s.Reads l)
      (hlistens : s.Listens) (hattached : s.attached = true) (hsent : s.sent = sent)
      (hnum : ¬s.Numbered num)

theorem Block.length_packet_le (b : Block) (num : UInt8) : (b.packet num).length ≤ 1029 := by
  have := b.length_le
  rw [Block.packet, b.length_frame]
  omega

/-- What a step without a timeout does to a receiver: a character is put in the buffer or read from
it, or the loop is entered or left. -/
theorem exec_inTime (op : Op) (d : List Op) (hop : InTime (some x) op)
    (hlen : (x.receiver.rxBuffer.contents ++ puts (op :: d)).length < 2047) :
    (∃ rx loop, exec (some x) op =
        some { x with receiver := { x.receiver with rxBuffer := rx, inLoop := loop } } ∧
      (x.receiver.attached = true →
        rx.contents ++ puts d = x.receiver.rxBuffer.contents ++ puts (op :: d))) ∨
    ∃ vfs now c, c ∈ x.receiver.next? ∧ vfs.opens = true ∧ 1024 ≤ vfs.room ∧
      exec (some x) op = x.read vfs now ∧ x.receiver.inLoop = true ∧
      x.receiver.rxBuffer.contents ++ puts (op :: d) =
        c :: (x.receiver.rxBuffer.drop.contents ++ puts d) := by
  cases op with
  | put c =>
    left
    by_cases hatt : x.receiver.attached = true
    · have hroom : Cyclic.next x.receiver.rxBuffer.head ≠ x.receiver.rxBuffer.tail := by
        rw [Ne, Cyclic.Queue.full_iff]
        rw [List.length_append] at hlen
        omega
      refine ⟨x.receiver.rxBuffer.put c, x.receiver.inLoop, ?_, fun _ => ?_⟩
      · rw [exec, Option.map_some, Session.put, if_pos hatt, State.putChar, if_neg hroom]
      · rw [Cyclic.Queue.contents_put hroom, List.append_assoc]
        rfl
    · refine ⟨x.receiver.rxBuffer, x.receiver.inLoop, ?_, fun h => absurd h hatt⟩
      rw [exec, Option.map_some, Session.put, if_neg hatt]
  | enter now =>
    left
    have hearly : ¬x.receiver.nextTimeout ≤ now := UInt32.not_le.mpr (hop x rfl)
    by_cases henter : x.receiver.attached ∧ x.receiver.inLoop = false
    · refine ⟨x.receiver.rxBuffer, true, ?_, fun _ => rfl⟩
      rw [exec, Option.map_some, Session.enter, if_pos henter, State.enter, if_neg hearly]
    · refine ⟨x.receiver.rxBuffer, x.receiver.inLoop, ?_, fun _ => rfl⟩
      rw [exec, Option.map_some, Session.enter, if_neg henter]
  | read vfs now =>
    cases hloop : x.receiver.inLoop with
    | false =>
      refine .inl ⟨x.receiver.rxBuffer, x.receiver.inLoop, ?_, fun _ => rfl⟩
      rw [exec, Option.bind_some, Session.read, hloop, if_neg Bool.false_ne_true, ← hloop]
    | true =>
      cases hc : x.receiver.next? with
      | none =>
        exact .inl ⟨x.receiver.rxBuffer, false, Session.read_of_none hloop hc vfs now, fun _ => rfl⟩
      | some c =>
        refine .inr ⟨vfs, now, c, rfl, hop.1, hop.2, rfl, rfl, ?_⟩
        rw [State.next?] at hc
        split_ifs at hc with hempty
        cases hc
        rw [Cyclic.Queue.contents_eq_cons hempty]
        rfl
  | hear => exact hop.elim
  | lose => exact hop.elim

theorem Session.read_eq {vfs : Vfs} {now : UInt32} {c : UInt8} {st : Status} {s' : State}
    (hloop : x.receiver.inLoop = true) (hc : c ∈ x.receiver.next?)
    (h : ({ x.receiver with
      rxBuffer := x.receiver.rxBuffer.drop
      nextTimeout := now + 1000 } : State).processChar vfs c = some (st, s')) :
    ∃ ack stream, x.read vfs now =
      some { x with receiver := (s'.answer st).goOn, ack := ack, stream := stream } := by
  refine ⟨x.ack || decide (ASCII_ACK ∈ (s'.answer st).goOn.sent.drop x.receiver.sent.length),
    x.stream ++ x.receiver.next?.toList, ?_⟩
  rw [Session.read, hloop, if_pos rfl, State.read_eq hc h]
  rfl

theorem State.rxBuffer_answer (s : State) (st : Status) : (s.answer st).goOn.rxBuffer = s.rxBuffer := by
  cases st <;> rfl

/-- The expected packet comes further with each step. -/
theorem Progress.step (hT : T.Fits) (hb : T.block? k = some b) (op : Op)
    (hop : InTime (some x) op)
    (h : Progress T k b sent x.receiver (x.receiver.rxBuffer.contents ++ puts (op :: d))) :
    ∃ x', exec (some x) op = some x' ∧
      Progress T k b sent x'.receiver (x'.receiver.rxBuffer.contents ++ puts d) := by
  have hlen : (x.receiver.rxBuffer.contents ++ puts (op :: d)).length < 2047 := by
    cases h with
    | reading l hpacket =>
      have hle := b.length_packet_le (UInt8.ofNat k)
      rw [hpacket, List.length_append] at hle
      omega
    | done hrest =>
      rw [hrest]
      decide
  rcases exec_inTime op d hop hlen with
    ⟨rx, loop, hexec, hrx⟩ | ⟨vfs, now, c, hc, hopens, hroom, hexec, hloop, harrives⟩
  · refine ⟨_, hexec, ?_⟩
    cases h with
    | reading l hpacket hrest hreads hlistens hattached hledger hsent =>
      refine .reading l (hpacket.trans ?_) ?_ hreads hlistens hattached hledger hsent
      · rw [hrx hattached]
      · rwa [hrx hattached]
    | done hrest hattached hack hfile =>
      exact .done ((hrx hattached).trans hrest) hattached hack hfile
  · rw [hexec]
    rw [harrives] at h
    cases h with
    | done hrest => cases hrest
    | reading l hpacket hrest hreads hlistens hattached hledger hsent =>
      generalize hs₁ : ({ x.receiver with
        rxBuffer := x.receiver.rxBuffer.drop
        nextTimeout := now + 1000 } : State) = s₁
      have hnum : s₁.packetNum = UInt8.ofNat k := by
        rw [← T.packetNum_ledger k, ← hledger, ← hs₁]
        rfl
      have hbuffer : s₁.rxBuffer = x.receiver.rxBuffer.drop := by rw [← hs₁]
      have hreads₁ : s₁.Reads l := hs₁ ▸ hreads
      have hlistens₁ : s₁.Listens := hs₁ ▸ hlistens
      have hattached₁ : s₁.attached = true := hs₁ ▸ hattached
      have hledger₁ : s₁.ledger = T.ledger k := hs₁ ▸ hledger
      have hsent₁ : s₁.sent = sent := hs₁ ▸ hsent
      rw [← hnum] at hpacket
      rcases hreads₁.expected hlistens₁ hpacket vfs with
        ⟨s', hproc, hmore, hreads', hlistens', hpasses, hattached'⟩ | ⟨hlast, hcomplete⟩
      · obtain ⟨ack, stream, hread⟩ := Session.read_eq hloop hc (hs₁ ▸ hproc)
        refine ⟨_, hread, ?_⟩
        have hrx : (s'.answer .NOOP).goOn.rxBuffer = x.receiver.rxBuffer.drop := by
          rw [s'.rxBuffer_answer, State.rxBuffer_processChar hproc, hbuffer]
        rw [hrx]
        rw [hattached₁] at hattached'
        refine .reading (l ++ [c]) ?_ hmore hreads' hlistens' hattached'
          ((hpasses.ledger hattached').trans hledger₁) ((hpasses.sent hattached').trans hsent₁)
        rw [← hnum, hpacket, List.append_assoc]
        rfl
      · have htaken := taken (s := { s₁ with
          process := .awaitSoh
          crc := (s₁.crc <<< 8) ||| c.toUInt16 }) hT hledger₁ hb hcomplete.bytes
          hcomplete.repeated rfl vfs
        rw [← hcomplete.accept vfs] at htaken
        generalize hr : s₁.processChar vfs c = r at htaken
        cases htaken with
        | failed s' _ _ _ hvfs => exact absurd ⟨hopens, hroom⟩ hvfs
        | acknowledged st s' hst hledger' hattached' hsent' _ =>
          obtain ⟨ack, stream, hread⟩ := Session.read_eq hloop hc (hs₁ ▸ hr)
          refine ⟨_, hread, ?_⟩
          have hrx : (s'.answer st).goOn.rxBuffer = x.receiver.rxBuffer.drop := by
            rw [s'.rxBuffer_answer, State.rxBuffer_processChar hr, hbuffer]
          rw [hrx, hlast]
          have hsent₂ : s'.sent = sent := hsent'.trans hsent₁
          rcases hst with rfl | rfl
          · refine .done rfl (hattached'.trans hattached₁) ?_ (congrArg State.Ledger.file hledger')
            change ASCII_ACK ∈ (s'.sent ++ [ASCII_ACK]).drop sent.length
            rw [hsent₂, List.drop_left]
            exact List.mem_cons_self
          · refine .done rfl (hattached'.trans hattached₁) ?_ (congrArg State.Ledger.file hledger')
            change ASCII_ACK ∈ (s'.sent ++ [ASCII_ACK, ASCII_C]).drop sent.length
            rw [hsent₂, List.drop_left]
            exact List.mem_cons_self

/-- The number of a packet that has been taken is not one that the receiver takes. -/
theorem not_numbered (h : x.receiver.ledger = T.ledger (x.index + 1)) :
    ¬x.receiver.Numbered (UInt8.ofNat x.index) := by
  have hnum : x.receiver.packetNum = UInt8.ofNat (x.index + 1) := by
    rw [← T.packetNum_ledger (x.index + 1), ← h]
    rfl
  rw [State.Numbered, State.IsRepeated, hnum, ← UInt8.toNat_inj, UInt8.toNat_ofNat',
    UInt8.toNat_ofNat']
  omega

theorem Refuses.step {num : UInt8} (op : Op) (hop : InTime (some x) op)
    (hlen : (x.receiver.rxBuffer.contents ++ puts (op :: d)).length < 2047)
    (h : Refuses b num sent x.receiver (x.receiver.rxBuffer.contents ++ puts (op :: d))) :
    ∃ x', exec (some x) op = some x' ∧
      (x'.receiver.rxBuffer.contents ++ puts d).length < 2047 ∧
      Refuses b num sent x'.receiver (x'.receiver.rxBuffer.contents ++ puts d) := by
  rcases exec_inTime op d hop hlen with
    ⟨rx, loop, hexec, hrx⟩ | ⟨vfs, now, c, hc, -, -, hexec, hloop, harrives⟩
  · refine ⟨_, hexec, ?_⟩
    cases h with
    | purging hprocess hattached hsent =>
      exact ⟨by rwa [hrx hattached], .purging hprocess hattached hsent⟩
    | reading l hpacket hshort hreads hlistens hattached hsent hnum =>
      refine ⟨by rwa [hrx hattached], .reading l ?_ hshort hreads hlistens hattached hsent hnum⟩
      rw [hrx hattached]
      exact hpacket
  · rw [hexec]
    rw [harrives] at h hlen
    generalize hs₁ : ({ x.receiver with
      rxBuffer := x.receiver.rxBuffer.drop
      nextTimeout := now + 1000 } : State) = s₁
    have hbuffer : s₁.rxBuffer = x.receiver.rxBuffer.drop := by rw [← hs₁]
    have hsettle : ∀ {st s'}, s₁.processChar vfs c = some (st, s') →
        Refuses b num sent (s'.answer st).goOn (x.receiver.rxBuffer.drop.contents ++ puts d) →
        ∃ x', x.read vfs now = some x' ∧
          (x'.receiver.rxBuffer.contents ++ puts d).length < 2047 ∧
          Refuses b num sent x'.receiver (x'.receiver.rxBuffer.contents ++ puts d) := by
      intro st s' hproc href
      obtain ⟨ack, stream, hread⟩ := Session.read_eq hloop hc (hs₁ ▸ hproc)
      have hrx : (s'.answer st).goOn.rxBuffer = x.receiver.rxBuffer.drop := by
        rw [s'.rxBuffer_answer, State.rxBuffer_processChar hproc, hbuffer]
      refine ⟨_, hread, ?_, ?_⟩
      · rw [hrx]
        exact Nat.lt_of_succ_lt hlen
      · rwa [hrx]
    cases h with
    | purging hprocess hattached hsent =>
      have hproc : s₁.processChar vfs c = some (.NOOP, s₁) := by
        rw [State.processChar, ← hs₁]
        simp only [hprocess]
      exact hsettle hproc (.purging (hs₁ ▸ hprocess) (hs₁ ▸ hattached) (hs₁ ▸ hsent))
    | reading l hpacket hshort hreads hlistens hattached hsent hnum =>
      have hreads₁ : s₁.Reads l := hs₁ ▸ hreads
      have hlistens₁ : s₁.Listens := hs₁ ▸ hlistens
      have hattached₁ : s₁.attached = true := hs₁ ▸ hattached
      have hsent₁ : s₁.sent = sent := hs₁ ▸ hsent
      have hnum₁ : ¬s₁.Numbered num := hs₁ ▸ hnum
      cases State.outcome hlistens₁ hreads₁ vfs c with
      | continues s' hproc hreads' hlistens' hpasses hattached' =>
        rw [hattached₁] at hattached'
        have hsame : s'.packetNum = s₁.packetNum :=
          congrArg State.Ledger.packetNum (hpasses.ledger hattached')
        have hnum' : ¬s'.Numbered num := by
          rw [State.Numbered, State.IsRepeated, hsame]
          exact hnum₁
        apply hsettle hproc
        cases l with
        | nil =>
          exact .reading [c] hpacket le_rfl hreads' hlistens' hattached'
            ((hpasses.sent hattached').trans hsent₁) hnum'
        | cons st l =>
          obtain rfl : l = [] :=
            List.length_eq_zero_iff.mp (Nat.le_zero.mp (Nat.le_of_succ_le_succ hshort))
          obtain rfl : num = c := (List.cons.inj (List.cons.inj hpacket).2).1
          exact absurd hreads'.numbered hnum'
      | refuses st s' hproc hst hpasses hbegins =>
        rcases hst with ⟨rfl, hattached'⟩ | ⟨rfl, -, rfl⟩
        · rw [hattached₁] at hattached'
          exact hsettle hproc (.purging rfl hattached' ((hpasses.sent hattached').trans hsent₁))
        · refine absurd ⟨b, s₁.packetNum, .inl rfl, ?_⟩ hbegins
          have hstart : b.start = c := (List.cons.inj hpacket).1
          rw [← hstart]
          exact List.cons_prefix_cons.mpr ⟨rfl, List.nil_prefix⟩
      | completes b' a hcomplete =>
        have hframe := congrArg List.length hcomplete.frame
        rw [List.length_append, List.length_singleton, b'.length_frame] at hframe
        omega

theorem Progress.run (hT : T.Fits) (hb : T.block? k = some b)
    (hd : Transition.Along exec InTime (some x) d)
    (h : Progress T k b sent x.receiver (x.receiver.rxBuffer.contents ++ puts d)) :
    ∃ x', d.foldl exec (some x) = some x' ∧
      Progress T k b sent x'.receiver x'.receiver.rxBuffer.contents := by
  induction d generalizing x with
  | nil =>
    refine ⟨x, rfl, ?_⟩
    rwa [show puts [] = [] from rfl, List.append_nil] at h
  | cons op d ih =>
    obtain ⟨hop, hd⟩ := hd
    obtain ⟨x', hx', h'⟩ := h.step hT hb op hop
    rw [List.foldl_cons, hx']
    exact ih (hx' ▸ hd) h'

theorem Refuses.run {num : UInt8} (hd : Transition.Along exec InTime (some x) d)
    (hlen : (x.receiver.rxBuffer.contents ++ puts d).length < 2047)
    (h : Refuses b num sent x.receiver (x.receiver.rxBuffer.contents ++ puts d)) :
    ∃ x', d.foldl exec (some x) = some x' ∧ x'.receiver.sent = sent := by
  induction d generalizing x with
  | nil =>
    refine ⟨x, rfl, ?_⟩
    cases h with
    | purging _ _ hsent => exact hsent
    | reading _ _ _ _ _ _ hsent _ => exact hsent
  | cons op d ih =>
    obtain ⟨hop, hd⟩ := hd
    obtain ⟨x', hx', hlen', h'⟩ := h.step op hop hlen
    rw [List.foldl_cons, hx']
    exact ih (hx' ▸ hd) hlen' h'

/-- A packet that arrives whole at a receiver that waits for one is acknowledged if and only if it
has not been taken before. -/
theorem Good.answers_iff (h : Good T k x) (hT : T.Fits) (hwaits : x.receiver.Waits)
    (hb : T.block? x.index = some b) (hd : Delivers x b d) : Answers T x d ↔ x.index = k := by
  obtain ⟨hatt, hprocess⟩ := hwaits
  have hlistens : x.receiver.Listens := .inl hprocess
  have hreads : x.receiver.Reads [] := by simp [State.Reads, hprocess]
  have hledger := h.ledger hatt
  constructor
  · rintro ⟨x', hx', hack, -⟩
    refine (h.index hatt).resolve_right fun hk => ?_
    rw [← hk] at hledger
    have hlen : (x.receiver.rxBuffer.contents ++ puts d).length < 2047 := by
      rw [hd.arrives]
      have := b.length_packet_le (UInt8.ofNat x.index)
      omega
    obtain ⟨x'', hx'', hsent⟩ := Refuses.run (b := b) hd.inTime hlen
      (.reading [] hd.arrives.symm zero_le_one hreads hlistens hatt rfl (not_numbered hledger))
    cases hx'.symm.trans hx''
    rw [hsent, List.drop_length] at hack
    exact List.not_mem_nil hack
  · rintro rfl
    have hne : x.receiver.rxBuffer.contents ++ puts d ≠ [] := by
      rw [hd.arrives]
      exact List.cons_ne_nil _ _
    obtain ⟨x', hx', hprogress⟩ := Progress.run hT hb hd.inTime
      (.reading [] hd.arrives.symm hne hreads hlistens hatt hledger rfl)
    refine ⟨x', hx', ?_⟩
    have hempty := hd.empties x' hx'
    cases hprogress with
    | reading _ _ hrest => exact absurd hempty hrest
    | done _ _ hack hfile => exact ⟨hack, hfile⟩

/-- What is too short for a packet meets the condition. -/
theorem permitted_of_short {o : Option Session} {n : ℕ} (hn : n < 132)
    (ho : o.map (fun x => (x.stream.length, x.receiver.attached)) = some (n, true)) (vfs : Vfs)
    (now : UInt32) : Permitted T o (.read vfs now) := by
  intro x hx _ c _
  cases hx
  obtain ⟨hlen, hatt⟩ := Prod.mk.inj (Option.some.inj ho)
  have hno : ∀ (b : Block) (a a' : UInt8), ¬b.frame a a' <:+ x.stream ++ [c] := by
    intro b a a' hsuffix
    have hle := hsuffix.length_le
    have hlen := b.length_eq
    rw [b.length_frame, List.length_append, List.length_singleton] at hle
    omega
  refine ⟨fun b a hb => absurd hb (hno b a _), fun b a _ => hno b a _, fun hdetached => ?_⟩
  cases hatt.symm.trans hdetached

end Arrival

section Runs

/-- The header of a file whose length is not announced. -/
def fileHeader : Block := ⟨0x61 :: List.replicate 127 0x00, .inl rfl⟩

def emptyFile : Transfer where
  name := [0x61]
  announced := none
  header := fileHeader
  blocks := []
  name_ne_nil := List.cons_ne_nil _ _
  name_ne_zero := by simp
  header_eq := ⟨List.replicate 125 0x00, rfl⟩

theorem fits_emptyFile : emptyFile.Fits :=
  ⟨Nat.lt_of_sub_eq_succ rfl, nofun, nofun⟩

/-- A file system that opens files and takes all of a packet. -/
def spacious : Vfs := ⟨true, 1024⟩

/-- The machine before the transfer. -/
def idle : State := { rxBuffer := ⟨fun _ => 0, 0, 0⟩, attached := false, nextTimeout := 0 }

def start : Option Session := some { receiver := idle.trapInitialSoh ASCII_SOH 0 }

/-- The complement of the first number is damaged, and nothing else arrives in time. -/
def noise : List Op :=
  [.enter 0, .read spacious 0, .put 0x00, .put 0x7F, .read spacious 1, .read spacious 2,
    .read spacious 3, .enter 2000]

/-- Characters arrive at once and are read. -/
def arrival (p : Bytes) : List Op :=
  p.map .put ++ .enter 0 :: List.replicate (p.length + 1) (.read spacious 0)

theorem puts_arrival (p : Bytes) : puts (arrival p) = p := by
  simp [puts, arrival, List.filterMap_append, List.filterMap_map]

theorem inTime_arrival {x : Session} (h : 0 < x.receiver.nextTimeout) (p : Bytes) :
    Transition.Along exec InTime (some x) (arrival p) := by
  have hreads : ∀ (n : ℕ) (o : Option Session),
      Transition.Along exec InTime o (List.replicate n (.read spacious 0)) := by
    intro n
    induction n with
    | zero => exact fun _ => trivial
    | succ n ih => exact fun o => ⟨⟨rfl, le_rfl⟩, ih _⟩
  rw [arrival]
  generalize p.length + 1 = n
  induction p generalizing x with
  | nil =>
    refine ⟨?_, hreads n _⟩
    rintro x' ⟨⟩
    exact h
  | cons c p ih =>
    refine ⟨trivial, ih (x := x.put c) ?_⟩
    rw [Session.put, State.putChar]
    split_ifs <;> exact h

/-- The header arrives, its first character being the one that begins the transfer, and its
acknowledgement is lost. -/
def lostAck : List Op := arrival (fileHeader.packet 0).tail ++ [.lose]

end Runs

/-! ### Altered packets -/

open Checksum

/-- The shift register of `ccitt_crc16`. -/
def crcRegister : Register 16 := .msbFirst 0x1021#16 (by decide)

/-- The bits of bytes, each from its high end. -/
def dataBits (l : Bytes) : List Bool := l.flatMap fun c => (List.range 8).map c.toBitVec.getMsbD

theorem dataBits_append (l m : Bytes) : dataBits (l ++ m) = dataBits l ++ dataBits m :=
  List.flatMap_append

/-- Eight steps with a byte in the upper half, which `ccitt_crc16` makes at once. -/
theorem iterate_step_upper (x : BitVec 8) :
    (crcRegister.step · false)^[8] (x.setWidth 16 <<< 8) =
      let y := x.setWidth 16 ^^^ (x.setWidth 16 >>> 4)
      (y <<< 12) ^^^ (y <<< 5) ^^^ y := by
  revert x
  decide +kernel

/-- Eight steps with a byte in the lower half only shift it. -/
theorem iterate_step_lower (x : BitVec 8) :
    (crcRegister.step · false)^[8] (x.setWidth 16) = x.setWidth 16 <<< 8 := by
  revert x
  decide +kernel

theorem iterate_step_byte (r : BitVec 16) (c : BitVec 8) :
    (crcRegister.step · false)^[8] (r ^^^ c.setWidth 16 <<< 8) =
      let x := r >>> 8 ^^^ c.setWidth 16
      let y := x ^^^ (x >>> 4)
      r <<< 8 ^^^ (y <<< 12) ^^^ (y <<< 5) ^^^ y := by
  have hsplit : r ^^^ c.setWidth 16 <<< 8 =
      ((r >>> 8).setWidth 8 ^^^ c).setWidth 16 <<< 8 ^^^ (r.setWidth 8).setWidth 16 := by
    refine BitVec.eq_of_getLsbD_eq fun i hi => ?_
    by_cases h : i < 8
    · simp [h, hi]
    · simp [h, hi, show 8 + (i - 8) = i by omega, show i - 8 < 8 by omega]
  have hupper : ((r >>> 8).setWidth 8 ^^^ c).setWidth 16 = r >>> 8 ^^^ c.setWidth 16 := by
    refine BitVec.eq_of_getLsbD_eq fun i hi => ?_
    by_cases h : i < 8
    · simp [h, hi]
    · simp [h, hi, show 16 ≤ 8 + i by omega]
  have hlower : (r.setWidth 8).setWidth 16 <<< 8 = r <<< 8 := by
    refine BitVec.eq_of_getLsbD_eq fun i hi => ?_
    by_cases h : i < 8
    · simp [h, hi]
    · simp only [BitVec.getLsbD_shiftLeft, BitVec.getLsbD_setWidth, show i - 8 < 8 by omega,
        show i - 8 < 16 by omega, decide_true, Bool.true_and]
  rw [hsplit, Register.iterate_step_xor, iterate_step_upper, iterate_step_lower, hupper, hlower]
  simp only
  ac_rfl

/-- `ccitt_crc16` takes in a byte as the register takes in its bits. -/
theorem toBitVec_crcByte (crc : UInt16) (c : UInt8) :
    (crcMix (crc <<< 8) (crcFold ((crc >>> 8) ^^^ c.toUInt16))).toBitVec =
      crcRegister.run crc.toBitVec (dataBits [c]) := by
  have hbits : dataBits [c] = crcRegister.bits 8 (c.toBitVec.setWidth 16 <<< 8) := by
    rw [crcRegister, Register.bits_msbFirst]
    simp only [dataBits, List.flatMap_cons, List.flatMap_nil, List.append_nil]
    refine List.map_congr_left fun i hi => ?_
    have hi := List.mem_range.mp hi
    simp [BitVec.getMsbD, hi, show 15 - i - 8 = 7 - i by omega, show i < 16 by omega,
      show 15 - i < 16 by omega, show ¬15 - i < 8 by omega]
  have hshift : crcRegister.shift^[8] (c.toBitVec.setWidth 16 <<< 8) = 0#16 := by
    refine (Register.iterate_shiftLeft 8 _).trans ?_
    rw [← BitVec.shiftLeft_add, BitVec.shiftLeft_eq_zero (by decide)]
  rw [hbits, Register.run_bits_eq_iterate _ hshift, iterate_step_byte]
  rfl

theorem toBitVec_ccittCrc16 (buf : Bytes) :
    (ccittCrc16 buf).toBitVec = crcRegister.run 0#16 (dataBits buf) := by
  have hfold : ∀ crc : UInt16, (buf.foldl
      (fun crc b => crcMix (crc <<< 8) (crcFold ((crc >>> 8) ^^^ b.toUInt16))) crc).toBitVec =
        crcRegister.run crc.toBitVec (dataBits buf) := by
    induction buf with
    | nil => exact fun _ => rfl
    | cons c buf ih =>
      intro crc
      rw [List.foldl_cons, ih, toBitVec_crcByte, ← Register.run_append]
      simp [dataBits]
  exact hfold 0

/-- Data that are followed by their checksum clear the register. -/
theorem run_crcBytes (buf : Bytes) :
    crcRegister.run 0#16 (dataBits (buf ++ crcBytes (ccittCrc16 buf))) = 0#16 := by
  have hbits : dataBits (crcBytes (ccittCrc16 buf)) =
      crcRegister.bits 16 (ccittCrc16 buf).toBitVec := by
    rw [crcRegister, Register.bits_msbFirst]
    generalize ccittCrc16 buf = crc
    simp [crcBytes, dataBits, List.range_succ, BitVec.getMsbD]
  rw [dataBits_append, Register.run_append, ← toBitVec_ccittCrc16, hbits, Register.run_bits_self]

theorem period_crcRegister : crcRegister.period = 32767 := by
  refine crcRegister.period_eq (f := fun r => ((r <<< 1) % 2 ^ 16) ^^^ (r / 2 ^ 15 * 0x1021))
    (fun r => ?_) (by decide +kernel) (by decide +kernel) (by decide +kernel) (by decide +kernel)
  have hlt := r.isLt
  have hout : crcRegister.out r = decide (2 ^ 15 ≤ r.toNat) := BitVec.msb_eq_decide r
  simp only [Register.step, hout, Bool.xor_false, decide_eq_true_eq]
  split_ifs with h
  · rw [show r.toNat / 2 ^ 15 = 1 by omega, one_mul, BitVec.toNat_xor]
    rfl
  · rw [show r.toNat / 2 ^ 15 = 0 by omega, zero_mul, Nat.xor_zero]
    rfl

theorem oddFeedback_crcRegister : crcRegister.OddFeedback := by
  unfold Register.OddFeedback
  decide

/-- What has been read of a packet, judged by its start, is not all of it. -/
theorem State.Reads.length_lt_of_start {s : State} {l : Bytes} {b : Block} (h : s.Reads l)
    (hstart : l.head? = some b.start) : l.length < b.bytes.length + 5 := by
  have hheaded : ∀ {hdr tail : Bytes}, s.Headed hdr → l = hdr ++ tail →
      hdr.length = 3 ∧ s.packetLen = b.bytes.length := by
    rintro hdr tail ⟨st, a, hst, -, rfl⟩ rfl
    exact ⟨rfl, hst.length_eq (by simpa using hstart)⟩
  rw [State.Reads] at h
  split at h
  · obtain ⟨-, -, st, -, hl⟩ := h
    split at hl
    · obtain ⟨a, -, rfl⟩ := hl
      simp
    · subst hl
      simp
  · obtain ⟨-, -, hidx, hdr, hhdr, hl⟩ := h
    obtain ⟨hlen, hpacket⟩ := hheaded hhdr hl
    rw [hl, List.length_append, hlen, s.length_bytes]
    omega
  · obtain ⟨-, hdr, hhdr, hl⟩ := h
    split at hl
    · obtain ⟨hi, -, hl⟩ := hl
      rw [List.append_assoc] at hl
      obtain ⟨hlen, hpacket⟩ := hheaded hhdr hl
      rw [hl, List.length_append, List.length_append, hlen, s.length_bytes, List.length_singleton]
      omega
    · obtain ⟨hlen, hpacket⟩ := hheaded hhdr hl
      rw [hl, List.length_append, hlen, s.length_bytes]
      omega
  · subst h
    simp

/-- The data of a packet and its checksum, with an error that the checksum finds. -/
def Altered (b : Block) (tail : Bytes) : Prop :=
  tail.length = b.bytes.length + 2 ∧
    Register.Detectable 16 32767 (dataBits (b.bytes ++ crcBytes (ccittCrc16 b.bytes)))
      (dataBits tail)

/-- The first byte of the data is another one. -/
theorem altered_of_first {b : Block} {c c' : UInt8} {rest : Bytes} (hb : b.bytes = c :: rest)
    (hne : dataBits [c] ≠ dataBits [c']) :
    Altered b (c' :: (rest ++ crcBytes (ccittCrc16 b.bytes))) := by
  refine ⟨by simp [hb, crcBytes], .window [] (dataBits [c]) (dataBits [c'])
    (dataBits (rest ++ crcBytes (ccittCrc16 b.bytes))) ?_ ?_ (by simp [dataBits]) ?_ hne⟩
  · rw [List.nil_append, ← dataBits_append, List.singleton_append, ← List.cons_append, ← hb]
  · rw [List.nil_append, ← dataBits_append, List.singleton_append]
  · simp [dataBits]

/-- What is altered so does not end a packet. -/
theorem Altered.ne_frame {b : Block} {tail : Bytes} (h : Altered b tail) (b' : Block)
    (first second a c : UInt8) :
    b.start :: first :: second :: tail ≠ b'.frame a c := by
  intro hframe
  obtain ⟨-, hdetect⟩ := h
  obtain ⟨-, -, -, rfl⟩ : _ ∧ _ ∧ _ ∧ tail = b'.bytes ++ crcBytes (ccittCrc16 b'.bytes) := by
    simpa [Block.frame] using hframe
  rw [← period_crcRegister] at hdetect
  refine crcRegister.run_ne_of_detectable (r := 0#16) oddFeedback_crcRegister hdetect ?_
  rw [run_crcBytes, run_crcBytes]

section Damage

variable {x : Session} {b : Block} {d : List Op} {p rest : Bytes} {s₀ : State}

/-- How far an altered packet has come: a part of it has been read, or it has been refused. -/
inductive Refused (s₀ : State) (p : Bytes) (s : State) (rest : Bytes) : Prop
  | purging (hprocess : s.process = .purge) (hattached : s.attached = true)
      (hledger : s.ledger = s₀.ledger) (hsent : s.sent = s₀.sent)
  | reading (l : Bytes) (hp : p = l ++ rest) (hrest : rest ≠ []) (hreads : s.Reads l)
      (hlistens : s.Listens) (hattached : s.attached = true) (hledger : s.ledger = s₀.ledger)
      (hsent : s.sent = s₀.sent)

/-- A byte of an altered packet. -/
theorem Refused.byte {tail : Bytes} {first second c : UInt8} {s : State} (haltered : Altered b tail)
    (hp : p = b.start :: first :: second :: tail) (h : Refused s₀ p s (c :: rest)) (vfs : Vfs) :
    ∃ st s', s.processChar vfs c = some (st, s') ∧ Refused s₀ p (s'.answer st).goOn rest := by
  cases h with
  | purging hprocess hattached hledger hsent =>
    exact ⟨.NOOP, s, by rw [State.processChar, hprocess], .purging hprocess hattached hledger hsent⟩
  | reading l hl hrest hreads hlistens hattached hledger hsent =>
    have hlength : p.length = b.bytes.length + 5 := by
      rw [hp, List.length_cons, List.length_cons, List.length_cons, haltered.1]
    have hhead : (l ++ [c]).head? = some b.start := by
      have hfirst : p.head? = some b.start := by rw [hp]; rfl
      rw [← hfirst, hl]
      cases l <;> rfl
    cases State.outcome hlistens hreads vfs c with
    | continues s' hproc hreads' hlistens' hpasses hattached' =>
      rw [hattached] at hattached'
      refine ⟨.NOOP, s', hproc, .reading (l ++ [c]) (by simp [hl]) ?_ hreads' hlistens' hattached'
        ((hpasses.ledger hattached').trans hledger) ((hpasses.sent hattached').trans hsent)⟩
      rintro rfl
      have hlt := hreads'.length_lt_of_start hhead
      rw [← hl, hlength] at hlt
      exact lt_irrefl _ hlt
    | refuses st s' hproc hst hpasses hbegins =>
      rcases hst with ⟨rfl, hattached'⟩ | ⟨rfl, -, rfl⟩
      · rw [hattached] at hattached'
        exact ⟨.Purge, s', hproc, .purging rfl hattached' ((hpasses.ledger hattached').trans hledger)
          ((hpasses.sent hattached').trans hsent)⟩
      · refine absurd ⟨b, s.packetNum, .inl rfl, ?_⟩ hbegins
        obtain rfl : c = b.start := by simpa using hhead
        exact List.cons_prefix_cons.mpr ⟨rfl, List.nil_prefix⟩
    | completes b' a hcomplete =>
      have hstart : b'.start = b.start := by
        rw [hcomplete.frame] at hhead
        simpa [Block.frame] using hhead
      have hframe := congrArg List.length hcomplete.frame
      rw [Block.length_frame, Block.length_of_start hstart, ← hlength, hl] at hframe
      obtain rfl : rest = [] := by
        simp only [List.length_append, List.length_cons, List.length_nil] at hframe
        exact List.length_eq_zero_iff.mp (by omega)
      have hne := haltered.ne_frame b' first second a (s.packetNum ^^^ 0xFF)
      rw [← hp, hl, ← hcomplete.frame] at hne
      exact absurd rfl hne

theorem Refused.step {tail : Bytes} {first second : UInt8} (haltered : Altered b tail)
    (hp : p = b.start :: first :: second :: tail) (op : Op) (hop : InTime (some x) op)
    (hlen : (x.receiver.rxBuffer.contents ++ puts (op :: d)).length < 2047)
    (h : Refused s₀ p x.receiver (x.receiver.rxBuffer.contents ++ puts (op :: d))) :
    ∃ x', exec (some x) op = some x' ∧ (x'.receiver.rxBuffer.contents ++ puts d).length < 2047 ∧
      Refused s₀ p x'.receiver (x'.receiver.rxBuffer.contents ++ puts d) := by
  rcases exec_inTime op d hop hlen with
    ⟨rx, loop, hexec, hrx⟩ | ⟨vfs, now, c, hc, -, -, hexec, hloop, harrives⟩
  · refine ⟨_, hexec, ?_⟩
    have hattached : x.receiver.attached = true := by cases h <;> assumption
    rw [← hrx hattached] at h hlen
    refine ⟨hlen, ?_⟩
    cases h with
    | purging hprocess hattached hledger hsent => exact .purging hprocess hattached hledger hsent
    | reading l hl hrest hreads hlistens hattached hledger hsent =>
      exact .reading l hl hrest hreads hlistens hattached hledger hsent
  · rw [harrives] at h hlen
    generalize hs₁ : ({ x.receiver with
      rxBuffer := x.receiver.rxBuffer.drop
      nextTimeout := now + 1000 } : State) = s₁
    have hbuffer : s₁.rxBuffer = x.receiver.rxBuffer.drop := by rw [← hs₁]
    have h₁ : Refused s₀ p s₁ (c :: (x.receiver.rxBuffer.drop.contents ++ puts d)) := by
      rw [← hs₁]
      cases h with
      | purging hprocess hattached hledger hsent => exact .purging hprocess hattached hledger hsent
      | reading l hl hrest hreads hlistens hattached hledger hsent =>
        exact .reading l hl hrest hreads hlistens hattached hledger hsent
    obtain ⟨st, s', hproc, hrefused⟩ := h₁.byte haltered hp vfs
    obtain ⟨ack, stream, hread⟩ := Session.read_eq hloop hc (hs₁ ▸ hproc)
    have hrx : (s'.answer st).goOn.rxBuffer = x.receiver.rxBuffer.drop := by
      rw [s'.rxBuffer_answer, State.rxBuffer_processChar hproc, hbuffer]
    refine ⟨_, hexec.trans hread, ?_, ?_⟩
    · rw [hrx]
      exact Nat.lt_of_succ_lt hlen
    · rwa [hrx]

theorem Refused.run {tail : Bytes} {first second : UInt8} (haltered : Altered b tail)
    (hp : p = b.start :: first :: second :: tail) (hd : Transition.Along exec InTime (some x) d)
    (hlen : (x.receiver.rxBuffer.contents ++ puts d).length < 2047)
    (h : Refused s₀ p x.receiver (x.receiver.rxBuffer.contents ++ puts d)) :
    ∃ x', d.foldl exec (some x) = some x' ∧
      Refused s₀ p x'.receiver x'.receiver.rxBuffer.contents := by
  induction d generalizing x with
  | nil =>
    refine ⟨x, rfl, ?_⟩
    rwa [show puts [] = [] from rfl, List.append_nil] at h
  | cons op d ih =>
    obtain ⟨hop, hd⟩ := hd
    obtain ⟨x', hx', hlen', h'⟩ := h.step haltered hp op hop hlen
    rw [List.foldl_cons, hx']
    exact ih (hx' ▸ hd) hlen' h'

end Damage

/-- The receiver waits for a packet. -/
def waiting : Session := { receiver := { idle with attached := true, nextTimeout := 1000 } }

/-- The data of the header with a wrong bit, and its checksum. -/
def alteredHeader : Bytes :=
  0x60 :: (List.replicate 127 0x00 ++ crcBytes (ccittCrc16 fileHeader.bytes))

theorem altered_alteredHeader : Altered fileHeader alteredHeader :=
  altered_of_first rfl (by decide)

end Ymodem

end Inspector
