import Inspector.Ymodem.Receiver

/-! # Packets of YModem

A packet is a block of 128 or 1024 bytes with its start, its number, the complement of that, and the
checksum of the block. The receiver keeps the part of a packet that it has read; a byte continues
it, completes it, or is refused since no packet that the receiver takes begins that way.
-/

namespace Inspector

namespace Ymodem

/-- The data of a packet. -/
structure Block where
  bytes : Bytes
  length_eq : bytes.length = 128 ∨ bytes.length = 1024

def crcBytes (crc : UInt16) : Bytes := [(crc >>> 8).toUInt8, crc.toUInt8]

namespace Block

variable (b : Block)

def start : UInt8 := if b.bytes.length = 128 then ASCII_SOH else ASCII_STX

/-- A block between any two bytes for its number and its checksum. -/
def frame (first second : UInt8) : Bytes :=
  b.start :: first :: second :: (b.bytes ++ crcBytes (ccittCrc16 b.bytes))

/-- The packet with a number. -/
def packet (num : UInt8) : Bytes := b.frame num (num ^^^ 0xFF)

end Block

theorem xor_eq_iff {c p : UInt8} : c ^^^ 0xFF = p ↔ c = p ^^^ 0xFF := by
  constructor
  · rintro rfl
    rw [UInt8.xor_assoc, UInt8.xor_self, UInt8.xor_zero]
  · rintro rfl
    rw [UInt8.xor_assoc, UInt8.xor_self, UInt8.xor_zero]

theorem crcBytes_eq_iff {crc : UInt16} {hi lo : UInt8} :
    crcBytes crc = [hi, lo] ↔ crc = (hi.toUInt16 <<< 8) ||| lo.toUInt16 := by
  have hhi := hi.toNat_lt
  have hlo := lo.toNat_lt
  have hcrc := crc.toNat_lt
  have height : (8 : UInt16).toNat % 16 = 8 := rfl
  have hor : (hi.toNat <<< 8) % 2 ^ 16 ||| lo.toNat = hi.toNat * 256 + lo.toNat := by
    rw [Nat.mod_eq_of_lt (by rw [Nat.shiftLeft_eq]; omega), ← Nat.shiftLeft_add_eq_or_of_lt hlo,
      Nat.shiftLeft_eq]
  simp only [crcBytes, List.cons.injEq, and_true, ← UInt8.toNat_inj, ← UInt16.toNat_inj,
    UInt16.toNat_or, UInt16.toNat_shiftLeft, UInt16.toNat_shiftRight, UInt8.toNat_toUInt16,
    UInt16.toNat_toUInt8]
  rw [height, hor, Nat.shiftRight_eq_div_pow]
  omega

namespace State

variable {s s' : State} {l : Bytes} {c : UInt8}

@[simp] theorem length_bytes (s : State) (n : ℕ) : (s.bytes n).length = n := by simp [bytes]

theorem bytes_succ (s : State) (n : ℕ) : s.bytes (n + 1) = s.bytes n ++ [s.payload n] := by
  simp [bytes, List.range_succ]

theorem bytes_eq_take (s : State) {n m : ℕ} (h : n ≤ m) : s.bytes n = (s.bytes m).take n := by
  rw [bytes, bytes, ← List.map_take, List.take_range, min_eq_left h]

theorem bytes_savePayload (s : State) (c : UInt8) :
    (s.savePayload c).bytes (s.idx + 1) = s.bytes s.idx ++ [c] := by
  rw [bytes_succ]
  congr 1
  · apply List.map_congr_left
    intro i hi
    exact Function.update_of_ne (List.mem_range.mp hi).ne _ _
  · simp [savePayload]

/-- What the receiver keeps of a transfer between two packets. -/
structure Ledger where
  handle : Bool
  file : Bytes
  filename : Bytes
  filelength : ℕ
  received : ℕ
  packetNum : UInt8

def ledger (s : State) : Ledger :=
  ⟨s.handle, s.file, s.filename, s.filelength, s.received, s.packetNum⟩

/-- A packet begins with a byte and is as long as that says. -/
def Starts (s : State) (st : UInt8) : Prop :=
  st = ASCII_SOH ∧ s.packetLen = 128 ∨ st = ASCII_STX ∧ s.packetLen = 1024

/-- A number that the receiver takes at its first place. -/
def Numbered (s : State) (a : UInt8) : Prop := a = s.packetNum ∨ s.IsRepeated a

/-- What has been read of a packet, up to its payload. -/
def Headed (s : State) (l : Bytes) : Prop :=
  ∃ st a, s.Starts st ∧ s.Numbered a ∧ l = [st, a, s.packetNum ^^^ 0xFF]

/-- What has been read of a packet. -/
def Reads (s : State) (l : Bytes) : Prop :=
  match s.process with
  | .awaitPacketnum =>
    s.idx = 0 ∧ s.crcLsb = false ∧ ∃ st, s.Starts st ∧
      if s.seqInv then ∃ a, s.Numbered a ∧ l = [st, a] else l = [st]
  | .getPayload =>
    s.repeated = false ∧ s.crcLsb = false ∧ s.idx < s.packetLen ∧
      ∃ hdr, s.Headed hdr ∧ l = hdr ++ s.bytes s.idx
  | .awaitCrc =>
    s.repeated = false ∧ ∃ hdr, s.Headed hdr ∧
      if s.crcLsb then ∃ hi : UInt8, s.crc = hi.toUInt16 ∧ l = hdr ++ s.bytes s.packetLen ++ [hi]
      else l = hdr ++ s.bytes s.packetLen
  | _ => l = []

/-- A packet that the receiver takes begins so. -/
def Begins (s : State) (l : Bytes) : Prop :=
  ∃ (b : Block) (a : UInt8), s.Numbered a ∧ l <+: b.frame a (s.packetNum ^^^ 0xFF)

/-- What a handler may do to a transfer without a packet. -/
structure Passes (s s' : State) : Prop where
  file : s'.file = s.file
  attached : s'.attached = true → s.attached = true
  ledger : s'.attached = true → s'.ledger = s.ledger
  sent : s'.attached = true → s'.sent = s.sent

theorem Passes.refl (s : State) : Passes s s := ⟨rfl, id, fun _ => rfl, fun _ => rfl⟩

theorem passes_endTransfer (s : State) (sendAck : Bool) : Passes s (s.endTransfer sendAck) := by
  cases sendAck <;> exact ⟨rfl, nofun, nofun, nofun⟩

/-- A packet waits for its last byte. -/
structure Completes (s : State) (l : Bytes) (c : UInt8) (b : Block) (a : UInt8) : Prop where
  frame : l ++ [c] = b.frame a (s.packetNum ^^^ 0xFF)
  numbered : s.Numbered a
  bytes : s.bytes s.packetLen = b.bytes
  repeated : s.repeated = false
  process : s.process = .awaitCrc
  crcLsb : s.crcLsb = true
  accept : ∀ vfs, s.processChar vfs c =
    ({ s with process := .awaitSoh, crc := (s.crc <<< 8) ||| c.toUInt16 } : State).accept vfs

/-- The receiver waits for a packet or reads one. -/
def Listens (s : State) : Prop :=
  s.process = .awaitSoh ∨ s.process = .awaitPacketnum ∨ s.process = .getPayload ∨
    s.process = .awaitCrc

/-- What a byte may do: it continues what has been read, it is refused, or it completes a packet. -/
inductive Outcome (s : State) (l : Bytes) (vfs : Vfs) (c : UInt8) : Prop
  | continues (s' : State) (h : s.processChar vfs c = some (.NOOP, s')) (hreads : s'.Reads (l ++ [c]))
      (hlistens : s'.Listens) (hpasses : Passes s s') (hattached : s'.attached = s.attached)
  | refuses (st : Status) (s' : State) (h : s.processChar vfs c = some (st, s'))
      (hst : st = .Purge ∧ s'.attached = s.attached ∨ st = .NOOP ∧ s'.Reads [] ∧ l = [])
      (hpasses : Passes s s')
      (hbegins : ¬s.Begins (l ++ [c]))
  | completes (b : Block) (a : UInt8) (h : s.Completes l c b a)

theorem Starts.exists_block {st : UInt8} (h : s.Starts st) :
    ∃ b : Block, b.bytes = s.bytes s.packetLen ∧ b.start = st := by
  have hlen : (s.bytes s.packetLen).length = s.packetLen := s.length_bytes _
  rcases h with ⟨rfl, h⟩ | ⟨rfl, h⟩
  · exact ⟨⟨s.bytes s.packetLen, .inl (hlen.trans h)⟩, rfl, if_pos (hlen.trans h)⟩
  · refine ⟨⟨s.bytes s.packetLen, .inr (hlen.trans h)⟩, rfl, if_neg ?_⟩
    change ¬(s.bytes s.packetLen).length = 128
    rw [hlen, h]
    decide

theorem Starts.length_eq {st : UInt8} (h : s.Starts st) {b : Block} (hb : st = b.start) :
    s.packetLen = b.bytes.length := by
  rw [Block.start] at hb
  split_ifs at hb with hlen <;> rcases h with ⟨rfl, h⟩ | ⟨rfl, h⟩
  · rw [h, hlen]
  · cases hb
  · cases hb
  · rw [h, b.length_eq.resolve_left hlen]

theorem outcome_awaitSoh (h : s.process = .awaitSoh) (vfs : Vfs) (c : UInt8) :
    Outcome s [] vfs c := by
  have hproc : s.processChar vfs c = some (s.awaitSoh c) := by rw [processChar, h]
  rw [awaitSoh] at hproc
  split_ifs at hproc with hstart heot hcan
  · refine .continues (s.begin c) hproc ?_ (.inr (.inl rfl)) ⟨rfl, id, fun _ => rfl, fun _ => rfl⟩ rfl
    refine ⟨rfl, rfl, c, ?_, rfl⟩
    rcases hstart with rfl | rfl
    · exact .inl ⟨rfl, rfl⟩
    · exact .inr ⟨rfl, rfl⟩
  all_goals
    have hbegins : ¬s.Begins ([] ++ [c]) := by
      rintro ⟨b, a, -, hb⟩
      have hc : c = b.start := (List.cons_prefix_cons.mp hb).1
      apply hstart
      rw [hc, Block.start]
      split_ifs
      · exact .inl rfl
      · exact .inr rfl
  · exact .refuses _ _ hproc
      (.inr ⟨rfl, by rw [Reads, endTransfer, if_pos rfl]; simp [writeChars, h], rfl⟩)
      (passes_endTransfer s true) hbegins
  · exact .refuses _ _ hproc (.inr ⟨rfl, rfl, rfl⟩) ⟨rfl, id, fun _ => rfl, fun _ => rfl⟩ hbegins
  · exact .refuses _ _ hproc (.inl ⟨rfl, rfl⟩) (.refl s) hbegins

theorem outcome_firstNum (h : s.process = .awaitPacketnum) (hseq : s.seqInv = false)
    (hreads : s.Reads l) (vfs : Vfs) (c : UInt8) : Outcome s l vfs c := by
  have hproc : s.processChar vfs c = some (s.firstNum c) := by
    rw [processChar, h]
    exact congrArg some (if_neg (by rw [hseq]; exact Bool.false_ne_true))
  rw [Reads, h] at hreads
  obtain ⟨hidx, hlsb, st, hst, hl⟩ := hreads
  rw [if_neg (by rw [hseq]; exact Bool.false_ne_true)] at hl
  subst hl
  rw [firstNum] at hproc
  split_ifs at hproc with hnum
  · refine .continues { s with seqInv := true } hproc ?_ (.inr (.inl h))
      ⟨rfl, id, fun _ => rfl, fun _ => rfl⟩ rfl
    rw [Reads]
    simp only [h]
    exact ⟨hidx, hlsb, st, hst, c, hnum, rfl⟩
  · refine .refuses _ _ hproc (.inl ⟨rfl, rfl⟩) ⟨rfl, id, fun _ => rfl, fun _ => rfl⟩ ?_
    rintro ⟨b, a, ha, hb⟩
    obtain ⟨-, hb⟩ := List.cons_prefix_cons.mp hb
    obtain ⟨rfl, -⟩ := List.cons_prefix_cons.mp hb
    exact hnum ha

/-- A number that is one too high is raised once more, so it is never the expected one. -/
theorem secondNum_eq_iff {d : UInt8} :
    (if s.IsRepeated d then d + 1 else d) = s.packetNum ↔ d = s.packetNum ∧ ¬s.IsRepeated d := by
  have hne : s.IsRepeated d → d + 1 ≠ s.packetNum := by
    intro hrep heq
    rw [IsRepeated, ← heq, UInt8.toNat_add] at hrep
    have hone : (1 : UInt8).toNat = 1 := rfl
    have hlt := d.toNat_lt
    omega
  split_ifs with hrep
  · exact iff_of_false (hne hrep) fun hd => hd.2 hrep
  · exact (and_iff_left hrep).symm

theorem not_isRepeated_packetNum : ¬s.IsRepeated s.packetNum := by
  rw [IsRepeated]
  omega

theorem outcome_secondNum (h : s.process = .awaitPacketnum) (hseq : s.seqInv = true)
    (hreads : s.Reads l) (vfs : Vfs) (c : UInt8) : Outcome s l vfs c := by
  have hproc : s.processChar vfs c = some (s.secondNum (c ^^^ 0xFF)) := by
    rw [processChar, h]
    exact congrArg some (if_pos hseq)
  rw [Reads, h] at hreads
  obtain ⟨hidx, hlsb, st, hst, hl⟩ := hreads
  rw [if_pos hseq] at hl
  obtain ⟨a, ha, rfl⟩ := hl
  rw [secondNum] at hproc
  by_cases hnum : c ^^^ 0xFF = s.packetNum ∧ ¬s.IsRepeated (c ^^^ 0xFF)
  · rw [if_pos (secondNum_eq_iff.mpr hnum)] at hproc
    obtain ⟨hc, hrep⟩ := hnum
    obtain rfl := xor_eq_iff.mp hc
    refine .continues _ hproc ?_ (.inr (.inr (.inl rfl))) ⟨rfl, id, fun _ => rfl, fun _ => rfl⟩ rfl
    refine ⟨decide_eq_false hrep, hlsb, ?_, [st, a, s.packetNum ^^^ 0xFF], ⟨st, a, hst, ha, rfl⟩, ?_⟩
    · change s.idx < s.packetLen
      rw [hidx]
      rcases hst with ⟨-, hlen⟩ | ⟨-, hlen⟩ <;> omega
    · change _ = _ ++ s.bytes s.idx
      rw [hidx]
      rfl
  · rw [if_neg (secondNum_eq_iff.not.mpr hnum)] at hproc
    refine .refuses _ _ hproc (.inl ⟨rfl, rfl⟩) ⟨rfl, id, fun _ => rfl, fun _ => rfl⟩ ?_
    rintro ⟨b, a', -, hb⟩
    obtain ⟨-, hb⟩ := List.cons_prefix_cons.mp hb
    obtain ⟨-, hb⟩ := List.cons_prefix_cons.mp hb
    obtain ⟨rfl, -⟩ := List.cons_prefix_cons.mp hb
    apply hnum
    rw [xor_eq_iff.mpr rfl]
    exact ⟨rfl, not_isRepeated_packetNum⟩

theorem outcome_getPayload (h : s.process = .getPayload) (hreads : s.Reads l) (vfs : Vfs)
    (c : UInt8) : Outcome s l vfs c := by
  rw [Reads, h] at hreads
  obtain ⟨hrep, hlsb, hidx, hdr, hhdr, rfl⟩ := hreads
  have hlen : s.packetLen ≤ 1024 := by
    obtain ⟨st, -, hst, -⟩ := hhdr
    rcases hst with ⟨-, hlen⟩ | ⟨-, hlen⟩ <;> omega
  have hproc : s.processChar vfs c = some (.NOOP, s.savePayload c) := by
    rw [processChar, h]
    exact if_pos (hidx.trans_le hlen)
  have hbytes := s.bytes_savePayload c
  have hstep : hdr ++ s.bytes s.idx ++ [c] = hdr ++ (s.savePayload c).bytes (s.idx + 1) := by
    rw [hbytes, List.append_assoc]
  refine .continues _ hproc ?_ ?_ ⟨rfl, id, fun _ => rfl, fun _ => rfl⟩ rfl
  · rw [hstep, Reads]
    by_cases hlast : s.idx + 1 = s.packetLen
    · simp only [savePayload, if_pos hlast, hlsb, Bool.false_eq_true, if_false]
      exact ⟨hrep, hdr, hhdr, by rw [← hlast]⟩
    · simp only [savePayload, if_neg hlast, h]
      exact ⟨hrep, hlsb, by omega, hdr, hhdr, rfl⟩
  · by_cases hlast : s.idx + 1 = s.packetLen
    · exact .inr (.inr (.inr (if_pos hlast)))
    · exact .inr (.inr (.inl ((if_neg hlast).trans h)))

theorem outcome_awaitCrc (h : s.process = .awaitCrc) (hreads : s.Reads l) (vfs : Vfs) (c : UInt8) :
    Outcome s l vfs c := by
  rw [Reads, h] at hreads
  obtain ⟨hrep, hdr, ⟨st, a, hst, ha, rfl⟩, hl⟩ := hreads
  have hproc : s.processChar vfs c = s.awaitCrc vfs c := by rw [processChar, h]
  rw [awaitCrc] at hproc
  cases hlsb : s.crcLsb with
  | false =>
    simp only [hlsb, Bool.false_eq_true, if_false] at hl hproc
    subst hl
    refine .continues _ hproc ?_ (.inr (.inr (.inr h))) ⟨rfl, id, fun _ => rfl, fun _ => rfl⟩ rfl
    rw [Reads]
    simp only [h]
    exact ⟨hrep, _, ⟨st, a, hst, ha, rfl⟩, c, rfl, rfl⟩
  | true =>
    simp only [hlsb, if_true] at hl hproc
    obtain ⟨hi, hcrc, rfl⟩ := hl
    by_cases hvalid : ccittCrc16 (s.bytes s.packetLen) = (s.crc <<< 8) ||| c.toUInt16
    · obtain ⟨b, hb, rfl⟩ := hst.exists_block
      have haccept : ∀ vfs, s.processChar vfs c = ({ s with
          process := .awaitSoh
          crc := (s.crc <<< 8) ||| c.toUInt16 } : State).accept vfs := by
        intro vfs
        rw [processChar, h]
        exact (if_pos hlsb).trans (if_pos hvalid)
      refine .completes b a ⟨?_, ha, hb.symm, hrep, h, hlsb, haccept⟩
      rw [hcrc, ← hb, ← crcBytes_eq_iff] at hvalid
      rw [Block.frame, hvalid, hb]
      simp
    · refine .refuses .Purge _ (hproc.trans (if_neg hvalid)) (.inl ⟨rfl, rfl⟩)
        ⟨rfl, id, fun _ => rfl, fun _ => rfl⟩ ?_
      rintro ⟨b, a', -, hb⟩
      have hlen : (s.bytes s.packetLen).length = b.bytes.length := by
        obtain ⟨hstart, -⟩ := List.cons_prefix_cons.mp hb
        rw [s.length_bytes]
        exact hst.length_eq hstart
      obtain ⟨-, hb⟩ := List.cons_prefix_cons.mp hb
      obtain ⟨-, hb⟩ := List.cons_prefix_cons.mp hb
      obtain ⟨-, hb⟩ := List.cons_prefix_cons.mp hb
      have hbytes : s.bytes s.packetLen ++ [hi, c] = b.bytes ++ crcBytes (ccittCrc16 b.bytes) := by
        apply List.IsPrefix.eq_of_length
        · simpa using hb
        · simp [hlen, crcBytes]
      obtain ⟨hpayload, hcheck⟩ := List.append_inj hbytes hlen
      apply hvalid
      rw [hcrc, hpayload, ← crcBytes_eq_iff]
      exact hcheck.symm

/-- A byte that arrives while a packet is awaited or read has one of the three outcomes. -/
theorem outcome (h : s.Listens) (hreads : s.Reads l) (vfs : Vfs) (c : UInt8) :
    Outcome s l vfs c := by
  rcases h with h | h | h | h
  · rw [Reads, h] at hreads
    subst hreads
    exact outcome_awaitSoh h vfs c
  · cases hseq : s.seqInv with
    | false => exact outcome_firstNum h hseq hreads vfs c
    | true => exact outcome_secondNum h hseq hreads vfs c
  · exact outcome_getPayload h hreads vfs c
  · exact outcome_awaitCrc h hreads vfs c

theorem rxBuffer_accept {vfs : Vfs} {r : Status × State} (h : s.accept vfs = some r) :
    r.2.rxBuffer = s.rxBuffer := by
  rw [accept] at h
  split_ifs at h
  · rw [awaitFile] at h
    split_ifs at h <;> cases h
    · rfl
    · rw [openFile, saveLength]
      split_ifs <;> rfl
  · cases h
    rfl
  · have htrim : s.count.trim.rxBuffer = s.rxBuffer := by
      rw [trim]
      split_ifs <;> rfl
    rw [← htrim]
    rw [writePayload] at h
    split_ifs at h <;> cases h <;> rfl

/-- The handlers leave the receive buffer alone. -/
theorem rxBuffer_processChar {r : Status × State} (h : s.processChar vfs c = some r) :
    r.2.rxBuffer = s.rxBuffer := by
  rw [processChar] at h
  split at h
  · cases h
    simp only [awaitCancel, endTransfer]
    split_ifs <;> rfl
  · cases h
    rfl
  · cases h
    simp only [awaitSoh, endTransfer]
    split_ifs <;> rfl
  · cases h
    simp only [awaitPacketnum, firstNum, secondNum]
    split_ifs <;> rfl
  · rw [getPayload] at h
    split_ifs at h
    cases h
    rfl
  · rw [awaitCrc, checkCrc] at h
    split_ifs at h
    · have hbuffer := rxBuffer_accept h
      exact hbuffer
    · cases h
      rfl
    · cases h
      rfl
  · cases h
    simp only [awaitEot, endTransfer]
    split_ifs <;> rfl

/-- When no packet is awaited, a byte does nothing to the transfer but end it. -/
theorem processChar_of_not_listens (h : ¬s.Listens) (vfs : Vfs) (c : UInt8) :
    ∃ s', s.processChar vfs c = some (.NOOP, s') ∧ Passes s s' ∧ s'.Reads [] := by
  cases hp : s.process with
  | awaitCancel =>
    refine ⟨_, by rw [processChar, hp]; rfl, ?_, ?_⟩ <;> split_ifs
    · exact passes_endTransfer s false
    · exact ⟨rfl, id, fun _ => rfl, fun _ => rfl⟩
    · simp [Reads, endTransfer, hp]
    · rfl
  | purge =>
    refine ⟨s, by rw [processChar, hp], .refl s, ?_⟩
    simp [Reads, hp]
  | awaitEot =>
    refine ⟨_, by rw [processChar, hp]; rfl, ?_, ?_⟩ <;> split_ifs
    · exact passes_endTransfer s true
    · exact .refl s
    · simp [Reads, endTransfer, writeChars, hp]
    · simp [Reads, hp]
  | awaitSoh => exact absurd (.inl hp) h
  | awaitPacketnum => exact absurd (.inr (.inl hp)) h
  | getPayload => exact absurd (.inr (.inr (.inl hp))) h
  | awaitCrc => exact absurd (.inr (.inr (.inr hp))) h

end State

end Ymodem

end Inspector
