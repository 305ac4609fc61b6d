import Inspector.Transition.Partial
import Inspector.Ymodem.Delivery

/-! # The buffers of the YModem receiver

A sender decides on the lengths: of the name that is copied, of the number that is read behind it,
and of what is left to be written. The receiver keeps within its buffers exactly when the name fits
in its field, what `atoi` reads ends within the payload, and no data comes once the announced length
has been passed.
-/

namespace Inspector

namespace Ymodem

/-- What a handler does with the buffers: a byte of the payload is read or written, a string is
copied to the name of the file with its end, and some bytes of the payload of a packet are to be
written to the file. -/
inductive Access
  | payload (i : ℕ)
  | filename (len : ℕ)
  | write (asked len : ℕ)
  deriving DecidableEq, Repr

def Access.Within : Access → Prop
  | .payload i => i < 1024
  | .filename len => len ≤ 32
  | .write asked len => asked ≤ len

instance : DecidablePred Access.Within
  | .payload i => inferInstanceAs (Decidable (i < 1024))
  | .filename len => inferInstanceAs (Decidable (len ≤ 32))
  | .write asked len => inferInstanceAs (Decidable (asked ≤ len))

/-- Characters from a place of the payload on are read, and the one behind them. -/
def readString (start len : ℕ) : List Access := (List.range' start (len + 1)).map .payload

section Strings

def unsigned : Bytes → Bytes
  | 0x2D :: s => s
  | 0x2B :: s => s
  | s => s

/-- What is left of a text where `atoi` stops. -/
def afterNumber (s : Bytes) : Bytes := (unsigned (s.dropWhile isSpace)).dropWhile Json.isDigit

theorem length_unsigned_le (s : Bytes) : (unsigned s).length ≤ s.length := by
  unfold unsigned
  split
  · exact Nat.le_succ _
  · exact Nat.le_succ _
  · exact le_rfl

theorem length_afterNumber_le (s : Bytes) : (afterNumber s).length ≤ s.length :=
  (List.dropWhile_sublist _).length_le.trans
    ((length_unsigned_le _).trans (List.dropWhile_sublist _).length_le)

end Strings

namespace State

variable (s : State) (c : UInt8)

/-- The name in packet 0. -/
def name : Bytes := cString (s.bytes 1024)


/-- `strcpy`, and `atoi` on what follows the name. -/
def copyName : List Access :=
  readString 0 s.name.length ++ .filename (s.name.length + 1) :: .payload (s.name.length + 1) ::
    if cString s.announcement = [] then []
    else readString (s.name.length + 1)
      (s.announcement.length - (afterNumber s.announcement).length)

/-- The accesses of `awaitFile`. -/
def fileAccesses : List Access := .payload 0 :: if s.name = [] then [] else s.copyName

/-- The accesses of `accept`. -/
def acceptAccesses : List Access :=
  if s.packetNum = 0 ∧ s.filename = [] then s.fileAccesses
  else if s.repeated then []
  else [.write s.count.trim.packetLen s.packetLen]

/-- The accesses of `checkCrc`. -/
def checkAccesses : List Access :=
  (List.range s.packetLen).map .payload ++
    if ccittCrc16 (s.bytes s.packetLen) = s.crc then s.acceptAccesses else []

/-- The state in which the checksum is compared. -/
def completeCrc : State := { s with process := .awaitSoh, crc := (s.crc <<< 8) ||| c.toUInt16 }

/-- The accesses of `processChar`. -/
def charAccesses : List Access :=
  match s.process with
  | .getPayload => [.payload s.idx]
  | .awaitCrc => if s.crcLsb then (s.completeCrc c).checkAccesses else []
  | _ => []

/-- The protocol handlers are attached by the first character of a packet. -/
def arrive (now : UInt32) : State :=
  if s.attached then s.putChar c
  else if c = ASCII_SOH ∨ c = ASCII_STX then { s.trapInitialSoh c now with inLoop := s.inLoop }
  else s

/-- `on_soft_reset`. -/
def onSoftReset : State :=
  if s.attached then (s.writeChars [ASCII_CAN, ASCII_CAN]).endTransfer false else s

end State

/-- What may happen: a character arrives, the protocol loop is called, it reads a character or finds
that there is none, and a soft reset. -/
inductive Event
  | arrive (c : UInt8) (now : UInt32)
  | enter (now : UInt32)
  | read (vfs : Vfs) (now : UInt32)
  | reset

namespace State

variable (s : State)

def exec : Event → Option State
  | .arrive c now => some (s.arrive c now)
  | .enter now => some (if s.attached ∧ s.inLoop = false then s.enter now else s)
  | .read vfs now => if s.inLoop then s.read vfs now else some s
  | .reset => some s.onSoftReset

/-- The accesses of an event. -/
def accesses : Event → List Access
  | .read _ _ => if s.inLoop then s.next?.elim [] s.charAccesses else []
  | _ => []

/-- The name fits in its field, and the number that follows it ends within the payload. -/
def FitsHeader : Prop :=
  s.name = [] ∨
    s.name.length < 32 ∧ (cString s.announcement = [] ∨ afterNumber s.announcement ≠ [])

/-- The announced length has not been passed. -/
def Due : Prop :=
  s.filelength = 0 ∨ s.received ≤ s.filelength ∨ 2 ^ 32 ≤ s.received + s.packetLen

/-- What a packet is to be like: that it opens the file, or that it holds data of the file. -/
def Fits : Prop :=
  if s.packetNum = 0 ∧ s.filename = [] then s.FitsHeader else s.repeated = false → s.Due

/-- A character that completes a packet completes one that fits. -/
def Meets : Event → Prop
  | .read _ _ => s.inLoop = true → ∀ c ∈ s.next?, s.process = .awaitCrc → s.crcLsb = true →
      ccittCrc16 (s.bytes s.packetLen) = (s.crc <<< 8) ||| c.toUInt16 → s.Fits
  | _ => True

def WithinBuffers (e : Event) : Prop := ∀ a ∈ s.accesses e, a.Within

instance (e : Event) : Decidable (s.WithinBuffers e) := List.decidableBAll _ _

end State

/-- The steps of the receiver. A run ends where a handler writes outside of a field or uses a file
that is not open. -/
def State.run (s : State) (e : Event) : Option (Unit × State) := (s.exec e).map fun s => ((), s)

theorem within_readString {start len : ℕ} :
    (∀ a ∈ readString start len, a.Within) ↔ start + len < 1024 := by
  simp only [readString, List.forall_mem_map, List.mem_range'_1, Access.Within]
  constructor
  · exact fun h => h (start + len) ⟨by omega, by omega⟩
  · rintro h i ⟨-, hi⟩
    omega

namespace State

variable {s : State} {c : UInt8}

theorem length_name_le (s : State) : s.name.length ≤ 1024 := by
  have h := (List.takeWhile_sublist (fun b : UInt8 => decide (b ≠ 0)) (l := s.bytes 1024)).length_le
  rwa [length_bytes] at h

theorem length_announcement (s : State) :
    s.announcement.length = 1024 - (s.name.length + 1) := by
  rw [announcement, List.length_drop, length_bytes, name]

theorem within_copyName :
    (∀ a ∈ s.copyName, a.Within) ↔
      s.name.length < 32 ∧ (cString s.announcement = [] ∨ afterNumber s.announcement ≠ []) := by
  have hname := s.length_name_le
  have hlength := s.length_announcement
  have hafter := length_afterNumber_le s.announcement
  have hpos : afterNumber s.announcement ≠ [] ↔ 0 < (afterNumber s.announcement).length :=
    List.length_pos_iff.symm
  rw [copyName, List.forall_mem_append, within_readString, List.forall_mem_cons,
    List.forall_mem_cons, hpos]
  by_cases hempty : cString s.announcement = []
  · simp only [hempty, if_true, Access.Within, List.not_mem_nil, true_or, and_true]
    constructor
    · omega
    · intro h
      exact ⟨by omega, by omega, by omega, fun _ h => h.elim⟩
  · rw [if_neg hempty, within_readString]
    simp only [hempty, Access.Within, false_or]
    omega

theorem within_fileAccesses : (∀ a ∈ s.fileAccesses, a.Within) ↔ s.FitsHeader := by
  have hzero : (Access.payload 0).Within := Nat.zero_lt_succ 1023
  rw [fileAccesses, List.forall_mem_cons, and_iff_right hzero, FitsHeader]
  by_cases hname : s.name = []
  · simp [hname]
  · rw [if_neg hname, within_copyName]
    simp [hname]

/-- What is asked to be written is a part of the packet exactly if the announced length has not been
passed. -/
theorem trim_le_iff (hlen : s.packetLen ≤ 1024) (hrec : s.received < 2 ^ 32)
    (hfile : s.filelength < 2 ^ 32) : s.count.trim.packetLen ≤ s.packetLen ↔ s.Due := by
  have hrec' : s.count.received = (s.received + s.packetLen) % 2 ^ 32 := rfl
  rw [Due, trim]
  split_ifs with h
  · change (s.packetLen + 2 ^ 32 - (s.count.received - s.filelength)) % 2 ^ 32 ≤ _ ↔ _
    obtain ⟨hne, hlt⟩ := h
    change s.filelength ≠ 0 at hne
    change s.filelength < s.count.received at hlt
    omega
  · change s.packetLen ≤ s.packetLen ↔ _
    have hne : ¬(s.filelength ≠ 0 ∧ s.filelength < s.count.received) := h
    omega

/-- A packet is being read. -/
def InPacket (s : State) : Prop :=
  s.process = .awaitPacketnum ∨ s.process = .getPayload ∨ s.process = .awaitCrc

/-- The invariant of the receiver: the place of the next byte is within the packet, and the counts
are those of 32 bits. -/
structure Fitted (s : State) : Prop where
  start : s.process = .awaitPacketnum → s.idx = 0
  index : s.process = .getPayload → s.idx < s.packetLen
  length : s.InPacket → s.packetLen = 128 ∨ s.packetLen = 1024
  received : s.received < 2 ^ 32
  filelength : s.filelength < 2 ^ 32

theorem Fitted.of_same (h : Fitted s) {s' : State} (hprocess : s'.process = s.process)
    (hidx : s'.idx = s.idx) (hlen : s'.packetLen = s.packetLen)
    (hreceived : s'.received = s.received) (hfile : s'.filelength = s.filelength) : Fitted s' := by
  constructor
  · rw [hprocess, hidx]
    exact h.start
  · rw [hprocess, hidx, hlen]
    exact h.index
  · rw [InPacket, hprocess, hlen]
    exact h.length
  · exact hreceived ▸ h.received
  · exact hfile ▸ h.filelength

theorem fitted_of_not_inPacket (h : ¬s.InPacket) (hreceived : s.received < 2 ^ 32)
    (hfile : s.filelength < 2 ^ 32) : Fitted s :=
  ⟨fun hp => absurd (.inl hp) h, fun hp => absurd (.inr (.inl hp)) h, fun hp => absurd hp h,
    hreceived, hfile⟩

theorem Fitted.setProcess (h : Fitted s) {p : Handler}
    (hp : ¬({ s with process := p } : State).InPacket) :
    Fitted { s with process := p } :=
  fitted_of_not_inPacket hp h.received h.filelength

theorem Fitted.endTransfer (h : Fitted s) (sendAck : Bool) : Fitted (s.endTransfer sendAck) := by
  cases sendAck <;> exact h.of_same rfl rfl rfl rfl rfl

theorem Fitted.awaitCancel (h : Fitted s) : Fitted (s.awaitCancel c).2 := by
  unfold State.awaitCancel
  split_ifs
  · exact h.endTransfer false
  · exact h.setProcess (by simp [InPacket])

theorem Fitted.awaitSoh (h : Fitted s) : Fitted (s.awaitSoh c).2 := by
  unfold State.awaitSoh
  split_ifs
  · refine ⟨fun _ => rfl, Handler.noConfusion, fun _ => ?_, h.received, h.filelength⟩
    change (if c = ASCII_SOH then 128 else 1024) = 128 ∨
      (if c = ASCII_SOH then 128 else 1024) = 1024
    split_ifs
    · exact .inl rfl
    · exact .inr rfl
  · exact h.endTransfer true
  · exact h.setProcess (by simp [InPacket])
  · exact h

theorem Fitted.firstNum (h : Fitted s) : Fitted (s.firstNum c).2 := by
  unfold State.firstNum
  split_ifs <;> exact h.of_same rfl rfl rfl rfl rfl

theorem Fitted.secondNum (h : Fitted s) (hprocess : s.process = .awaitPacketnum) :
    Fitted (s.secondNum c).2 := by
  have hlen := h.length (.inl hprocess)
  unfold State.secondNum
  generalize (if s.IsRepeated c then c + 1 else c) = d
  split_ifs
  · refine ⟨Handler.noConfusion, fun _ => ?_, fun _ => hlen, h.received, h.filelength⟩
    change s.idx < s.packetLen
    rw [h.start hprocess]
    omega
  · exact h.of_same rfl rfl rfl rfl rfl

theorem Fitted.awaitPacketnum (h : Fitted s) (hprocess : s.process = .awaitPacketnum) :
    Fitted (s.awaitPacketnum c).2 := by
  unfold State.awaitPacketnum
  split_ifs
  · exact h.secondNum hprocess
  · exact h.firstNum

theorem Fitted.savePayload (h : Fitted s) (hprocess : s.process = .getPayload) :
    Fitted (s.savePayload c) := by
  have hlen := h.length (.inr (.inl hprocess))
  have hidx := h.index hprocess
  refine ⟨?_, ?_, fun _ => hlen, h.received, h.filelength⟩
  · change (if s.idx + 1 = s.packetLen then Handler.awaitCrc else s.process) = _ → _
    rw [hprocess]
    split_ifs <;> intro hp <;> cases hp
  · change (if s.idx + 1 = s.packetLen then Handler.awaitCrc else s.process) = _ →
      s.idx + 1 < s.packetLen
    intro hp
    have hne : s.idx + 1 ≠ s.packetLen := by
      intro heq
      rw [if_pos heq] at hp
      exact Handler.noConfusion hp
    omega

theorem Fitted.awaitEot (h : Fitted s) : Fitted (s.awaitEot c).2 := by
  unfold State.awaitEot
  split_ifs
  · exact h.endTransfer true
  · exact h

theorem filelength_saveLength (h : s.filelength < 2 ^ 32) : s.saveLength.filelength < 2 ^ 32 := by
  have hmod : ∀ n : ℤ, (n % 2 ^ 32).toNat < 2 ^ 32 := by
    intro n
    omega
  unfold saveLength
  split_ifs
  · exact h
  · dsimp only
    exact hmod (atoi (cString s.announcement))

theorem saveLength_same (s : State) :
    s.saveLength.process = s.process ∧ s.saveLength.received = s.received := by
  unfold saveLength
  split_ifs <;> exact ⟨rfl, rfl⟩

theorem Fitted.saveLength (h : Fitted s) (hprocess : s.process = .awaitSoh) :
    Fitted s.saveLength := by
  obtain ⟨hsoh, hreceived⟩ := saveLength_same s
  apply fitted_of_not_inPacket
  · simp [InPacket, hsoh, hprocess]
  · rw [hreceived]
    exact h.received
  · exact filelength_saveLength h.filelength

theorem Fitted.openFile (h : Fitted s) (hprocess : s.process = .awaitSoh) (vfs : Vfs) :
    Fitted (s.openFile vfs).2 := by
  have hnamed : Fitted { s with filename := cString (s.bytes 1024) } :=
    h.of_same rfl rfl rfl rfl rfl
  have hsaved := hnamed.saveLength hprocess
  unfold State.openFile
  generalize ({ s with filename := cString (s.bytes 1024) } : State).saveLength = t at hsaved ⊢
  exact hsaved.of_same rfl rfl rfl rfl rfl

/-- Nothing that a packet does when it is complete begins another one. -/
theorem Fitted.accept (h : Fitted s) (hprocess : s.process = .awaitSoh) {vfs : Vfs}
    {r : Status × State} (hr : s.accept vfs = some r) : Fitted r.2 := by
  have hidle : ∀ {s' : State}, s'.process = .awaitSoh ∨ s'.process = .awaitEot → ¬s'.InPacket := by
    rintro s' (hp | hp) <;> simp [InPacket, hp]
  have hcount : s.count.trim.received < 2 ^ 32 ∧ s.count.trim.filelength = s.filelength ∧
      s.count.trim.process = s.process := by
    have hmod : (s.received + s.packetLen) % 2 ^ 32 < 2 ^ 32 := Nat.mod_lt _ (by decide)
    unfold trim
    split_ifs <;> exact ⟨hmod, rfl, rfl⟩
  obtain ⟨hreceived, hfile, hsoh⟩ := hcount
  rw [hprocess] at hsoh
  have hlen : s.count.trim.filelength < 2 ^ 32 := hfile ▸ h.filelength
  unfold State.accept awaitFile writePayload at hr
  split_ifs at hr <;> obtain rfl := Option.some.inj hr
  · exact h.of_same rfl rfl rfl rfl rfl
  · exact h.openFile hprocess vfs
  · exact h
  · exact fitted_of_not_inPacket (hidle (.inr rfl)) hreceived hlen
  · exact fitted_of_not_inPacket (hidle (.inl hsoh)) hreceived hlen
  · exact fitted_of_not_inPacket (hidle (.inl hsoh)) hreceived hlen

theorem Fitted.awaitCrc (h : Fitted s) {vfs : Vfs} {r : Status × State}
    (hr : s.awaitCrc vfs c = some r) : Fitted r.2 := by
  have hsoh : Fitted (s.completeCrc c) :=
    fitted_of_not_inPacket (by simp [InPacket, completeCrc]) h.received h.filelength
  unfold State.awaitCrc checkCrc at hr
  split_ifs at hr
  · exact hsoh.accept rfl hr
  · obtain rfl := Option.some.inj hr
    exact hsoh
  · obtain rfl := Option.some.inj hr
    exact h.of_same rfl rfl rfl rfl rfl

theorem Fitted.processChar (h : Fitted s) {vfs : Vfs} {r : Status × State}
    (hr : s.processChar vfs c = some r) : Fitted r.2 := by
  unfold State.processChar at hr
  cases hprocess : s.process <;> simp only [hprocess] at hr
  case awaitCrc => exact h.awaitCrc hr
  case getPayload =>
    unfold State.getPayload at hr
    split_ifs at hr
    obtain rfl := Option.some.inj hr
    exact h.savePayload hprocess
  all_goals obtain rfl := Option.some.inj hr
  · exact h.awaitCancel
  · exact h
  · exact h.awaitSoh
  · exact h.awaitPacketnum hprocess
  · exact h.awaitEot

theorem Fitted.answer (h : Fitted s) (st : Status) : Fitted (s.answer st) := by
  cases st
  case Purge => exact h.setProcess (p := .purge) (by simp [InPacket]) |>.of_same rfl rfl rfl rfl rfl
  all_goals exact h.of_same rfl rfl rfl rfl rfl

theorem Fitted.read (h : Fitted s) {vfs : Vfs} {now : UInt32} {s' : State}
    (hr : s.read vfs now = some s') : Fitted s' := by
  unfold State.read turn at hr
  split_ifs at hr
  · obtain rfl := Option.some.inj hr
    exact h.of_same rfl rfl rfl rfl rfl
  · obtain ⟨r, hchar, rfl⟩ := Option.map_eq_some_iff.mp hr
    have hturn : Fitted { s with rxBuffer := s.rxBuffer.drop, nextTimeout := now + 1000 } :=
      h.of_same rfl rfl rfl rfl rfl
    exact ((hturn.processChar hchar).answer r.1).of_same rfl rfl rfl rfl rfl

theorem Fitted.putChar (h : Fitted s) : Fitted (s.putChar c) := by
  unfold State.putChar
  split_ifs
  · exact h
  · exact h.of_same rfl rfl rfl rfl rfl

theorem Fitted.arrive (h : Fitted s) (now : UInt32) : Fitted (s.arrive c now) := by
  unfold State.arrive
  split_ifs
  · exact h.putChar
  · refine Fitted.of_same (s := s.trapInitialSoh c now) ?_ rfl rfl rfl rfl rfl
    refine Fitted.putChar (fitted_of_not_inPacket (by simp [InPacket]) ?_ ?_)
    · exact Nat.two_pow_pos 32
    · exact Nat.two_pow_pos 32
  · exact h

theorem Fitted.enter (h : Fitted s) (now : UInt32) : Fitted (s.enter now) := by
  have htimeout : Fitted (s.timeout now) := by
    unfold State.timeout
    split_ifs
    · exact h.of_same rfl rfl rfl rfl rfl
    · exact (h.setProcess (p := .awaitSoh) (by simp [InPacket])).of_same rfl rfl rfl rfl rfl
  unfold State.enter
  split_ifs
  · exact htimeout.of_same rfl rfl rfl rfl rfl
  · exact h.of_same rfl rfl rfl rfl rfl

theorem Fitted.onSoftReset (h : Fitted s) : Fitted s.onSoftReset := by
  unfold State.onSoftReset
  split_ifs
  · exact h.of_same rfl rfl rfl rfl rfl
  · exact h

theorem Fitted.exec (h : Fitted s) {e : Event} {s' : State} (he : s.exec e = some s') :
    Fitted s' := by
  cases e with
  | arrive c now =>
    obtain rfl := Option.some.inj he
    exact h.arrive now
  | enter now =>
    obtain rfl := Option.some.inj he
    split_ifs
    · exact h.enter now
    · exact h
  | read vfs now =>
    unfold State.exec at he
    dsimp only at he
    split_ifs at he
    · exact h.read he
    · obtain rfl := Option.some.inj he
      exact h
  | reset =>
    obtain rfl := Option.some.inj he
    exact h.onSoftReset

theorem within_acceptAccesses (hlen : s.packetLen ≤ 1024) (hreceived : s.received < 2 ^ 32)
    (hfile : s.filelength < 2 ^ 32) : (∀ a ∈ s.acceptAccesses, a.Within) ↔ s.Fits := by
  unfold acceptAccesses Fits
  split_ifs with hopen hrep
  · exact within_fileAccesses
  · simp [hrep]
  · rw [List.forall_mem_singleton, Access.Within, trim_le_iff hlen hreceived hfile]
    simp [hrep]

theorem within_checkAccesses (hlen : s.packetLen ≤ 1024) (hreceived : s.received < 2 ^ 32)
    (hfile : s.filelength < 2 ^ 32) :
    (∀ a ∈ s.checkAccesses, a.Within) ↔ (ccittCrc16 (s.bytes s.packetLen) = s.crc → s.Fits) := by
  have hpayload : ∀ a ∈ (List.range s.packetLen).map Access.payload, a.Within := by
    intro a ha
    obtain ⟨i, hi, rfl⟩ := List.mem_map.mp ha
    exact (List.mem_range.mp hi).trans_le hlen
  rw [checkAccesses, List.forall_mem_append, and_iff_right hpayload]
  split_ifs with hcrc
  · simp [within_acceptAccesses hlen hreceived hfile, hcrc]
  · simp [hcrc]

theorem Fitted.length_le (h : Fitted s) (hprocess : s.process = .awaitCrc) :
    s.packetLen ≤ 1024 := by
  rcases h.length (.inr (.inr hprocess)) with hlen | hlen <;> omega

theorem Fitted.within_charAccesses (h : Fitted s) (c : UInt8) :
    (∀ a ∈ s.charAccesses c, a.Within) ↔
      (s.process = .awaitCrc → s.crcLsb = true →
        ccittCrc16 (s.bytes s.packetLen) = (s.crc <<< 8) ||| c.toUInt16 → s.Fits) := by
  unfold charAccesses
  cases hprocess : s.process <;> dsimp only
  case getPayload =>
    have hlen := h.length (.inr (.inl hprocess))
    have hidx := h.index hprocess
    have hwithin : (Access.payload s.idx).Within := by
      change s.idx < 1024
      omega
    simp [hwithin]
  case awaitCrc =>
    have hcheck : (∀ a ∈ (s.completeCrc c).checkAccesses, a.Within) ↔
        (ccittCrc16 (s.bytes s.packetLen) = (s.crc <<< 8) ||| c.toUInt16 → s.Fits) :=
      within_checkAccesses (s := s.completeCrc c) (h.length_le hprocess) h.received h.filelength
    split_ifs with hlsb
    · simp [hcheck, hlsb]
    · simp [hlsb]
  all_goals simp

/-- One step keeps within the buffers exactly if a packet that it completes fits. -/
theorem Fitted.meets_iff (h : Fitted s) (e : Event) : s.WithinBuffers e ↔ s.Meets e := by
  cases e with
  | read vfs now =>
    unfold WithinBuffers accesses Meets
    by_cases hloop : s.inLoop = true
    · dsimp only
      rw [if_pos hloop]
      cases hnext : s.next? with
      | none => simp
      | some c =>
        rw [Option.elim_some, h.within_charAccesses c]
        simp [hloop]
    · simp [hloop]
  | _ => simp [WithinBuffers, accesses, Meets]

theorem isSome_accept (hfits : s.Fits) (hlen : s.packetLen ≤ 1024) (hreceived : s.received < 2 ^ 32)
    (hfile : s.filelength < 2 ^ 32) (hopen : s.handle = true) (vfs : Vfs) :
    (s.accept vfs).isSome := by
  unfold accept Fits at *
  split_ifs at hfits ⊢ with hfirst hrep
  · unfold awaitFile
    split_ifs with hname hlt
    · rfl
    · rfl
    · rcases hfits with hnil | hfits
      · exact absurd hnil hname
      · exact absurd hfits.1 hlt
  · rfl
  · have hdue := (trim_le_iff hlen hreceived hfile).mpr (hfits (eq_false_of_ne_true hrep))
    have hhandle : s.count.trim.handle = true := by
      unfold trim
      split_ifs <;> exact hopen
    unfold writePayload
    rw [if_pos ⟨hhandle, hdue.trans hlen⟩]
    split_ifs <;> rfl

/-- A handler that keeps within the buffers has a result if the file is open. -/
theorem Fitted.isSome_processChar (h : Fitted s) (hopen : s.handle = true)
    (hwithin : ∀ a ∈ s.charAccesses c, a.Within) (vfs : Vfs) : (s.processChar vfs c).isSome := by
  unfold State.processChar
  cases hprocess : s.process <;> dsimp only
  case getPayload =>
    have hidx : s.idx < 1024 := hwithin (.payload s.idx) (by simp [charAccesses, hprocess])
    rw [State.getPayload, if_pos hidx]
    rfl
  case awaitCrc =>
    have hfits := (h.within_charAccesses c).mp hwithin hprocess
    unfold State.awaitCrc checkCrc
    split_ifs with hlsb hcrc
    · exact isSome_accept (s := s.completeCrc c) (hfits hlsb hcrc) (h.length_le hprocess)
        h.received h.filelength hopen vfs
    · rfl
    · rfl
  all_goals rfl

end State

section Runs

theorem fitted_idle : State.Fitted idle :=
  State.fitted_of_not_inPacket (by simp [State.InPacket, idle]) (Nat.two_pow_pos 32)
    (Nat.two_pow_pos 32)

/-- A run keeps within the buffers exactly if the packets that it completes fit. -/
theorem withinBuffers_iff (events : List Event) :
    Transition.Guarded State.run State.WithinBuffers idle events ↔
      Transition.Guarded State.run State.Meets idle events := by
  apply Transition.guarded_congr (I := State.Fitted)
  · intro s e o s' h he
    obtain ⟨t, ht, heq⟩ := Option.map_eq_some_iff.mp he
    cases heq
    exact h.exec ht
  · intro s e h
    exact h.meets_iff e
  · exact fitted_idle

/-- The characters of a packet arrive one by one, each in time. -/
def delivery (p : Bytes) : List Event :=
  p.flatMap fun c => [.arrive c 0, .enter 0, .read spacious 0, .read spacious 0]

/-- A header with a name of 128 characters. -/
def longName : Block := ⟨List.replicate 128 0x61, .inl rfl⟩

/-- A header with a name and a length of one byte. -/
def oneByte : Block := ⟨0x61 :: 0x00 :: 0x31 :: List.replicate 125 0x00, .inl rfl⟩

/-- The packets of a file of one byte, and another one after the sender has been told that nothing
was received in time. -/
def lateData : List Event :=
  delivery (oneByte.packet 0 ++ longName.packet 1) ++ .enter 2000 :: delivery (longName.packet 2)

set_option maxRecDepth 100000 in
theorem not_withinBuffers :
    ¬Transition.Guarded State.run State.WithinBuffers idle (delivery (longName.packet 0)) ∧
    ¬Transition.Guarded State.run State.WithinBuffers idle lateData := by
  decide +kernel

end Runs

end Ymodem

end Inspector
