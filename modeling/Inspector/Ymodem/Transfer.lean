import Inspector.Transition.Run
import Inspector.Ymodem.Packets

/-! # Transfers over a bad line

The sender sends a header and the blocks of a file, each until it hears an acknowledgement of it;
what arrives may be damaged, cut short or late, and acknowledgements may be lost.
-/

namespace Inspector

namespace Ymodem

/-- The length of a file in its header, in digits, and what follows it there. -/
structure Announced where
  length : ℕ
  info : Bytes
  info_head : ∀ b ∈ info.head?, Json.isDigit b = false
  info_ne_zero : (0 : UInt8) ∉ info

def Announced.field (a : Announced) : Bytes := Json.decimal a.length ++ a.info

/-- What the sender has: a header with the name of a file and perhaps its length, and the blocks of
the file. -/
structure Transfer where
  name : Bytes
  announced : Option Announced
  header : Block
  blocks : List Block
  name_ne_nil : name ≠ []
  name_ne_zero : (0 : UInt8) ∉ name
  header_eq : ∃ pad, header.bytes = name ++ 0 :: (announced.elim [] Announced.field ++ 0 :: pad)

namespace Transfer

variable (T : Transfer)

/-- The data of a packet; packet 0 is the header. -/
def block? : ℕ → Option Block
  | 0 => some T.header
  | k + 1 => T.blocks[k]?

/-- The payloads of the packets from 1 on, in order. -/
def data (k : ℕ) : Bytes := (T.blocks.take k).flatMap Block.bytes

/-- Data is cut at the announced length. -/
def cut (data : Bytes) : Bytes := T.announced.elim data fun a => data.take a.length

/-- What the file is to hold after the packets from 1 on. -/
def content (k : ℕ) : Bytes := T.cut (T.data k)

def filelength : ℕ := T.announced.elim 0 Announced.length

/-- What the receiver keeps when it has taken a number of packets, the header included. -/
def ledger : ℕ → State.Ledger
  | 0 => ⟨false, [], [], 0, 0, 0⟩
  | k + 1 =>
    ⟨true, T.content k, T.name, T.filelength, (T.data k).length % 2 ^ 32, UInt8.ofNat (k + 1)⟩

/-- The name fits in its field, and no packet is sent once the length that is announced, which is
not zero then, has been passed. -/
structure Fits : Prop where
  name : T.name.length < 32
  length : ∀ a ∈ T.announced, a.length < 2 ^ 31
  needed : ∀ a ∈ T.announced, ∀ k < T.blocks.length, (T.data k).length ≤ a.length ∧ 0 < a.length

end Transfer

section Header

theorem cString_append {s rest : Bytes} (hs : (0 : UInt8) ∉ s) : cString (s ++ 0 :: rest) = s := by
  rw [cString, List.takeWhile_append_of_pos, List.takeWhile_cons_of_neg (by decide), List.append_nil]
  intro b hb
  exact decide_eq_true fun hzero => hs (hzero ▸ hb)

theorem not_isSpace_of_isDigit {b : UInt8} (h : Json.isDigit b = true) : isSpace b = false := by
  simp only [Json.isDigit, Bool.decide_and, Bool.and_eq_true, decide_eq_true_eq, UInt8.le_iff_toNat_le]
    at h
  simp only [isSpace, decide_eq_false_iff_not, UInt8.le_iff_toNat_le, ← UInt8.toNat_inj]
  have h30 : (0x30 : UInt8).toNat = 48 := rfl
  have h20 : (0x20 : UInt8).toNat = 32 := rfl
  have h0D : (0x0D : UInt8).toNat = 13 := rfl
  omega

theorem digits_field (a : Announced) : digits a.field = a.length := by
  have htake : a.field.takeWhile Json.isDigit = Json.decimal a.length := by
    rw [Announced.field, List.takeWhile_append_of_pos fun b hb => Json.isDigit_of_mem_decimal hb]
    cases hinfo : a.info with
    | nil => exact List.append_nil _
    | cons b info =>
      have hb := a.info_head b (by rw [hinfo]; rfl)
      rw [List.takeWhile_cons_of_neg (by rw [hb]; exact Bool.false_ne_true), List.append_nil]
  rw [digits, htake, Json.ofDigits_decimal]

theorem atoi_field (a : Announced) : atoi a.field = a.length := by
  obtain ⟨b, l, hbl⟩ := List.exists_cons_of_ne_nil (Json.decimal_ne_nil a.length)
  have hb : Json.isDigit b = true := Json.isDigit_of_mem_decimal (by rw [hbl]; exact List.mem_cons_self)
  have hfield : a.field = b :: (l ++ a.info) := by rw [Announced.field, hbl]; rfl
  have hsigned : signed a.field = (digits a.field : ℤ) := by
    rw [hfield, signed.eq_def]
    split
    · rename_i h
      cases h
      exact absurd hb (by decide)
    · rename_i h
      cases h
      exact absurd hb (by decide)
    · rfl
  rw [atoi, hfield,
    List.dropWhile_cons_of_neg (by rw [not_isSpace_of_isDigit hb]; exact Bool.false_ne_true), ← hfield,
    hsigned, digits_field]

theorem field_ne_nil (a : Announced) : a.field ≠ [] := fun h =>
  Json.decimal_ne_nil a.length (List.append_eq_nil_iff.mp h).1

theorem zero_not_mem_field (a : Announced) : (0 : UInt8) ∉ a.field := by
  intro h
  rcases List.mem_append.mp h with h | h
  · exact absurd (Json.isDigit_of_mem_decimal h) (by decide)
  · exact a.info_ne_zero h

end Header

section Accept

variable {T : Transfer} {s : State} {b : Block} {k : ℕ}

theorem Transfer.content_zero (T : Transfer) : T.content 0 = [] := by
  rw [Transfer.content, Transfer.cut]
  cases T.announced with
  | none => rfl
  | some a => exact List.take_nil

theorem Transfer.data_succ (h : T.blocks[k]? = some b) : T.data (k + 1) = T.data k ++ b.bytes := by
  simp [Transfer.data, List.take_add_one, h]

theorem Block.length_le (b : Block) : b.bytes.length ≤ 1024 := by
  rcases b.length_eq with h | h <;> omega

/-- The name and the length in the header are found again. -/
theorem State.header_eq (h : s.bytes s.packetLen = T.header.bytes) :
    cString (s.bytes 1024) = T.name ∧
      cString s.announcement = T.announced.elim [] Announced.field := by
  have hle : s.packetLen ≤ 1024 := by
    rw [← s.length_bytes s.packetLen, h]
    exact T.header.length_le
  obtain ⟨rest, hrest⟩ : T.header.bytes <+: s.bytes 1024 := by
    rw [← h, s.bytes_eq_take hle]
    exact List.take_prefix _ _
  obtain ⟨pad, hpad⟩ := T.header_eq
  have hall : s.bytes 1024 =
      T.name ++ 0 :: (T.announced.elim [] Announced.field ++ 0 :: (pad ++ rest)) := by
    rw [← hrest, hpad]
    simp
  have hname : cString (s.bytes 1024) = T.name := by
    rw [hall]
    exact cString_append T.name_ne_zero
  refine ⟨hname, ?_⟩
  have hdrop : s.announcement = T.announced.elim [] Announced.field ++ 0 :: (pad ++ rest) := by
    rw [State.announcement, hname, hall, List.drop_length_add_append]
    rfl
  rw [hdrop]
  apply cString_append
  cases T.announced with
  | none => exact List.not_mem_nil
  | some a => exact zero_not_mem_field a

theorem State.saveLength_eq (hT : T.Fits) (h : s.bytes s.packetLen = T.header.bytes)
    (hzero : s.filelength = 0) : s.saveLength = { s with filelength := T.filelength } := by
  obtain ⟨-, hfield⟩ := State.header_eq h
  rw [State.saveLength, hfield, Transfer.filelength]
  cases hann : T.announced with
  | none =>
    rw [Option.elim_none, if_pos rfl, Option.elim_none, ← hzero]
  | some a =>
    rw [Option.elim_some, if_neg (field_ne_nil a), Option.elim_some, atoi_field]
    have hlt := hT.length a hann
    have hvalue : ((a.length : ℤ) % 2 ^ 32).toNat = a.length := by omega
    rw [hvalue]

/-- What becomes of a packet that is taken: it is acknowledged, or the file system fails. -/
inductive Taken (T : Transfer) (k : ℕ) (s : State) (vfs : Vfs) : Option (Status × State) → Prop
  | acknowledged (st : Status) (s' : State) (hst : st = .ACK ∨ st = .ACKFile)
      (hledger : s'.ledger = T.ledger (k + 1)) (hattached : s'.attached = s.attached)
      (hsent : s'.sent = s.sent) (hreads : s'.Reads []) : Taken T k s vfs (some (st, s'))
  | failed (s' : State) (hlower : T.content (k - 1) <+: s'.file) (hupper : s'.file <+: T.content k)
      (hreads : s'.Reads []) (hvfs : ¬(vfs.opens = true ∧ 1024 ≤ vfs.room)) :
      Taken T k s vfs (some (.CAN, s'))

theorem taken_header (hT : T.Fits) (hledger : s.ledger = T.ledger 0)
    (hbytes : s.bytes s.packetLen = T.header.bytes) (hproc : s.process = .awaitSoh) (vfs : Vfs) :
    Taken T 0 s vfs (s.accept vfs) := by
  simp only [State.ledger, Transfer.ledger, State.Ledger.mk.injEq] at hledger
  obtain ⟨-, hfile, hfilename, hlength, hreceived, hnum⟩ := hledger
  obtain ⟨hname, -⟩ := State.header_eq hbytes
  have hsave := State.saveLength_eq (s := { s with filename := T.name }) hT hbytes hlength
  have haccept : s.accept vfs = some (s.openFile vfs) := by
    rw [State.accept, if_pos ⟨hnum, hfilename⟩, State.awaitFile, hname, if_neg T.name_ne_nil,
      if_pos hT.name]
  rw [haccept, State.openFile, hname, hsave]
  cases hopens : vfs.opens with
  | true =>
    refine .acknowledged _ _ (.inr rfl) ?_ rfl rfl ?_
    · simp [State.ledger, Transfer.ledger, hnum, hreceived, T.content_zero]
      rfl
    · simp [State.Reads, hproc]
  | false =>
    refine .failed _ ?_ ?_ ?_ (by simp [hopens])
    · simp [hfile, T.content_zero]
    · simp [hfile]
    · simp [State.Reads, hproc]

/-- The length of the packet is trimmed so that the file is cut at the announced length. -/
theorem trim_spec (hT : T.Fits) (hk : T.blocks[k]? = some b) (hfile : s.file = T.content k)
    (hlength : s.filelength = T.filelength)
    (hreceived : s.received = (T.data (k + 1)).length % 2 ^ 32)
    (hbytes : s.bytes s.packetLen = b.bytes) :
    s.trim.packetLen ≤ s.packetLen ∧
      s.file ++ s.trim.bytes s.trim.packetLen = T.content (k + 1) := by
  have hlen : s.packetLen = b.bytes.length := by rw [← hbytes, s.length_bytes]
  have hdata := T.data_succ hk
  have hlt : k < T.blocks.length := (List.getElem?_eq_some_iff.mp hk).1
  have hb := b.length_le
  rw [Transfer.content, Transfer.cut, hdata]
  rw [Transfer.content, Transfer.cut] at hfile
  rw [hdata, List.length_append] at hreceived
  rw [Transfer.filelength] at hlength
  cases hann : T.announced with
  | none =>
    simp only [hann, Option.elim_none] at hlength hfile ⊢
    have htrim : s.trim = { s with completed := false } := if_neg fun h => h.1 hlength
    rw [htrim, hfile]
    exact ⟨le_rfl, congrArg _ hbytes⟩
  | some a =>
    simp only [hann, Option.elim_some] at hlength hfile ⊢
    obtain ⟨hle, hpos⟩ := hT.needed a hann k hlt
    have hlimit := hT.length a hann
    rw [Nat.mod_eq_of_lt (by omega)] at hreceived
    rw [List.take_of_length_le hle] at hfile
    rw [List.take_append, List.take_of_length_le hle, hfile, List.append_right_inj]
    by_cases hlast : s.filelength ≠ 0 ∧ s.filelength < s.received
    · have htrim : s.trim = { s with
          completed := true
          packetLen := (s.packetLen + 2 ^ 32 - (s.received - s.filelength)) % 2 ^ 32 } := if_pos hlast
      have hrest : (s.packetLen + 2 ^ 32 - (s.received - s.filelength)) % 2 ^ 32 =
          a.length - (T.data k).length := by
        have := hlast.2
        omega
      rw [htrim]
      dsimp only
      have hshort : a.length - (T.data k).length ≤ s.packetLen := by
        have := hlast.2
        omega
      rw [hrest]
      refine ⟨hshort, ?_⟩
      change s.bytes _ = _
      rw [s.bytes_eq_take hshort, hbytes]
    · have htrim : s.trim = { s with completed := false } := if_neg hlast
      rw [htrim]
      refine ⟨le_rfl, hbytes.trans (List.take_of_length_le ?_).symm⟩
      by_contra hlong
      apply hlast
      constructor <;> omega

theorem State.trim_same (s : State) :
    s.trim.ledger = s.ledger ∧ s.trim.attached = s.attached ∧ s.trim.sent = s.sent ∧
      s.trim.process = s.process := by
  rw [State.trim]
  split_ifs <;> simp [State.ledger]

theorem taken_block (hT : T.Fits) (hledger : s.ledger = T.ledger (k + 1))
    (hk : T.blocks[k]? = some b) (hbytes : s.bytes s.packetLen = b.bytes)
    (hrep : s.repeated = false) (hproc : s.process = .awaitSoh) (vfs : Vfs) :
    Taken T (k + 1) s vfs (s.accept vfs) := by
  simp only [State.ledger, Transfer.ledger, State.Ledger.mk.injEq] at hledger
  obtain ⟨hhandle, hfile, hfilename, hlength, hreceived, hnum⟩ := hledger
  have hlen : s.packetLen = b.bytes.length := by rw [← hbytes, s.length_bytes]
  have haccept : s.accept vfs = s.count.trim.writePayload vfs := by
    rw [State.accept, if_neg fun h => T.name_ne_nil (hfilename.symm.trans h.2), hrep,
      if_neg Bool.false_ne_true]
  have hcount : s.count.received = (T.data (k + 1)).length % 2 ^ 32 := by
    rw [T.data_succ hk, List.length_append, ← hlen]
    change (s.received + s.packetLen) % 2 ^ 32 = _
    rw [hreceived, Nat.mod_add_mod]
  obtain ⟨hle, hwritten⟩ := trim_spec (s := s.count) hT hk hfile hlength hcount hbytes
  obtain ⟨hledger₁, hattached₁, hsent₁, hproc₁⟩ := s.count.trim_same
  generalize s.count.trim = s₁ at haccept hle hwritten hledger₁ hattached₁ hsent₁ hproc₁
  simp only [State.ledger, State.Ledger.mk.injEq] at hledger₁
  obtain ⟨hhandle₁, hfile₁, hfilename₁, hlength₁, hreceived₁, hnum₁⟩ := hledger₁
  have hle₁ : s₁.packetLen ≤ 1024 := hle.trans (hlen.le.trans b.length_le)
  rw [haccept, State.writePayload, if_pos ⟨hhandle₁.trans hhandle, hle₁⟩]
  have hname : s.count.filename = T.name := hfilename
  have hlength' : s.count.filelength = T.filelength := hlength
  have hnum' : s.count.packetNum = UInt8.ofNat (k + 1 + 1) := by
    change s.packetNum + 1 = _
    rw [hnum]
    simp
  have hledger : ∀ s' : State, s'.handle = s₁.handle → s'.file = s₁.file ++ s₁.bytes s₁.packetLen →
      s'.filename = s₁.filename → s'.filelength = s₁.filelength → s'.received = s₁.received →
      s'.packetNum = s₁.packetNum → s'.ledger = T.ledger (k + 1 + 1) := by
    intro s' h₁ h₂ h₃ h₄ h₅ h₆
    simp only [State.ledger, Transfer.ledger, State.Ledger.mk.injEq]
    exact ⟨h₁.trans (hhandle₁.trans hhandle), h₂.trans (hfile₁ ▸ hwritten),
      h₃.trans (hfilename₁.trans hname), h₄.trans (hlength₁.trans hlength'),
      h₅.trans (hreceived₁.trans hcount), h₆.trans (hnum₁.trans hnum')⟩
  have hwrite : s₁.packetLen ≤ vfs.room →
      (s₁.vfsWrite vfs).file = s₁.file ++ s₁.bytes s₁.packetLen := by
    intro hroom
    rw [State.vfsWrite, List.take_of_length_le (by rw [s₁.length_bytes]; exact hroom)]
  have hprocess : s₁.process = .awaitSoh := hproc₁.trans hproc
  split_ifs with hroom hcompleted
  · refine .acknowledged _ _ (.inl rfl) (hledger _ rfl (hwrite hroom) rfl rfl rfl rfl) hattached₁
      hsent₁ ?_
    simp [State.Reads]
  · refine .acknowledged _ _ (.inl rfl) (hledger _ rfl (hwrite hroom) rfl rfl rfl rfl) hattached₁
      hsent₁ ?_
    simp [State.Reads, State.vfsWrite, hprocess]
  · refine .failed _ ?_ ?_ ?_ fun h => hroom (hle₁.trans h.2)
    · rw [Nat.add_sub_cancel, ← hfile]
      change s.count.file <+: s₁.file ++ _
      rw [hfile₁]
      exact List.prefix_append _ _
    · rw [← hwritten, ← hfile₁]
      exact (List.prefix_append_right_inj _).mpr (List.take_prefix _ _)
    · simp [State.Reads, State.vfsWrite, hprocess]

theorem taken (hT : T.Fits) (hledger : s.ledger = T.ledger k) (hk : T.block? k = some b)
    (hbytes : s.bytes s.packetLen = b.bytes) (hrep : s.repeated = false)
    (hproc : s.process = .awaitSoh) (vfs : Vfs) : Taken T k s vfs (s.accept vfs) := by
  cases k with
  | zero =>
    obtain rfl : T.header = b := Option.some.inj hk
    exact taken_header hT hledger hbytes hproc vfs
  | succ k => exact taken_block hT hledger hk hbytes hrep hproc vfs

end Accept

/-- A transfer with its sender: the packet that it sends, whether an acknowledgement is on its way
to it, and the characters that the receiver has read. -/
structure Session where
  receiver : State
  index : ℕ := 0
  ack : Bool := false
  stream : Bytes := []

/-- What may happen: a character arrives, the protocol loop is called, it reads a character or finds
that there is none, and the sender hears an acknowledgement, or it is lost. -/
inductive Op
  | put (c : UInt8)
  | enter (now : UInt32)
  | read (vfs : Vfs) (now : UInt32)
  | hear
  | lose

/-- The next character in the receive buffer. -/
def State.next? (s : State) : Option UInt8 :=
  if s.rxBuffer.tail = s.rxBuffer.head then none else some (s.rxBuffer.data s.rxBuffer.tail)

namespace Session

variable (x : Session)

def put (c : UInt8) : Session :=
  if x.receiver.attached then { x with receiver := x.receiver.putChar c } else x

def enter (now : UInt32) : Session :=
  if x.receiver.attached ∧ x.receiver.inLoop = false then { x with receiver := x.receiver.enter now }
  else x

def read (vfs : Vfs) (now : UInt32) : Option Session :=
  if x.receiver.inLoop then
    (x.receiver.read vfs now).map fun s =>
      { x with
        receiver := s
        ack := x.ack || decide (ASCII_ACK ∈ s.sent.drop x.receiver.sent.length)
        stream := x.stream ++ x.receiver.next?.toList }
  else some x

/-- The sender goes on to the next packet. -/
def hear : Session := if x.ack then { x with index := x.index + 1, ack := false } else x

/-- No packet arrives that the sender has not sent, which may be one that it has sent before. -/
def Honest (T : Transfer) (c : UInt8) : Prop :=
  ∀ (b : Block) (a : UInt8), b.packet a <:+ x.stream ++ [c] →
    ∃ j ≤ x.index, x.index < j + 255 ∧ a = UInt8.ofNat j ∧ T.block? j = some b

/-- No frame arrives with a number that is one too high before the complement of the expected one,
and when the receiver gives up, the character it still reads is not the last one of a packet. -/
def Sound (c : UInt8) : Prop :=
  (∀ (b : Block) (a : UInt8), x.receiver.IsRepeated a →
    ¬b.frame a (x.receiver.packetNum ^^^ 0xFF) <:+ x.stream ++ [c]) ∧
  (x.receiver.attached = false → x.receiver.process = .awaitCrc → x.receiver.crcLsb = false)

end Session

def exec (o : Option Session) : Op → Option Session
  | .put c => o.map fun x => x.put c
  | .enter now => o.map fun x => x.enter now
  | .read vfs now => o.bind fun x => x.read vfs now
  | .hear => o.map Session.hear
  | .lose => o.map fun x => { x with ack := false }

/-- The condition on a step. -/
def Permitted (T : Transfer) (o : Option Session) : Op → Prop
  | .read _ _ => ∀ x ∈ o, x.receiver.inLoop = true →
      ∀ c ∈ x.receiver.next?, x.Honest T c ∧ x.Sound c
  | _ => True

/-- The file holds the packets from 1 on, once each and cut at the announced length; when the file
system has failed, it may hold a part of the next one. -/
def Stored (T : Transfer) (k : ℕ) (s : State) : Prop :=
  s.file = T.content (k - 1) ∨
    s.attached = false ∧ T.content (k - 1) <+: s.file ∧ s.file <+: T.content k

/-- The invariant, when `k` packets have been taken. -/
structure Good (T : Transfer) (k : ℕ) (x : Session) : Prop where
  stored : Stored T k x.receiver
  ledger : x.receiver.attached = true → x.receiver.ledger = T.ledger k
  index : x.receiver.attached = true → x.index = k ∨ x.index + 1 = k
  ack : x.receiver.attached = true → x.ack = true → x.index + 1 = k
  reads : ∃ l, l <:+ x.stream ∧ x.receiver.Reads l

section Run

variable {T : Transfer} {x : Session} {k : ℕ}

theorem Good.put (h : Good T k x) (c : UInt8) : Good T k (x.put c) := by
  rw [Session.put, State.putChar]
  split_ifs
  · exact h
  · exact ⟨h.stored, h.ledger, h.index, h.ack, h.reads⟩
  · exact h

theorem Good.hear (h : Good T k x) : Good T k x.hear := by
  rw [Session.hear]
  split_ifs with hack
  · exact ⟨h.stored, h.ledger, fun hatt => .inl (h.ack hatt hack), nofun, h.reads⟩
  · exact h

theorem Good.lose (h : Good T k x) : Good T k { x with ack := false } :=
  ⟨h.stored, h.ledger, h.index, nofun, h.reads⟩

theorem Good.enter (h : Good T k x) (now : UInt32) : Good T k (x.enter now) := by
  obtain ⟨l, hl, hreads⟩ := h.reads
  rw [Session.enter, State.enter]
  split_ifs with hatt hlate
  · rw [State.timeout]
    split_ifs
    · refine ⟨?_, nofun, nofun, nofun, l, hl, hreads⟩
      rcases h.stored with hfile | ⟨-, hparts⟩
      · exact .inl hfile
      · exact .inr ⟨rfl, hparts⟩
    · exact ⟨h.stored, h.ledger, h.index, h.ack, [], List.nil_suffix, rfl⟩
  · exact ⟨h.stored, h.ledger, h.index, h.ack, l, hl, hreads⟩
  · exact h

theorem Good.of_passes (h : Good T k x) {s : State} (hpasses : State.Passes x.receiver s) {l : Bytes}
    {stream : Bytes} (hl : l <:+ stream) (hreads : s.Reads l) :
    Good T k
      { x with
        receiver := s
        ack := x.ack || decide (ASCII_ACK ∈ s.sent.drop x.receiver.sent.length)
        stream := stream } := by
  refine ⟨?_, ?_, ?_, ?_, l, hl, hreads⟩
  · rcases h.stored with hfile | ⟨hatt, hlower, hupper⟩
    · exact .inl (hpasses.file.trans hfile)
    · refine .inr ⟨?_, hpasses.file ▸ hlower, hpasses.file ▸ hupper⟩
      rw [← Bool.not_eq_true]
      intro hatt'
      rw [hpasses.attached hatt'] at hatt
      cases hatt
  · exact fun hatt => (hpasses.ledger hatt).trans (h.ledger (hpasses.attached hatt))
  · exact fun hatt => h.index (hpasses.attached hatt)
  · intro hatt hack
    apply h.ack (hpasses.attached hatt)
    simpa [hpasses.sent hatt] using hack

theorem State.Passes.goOn {s s' : State} (h : State.Passes s s') : State.Passes s s'.goOn :=
  ⟨h.file, h.attached, h.ledger, h.sent⟩

theorem State.read_eq {s s' : State} {vfs : Vfs} {now : UInt32} {c : UInt8} {st : Status}
    (hc : c ∈ s.next?)
    (h : ({ s with rxBuffer := s.rxBuffer.drop, nextTimeout := now + 1000 } : State).processChar vfs c =
      some (st, s')) :
    s.read vfs now = some (s'.answer st).goOn := by
  rw [State.next?] at hc
  split_ifs at hc with hempty
  · cases hc
  · cases hc
    rw [State.read, if_neg hempty, State.turn, h]
    rfl

theorem Transfer.packetNum_ledger (T : Transfer) (k : ℕ) : (T.ledger k).packetNum = UInt8.ofNat k := by
  cases k <;> rfl

theorem ofNat_inj_of_le {j k : ℕ} (hjk : j ≤ k) (hk : k ≤ j + 255)
    (h : UInt8.ofNat k = UInt8.ofNat j) : j = k := by
  rw [← UInt8.toNat_inj, UInt8.toNat_ofNat', UInt8.toNat_ofNat'] at h
  omega

/-- A packet that is completed is the one that is sent, and has not been taken before. -/
theorem Good.completes (h : Good T k x) (hatt : x.receiver.attached = true) {l : Bytes} {c : UInt8}
    (hl : l <:+ x.stream) {b : Block} {a : UInt8}
    (hframe : l ++ [c] = b.frame a (x.receiver.packetNum ^^^ 0xFF))
    (hnumbered : x.receiver.Numbered a) (hhonest : x.Honest T c) (hsound : x.Sound c) :
    T.block? k = some b ∧ x.index = k := by
  have hsuffix : b.frame a (x.receiver.packetNum ^^^ 0xFF) <:+ x.stream ++ [c] := by
    obtain ⟨pre, hpre⟩ := hl
    exact ⟨pre, by rw [← hframe, ← hpre, List.append_assoc]⟩
  have ha : a = x.receiver.packetNum := by
    rcases hnumbered with ha | ha
    · exact ha
    · exact absurd hsuffix (hsound.1 b a ha)
  rw [← ha] at hsuffix
  obtain ⟨j, hj, hwindow, hnum, hb⟩ := hhonest b a hsuffix
  have hk : x.receiver.packetNum = UInt8.ofNat k := by
    rw [← T.packetNum_ledger k, ← h.ledger hatt]
    rfl
  have hindex := h.index hatt
  obtain rfl : j = k := by
    apply ofNat_inj_of_le (by omega) (by omega)
    rw [← hk, ← ha, hnum]
  exact ⟨hb, by omega⟩

/-- A packet that has been completed is taken. -/
theorem Taken.good {s : State} {vfs : Vfs} {r : Option (Status × State)} (h : Taken T k s vfs r)
    (hindex : x.index = k) :
    ∃ st s' k', r = some (st, s') ∧ ∀ ack stream,
      Good T k' { x with receiver := (s'.answer st).goOn, ack := ack, stream := stream } := by
  cases h with
  | acknowledged st s' hst hledger _ _ hreads =>
    have hanswer : ((s'.answer st).goOn).ledger = s'.ledger ∧
        ((s'.answer st).goOn).process = s'.process := by
      rcases hst with rfl | rfl <;> exact ⟨rfl, rfl⟩
    have hnil : ((s'.answer st).goOn).Reads [] := by
      rcases hst with rfl | rfl <;> exact hreads
    refine ⟨st, s', k + 1, rfl, fun _ _ => ⟨.inl ?_, fun _ => hanswer.1.trans hledger, fun _ => .inr ?_,
      fun _ _ => ?_, [], List.nil_suffix, hnil⟩⟩
    · exact congrArg State.Ledger.file (hanswer.1.trans hledger)
    · exact congrArg (· + 1) hindex
    · exact congrArg (· + 1) hindex
  | failed s' hlower hupper hreads _ =>
    exact ⟨.CAN, s', k, rfl, fun _ _ => ⟨.inr ⟨rfl, hlower, hupper⟩, nofun, nofun, nofun,
      [], List.nil_suffix, hreads⟩⟩

/-- A character is read and dealt with. -/
theorem Good.readChar (h : Good T k x) (hT : T.Fits) {c : UInt8} (hc : c ∈ x.receiver.next?)
    (hhonest : x.Honest T c) (hsound : x.Sound c) (vfs : Vfs) (now : UInt32) :
    ∃ s k', x.receiver.read vfs now = some s ∧
      Good T k' { x with
        receiver := s
        ack := x.ack || decide (ASCII_ACK ∈ s.sent.drop x.receiver.sent.length)
        stream := x.stream ++ [c] } := by
  obtain ⟨l, hl, hreads⟩ := h.reads
  have hl' : l ++ [c] <:+ x.stream ++ [c] := by
    obtain ⟨pre, hpre⟩ := hl
    exact ⟨pre, by rw [← hpre, List.append_assoc]⟩
  generalize hs₁ : ({ x.receiver with
    rxBuffer := x.receiver.rxBuffer.drop
    nextTimeout := now + 1000 } : State) = s₁
  have hreads₁ : s₁.Reads l := hs₁ ▸ hreads
  have hread : ∀ {st s'}, s₁.processChar vfs c = some (st, s') →
      x.receiver.read vfs now = some (s'.answer st).goOn := by
    intro st s' hproc
    rw [← hs₁] at hproc
    exact State.read_eq hc hproc
  have hpass : ∀ {s'}, State.Passes s₁ s' → State.Passes x.receiver s' := by
    intro s' hp
    rw [← hs₁] at hp
    exact ⟨hp.file, hp.attached, hp.ledger, hp.sent⟩
  by_cases hlistens : s₁.Listens
  · cases State.outcome hlistens hreads₁ vfs c with
    | continues s' hproc hreads' _ hpasses _ =>
      exact ⟨_, k, hread hproc, h.of_passes (hpass hpasses).goOn hl' hreads'⟩
    | refuses st s' hproc hst hpasses _ =>
      obtain ⟨hfile, hatt, hledger, hsent⟩ := hpass hpasses
      refine ⟨_, k, hread hproc, h.of_passes (l := []) ?_ List.nil_suffix ?_⟩
      · rcases hst with ⟨rfl, -⟩ | ⟨rfl, -⟩ <;> exact ⟨hfile, hatt, hledger, hsent⟩
      · rcases hst with ⟨rfl, -⟩ | ⟨rfl, hnil, -⟩
        · rfl
        · exact hnil
    | completes b a hcomplete =>
      have hatt : x.receiver.attached = true := by
        rw [← Bool.not_eq_false]
        intro hatt
        have hlsb := hcomplete.crcLsb
        rw [← hs₁] at hlsb
        have hproc := hcomplete.process
        rw [← hs₁] at hproc
        cases hlsb.symm.trans (hsound.2 hatt hproc)
      have hframe := hcomplete.frame
      have hnumbered := hcomplete.numbered
      rw [← hs₁] at hframe hnumbered
      obtain ⟨hb, hindex⟩ := h.completes hatt hl hframe hnumbered hhonest hsound
      have hledger : s₁.ledger = T.ledger k := hs₁ ▸ h.ledger hatt
      have htaken := taken (s := { s₁ with
        process := .awaitSoh
        crc := (s₁.crc <<< 8) ||| c.toUInt16 }) hT hledger hb hcomplete.bytes hcomplete.repeated rfl vfs
      rw [← hcomplete.accept vfs] at htaken
      obtain ⟨st, s', k', hr, hgood⟩ := htaken.good hindex
      exact ⟨_, k', hread hr, hgood _ _⟩
  · obtain ⟨s', hproc, hpasses, hnil⟩ := State.processChar_of_not_listens hlistens vfs c
    exact ⟨_, k, hread hproc, h.of_passes (hpass hpasses).goOn List.nil_suffix hnil⟩

/-- Nothing is left to be read. -/
theorem Session.read_of_none (hloop : x.receiver.inLoop = true) (hc : x.receiver.next? = none)
    (vfs : Vfs) (now : UInt32) :
    x.read vfs now = some { x with receiver := { x.receiver with inLoop := false } } := by
  have hempty : x.receiver.rxBuffer.tail = x.receiver.rxBuffer.head := by
    by_contra hne
    rw [State.next?, if_neg hne] at hc
    cases hc
  simp [Session.read, hloop, State.read, if_pos hempty, hc]

theorem Good.read (h : Good T k x) (hT : T.Fits) (vfs : Vfs) (now : UInt32)
    (hpermitted : Permitted T (some x) (.read vfs now)) :
    ∃ x' k', x.read vfs now = some x' ∧ Good T k' x' := by
  cases hloop : x.receiver.inLoop with
  | false =>
    refine ⟨x, k, ?_, h⟩
    rw [Session.read, hloop, if_neg Bool.false_ne_true]
  | true =>
    cases hc : x.receiver.next? with
    | none =>
      exact ⟨_, k, Session.read_of_none hloop hc vfs now, h.stored, h.ledger, h.index, h.ack, h.reads⟩
    | some c =>
      obtain ⟨hhonest, hsound⟩ := hpermitted x rfl hloop c hc
      obtain ⟨s, k', hs, hgood⟩ := h.readChar hT hc hhonest hsound vfs now
      refine ⟨_, k', ?_, hgood⟩
      rw [Session.read, hloop, if_pos rfl, hs, hc]
      rfl

/-- A step has a result and keeps the invariant. -/
theorem Good.step (h : Good T k x) (hT : T.Fits) (op : Op) (hop : Permitted T (some x) op) :
    ∃ x' k', exec (some x) op = some x' ∧ Good T k' x' := by
  cases op with
  | put c => exact ⟨_, k, rfl, h.put c⟩
  | enter now => exact ⟨_, k, rfl, h.enter now⟩
  | read vfs now => exact h.read hT vfs now hop
  | hear => exact ⟨_, k, rfl, h.hear⟩
  | lose => exact ⟨_, k, rfl, h.lose⟩

theorem good_trapInitialSoh (T : Transfer) (s : State) (c : UInt8) (now : UInt32) :
    Good T 0 { receiver := s.trapInitialSoh c now } := by
  have hstart : Good T 0 { receiver := {
      rxBuffer := { s.rxBuffer with head := 0, tail := 0 }
      attached := true
      sent := s.sent
      nextTimeout := now + 1000 } } := by
    refine ⟨.inl ?_, fun _ => rfl, fun _ => .inl rfl, nofun, [], List.nil_suffix, rfl⟩
    exact T.content_zero.symm
  exact hstart.put c

end Run

end Ymodem

end Inspector
