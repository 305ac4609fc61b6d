import Inspector.Cyclic.Queue
import Inspector.Json.Parse
import Mathlib.Data.UInt

/-! # YModem receiver

The receiver of `ymodem.c`, byte by byte. What the file system and the clock say is given with each
call. A handler has no result when it writes outside of a field, reads outside of the payload, or
uses a file that is not open. The flag of the receive buffer, which nothing reads, is left out, and
so is the buffer of the stream, which gets no characters while a transfer goes on.
-/

namespace Inspector

namespace Ymodem

abbrev Bytes := List UInt8

abbrev ASCII_SOH : UInt8 := 0x01
abbrev ASCII_STX : UInt8 := 0x02
abbrev ASCII_EOT : UInt8 := 0x04
abbrev ASCII_ACK : UInt8 := 0x06
abbrev ASCII_NAK : UInt8 := 0x15
abbrev ASCII_CAN : UInt8 := 0x18

/-- The letter that follows an acknowledgement when the sender is to go on with packets that have a
checksum of two bytes. -/
abbrev ASCII_C : UInt8 := 0x43

/-- `ymodem_status_t`, without the values no handler returns. -/
inductive Status
  | NOOP
  | ACK
  | ACKFile
  | NoFile
  | Purge
  | CAN
  deriving DecidableEq, Repr

/-- What `ymodem.process` points to. -/
inductive Handler
  | awaitCancel
  | purge
  | awaitSoh
  | awaitPacketnum
  | getPayload
  | awaitCrc
  | awaitEot
  deriving DecidableEq, Repr

/-- What the file system answers: whether a file can be opened, and how many bytes it takes. -/
structure Vfs where
  opens : Bool
  room : ℕ

section Checksum

/-- The update of `crc` in `ccitt_crc16`, from its lower byte and the folded `x`. -/
def crcMix (crc x : UInt16) : UInt16 := crc ^^^ (x <<< 12) ^^^ (x <<< 5) ^^^ x

def crcFold (x : UInt16) : UInt16 := x ^^^ (x >>> 4)

/-- `ccitt_crc16`. -/
def ccittCrc16 (buf : Bytes) : UInt16 :=
  buf.foldl (fun crc b => crcMix (crc <<< 8) (crcFold ((crc >>> 8) ^^^ b.toUInt16))) 0

end Checksum

section Strings

/-- The characters of a C string. -/
def cString (data : Bytes) : Bytes := data.takeWhile (· ≠ 0)

/-- The value of the digits that a text begins with. -/
def digits (s : Bytes) : ℕ :=
  Nat.ofDigits 10 ((s.takeWhile Json.isDigit).reverse.map fun b => b.toNat - 0x30)

def isSpace (b : UInt8) : Bool := b = 0x20 ∨ 0x09 ≤ b ∧ b ≤ 0x0D

def signed : Bytes → ℤ
  | 0x2D :: s => -digits s
  | 0x2B :: s => digits s
  | s => digits s

/-- `atoi`. -/
def atoi (s : Bytes) : ℤ := signed (s.dropWhile isSpace)

end Strings

/-- The receiver. `attached` says that the protocol loop is attached to the foreground process, and
`inLoop` that its loop over the received characters is entered. What has been written to the file
and to the stream is in `file` and `sent`. -/
structure State where
  rxBuffer : Cyclic.Queue 2047 UInt8
  attached : Bool
  inLoop : Bool := false
  handle : Bool := false
  file : Bytes := []
  sent : Bytes := []
  filename : Bytes := []
  filelength : ℕ := 0
  received : ℕ := 0
  crc : UInt16 := 0
  idx : ℕ := 0
  errors : ℕ := 0
  packetLen : ℕ := 0
  packetNum : UInt8 := 0
  nextTimeout : UInt32
  process : Handler := .awaitSoh
  seqInv : Bool := false
  crcLsb : Bool := false
  completed : Bool := false
  repeated : Bool := false
  payload : ℕ → UInt8 := fun _ => 0

namespace State

variable (s : State) (vfs : Vfs) (c : UInt8)

/-- `put_char`: nothing is put in a full buffer. -/
def putChar : State :=
  if Cyclic.next s.rxBuffer.head = s.rxBuffer.tail then s else { s with rxBuffer := s.rxBuffer.put c }

def writeChars (cs : Bytes) : State := { s with sent := s.sent ++ cs }

/-- `end_transfer`. -/
def endTransfer (sendAck : Bool) : State :=
  if sendAck then
    ({ s with attached := false, handle := false } : State).writeChars [ASCII_ACK, ASCII_C]
  else { s with attached := false, handle := false }

/-- `await_cancel`. -/
def awaitCancel : Status × State :=
  (.NOOP, if c = ASCII_CAN then s.endTransfer false else { s with process := .awaitSoh })

/-- A packet begins. -/
def begin : State :=
  { s with
    idx := 0
    crc := 0
    crcLsb := false
    seqInv := false
    repeated := false
    packetLen := if c = ASCII_SOH then 128 else 1024
    process := .awaitPacketnum }

/-- `await_soh`. -/
def awaitSoh : Status × State :=
  if c = ASCII_SOH ∨ c = ASCII_STX then (.NOOP, s.begin c)
  else if c = ASCII_EOT then (.NOOP, s.endTransfer true)
  else if c = ASCII_CAN then (.NOOP, { s with process := .awaitCancel })
  else (.Purge, s)

/-- The comparison `ymodem.packet_num == c - 1`, made with integers. -/
def IsRepeated : Prop := (s.packetNum.toNat : ℤ) = c.toNat - 1

instance : Decidable (s.IsRepeated c) := inferInstanceAs (Decidable (_ = _))

/-- The number of a packet. -/
def firstNum : Status × State :=
  if c = s.packetNum ∨ s.IsRepeated c then (.NOOP, { s with seqInv := true })
  else (.Purge, { s with seqInv := false })

/-- The complement of the number, which has been inverted. -/
def secondNum : Status × State :=
  if (if s.IsRepeated c then c + 1 else c) = s.packetNum then
    (.NOOP, { s with repeated := decide (s.IsRepeated c), process := .getPayload })
  else (.Purge, { s with repeated := decide (s.IsRepeated c) })

/-- `await_packetnum`. -/
def awaitPacketnum : Status × State := if s.seqInv then s.secondNum (c ^^^ 0xFF) else s.firstNum c

def savePayload : State :=
  { s with
    payload := Function.update s.payload s.idx c
    idx := s.idx + 1
    process := if s.idx + 1 = s.packetLen then .awaitCrc else s.process }

/-- `get_payload`. -/
def getPayload : Option (Status × State) := if s.idx < 1024 then some (.NOOP, s.savePayload c) else none

/-- The first bytes of the payload. -/
def bytes (len : ℕ) : Bytes := (List.range len).map s.payload

/-- What follows the name in the payload of packet 0. -/
def announcement : Bytes := (s.bytes 1024).drop ((cString (s.bytes 1024)).length + 1)

def saveLength : State :=
  if cString s.announcement = [] then s
  else { s with filelength := (atoi (cString s.announcement) % 2 ^ 32).toNat }

/-- The file is opened. -/
def openFile : Status × State :=
  (if vfs.opens then .ACKFile else .CAN,
    { ({ s with filename := cString (s.bytes 1024) } : State).saveLength with
      handle := vfs.opens
      file := if vfs.opens then [] else s.file
      packetNum := s.packetNum + 1 })

/-- Packet 0. -/
def awaitFile : Option (Status × State) :=
  if cString (s.bytes 1024) = [] then some (.NoFile, { s with packetNum := s.packetNum + 1 })
  else if (cString (s.bytes 1024)).length < 32 then some (s.openFile vfs)
  else none

/-- A packet is counted. -/
def count : State :=
  { s with
    packetNum := s.packetNum + 1
    received := (s.received + s.packetLen) % 2 ^ 32 }

/-- The length of the last packet is trimmed. -/
def trim : State :=
  if s.filelength ≠ 0 ∧ s.filelength < s.received then
    { s with
      completed := true
      packetLen := (s.packetLen + 2 ^ 32 - (s.received - s.filelength)) % 2 ^ 32 }
  else { s with completed := false }

def vfsWrite : State := { s with file := s.file ++ (s.bytes s.packetLen).take vfs.room }

/-- The payload is written to the file. -/
def writePayload : Option (Status × State) :=
  if s.handle = true ∧ s.packetLen ≤ 1024 then
    if s.packetLen ≤ vfs.room then
      some (.ACK,
        if s.completed then { s.vfsWrite vfs with idx := 0, process := .awaitEot } else s.vfsWrite vfs)
    else some (.CAN, s.vfsWrite vfs)
  else none

/-- A packet whose checksum is right. -/
def accept : Option (Status × State) :=
  if s.packetNum = 0 ∧ s.filename = [] then s.awaitFile vfs
  else if s.repeated then some (.ACK, s)
  else s.count.trim.writePayload vfs

/-- The checksum has been received. -/
def checkCrc : Option (Status × State) :=
  if ccittCrc16 (s.bytes s.packetLen) = s.crc then s.accept vfs else some (.Purge, s)

/-- `await_crc`. -/
def awaitCrc : Option (Status × State) :=
  if s.crcLsb then
    ({ s with process := .awaitSoh, crc := (s.crc <<< 8) ||| c.toUInt16 } : State).checkCrc vfs
  else some (.NOOP, { s with crcLsb := true, crc := c.toUInt16 })

/-- `await_eot`. -/
def awaitEot : Status × State := (.NOOP, if c = ASCII_EOT then s.endTransfer true else s)

/-- A character is given to the handler. -/
def processChar : Option (Status × State) :=
  match s.process with
  | .awaitCancel => some (s.awaitCancel c)
  | .purge => some (.NOOP, s)
  | .awaitSoh => some (s.awaitSoh c)
  | .awaitPacketnum => some (s.awaitPacketnum c)
  | .getPayload => s.getPayload c
  | .awaitCrc => s.awaitCrc vfs c
  | .awaitEot => some (s.awaitEot c)

/-- The answer to what a handler returns. -/
def answer : Status → State
  | .NOOP => s
  | .ACK => ({ s with errors := 0 } : State).writeChars [ASCII_ACK]
  | .ACKFile => ({ s with errors := 0 } : State).writeChars [ASCII_ACK, ASCII_C]
  | .NoFile => (s.writeChars [ASCII_ACK]).endTransfer false
  | .CAN => (s.writeChars [ASCII_CAN, ASCII_CAN]).endTransfer false
  | .Purge => { s with errors := s.errors + 1, process := .purge }

/-- A transfer goes on until its handlers are detached. -/
def goOn : State := { s with inLoop := s.attached }

/-- One turn of the loop over the received characters. -/
def turn (now : UInt32) : Option State :=
  (({ s with nextTimeout := now + 1000 } : State).processChar vfs c).map fun r => (r.2.answer r.1).goOn

/-- `get_char` and what is done with the character. -/
def read (now : UInt32) : Option State :=
  if s.rxBuffer.tail = s.rxBuffer.head then some { s with inLoop := false }
  else ({ s with rxBuffer := s.rxBuffer.drop } : State).turn vfs (s.rxBuffer.data s.rxBuffer.tail) now

/-- Nothing has been received in time. -/
def timeout (now : UInt32) : State :=
  if 10 < s.errors + 1 then
    ({ s with nextTimeout := now + 1000, errors := s.errors + 1 } : State).endTransfer false
  else
    ({ s with nextTimeout := now + 1000, errors := s.errors + 1, process := .awaitSoh } : State).writeChars
      [ASCII_NAK]

/-- `protocol_loop` is called: what comes before its loop. -/
def enter (now : UInt32) : State :=
  { (if s.nextTimeout ≤ now then s.timeout now else s) with inLoop := true }

/-- `trap_initial_soh`, when a packet begins. -/
def trapInitialSoh (now : UInt32) : State :=
  ({ rxBuffer := { s.rxBuffer with head := 0, tail := 0 }
     attached := true
     sent := s.sent
     nextTimeout := now + 1000 } : State).putChar c

end State

end Ymodem

end Inspector
