import Inspector.Cyclic.Queue
import Inspector.Numerals
import Mathlib.Data.UInt

/-! # The parser of websocket frames

`websocket_msg_parse` of `websocketd.c` is called with a part of what has been received and takes
some bytes of it. It has no result when it writes outside of allocated memory or frees what was not
allocated; all allocations succeed. What is only kept for the ping timer and for debugging is left
out.
-/

namespace Inspector

namespace Websocket

abbrev Bytes := List UInt8

/-- `websocket_opcode_t`. -/
abbrev opContinuation : UInt8 := 0x00
abbrev opText : UInt8 := 0x01
abbrev opBinary : UInt8 := 0x02
abbrev opClose : UInt8 := 0x08
abbrev opPing : UInt8 := 0x09
abbrev opPong : UInt8 := 0x0A

/-- `websocket_state_t`. -/
inductive WsState
  | free
  | idle
  | connecting
  | connected
  | closing
  deriving DecidableEq, Repr

section Memory

/-- Allocated memory. -/
structure Block where
  size : ℕ
  data : ℕ → UInt8

namespace Block

/-- `memcpy` to a place of the memory. -/
def write (b : Block) (i : ℕ) (l : Bytes) : Option Block :=
  if i + l.length ≤ b.size then
    some { b with data := fun k => if i ≤ k then l.getD (k - i) (b.data k) else b.data k }
  else none

/-- The bytes from the beginning on. -/
def read (b : Block) (n : ℕ) : Bytes := (List.range n).map b.data

end Block

/-- What `session->payload` points to. -/
inductive Payload
  | null
  | segment
  | block (b : Block)

end Memory

/-- `frame_header_t`; `idx` is the number of bytes in `data`. -/
structure Header where
  payloadLen : ℕ := 0
  payloadRem : ℕ := 0
  rxIndex : ℕ := 0
  frame : Option Block := none
  mask : Bytes := [0, 0, 0, 0]
  masked : Bool := false
  complete : Bool := false
  data : Bytes := []

namespace Header

variable (h : Header)

def idx : ℕ := h.data.length

/-- A byte of the header. -/
def byte (i : ℕ) : UInt8 := h.data.getD i 0

/-- The second byte of the header. -/
def setLength : Header :=
  if h.idx = 2 then
    { h with masked := h.byte 1 &&& 0x80 ≠ 0, payloadLen := (h.byte 1 &&& 0x7F).toNat }
  else h

/-- The header is complete. -/
def finish : Header :=
  if h.payloadLen = 126 then
    { h with
      complete := true
      payloadLen := (h.byte 2).toNat <<< 8 ||| (h.byte 3).toNat
      mask := (h.data.drop 4).take 4
      payloadRem := (h.byte 2).toNat <<< 8 ||| (h.byte 3).toNat }
  else
    { h with
      complete := true
      mask := (h.data.drop 2).take 4
      payloadRem := h.payloadLen }

def checkComplete : Header :=
  if 6 ≤ h.idx ∧ h.idx = (if h.payloadLen = 126 then 8 else 6) then h.finish else h

/-- A byte is collected. -/
def store (b : UInt8) : Header :=
  ({ h with data := h.data ++ [b] } : Header).setLength.checkComplete

/-- The header is collected, and what is left of the bytes. -/
def collect : Header → Bytes → Header × Bytes
  | h, [] => (h, [])
  | h, b :: l => if h.complete then (h, b :: l) else collect (h.store b) l

/-- `collect_msg_frame`, for some bytes of the payload. -/
def collectMsgFrame (fresh : ℕ → UInt8) (l : Bytes) : Option Header :=
  let h :=
    if l.length < h.payloadRem ∧ h.payloadRem = h.payloadLen then
      { h with frame := some ⟨h.payloadLen + h.idx, fun k => h.data.getD k (fresh k)⟩ }
    else h
  let h := { h with payloadRem := h.payloadRem - l.length }
  match h.frame with
  | none => some h
  | some b =>
    (b.write (h.idx + h.payloadLen - h.payloadRem - 1) l).map fun b => { h with frame := some b }

end Header

/-- Bytes are masked from a place of the mask on. -/
def unmask (mask : Bytes) : ℕ → Bytes → Bytes
  | _, [] => []
  | i, b :: l => (b ^^^ mask.getD (i % 4) 0) :: unmask mask (i + 1) l

/-- What the parser gives to others: a frame to its handler, or bytes to TCP. -/
inductive Output
  | received (isBinary : Bool) (data : Bytes)
  | tcpWrite (data : Bytes)
  deriving DecidableEq, Repr

/-- What does not change: the handlers that are registered, whether the session has the stream and
is connected to it, which characters are realtime commands, and what allocated memory holds. -/
structure Config where
  onTxt : Bool
  onBin : Bool
  isStream : Bool
  streamConnected : Bool
  realtime : UInt8 → Bool
  fresh : ℕ → UInt8

/-- The receive buffer of the stream. -/
structure Rx where
  queue : Cyclic.Queue 1023 UInt8
  overflow : Bool := false

/-- `ws_sessiondata_t`. -/
structure Session where
  state : WsState
  fragmentOpcode : UInt8 := opContinuation
  header : Header := {}
  payload : Payload := .null
  collectPayload : Bool := false

/-- A session while a frame is processed: the bytes that are not taken yet, and what is given to
others. -/
structure Work where
  session : Session
  rx : Rx
  rest : Bytes
  frameDone : Bool := false
  out : List Output := []

variable (cfg : Config)

/-- `websocketd_RxPutC`; a full buffer has its head moved to its tail. -/
def rxPutC (mpg : Bool) (state : WsState) (rx : Rx) (c : UInt8) : Bool × Rx :=
  if state = .connected ∧ mpg = false then
    if cfg.realtime c then (true, rx)
    else if Cyclic.next rx.queue.head = rx.queue.tail then (false, ⟨rx.queue.put c, true⟩)
    else (true, { rx with queue := rx.queue.put c })
  else (false, rx)

/-- Characters are unmasked and put into the receive buffer; the number of those it takes. -/
def pushData (put : Rx → UInt8 → Bool × Rx) (mask : Bytes) : ℕ → Bytes → Rx → ℕ × Rx
  | _, [], rx => (0, rx)
  | i, b :: l, rx =>
    let r := put rx (b ^^^ mask.getD (i % 4) 0)
    if r.1 then
      let t := pushData put mask (i + 1) l r.2
      (t.1 + 1, t.2)
    else (0, r.2)

namespace Work

variable (w : Work)

def header : Header := w.session.header

def setHeader (h : Header) : Work := { w with session := { w.session with header := h } }

/-- A data frame begins: its payload is in the segment, or memory is allocated for it. -/
def allocate (isBinary : Bool) : Work :=
  if w.header.payloadLen ≤ w.rest.length then
    { w with
      frameDone := true
      session := { w.session with collectPayload := true, payload := .segment } }
  else
    -- The size is the third operand of `payload_len + is_binary ? 0 : 1`, or its second one.
    { w with
      session := { w.session with
        collectPayload := true
        payload := .block ⟨if w.header.payloadLen + isBinary.toNat ≠ 0 then 0 else 1, cfg.fresh⟩ } }

/-- The bytes of the payload that are in the segment. -/
def part : Bytes := w.rest.take w.header.payloadRem

/-- A part of the payload is copied. -/
def copyPart (isBinary : Bool) : Option Work :=
  match w.session.payload with
  | .null | .segment => none
  | .block b =>
    (b.write (w.header.payloadLen - w.header.payloadRem) w.part).bind fun b =>
      let left := w.header.payloadRem - w.part.length
      let text := if left = 0 ∧ isBinary = false then b.write w.header.payloadLen [0] else some b
      text.map fun b =>
        { w with
          session := { w.session with
            payload := .block b
            header := { w.header with payloadRem := left } }
          rest := []
          frameDone := decide (left = 0) }

/-- The handler is called when the payload is complete. -/
def deliver (isBinary : Bool) : Option Work :=
  if w.frameDone then
    match w.session.payload with
    | .null => none
    | .segment =>
      some { w with
        session := { w.session with payload := .null }
        rest := []
        out := [.received isBinary (unmask w.header.mask 0 (w.rest.take w.header.payloadLen))] }
    | .block b =>
      some { w with
        out := [.received isBinary (unmask w.header.mask 0 (b.read w.header.payloadLen))] }
  else some w

/-- The payload is put into the receive buffer of the stream. -/
def push (mpg : Bool) : Work :=
  let r := pushData (rxPutC cfg mpg w.session.state) w.header.mask w.header.rxIndex w.part
    { w.rx with overflow := false }
  let h := { w.header with
    rxIndex := w.header.rxIndex + r.1
    payloadRem := w.header.payloadLen - (w.header.rxIndex + r.1) }
  { w.setHeader h with
    rx := r.2
    rest := w.rest.drop r.1
    frameDone := decide (h.payloadRem = 0) }

/-- There is no client. -/
def sink : Work :=
  let left := w.header.payloadRem - w.part.length
  { w.setHeader { w.header with payloadRem := left } with
    rest := []
    frameDone := decide (left = 0) }

/-- A frame of this kind has a handler. -/
def handled (isBinary : Bool) : Bool := if isBinary then cfg.onBin else cfg.onTxt

/-- `WsOpcode_Text` and `WsOpcode_Binary`. -/
def dataFrame (mpg isBinary fin : Bool) : Option Work :=
  let w :=
    if fin then { w with session := { w.session with fragmentOpcode := opContinuation } } else w
  let w :=
    if w.header.payloadRem = w.header.payloadLen ∧ handled cfg isBinary then w.allocate cfg isBinary
    else w
  if w.header.payloadRem = 0 then some w
  else if w.session.collectPayload then
    if w.frameDone then w.deliver isBinary
    else (w.copyPart isBinary).bind fun w => w.deliver isBinary
  else if cfg.isStream ∧ cfg.streamConnected then some (w.push cfg mpg)
  else some w.sink

/-- `WsOpcode_Close`. -/
def closeFrame : Option Work :=
  if w.header.payloadRem ≤ w.rest.length then
    (w.header.collectMsgFrame cfg.fresh w.part).map fun h =>
      { w.setHeader h with
        session := { w.session with header := h, state := .closing }
        rest := w.rest.drop w.header.payloadRem
        frameDone := true
        out := [.tcpWrite (h.frame.elim (w.rest.take h.payloadLen) fun b => b.read h.payloadLen)] }
  else
    (w.header.collectMsgFrame cfg.fresh w.rest).map fun h => { w.setHeader h with rest := [] }

/-- The frame that answers a ping. -/
def pong (token : UInt8) (h : Header) (payload : Bytes) : Bytes :=
  (token &&& 0xF0 ||| opPong) ::
    ((if h.payloadLen < 126 then [UInt8.ofNat h.payloadLen]
      else [126, UInt8.ofNat (h.payloadLen >>> 8 &&& 0xFF), UInt8.ofNat (h.payloadLen &&& 0xFF)]) ++
    unmask h.mask h.rxIndex payload)

/-- `WsOpcode_Ping`. -/
def pingFrame (token : UInt8) : Option Work :=
  if w.header.payloadRem ≤ w.rest.length then
    if w.session.state = .closing then some { w with frameDone := true }
    else
      (w.header.collectMsgFrame cfg.fresh w.part).map fun h =>
        { w.setHeader h with
          rest := w.rest.drop w.header.payloadRem
          frameDone := true
          out := [.tcpWrite (pong token h
            (h.frame.elim (w.rest.take h.payloadLen) fun b => b.read h.payloadLen))] }
  else
    (w.header.collectMsgFrame cfg.fresh w.rest).map fun h => { w.setHeader h with rest := [] }

/-- `WsOpcode_Pong` and undefined opcodes. -/
def skipFrame : Work :=
  if w.header.payloadRem ≤ w.rest.length then
    { w with rest := w.rest.drop w.header.payloadRem, frameDone := true }
  else
    { w.setHeader { w.header with payloadRem := w.header.payloadRem - w.rest.length } with
      rest := [] }

/-- The opcode of a frame; that of a continuation is the one of the first fragment. -/
def opcode (token : UInt8) : UInt8 :=
  if token &&& 0x0F = opContinuation then w.session.fragmentOpcode else token &&& 0x0F

/-- The opcode of a first fragment is kept. -/
def keepOpcode (token : UInt8) : Work :=
  if token &&& 0x80 = 0 ∧ token &&& 0x0F ≠ opContinuation then
    { w with session := { w.session with fragmentOpcode := token &&& 0x0F } }
  else w

/-- A frame is processed. -/
def process (mpg : Bool) : Option Work :=
  let token := w.header.byte 0
  let w := w.keepOpcode token
  let op := w.opcode token
  if op = opContinuation then
    some { w with session := { w.session with fragmentOpcode := opContinuation } }
  else if op = opBinary then w.dataFrame cfg mpg true (token &&& 0x80 ≠ 0)
  else if op = opText then w.dataFrame cfg mpg false (token &&& 0x80 ≠ 0)
  else if op = opClose then w.closeFrame cfg
  else if op = opPing then w.pingFrame cfg (token &&& 0xF0 ||| op)
  else some w.skipFrame

/-- What is left of a frame that is done. -/
def release : Option Work :=
  if w.frameDone then
    match w.session.payload with
    | .null => some (w.setHeader {})
    | .segment => none
    | .block _ =>
      some { w with
        session := { w.session with payload := .null, collectPayload := false, header := {} } }
  else some w

end Work

/-- `websocket_msg_parse`. -/
def msgParse (mpg : Bool) (s : Session) (rx : Rx) (l : Bytes) : Option Work :=
  let r := s.header.collect l
  let w : Work := { session := { s with header := r.1 }, rx := rx, rest := r.2 }
  if r.1.complete ∧ (r.2 ≠ [] ∨ r.1.payloadRem = 0) then
    (w.process cfg mpg).bind fun w => w.release
  else some w

end Websocket

end Inspector
