import Inspector.Cyclic.Queue
import Mathlib.Data.UInt

/-! # Modbus RTU

The queue of `modbus_rtu.c`, the poll that works it off, and the sends. A blocking send waits in a
loop in which the realtime code runs, so anything else may be called at each turn of it. What the
stream and the clock say is given with each call. A call has no result when a null pointer is
followed or a reply does not fit its message. Statistics, the direction of the line and the calls of
callbacks other than `retry_exception` are left out.
-/

namespace Inspector

namespace Modbus

/-- `MODBUS_MAX_ADU_SIZE`. -/
abbrev maxAduSize : ℕ := 12

/-- `modbus_message_t`. -/
structure Message where
  crcCheck : Bool := false
  txLength : ℕ := 0
  rxLength : ℕ := 0
  adu : Fin maxAduSize → UInt8 := fun _ => 0
  context : ℕ := 0

/-- A message to be sent: it has room for the checksum, and so has the reply. -/
structure Request extends Message where
  two_le_txLength : 2 ≤ txLength
  two_le_rxLength : 2 ≤ rxLength

/-- A function that is called when there is no good reply. -/
inductive Callback
  | retryException
  | user (id : ℕ)
  deriving DecidableEq, Repr

/-- `modbus_callbacks_t`. -/
structure Callbacks where
  retries : ℕ := 0
  retryDelay : UInt32 := 0
  onRxPacket : Option ℕ := none
  onRxException : Option Callback := none
  onRxTimeout : Option Callback := none
  deriving DecidableEq, Repr

/-- `queue_entry_t`; the entry that follows is the next one of the queue. -/
structure Entry where
  async : Bool := false
  msg : Message := {}
  callbacks : Callbacks := {}

/-- `modbus_state_t`. -/
inductive BusState
  | Idle
  | Silent
  | TX
  | AwaitReply
  | TimeoutException
  | GotReply
  | Exception
  | Retry
  deriving DecidableEq, Repr

/-- What `packet` points to. -/
inductive Slot (n : ℕ)
  | queue (i : Fin (n + 1))
  | sync
  deriving DecidableEq, Repr

/-- The place at which a blocking send waits, with its arguments. -/
inductive Blocking
  | none
  | awaitIdle (msg : Message) (callbacks : Option Callbacks)
  | awaitReply (msg : Message) (callbacks : Option Callbacks)

/-- What a call is told: the clock, the buffers of the stream, the settings, and the flags of the
system. -/
structure Env where
  ticks : UInt32 := 0
  txBufferCount : ℕ := 0
  rx : List UInt8 := []
  rxTimeout : ℕ := 0
  silenceTimeout : UInt32 := 0
  resetPending : Bool := false
  blockingEvent : Bool := false
  deriving DecidableEq, Repr

/-- The state of the driver, with a queue of `n + 1` entries. -/
structure State (n : ℕ) where
  queue : Cyclic.Queue n Entry := ⟨fun _ => {}, 0, 0⟩
  syncMsg : Entry := {}
  packet : Option (Slot n) := none
  state : BusState := .Idle
  isBlocking : Bool := false
  rxTimeout : ℕ := 0
  silenceUntil : UInt32 := 0
  blocking : Blocking := .none

/-- The loop over the bits of `modbus_crc16x`. -/
def crcBit (crc : UInt16) : UInt16 :=
  if crc &&& 1 ≠ 0 then (crc >>> 1) ^^^ 0xA001 else crc >>> 1

/-- `modbus_crc16x`. -/
def modbusCrc16x (buf : List UInt8) : UInt16 :=
  buf.foldl (fun crc c => crcBit^[8] (crc ^^^ c.toUInt16)) 0xFFFF

namespace Message

variable (msg : Message)

/-- The first bytes of a message. -/
def bytes (len : ℕ) : List UInt8 := (List.ofFn msg.adu).take len

def setAdu (i : ℕ) (c : UInt8) : Message :=
  { msg with adu := fun j => if j.val = i then c else msg.adu j }

/-- The checksum of a message to be sent. -/
def txCrc : UInt16 := modbusCrc16x (msg.bytes (msg.txLength - 2))

/-- A message with its checksum. -/
def withCrc : Message :=
  (msg.setAdu (msg.txLength - 1) (msg.txCrc >>> 8).toUInt8).setAdu (msg.txLength - 2)
    msg.txCrc.toUInt8

/-- A message is too long for the buffers. -/
def oversize : Bool := msg.txLength > maxAduSize || msg.rxLength > maxAduSize

/-- A reply is read into a message. -/
def readReply (rx : List UInt8) : Message :=
  { msg with
    rxLength := 0
    adu := fun j => if j.val < msg.rxLength then rx.getD j.val 0xFF else msg.adu j }

/-- The checksum of a reply of the given length is right. -/
def crcOk (len : ℕ) : Bool :=
  (msg.bytes len).drop (len - 2) =
    [(modbusCrc16x (msg.bytes (len - 2))).toUInt8, (modbusCrc16x (msg.bytes (len - 2)) >>> 8).toUInt8]

end Message

/-- A moment has passed. -/
def elapsed (until' ticks : UInt32) : Bool := (until' - ticks).toInt32 ≤ 0

/-- The callbacks of a message that is added; an exception of a blocking send is retried. -/
def Callbacks.prepare (callbacks : Callbacks) (async : Bool) : Callbacks :=
  if ¬async ∧ callbacks.retries ≠ 0 then
    { callbacks with onRxException := some .retryException, onRxTimeout := some .retryException }
  else { callbacks with onRxTimeout := callbacks.onRxTimeout.or callbacks.onRxException }

/-- `add_message`: the entry that is filled in. -/
def addMessage (env : Env) (msg : Message) (async : Bool) (callbacks : Option Callbacks) : Entry where
  async := async
  msg := msg
  callbacks := if env.resetPending then {} else (callbacks.map fun c => c.prepare async).getD {}

namespace State

variable {n : ℕ} (env : Env) (s : State n)

/-- What a slot holds. -/
def entry : Slot n → Entry
  | .queue i => s.queue.data i
  | .sync => s.syncMsg

def setEntry (e : Entry) : Slot n → State n
  | .queue i => { s with queue := { s.queue with data := Function.update s.queue.data i e } }
  | .sync => { s with syncMsg := e }

/-- `tx_message`. -/
def txMessage (slot : Slot n) : State n :=
  { s with packet := some slot, state := .TX, rxTimeout := env.rxTimeout }

/-- The line is silent for a while. -/
def silence (state : BusState) : State n :=
  { s with state := state, silenceUntil := env.ticks + env.silenceTimeout }

/-- The poll of an idle bus: the first message of the queue is sent, if any. -/
def pollIdle : State n × Option Message :=
  if s.queue.tail ≠ s.queue.head ∧ s.packet = none ∧ s.isBlocking = false then
    ({ s.txMessage env (.queue s.queue.tail) with queue := s.queue.drop },
      some (s.queue.data s.queue.tail).msg)
  else (s, none)

/-- The device has answered with an exception. -/
def exceptionReply (e : Entry) : Bool :=
  env.rx.head? = some (e.msg.adu 0) ∧ env.rx.getD 1 0xFF &&& 0x80 ≠ 0

/-- No reply has come in time. -/
def timeout (slot : Slot n) : State n :=
  if (s.entry slot).async then { s.silence env .Silent with packet := none }
  else if exceptionReply env (s.entry slot) then s.silence env .Exception
  else s.silence env .TimeoutException

/-- A reply has been read whose checksum is wrong. -/
def crcError (slot : Slot n) : State n :=
  if (s.entry slot).async then { s.silence env .Silent with packet := none }
  else s.silence env .Exception

/-- A reply of the given length has been read. -/
def gotReply (slot : Slot n) (len : ℕ) : State n :=
  if (s.entry slot).async then
    { (if (s.entry slot).callbacks.onRxPacket.isSome then
        s.setEntry { s.entry slot with msg := { (s.entry slot).msg with rxLength := len } } slot
      else s).silence env .Silent with packet := none }
  else s.silence env .GotReply

/-- A reply of the given length has been read; its checksum may be asked for. -/
def checkReply (slot : Slot n) (len : ℕ) : State n :=
  if (s.entry slot).msg.crcCheck ∧ ¬(s.entry slot).msg.crcOk len then s.crcError env slot
  else s.gotReply env slot len

/-- The reply in the buffer of the stream is read. -/
def reply (slot : Slot n) : Option (State n) :=
  if (s.entry slot).msg.rxLength = 0 ∨ maxAduSize < (s.entry slot).msg.rxLength then none
  else
    some ((s.setEntry { s.entry slot with msg := (s.entry slot).msg.readReply env.rx }
      slot).checkReply env slot (s.entry slot).msg.rxLength)

/-- The poll while a reply is awaited. -/
def pollReply (slot : Slot n) : Option (State n) :=
  if s.rxTimeout = 1 then some (({ s with rxTimeout := 0 } : State n).timeout env slot)
  else if (s.entry slot).msg.rxLength ≤ env.rx.length then
    ({ s with rxTimeout := s.rxTimeout - 1 } : State n).reply env slot
  else some { s with rxTimeout := s.rxTimeout - 1 }

/-- `modbus_poll`, and the message of the queue that it sends, if any. -/
def modbusPoll : Option (State n × Option Message) :=
  match s.state with
  | .Idle => some (s.pollIdle env)
  | .Silent =>
    some (if elapsed s.silenceUntil env.ticks then { s with silenceUntil := 0, state := .Idle } else s,
      none)
  | .TX => some (if env.txBufferCount = 0 then { s with state := .AwaitReply } else s, none)
  | .AwaitReply => s.packet.bind fun slot => (s.pollReply env slot).map fun s => (s, none)
  | .TimeoutException =>
    s.packet.map fun slot =>
      (s.silence env (if (s.entry slot).async then .Silent else .TimeoutException), none)
  | _ => some (s, none)

/-- `retry_exception`. -/
def retryException (slot : Slot n) : State n :=
  if (s.entry slot).callbacks.retries ≠ 0 then
    { s with
      state := .Retry
      silenceUntil := env.ticks + env.silenceTimeout + (s.entry slot).callbacks.retryDelay }
  else s

/-- A callback is called. -/
def call (slot : Slot n) (callback : Option Callback) : State n :=
  if callback = some .retryException then s.retryException env slot else s

/-- A blocking send goes on as long as there are retries. -/
def goOn (slot : Slot n) : State n :=
  { s with isBlocking := (s.entry slot).callbacks.retries ≠ 0 }

/-- The callbacks of a message that is sent again; those of the caller are restored for the last
time. -/
def lastRetry (callbacks : Callbacks) (own : Option Callbacks) : Callbacks :=
  if callbacks.retries = 1 then
    { callbacks with
      retries := 0
      onRxException := own.bind Callbacks.onRxException
      onRxTimeout := own.bind fun c => c.onRxTimeout.or c.onRxException }
  else { callbacks with retries := callbacks.retries - 1 }

/-- A blocking send sends its message again. -/
def retry (slot : Slot n) (msg : Message) (callbacks : Option Callbacks) : State n :=
  if elapsed s.silenceUntil env.ticks then
    ({ s with
      silenceUntil := 0
      syncMsg := addMessage env msg false
        (some (lastRetry (s.entry slot).callbacks callbacks)) } : State n).txMessage env .sync
  else s

/-- One turn of the loop of a blocking send that awaits its reply. -/
def turn (msg : Message) (callbacks : Option Callbacks) : Option (State n) :=
  match s.state with
  | .TimeoutException =>
    s.packet.map fun slot => (s.call env slot (s.entry slot).callbacks.onRxTimeout).goOn slot
  | .Exception =>
    s.packet.map fun slot => (s.call env slot (s.entry slot).callbacks.onRxException).goOn slot
  | .GotReply => s.packet.map fun _ => { s with isBlocking := false }
  | .Retry => s.packet.map fun slot => s.retry env slot msg callbacks
  | _ => some s

/-- The end of a blocking send. -/
def finish : State n :=
  { s with
    packet := none
    isBlocking := false
    syncMsg := { s.syncMsg with msg := s.syncMsg.msg.setAdu 1 0 }
    state := if 0 < s.silenceUntil then .Silent else .Idle
    blocking := .none }

/-- A blocking send goes on after the realtime code has run. -/
def goOnBlocking : Option (State n) :=
  match s.blocking with
  | .none => some s
  | .awaitIdle msg callbacks =>
    if s.state = .Idle then
      some (({ s with
        syncMsg := addMessage env msg false callbacks
        blocking := .awaitReply msg callbacks } : State n).txMessage env .sync)
    else some s
  | .awaitReply msg callbacks =>
    (s.turn env msg callbacks).map fun s => if s.isBlocking then s else s.finish

/-- Nothing has been sent to the device of the packet that blocks the queue. -/
def free : Bool :=
  s.packet.all fun slot => s.syncMsg.msg.adu 1 = 0 ∨ (s.entry slot).msg.adu 0 ≠ s.syncMsg.msg.adu 0

/-- A message is put in the queue, unless it is full. -/
def enqueue (msg : Message) (callbacks : Option Callbacks) : State n :=
  if s.free ∧ Cyclic.next s.queue.head ≠ s.queue.tail then
    { s with queue := s.queue.put (addMessage env msg true callbacks) }
  else s

/-- `modbus_send_rtu`: what it returns if it returns at once, or a blocking send that has begun. -/
def modbusSendRtu (msg : Message) (callbacks : Option Callbacks) (block : Bool) :
    Option (Option Bool × State n) :=
  if msg.oversize then callbacks.map fun _ => (some false, s)
  else if block ∧ ¬env.blockingEvent then
    if s.isBlocking then some (some false, s)
    else
      (({ s with isBlocking := true, blocking := .awaitIdle msg.withCrc callbacks } :
        State n).goOnBlocking env).map fun s => (none, s)
  else some (some true, s.enqueue env msg.withCrc callbacks)

/-- `modbus_rtu_flush_queue`. -/
def modbusRtuFlushQueue : State n := { s with queue := s.queue.clear }

end State

/-- The calls, and the return of the realtime code to a blocking send. -/
inductive Op
  | send (env : Env) (msg : Request) (callbacks : Option Callbacks) (block : Bool)
  | goOn (env : Env)
  | poll (env : Env)
  | flush

/-- A run: the non-blocking messages for which the send has returned true, and what has been
transmitted (true) or flushed of them, in order. -/
structure Session (n : ℕ) where
  state : State n := {}
  returned : List Message := []
  settled : List (Message × Bool) := []

namespace Session

variable {n : ℕ} (x : Session n)

def send (env : Env) (msg : Message) (callbacks : Option Callbacks) (block : Bool) :
    Option (Session n) :=
  (x.state.modbusSendRtu env msg callbacks block).map fun r =>
    { x with
      state := r.2
      returned := if r.1 = some true then x.returned ++ [msg.withCrc] else x.returned }

def goOn (env : Env) : Option (Session n) :=
  (x.state.goOnBlocking env).map fun s => { x with state := s }

def poll (env : Env) : Option (Session n) :=
  (x.state.modbusPoll env).map fun r =>
    { x with state := r.1, settled := x.settled ++ r.2.toList.map fun msg => (msg, true) }

def flush : Session n :=
  { x with
    state := x.state.modbusRtuFlushQueue
    settled := x.settled ++ x.state.queue.contents.map fun e => (e.msg, false) }

end Session

def exec {n : ℕ} (x : Option (Session n)) : Op → Option (Session n)
  | .send env msg callbacks block => x.bind fun x => x.send env msg.toMessage callbacks block
  | .goOn env => x.bind fun x => x.goOn env
  | .poll env => x.bind fun x => x.poll env
  | .flush => x.map Session.flush

end Modbus

end Inspector
