import Inspector.Linked.Chain
import Inspector.Modbus.Rtu
import Inspector.Numerals
import Inspector.Streams.Connections

/-! # Modbus TCP

The queue of `networking/modbus/client.c`. A blocking send waits in a loop in which the realtime
code runs, so anything else may be called at each turn of it. What TCP, the clock and the allocator
say is given with each call. A call has no result when it uses an entry that has been freed, follows
a null pointer, or writes a reply outside of its message. The numbers in a frame are given by their
values; addresses, ports and connecting are left out.
-/

namespace Inspector

namespace ModbusTcp

open Modbus (Callbacks maxAduSize)
open Streams (Allocator)

/-- `MODBUS_N_CLIENTS`. -/
abbrev nClients : ℕ := 4

/-- `modbus_tcp_pdu_t`. -/
structure Pdu where
  length : UInt16 := 0
  uid : UInt8 := 0
  code : UInt8 := 0
  data : List UInt8 := []
  deriving DecidableEq, Repr

/-- `modbus_tcp_adu_t`. -/
structure Adu where
  tid : UInt16 := 0
  pid : UInt16 := 0
  pdu : Pdu := {}
  deriving DecidableEq, Repr

/-- `queue_entry_t`, with the number of its request. -/
structure Entry where
  sync : Bool := false
  timeout : UInt32 := 0
  context : ℕ := 0
  callbacks : Callbacks := {}
  next : Option ℕ := none
  msgLength : ℕ := 0
  adu : Adu := {}
  number : ℕ := 0
  deriving DecidableEq, Repr

/-- `modbus_session_t`, with the identity in its settings, if it has any. -/
structure Session where
  id : Option UInt8 := none
  connected : Bool := false
  txBusy : Bool := false
  deriving DecidableEq, Repr

/-- What a callback is told. -/
inductive Outcome
  | packet (context : ℕ) (rxLength : UInt8) (adu : List UInt8)
  | exception (code : UInt8) (context : ℕ)
  deriving DecidableEq, Repr

/-- What has become of the requests, by their numbers. -/
inductive Event
  | transmitted (request : ℕ) (adu : Adu) (msgLength : ℕ)
  | replied (request : ℕ)
  | expired (request : ℕ)
  | unlinked (request : ℕ)
  | outcome (request : ℕ) (outcome : Outcome)
  deriving DecidableEq, Repr

/-- What `modbus_process` is told: the clock, and whether TCP takes the frame of an entry. -/
structure Env where
  ticks : UInt32 := 0
  write : ℕ → Bool := fun _ => true

/-- `pbuf`, with the memory from its payload on. -/
structure Packet where
  totLen : ℕ
  payload : ℕ → UInt8

namespace Packet

variable (p : Packet)

/-- A number of two bytes. -/
def word (i : ℕ) : UInt16 := ((p.payload i).toUInt16 <<< 8) ||| (p.payload (i + 1)).toUInt16

def tid : UInt16 := p.word 0

def length : UInt16 := p.word 4

def code : UInt8 := p.payload 7

/-- What is copied to a message. -/
def adu : List UInt8 :=
  p.payload 6 :: p.code :: (List.range (p.length.toNat - 2)).map fun i => p.payload (8 + i)

/-- `lwip_htons`. -/
def lwipHtons (n : UInt16) : UInt16 := (n <<< 8) ||| (n >>> 8)

/-- The code of an exception; its bytes are swapped although it is a single one. -/
def exceptionCode : UInt8 :=
  if (lwipHtons p.code.toUInt16).toUInt8 &&& 0x80 ≠ 0 then p.payload 8 else 0xFF

end Packet

/-- The part of a request that `length` tells is copied. -/
def Pdu.copy (pdu : Pdu) : Pdu where
  length := pdu.length
  uid := if 1 ≤ pdu.length then pdu.uid else 0
  code := if 2 ≤ pdu.length then pdu.code else 0
  data := pdu.data.take (pdu.length.toNat - 2)

/-- The entries and those allocated, and the entries that blocking sends wait for, the latest send
first; how many requests have been queued, and what has become of them, the latest first. -/
structure State where
  tid : UInt16 := 0
  queue : Option ℕ := none
  session : Fin nClients → Session := fun _ => {}
  entries : ℕ → Entry := fun _ => {}
  allocated : List ℕ := []
  waiting : List ℕ := []
  made : ℕ := 0
  history : List Event := []

/-- The state at first, with the identities of the units that have settings. -/
def State.init (id : Fin nClients → Option UInt8) : State := { session := fun i => { id := id i } }

namespace State

variable (alloc : Allocator) (s : State)

/-- What is read of an entry. -/
def entry (i : ℕ) : Option Entry := if i ∈ s.allocated then some (s.entries i) else none

def setEntry (i : ℕ) (e : Entry) : State := { s with entries := Function.update s.entries i e }

def setNext (i : ℕ) (next : Option ℕ) : State := s.setEntry i { s.entries i with next := next }

def setSession (idx : Fin nClients) (x : Session) : State :=
  { s with session := Function.update s.session idx x }

def log (event : Event) : State := { s with history := event :: s.history }

/-- The bound on the steps of a loop over the queue. -/
def bound : ℕ := s.allocated.length + 1

/-- The loops that look for an entry of the queue. -/
def scan (p : ℕ → Entry → Bool) : Option (Option ℕ × Option ℕ) :=
  Linked.scan s.entry Entry.next p s.bound none s.queue

/-- `free`. -/
def free (i : ℕ) : Option State :=
  if i ∈ s.allocated then some { s with allocated := s.allocated.erase i } else none

/-- An entry is taken out of the queue behind another one; without one the queue becomes empty. -/
def takeOut (qp : Option ℕ) (next : Option ℕ) : State :=
  match qp with
  | some p => s.setNext p next
  | none => { s with queue := none }

/-- `unlink_msg`. -/
def unlinkMsg (qd : ℕ) : Option (Option ℕ × State) :=
  (s.scan fun q _ => q = qd).bind fun
  | (qp, none) => some (qp, s)
  | (qp, some q) =>
    (s.entry q).bind fun e =>
      (((s.takeOut qp e.next).log (.unlinked e.number)).free q).map fun s => (qp, s)

/-- The search for the session of a unit. -/
def sessionOf (uid : UInt8) : List (Fin nClients) → Option (Option (Fin nClients))
  | [] => some none
  | idx :: rest =>
    (s.session idx).id.bind fun id => if id = uid then some (some idx) else sessionOf uid rest

/-- The session that a request is for, from the last one down. -/
def findSession (uid : UInt8) : Option (Option (Fin nClients)) := s.sessionOf uid [3, 2, 1, 0]

/-- The entry of a request. -/
def newEntry (pdu : Pdu) (callbacks : Option Callbacks) (context : ℕ) (block : Bool) : Entry where
  sync := block
  context := context
  callbacks := callbacks.getD {}
  msgLength := 6 + pdu.length.toNat
  adu := { tid := s.tid + 1, pdu := pdu.copy }
  number := s.made

/-- An entry is allocated and filled in. -/
def create (e : Entry) : State :=
  { s with
    tid := s.tid + 1
    entries := Function.update s.entries (alloc.malloc s.allocated) e
    allocated := alloc.malloc s.allocated :: s.allocated
    made := s.made + 1 }

/-- An entry is put behind the last one. -/
def append (i : ℕ) : Option State :=
  match s.queue with
  | none => some { s with queue := some i }
  | some _ =>
    (s.scan fun _ e => e.next.isNone).bind fun found =>
      found.2.map fun qa => s.setNext qa (some i)

/-- An entry is transmitted. -/
def transmit (idx : Fin nClients) (ticks : UInt32) (q : ℕ) (e : Entry) : State :=
  ((s.setEntry q { e with timeout := ticks }).setSession idx
    { s.session idx with txBusy := true }).log (.transmitted e.number e.adu e.msgLength)

/-- The timeout of an entry is told. -/
def expire (e : Entry) : State :=
  if e.callbacks.onRxException.isSome then
    (s.log (.outcome e.number (.exception 0 e.context))).log (.expired e.number)
  else s.log (.expired e.number)

/-- The loop over the queue goes on behind an entry, if there is one. -/
def follow (q : Option ℕ) : Option (Option ℕ) :=
  match q with
  | none => some none
  | some q => (s.entry q).map Entry.next

/-- The loop of `modbus_process` over the queue. -/
def processLoop (idx : Fin nClients) (env : Env) : ℕ → Option ℕ → State → Option State
  | _, none, s => some s
  | 0, some _, _ => none
  | fuel + 1, some q, s =>
    (s.entry q).bind fun e =>
      (s.session idx).id.bind fun id =>
        if id = e.adu.pdu.uid then
          if e.timeout = 0 then
            if env.write q then some (s.transmit idx env.ticks q e)
            else processLoop idx env fuel e.next s
          else if 50 ≤ env.ticks - e.timeout then
            ((s.expire e).unlinkMsg q).bind fun r =>
              (r.2.follow r.1).bind fun next => processLoop idx env fuel next r.2
          else processLoop idx env fuel e.next s
        else processLoop idx env fuel e.next s

/-- `modbus_process` without a packet. -/
def process (idx : Fin nClients) (env : Env) : Option State :=
  if (s.session idx).txBusy then some s else processLoop idx env s.bound s.queue s

/-- The callbacks of an entry are told of a reply. -/
def answer (p : Packet) (e : Entry) : Option State :=
  if e.adu.pdu.code ≠ p.code then
    some (if e.callbacks.onRxException.isSome then
      s.log (.outcome e.number (.exception p.exceptionCode e.context)) else s)
  else if e.callbacks.onRxPacket.isSome then
    if 2 ≤ p.length.toNat ∧ p.length.toNat ≤ maxAduSize then
      some (s.log (.outcome e.number (.packet e.context p.length.toUInt8 p.adu)))
    else none
  else some s

/-- The request of an entry has been replied to. -/
def settle (q : ℕ) (e : Entry) : Option State :=
  if e.sync then some (s.setEntry q { e with sync := false })
  else (s.unlinkMsg q).map Prod.snd

/-- `modbus_process` with a packet. -/
def processPacket (p : Packet) : Option State :=
  if p.totLen < 8 then some s
  else
    (s.scan fun _ e => e.adu.tid = p.tid).bind fun found =>
      match found.2 with
      | none => some s
      | some q =>
        (s.entry q).bind fun e =>
          (s.answer p e).bind fun s => (s.log (.replied e.number)).settle q e

/-- A blocking send that stops to wait has found that its request has timed out, unless it has been
replied to or not been transmitted. -/
def stopWaiting (e : Entry) (waiting : List ℕ) : State :=
  if e.sync ∧ e.timeout ≠ 0 then
    ({ s with waiting := waiting } : State).log (.expired e.number)
  else { s with waiting := waiting }

/-- The condition of the loop of a blocking send, and its end. -/
def turn (ticks : UInt32) : Option State :=
  match s.waiting with
  | [] => some s
  | q :: waiting =>
    (s.entry q).bind fun e =>
      if e.sync ∧ ticks - e.timeout < 50 then some s
      else ((s.stopWaiting e waiting).unlinkMsg q).map Prod.snd

/-- A blocking send has queued its request. -/
def block (q : ℕ) (before : UInt32) (idx : Fin nClients) (env : Env) : Option State :=
  (({ s with waiting := q :: s.waiting } : State).process idx env).bind fun s => s.turn before

/-- `modbus_tcp_send`: what it returns, at once or when it has stopped to wait. -/
def modbusTcpSend (before : UInt32) (env : Env) (pdu : Pdu) (callbacks : Option Callbacks)
    (context : ℕ) (block : Bool) : Option (Bool × State) :=
  (s.findSession pdu.uid).bind fun
  | none => some (false, s)
  | some idx =>
    if pdu.uid = 0 then some (false, s)
    else
      ((s.create alloc (s.newEntry pdu callbacks context block)).append
        (alloc.malloc s.allocated)).bind fun s' =>
          if block then
            (s'.block (alloc.malloc s.allocated) before idx env).map fun s' => (true, s')
          else some (true, s')

/-- A turn of `modbus_tcp_client_poll`, which is made for each session. -/
def modbusTcpClientPoll (idx : Fin nClients) (env : Env) : Option State :=
  if (s.session idx).connected then s.process idx env else some s

/-- `modbus_tcp_sent`. -/
def modbusTcpSent (idx : Fin nClients) (env : Env) : Option State :=
  (s.setSession idx { s.session idx with txBusy := false }).process idx env

/-- `modbus_tcp_connected`, `modbus_tcp_err` and `modbus_tcp_close`. -/
def setConnected (idx : Fin nClients) (connected : Bool) : State :=
  s.setSession idx { s.session idx with connected := connected }

end State

/-- The calls, and the return of the realtime code to a blocking send. -/
inductive Op
  | send (before : UInt32) (env : Env) (pdu : Pdu) (callbacks : Option Callbacks) (context : ℕ)
    (block : Bool)
  | goOn (ticks : UInt32)
  | poll (idx : Fin nClients) (env : Env)
  | sent (idx : Fin nClients) (env : Env)
  | recv (p : Packet)
  | connect (idx : Fin nClients) (connected : Bool)

/-- A call; none when an earlier one had no result. -/
def exec (alloc : Allocator) (o : Option State) : Op → Option State
  | .send before env pdu callbacks context block =>
    o.bind fun s => (s.modbusTcpSend alloc before env pdu callbacks context block).map Prod.snd
  | .goOn ticks => o.bind fun s => s.turn ticks
  | .poll idx env => o.bind fun s => s.modbusTcpClientPoll idx env
  | .sent idx env => o.bind fun s => s.modbusTcpSent idx env
  | .recv p => o.bind fun s => s.processPacket p
  | .connect idx connected => o.map fun s => s.setConnected idx connected

end ModbusTcp

end Inspector
