import Inspector.Cyclic.Queue
import Inspector.Transition.Run

/-! # Suspended input

While a tool is changed the input of a stream is suspended until it is acknowledged; then the
receive buffer is kept in a backup, which takes its place again when the input is resumed.
Characters are of any type. Each call, and the interrupt for a character received, is one step.
-/

namespace Inspector

namespace Suspend

variable {n : ℕ} {α : Type*}

/-- `stream_rx_buffer_t`. -/
structure RxBuffer (n : ℕ) (α : Type*) extends Cyclic.Queue n α where
  rtsState : Bool := false
  overflow : Bool := false
  backup : Bool := false

/-- A function that reads characters, of the stream itself or `stream_get_null`. -/
inductive Reader
  | own
  | null
  deriving DecidableEq, Repr

/-- A function that is given the characters received. -/
inductive Handler
  | normal
  | awaitToolchangeAck
  deriving DecidableEq, Repr

/-- The receive buffer of the driver and its handler, the backup, `hal.stream.read`, and the three
fields of `stream_state_t`; its `rxbuffer` is null or the receive buffer. -/
structure State (n : ℕ) (α : Type*) where
  rxbuffer : RxBuffer n α
  rxbackup : RxBuffer n α
  handler : Handler := .normal
  halRead : Reader := .own
  rxbufferSet : Bool := false
  streamRead : Reader := .own
  enqueueRealtimeCommand : Option Handler := none

namespace State

/-- All is zero at first. -/
def init (n : ℕ) (zero : α) : State n α where
  rxbuffer := { data := fun _ => zero, head := 0, tail := 0 }
  rxbackup := { data := fun _ => zero, head := 0, tail := 0 }

variable (isAck : α → Bool) (s : State n α)

/-- `set_enqueue_rt_handler` of the driver. -/
def setEnqueueRtHandler (handler : Option Handler) : State n α :=
  { s with handler := handler.getD s.handler }

/-- What `await_toolchange_ack` does when the tool change is acknowledged. -/
def acknowledge : State n α :=
  { ({ s with
      rxbackup := s.rxbuffer
      rxbuffer := { s.rxbuffer with backup := true, tail := s.rxbuffer.head }
      halRead := s.streamRead } : State n α).setEnqueueRtHandler s.enqueueRealtimeCommand with
    enqueueRealtimeCommand := none }

/-- What the handler does with a character, and whether it takes it; other handlers have decided
whether it is a realtime command. There is no result when a null pointer is called, or a function
calls itself for ever. -/
def enqueue (c : α) (realtime : Bool) : Option (Bool × State n α) :=
  match s.handler with
  | .normal => some (realtime, s)
  | .awaitToolchangeAck =>
    if isAck c ∧ ¬s.rxbuffer.backup then some (true, s.acknowledge)
    else if s.enqueueRealtimeCommand = some .normal then some (realtime, s)
    else none

/-- A character is put in the receive buffer, unless it is full. -/
def putC (c : α) : Bool × State n α :=
  if Cyclic.next s.rxbuffer.head = s.rxbuffer.tail then
    (false, { s with rxbuffer := { s.rxbuffer with overflow := true } })
  else (true, { s with rxbuffer := { s.rxbuffer with toQueue := s.rxbuffer.toQueue.put c } })

/-- The interrupt: whether the character is accepted into the receive buffer. -/
def receive (c : α) (realtime : Bool) : Option (Bool × State n α) :=
  (s.enqueue isAck c realtime).map fun
    | (true, s) => (false, s)
    | (false, s) => s.putC c

/-- `serialRead`. -/
def serialRead : Option α × State n α :=
  if s.rxbuffer.tail = s.rxbuffer.head then (none, s)
  else
    (some (s.rxbuffer.data s.rxbuffer.tail),
      { s with rxbuffer := { s.rxbuffer with toQueue := s.rxbuffer.toQueue.drop } })

/-- `hal.stream.read`. -/
def read : Option α × State n α :=
  match s.halRead with
  | .own => s.serialRead
  | .null => (none, s)

/-- The handlers are restored when no acknowledge has done so. -/
def restore : State n α :=
  if s.enqueueRealtimeCommand.isSome then
    { ({ s with halRead := s.streamRead } : State n α).setEnqueueRtHandler
        s.enqueueRealtimeCommand with
      enqueueRealtimeCommand := none }
  else s

/-- `stream_rx_suspend`, for the receive buffer of the driver. -/
def streamRxSuspend (suspend : Bool) : Bool × State n α :=
  if suspend then
    if s.rxbufferSet then (false, s)
    else
      (true,
        { s with
          rxbufferSet := true
          streamRead := s.halRead
          enqueueRealtimeCommand := some s.handler
          handler := .awaitToolchangeAck
          halRead := .null })
  else if s.rxbufferSet then
    (true,
      { (if s.rxbuffer.backup then { s with rxbuffer := s.rxbackup } else s).restore with
        rxbufferSet := false })
  else (false, s)

end State

/-- The interrupt for a character and the calls. -/
inductive Op (α : Type*)
  | receive (c : α) (realtime : Bool)
  | read
  | suspend (suspend : Bool)
  deriving DecidableEq

/-- A stream with the characters that it has accepted and that have been delivered. -/
structure Session (n : ℕ) (α : Type*) where
  state : State n α
  accepted : List α := []
  delivered : List α := []

namespace Session

def receive (isAck : α → Bool) (x : Session n α) (c : α) (realtime : Bool) :
    Option (Session n α) :=
  (x.state.receive isAck c realtime).map fun r =>
    { x with state := r.2, accepted := if r.1 then x.accepted ++ [c] else x.accepted }

def read (x : Session n α) : Session n α :=
  { x with state := x.state.read.2, delivered := x.delivered ++ x.state.read.1.toList }

def suspend (x : Session n α) (suspend : Bool) : Session n α :=
  { x with state := (x.state.streamRxSuspend suspend).2 }

end Session

def exec (isAck : α → Bool) (x : Option (Session n α)) : Op α → Option (Session n α)
  | .receive c realtime => x.bind fun x => x.receive isAck c realtime
  | .read => x.map Session.read
  | .suspend suspend => x.map fun x => x.suspend suspend

end Suspend

end Inspector
