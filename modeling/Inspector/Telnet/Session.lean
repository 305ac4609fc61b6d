import Inspector.Cyclic.Queue

/-! # Telnet session

The receive and transmit buffers of `telnetd.c`, the packet that is kept when the receive buffer is
full, and the buffer that is handed to TCP. What TCP answers is given with each call. Characters are
of any type; none is a realtime command. A call has no result when it reads outside of `txbuf`. The
flags of the buffers, times and the window of TCP are left out.
-/

namespace Inspector

namespace Telnet

variable {n m : ℕ} {α : Type*}

/-- A chain of `pbuf`; each of them holds data. -/
structure Pbuf (α : Type*) where
  payload : List α
  next : List (List α)
  payload_ne_nil : payload ≠ []
  next_ne_nil : ∀ l ∈ next, l ≠ []

/-- All the characters of a chain. -/
def Pbuf.chars (p : Pbuf α) : List α := p.payload ++ p.next.flatten

/-- `packet_chain_t`: what is left of the part in hand, and the parts behind it. -/
structure PacketChain (α : Type*) where
  payload : List α
  next : List (List α)

def PacketChain.chars (p : PacketChain α) : List α := p.payload ++ p.next.flatten

/-- What `tcp_write` returns. -/
inductive Err
  | OK
  | MEM
  | other
  deriving DecidableEq, Repr

/-- The answers of TCP: to a write of a length, and whether too many segments are queued. -/
structure Tcp where
  write : ℕ → Err
  queueFull : ℕ → Bool

/-- The length that is tried after one for which there is no memory. -/
def Tcp.smaller (tcp : Tcp) (len : ℕ) : ℕ := if tcp.queueFull len then 1 else len / 2

/-- The session, with a receive buffer of `n + 1` and a transmit buffer of `m + 1` places. A write
that waits for space has a character and the place it computed for the head; those that began later
are in front. `txbuf` and `tx_len` are static. -/
structure State (n m : ℕ) (α : Type*) where
  rxbuf : Cyclic.Queue n α
  transmit : Cyclic.Queue m α
  packet : Option (PacketChain α) := none
  waiting : List (α × Fin (m + 1)) := []
  txbuf : ℕ → α
  txLen : ℕ := 0

namespace State

variable (tcp : Tcp) (s : State n m α)

/-- `telnet_accept`: the session is set to its defaults. -/
def telnetAccept (zero : α) : State n m α :=
  { s with
    rxbuf := ⟨fun _ => zero, 0, 0⟩
    transmit := ⟨fun _ => zero, 0, 0⟩
    packet := none
    waiting := [] }

/-- `streamGetC`. -/
def streamGetC : Option α × State n m α :=
  if s.rxbuf.tail = s.rxbuf.head then (none, s)
  else (some (s.rxbuf.data s.rxbuf.tail), { s with rxbuf := s.rxbuf.drop })

/-- `streamPutC`: it waits while the buffer is full. -/
def streamPutC (c : α) : State n m α :=
  if s.transmit.tail = Cyclic.next s.transmit.head then
    { s with waiting := (c, Cyclic.next s.transmit.head) :: s.waiting }
  else { s with transmit := s.transmit.put c }

/-- A write that has waited puts its character; the head is set to the place computed before. -/
def putAt (c : α) (nextHead : Fin (m + 1)) : State n m α :=
  { s with transmit := { s.transmit.put c with head := nextHead } }

/-- The write that began last looks for space again: the character it has put, if any. -/
def streamResume : Option α × State n m α :=
  match s.waiting with
  | [] => (none, s)
  | (c, nextHead) :: waiting =>
    if s.transmit.tail = nextHead then (none, s)
    else (some c, { s.putAt c nextHead with waiting := waiting })

/-- The loop over one part of a packet: what is left of it when the receive buffer is full. -/
def takePart (rx : Cyclic.Queue n α) : List α → Cyclic.Queue n α × List α
  | [] => (rx, [])
  | c :: cs => if Cyclic.next rx.head = rx.tail then (rx, c :: cs) else takePart (rx.put c) cs

/-- The loop over a packet: what is left of it, if anything. -/
def takePacket (rx : Cyclic.Queue n α) (payload : List α) :
    List (List α) → Cyclic.Queue n α × Option (PacketChain α)
  | [] =>
    match takePart rx payload with
    | (rx, []) => (rx, none)
    | (rx, rest) => (rx, some ⟨rest, []⟩)
  | l :: next =>
    match takePart rx payload with
    | (rx, []) => takePacket rx l next
    | (rx, rest) => (rx, some ⟨rest, l :: next⟩)

/-- The pending packet is processed. -/
def input : State n m α :=
  match s.packet with
  | none => s
  | some p =>
    { s with
      rxbuf := (takePacket s.rxbuf p.payload p.next).1
      packet := (takePacket s.rxbuf p.payload p.next).2 }

/-- A character is moved from the transmit buffer to `txbuf`. -/
def pull : State n m α :=
  { s with
    txbuf := Function.update s.txbuf s.txLen (s.transmit.data s.transmit.tail)
    txLen := s.txLen + 1
    transmit := s.transmit.drop }

/-- The loop that fills `txbuf`. -/
def fill : ℕ → State n m α → State n m α
  | 0, s => s
  | k + 1, s => fill k s.pull

/-- `txbuf` is filled when it is empty. -/
def refill : State n m α := if s.txLen = 0 then fill s.transmit.contents.length s else s

/-- The loop that tries smaller and smaller lengths. -/
def tcpWrite : ℕ → ℕ → Err × ℕ
  | 0, len => (.MEM, len)
  | fuel + 1, len =>
    match tcp.write len with
    | .OK => (.OK, len)
    | .other => (.other, len)
    | .MEM =>
      if 1 < tcp.smaller len then tcpWrite fuel (tcp.smaller len) else (.MEM, tcp.smaller len)

/-- `memmove` of `txbuf` after a part of it has been taken. -/
def shift (len : ℕ) : State n m α :=
  { s with
    txbuf := fun i => if i < s.txLen - len then s.txbuf (len + 1 + i) else s.txbuf i
    txLen := s.txLen - len }

/-- The characters in `txbuf`. -/
def buffered : List α := (List.range s.txLen).map s.txbuf

/-- What TCP has taken is taken out of `txbuf`, whose last place is `m`. -/
def sent (len : ℕ) : Option (State n m α) :=
  if s.txLen = len then some { s with txLen := 0 }
  else if s.txLen ≤ m then some (s.shift len)
  else none

/-- `txbuf` is handed to TCP: what TCP has taken of it. -/
def transmitBuffer : Option (List α × State n m α) :=
  if s.txLen = 0 then some ([], s)
  else
    match tcpWrite tcp s.txLen s.txLen with
    | (.OK, len) => (s.sent len).map fun s' => (s.buffered.take len, s')
    | _ => some ([], s)

/-- `telnet_stream_handler`. -/
def telnetStreamHandler : Option (List α × State n m α) := s.input.refill.transmitBuffer tcp

/-- `telnet_recv`, for a packet without an error. -/
def telnetRecv (p : Pbuf α) : Option (List α × State n m α) :=
  if s.packet.isSome then some ([], s)
  else
    match takePacket s.rxbuf p.payload p.next with
    | (rx, none) => ({ s with rxbuf := rx } : State n m α).telnetStreamHandler tcp
    | (rx, some rest) => some ([], { s with rxbuf := rx, packet := some rest })

end State

/-- The calls. A packet is received; the handler runs after a poll, or when TCP has sent something;
a character is read; a character is written; and a write that waits looks for space again, or is
given up. -/
inductive Op (α : Type*)
  | recv (p : Pbuf α) (tcp : Tcp)
  | handler (tcp : Tcp)
  | read
  | write (c : α)
  | resume
  | giveUp

/-- A connection: what has been received and read, and what has been written and accepted by TCP. -/
structure Connection (n m : ℕ) (α : Type*) where
  state : State n m α
  received : List α := []
  read : List α := []
  written : List α := []
  accepted : List α := []

namespace Connection

variable (x : Connection n m α)

def recv (p : Pbuf α) (tcp : Tcp) : Option (Connection n m α) :=
  (x.state.telnetRecv tcp p).map fun r =>
    { x with state := r.2, received := x.received ++ p.chars, accepted := x.accepted ++ r.1 }

def handler (tcp : Tcp) : Option (Connection n m α) :=
  (x.state.telnetStreamHandler tcp).map fun r =>
    { x with state := r.2, accepted := x.accepted ++ r.1 }

def getC : Connection n m α :=
  { x with state := x.state.streamGetC.2, read := x.read ++ x.state.streamGetC.1.toList }

/-- A character is written when it is put in the buffer. -/
def putC (c : α) : Connection n m α :=
  { x with
    state := x.state.streamPutC c
    written :=
      if x.state.transmit.tail = Cyclic.next x.state.transmit.head then x.written
      else x.written ++ [c] }

def resume : Connection n m α :=
  { x with state := x.state.streamResume.2, written := x.written ++ x.state.streamResume.1.toList }

def giveUp : Connection n m α :=
  { x with state := { x.state with waiting := x.state.waiting.tail } }

end Connection

def exec (x : Option (Connection n m α)) : Op α → Option (Connection n m α)
  | .recv p tcp => x.bind fun x => x.recv p tcp
  | .handler tcp => x.bind fun x => x.handler tcp
  | .read => x.map Connection.getC
  | .write c => x.map fun x => x.putC c
  | .resume => x.map Connection.resume
  | .giveUp => x.map Connection.giveUp

end Telnet

end Inspector
