import Inspector.Linked.Double

/-! # Stream connections

The connections of `stream.c` are the nodes of a doubly linked list whose first one, the base, is
allocated statically; the stream that is active is copied to `hal.stream`. No MPG stream is
registered. Messages and the handlers that are told about a change are left out.
-/

namespace Inspector

namespace Streams

/-- `stream_type_t`. -/
inductive StreamType
  | Serial
  | MPG
  | Bluetooth
  | Telnet
  | WebSocket
  | File
  | Redirected
  | Null
  deriving DecidableEq, Repr

/-- What is read of an `io_stream_t`. -/
structure IoStream where
  type : StreamType
  inst : ℕ
  isUsb : Bool
  isConnected : Bool
  deriving DecidableEq, Repr

/-- The functions that tell whether a connection is up; a stream may have one of its own. -/
inductive IsUp (S : Type*)
  | streamConnected
  | isNotConnected
  | handler (stream : S)
  deriving DecidableEq, Repr

/-- `stream_connection_t`. -/
structure Node (S : Type*) where
  stream : Option S := none
  isUp : Option (IsUp S) := none
  next : Option ℕ := none
  prev : Option ℕ := none

/-- `malloc` returns an address that is not in use. -/
structure Allocator where
  malloc : List ℕ → ℕ
  fresh : ∀ used, malloc used ∉ used

/-- The first free address. -/
def firstFit : Allocator where
  malloc used := used.foldr max 0 + 1
  fresh used h := by
    have hle : ∀ (used : List ℕ), ∀ i ∈ used, i ≤ used.foldr max 0 := by
      intro used
      induction used with
      | nil => exact fun i => nofun
      | cons j used ih =>
        intro i hi
        rcases List.mem_cons.mp hi with rfl | hi
        · exact Nat.le_max_left _ _
        · exact (ih i hi).trans (Nat.le_max_right _ _)
    exact absurd (hle used _ h) (Nat.not_succ_le_self _)

/-- The connections, the base at address zero, and those allocated; the stream that `hal.stream` is
a copy of, and its `is_connected`. -/
structure State (S : Type*) where
  nodes : ℕ → Node S := fun _ => {}
  allocated : List ℕ := []
  hal : Option S := none
  halIsConnected : Option (IsUp S) := none
  activeStream : Option S := none

namespace State

variable {S : Type*} [DecidableEq S] (io : S → IoStream) (alloc : Allocator) (s : State S)

def next (i : ℕ) : Option ℕ := (s.nodes i).next

def prev (i : ℕ) : Option ℕ := (s.nodes i).prev

def setNode (i : ℕ) (f : Node S → Node S) : State S :=
  { s with nodes := Function.update s.nodes i (f (s.nodes i)) }

def setNext (i : ℕ) (v : Option ℕ) : State S := s.setNode i fun n => { n with next := v }

def setPrev (i : ℕ) (v : Option ℕ) : State S := s.setNode i fun n => { n with prev := v }

def setIsUp (i : ℕ) (v : Option (IsUp S)) : State S := s.setNode i fun n => { n with isUp := v }

/-- `base.stream`. -/
def base : Option S := (s.nodes 0).stream

/-- The bound on the steps of a loop over the connections. -/
def bound : ℕ := s.allocated.length + 1

/-- The handler of a stream, if it has one. -/
def handler (stream : S) : Option (IsUp S) :=
  if (io stream).isConnected then some (.handler stream) else none

/-- The stream of a connection has the type, the instance and the kind of port that are asked for. -/
def same (properties : IoStream) (i : ℕ) : Bool :=
  (s.nodes i).stream.any fun x =>
    (io x).type = properties.type ∧ (io x).inst = properties.inst ∧ (io x).isUsb = properties.isUsb

/-- `connection_is_up`, for a stream with the given handler and properties; only a message depends
on the answer. -/
def connectionIsUp (isConnected : Option (IsUp S)) (properties : IoStream) : Option (State S) :=
  if isConnected.isSome then some s
  else
    (Linked.search s.next (s.same io properties) s.bound none (some 0)).map fun
      | some (_, i) =>
        if properties.isUsb then s.setIsUp i (some .isNotConnected) else s
      | none => s

/-- `connection_is_up` of `hal.stream`, which is zero at first. -/
def halIsUp : Option (State S) :=
  s.connectionIsUp io s.halIsConnected (s.hal.elim ⟨.Serial, 0, false, false⟩ io)

/-- What `is_up` of a new connection is. -/
def up (stream : S) : IsUp S :=
  if (io stream).isConnected then .handler stream
  else if (io stream).isUsb ∧ s.base ≠ some stream then .isNotConnected
  else .streamConnected

/-- A new connection is put behind the last one. -/
def link (connection last : ℕ) (stream : S) : State S :=
  (({ s with allocated := connection :: s.allocated } : State S).setNode connection
    fun _ => { stream := some stream, prev := some last }).setNext last (some connection)

/-- `add_connection`: the connection, or none when the stream has one. -/
def addConnection (stream : S) : Option (Option ℕ × State S) :=
  match s.base with
  | none =>
    let s₁ := s.setNode 0 fun n => { n with stream := some stream }
    some (some 0, s₁.setIsUp 0 (some (s₁.up io stream)))
  | some _ =>
    let connection := alloc.malloc (0 :: s.allocated)
    (Linked.seek s.next (fun i => (s.nodes i).stream = some stream) s.bound 0).map fun last =>
      if (s.next last).isSome then (none, s)
      else
        (some connection,
          (s.link connection last stream).setIsUp connection (some (s.up io stream)))

/-- A connection is taken out behind another one. -/
def unlink (connection prev : ℕ) : State S :=
  match s.next connection with
  | some next => (s.setNext prev (some next)).setPrev next (s.prev connection)
  | none => s.setNext prev none

/-- The loop of `stream_select` that takes out a connection: the stream of the one in front of it,
or none when there is no connection. -/
def removeConnection (stream : S) : Option (Option S × State S) :=
  (Linked.search s.next (fun i => (s.nodes i).stream = some stream) s.bound none (s.next 0)).bind
    fun
    | none => some (none, s)
    | some (_, connection) =>
      (s.prev connection).bind fun prev =>
        (s.nodes prev).stream.map fun stream =>
          (some stream,
            { s.unlink connection prev with allocated := s.allocated.erase connection })

/-- A stream is copied to `hal.stream`. -/
def copy (stream : S) : State S :=
  { s with hal := some stream, halIsConnected := handler io stream }

/-- The base is up when it becomes active. -/
def reviveBase (stream : S) : State S :=
  if s.base = some stream ∧ (s.nodes 0).isUp = some .isNotConnected then
    s.setIsUp 0 (some .streamConnected)
  else s

/-- The active stream is told whether it is connected, and kept. -/
def finish (stream : S) : State S :=
  { s with
    halIsConnected :=
      if s.halIsConnected.isSome then s.halIsConnected
      else if s.base = some stream then (s.nodes 0).isUp
      else some .streamConnected
    activeStream := some stream }

/-- The end of `stream_select`: a stream becomes the active one. -/
def activate (stream : S) : State S := ((s.copy io stream).reviveBase stream).finish stream

/-- What is asked of the connections before a stream becomes active. -/
def announce (stream : S) : Option (State S) :=
  match (io stream).type with
  | .Serial =>
    if s.activeStream.any fun x => (io x).type ≠ .Serial then
      s.connectionIsUp io (handler io stream) (io stream)
    else some s
  | .Telnet => s.halIsUp io
  | .WebSocket => s.halIsUp io
  | .Bluetooth => s.halIsUp io
  | _ => some s

/-- `stream_select`: its result, and none when it does not end or follows a null pointer. -/
def streamSelect (stream : S) (add : Bool) : Option (Bool × State S) :=
  if s.base = some stream then
    let up : IsUp S :=
      if add then if (io stream).isConnected then .handler stream else .streamConnected
      else .isNotConnected
    some (true, s.setIsUp 0 (some up))
  else if add then
    (s.addConnection io alloc stream).bind fun
      | (none, s) => some (false, s)
      | (some _, s) => (s.announce io stream).map fun s => (true, s.activate io stream)
  else
    (s.removeConnection stream).bind fun
      | (none, s) => some (false, s)
      | (some stream, s) => (s.announce io stream).map fun s => (true, s.activate io stream)

end State

/-- The calls of clients. -/
inductive Op (S : Type*)
  | connect (stream : S)
  | disconnect (stream : S)

variable {S : Type*} [DecidableEq S]

/-- `stream_connect` and `stream_disconnect`. -/
def exec (io : S → IoStream) (alloc : Allocator) (s : Option (State S)) : Op S → Option (State S)
  | .connect stream => s.bind fun s => (s.streamSelect io alloc stream true).map Prod.snd
  | .disconnect stream => s.bind fun s => (s.streamSelect io alloc stream false).map Prod.snd

end Streams

end Inspector
