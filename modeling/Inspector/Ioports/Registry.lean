import Inspector.Slots.TwoEnded

/-! # The auxiliary port registry

Drivers and plugins register tables of pins, and the ports of a type and direction are numbered on
from one table to the next. A map leads from the port numbers in use to these physical ports. A port
that is claimed leaves its number to the port behind it and gets the highest number that is free.
-/

namespace Inspector

namespace Ioports

/-- `io_port_type_t`. -/
inductive PortType
  | analog
  | digital
  deriving DecidableEq, Repr

/-- `io_port_direction_t`. -/
inductive Direction
  | input
  | output
  deriving DecidableEq, Repr

/-- One value for each direction. -/
def Direction.pick {α : Type*} (input output : α) : Direction → α
  | .input => input
  | .output => output

def MAX_PORTS : ℕ := 24

def IOPORT_UNASSIGNED : ℕ := 255

/-- `n_max`: `N_AUX_AIN_MAX`, `N_AUX_AOUT_MAX`, `N_AUX_DIN_MAX` and `N_AUX_DOUT_MAX`. -/
def nMax : PortType → ℕ
  | .analog => 8
  | .digital => 24

/-- `min_fn`, as the number of a `pin_function_t`. -/
def minFn : PortType → Direction → ℕ
  | .digital, .input => 66
  | .analog, .input => 90
  | .digital, .output => 152
  | .analog, .output => 176

def maxFn : PortType → Direction → ℕ
  | .digital, .input => 89
  | .analog, .input => 97
  | .digital, .output => 175
  | .analog, .output => 183

/-- The function is that of an auxiliary port. -/
def isAux (t : PortType) (d : Direction) (function : ℕ) : Bool :=
  minFn t d ≤ function ∧ function ≤ maxFn t d

/-- A pin in the table of a driver, with the claimed flag of its mode. -/
structure Pin where
  function : ℕ
  claimed : Bool := false
  deriving DecidableEq, Repr

/-- The record of a pin that is given out, `xbar_t`. -/
structure Xbar where
  id : ℕ
  function : ℕ
  claimable : Bool
  claimed : Bool
  deriving DecidableEq, Repr

/-- `io_ports_detail_t`. -/
structure Detail where
  nPorts : ℕ
  nStart : ℕ
  idxLast : ℕ
  deriving DecidableEq, Repr

/-- `io_ports_list_t`: a registered table of pins. -/
structure PortsList where
  type : PortType
  portsId : Direction → Detail
  pins : Direction → ℕ → Pin

/-- `io_ports_private_t`. There is no value in `free` before the ports are counted. -/
structure Private where
  ports : Bool := false
  claimed : BitVec 32 := 0
  lastClaimed : ℕ
  free : Option ℕ := none
  nPorts : ℕ := 0
  map : ℕ → ℕ := fun _ => 0
  pnum : Bool := false

structure State where
  portsCfg : PortType → Direction → Private
  ports : List PortsList
  hal : Bool

def State.init : State where
  portsCfg t _ := { lastClaimed := nMax t - 1 }
  ports := []
  hal := false

/-- `XBAR_SET_DIN_INFO` and `XBAR_SET_DOUT_INFO`. -/
def Pin.xbar (p : Pin) (id : ℕ) : Xbar :=
  { id := id, function := p.function, claimable := !p.claimed, claimed := p.claimed }

namespace PortsList

/-- The handler of a driver. -/
def getPinInfo (io : PortsList) (d : Direction) (port : ℕ) : Option Xbar :=
  if port < (io.portsId d).nPorts then some ((io.pins d port).xbar port) else none

def isMatch (io : PortsList) (t : PortType) (d : Direction) (port : ℕ) : Bool :=
  io.type = t ∧ (io.portsId d).nStart ≤ port ∧ port ≤ (io.portsId d).idxLast

end PortsList

namespace Private

/-- The first place of the map that holds a value. The search runs out of the map when there is
none. -/
def search (cfg : Private) (value : ℕ) : Option ℕ :=
  (List.range MAX_PORTS).find? fun idx => cfg.map idx = value

/-- The loop of `map_reverse`, down from the place below `idx`. -/
def mapReverseFrom (cfg : Private) (port : ℕ) : ℕ → ℕ
  | 0 => port
  | idx + 1 => if cfg.map idx = port then idx else cfg.mapReverseFrom port idx

def mapReverse (cfg : Private) (t : PortType) (port : ℕ) : ℕ := cfg.mapReverseFrom port (nMax t)

def resolvePortnum (cfg : Private) (t : PortType) (d : Direction) (port : Xbar) : ℕ :=
  if isAux t d port.function then port.function - minFn t d else cfg.mapReverse t port.id

/-- What `io_get_pin_info` makes of the answer of one table. The claimed flag of a record is one bit
wide, and gets the lowest one of what is assigned to it. -/
def pinInfo (cfg : Private) (t : PortType) (d : Direction) (port : ℕ) (io : PortsList) : Option Xbar :=
  if io.isMatch t d port then
    (io.getPinInfo d (port - (io.portsId d).nStart)).map fun pin =>
      { pin with
        claimable := isAux t d pin.function
        claimed := (cfg.claimed &&& 1#32 <<< (pin.id + (io.portsId d).nStart)).getLsbD 0 }
  else none

/-- A port is claimed: those behind it move down and it gets the last number that is not taken. -/
def claim (cfg : Private) (port : ℕ) : Option (Private × ℕ) := do
  let idx ← cfg.search port
  if cfg.lastClaimed < MAX_PORTS then
    return ({ cfg with
      claimed := cfg.claimed ||| 1#32 <<< port
      map := Function.update (Slots.shiftDown cfg.map idx (cfg.lastClaimed - idx)) cfg.lastClaimed port
      lastClaimed := (cfg.lastClaimed + 255) % 256 }, cfg.lastClaimed)
  else none

/-- The loop of `io_claim` over the registered tables. -/
def claimLoop (cfg : Private) (t : PortType) (d : Direction) (port : ℕ) :
    List PortsList → Bool → Option (Bool × Private × ℕ)
  | [], ok => some (ok, cfg, port)
  | io :: rest, ok =>
    if io.isMatch t d port then
      match io.getPinInfo d (port - (io.portsId d).nStart) with
      | some pin =>
        if pin.claimable then (cfg.claim port).map (true, ·)
        else cfg.claimLoop t d port rest true
      | none => cfg.claimLoop t d port rest false
    else cfg.claimLoop t d port rest ok

/-- `add_ports` for one direction, with what it stores in the table. -/
def addPorts (cfg : Private) (t : PortType) (n : ℕ) : Private × Detail :=
  if n ≠ 0 then
    let m := if nMax t < cfg.nPorts + n then nMax t - cfg.nPorts else n
    ({ cfg with ports := true, nPorts := cfg.nPorts + m },
      { nPorts := m, nStart := cfg.nPorts, idxLast := cfg.nPorts + m - 1 })
  else (cfg, { nPorts := 0, nStart := 255, idxLast := 0 })

/-- The loop of `_ioports_add` for one direction: the ports of the table are entered in the map. -/
def enter (detail : Detail) : List ℕ → (ℕ → ℕ) → ℕ → Option (ℕ → ℕ)
  | [], map, _ => some map
  | i :: is, map, idx =>
    if detail.nPorts ≠ 0 ∧ detail.nStart ≤ i ∧ i ≤ detail.idxLast then
      if idx < MAX_PORTS then enter detail is (Function.update map idx i) (idx + 1) else none
    else enter detail is map idx

/-- The map that `_ioports_add` enters ports in and the first place for them. -/
def firstFree (cfg : Private) (known : Bool) : Option ((ℕ → ℕ) × ℕ) :=
  if known then (cfg.search 255).map (cfg.map, ·)
  else some (fun i => if i < MAX_PORTS then 255 else cfg.map i, 0)

/-- The part of `_ioports_add` that is about the map of one direction. -/
def place (cfg : Private) (known : Bool) (detail : Detail) (nPorts : ℕ) : Option Private := do
  let (map, idx) ← cfg.firstFree known
  let map ← enter detail (List.range (nPorts + 1)) map idx
  return { cfg with map, pnum := true }

end Private

namespace State

def setCfg (s : State) (t : PortType) (d : Direction) (cfg : Private) : State :=
  { s with portsCfg := fun t' d' => if t' = t ∧ d' = d then cfg else s.portsCfg t' d' }

/-- `io_get_pin_info`. The map is not to be read behind its end. -/
def ioGetPinInfo (s : State) (t : PortType) (d : Direction) (port : ℕ) : Option (Option Xbar) :=
  let cfg := s.portsCfg t d
  if port < MAX_PORTS ∧ s.ports ≠ [] then
    some (s.ports.findSome? (cfg.pinInfo t d (cfg.map port)))
  else none

/-- `io_claim`. -/
def ioClaim (s : State) (t : PortType) (d : Direction) (port : ℕ) : Option (Bool × State × ℕ) :=
  let cfg := s.portsCfg t d
  if cfg.claimed &&& 1#32 <<< port = 0 then
    (cfg.claimLoop t d port s.ports false).map fun (ok, cfg', port') => (ok, s.setCfg t d cfg', port')
  else some (false, s, port)

/-- The loop of `get_info` for a claim, down from the port below `n`. -/
def getInfoFrom (s : State) (t : PortType) (d : Direction) (port : ℕ) : ℕ → Option (Option Xbar)
  | 0 => some none
  | n + 1 => do
    let info ← s.ioGetPinInfo t d n
    match info with
    | some pin =>
      if ¬pin.claimed ∧ (s.portsCfg t d).resolvePortnum t d pin = port then return some pin
      else s.getInfoFrom t d port n
    | none => s.getInfoFrom t d port n

/-- `get_info` for a claim. -/
def getInfo (s : State) (t : PortType) (d : Direction) (port : ℕ) : Option (Option Xbar) :=
  if s.hal then
    s.getInfoFrom t d port (if (s.portsCfg t d).ports then (s.portsCfg t d).nPorts else 0)
  else some none

/-- `ioport_claim`: whether a pin is returned, and the port number that is left to the caller. -/
def ioportClaim (s : State) (t : PortType) (d : Direction) (port : ℕ) :
    Option (Bool × State × ℕ) := do
  if s.hal then
    let info ← s.getInfo t d port
    match info with
    | some pin =>
      if pin.claimed then return (false, s, IOPORT_UNASSIGNED)
      else
        let (ok, s', port') ← s.ioClaim t d port
        if ok then return (true, s'.setCfg t d { s'.portsCfg t d with free := none }, port')
        else return (false, s', IOPORT_UNASSIGNED)
    | none => return (false, s, IOPORT_UNASSIGNED)
  else return (false, s, port)

/-- The loop of `ioports_unclaimed`, with at most `fuel` ports left to look at. -/
def countFree (s : State) (t : PortType) (d : Direction) : ℕ → ℕ → ℕ → Option ℕ
  | 0, _, _ => none
  | fuel + 1, idx, free => do
    let info ← s.ioGetPinInfo t d idx
    match info with
    | some pin => s.countFree t d fuel (idx + 1) (if pin.claimed then free else free + 1)
    | none => return free

def countPorts (s : State) (t : PortType) (d : Direction) : Option ℕ :=
  if s.hal then s.countFree t d (MAX_PORTS + 1) 0 0 else some 0

/-- `ioports_unclaimed`. -/
def ioportsUnclaimed (s : State) (t : PortType) (d : Direction) : Option (ℕ × State) :=
  match (s.portsCfg t d).free with
  | some free => some (free, s)
  | none => do
    let free ← s.countPorts t d
    return (free, s.setCfg t d { s.portsCfg t d with free := some free })

/-- `ioports_add_analog` and `ioports_add_digital` of a table with `n` pins for each direction. -/
def ioportsAdd (s : State) (t : PortType) (n : Direction → ℕ) (pins : Direction → ℕ → Pin) :
    Option (Bool × State) := do
  if n .input + n .output = 0 then return (false, s)
  else
    let i := (s.portsCfg t .input).addPorts t (n .input)
    let o := (s.portsCfg t .output).addPorts t (n .output)
    let nPorts := max i.1.nPorts o.1.nPorts
    if 0 < nPorts then
      let known := (s.portsCfg t .input).pnum
      let cfgIn ← i.1.place known i.2 nPorts
      let cfgOut ← o.1.place known o.2 nPorts
      let s' := ({ s with hal := true }.setCfg t .input cfgIn).setCfg t .output cfgOut
      return (true, { s' with
        ports := s.ports ++ [⟨t, Direction.pick i.2 o.2, pins⟩] })
    else return (false, ({ s with hal := true }.setCfg t .input i.1).setCfg t .output o.1)

end State

end Ioports

end Inspector
