import Mathlib.Order.Defs.LinearOrder
import Mathlib.Algebra.Group.Defs
import Mathlib.Order.Lattice
import Mathlib.Algebra.GroupWithZero.Nat

/-! # State of the machine

The static variables of the state machine and the parts of the system that its handlers read and
write. Coordinates are those of the parking axis. Coordinates and spindle speeds are elements of an
ordered additive structure.
-/

namespace Inspector

namespace Machine

/-- `sys_state_t`. -/
inductive SysState
  | idle
  | alarm
  | checkMode
  | homing
  | cycle
  | hold
  | jog
  | safetyDoor
  | sleep
  | estop
  | toolChange
  deriving DecidableEq, Repr

/-- The functions that `stateHandler` points to. -/
inductive Handler
  | idle
  | cycle
  | awaitHold
  | noop
  | awaitMotionCancel
  | awaitResume
  | awaitToolchanged
  | awaitRestartRetract
  | awaitWaypointRetract
  | restore
  | awaitResumed
  deriving DecidableEq, Repr

/-- The requests of `rt_exec` that the handlers look at. -/
structure RtExec where
  cycleStart : Bool := false
  cycleComplete : Bool := false
  feedHold : Bool := false
  safetyDoor : Bool := false
  motionCancel : Bool := false
  sleep : Bool := false
  toolChange : Bool := false
  doorClosed : Bool := false
  deriving DecidableEq, Repr

/-- `parking_state_t`. -/
inductive ParkingState
  | doorClosed
  | doorAjar
  | retracting
  | resuming
  deriving DecidableEq, Repr

/-- `hold_state_t`. -/
inductive HoldingState
  | notHolding
  | complete
  | pending
  deriving DecidableEq, Repr

/-- `parking_flags_t`. -/
structure ParkFlags where
  active : Bool := false
  motion : Bool := false
  restart : Bool := false
  restoring : Bool := false
  deriving DecidableEq, Repr

/-- `step_control_t`. -/
structure StepControl where
  endMotion : Bool := false
  executeHold : Bool := false
  executeSysMotion : Bool := false
  updateSpindleRpm : Bool := false
  deriving DecidableEq, Repr

/-- `spindle_stop_t`. -/
structure SpindleStop where
  enabled : Bool := false
  initiate : Bool := false
  restore : Bool := false
  restoreCycle : Bool := false
  deriving DecidableEq, Repr

/-- State and speed of a spindle. -/
structure Spindle (K : Type*) where
  on : Bool
  ccw : Bool
  rpm : K
  deriving DecidableEq

/-- `coolant_state_t`. -/
abbrev Coolant := BitVec 8

/-- The motions that `mc_parking_motion` is called for. -/
inductive Motion
  | slowRetract
  | fastRetract
  | fastRestore
  | slowRestore
  deriving DecidableEq, Repr

/-- What a handler does to the machine. -/
inductive Effect
  | spindle (idx : ℕ) (on : Bool)
  | spindlesOff
  | coolant (state : Coolant)
  | parkingMotion (motion : Motion)
  | enterCycle
  deriving DecidableEq, Repr

/-- Where a handler waits for a spindle or coolant to come on while real-time requests are handled:
in `state_restore_conditions` with some spindles left or after the coolant, or in
`state_await_resume` after the spindle or after the coolant. -/
inductive Frame
  | restore (left : ℕ)
  | restoreCoolant
  | hold
  | holdCoolant
  deriving DecidableEq, Repr

/-- `restore_condition_t`; no spindle stands for a null pointer. -/
structure RestoreCondition (K : Type*) where
  coolant : Coolant
  spindleNum : ℕ
  spindle : ℕ → Option (Spindle K)

/-- What a planner block says about accessories. -/
structure Block (K : Type*) where
  spindleNum : ℕ
  spindle : Spindle K
  coolant : Coolant

/-- `parking_data_t`. The plan data keep the spindle and the coolant. -/
structure Park (K : Type*) where
  flags : ParkFlags := {}
  target : K
  restoreTarget : K
  retractWaypoint : K
  planSpindle : ℕ
  planCoolant : Coolant

structure Settings (K : Type*) where
  nSysSpindle : ℕ
  parkingEnabled : Bool
  laserMode : Bool
  parkingTarget : K
  pulloutIncrement : K
  keepCoolantOn : Bool
  restoreAfterFeedHold : Bool
  laserSpindle : ℕ → Bool

structure State (K : Type*) where
  sysState : SysState := .idle
  pendingState : SysState := .idle
  handler : Handler := .idle
  suspend : Bool := false
  stepControl : StepControl := {}
  parkingState : ParkingState := .doorClosed
  holdingState : HoldingState := .notHolding
  softLimit : Bool := false
  feedHoldPending : Bool := false
  isParking : Bool := false
  feedHoldDisable : Bool := false
  overrideSync : Bool := false
  parkingDisable : Bool := false
  spindleStop : SpindleStop := {}
  alarmPending : Bool := false
  toolChange : Bool := false
  activeSpindle : ℕ := 0
  modalSpindle : ℕ → Spindle K
  modalCoolant : Coolant := 0
  spindle : ℕ → Option (Spindle K)
  coolant : Coolant := 0
  park : Park K
  restoreCondition : RestoreCondition K
  frames : List Frame := []
  effects : List Effect := []

/-- What a handler finds around it: the door, the position, whether the parking axis is homed, the
current planner block, which parking motions are planned, which accessories are waited for, and
whether a synchronized motion cannot start. -/
structure Env (K : Type*) where
  door : Bool
  position : K
  homed : Bool
  block : Option (Block K)
  accepts : Motion → Bool
  spindleWaits : ℕ → Bool
  coolantWaits : Bool
  syncFails : Bool

end Machine

end Inspector
