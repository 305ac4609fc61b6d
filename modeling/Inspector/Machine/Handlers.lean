import Inspector.Machine.State

/-! # Handlers of the state machine

Every function takes the state the way it finds it and returns the state it leaves. A call of
`stateHandler` inside a handler is a call of the function the pointer has just been set to, or of
`dispatch` where other requests have been handled in between.
-/

namespace Inspector

namespace Machine

namespace State

variable {K : Type*} [LinearOrder K] [Add K] [Zero K] (cfg : Settings K) (env : Env K)

def emit (e : Effect) (s : State K) : State K := { s with effects := e :: s.effects }

def setSysState (state : SysState) (s : State K) : State K := { s with sysState := state }

def setHandler (handler : Handler) (s : State K) : State K := { s with handler := handler }

def setSuspend (suspend : Bool) (s : State K) : State K := { s with suspend := suspend }

def setParkingState (state : ParkingState) (s : State K) : State K :=
  { s with parkingState := state }

def setHoldingState (state : HoldingState) (s : State K) : State K :=
  { s with holdingState := state }

def setSpindleStop (stop : SpindleStop) (s : State K) : State K := { s with spindleStop := stop }

def setIsParking (isParking : Bool) (s : State K) : State K := { s with isParking := isParking }

def setPark (f : Park K → Park K) (s : State K) : State K := { s with park := f s.park }

def setParkFlags (f : ParkFlags → ParkFlags) (s : State K) : State K :=
  s.setPark fun p => { p with flags := f p.flags }

def pushFrame (frame : Frame) (s : State K) : State K := { s with frames := frame :: s.frames }

def setStepControl (f : StepControl → StepControl) (s : State K) : State K :=
  { s with stepControl := f s.stepControl }

/-- `spindle_set_state`: a spindle that is not on gets neither direction nor speed. -/
def spindleSetState (idx : ℕ) (v : Spindle K) (s : State K) : State K :=
  { s with
    spindle := fun i =>
      if i = idx then (s.spindle i).map fun _ => if v.on then v else ⟨false, false, 0⟩
      else s.spindle i }
    |>.emit (.spindle idx v.on)

/-- `spindle_all_off`. -/
def spindleAllOff (s : State K) : State K :=
  { s with
    spindle := fun i =>
      if i < cfg.nSysSpindle then (s.spindle i).map fun _ => ⟨false, false, 0⟩
      else s.spindle i }
    |>.emit .spindlesOff

/-- `hal.coolant.set_state`. -/
def coolantSetState (state : Coolant) (s : State K) : State K :=
  { s with coolant := state } |>.emit (.coolant state)

/-- `gc_coolant`. -/
def gcCoolant (state : Coolant) (s : State K) : State K :=
  { s with modalCoolant := state }.coolantSetState state

/-- `gc_spindle_off`. -/
def gcSpindleOff (s : State K) : State K :=
  { s with
    modalSpindle := fun i => if i < cfg.nSysSpindle then ⟨false, false, 0⟩ else s.modalSpindle i }
    |>.spindleAllOff cfg

/-- `mc_parking_motion`. -/
def mcParkingMotion (motion : Motion) (s : State K) : Bool × State K :=
  if env.accepts motion then
    (true, s.setStepControl (fun c => { c with executeSysMotion := true, endMotion := false })
      |>.emit (.parkingMotion motion))
  else (false, s)

/-- `st_parking_restore_buffer` is called when a parking motion has ended. -/
def endSysMotion (s : State K) : State K :=
  if s.stepControl.executeSysMotion then
    s.setStepControl fun c => { c with executeSysMotion := false }
  else s

def doorState : ParkingState := if env.door then .doorAjar else .doorClosed

/-- `state_set(STATE_IDLE)`. -/
def setIdle (s : State K) : State K :=
  if s.sysState = .idle then s
  else
    { s with
      suspend := false
      stepControl := {}
      parkingState := .doorClosed
      holdingState := .notHolding
      sysState := .idle
      pendingState := if s.feedHoldPending then .hold else .idle
      park := { s.park with flags := {} }
      handler := .idle }

/-- `state_set(STATE_CYCLE)`. -/
def setCycle (s : State K) : State K :=
  if s.sysState = .idle then
    match env.block with
    | none => s
    | some _ =>
      let s := s.setSysState .cycle |>.emit .enterCycle
      if env.syncFails then s else s.setHandler .cycle
  else s

/-- `state_set(STATE_JOG)`. -/
def setJog (s : State K) : State K :=
  if s.sysState = .jog then s
  else
    { s with
      pendingState := if s.sysState = .toolChange then .toolChange else s.pendingState
      sysState := .jog
      handler := .cycle }

/-- `state_set(STATE_TOOL_CHANGE)`. -/
def setToolChange (s : State K) : State K :=
  if s.sysState = .toolChange then s
  else s.setSysState .toolChange |>.setHandler .awaitToolchanged

/-- `state_set` for the states without requests of their own. -/
def setNoop (newState : SysState) (s : State K) : State K :=
  if s.sysState = newState then s
  else { s with sysState := newState, suspend := false, handler := .noop }

/-- `enter_sleep`. -/
def enterSleep (s : State K) : State K :=
  (s.spindleAllOff cfg).coolantSetState 0 |>.setHandler .noop

/-- The spindles as `initiate_hold` stores them, and the last one it finds. -/
def storeSpindles (s : State K) : ℕ → RestoreCondition K → RestoreCondition K
  | 0, r => r
  | left + 1, r =>
    let r :=
      match s.spindle left with
      | none => { r with spindle := fun i => if i = left then none else r.spindle i }
      | some _ =>
        let v :=
          match env.block with
          | some block => if block.spindleNum = left then block.spindle else s.modalSpindle left
          | none => s.modalSpindle left
        { r with
          spindleNum := left
          spindle := fun i => if i = left then some v else r.spindle i }
    storeSpindles s left r

/-- Store the accessories of the current block, or else those that are set. -/
def storeConditions (s : State K) : State K :=
  let r := storeSpindles env s cfg.nSysSpindle { s.restoreCondition with spindleNum := 0 }
  let coolant :=
    match env.block with
    | some block => block.coolant
    | none => s.modalCoolant ||| s.coolant
  { s with restoreCondition := { r with coolant := coolant } }

/-- `gc_spindle_get(-1)`. -/
def gcSpindleGet (s : State K) : ℕ := if 1 < cfg.nSysSpindle then s.activeSpindle else 0

/-- `plan_data_init` for parking motions. -/
def initPark (s : State K) : State K :=
  if cfg.parkingEnabled then
    s.setPark fun p => { p with planSpindle := s.gcSpindleGet cfg, planCoolant := 0 }
  else s

/-- Motion in progress is brought to a hold. -/
def executeHold (s : State K) : State K :=
  if s.sysState = .cycle ∨ s.sysState = .jog then
    s.setStepControl (fun c => { c with executeHold := true }) |>.setHandler .awaitHold
  else s

/-- The state that is reported while the hold is pending. -/
def reportHold (newState : SysState) (s : State K) : State K :=
  if newState = .hold then s.setHoldingState .pending
  else s.setParkingState .retracting |>.setParkFlags fun _ => {}

def suspendFor (newState : SysState) (s : State K) : State K :=
  { s with
    suspend := !s.softLimit
    pendingState := if s.sysState = .jog then newState else .idle }

/-- `initiate_hold`. -/
def initiateHold (newState : SysState) (s : State K) : Bool × State K :=
  let s := s.initPark cfg |>.storeConditions cfg env |>.executeHold |>.reportHold newState
    |>.suspendFor newState
  (s.sysState = .cycle, s)

/-- The part of `state_await_resume` for a motion that has ended, and whether it returns. -/
def awaitResumeComplete (s : State K) : Bool × State K :=
  if cfg.parkingEnabled then
    let s := s.endSysMotion.setParkingState (doorState env)
    if s.sysState = .sleep then (true, s.enterSleep cfg) else (false, s)
  else (false, s)

/-- Clear the accessory state after a retract and after an aborted restore motion. -/
def clearAccessories (s : State K) : State K :=
  let s := s.spindleSetState s.park.planSpindle ⟨false, false, 0⟩
  if cfg.keepCoolantOn then s
  else s.setPark (fun p => { p with planCoolant := 0 }) |>.coolantSetState 0

/-- The fast motion to the parking target. -/
def fastRetract (s : State K) : Bool × State K :=
  if s.park.flags.motion ∧ s.park.target < cfg.parkingTarget then
    s.mcParkingMotion env .fastRetract
  else (false, s)

/-- `state_await_waypoint_retract`. -/
def awaitWaypointRetract (rt : RtExec) (s : State K) : State K :=
  if rt.cycleComplete then
    let s := s.endSysMotion.clearAccessories cfg |>.setHandler .awaitResume
    let (awaitMotion, s) := s.fastRetract cfg env
    if awaitMotion then s else (s.awaitResumeComplete cfg env).2
  else s

/-- De-energize when there is no parking motion. -/
def deenergize (s : State K) : State K :=
  let s := s.spindleAllOff cfg
  let s :=
    if s.isParking ∨ s.sysState = .sleep ∨ ¬ cfg.keepCoolantOn then s.coolantSetState 0 else s
  s.setParkingState (doorState env)

/-- A parking motion is enabled. -/
def parks (s : State K) : Bool := cfg.parkingEnabled && !s.parkingDisable && !cfg.laserMode

/-- The current position becomes the restore location unless one has been stored before. -/
def storeRestoreTarget (s : State K) : State K :=
  if s.park.flags.active then s
  else
    s.setPark fun p =>
      { p with flags := { p.flags with active := true }, restoreTarget := env.position }

/-- The parking axis is homed and the parking target is above the restore location. -/
def retracts (s : State K) : Bool := env.homed && s.park.restoreTarget < cfg.parkingTarget

/-- The parking target and the waypoint of a retract motion. -/
def storeTarget (s : State K) : State K :=
  s.setPark fun p =>
    if p.flags.restart then { p with target := env.position }
    else
      { p with
        target := p.restoreTarget
        retractWaypoint := min (cfg.pulloutIncrement + p.restoreTarget) cfg.parkingTarget }

/-- The slow motion to the waypoint. -/
def slowRetract (s : State K) : Bool × State K :=
  if s.park.target < s.park.retractWaypoint then
    s.setPark (fun p =>
      { p with
        target := p.retractWaypoint
        planCoolant := s.restoreCondition.coolant
        planSpindle := s.restoreCondition.spindleNum }) |>.mcParkingMotion env .slowRetract
  else (false, s)

/-- The retract motion of `state_await_hold`. -/
def retract (s : State K) : State K :=
  let s := s.storeTarget cfg env |>.setHandler .awaitWaypointRetract
  let (awaitMotion, s) := s.slowRetract env
  let s :=
    if s.park.flags.restart then s else s.setParkFlags fun f => { f with motion := awaitMotion }
  if awaitMotion then s else s.awaitWaypointRetract cfg env { cycleComplete := true }

/-- The part of `state_await_hold` for the safety door and sleep states, and whether it has changed
the handler. -/
def awaitHoldParked (s : State K) : Bool × State K :=
  let s := s.setSpindleStop {}
  if s.parks cfg then
    let s := s.storeRestoreTarget env
    if s.retracts cfg env then (true, s.retract cfg env |>.setIsParking false)
    else (false, s.deenergize cfg env |>.setIsParking false)
  else (false, s.deenergize cfg env |>.setIsParking false)

/-- What `state_await_hold` does in the single states, and whether it has changed the handler. -/
def awaitHoldState (s : State K) : Bool × State K :=
  match s.sysState with
  | .toolChange => (false, (s.spindleAllOff cfg).coolantSetState 0)
  | .sleep | .safetyDoor => s.awaitHoldParked cfg env
  | _ => (false, s)

/-- The end of `state_await_hold` unless the handler has been changed. -/
def holdComplete (s : State K) : State K :=
  if s.softLimit then s.setIdle else s.setHoldingState .complete |>.setHandler .awaitResume

/-- `state_await_hold`. -/
def awaitHold (rt : RtExec) (s : State K) : State K :=
  if rt.cycleComplete then
    let s := s.setStepControl fun _ => {}
    let (changed, s) := s.awaitHoldState cfg env
    if changed then s else s.holdComplete
  else s

/-- `state_set(STATE_HOLD)`. -/
def setHold (s : State K) : State K :=
  if s.sysState = .hold then s
  else if ¬ (s.sysState = .jog ∨ s.feedHoldDisable) ∨
      s.pendingState = .hold ∧ s.feedHoldPending then
    let (held, s) := s.initiateHold cfg env .hold
    let s := if held then s else s.setHoldingState .complete |>.setHandler .awaitResume
    { s with sysState := .hold, feedHoldPending := false }
  else if s.overrideSync ∧ s.feedHoldDisable then { s with feedHoldPending := true }
  else s

/-- A machine that is put to sleep goes to sleep unless it parks first. -/
def fallAsleep (s : State K) : State K :=
  if s.sysState = .sleep ∧ s.handler ≠ .awaitWaypointRetract then s.enterSleep cfg else s

/-- The state is set now, or when motion has ended. -/
def setHeld (newState : SysState) (held : Bool) (s : State K) : State K :=
  if held then s.setSysState newState
  else if s.pendingState ≠ newState then
    s.setSysState newState |>.awaitHold cfg env { cycleComplete := true }
  else s

/-- The part of `state_set` that the safety door and sleep states share. -/
def setParked (newState : SysState) (s : State K) : State K :=
  let (held, s) := s.setParkingState .retracting |>.initiateHold cfg env newState
  s.setHeld cfg env newState held |>.fallAsleep cfg

/-- `state_set(STATE_SAFETY_DOOR)`. -/
def setSafetyDoor (s : State K) : State K :=
  match s.sysState with
  | .safetyDoor | .alarm | .estop | .sleep | .checkMode => s
  | _ => s.setParked cfg env .safetyDoor

/-- `state_set(STATE_SLEEP)`. -/
def setSleep (s : State K) : State K :=
  if s.sysState = .sleep then s else s.setParked cfg env .sleep

/-- `state_set`. -/
def stateSet (newState : SysState) (s : State K) : State K :=
  match newState with
  | .idle => s.setIdle
  | .cycle => s.setCycle env
  | .jog => s.setJog
  | .toolChange => s.setToolChange
  | .hold => s.setHold cfg env
  | .safetyDoor => s.setSafetyDoor cfg env
  | .sleep => s.setSleep cfg env
  | .alarm | .estop | .homing | .checkMode => s.setNoop newState

/-- `state_idle`. -/
def stateIdle (rt : RtExec) (s : State K) : State K :=
  let s := if rt.cycleStart then s.setCycle env else s
  let s := if rt.feedHold then s.setHold cfg env else s
  let s := if rt.toolChange then s.setToolChange else s
  if rt.sleep then s.setSleep cfg env else s

/-- `state_cycle`. -/
def stateCycle (rt : RtExec) (s : State K) : State K :=
  if rt = { cycleStart := true } then s
  else
    let s :=
      if rt.cycleComplete then if s.toolChange then s.setToolChange else s.setIdle else s
    let s :=
      if rt.motionCancel then
        s.setSuspend true |>.setStepControl (fun c => { c with executeHold := true })
          |>.setHandler .awaitMotionCancel
      else s
    if rt.feedHold then s.setHold cfg env else s

/-- `state_await_toolchanged`. -/
def awaitToolchanged (rt : RtExec) (s : State K) : State K :=
  if rt.cycleStart then
    let s := { s with pendingState := if s.toolChange then .toolChange else .idle }
    s.setIdle.setCycle env
  else s

/-- `state_await_motion_cancel`. -/
def awaitMotionCancel (rt : RtExec) (s : State K) : State K :=
  if rt.cycleComplete then
    let s := if s.sysState = .jog then s.setStepControl (fun _ => {}) |>.setSuspend false else s
    let s := s.stateSet cfg env s.pendingState
    if s.alarmPending then s else if s.toolChange then s.setToolChange else s
  else s

/-- `state_await_restart_retract`. -/
def awaitRestartRetract (rt : RtExec) (s : State K) : State K :=
  if rt.cycleComplete then
    s.endSysMotion.setHandler .awaitHold |>.awaitHold cfg env { cycleComplete := true }
  else s

/-- `restart_retract`. -/
def restartRetract (s : State K) : State K :=
  let s :=
    s.setHandler .awaitRestartRetract |>.setParkingState .retracting |>.setParkFlags
      fun f => { f with restart := true }
  if s.stepControl.executeSysMotion then s.setStepControl fun c => { c with executeHold := true }
  else s.awaitRestartRetract cfg env { cycleComplete := true }

/-- `state_await_resumed`. -/
def awaitResumed (rt : RtExec) (s : State K) : State K :=
  if rt.safetyDoor then s.restartRetract cfg env
  else if rt.cycleComplete then
    let s := s.setParkingState .doorClosed |>.setParkFlags fun _ => {}
    let s := if s.stepControl.executeSysMotion then s.setStepControl fun _ => {} else s
    s.setIdle.setCycle env
  else s

/-- `spindle_restore`, and whether it waits. -/
def spindleRestore (idx : ℕ) (v : Spindle K) (s : State K) : Bool × State K :=
  if cfg.laserSpindle idx then
    (false, (s.spindleSetState idx ⟨v.on, v.ccw, 0⟩).setStepControl
      fun c => { c with updateSpindleRpm := true })
  else if s.spindle idx = some v then (false, s)
  else (env.spindleWaits idx, s.spindleSetState idx v)

/-- `state_spindle_restore`, and whether it waits. -/
def stateSpindleRestore (idx : ℕ) (s : State K) : Bool × State K :=
  match s.restoreCondition.spindle idx with
  | none => (false, s)
  | some v => s.spindleRestore cfg env idx v

/-- `coolant_restore`, and whether it waits. -/
def coolantRestore (mode : Coolant) (s : State K) : Bool × State K :=
  if mode ≠ s.coolant then (mode ≠ 0 && env.coolantWaits, s.coolantSetState mode) else (false, s)

/-- What `state_restore` does when the conditions have been restored; `call` is the call of
`stateHandler`. -/
def restoreMotion (call : State K → State K) (s : State K) : State K :=
  if s.park.flags.restart then s.restartRetract cfg env
  else
    let (awaitMotion, s) :=
      if s.park.flags.motion then
        s.setParkingState .resuming
          |>.setPark (fun p => { p with planCoolant := s.restoreCondition.coolant })
          |>.mcParkingMotion env .slowRestore
      else (false, s)
    if awaitMotion then s else call s

/-- The end of `state_restore_conditions` and what follows it. -/
def restoreEnd (call : State K → State K) (s : State K) : State K :=
  s.setParkFlags (fun f => { f with restoring := false }) |>.setSpindleStop {}
    |>.restoreMotion cfg env call

/-- The coolant in `state_restore_conditions` and what follows it. -/
def restoreCoolant (call : State K → State K) (s : State K) : State K :=
  if s.modalCoolant ≠ s.coolant then
    let (waits, s) := s.coolantRestore env s.restoreCondition.coolant
    if waits then s.pushFrame .restoreCoolant
    else (s.gcCoolant s.restoreCondition.coolant).restoreEnd cfg env call
  else s.restoreEnd cfg env call

/-- The spindles in `state_restore_conditions` and what follows them. -/
def restoreSpindles (call : State K → State K) : ℕ → State K → State K
  | 0, s => s.restoreCoolant cfg env call
  | left + 1, s =>
    let (waits, s) := s.stateSpindleRestore cfg env left
    if waits then s.pushFrame (.restore left)
    else restoreSpindles call left s

/-- `state_restore`. The conditions are restored unless the restart flag is set, which has just been
cleared. -/
def stateRestore (rt : RtExec) (s : State K) : State K :=
  if rt.safetyDoor then
    if s.park.flags.restoring then s.setParkFlags fun f => { f with restart := true }
    else s.restartRetract cfg env
  else if rt.cycleComplete then
    s.endSysMotion.setParkFlags (fun f => { f with restart := false, restoring := true })
      |>.setHandler .awaitResumed
      |>.restoreSpindles cfg env (fun s => s.awaitResumed cfg env { cycleComplete := true })
        cfg.nSysSpindle
  else s

/-- The last part of `state_await_resume`. -/
def restartCycle (s : State K) : State K :=
  if s.sysState = .sleep ∨ s.sysState = .safetyDoor then s
  else s.setIdle.setStepControl (fun _ => s.stepControl) |>.setCycle env

/-- The end of the restore after a feed hold. -/
def holdEnd (s : State K) : State K := s.setSpindleStop {} |>.restartCycle env

/-- The coolant of the restore after a feed hold. -/
def holdCoolant (s : State K) : State K :=
  if s.restoreCondition.coolant ≠ s.coolant then
    let (waits, s) := s.coolantRestore env s.restoreCondition.coolant
    if waits then s.pushFrame .holdCoolant
    else (s.gcCoolant s.restoreCondition.coolant).holdEnd env
  else s.holdEnd env

/-- The spindle in use is on. -/
def isOn (v : Option (Spindle K)) : Bool := v.any fun v => v.on

/-- The restore after a feed hold. -/
def holdRestore (s : State K) : State K :=
  let idx := s.restoreCondition.spindleNum
  if cfg.restoreAfterFeedHold then
    if isOn (s.restoreCondition.spindle idx) ≠ isOn (s.spindle idx) then
      let (waits, s) := s.stateSpindleRestore cfg env idx
      if waits then s.pushFrame .hold else s.holdCoolant env
    else s.holdCoolant env
  else
    let s := if isOn (s.spindle idx) then s else s.gcSpindleOff cfg
    s.holdEnd env

/-- The start of the restore from the safety door state. -/
def startRestore (s : State K) : State K :=
  let s := s.setHandler .restore |>.setParkingState .resuming
  let (awaitMotion, s) :=
    if s.park.flags.motion then
      let s := s.setParkFlags fun f => { f with restart := false }
      if s.park.restoreTarget ≤ cfg.parkingTarget then s.mcParkingMotion env .fastRestore
      else (false, s)
    else (false, s)
  if awaitMotion then s else s.stateRestore cfg env { cycleComplete := true }

/-- The part of `state_await_resume` for a cycle start. -/
def resumeCycleStart (s : State K) : State K :=
  let s :=
    if s.sysState = .hold ∧ s.spindleStop = {} then
      s.setSpindleStop { s.spindleStop with restoreCycle := true }
    else s
  match s.sysState with
  | .toolChange => s.restartCycle env
  | .sleep => s
  | .safetyDoor =>
    if s.park.flags.restart ∨ ¬ env.door then s.startRestore cfg env else s
  | _ => s.holdRestore cfg env

/-- `state_await_resume`. -/
def awaitResume (rt : RtExec) (s : State K) : State K :=
  let (returns, s) :=
    if rt.cycleComplete then s.awaitResumeComplete cfg env else (false, s)
  if returns then s
  else
    let s := if rt.sleep then s.setSleep cfg env else s
    if rt.safetyDoor then s.setParkingState (doorState env)
    else if rt.cycleStart then s.resumeCycleStart cfg env
    else if rt.doorClosed ∧ ¬ env.door then s.setParkingState .doorClosed
    else s

/-- The call of `stateHandler`. -/
def dispatch (rt : RtExec) (s : State K) : State K :=
  match s.handler with
  | .idle => s.stateIdle cfg env rt
  | .cycle => s.stateCycle cfg env rt
  | .awaitHold => s.awaitHold cfg env rt
  | .noop => s
  | .awaitMotionCancel => s.awaitMotionCancel cfg env rt
  | .awaitResume => s.awaitResume cfg env rt
  | .awaitToolchanged => s.awaitToolchanged env rt
  | .awaitRestartRetract => s.awaitRestartRetract cfg env rt
  | .awaitWaypointRetract => s.awaitWaypointRetract cfg env rt
  | .restore => s.stateRestore cfg env rt
  | .awaitResumed => s.awaitResumed cfg env rt

/-- `state_update`. -/
def stateUpdate (rt : RtExec) (s : State K) : State K :=
  let s := if rt.safetyDoor then s.setSafetyDoor cfg env else s
  s.dispatch cfg env rt

/-- The innermost wait is over. -/
def resume (s : State K) : State K :=
  let call := fun s : State K => s.dispatch cfg env { cycleComplete := true }
  match s.frames with
  | [] => s
  | frame :: frames =>
    let s := { s with frames := frames }
    match frame with
    | .restore left => s.restoreSpindles cfg env call left
    | .restoreCoolant => s.gcCoolant s.restoreCondition.coolant |>.restoreEnd cfg env call
    | .hold => s.holdCoolant env
    | .holdCoolant => s.gcCoolant s.restoreCondition.coolant |>.holdEnd env

end State

end Machine

end Inspector
