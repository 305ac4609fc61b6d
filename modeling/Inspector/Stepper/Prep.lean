import Inspector.Planner.Override
import Inspector.Stepper.Ramp
import Mathlib.Algebra.Order.Floor.Semiring

/-! # The segment generator

`st_prep_buffer` turns the block at the planner's tail, or the block of a system motion, into
segments of the velocity profile that it computes from the plan. The queued segments and the
blocks they belong to are kept as lists, oldest first. Parking and fast holds are not modelled.
-/

namespace Inspector

/-- Exact arithmetic: the square root squares to its argument. -/
structure ExactMath (K : Type*) [Field K] [LinearOrder K] extends FloatMath K where
  sqrtf_mul_self : ∀ x, 0 ≤ x → sqrtf x * sqrtf x = x

/-- The bits of `step_control_t` that control the generator. -/
structure StepControl where
  executeHold : Bool := false
  endMotion : Bool := false
  executeSysMotion : Bool := false
  deriving DecidableEq, Repr

/-- `MAX_AMASS_LEVEL`. -/
def maxAmassLevel : ℕ := 3

/-- `REQ_MM_INCREMENT_SCALAR`. -/
def reqMmIncrementScalar {K : Type*} [Field K] : K := 5 / 4

/-- The settings and timer constants of the generator. -/
structure StepperConfig (K : Type*) where
  cyclesPerMin : K
  level1 : ℕ
  level2 : ℕ
  level3 : ℕ
  parkingEnabled : Bool

/-- `st_block_t`: step counts are shifted by the greatest smoothing level. -/
structure StBlock (K : Type*) where
  steps : Axis → ℕ
  stepEventCount : ℕ
  direction : Axis → Bool
  programmedRate : K
  millimeters : K
  stepsPerMm : K

/-- `segment_t`; the block is given by its place among the blocks loaded so far. -/
structure Segment (K : Type*) where
  execBlock : ℕ
  nStep : ℕ
  amassLevel : ℕ
  cyclesPerTick : ℕ
  currentRate : K
  rampType : RampType

/-- The segment generator with the planner it serves. -/
structure Prep (K : Type*) [Field K] [LinearOrder K] where
  planner : Planner K
  control : StepControl
  decelOverride : Bool
  holdPartialBlock : Bool
  stBlocks : List (StBlock K)
  segments : List (Segment K)
  stepsPerMm : K
  reqMmIncrement : K
  stepsRemaining : ℕ
  dtRemainder : K
  rampType : RampType
  mmComplete : K
  accelerateUntil : K
  decelerateAfter : K
  maximumSpeed : K
  exitSpeed : K

variable {K : Type*} [Field K] [LinearOrder K]

namespace PlanBlock

/-- The distance to go is stored only as the nonnegative number that it always is. -/
def setMillimeters (b : PlanBlock K) (mm : K) : PlanBlock K :=
  if h : 0 ≤ mm then { b with millimeters := mm, millimeters_nonneg := h } else b

/-- The Bresenham data of a block. -/
def stBlock (b : PlanBlock K) : StBlock K where
  steps i := b.steps i <<< maxAmassLevel
  stepEventCount := b.stepEventCount <<< maxAmassLevel
  direction := b.direction
  programmedRate := b.programmedRate
  millimeters := b.millimeters
  stepsPerMm := b.stepEventCount / b.millimeters

end PlanBlock

namespace Planner

/-- The block that the generator works on. -/
def block? (p : Planner K) : PrepTarget → Option (PlanBlock K)
  | .tail => p.queue.head?
  | .systemMotion => p.systemBlock

def updateBlock (p : Planner K) (t : PrepTarget) (f : PlanBlock K → PlanBlock K) : Planner K :=
  match t with
  | .tail => { p with queue := p.queue.modifyHead f }
  | .systemMotion => { p with systemBlock := p.systemBlock.map f }

/-- `plan_get_exec_block_exit_speed_sqr`. -/
def execBlockExitSpeedSqr (p : Planner K) : K := (p.queue[1]?).elim 0 (·.entrySpeedSqr)

end Planner

namespace Prep

/-- Where the generator takes its block from. -/
def target (x : Prep K) : PrepTarget :=
  if x.control.executeSysMotion then .systemMotion else .tail

/-- The exit speed of the block in work: that of the plan, or the stop of a system motion. -/
def exitSpeedSqr (x : Prep K) : K :=
  if x.control.executeSysMotion then 0 else x.planner.execBlockExitSpeedSqr

/-- Copy a new block into the Bresenham data and start counting its steps. -/
def initBlock (b : PlanBlock K) (x : Prep K) : Prep K :=
  let stepsPerMm := b.stepEventCount / b.millimeters
  { x with
    stBlocks := x.stBlocks ++ [b.stBlock]
    stepsPerMm := stepsPerMm
    stepsRemaining := b.stepEventCount
    reqMmIncrement := reqMmIncrementScalar / stepsPerMm
    dtRemainder := 0 }

/-- Start a new block at its entry speed; in a deceleration the block is entered at the exit speed
of the last one. -/
def enterSpeed (m : FloatMath K) (b : PlanBlock K) (x : Prep K) : Prep K :=
  if x.control.executeHold ∨ x.decelOverride then
    { x with
      planner :=
        { x.planner.updateBlock x.target (·.setEntry (x.exitSpeed * x.exitSpeed)) with
          currentSpeed := x.exitSpeed }
      decelOverride := false }
  else { x with planner := { x.planner with currentSpeed := m.sqrtf b.entrySpeedSqr } }

/-- The velocity profile of a feed hold: decelerate to a stop. -/
def holdProfile (m : FloatMath K) (b : PlanBlock K) (x : Prep K) : Prep K :=
  let inv2Accel := 1 / 2 / b.acceleration
  let decelDist := b.millimeters - inv2Accel * b.entrySpeedSqr
  let x := { x with rampType := .decel, mmComplete := 0 }
  if decelDist < -(1 / 10000) then
    { x with exitSpeed :=
        m.sqrtf (b.entrySpeedSqr - 2 * b.acceleration * b.millimeters) }
  else
    { x with
      mmComplete := if decelDist < 1 / 10000 then 0 else decelDist
      exitSpeed := 0 }

/-- The velocity profile of a block, from its entry speed to the entry speed of the next one. -/
def normalProfile (m : FloatMath K) (nominalSpeed : K) (b : PlanBlock K) (x : Prep K) : Prep K :=
  let inv2Accel := 1 / 2 / b.acceleration
  let exitSpeedSqr := x.exitSpeedSqr
  let exitSpeed := if x.control.executeSysMotion then 0 else m.sqrtf exitSpeedSqr
  let nominalSpeedSqr := nominalSpeed * nominalSpeed
  let intersectDistance :=
    1 / 2 * (b.millimeters + inv2Accel * (b.entrySpeedSqr - exitSpeedSqr))
  let x := { x with
    mmComplete := 0, rampType := .accel, accelerateUntil := b.millimeters, exitSpeed := exitSpeed }
  if b.entrySpeedSqr > nominalSpeedSqr then
    let accelerateUntil := b.millimeters - inv2Accel * (b.entrySpeedSqr - nominalSpeedSqr)
    if accelerateUntil ≤ 0 then
      { x with
        accelerateUntil := accelerateUntil
        rampType := .decel
        exitSpeed := m.sqrtf (b.entrySpeedSqr - 2 * b.acceleration * b.millimeters)
        decelOverride := true }
    else
      { x with
        accelerateUntil := accelerateUntil
        decelerateAfter := inv2Accel * (nominalSpeedSqr - exitSpeedSqr)
        maximumSpeed := nominalSpeed
        rampType := .decelOverride }
  else if intersectDistance > 0 then
    if intersectDistance < b.millimeters then
      let x := { x with decelerateAfter := inv2Accel * (nominalSpeedSqr - exitSpeedSqr) }
      if x.decelerateAfter < intersectDistance then
        if b.entrySpeedSqr = nominalSpeedSqr then
          { x with maximumSpeed := nominalSpeed, rampType := .cruise }
        else
          { x with
            maximumSpeed := nominalSpeed
            accelerateUntil :=
              x.accelerateUntil - inv2Accel * (nominalSpeedSqr - b.entrySpeedSqr) }
      else
        { x with
          accelerateUntil := intersectDistance
          decelerateAfter := intersectDistance
          maximumSpeed := m.sqrtf (2 * b.acceleration * intersectDistance + exitSpeedSqr) }
    else { x with rampType := .decel }
  else { x with accelerateUntil := 0, maximumSpeed := exitSpeed }

def nominalSpeed (rpm : K) (x : Prep K) (b : PlanBlock K) : K :=
  planComputeProfileNominalSpeed x.planner.overrideFeedRate x.planner.overrideRapidRate rpm b

/-- Take up a block: a new one, or the one in work with its new plan. -/
def enterBlock (m : FloatMath K) (b : PlanBlock K) (x : Prep K) : Prep K :=
  let x :=
    if x.planner.velocityProfile then
      { x with
        planner := { x.planner with velocityProfile := false }
        decelOverride := false
        holdPartialBlock := false }
    else (x.initBlock b).enterSpeed m b
  { x with planner := { x.planner with plBlock := some x.target } }

/-- Load a planner block and compute its velocity profile; `none` without a block. -/
def loadProfile (m : FloatMath K) (rpm : K) (x : Prep K) : Option (Prep K) :=
  match x.planner.block? x.target with
  | none => none
  | some b =>
    let x := x.enterBlock m b
    let b := (x.planner.block? x.target).getD b
    if x.control.executeHold then some (x.holdProfile m b)
    else some (x.normalProfile m (x.nominalSpeed rpm b) b)

/-- The profile that the ramp loop of a segment follows. -/
def profile (x : Prep K) (b : PlanBlock K) : Profile K where
  acceleration := b.acceleration
  millimeters := b.millimeters
  accelerateUntil := x.accelerateUntil
  decelerateAfter := x.decelerateAfter
  maximumSpeed := x.maximumSpeed
  exitSpeed := x.exitSpeed
  mmComplete := x.mmComplete

/-- The distance to go that guarantees a step. -/
def minimumMm (x : Prep K) (b : PlanBlock K) : K :=
  if b.millimeters - x.reqMmIncrement < 0 then 0 else b.millimeters - x.reqMmIncrement

/-- The end of the motion, with the flag for parking. -/
def endMotion (cfg : StepperConfig K) (x : Prep K) : Prep K :=
  { x with
    control := { x.control with endMotion := true }
    holdPartialBlock := x.holdPartialBlock || cfg.parkingEnabled }

/-- The smoothing level for a step time. -/
def amassLevel (cfg : StepperConfig K) (cycles : ℕ) : ℕ :=
  if cycles < cfg.level1 then 0
  else if cycles < cfg.level2 then 1
  else if cycles < cfg.level3 then 2
  else 3

variable [FloorRing K] [IsStrictOrderedRing K]

/-- Append a segment that takes the block to where the ramp loop has left it. -/
def pushSegment (cfg : StepperConfig K) (t : PrepTarget) (r : Ramp K) (x : Prep K) : Prep K :=
  let stepDistRemaining := x.stepsPerMm * r.mmRemaining
  let nStepsRemaining := ⌈stepDistRemaining⌉₊
  let nStep := x.stepsRemaining - nStepsRemaining
  let dt := r.dt + x.dtRemainder
  let invRate := dt / (x.stepsRemaining - stepDistRemaining)
  let cycles := ⌈cfg.cyclesPerMin * invRate⌉₊
  let level := amassLevel cfg cycles
  let segment : Segment K :=
    { execBlock := x.stBlocks.length - 1
      nStep := nStep <<< level
      amassLevel := level
      cyclesPerTick := cycles >>> level
      currentRate := r.currentSpeed
      rampType := r.rampType }
  { x with
    segments := x.segments ++ [segment]
    planner := x.planner.updateBlock t (·.setMillimeters r.mmRemaining)
    stepsRemaining := nStepsRemaining
    dtRemainder := (nStepsRemaining - stepDistRemaining) * invRate }

/-- See whether the block or the motion is complete. The flag is whether the generator goes on. -/
def checkExit (cfg : StepperConfig K) (r : Ramp K) (x : Prep K) : Prep K × Bool :=
  if r.mmRemaining ≤ x.mmComplete then
    if r.mmRemaining > 0 then (x.endMotion cfg, false)
    else if x.control.executeSysMotion then
      ({ x with control := { x.control with endMotion := true } }, false)
    else ({ x with planner := { x.planner with plBlock := none }.planDiscardCurrentBlock }, true)
  else (x, true)

/-- The speed and the ramp in which the ramp loop is left. -/
def setRamp (r : Ramp K) (x : Prep K) : Prep K :=
  { x with planner := { x.planner with currentSpeed := r.currentSpeed }, rampType := r.rampType }

/-- Queue the segment of a ramp loop, or bail out of a hold that has no step left to execute. -/
def queueSegment (cfg : StepperConfig K) (t : PrepTarget) (r : Ramp K) (x : Prep K) :
    Prep K × Bool :=
  let x := x.setRamp r
  if x.stepsRemaining - ⌈x.stepsPerMm * r.mmRemaining⌉₊ = 0 ∧ x.control.executeHold then
    (x.endMotion cfg, false)
  else (x.pushSegment cfg t r).checkExit cfg r

/-- Fill a segment from the profile of the block in work. -/
def generate (cfg : StepperConfig K) (fuel : ℕ) (t : PrepTarget) (x : Prep K) :
    Option (Prep K × Bool) :=
  match x.planner.block? t with
  | none => none
  | some b =>
    match Transition.loop (Ramp.pass (x.profile b) (x.minimumMm b)) fuel
        (Ramp.start (x.profile b) x.planner.currentSpeed x.rampType) with
    | none => none
    | some r => some (x.queueSegment cfg t r)

/-- One pass through the `while` loop of `st_prep_buffer`, with fuel for its ramp loop. -/
def prepSegment (m : FloatMath K) (cfg : StepperConfig K) (rpm : K) (fuel : ℕ) (x : Prep K) :
    Option (Prep K × Bool) :=
  match x.planner.plBlock with
  | some t => x.generate cfg fuel t
  | none =>
    match x.loadProfile m rpm with
    | none => some (x, false)
    | some x => x.generate cfg fuel x.target

/-- `st_prep_buffer` with room for a number of segments. -/
def stPrepBuffer (m : FloatMath K) (cfg : StepperConfig K) (rpm : K) (fuel : ℕ) :
    ℕ → Prep K → Option (Prep K)
  | 0, x => some x
  | room + 1, x =>
    if x.control.endMotion then some x
    else
      match x.prepSegment m cfg rpm fuel with
      | none => none
      | some (x, true) => stPrepBuffer m cfg rpm fuel room x
      | some (x, false) => some x

end Prep

end Inspector
