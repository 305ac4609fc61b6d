import Inspector.Planner.Passes

/-! # Queueing a line

`plan_buffer_line` turns a target into step counts, directions and a unit vector, derives the
limits of the block, and appends the block unless it is empty or a system motion. Callers wait
for a free slot before they call it, so the buffer always has room for the block.
-/

namespace Inspector

variable {K : Type*} [Field K] [LinearOrder K]

/-- `MINIMUM_FEED_RATE`, in mm/min. -/
def minimumFeedRate : K := 1

/-- `MINIMUM_JUNCTION_SPEED`, in mm/min. -/
def minimumJunctionSpeed : K := 0

/-- `SOME_LARGE_VALUE`. -/
def someLargeValue : K := 10 ^ 38

/-- `convert_delta_vector_to_unit_vector`: the magnitude and the vector divided by it. -/
def convertDeltaVectorToUnitVector (m : FloatMath K) (vector : Axis → K) : K × (Axis → K) :=
  let magnitude := m.sqrtf (Axis.down.foldl
    (fun acc i => if vector i ≠ 0 then acc + vector i * vector i else acc) 0)
  (magnitude, fun i => vector i * (1 / magnitude))

/-- The greatest rate along a unit vector that keeps every axis within its own limit. -/
def limitByAxisMaximum (axisMaximum : Axis → K) (unitVec : Axis → K) : K :=
  Axis.down.foldl
    (fun acc i => if unitVec i ≠ 0 then min acc |axisMaximum i / unitVec i| else acc)
    someLargeValue

def limitAccelerationByAxisMaximum (s : Settings K) (unitVec : Axis → K) : K :=
  limitByAxisMaximum (fun i => (s.axis i).acceleration) unitVec

def limitMaxRateByAxisMaximum (s : Settings K) (unitVec : Axis → K) : K :=
  limitByAxisMaximum (fun i => (s.axis i).maxRate) unitVec

/-- `plan_compute_profile_nominal_speed`; `rpm` is the spindle speed that its driver reports. -/
def planComputeProfileNominalSpeed (overrideFeedRate overrideRapidRate : ℕ) (rpm : K)
    (block : PlanBlock K) : K :=
  let nominalSpeed :=
    if block.condition.unitsPerRev ∨ block.spindle.synchronized then block.programmedRate * rpm
    else block.programmedRate
  let nominalSpeed :=
    if block.condition.rapidMotion then nominalSpeed * (overrideRapidRate / 100)
    else
      let nominalSpeed :=
        if overrideFeedRate ≠ 100 ∧ ¬ block.condition.noFeedOverride then
          (if nominalSpeed > block.rapidRate then block.rapidRate else nominalSpeed) *
            (overrideFeedRate / 100)
        else nominalSpeed
      if nominalSpeed > block.rapidRate then block.rapidRate else nominalSpeed
  if nominalSpeed > minimumFeedRate then nominalSpeed else minimumFeedRate

section Limits

variable [IsStrictOrderedRing K]

theorem someLargeValue_nonneg : (0 : K) ≤ someLargeValue := pow_nonneg (by norm_num) _

theorem limitByAxisMaximum_nonneg (axisMaximum unitVec : Axis → K) :
    0 ≤ limitByAxisMaximum axisMaximum unitVec := by
  unfold limitByAxisMaximum
  refine List.foldlRecOn Axis.down _ someLargeValue_nonneg fun acc hacc i _ => ?_
  split
  · exact le_min hacc (abs_nonneg _)
  · exact hacc

/-- The maximum entry speed under given nominal speeds of the block and its predecessor. -/
def maxEntrySpeed (block : PlanBlock K) (nominalSpeed prevNominalSpeed : K) : K :=
  let v := if nominalSpeed > prevNominalSpeed then prevNominalSpeed * prevNominalSpeed
    else nominalSpeed * nominalSpeed
  if v > block.maxJunctionSpeedSqr then block.maxJunctionSpeedSqr else v

theorem maxEntrySpeed_nonneg (block : PlanBlock K) (nominalSpeed prevNominalSpeed : K) :
    0 ≤ maxEntrySpeed block nominalSpeed prevNominalSpeed := by
  unfold maxEntrySpeed
  dsimp only
  split_ifs
  · exact block.maxJunctionSpeedSqr_nonneg
  · exact mul_self_nonneg _
  · exact block.maxJunctionSpeedSqr_nonneg
  · exact mul_self_nonneg _

/-- `plan_compute_profile_parameters`. -/
def planComputeProfileParameters (block : PlanBlock K) (nominalSpeed prevNominalSpeed : K) :
    PlanBlock K :=
  { block with
    maxEntrySpeedSqr := maxEntrySpeed block nominalSpeed prevNominalSpeed
    maxEntrySpeedSqr_nonneg := maxEntrySpeed_nonneg block nominalSpeed prevNominalSpeed }

/-- The junction speed limit by centripetal acceleration between two unit vectors. -/
def junctionSpeedSqr (m : FloatMath K) (s : Settings K) (previousUnitVec unitVec : Axis → K) :
    K :=
  let cosTheta := Axis.down.foldl (fun acc i => acc - previousUnitVec i * unitVec i) 0
  let junctionUnitVec := fun i => unitVec i - previousUnitVec i
  if cosTheta > 999999 / 1000000 then minimumJunctionSpeed * minimumJunctionSpeed
  else if cosTheta < -(999999 / 1000000) then someLargeValue
  else
    let junctionUnitVec := (convertDeltaVectorToUnitVector m junctionUnitVec).2
    let junctionAcceleration := limitAccelerationByAxisMaximum s junctionUnitVec
    let sinThetaD2 := m.sqrtf (1 / 2 * (1 - cosTheta))
    max (minimumJunctionSpeed * minimumJunctionSpeed)
      (junctionAcceleration * s.junctionDeviation * sinThetaD2 / (1 - sinThetaD2))

theorem junctionSpeedSqr_nonneg (m : FloatMath K) (s : Settings K) (u v : Axis → K) :
    0 ≤ junctionSpeedSqr m s u v := by
  unfold junctionSpeedSqr
  dsimp only
  split_ifs
  · exact mul_self_nonneg _
  · exact someLargeValue_nonneg
  · exact le_max_of_le_left (mul_self_nonneg _)

end Limits

/-- The spindle speed for constant surface speed at a tool position. -/
def cssRpm (m : FloatMath K) (css : SpindleCss K) (pos : K) : K :=
  let pos := pos - css.toolOffset
  if pos > 0 then
    let rpm := css.surfaceSpeed / (pos * m.twoPi)
    if rpm > css.maxRpm then css.maxRpm else rpm
  else css.maxRpm

/-- The spindle data of a block from position `start` to `target`, both in mm. -/
def cssSpindle (m : FloatMath K) (start target : Axis → K) (spindle : Spindle K) : Spindle K :=
  match spindle.css with
  | none => spindle
  | some css =>
    let rpm := cssRpm m css (start css.axis)
    let targetRpm := cssRpm m css (target css.axis)
    { spindle with
      rpm := rpm
      css := some { css with targetRpm := targetRpm, deltaRpm := targetRpm - rpm } }

namespace Planner

variable [FloorRing K]

def targetSteps (s : Settings K) (target : Axis → K) (i : Axis) : ℤ :=
  lroundf (target i * (s.axis i).stepsPerMm)

/-- The position that a motion starts from. -/
def positionSteps (p : Planner K) (plData : PlanLineData K) : Axis → ℤ :=
  if plData.condition.systemMotion then p.sysPosition else p.position

def deltaSteps (s : Settings K) (target : Axis → K) (plData : PlanLineData K) (p : Planner K)
    (i : Axis) : ℤ :=
  targetSteps s target i - p.positionSteps plData i

/-- The direction bits of a motion; a bit keeps its last value on an axis that does not move. -/
def directionBits (s : Settings K) (target : Axis → K) (plData : PlanLineData K) (p : Planner K)
    (i : Axis) : Bool :=
  let delta := deltaSteps s target plData p i
  if delta ≠ 0 then decide (delta < 0) else p.direction i

def stepEventCount (s : Settings K) (target : Axis → K) (plData : PlanLineData K)
    (p : Planner K) : ℕ :=
  Axis.down.foldl (fun acc i => max acc (deltaSteps s target plData p i).natAbs) 0

variable [IsStrictOrderedRing K]

/-- The block that `plan_buffer_line` makes of a motion, and the unit vector of the motion. -/
def makeBlock (m : FloatMath K) (s : Settings K) (rpm : K) (target : Axis → K)
    (plData : PlanLineData K) (p : Planner K) : PlanBlock K × (Axis → K) :=
  let delta := deltaSteps s target plData p
  let conv := convertDeltaVectorToUnitVector m fun i =>
    if delta i ≠ 0 then (delta i : K) / (s.axis i).stepsPerMm else 0
  let unitVec := conv.2
  let rapidRate := limitMaxRateByAxisMaximum s unitVec
  let startMm := fun i => (p.positionSteps plData i : K) / (s.axis i).stepsPerMm
  let block : PlanBlock K :=
    { steps := fun i => (delta i).natAbs
      stepEventCount := stepEventCount s target plData p
      direction := directionBits s target plData p
      condition := plData.condition
      lineNumber := plData.lineNumber
      targetMm := target
      entrySpeedSqr := 0
      maxEntrySpeedSqr := 0
      acceleration := limitAccelerationByAxisMaximum s unitVec
      millimeters := conv.1
      maxJunctionSpeedSqr :=
        if p.queue = [] ∨ plData.condition.systemMotion then 0
        else junctionSpeedSqr m s p.previousUnitVec unitVec
      rapidRate := rapidRate
      programmedRate :=
        if plData.condition.rapidMotion then rapidRate
        else if plData.condition.inverseTime then plData.feedRate * conv.1
        else plData.feedRate
      rateMultiplier := plData.rateMultiplier
      spindle := cssSpindle m startMm target plData.spindle
      message := plData.message
      outputCommands := plData.outputCommands
      maxEntrySpeedSqr_nonneg := le_rfl
      acceleration_nonneg := limitByAxisMaximum_nonneg _ _
      millimeters_nonneg := m.sqrtf_nonneg _
      maxJunctionSpeedSqr_nonneg := by
        split
        · exact le_rfl
        · exact junctionSpeedSqr_nonneg m s _ _ }
  if plData.condition.systemMotion then (block, unitVec)
  else
    (planComputeProfileParameters block
      (planComputeProfileNominalSpeed p.overrideFeedRate p.overrideRapidRate rpm block)
      p.previousNominalSpeed, unitVec)

/-- Append a block at the buffer head, ready for replanning. -/
def pushBlock (m : FloatMath K) (s : Settings K) (rpm : K) (target : Axis → K)
    (plData : PlanLineData K) (p : Planner K) : Planner K :=
  let (block, unitVec) := makeBlock m s rpm target plData p
  { p with
    position := if plData.condition.backlashMotion then p.position else targetSteps s target
    previousUnitVec := if plData.condition.backlashMotion then p.previousUnitVec else unitVec
    previousNominalSpeed :=
      planComputeProfileNominalSpeed p.overrideFeedRate p.overrideRapidRate rpm block
    queue := p.queue ++ [block]
    systemBlock := none
    direction := directionBits s target plData p }

/-- `plan_buffer_line`: whether a block was made, the line data left to the caller and the
planner. A system motion stays in the unused slot at the buffer head. -/
def planBufferLine (m : FloatMath K) (s : Settings K) (rpm : K) (target : Axis → K)
    (plData : PlanLineData K) (p : Planner K) : Bool × PlanLineData K × Planner K :=
  let block := (makeBlock m s rpm target plData p).1
  let plData' := { plData with spindle := { plData.spindle with css := block.spindle.css } }
  if stepEventCount s target plData p = 0 then (false, plData', { p with systemBlock := none })
  else
    let plData' := { plData' with message := none, outputCommands := [] }
    if plData.condition.systemMotion then
      (true, plData',
        { p with systemBlock := some block, direction := directionBits s target plData p })
    else (true, plData', (pushBlock m s rpm target plData p).plannerRecalculate)

@[simp] theorem makeBlock_entry (m : FloatMath K) (s : Settings K) (rpm : K) (target : Axis → K)
    (plData : PlanLineData K) (p : Planner K) :
    (makeBlock m s rpm target plData p).1.entrySpeedSqr = 0 := by
  unfold makeBlock
  dsimp only
  split <;> rfl

theorem pushBlock_queue (m : FloatMath K) (s : Settings K) (rpm : K) (target : Axis → K)
    (plData : PlanLineData K) (p : Planner K) :
    (pushBlock m s rpm target plData p).queue =
      p.queue ++ [(makeBlock m s rpm target plData p).1] := rfl

/-- What a call can do to the planner: nothing but fill the slot at the head, or append. -/
theorem planBufferLine_cases (m : FloatMath K) (s : Settings K) (rpm : K) (target : Axis → K)
    (plData : PlanLineData K) (p : Planner K) :
    let res := planBufferLine m s rpm target plData p
    (res.2.2.queue = p.queue ∧ res.2.2.planned = p.planned ∧ res.2.2.position = p.position ∧
        (res.1 = false ∨ plData.condition.systemMotion = true)) ∨
      (res.1 = true ∧ plData.condition.systemMotion = false ∧
        res.2.2 = (pushBlock m s rpm target plData p).plannerRecalculate) := by
  unfold planBufferLine
  dsimp only
  split_ifs with h0 hs
  · exact .inl ⟨rfl, rfl, rfl, .inl rfl⟩
  · exact .inl ⟨rfl, rfl, rfl, .inr hs⟩
  · exact .inr ⟨rfl, by simpa using hs, rfl⟩

end Planner

end Inspector
