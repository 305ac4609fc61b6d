import Inspector.Kinematics.Arm
import Inspector.Planner.BufferLine

/-! # Line motions

`mc_line` passes the target of a line through the kinematics and the soft limit check to the
planner; `M100` passes joints instead of a pose. What the realtime commands and the machine do
meanwhile is an input of each call. A soft limit alarm stops everything until the system is reset,
so the call is aborted by then. Backlash, jogging and laser modes are not modelled.
-/

namespace Inspector

variable {K : Type*} [Field K] [LinearOrder K]

/-- What happens around a call of `mc_line`. -/
structure Realtime (K : Type*) where
  checkMode : Bool
  cycle : Bool
  holdAbort : Bool
  abort : Bool
  waitAbort : ℕ → Bool
  rpm : K

/-- A target handed to `plan_buffer_line`, and whether it was given as joints. -/
structure Handed (K : Type*) where
  jointMode : Bool
  motors : Axis → K

structure MotionControl (K : Type*) [Field K] [LinearOrder K] where
  kinematics : Kinematics K
  planner : Planner K
  softLimits : Axis → Bool
  homed : Axis → Bool
  envelopeMin : Axis → K
  envelopeMax : Axis → K
  softLimitFlag : Bool
  aborted : Bool
  softAlarms : ℕ
  handed : List (Handed K)
  gcPosition : Axis → K
  feedRate : K

/-- The planner's position in millimetres. -/
def Planner.planGetPosition (s : Settings K) (p : Planner K) (i : Axis) : K :=
  p.position i / (s.axis i).stepsPerMm

namespace MotionControl

/-- `check_travel_limits`. -/
def checkTravelLimits (x : MotionControl K) (target : Axis → K) (isCartesian : Bool) : Bool :=
  let failed := isCartesian && Axis.down.any fun i => x.homed i && x.softLimits i &&
    (decide (target i < x.envelopeMin i) || decide (x.envelopeMax i < target i))
  isCartesian && !failed

/-- `limits_soft_check`, with the kinematics in use. -/
def limitsSoftCheck (rt : Realtime K) (target : Axis → K) (condition : PlannerCond)
    (x : MotionControl K) : MotionControl K :=
  if if condition.targetValidated then !condition.targetValid else !x.checkTravelLimits target false
  then
    let x := { x with softLimitFlag := true }
    if rt.cycle && rt.holdAbort then { x with aborted := true }
    else { x with softAlarms := x.softAlarms + 1, aborted := true }
  else x

/-- `protocol_execute_realtime`: an abort lasts until the main program is back at its loop. -/
def protocolExecuteRealtime (abort : Bool) (x : MotionControl K) : Bool × MotionControl K :=
  (!(x.aborted || abort), { x with aborted := x.aborted || abort })

variable [IsStrictOrderedRing K] [FloorRing K]

/-- Hand the targets of the segmenter to the planner, the first one being the `n`-th last. -/
def queueSegments (m : FloatMath K) (trig : TrigMath K) (s : Settings K)
    (rt : Realtime K) (target : Axis → K) (feedRate : K) :
    ℕ → PlanLineData K → MotionControl K → MotionControl K
  | 0, _, x => x
  | n + 1, plData, x =>
    let (segment, condition, kinematics) :=
      Kinematics.segmentLine trig target plData.condition false x.kinematics
    let x := { x with kinematics := kinematics }
    match segment with
    | none => x
    | some _ =>
      let (ok, x) := protocolExecuteRealtime (rt.waitAbort n) x
      if ok then
        let (_, plData, planner) := Planner.planBufferLine m s rt.rpm target
          { plData with condition := condition } x.planner
        queueSegments m trig s rt target feedRate n { plData with feedRate := feedRate }
          { x with
            planner := planner
            handed := x.handed ++ [⟨x.kinematics.jointMode, target⟩] }
      else x

/-- The end of `mc_line`: the motion is queued, but not in check mode nor after an abort. -/
def queueLine (m : FloatMath K) (trig : TrigMath K) (s : Settings K) (rt : Realtime K)
    (target : Axis → K) (feedRate : K) (plData : PlanLineData K) (x : MotionControl K) :
    MotionControl K :=
  if rt.checkMode then x
  else
    let (ok, x) := protocolExecuteRealtime rt.abort x
    if ok then
      queueSegments m trig s rt target feedRate (x.kinematics.iterations.toNat + 1) plData x
    else x

/-- `mc_line`; its result is that the system is not aborted. -/
def mcLine (m : FloatMath K) (trig : TrigMath K) (s : Settings K) (rt : Realtime K)
    (target : Axis → K) (plData : PlanLineData K) (x : MotionControl K) : MotionControl K :=
  let (segment, condition, kinematics) :=
    Kinematics.segmentLine trig target plData.condition true x.kinematics
  let target := segment.getD target
  let x := { x with kinematics := kinematics }
  let x :=
    if condition.targetValidated && condition.targetValid then x
    else x.limitsSoftCheck rt target condition
  queueLine m trig s rt target plData.feedRate
    { plData with rateMultiplier := 1, condition := condition } x

/-- The targets of a block are valid as they are when the soft limits are disabled. -/
def validated (x : MotionControl K) (condition : PlannerCond) : PlannerCond :=
  let valid := Axis.down.all fun i => !x.softLimits i
  { condition with targetValidated := valid, targetValid := valid }

/-- The execution of `G0` and `G1`. -/
def executeLine (m : FloatMath K) (trig : TrigMath K) (s : Settings K)
    (rt : Realtime K) (target : Axis → K) (plData : PlanLineData K) (x : MotionControl K) :
    MotionControl K :=
  let x := x.mcLine m trig s rt target { plData with condition := x.validated plData.condition }
  { x with gcPosition := target }

/-- The words of `M100`. -/
structure JointWords (K : Type*) where
  p : Option K
  q : Option K
  r : Option K
  d : Option K

/-- `mcode_execute` for `M100`. -/
def mcodeExecute (m : FloatMath K) (trig : TrigMath K) (s : Settings K)
    (rt : Realtime K) (words : JointWords K) (x : MotionControl K) : MotionControl K :=
  let mpos := x.planner.planGetPosition s
  let q3 := -(mpos .x + mpos .y) * (1 / 2)
  let q4 := (mpos .y - mpos .x) * (1 / 2) * Arm.yScale
  let target : Axis → K
    | .x => words.r.getD q3
    | .y => words.d.getD q4
    | .z => words.q.getD (mpos .z)
    | .a => words.p.getD (mpos .a)
    | .b => 0
  let plData : PlanLineData K :=
    { feedRate := if 0 < x.feedRate then x.feedRate else 0
      rateMultiplier := 0
      spindle := ⟨0, false, none⟩
      condition := x.validated { rapidMotion := decide (¬ 0 < x.feedRate) }
      lineNumber := 0
      message := none
      outputCommands := [] }
  let x := { x with kinematics := { x.kinematics with jointMode := true } }
  let x := x.mcLine m trig s rt target plData
  let x := { x with kinematics := { x.kinematics with jointMode := false } }
  { x with gcPosition :=
    Kinematics.transformToCartesian trig (x.planner.planGetPosition s) }

/-- A move of the program, with what happens around it. -/
inductive Move (K : Type*) where
  | line (rt : Realtime K) (target : Axis → K) (plData : PlanLineData K)
  | joints (rt : Realtime K) (words : JointWords K)

def exec (m : FloatMath K) (trig : TrigMath K) (s : Settings K)
    (x : MotionControl K) : Move K → MotionControl K
  | .line rt target plData => x.executeLine m trig s rt target plData
  | .joints rt words => x.mcodeExecute m trig s rt words

end MotionControl

end Inspector
