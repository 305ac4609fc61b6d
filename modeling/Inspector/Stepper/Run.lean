import Inspector.Stepper.Prep
import Mathlib.Logic.Relation

/-! # Runs of the segment generator

The main program calls `st_prep_buffer` again and again, while motions are queued, overrides and
replans change the plan, and feed holds begin and end. A step is one of these, or one pass of
`st_prep_buffer`, which may be followed by any other step.
-/

namespace Inspector

variable {K : Type*} [Field K] [LinearOrder K]

namespace Prep

/-- A feed hold: the planner takes the generator off its block to be replanned. -/
def feedHold (x : Prep K) : Prep K :=
  { x with
    planner := x.planner.stUpdatePlanBlockParameters
    control := { x.control with executeHold := true } }

/-- The end of a hold, before the cycle is resumed. -/
def endHold (x : Prep K) : Prep K :=
  { x with planner := x.planner.planCycleReinitialize, control := {} }

/-- `st_reset`, for the execution of planner blocks or of a system motion. -/
def stReset (planner : Planner K) (executeSysMotion : Bool) : Prep K where
  planner := { planner with plBlock := none, currentSpeed := 0, velocityProfile := false }
  control := { executeSysMotion := executeSysMotion }
  decelOverride := false
  holdPartialBlock := false
  stBlocks := []
  segments := []
  stepsPerMm := 0
  reqMmIncrement := 0
  stepsRemaining := 0
  dtRemainder := 0
  rampType := .accel
  mmComplete := 0
  accelerateUntil := 0
  decelerateAfter := 0
  maximumSpeed := 0
  exitSpeed := 0

variable [IsStrictOrderedRing K] [FloorRing K]

/-- The block to be taken up can be accelerated, has steps and a way to go, and is planned to an
exit speed that is not above its nominal speed. -/
def Feasible (rpm : K) (x : Prep K) : Prop :=
  ∀ b, x.planner.block? x.target = some b →
    0 < b.acceleration ∧ 0 < b.millimeters ∧ 0 < b.stepEventCount ∧ 0 ≤ b.entrySpeedSqr ∧
      0 ≤ x.exitSpeedSqr ∧ x.exitSpeedSqr ≤ x.nominalSpeed rpm b * x.nominalSpeed rpm b

/-- The steps of the system: motions, replans, overrides, feed holds and their ends, and passes of
`st_prep_buffer` over feasible blocks. Nothing is queued while a system motion is executed. -/
inductive Step (m : ExactMath K) (s : Settings K) (cfg : StepperConfig K) : Prep K → Prep K → Prop
  | line {x : Prep K} (rpm : K) (target : Axis → K) (plData : PlanLineData K)
      (h : x.control.executeSysMotion = false) :
      Step m s cfg x { x with planner :=
        (Planner.planBufferLine m.toFloatMath s rpm target plData x.planner).2.2 }
  | replan {x : Prep K} : Step m s cfg x { x with planner := x.planner.planCycleReinitialize }
  | override {x : Prep K} (rpm : PlanBlock K → K) (feedRate rapidRate : ℕ) :
      Step m s cfg x { x with planner := x.planner.planFeedOverrideRates rpm feedRate rapidRate }
  | hold {x : Prep K} : Step m s cfg x x.feedHold
  | resume {x : Prep K} (h : x.control.executeSysMotion = false) : Step m s cfg x x.endHold
  | prep {x y : Prep K} (rpm : K) (fuel : ℕ) (c : Bool) (he : x.control.endMotion = false)
      (hf : x.planner.plBlock = none → x.Feasible rpm)
      (hy : x.prepSegment m.toFloatMath cfg rpm fuel = some (y, c)) : Step m s cfg x y

/-- A call of `st_prep_buffer` is a run of passes. -/
theorem steps_stPrepBuffer {m : ExactMath K} {s : Settings K} {cfg : StepperConfig K} {rpm : K}
    {fuel room : ℕ} {x y : Prep K} (h : x.stPrepBuffer m.toFloatMath cfg rpm fuel room = some y)
    (hf : ∀ z, Relation.ReflTransGen (Step m s cfg) x z → z.planner.plBlock = none →
      z.Feasible rpm) : Relation.ReflTransGen (Step m s cfg) x y := by
  induction room generalizing x with
  | zero =>
    cases h
    exact .refl
  | succ room ih =>
    rw [stPrepBuffer] at h
    split_ifs at h with he
    · cases h
      exact .refl
    · have hpass : ∀ z c, x.prepSegment m.toFloatMath cfg rpm fuel = some (z, c) →
          Step m s cfg x z := fun z c hz => .prep rpm fuel c (by simpa using he) (hf x .refl) hz
      split at h
      · cases h
      · rename_i z hz
        have hxz := Relation.ReflTransGen.single (hpass z true hz)
        exact hxz.trans (ih h fun w hw => hf w (hxz.trans hw))
      · rename_i z hz
        cases h
        exact .single (hpass _ false hz)

end Prep

end Inspector
