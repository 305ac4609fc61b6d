import Inspector.Numerals
import Mathlib.Algebra.Order.Floor.Ring
import Mathlib.Algebra.Order.Field.Basic

/-! # Planner blocks and line data

The data of `planner.h`: what a caller passes with a motion, the block the planner makes of it,
and the settings and elementary functions both depend on. Lengths, speeds and times are in an
ordered field `K` in place of `float`; step counts are integers, which agree with `int32_t` on
every execution that C defines.
-/

namespace Inspector

/-- The configured axes, `N_AXIS` of them. -/
inductive Axis | x | y | z | a | b
  deriving DecidableEq, Repr

namespace Axis

/-- The axes in the order of the firmware's loops, from the last one down. -/
def down : List Axis := [.b, .a, .z, .y, .x]

theorem mem_down (i : Axis) : i ∈ down := by cases i <;> decide

end Axis

/-- The constants and library functions of C that an ordered field does not have. -/
structure FloatMath (K : Type*) [Field K] [LinearOrder K] where

  sqrtf : K → K

  twoPi : K
  sqrtf_nonneg : ∀ x, 0 ≤ sqrtf x

/-- Nearest integer, halfway cases away from zero. -/
def lroundf {K : Type*} [Field K] [LinearOrder K] [FloorRing K] (x : K) : ℤ :=
  if 0 ≤ x then ⌊x + 1 / 2⌋ else -⌊-x + 1 / 2⌋

/-- `constrain` of `nuts_bolts.h`. -/
def constrain (val lo hi : ℕ) : ℕ :=
  if val < lo then lo else if val > hi then hi else val

structure AxisSettings (K : Type*) where
  stepsPerMm : K
  maxRate : K
  acceleration : K

structure Settings (K : Type*) where
  axis : Axis → AxisSettings K
  junctionDeviation : K

/-- The bits of `planner_cond_t` that the planner reads. -/
structure PlannerCond where
  rapidMotion : Bool := false
  systemMotion : Bool := false
  jogMotion : Bool := false
  backlashMotion : Bool := false
  noFeedOverride : Bool := false
  inverseTime : Bool := false
  unitsPerRev : Bool := false
  targetValid : Bool := false
  targetValidated : Bool := false
  deriving DecidableEq, Repr

/-- Constant surface speed data. -/
structure SpindleCss (K : Type*) where
  axis : Axis
  toolOffset : K
  surfaceSpeed : K
  maxRpm : K
  targetRpm : K
  deltaRpm : K

structure Spindle (K : Type*) where
  rpm : K
  synchronized : Bool
  css : Option (SpindleCss K)

/-- Data passed with a motion, `plan_line_data_t`. -/
structure PlanLineData (K : Type*) where
  feedRate : K
  rateMultiplier : K
  spindle : Spindle K
  condition : PlannerCond
  lineNumber : ℤ
  message : Option String
  outputCommands : List (ℕ × K)

/-- A planned motion, `plan_block_t`. The quantities the velocity plan rests on are nonnegative. -/
structure PlanBlock (K : Type*) [Field K] [LinearOrder K] where
  steps : Axis → ℕ
  stepEventCount : ℕ
  direction : Axis → Bool
  condition : PlannerCond
  lineNumber : ℤ
  targetMm : Axis → K
  entrySpeedSqr : K
  maxEntrySpeedSqr : K
  acceleration : K
  millimeters : K
  maxJunctionSpeedSqr : K
  rapidRate : K
  programmedRate : K
  rateMultiplier : K
  spindle : Spindle K
  message : Option String
  outputCommands : List (ℕ × K)
  maxEntrySpeedSqr_nonneg : 0 ≤ maxEntrySpeedSqr
  acceleration_nonneg : 0 ≤ acceleration
  millimeters_nonneg : 0 ≤ millimeters
  maxJunctionSpeedSqr_nonneg : 0 ≤ maxJunctionSpeedSqr

namespace PlanBlock

variable {K : Type*} [Field K] [LinearOrder K]

/-- The square of the speed reached over the block from a speed with square `v`. -/
def reach (b : PlanBlock K) (v : K) : K := v + 2 * b.acceleration * b.millimeters

@[simp] theorem reach_zero (b : PlanBlock K) :
    b.reach 0 = 2 * b.acceleration * b.millimeters := zero_add _

/-- The signed step displacement of the block along an axis. -/
def signedSteps (b : PlanBlock K) (i : Axis) : ℤ :=
  if b.direction i then -(b.steps i : ℤ) else b.steps i

variable [IsStrictOrderedRing K]

theorem le_reach (b : PlanBlock K) (v : K) : v ≤ b.reach v := by
  have h := mul_nonneg (mul_nonneg zero_le_two b.acceleration_nonneg) b.millimeters_nonneg
  exact le_add_of_nonneg_right h

theorem reach_mono (b : PlanBlock K) : Monotone b.reach :=
  fun _ _ h => add_le_add_left h _

end PlanBlock

end Inspector
