import Inspector.Planner.Block

/-! # The kinematics of the arm

`inspector.c` takes a Cartesian pose to the coordinates of the motors and back, and hands the
target of a line to the planner. Lengths of the model are in metres, those of the interface in
millimetres; the pitch is in degrees at the interface. Messages to the console are not modelled.
-/

namespace Inspector

/-- The library functions of C that the kinematics calls. -/
structure TrigMath (K : Type*) where
  sqrtf : K → K
  cosf : K → K
  sinf : K → K
  atan2f : K → K → K

/-- The static variables of `inspector.c`. -/
structure Kinematics (K : Type*) where
  jointMode : Bool
  jointLimitViolation : Bool
  iterations : UInt32
  trsf : Axis → K

/-- The joints: the base and the wrist in radians, the two rails in millimetres. -/
@[ext] structure Joints (K : Type*) where
  q1 : K
  q2 : K
  q3 : K
  q4 : K

variable {K : Type*} [Field K] [LinearOrder K]

namespace Arm

/-- `INSPECTOR_Y_SCALE`, in degrees for each millimetre. -/
def yScale : K := 688 / 100

/-- The value of π of the conversions between degrees and radians. -/
def pi : K := 314159265 / 100000000

def deg2rad : K := pi / 180

def rad2deg : K := 180 / pi

def l1 : K := 20 / 100

def l2 : K := 6 / 100

def l3 : K := 6 / 100

/-- `D`, the sum of `L4`, `LC` and `DF`. -/
def d : K := 3 / 100 + 0 + 2 / 100

def link2LimitLow : K := 0

def link2LimitHigh : K := 180

def link3LimitLow : K := 0

def link3LimitHigh : K := 180

def link4LimitAngleLow : K := -(174533 / 100000)

def link4LimitAngleHigh : K := 174533 / 100000

def link1LimitAngleLow : K := -(314159265 / 100000000)

def link1LimitAngleHigh : K := 314159265 / 100000000

def linkLimitEps : K := 1 / 1000

/-- Below this radius the base is not turned. -/
def singularRadius : K := 1 / 1000000000

/-- A value is within its limits, widened by the tolerance. -/
def Within (lo hi x : K) : Prop := lo - linkLimitEps ≤ x ∧ x ≤ hi + linkLimitEps

instance (lo hi x : K) : Decidable (Within lo hi x) := inferInstanceAs (Decidable (_ ∧ _))

end Arm

open Arm

namespace Joints

/-- The joints at given coordinates of the motors. -/
def decode (position : Axis → K) : Joints K where
  q1 := position .a
  q2 := position .z
  q3 := -(position .x + position .y) * (1 / 2)
  q4 := (position .y - position .x) * (1 / 2) * yScale * deg2rad

/-- The limit check of `transform_from_cartesian`. -/
structure InLimits (q : Joints K) : Prop where
  q1 : Within link1LimitAngleLow link1LimitAngleHigh q.q1
  q2 : Within link2LimitLow link2LimitHigh q.q2
  q3 : Within link3LimitLow link3LimitHigh q.q3
  q4 : Within link4LimitAngleLow link4LimitAngleHigh q.q4

instance (q : Joints K) : Decidable q.InLimits :=
  decidable_of_iff (Within link1LimitAngleLow link1LimitAngleHigh q.q1 ∧
      Within link2LimitLow link2LimitHigh q.q2 ∧ Within link3LimitLow link3LimitHigh q.q3 ∧
      Within link4LimitAngleLow link4LimitAngleHigh q.q4)
    ⟨fun ⟨h1, h2, h3, h4⟩ => ⟨h1, h2, h3, h4⟩, fun ⟨h1, h2, h3, h4⟩ => ⟨h1, h2, h3, h4⟩⟩

end Joints

namespace Kinematics

/-- The forward kinematics, from the motors to the Cartesian pose. -/
def transformToCartesian (m : TrigMath K) (position : Axis → K) : Axis → K :=
  let a := position .x
  let b := position .y
  let q3 := -(a + b) * (1 / 2) / 1000
  let q4Deg := (b - a) * (1 / 2) * yScale
  let q4 := q4Deg * deg2rad
  let q2 := position .z / 1000
  let q1 := position .a
  let gamma := q3 + d * m.cosf q4 - l1 + l3
  let pz := q2 + l2 - d * m.sinf q4
  fun
    | .x => gamma * m.cosf q1 * 1000
    | .y => gamma * m.sinf q1 * 1000
    | .z => pz * 1000
    | .a => q4Deg
    | .b => q1 / deg2rad

/-- The mixing of the rail and the wrist on the two belt motors. -/
def mix (q3 q4 : K) : K × K := (-q3 - q4 / yScale, -q3 + q4 / yScale)

/-- The base angle and the rail, in metres, on one of the two branches. -/
def branch (m : TrigMath K) (px py q4 r sign : K) : K × K :=
  let gamma := sign * r
  (if |gamma| < singularRadius then 0 else m.atan2f (py / gamma) (px / gamma),
    gamma - d * m.cosf q4 + l1 - l3)

/-- The base angle and the rail of a branch are within their limits. -/
def BranchIn (c : K × K) : Prop :=
  Within link1LimitAngleLow link1LimitAngleHigh c.1 ∧
    Within link3LimitLow link3LimitHigh (c.2 * 1000)

instance (c : K × K) : Decidable (BranchIn c) := inferInstanceAs (Decidable (_ ∧ _))

/-- The joints for a pose. The negative branch is tried first, and kept when none fits. -/
def inverse (m : TrigMath K) (position : Axis → K) : Joints K :=
  let px := position .x / 1000
  let py := position .y / 1000
  let pz := position .z / 1000
  let q4 := position .a * deg2rad
  let q2 := pz - l2 + d * m.sinf q4
  let r := m.sqrtf (px * px + py * py)
  let negative := branch m px py q4 r (-1)
  let positive := branch m px py q4 r 1
  let c := if BranchIn negative then negative else if BranchIn positive then positive else negative
  ⟨c.1, q2 * 1000, c.2 * 1000, q4⟩

/-- The inverse kinematics, from a Cartesian pose, or from joints, to the motors. Outside of the
joint mode the entry of the B axis is left as it is. -/
def transformFromCartesian (m : TrigMath K) (k : Kinematics K) (target position : Axis → K) :
    (Axis → K) × Kinematics K :=
  if k.jointMode then
    let c := mix (position .x) (position .y)
    (fun
      | .x => c.1
      | .y => c.2
      | .z => position .z
      | .a => position .a
      | .b => 0,
    { k with jointLimitViolation := false })
  else
    let q := inverse m position
    let c := mix q.q3 (q.q4 * rad2deg)
    (fun
      | .x => c.1
      | .y => c.2
      | .z => q.q2
      | .a => q.q1
      | .b => target .b,
    { k with jointLimitViolation := !decide q.InLimits })

/-- `inspector_segment_line`. The planner is told that a target out of the limits is not valid. -/
def segmentLine (m : TrigMath K) (target : Axis → K) (condition : PlannerCond) (init : Bool)
    (k : Kinematics K) : Option (Axis → K) × PlannerCond × Kinematics K :=
  let (condition, k) :=
    if init then
      let (trsf, k) := transformFromCartesian m { k with iterations := 2 } k.trsf target
      (if k.jointLimitViolation then
        { condition with targetValidated := true, targetValid := false } else condition,
      { k with trsf := trsf })
    else (condition, k)
  (if k.iterations = 0 then none else some k.trsf, condition,
    { k with iterations := k.iterations - 1 })

/-- The targets that the segmenter gives after its first call, until it has no more. -/
def drain (m : TrigMath K) (condition : PlannerCond) : ℕ → Kinematics K →
    List (Axis → K) × Kinematics K
  | 0, k => ([], k)
  | n + 1, k =>
    match segmentLine m k.trsf condition false k with
    | (none, _, k') => ([], k')
    | (some trsf, _, k') => (trsf :: (drain m condition n k').1, (drain m condition n k').2)

/-- The targets that `mc_line` takes from the segmenter for one line. -/
def lineTargets (m : TrigMath K) (target : Axis → K) (condition : PlannerCond) (k : Kinematics K) :
    List (Axis → K) × Kinematics K :=
  let (_, condition, k) := segmentLine m target condition true k
  drain m condition (k.iterations.toNat + 1) k

end Kinematics

end Inspector
