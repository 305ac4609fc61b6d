import Inspector.Geometry.Polar
import Inspector.Kinematics.Arm
import Mathlib.Analysis.Real.Pi.Bounds

/-! # The inverse kinematics is sound and complete

In exact arithmetic a Cartesian pose is accepted exactly when some joints within their widened
limits reach it. The motor target of an accepted pose then decodes to joints within the limits, and
the forward kinematics gives the pose back; near the axis of the base, where the base is not
turned, it is off by up to twice the radius.
-/

namespace Inspector

open Arm

/-- The functions of C in exact arithmetic. -/
noncomputable def exactTrig : TrigMath ℝ where
  sqrtf := Real.sqrt
  cosf := Real.cos
  sinf := Real.sin
  atan2f := Polar.angle

/-- A Cartesian pose: a position and a pitch. -/
@[ext] structure Pose (K : Type*) where
  x : K
  y : K
  z : K
  a : K

/-- The pose of an array of coordinates; the yaw is not part of it. -/
def Pose.ofCoords {K : Type*} (p : Axis → K) : Pose K := ⟨p .x, p .y, p .z, p .a⟩

namespace Joints

/-- The signed distance of the tool from the axis of the base, in metres. -/
noncomputable def gamma (q : Joints ℝ) : ℝ := q.q3 / 1000 + d * Real.cos q.q4 - l1 + l3

/-- The pose that the joints reach. -/
noncomputable def forward (q : Joints ℝ) : Pose ℝ where
  x := q.gamma * Real.cos q.q1 * 1000
  y := q.gamma * Real.sin q.q1 * 1000
  z := (q.q2 / 1000 + l2 - d * Real.sin q.q4) * 1000
  a := q.q4 * rad2deg

/-- The same arm with the base turned to an angle. -/
def turn (q : Joints ℝ) (angle : ℝ) : Joints ℝ := { q with q1 := angle }

@[simp] theorem gamma_turn (q : Joints ℝ) (angle : ℝ) : (q.turn angle).gamma = q.gamma := rfl

@[simp] theorem q1_turn (q : Joints ℝ) (angle : ℝ) : (q.turn angle).q1 = angle := rfl

end Joints

namespace Kinematics

open Joints

theorem deg2rad_mul_rad2deg : (deg2rad * rad2deg : ℝ) = 1 := by
  norm_num [deg2rad, rad2deg, pi]

theorem transformToCartesian_eq (position : Axis → ℝ) :
    Pose.ofCoords (transformToCartesian exactTrig position) = (decode position).forward := by
  have h := deg2rad_mul_rad2deg
  ext
  · simp [Pose.ofCoords, transformToCartesian, forward, gamma, decode, exactTrig]
  · simp [Pose.ofCoords, transformToCartesian, forward, gamma, decode, exactTrig]
  · simp [Pose.ofCoords, transformToCartesian, forward, decode, exactTrig]
  · simp [Pose.ofCoords, transformToCartesian, forward, decode, mul_assoc, h]

theorem decode_transformFromCartesian {k : Kinematics ℝ} (hk : k.jointMode = false)
    (target position : Axis → ℝ) :
    decode (transformFromCartesian exactTrig k target position).1 =
      inverse exactTrig position := by
  have h := deg2rad_mul_rad2deg
  have hy : (yScale : ℝ) ≠ 0 := by norm_num [yScale]
  unfold transformFromCartesian
  rw [hk]
  ext
  · rfl
  · rfl
  · simp only [decode, mix, Bool.false_eq_true, if_false]
    ring
  · simp only [decode, mix, Bool.false_eq_true, if_false]
    calc _ = (inverse exactTrig position).q4 * (deg2rad * rad2deg) := by
          field_simp
          ring
      _ = _ := by rw [h, mul_one]

theorem within_angle (y x : ℝ) :
    Within link1LimitAngleLow link1LimitAngleHigh (Polar.angle y x) := by
  have h := abs_le.mp (Polar.abs_angle_le_pi y x)
  have hpi := Real.pi_lt_d6
  norm_num [Within, link1LimitAngleLow, link1LimitAngleHigh, linkLimitEps]
  constructor
  · linarith [h.1]
  · linarith [h.2]

theorem within_branch (px py q4 r sign : ℝ) :
    Within link1LimitAngleLow link1LimitAngleHigh (branch exactTrig px py q4 r sign).1 := by
  unfold branch
  dsimp only
  split_ifs
  · norm_num [Within, link1LimitAngleLow, link1LimitAngleHigh, linkLimitEps]
  · exact within_angle _ _

/-- The rail fits on the positive branch only where it fits on the negative one. -/
theorem within_negative {px py q4 r : ℝ} (hr : 0 ≤ r)
    (h : Within link3LimitLow link3LimitHigh ((branch exactTrig px py q4 r 1).2 * 1000)) :
    Within link3LimitLow link3LimitHigh ((branch exactTrig px py q4 r (-1)).2 * 1000) := by
  have hcos := Real.cos_le_one q4
  obtain ⟨-, h⟩ := h
  norm_num [Within, branch, exactTrig, link3LimitLow, link3LimitHigh, linkLimitEps, d, l1, l3]
    at h ⊢
  constructor <;> linarith

/-- The distance of a pose from the axis of the base, in metres. -/
noncomputable def radius (position : Axis → ℝ) : ℝ :=
  √(position .x / 1000 * (position .x / 1000) + position .y / 1000 * (position .y / 1000))

/-- The branch on which the arm reaches backwards. -/
noncomputable def backwards (position : Axis → ℝ) : ℝ × ℝ :=
  branch exactTrig (position .x / 1000) (position .y / 1000) (position .a * deg2rad)
    (radius position) (-1)

/-- The inverse kinematics always takes the negative branch. -/
theorem inverse_eq (position : Axis → ℝ) :
    inverse exactTrig position = ⟨(backwards position).1,
      (position .z / 1000 - l2 + d * Real.sin (position .a * deg2rad)) * 1000,
      (backwards position).2 * 1000, position .a * deg2rad⟩ := by
  have hc : ∀ px py q4 r : ℝ, 0 ≤ r →
      (if BranchIn (branch exactTrig px py q4 r (-1)) then branch exactTrig px py q4 r (-1)
        else if BranchIn (branch exactTrig px py q4 r 1) then branch exactTrig px py q4 r 1
        else branch exactTrig px py q4 r (-1)) = branch exactTrig px py q4 r (-1) := by
    intro px py q4 r hr
    split_ifs with hneg hpos
    · rfl
    · exact absurd ⟨within_branch _ _ _ _ _, within_negative hr hpos.2⟩ hneg
    · rfl
  unfold inverse
  dsimp only
  rw [hc]
  · rfl
  · exact Real.sqrt_nonneg _

theorem radius_mul_self (position : Axis → ℝ) : radius position * radius position =
    position .x / 1000 * (position .x / 1000) + position .y / 1000 * (position .y / 1000) :=
  Real.mul_self_sqrt (add_nonneg (mul_self_nonneg _) (mul_self_nonneg _))

/-- The base angle under which a pose is reached with the arm reaching backwards. -/
noncomputable def baseAngle (position : Axis → ℝ) : ℝ :=
  Polar.angle (position .y / 1000 / -radius position) (position .x / 1000 / -radius position)

theorem gamma_inverse (position : Axis → ℝ) :
    (inverse exactTrig position).gamma = -radius position := by
  rw [inverse_eq]
  simp only [gamma, backwards, branch, exactTrig]
  ring

/-- The joints of the inverse kinematics reach the pose when the base is turned to it. -/
theorem forward_inverse (position : Axis → ℝ) :
    ((inverse exactTrig position).turn (baseAngle position)).forward = Pose.ofCoords position := by
  have hneg : -radius position * -radius position =
      position .x / 1000 * (position .x / 1000) + position .y / 1000 * (position .y / 1000) := by
    rw [neg_mul_neg, radius_mul_self]
  have hd := deg2rad_mul_rad2deg
  ext
  · simp only [forward, gamma_turn, q1_turn, gamma_inverse, Pose.ofCoords, baseAngle]
    rw [Polar.mul_cos_angle hneg]
    ring
  · simp only [forward, gamma_turn, q1_turn, gamma_inverse, Pose.ofCoords, baseAngle]
    rw [Polar.mul_sin_angle hneg]
    ring
  · simp only [forward, turn, inverse_eq, Pose.ofCoords]
    ring
  · simp only [forward, turn, inverse_eq, Pose.ofCoords]
    rw [mul_assoc, hd, mul_one]

theorem q1_inverse (position : Axis → ℝ) : (inverse exactTrig position).q1 =
    if radius position < singularRadius then 0 else baseAngle position := by
  have hr : 0 ≤ radius position := Real.sqrt_nonneg _
  rw [inverse_eq]
  simp only [backwards, branch, neg_mul, one_mul, abs_neg, abs_of_nonneg hr]
  rfl

/-- Outside of the singular radius the inverse kinematics reaches the pose. -/
theorem forward_inverse_of_le {position : Axis → ℝ} (h : singularRadius ≤ radius position) :
    (inverse exactTrig position).forward = Pose.ofCoords position := by
  have hq1 : (inverse exactTrig position).q1 = baseAngle position := by
    rw [q1_inverse, if_neg (not_lt.mpr h)]
  have hturn : (inverse exactTrig position).turn (baseAngle position) =
      inverse exactTrig position := by
    rw [← hq1]
    rfl
  rw [← hturn, forward_inverse]

/-- Inside of it the base is not turned. -/
theorem forward_inverse_of_lt {position : Axis → ℝ} (h : radius position < singularRadius) :
    (inverse exactTrig position).forward =
      ⟨-radius position * 1000, 0, position .z, position .a⟩ := by
  have hq1 : (inverse exactTrig position).q1 = 0 := by
    rw [q1_inverse, if_pos h]
  obtain ⟨-, -, hz, ha⟩ := Pose.ext_iff.mp (forward_inverse position)
  ext
  · simp [forward, hq1, gamma_inverse]
  · simp [forward, hq1]
  · exact hz
  · exact ha

/-- Joints within their limits that reach a pose show that the inverse kinematics is within them,
whichever way the arm reaches. -/
theorem inLimits_inverse {q : Joints ℝ} {position : Axis → ℝ} (hq : q.InLimits)
    (h : q.forward = Pose.ofCoords position) : (inverse exactTrig position).InLimits := by
  obtain ⟨hx, hy, hz, ha⟩ := Pose.ext_iff.mp h
  simp only [forward, Pose.ofCoords] at hx hy hz ha
  have hd := deg2rad_mul_rad2deg
  have hq4 : position .a * deg2rad = q.q4 := by
    rw [← ha, mul_assoc, mul_comm rad2deg, hd, mul_one]
  have hr : 0 ≤ radius position := Real.sqrt_nonneg _
  have hsq : radius position * radius position = q.gamma * q.gamma := by
    rw [radius_mul_self, ← hx, ← hy]
    linear_combination q.gamma * q.gamma * Real.cos_sq_add_sin_sq q.q1
  have hz' : (position .z / 1000 - l2 + d * Real.sin (position .a * deg2rad)) * 1000 = q.q2 := by
    rw [hq4, ← hz]
    ring
  rw [inverse_eq]
  constructor
  · exact within_branch _ _ (position .a * deg2rad) _ _
  · exact hz' ▸ hq.q2
  · -- The arm reaches backwards with the joints given, or forwards as on the positive branch.
    rcases mul_self_eq_mul_self_iff.mp hsq with hg | hg
    · apply within_negative hr
      have : (branch exactTrig (position .x / 1000) (position .y / 1000) (position .a * deg2rad)
          (radius position) 1).2 * 1000 = q.q3 := by
        simp only [branch, exactTrig, hg, hq4, gamma]
        ring
      exact this ▸ hq.q3
    · have : (backwards position).2 * 1000 = q.q3 := by
        simp only [backwards, branch, exactTrig, hg, hq4, gamma]
        ring
      exact this ▸ hq.q3
  · exact hq4 ▸ hq.q4

theorem inLimits_turn {q : Joints ℝ} (h : q.InLimits) (y x : ℝ) :
    (q.turn (Polar.angle y x)).InLimits :=
  ⟨within_angle y x, h.q2, h.q3, h.q4⟩

/-- The point at the radius of a pose on the negative X axis is at most a diameter away from it. -/
theorem sqrt_le_two_mul_radius (position : Axis → ℝ) :
    √((-radius position * 1000 - position .x) ^ 2 + (0 - position .y) ^ 2) ≤
      2 * (1000 * radius position) := by
  have hr : 0 ≤ radius position := Real.sqrt_nonneg _
  have hsq := radius_mul_self position
  have hx : position .x ≤ 1000 * radius position := by
    nlinarith [mul_self_nonneg (position .y)]
  apply Real.sqrt_le_iff.mpr
  constructor
  · positivity
  · nlinarith

/-- A pose is accepted exactly when joints within their widened limits reach it. The motor target
then decodes to joints within the limits, and gives back the pitch, the height and, outside of the
singular radius, the position of the pose; inside of it the position is off by at most twice the
radius of the pose. -/
theorem transformFromCartesian_correct (k : Kinematics ℝ) (hk : k.jointMode = false)
    (target position : Axis → ℝ) :
    let motors := (transformFromCartesian exactTrig k target position).1
    let back := transformToCartesian exactTrig motors
    let violation :=
      (transformFromCartesian exactTrig k target position).2.jointLimitViolation
    (violation = false ↔ ∃ q : Joints ℝ, q.InLimits ∧ q.forward = Pose.ofCoords position) ∧
    (violation = false →
      (decode motors).InLimits ∧ back .z = position .z ∧ back .a = position .a ∧
      (singularRadius ≤ radius position → back .x = position .x ∧ back .y = position .y) ∧
      (radius position < singularRadius →
        √((back .x - position .x) ^ 2 + (back .y - position .y) ^ 2) ≤
          2 * (1000 * radius position))) := by
  intro motors back violation
  have hdec : decode motors = inverse exactTrig position :=
    decode_transformFromCartesian hk target position
  have hback : Pose.ofCoords back = (inverse exactTrig position).forward := by
    rw [transformToCartesian_eq, hdec]
  have hviol : violation = !decide (inverse exactTrig position).InLimits := by
    simp only [violation, transformFromCartesian, hk, Bool.false_eq_true, if_false]
  constructor
  · rw [hviol, Bool.not_eq_false', decide_eq_true_iff]
    constructor
    · intro h
      exact ⟨_, inLimits_turn h _ _, forward_inverse position⟩
    · rintro ⟨q, hq, hf⟩
      exact inLimits_inverse hq hf
  · intro h
    rw [hviol, Bool.not_eq_false', decide_eq_true_iff] at h
    obtain ⟨hx, hy, hz, ha⟩ := Pose.ext_iff.mp hback
    obtain ⟨-, -, hz', ha'⟩ := Pose.ext_iff.mp (forward_inverse position)
    refine ⟨hdec ▸ h, hz.trans hz', ha.trans ha', ?_, ?_⟩
    · intro hr
      rw [forward_inverse_of_le hr] at hx hy
      exact ⟨hx, hy⟩
    · intro hr
      rw [forward_inverse_of_lt hr] at hx hy
      simp only [Pose.ofCoords] at hx hy
      rw [hx, hy]
      exact sqrt_le_two_mul_radius position

/-- A pose half a nanometre from the axis of the base. -/
noncomputable def nearAxis : Axis → ℝ
  | .x => 5 / 10 ^ 7
  | .z => 160
  | _ => 0

theorem radius_nearAxis : radius nearAxis = 5 / 10 ^ 10 := by
  have h : nearAxis .x / 1000 * (nearAxis .x / 1000) + nearAxis .y / 1000 * (nearAxis .y / 1000) =
      5 / 10 ^ 10 * (5 / 10 ^ 10) := by
    norm_num [nearAxis]
  rw [radius, h, Real.sqrt_mul_self (by positivity)]

theorem inLimits_nearAxis : (inverse exactTrig nearAxis).InLimits := by
  constructor
  · rw [inverse_eq]
    exact within_branch _ _ (nearAxis .a * deg2rad) _ _
  · rw [inverse_eq]
    norm_num [Within, nearAxis, link2LimitLow, link2LimitHigh, linkLimitEps, l2, d]
  · rw [inverse_eq]
    norm_num [Within, backwards, branch, exactTrig, radius_nearAxis, nearAxis, link3LimitLow,
      link3LimitHigh, linkLimitEps, l1, l3, d]
  · rw [inverse_eq]
    norm_num [Within, nearAxis, link4LimitAngleLow, link4LimitAngleHigh, linkLimitEps]

theorem transformFromCartesian_nearAxis :
    (decode (transformFromCartesian exactTrig ⟨false, false, 0, fun _ => 0⟩ (fun _ => 0)
      nearAxis).1).InLimits := by
  refine ((transformFromCartesian_correct ⟨false, false, 0, fun _ => 0⟩ rfl (fun _ => 0)
    nearAxis).2 ?_).1
  simp [transformFromCartesian, inLimits_nearAxis]

/-- It is accepted, and comes back on the other side of the axis: the error is the diameter. -/
theorem diameter_error_nearAxis :
    let r := transformFromCartesian exactTrig ⟨false, false, 0, fun _ => 0⟩ (fun _ => 0) nearAxis
    let back := transformToCartesian exactTrig r.1
    r.2.jointLimitViolation = false ∧ radius nearAxis < singularRadius ∧
      1000 * radius nearAxis <
        √((back .x - nearAxis .x) ^ 2 + (back .y - nearAxis .y) ^ 2) := by
  intro r back
  have hr : radius nearAxis < singularRadius := by
    rw [radius_nearAxis]
    norm_num [singularRadius]
  have hback : Pose.ofCoords back = (inverse exactTrig nearAxis).forward := by
    rw [transformToCartesian_eq, decode_transformFromCartesian rfl]
  rw [forward_inverse_of_lt hr] at hback
  obtain ⟨hx, hy, -, -⟩ := Pose.ext_iff.mp hback
  simp only [Pose.ofCoords, radius_nearAxis] at hx hy
  refine ⟨?_, hr, ?_⟩
  · simp [r, transformFromCartesian, inLimits_nearAxis]
  · rw [hx, hy, radius_nearAxis]
    apply Real.lt_sqrt_of_sq_lt
    norm_num [nearAxis]

end Kinematics

end Inspector
