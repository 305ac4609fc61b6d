import Inspector.Kinematics.Inverse

/-! # Taking the motors to a pose and back

The forward kinematics is two-to-one: the arm reaches a pose backwards or, with the base turned by
half a turn and the rail further out, forwards. The inverse kinematics answers with the arm reaching
backwards, so the motors come back the same exactly when the arm does.
-/

namespace Inspector

open Arm

namespace Kinematics

open Joints

variable {motors motors' : Axis → ℝ}

/-- The joints tell the motors, apart from the one that is not used. -/
theorem decode_eq_iff : decode motors = decode motors' ↔
    motors .x = motors' .x ∧ motors .y = motors' .y ∧ motors .z = motors' .z ∧
      motors .a = motors' .a := by
  constructor
  · intro h
    obtain ⟨h1, h2, h3, h4⟩ := Joints.ext_iff.mp h
    simp only [decode] at h1 h2 h3 h4
    have hscale : (yScale * deg2rad : ℝ) ≠ 0 := by norm_num [yScale, deg2rad, pi]
    have hdiff : motors .y - motors .x = motors' .y - motors' .x := by
      apply mul_right_cancel₀ hscale
      linear_combination 2 * h4
    refine ⟨?_, ?_, h2, h1⟩ <;> linarith
  · rintro ⟨hx, hy, hz, ha⟩
    simp only [decode, hx, hy, hz, ha]

/-- The radius of the pose that the motors reach. -/
theorem radius_transformToCartesian (motors : Axis → ℝ) :
    radius (transformToCartesian exactTrig motors) = |(decode motors).gamma| := by
  obtain ⟨hx, hy, -, -⟩ := Pose.ext_iff.mp (transformToCartesian_eq motors)
  simp only [Pose.ofCoords, forward] at hx hy
  have hsum : (decode motors).gamma * Real.cos (decode motors).q1 * 1000 / 1000 *
      ((decode motors).gamma * Real.cos (decode motors).q1 * 1000 / 1000) +
      (decode motors).gamma * Real.sin (decode motors).q1 * 1000 / 1000 *
      ((decode motors).gamma * Real.sin (decode motors).q1 * 1000 / 1000) =
      (decode motors).gamma * (decode motors).gamma := by
    linear_combination (decode motors).gamma * (decode motors).gamma *
      Real.cos_sq_add_sin_sq (decode motors).q1
  rw [radius, hx, hy, hsum, Real.sqrt_mul_self_eq_abs]

/-- The joints of the inverse kinematics at the pose that the motors reach. -/
theorem inverse_transformToCartesian (hr : singularRadius ≤ |(decode motors).gamma|) :
    let q := decode motors
    inverse exactTrig (transformToCartesian exactTrig motors) =
      ⟨Polar.angle (q.gamma * Real.sin q.q1 / -|q.gamma|) (q.gamma * Real.cos q.q1 / -|q.gamma|),
        q.q2, q.q3 - (q.gamma + |q.gamma|) * 1000, q.q4⟩ := by
  intro q
  obtain ⟨hx, hy, hz, ha⟩ := Pose.ext_iff.mp (transformToCartesian_eq motors)
  simp only [Pose.ofCoords, forward] at hx hy hz ha
  have hradius := radius_transformToCartesian motors
  have hq4 : transformToCartesian exactTrig motors .a * deg2rad = q.q4 := by
    rw [ha, mul_assoc, mul_comm rad2deg, deg2rad_mul_rad2deg, mul_one]
  ext
  · rw [q1_inverse, if_neg (not_lt.mpr (hradius ▸ hr)), baseAngle, hradius, hx, hy,
      mul_div_cancel_right₀ _ (by norm_num), mul_div_cancel_right₀ _ (by norm_num)]
  · rw [inverse_eq, hq4, hz]
    simp only [q]
    ring
  · have hgamma : (inverse exactTrig (transformToCartesian exactTrig motors)).gamma =
        -|q.gamma| := by
      rw [gamma_inverse, hradius]
    have hsame : (inverse exactTrig (transformToCartesian exactTrig motors)).q4 = q.q4 := hq4
    rw [gamma, hsame] at hgamma
    have hq : q.gamma = q.q3 / 1000 + d * Real.cos q.q4 - l1 + l3 := rfl
    simp only
    linear_combination 1000 * hgamma + 1000 * hq
  · exact hq4

/-- Away from the axis of the base the motors come back the same exactly when the arm reaches
backwards and the base is turned by less than half a turn. When it reaches forwards the base comes
back turned by half a turn and the rail on the other side, at the same pose. -/
theorem transformFromCartesian_transformToCartesian {k : Kinematics ℝ} (hk : k.jointMode = false)
    (target motors : Axis → ℝ) (hr : singularRadius ≤ |(decode motors).gamma|) :
    let q := decode motors
    let pose := transformToCartesian exactTrig motors
    let again := (transformFromCartesian exactTrig k target pose).1
    ((again .x = motors .x ∧ again .y = motors .y ∧ again .z = motors .z ∧ again .a = motors .a) ↔
      q.gamma < 0 ∧ q.q1 ∈ Set.Ioc (-Real.pi) Real.pi) ∧
    (0 < q.gamma → (decode again).q3 = q.q3 - 2 * (q.gamma * 1000) ∧ (decode again).q2 = q.q2 ∧
      (decode again).q4 = q.q4 ∧ ((decode again).q1 : Real.Angle) = q.q1 + Real.pi ∧
      (decode again).forward = q.forward) := by
  intro q pose again
  have hagain : decode again = _ :=
    (decode_transformFromCartesian hk target pose).trans (inverse_transformToCartesian hr)
  have hpos : (0 : ℝ) < |q.gamma| :=
    lt_of_lt_of_le (by norm_num [singularRadius]) hr
  constructor
  · rw [← decode_eq_iff, hagain]
    constructor
    · intro h
      obtain ⟨h1, -, h3, -⟩ := Joints.ext_iff.mp h
      simp only at h1 h3
      have hneg : q.gamma < 0 := by
        have hsum : q.gamma + |q.gamma| = 0 := by
          have hq3 : q.q3 - (q.gamma + |q.gamma|) * 1000 = q.q3 := h3
          linarith
        linarith
      refine ⟨hneg, ?_⟩
      have hq1 : q.q1 = _ := h1.symm
      rw [hq1]
      exact Complex.arg_mem_Ioc _
    · rintro ⟨hneg, hq1⟩
      have habs : -|q.gamma| = q.gamma := by rw [abs_of_neg hneg, neg_neg]
      have hne : q.gamma ≠ 0 := hneg.ne
      ext
      · simp only
        change Polar.angle (q.gamma * Real.sin q.q1 / -|q.gamma|)
          (q.gamma * Real.cos q.q1 / -|q.gamma|) = q.q1
        rw [habs, mul_div_cancel_left₀ _ hne, mul_div_cancel_left₀ _ hne]
        have hunit := Polar.angle_mul_cos_sin one_pos hq1
        rwa [one_mul, one_mul] at hunit
      · rfl
      · change q.q3 - (q.gamma + |q.gamma|) * 1000 = q.q3
        rw [abs_of_neg hneg]
        ring
      · rfl
  · intro hgamma
    have hne : q.gamma ≠ 0 := hgamma.ne'
    refine ⟨?_, ?_, ?_, ?_, ?_⟩
    · rw [hagain]
      change q.q3 - (q.gamma + |q.gamma|) * 1000 = q.q3 - 2 * (q.gamma * 1000)
      rw [abs_of_pos hgamma]
      ring
    · rw [hagain]
    · rw [hagain]
    · rw [hagain]
      change (Polar.angle (q.gamma * Real.sin q.q1 / -|q.gamma|)
        (q.gamma * Real.cos q.q1 / -|q.gamma|) : Real.Angle) = q.q1 + Real.pi
      rw [abs_of_pos hgamma, div_neg, div_neg, mul_div_cancel_left₀ _ hne,
        mul_div_cancel_left₀ _ hne, ← Real.sin_add_pi, ← Real.cos_add_pi, Polar.coe_angle_sin_cos,
        Real.Angle.coe_add]
    · rw [decode_transformFromCartesian hk target pose, forward_inverse_of_le, transformToCartesian_eq]
      rwa [radius_transformToCartesian]

/-- The motors with the rail at some millimetres, the vertical rail at 100 mm and the other joints
at zero. -/
def withRail (q3 : ℝ) : Axis → ℝ
  | .x => -q3
  | .y => -q3
  | .z => 100
  | _ => 0

theorem decode_withRail (q3 : ℝ) : decode (withRail q3) = ⟨0, 100, q3, 0⟩ := by
  ext
  · rfl
  · rfl
  · simp only [decode, withRail]
    ring
  · simp [decode, withRail]

theorem gamma_withRail (q3 : ℝ) : (decode (withRail q3)).gamma = q3 / 1000 - 9 / 100 := by
  rw [decode_withRail, gamma, Real.cos_zero]
  norm_num [d, l1, l3]
  ring

theorem resync_withRail :
    let again := (transformFromCartesian exactTrig ⟨false, false, 0, fun _ => 0⟩ (fun _ => 0)
      (transformToCartesian exactTrig (withRail 60))).1
    again .x = -60 ∧ again .y = -60 ∧ again .z = 100 ∧ again .a = 0 := by
  have hgamma := gamma_withRail 60
  refine ((transformFromCartesian_transformToCartesian (k := ⟨false, false, 0, fun _ => 0⟩) rfl
    (fun _ => 0) (withRail 60) ?_).1).mpr ⟨?_, ?_⟩
  · rw [hgamma]
    norm_num [singularRadius]
  · rw [hgamma]
    norm_num
  · rw [decode_withRail]
    exact ⟨neg_lt_zero.mpr Real.pi_pos, Real.pi_nonneg⟩

/-- With the rail at 120 mm the arm reaches forwards, and the motors come back at 60 mm. -/
theorem not_resync : ¬∀ motors : Axis → ℝ, (decode motors).InLimits →
    singularRadius ≤ |(decode motors).gamma| →
    let again := (transformFromCartesian exactTrig ⟨false, false, 0, fun _ => 0⟩ (fun _ => 0)
      (transformToCartesian exactTrig motors)).1
    again .x = motors .x ∧ again .y = motors .y ∧ again .z = motors .z ∧ again .a = motors .a := by
  intro h
  have hgamma := gamma_withRail 120
  have hr : singularRadius ≤ |(decode (withRail 120)).gamma| := by
    rw [hgamma]
    norm_num [singularRadius]
  have hlimits : (decode (withRail 120)).InLimits := by
    rw [decode_withRail]
    constructor <;> norm_num [Within, link1LimitAngleLow, link1LimitAngleHigh, link2LimitLow,
      link2LimitHigh, link3LimitLow, link3LimitHigh, link4LimitAngleLow, link4LimitAngleHigh,
      linkLimitEps]
  have hsame := decode_eq_iff.mpr (h (withRail 120) hlimits hr)
  rw [decode_transformFromCartesian rfl, inverse_transformToCartesian hr] at hsame
  have hq3 := (Joints.ext_iff.mp hsame).2.2.1
  rw [hgamma] at hq3
  norm_num at hq3

end Kinematics

end Inspector
