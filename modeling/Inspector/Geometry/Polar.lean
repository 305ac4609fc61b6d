import Inspector.Numerals
import Mathlib.Analysis.SpecialFunctions.Complex.Arg

/-! # Signed polar coordinates

A point of the plane is given by a signed radius and an angle. The angle of `atan2` for the point
divided by the radius gives the point back, whichever of its two signs the radius has.
-/

namespace Polar

variable {γ x y : ℝ}

/-- `atan2`. -/
noncomputable def angle (y x : ℝ) : ℝ := Complex.arg ⟨x, y⟩

theorem abs_angle_le_pi (y x : ℝ) : |angle y x| ≤ Real.pi := Complex.abs_arg_le_pi _

theorem norm_div (hγ : γ ≠ 0) (h : γ * γ = x * x + y * y) :
    ‖(⟨x / γ, y / γ⟩ : ℂ)‖ = 1 := by
  have hsq : ‖(⟨x / γ, y / γ⟩ : ℂ)‖ ^ 2 = 1 := by
    rw [Complex.sq_norm, Complex.normSq_mk]
    field_simp
    linarith
  exact (pow_eq_one_iff_of_nonneg (norm_nonneg _) two_ne_zero).mp hsq

theorem mul_cos_angle (h : γ * γ = x * x + y * y) :
    γ * Real.cos (angle (y / γ) (x / γ)) = x := by
  rcases eq_or_ne γ 0 with rfl | hγ
  · have : x * x = 0 := by nlinarith [mul_self_nonneg x, mul_self_nonneg y]
    rw [zero_mul, mul_self_eq_zero.mp this]
  · have hn := Complex.norm_mul_cos_arg ⟨x / γ, y / γ⟩
    rw [norm_div hγ h, one_mul] at hn
    rw [angle, hn]
    exact mul_div_cancel₀ x hγ

theorem mul_sin_angle (h : γ * γ = x * x + y * y) :
    γ * Real.sin (angle (y / γ) (x / γ)) = y := by
  rcases eq_or_ne γ 0 with rfl | hγ
  · have : y * y = 0 := by nlinarith [mul_self_nonneg x, mul_self_nonneg y]
    rw [zero_mul, mul_self_eq_zero.mp this]
  · have hn := Complex.norm_mul_sin_arg ⟨x / γ, y / γ⟩
    rw [norm_div hγ h, one_mul] at hn
    rw [angle, hn]
    exact mul_div_cancel₀ y hγ

theorem norm_mk (x y : ℝ) : ‖(⟨x, y⟩ : ℂ)‖ = √(x * x + y * y) := by
  rw [Complex.norm_def, Complex.normSq_mk]

/-- The distance and the angle of a point are its polar coordinates. -/
theorem sqrt_mul_cos_angle (x y : ℝ) : √(x * x + y * y) * Real.cos (angle y x) = x := by
  rw [← norm_mk, angle]
  exact Complex.norm_mul_cos_arg ⟨x, y⟩

theorem sqrt_mul_sin_angle (x y : ℝ) : √(x * x + y * y) * Real.sin (angle y x) = y := by
  rw [← norm_mk, angle]
  exact Complex.norm_mul_sin_arg ⟨x, y⟩

/-- The angle of a point in the direction of an angle, on either side of the origin. -/
theorem angle_mul_cos_sin {r θ : ℝ} (hr : 0 < r) (hθ : θ ∈ Set.Ioc (-Real.pi) Real.pi) :
    angle (r * Real.sin θ) (r * Real.cos θ) = θ := by
  have hpoint : (⟨r * Real.cos θ, r * Real.sin θ⟩ : ℂ) =
      r * (Complex.cos θ + Complex.sin θ * Complex.I) := by
    apply Complex.ext <;> simp [Complex.cos_ofReal_re, Complex.sin_ofReal_re]
  rw [angle, hpoint, Complex.arg_mul_cos_add_sin_mul_I hr hθ]

/-- Up to full turns it is that angle. -/
theorem coe_angle_sin_cos (θ : ℝ) : (angle (Real.sin θ) (Real.cos θ) : Real.Angle) = θ := by
  have hpoint : (⟨Real.cos θ, Real.sin θ⟩ : ℂ) =
      (Real.Angle.cos θ : ℂ) + (Real.Angle.sin θ : ℂ) * Complex.I := by
    apply Complex.ext <;> simp [Complex.cos_ofReal_re, Complex.sin_ofReal_re]
  rw [angle, hpoint, Complex.arg_cos_add_sin_mul_I_coe_angle]

variable {a b r s : ℝ}

/-- The sine is not affine: its values at two quarters of an interval tell that the interval is a
point. -/
theorem eq_of_sin_affine (ha : |a| < Real.pi) (hb : |b| < Real.pi)
    (h2 : Real.sin (a + 1 / 2 * (b - a)) = Real.sin a + 1 / 2 * (Real.sin b - Real.sin a))
    (h4 : Real.sin (a + 1 / 4 * (b - a)) = Real.sin a + 1 / 4 * (Real.sin b - Real.sin a)) :
    a = b := by
  obtain ⟨ha1, ha2⟩ := abs_lt.mp ha
  obtain ⟨hb1, hb2⟩ := abs_lt.mp hb
  obtain ⟨c, hc⟩ : ∃ c, c = (a + b) / 2 := ⟨_, rfl⟩
  obtain ⟨e, he⟩ : ∃ e, e = (b - a) / 2 := ⟨_, rfl⟩
  obtain rfl : a = c - e := by linarith
  obtain rfl : b = c + e := by linarith
  have hmid : Real.sin c * (1 - Real.cos e) = 0 := by
    have : c - e + 1 / 2 * (c + e - (c - e)) = c := by ring
    rw [this, Real.sin_sub, Real.sin_add] at h2
    linarith
  have hzero : e = 0 := by
    rcases mul_eq_zero.mp hmid with hs | hcos
    · have hc0 : c = 0 := (Real.sin_eq_zero_iff_of_lt_of_lt (by linarith) (by linarith)).mp hs
      subst hc0
      have hhalf : Real.sin (e / 2) * (1 - Real.cos (e / 2)) = 0 := by
        have h1 : 0 - e + 1 / 4 * (0 + e - (0 - e)) = -(e / 2) := by ring
        have h3 : Real.sin e = 2 * Real.sin (e / 2) * Real.cos (e / 2) := by
          rw [← Real.sin_two_mul]
          congr 1
          ring
        rw [h1, zero_sub, zero_add, Real.sin_neg, Real.sin_neg, h3] at h4
        linarith
      rcases mul_eq_zero.mp hhalf with hs | hcos
      · have := (Real.sin_eq_zero_iff_of_lt_of_lt (by linarith) (by linarith)).mp hs
        linarith
      · have := (Real.cos_eq_one_iff_of_lt_of_lt (by linarith) (by linarith)).mp
          (sub_eq_zero.mp hcos).symm
        linarith
    · exact (Real.cos_eq_one_iff_of_lt_of_lt (by linarith) (by linarith)).mp
        (sub_eq_zero.mp hcos).symm
  rw [hzero]
  ring

/-- The mean radius at the mean angle is collinear with two points only when the points have one
angle or are both the origin. -/
theorem eq_of_collinear_mean (hrs : 0 ≤ r * s) (hab : |b - a| < 2 * Real.pi)
    (h : (s * Real.cos b - r * Real.cos a) *
          ((r + s) / 2 * Real.sin ((a + b) / 2) - r * Real.sin a) =
        (s * Real.sin b - r * Real.sin a) *
          ((r + s) / 2 * Real.cos ((a + b) / 2) - r * Real.cos a)) :
    a = b ∨ r = 0 ∧ s = 0 := by
  obtain ⟨hab1, hab2⟩ := abs_lt.mp hab
  obtain ⟨c, hc⟩ : ∃ c, c = (a + b) / 2 := ⟨_, rfl⟩
  obtain ⟨e, he⟩ : ∃ e, e = (b - a) / 2 := ⟨_, rfl⟩
  obtain rfl : a = c - e := by linarith
  obtain rfl : b = c + e := by linarith
  have hdet : Real.sin e * (4 * (r * s) * Real.cos e - (r + s) ^ 2) = 0 := by
    rw [← hc, Real.sin_sub, Real.sin_add, Real.cos_sub, Real.cos_add] at h
    linear_combination 2 * h - Real.sin e * (4 * (r * s) * Real.cos e - (r + s) ^ 2) *
      Real.cos_sq_add_sin_sq c
  rcases mul_eq_zero.mp hdet with hs | hcos
  · left
    have := (Real.sin_eq_zero_iff_of_lt_of_lt (by linarith) (by linarith)).mp hs
    linarith
  · have hle : r * s * Real.cos e ≤ r * s :=
      mul_le_of_le_one_right hrs (Real.cos_le_one e)
    obtain rfl : r = s := by nlinarith [sq_nonneg (r - s)]
    rcases eq_or_ne r 0 with h0 | h0
    · exact .inr ⟨h0, h0⟩
    · left
      have h1 : Real.cos e = 1 := by
        have : r * r * (Real.cos e - 1) = 0 := by linarith
        rcases mul_eq_zero.mp this with hr | hc1
        · exact absurd (mul_self_eq_zero.mp hr) h0
        · linarith
      have := (Real.cos_eq_one_iff_of_lt_of_lt (by linarith) (by linarith)).mp h1
      linarith

end Polar
