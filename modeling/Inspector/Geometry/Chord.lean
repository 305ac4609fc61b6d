import Inspector.Geometry.Polar

/-! # Arcs over a chord

The centre of an arc over a chord lies on the perpendicular bisector of the chord. It is given by
its distance from the chord, as a multiple of half the chord's length and positive on the left of
the chord. The angle at the centre, from the start of the chord to its end, has the sign of this
number, and its size tells the length of the chord.
-/

namespace Chord

variable {x y h r ε : ℝ}

/-- The centre for the chord from the origin to `(x, y)`. -/
noncomputable def center (x y h : ℝ) : ℝ × ℝ := (1 / 2 * (x - y * h), 1 / 2 * (y + x * h))

/-- The circle around the centre has this radius. -/
def Spans (x y h r : ℝ) : Prop := 4 * r ^ 2 = (x ^ 2 + y ^ 2) * (1 + h ^ 2)

/-- The angle at the centre. -/
noncomputable def angle (x y h : ℝ) : ℝ :=
  Polar.angle ((x ^ 2 + y ^ 2) / 2 * h) ((x ^ 2 + y ^ 2) / 4 * (h ^ 2 - 1))

theorem center_start (hr : Spans x y h r) :
    (center x y h).1 ^ 2 + (center x y h).2 ^ 2 = r ^ 2 := by
  unfold Spans at hr
  simp only [center]
  linear_combination -hr / 4

theorem center_end (hr : Spans x y h r) :
    (x - (center x y h).1) ^ 2 + (y - (center x y h).2) ^ 2 = r ^ 2 := by
  unfold Spans at hr
  simp only [center]
  linear_combination -hr / 4

/-- The angle as `atan2` has it, of the radius vectors at the ends. -/
theorem angle_eq (x y h : ℝ) :
    Polar.angle
        (-(center x y h).1 * (y - (center x y h).2) - -(center x y h).2 * (x - (center x y h).1))
        (-(center x y h).1 * (x - (center x y h).1) + -(center x y h).2 * (y - (center x y h).2)) =
      angle x y h := by
  unfold angle
  congr 1 <;> simp only [center] <;> ring

section Positive

variable (hd : 0 < x ^ 2 + y ^ 2)

include hd

theorem angle_neg_iff : angle x y h < 0 ↔ h < 0 := by
  rw [angle, Polar.angle, Complex.arg_neg_iff]
  constructor
  · intro hneg
    by_contra hh
    have := mul_nonneg (half_pos hd).le (not_lt.mp hh)
    exact absurd hneg (not_lt.mpr this)
  · exact fun hh => mul_neg_of_pos_of_neg (half_pos hd) hh

/-- Over a diameter the angle is a half turn. -/
theorem angle_zero : angle x y 0 = Real.pi := by
  rw [angle, Polar.angle, Complex.arg_eq_pi_iff]
  constructor
  · change (x ^ 2 + y ^ 2) / 4 * (0 ^ 2 - 1) < 0
    linarith
  · exact mul_zero _

theorem angle_ne_pi (hh : h ≠ 0) : angle x y h ≠ Real.pi := by
  rw [angle, Polar.angle, Ne, Complex.arg_eq_pi_iff, not_and]
  exact fun _ => mul_ne_zero (half_pos hd).ne' hh

/-- The angle is that of a chord of the given length. -/
theorem cos_angle (hr : Spans x y h r) :
    Real.cos (angle x y h) = 1 - (x ^ 2 + y ^ 2) / (2 * r ^ 2) := by
  have hr2 : 0 < r ^ 2 := by
    unfold Spans at hr
    nlinarith [mul_pos hd (by positivity : (0 : ℝ) < 1 + h ^ 2)]
  set z : ℂ := ⟨(x ^ 2 + y ^ 2) / 4 * (h ^ 2 - 1), (x ^ 2 + y ^ 2) / 2 * h⟩ with hz
  have hnorm : ‖z‖ = r ^ 2 := by
    have hsq : ‖z‖ ^ 2 = (r ^ 2) ^ 2 := by
      unfold Spans at hr
      rw [Complex.sq_norm, Complex.normSq_mk]
      linear_combination -(4 * r ^ 2 + (x ^ 2 + y ^ 2) * (1 + h ^ 2)) / 16 * hr
    exact (pow_left_inj₀ (norm_nonneg _) hr2.le two_ne_zero).mp hsq
  have hz0 : z ≠ 0 := norm_ne_zero_iff.mp (hnorm ▸ hr2.ne')
  have hcos : Real.cos (angle x y h) = z.re / ‖z‖ := Complex.cos_arg hz0
  have hr0 : r ≠ 0 := (pow_ne_zero_iff two_ne_zero).mp hr2.ne'
  unfold Spans at hr
  rw [hcos, hnorm, hz]
  field_simp
  linear_combination -2 * hr

/-- The angle exceeds a given one exactly if the chord is longer than that of the given angle. -/
theorem lt_abs_angle_iff (hr : Spans x y h r) (h0 : 0 ≤ ε) (hε : ε ≤ Real.pi) :
    ε < |angle x y h| ↔ 2 * |r| * Real.sin (ε / 2) < Real.sqrt (x ^ 2 + y ^ 2) := by
  have hr2 : 0 < r ^ 2 := by
    unfold Spans at hr
    nlinarith [mul_pos hd (by positivity : (0 : ℝ) < 1 + h ^ 2)]
  have hsin : 0 ≤ Real.sin (ε / 2) :=
    Real.sin_nonneg_of_nonneg_of_le_pi (by linarith) (by linarith)
  have hcos : Real.cos ε = 1 - 2 * Real.sin (ε / 2) ^ 2 := by
    have htwo := Real.cos_two_mul (ε / 2)
    rw [mul_div_cancel₀ ε two_ne_zero] at htwo
    linarith [Real.sin_sq_add_cos_sq (ε / 2)]
  have hmem : |angle x y h| ∈ Set.Icc 0 Real.pi := ⟨abs_nonneg _, Polar.abs_angle_le_pi _ _⟩
  rw [← Real.strictAntiOn_cos.lt_iff_gt hmem ⟨h0, hε⟩, Real.cos_abs, cos_angle hd hr, hcos,
    Real.lt_sqrt (by positivity), sub_lt_sub_iff_left, lt_div_iff₀ (by positivity), mul_pow,
    mul_pow, sq_abs]
  constructor <;> intro hlt <;> linarith

end Positive

end Chord
