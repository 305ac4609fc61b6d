import Inspector.Geometry.Polar

/-! # Arcs of a circle and their extent

A point is turned around the origin, so that it runs along a circle. On an arc the coordinate in a
direction is largest at an end of the arc, unless the arc passes the direction itself.
-/

namespace Rotation

variable {p q : ℝ × ℝ} {r s t ψ e : ℝ}

/-- The point turned by an angle. -/
noncomputable def turn (p : ℝ × ℝ) (t : ℝ) : ℝ × ℝ :=
  (p.1 * Real.cos t - p.2 * Real.sin t, p.1 * Real.sin t + p.2 * Real.cos t)

/-- The angle of a point, more than minus and at most a half turn. -/
noncomputable def angle (p : ℝ × ℝ) : ℝ := Polar.angle p.2 p.1

/-- The point lies on a circle around the origin. -/
def OnCircle (p : ℝ × ℝ) (r : ℝ) : Prop := p.1 ^ 2 + p.2 ^ 2 = r ^ 2

/-- The coordinate in a direction. -/
noncomputable def coord (e : ℝ) (p : ℝ × ℝ) : ℝ := p.1 * Real.cos e + p.2 * Real.sin e

theorem turn_turn (p : ℝ × ℝ) (s t : ℝ) : turn (turn p s) t = turn p (s + t) := by
  ext <;> simp only [turn, Real.cos_add, Real.sin_add] <;> ring

@[simp] theorem turn_zero (p : ℝ × ℝ) : turn p 0 = p := by
  ext <;> simp [turn]

@[simp] theorem turn_two_pi (p : ℝ × ℝ) : turn p (2 * Real.pi) = p := by
  ext <;> simp [turn]

/-- Full turns change nothing. -/
theorem turn_add_turns (p : ℝ × ℝ) (t : ℝ) (k : ℤ) :
    turn p (t + k * (2 * Real.pi)) = turn p t := by
  simp only [turn, Real.cos_add_int_mul_two_pi, Real.sin_add_int_mul_two_pi]

theorem onCircle_turn (h : OnCircle p r) (t : ℝ) : OnCircle (turn p t) r := by
  unfold OnCircle at *
  simp only [turn]
  linear_combination h + (p.1 ^ 2 + p.2 ^ 2) * Real.cos_sq_add_sin_sq t

theorem OnCircle.abs_fst_le (h : OnCircle p r) (hr : 0 ≤ r) : |p.1| ≤ r :=
  abs_le_of_sq_le_sq (by unfold OnCircle at h; nlinarith [sq_nonneg p.2]) hr

theorem OnCircle.abs_snd_le (h : OnCircle p r) (hr : 0 ≤ r) : |p.2| ≤ r :=
  abs_le_of_sq_le_sq (by unfold OnCircle at h; nlinarith [sq_nonneg p.1]) hr

theorem OnCircle.snd_eq_zero (h : OnCircle p r) (hp : p.1 ^ 2 = r ^ 2) : p.2 = 0 := by
  unfold OnCircle at h
  exact pow_eq_zero_iff two_ne_zero |>.mp (by linarith)

theorem OnCircle.fst_eq_zero (h : OnCircle p r) (hp : p.2 ^ 2 = r ^ 2) : p.1 = 0 := by
  unfold OnCircle at h
  exact pow_eq_zero_iff two_ne_zero |>.mp (by linarith)

section Polar

variable (h : OnCircle p r) (hr : 0 < r)

include h hr

theorem OnCircle.norm : ‖(⟨p.1, p.2⟩ : ℂ)‖ = r := by
  have hsq : ‖(⟨p.1, p.2⟩ : ℂ)‖ ^ 2 = r ^ 2 := by
    rw [Complex.sq_norm, Complex.normSq_mk, ← h]
    ring
  exact (pow_left_inj₀ (norm_nonneg _) hr.le two_ne_zero).mp hsq

theorem OnCircle.fst_eq : p.1 = r * Real.cos (angle p) := by
  have := Complex.norm_mul_cos_arg ⟨p.1, p.2⟩
  rw [h.norm hr] at this
  exact this.symm

theorem OnCircle.snd_eq : p.2 = r * Real.sin (angle p) := by
  have := Complex.norm_mul_sin_arg ⟨p.1, p.2⟩
  rw [h.norm hr] at this
  exact this.symm

theorem OnCircle.fst_pos_iff : 0 < p.1 ↔ -(Real.pi / 2) < angle p ∧ angle p < Real.pi / 2 := by
  have hne : (⟨p.1, p.2⟩ : ℂ) ≠ 0 := norm_ne_zero_iff.mp (h.norm hr ▸ hr.ne')
  rw [← abs_lt, angle, Polar.angle, Complex.abs_arg_lt_pi_div_two_iff, or_iff_left hne]

theorem OnCircle.coord_turn (e t : ℝ) :
    coord e (turn p t) = r * Real.cos (angle p + t - e) := by
  rw [Real.cos_sub, Real.cos_add, Real.sin_add]
  simp only [coord, turn, h.fst_eq hr, h.snd_eq hr]
  ring

theorem OnCircle.turn_eq (t : ℝ) :
    turn p t = (r * Real.cos (angle p + t), r * Real.sin (angle p + t)) := by
  rw [Real.cos_add, Real.sin_add]
  ext <;> simp only [turn] <;> rw [h.fst_eq hr, h.snd_eq hr] <;> ring

end Polar

/-- The angle between two points, as `atan2` gives it. -/
noncomputable def between (p q : ℝ × ℝ) : ℝ :=
  Polar.angle (p.1 * q.2 - p.2 * q.1) (p.1 * q.1 + p.2 * q.2)

theorem OnCircle.turn_between (hp : OnCircle p r) (hq : OnCircle q r) (hr : 0 < r) :
    turn p (between p q) = q := by
  have hproduct : OnCircle (p.1 * q.1 + p.2 * q.2, p.1 * q.2 - p.2 * q.1) (r ^ 2) := by
    unfold OnCircle at *
    linear_combination (q.1 ^ 2 + q.2 ^ 2) * hp + r ^ 2 * hq
  have hr2 : r ^ 2 ≠ 0 := (pow_pos hr 2).ne'
  have hcos := hproduct.fst_eq (pow_pos hr 2)
  have hsin := hproduct.snd_eq (pow_pos hr 2)
  unfold OnCircle at hp
  ext
  · apply mul_left_cancel₀ hr2
    simp only [turn, between]
    simp only [angle] at hcos hsin
    linear_combination -p.1 * hcos + p.2 * hsin + q.1 * hp
  · apply mul_left_cancel₀ hr2
    simp only [turn, between]
    simp only [angle] at hcos hsin
    linear_combination -p.1 * hsin - p.2 * hcos + q.2 * hp

/-- Every point of the circle is reached within a turn. -/
theorem OnCircle.exists_turn_eq (hp : OnCircle p r) (hq : OnCircle q r) (hr : 0 < r) :
    ∃ t ∈ Set.Icc 0 (2 * Real.pi), turn p t = q := by
  have habs := abs_le.mp (Polar.abs_angle_le_pi (p.1 * q.2 - p.2 * q.1) (p.1 * q.1 + p.2 * q.2))
  rcases le_total 0 (between p q) with hle | hle
  · exact ⟨between p q, ⟨hle, habs.2.trans (by linarith [Real.pi_pos])⟩, hp.turn_between hq hr⟩
  · refine ⟨between p q + 2 * Real.pi, ⟨?_, by linarith⟩, ?_⟩
    · have hlow : -Real.pi ≤ between p q := habs.1
      linarith [Real.pi_pos]
    · rw [← turn_turn, turn_two_pi, hp.turn_between hq hr]

theorem snd_nonneg_iff : 0 ≤ p.2 ↔ 0 ≤ angle p := by
  rw [angle, Polar.angle, Complex.arg_nonneg_iff]

theorem fst_nonneg_iff : 0 ≤ p.1 ↔ -(Real.pi / 2) ≤ angle p ∧ angle p ≤ Real.pi / 2 := by
  rw [← abs_le, angle, Polar.angle, Complex.abs_arg_le_pi_div_two_iff]

theorem angle_le_pi (p : ℝ × ℝ) : angle p ≤ Real.pi := Complex.arg_le_pi _

theorem neg_pi_lt_angle (p : ℝ × ℝ) : -Real.pi < angle p := Complex.neg_pi_lt_arg _

/-- In the upper half of a circle, points follow one another to the left. -/
theorem OnCircle.fst_le_iff_of_nonneg (hp : OnCircle p r) (hq : OnCircle q r) (hr : 0 < r)
    (hp2 : 0 ≤ p.2) (hq2 : 0 ≤ q.2) : p.1 ≤ q.1 ↔ angle q ≤ angle p := by
  rw [hp.fst_eq hr, hq.fst_eq hr, mul_le_mul_iff_right₀ hr]
  exact Real.strictAntiOn_cos.le_iff_ge ⟨snd_nonneg_iff.mp hp2, angle_le_pi p⟩
    ⟨snd_nonneg_iff.mp hq2, angle_le_pi q⟩

/-- In the lower half they do so to the right. -/
theorem OnCircle.fst_le_iff_of_neg (hp : OnCircle p r) (hq : OnCircle q r) (hr : 0 < r)
    (hp2 : p.2 < 0) (hq2 : q.2 < 0) : p.1 ≤ q.1 ↔ angle p ≤ angle q := by
  have hmem : ∀ {p : ℝ × ℝ}, p.2 < 0 → -angle p ∈ Set.Icc 0 Real.pi := by
    intro p h
    have hneg := not_le.mp (mt snd_nonneg_iff.mpr (not_le.mpr h))
    exact ⟨by linarith, by linarith [neg_pi_lt_angle p]⟩
  rw [hp.fst_eq hr, hq.fst_eq hr, mul_le_mul_iff_right₀ hr, ← Real.cos_neg (angle p),
    ← Real.cos_neg (angle q), Real.strictAntiOn_cos.le_iff_ge (hmem hp2) (hmem hq2)]
  exact neg_le_neg_iff

/-- Where the angle of a point is after at most a full turn. -/
theorem OnCircle.angle_turn (h : OnCircle p r) (hr : 0 < r) (ht : 0 < t)
    (ht' : t ≤ 2 * Real.pi) :
    (angle p < angle (turn p t) ∧ angle p + t = angle (turn p t)) ∨
      (angle (turn p t) ≤ angle p ∧ angle p + t = angle (turn p t) + 2 * Real.pi) := by
  have hlow := neg_pi_lt_angle p
  have hhigh := angle_le_pi p
  rcases le_or_gt (angle p + t) Real.pi with hle | hlt
  · left
    have hangle : angle (turn p t) = angle p + t := by
      rw [h.turn_eq hr]
      exact Polar.angle_mul_cos_sin hr ⟨by linarith, hle⟩
    constructor <;> linarith
  · right
    have hangle : angle (turn p t) = angle p + t - 2 * Real.pi := by
      rw [h.turn_eq hr, ← Real.cos_sub_two_pi, ← Real.sin_sub_two_pi]
      exact Polar.angle_mul_cos_sin hr ⟨by linarith, by linarith⟩
    constructor <;> linarith

/-- Between two equal directions the cosine is largest at an end. -/
theorem cos_le_max {a b : ℝ} (ha : 0 ≤ a) (hb : b ≤ 2 * Real.pi) (h : s ∈ Set.Icc a b) :
    Real.cos s ≤ max (Real.cos a) (Real.cos b) := by
  obtain ⟨has, hsb⟩ := h
  rcases le_total s Real.pi with hs | hs
  · exact le_max_of_le_left (Real.cos_le_cos_of_nonneg_of_le_pi ha hs has)
  · refine le_max_of_le_right ?_
    rw [← Real.cos_two_pi_sub s, ← Real.cos_two_pi_sub b]
    exact Real.cos_le_cos_of_nonneg_of_le_pi (by linarith) (by linarith) (by linarith)

/-- On an arc that does not pass a direction the coordinate is largest at an end. -/
theorem OnCircle.coord_le (h : OnCircle p r) (hr : 0 < r) (k : ℤ)
    (ha : e + k * (2 * Real.pi) ≤ angle p) (hb : angle p + t ≤ e + (k + 1) * (2 * Real.pi))
    (hψ : ψ ∈ Set.Icc 0 t) :
    coord e (turn p ψ) ≤ max (coord e p) (coord e (turn p t)) := by
  have hshift : ∀ u, coord e (turn p u) =
      r * Real.cos (angle p + u - e - k * (2 * Real.pi)) := by
    intro u
    rw [h.coord_turn hr, Real.cos_sub_int_mul_two_pi]
  have h0 := hshift 0
  rw [turn_zero] at h0
  rw [h0, hshift, hshift, ← mul_max_of_nonneg _ _ hr.le]
  refine mul_le_mul_of_nonneg_left ?_ hr.le
  exact cos_le_max (by linarith) (by linarith) ⟨by linarith [hψ.1], by linarith [hψ.2]⟩

end Rotation
