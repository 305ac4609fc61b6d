import Inspector.Numerals
import Mathlib.Algebra.QuadraticDiscriminant
import Mathlib.Analysis.Real.Sqrt
import Mathlib.Tactic.FieldSimp
import Mathlib.Tactic.LinearCombination
import Mathlib.Tactic.Linarith

/-! # Where three spheres of one radius meet

Seen from above, the centres of the spheres are a triangle. Unless it is flat, the points that the
spheres share lie on a line that is not horizontal, and their heights solve a quadratic equation.
-/

namespace Spheres

/-- A point of space. -/
@[ext] structure Point (K : Type*) where
  x : K
  y : K
  z : K

def Point.coords {K : Type*} (p : Point K) : K × K × K := (p.x, p.y, p.z)

section Field

variable {K : Type*} [Field K]

def sqDist (p q : Point K) : K := (p.x - q.x) ^ 2 + (p.y - q.y) ^ 2 + (p.z - q.z) ^ 2

/-- Three points. -/
structure Triangle (K : Type*) where
  c₁ : Point K
  c₂ : Point K
  c₃ : Point K

namespace Triangle

variable (T : Triangle K)

/-- A point has one distance from three points, which is given by its square. -/
def Shares (r : K) (p : Point K) : Prop :=
  sqDist T.c₁ p = r ∧ sqDist T.c₂ p = r ∧ sqDist T.c₃ p = r

/-- Twice the area of the triangle that is seen from above. -/
def det : K := (T.c₂.y - T.c₁.y) * (T.c₃.x - T.c₁.x) - (T.c₃.y - T.c₁.y) * (T.c₂.x - T.c₁.x)

def sqNorm (p : Point K) : K := p.x ^ 2 + p.y ^ 2 + p.z ^ 2

/-- How a coordinate of the line depends on the height. -/
def xSlope : K :=
  (T.c₂.z - T.c₁.z) * (T.c₃.y - T.c₁.y) - (T.c₃.z - T.c₁.z) * (T.c₂.y - T.c₁.y)

def xStart : K :=
  -((sqNorm T.c₂ - sqNorm T.c₁) * (T.c₃.y - T.c₁.y) -
    (sqNorm T.c₃ - sqNorm T.c₁) * (T.c₂.y - T.c₁.y)) / 2

def ySlope : K :=
  -(T.c₂.z - T.c₁.z) * (T.c₃.x - T.c₁.x) + (T.c₃.z - T.c₁.z) * (T.c₂.x - T.c₁.x)

def yStart : K :=
  ((sqNorm T.c₂ - sqNorm T.c₁) * (T.c₃.x - T.c₁.x) -
    (sqNorm T.c₃ - sqNorm T.c₁) * (T.c₂.x - T.c₁.x)) / 2

/-- The coefficients of the equation for the height. -/
def qa : K := T.xSlope ^ 2 + T.ySlope ^ 2 + T.det ^ 2

def qb : K :=
  2 * (T.xSlope * (T.xStart - T.c₁.x * T.det) + T.ySlope * (T.yStart - T.c₁.y * T.det) -
    T.c₁.z * T.det ^ 2)

def qc (r : K) : K :=
  (T.xStart - T.c₁.x * T.det) ^ 2 + (T.yStart - T.c₁.y * T.det) ^ 2 +
    T.det ^ 2 * (T.c₁.z ^ 2 - r)

/-- The point of the line at a height. -/
def at' (z : K) : Point K :=
  ⟨(T.xSlope * z + T.xStart) / T.det, (T.ySlope * z + T.yStart) / T.det, z⟩

variable {T} {r : K} {p : Point K}

/-- A point of the line, with the area multiplied in. -/
def OnLine (T : Triangle K) (p : Point K) : Prop :=
  T.det * p.x = T.xSlope * p.z + T.xStart ∧ T.det * p.y = T.ySlope * p.z + T.yStart

theorem onLine_iff (hdet : T.det ≠ 0) : T.OnLine p ↔ p = T.at' p.z := by
  rw [OnLine, at', Point.ext_iff]
  dsimp only
  rw [eq_div_iff hdet, eq_div_iff hdet, mul_comm p.x, mul_comm p.y]
  simp

/-- The equation for the height is the one of the first sphere. -/
theorem quadratic_eq (h : T.OnLine p) (r : K) :
    T.qa * (p.z * p.z) + T.qb * p.z + T.qc r = T.det ^ 2 * (sqDist T.c₁ p - r) := by
  obtain ⟨hx, hy⟩ := h
  rw [qa, qb, qc, sqDist]
  linear_combination
    -(T.xSlope * p.z + T.xStart + T.det * p.x - 2 * T.c₁.x * T.det) * hx -
      (T.ySlope * p.z + T.yStart + T.det * p.y - 2 * T.c₁.y * T.det) * hy

variable [NeZero (2 : K)]

theorem Shares.onLine (h : T.Shares r p) : T.OnLine p := by
  obtain ⟨h1, h2, h3⟩ := h
  have htwo : (2 : K) ≠ 0 := two_ne_zero
  rw [sqDist] at h1 h2 h3
  constructor
  · rw [det, xSlope, xStart, sqNorm, sqNorm, sqNorm]
    field_simp
    linear_combination (T.c₂.y - T.c₁.y) * (h1 - h3) - (T.c₃.y - T.c₁.y) * (h1 - h2)
  · rw [det, ySlope, yStart, sqNorm, sqNorm, sqNorm]
    field_simp
    linear_combination -(T.c₂.x - T.c₁.x) * (h1 - h3) + (T.c₃.x - T.c₁.x) * (h1 - h2)

/-- Two points of the line have one distance from all centres if they have from the first one. -/
theorem OnLine.sqDist_eq (h : T.OnLine p) (hdet : T.det ≠ 0) :
    sqDist T.c₂ p = sqDist T.c₁ p ∧ sqDist T.c₃ p = sqDist T.c₁ p := by
  obtain ⟨hx, hy⟩ := h
  have htwo : (2 : K) ≠ 0 := two_ne_zero
  rw [xSlope, xStart, sqNorm, sqNorm, sqNorm] at hx
  rw [ySlope, yStart, sqNorm, sqNorm, sqNorm] at hy
  field_simp at hx hy
  constructor <;> apply mul_left_cancel₀ hdet <;> rw [sqDist, sqDist]
  · rw [det] at hx hy ⊢
    linear_combination -(T.c₂.x - T.c₁.x) * hx - (T.c₂.y - T.c₁.y) * hy
  · rw [det] at hx hy ⊢
    linear_combination -(T.c₃.x - T.c₁.x) * hx - (T.c₃.y - T.c₁.y) * hy

theorem shares_iff (hdet : T.det ≠ 0) :
    T.Shares r p ↔ p = T.at' p.z ∧ T.qa * (p.z * p.z) + T.qb * p.z + T.qc r = 0 := by
  rw [← onLine_iff hdet]
  constructor
  · intro h
    refine ⟨h.onLine, ?_⟩
    rw [quadratic_eq h.onLine, h.1, sub_self, mul_zero]
  · rintro ⟨hline, hquad⟩
    rw [quadratic_eq hline] at hquad
    have hfirst : sqDist T.c₁ p = r :=
      sub_eq_zero.mp ((mul_eq_zero.mp hquad).resolve_left (pow_ne_zero 2 hdet))
    obtain ⟨h2, h3⟩ := hline.sqDist_eq hdet
    exact ⟨hfirst, h2.trans hfirst, h3.trans hfirst⟩

end Triangle

end Field

section Real

namespace Triangle

variable {T : Triangle ℝ} {r : ℝ} {p : Point ℝ}

/-- The lower one of the points that the spheres share. -/
def IsLower (T : Triangle ℝ) (r : ℝ) (p : Point ℝ) : Prop :=
  T.Shares r p ∧ ∀ q, T.Shares r q → p.z ≤ q.z

theorem qa_pos (hdet : T.det ≠ 0) : 0 < T.qa := by
  have hsq : 0 < T.det ^ 2 := by positivity
  rw [qa]
  positivity

/-- The height of the lower point is the lower root. -/
theorem IsLower.eq (h : T.IsLower r p) (hdet : T.det ≠ 0) :
    0 ≤ discrim T.qa T.qb (T.qc r) ∧
      p = T.at' ((-T.qb - √(discrim T.qa T.qb (T.qc r))) / (2 * T.qa)) := by
  obtain ⟨hshares, hlow⟩ := h
  obtain ⟨hline, hquad⟩ := (shares_iff hdet).mp hshares
  have ha := qa_pos hdet
  have hdiscrim : 0 ≤ discrim T.qa T.qb (T.qc r) := by
    rw [discrim_eq_sq_of_quadratic_eq_zero hquad]
    exact sq_nonneg _
  have hroots := quadratic_eq_zero_iff ha.ne' (Real.mul_self_sqrt hdiscrim).symm
  refine ⟨hdiscrim, ?_⟩
  obtain ⟨z, hz⟩ : ∃ z, z = (-T.qb - √(discrim T.qa T.qb (T.qc r))) / (2 * T.qa) := ⟨_, rfl⟩
  have hother : T.Shares r (T.at' z) := (shares_iff hdet).mpr ⟨rfl, (hroots z).mpr (.inr hz)⟩
  have hle : p.z ≤ z := hlow (T.at' z) hother
  have hge : z ≤ p.z := by
    rw [hz]
    rcases (hroots p.z).mp hquad with hp | hp
    · rw [hp]
      have hsqrt := Real.sqrt_nonneg (discrim T.qa T.qb (T.qc r))
      gcongr
      linarith
    · exact hp.ge
  rw [← hz, ← le_antisymm hle hge]
  exact hline

end Triangle

end Real

end Spheres
