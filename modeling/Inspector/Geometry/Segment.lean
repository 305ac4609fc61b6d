import Inspector.Numerals
import Mathlib.LinearAlgebra.AffineSpace.AffineMap
import Mathlib.Order.Interval.Set.Basic
import Mathlib.Tactic.Linarith
import Mathlib.Tactic.FieldSimp
import Mathlib.Tactic.LinearCombination

/-! # Cutting a segment at the sides of a box

The part of a segment that lies in a box is cut one axis at a time. A cut at an axis keeps the
farthest parameter of the part that is left, and never moves a point out of the sides of the axes
that were cut before.
-/

namespace Segment

variable {ι K : Type*} [Field K] {low high p q : ι → K} {s : Set ι} {i : ι} {t u b : K}

/-- The parameter at which the coordinate `i` of the segment is `b`. -/
def crossing (p q : ι → K) (i : ι) (b : K) : K := (b - p i) / (q i - p i)

theorem lineMap_coord (x y t : K) : AffineMap.lineMap x y t = x + t * (y - x) := by
  rw [AffineMap.lineMap_apply_ring']
  ring

theorem lineMap_crossing (h : q i ≠ p i) :
    AffineMap.lineMap (p i) (q i) (crossing p q i b) = b := by
  rw [lineMap_coord, crossing, div_mul_cancel₀ _ (sub_ne_zero.mpr h)]
  ring

variable [LinearOrder K]

/-- The parameters of the segment from `p` to `q` at which the axes of `s` are within their
bounds. -/
def Inside (low high p q : ι → K) (s : Set ι) : Set K :=
  {t | t ∈ Set.Icc 0 1 ∧ ∀ i ∈ s, AffineMap.lineMap (p i) (q i) t ∈ Set.Icc (low i) (high i)}

theorem isGreatest_insert_of_mem (ht : IsGreatest (Inside low high p q s) t)
    (hi : AffineMap.lineMap (p i) (q i) t ∈ Set.Icc (low i) (high i)) :
    IsGreatest (Inside low high p q (insert i s)) t := by
  constructor
  · refine ⟨ht.1.1, ?_⟩
    rintro j (rfl | hj)
    · exact hi
    · exact ht.1.2 j hj
  · intro u hu
    exact ht.2 ⟨hu.1, fun j hj => hu.2 j (Set.mem_insert_of_mem i hj)⟩

variable [IsStrictOrderedRing K]

/-- The part of a segment in a box goes back to its start. -/
theorem inside_mono (hp : ∀ i ∈ s, p i ∈ Set.Icc (low i) (high i)) (ht : t ∈ Inside low high p q s)
    (h0 : 0 ≤ u) (hu : u ≤ t) : u ∈ Inside low high p q s := by
  refine ⟨⟨h0, hu.trans ht.1.2⟩, fun i hi => ?_⟩
  have hpi := hp i hi
  have hti := ht.2 i hi
  simp only [Set.mem_Icc, lineMap_coord] at *
  rcases le_total 0 (q i - p i) with hd | hd
  · constructor
    · linarith [mul_nonneg h0 hd]
    · linarith [mul_le_mul_of_nonneg_right hu hd]
  · constructor
    · linarith [mul_le_mul_of_nonpos_right hu hd]
    · linarith [mul_nonpos_of_nonneg_of_nonpos h0 hd]

theorem isGreatest_empty : IsGreatest (Inside low high p q ∅) 1 :=
  ⟨⟨⟨zero_le_one, le_rfl⟩, fun _ hi => hi.elim⟩, fun _ h => h.1.2⟩

/-- A cut at a bound between the start and the end of what is left. -/
theorem isGreatest_insert_crossing (hp : ∀ i ∈ s, p i ∈ Set.Icc (low i) (high i))
    (ht : IsGreatest (Inside low high p q s) t) (hb : b ∈ Set.Icc (low i) (high i))
    (hd : q i ≠ p i) (h0 : 0 ≤ crossing p q i b) (h1 : crossing p q i b ≤ t)
    (hle : ∀ u, AffineMap.lineMap (p i) (q i) u ∈ Set.Icc (low i) (high i) →
      u ≤ crossing p q i b) :
    IsGreatest (Inside low high p q (insert i s)) (crossing p q i b) := by
  have hin := inside_mono hp ht.1 h0 h1
  constructor
  · refine ⟨hin.1, ?_⟩
    rintro j (rfl | hj)
    · rwa [lineMap_crossing hd]
    · exact hin.2 j hj
  · intro u hu
    exact hle u (hu.2 i (Set.mem_insert i s))

/-- What is left of the segment ends below the low side of an axis. -/
theorem cut_low (hp : ∀ i ∈ s, p i ∈ Set.Icc (low i) (high i))
    (ht : IsGreatest (Inside low high p q s) t) (hpi : p i ∈ Set.Icc (low i) (high i))
    (hlt : AffineMap.lineMap (p i) (q i) t < low i) :
    q i ≠ p i ∧ IsGreatest (Inside low high p q (insert i s)) (crossing p q i (low i)) := by
  obtain ⟨hlow, hhigh⟩ := hpi
  rw [lineMap_coord] at hlt
  have hd : q i - p i < 0 := by
    by_contra hn
    linarith [mul_nonneg ht.1.1.1 (not_lt.mp hn)]
  have hne : q i ≠ p i := fun h => by rw [h, sub_self] at hd; exact lt_irrefl 0 hd
  refine ⟨hne, isGreatest_insert_crossing hp ht ⟨le_rfl, hlow.trans hhigh⟩ hne ?_ ?_ ?_⟩
  · exact div_nonneg_of_nonpos (sub_nonpos.mpr hlow) hd.le
  · rw [crossing, div_le_iff_of_neg hd]
    linarith
  · rintro u ⟨hu, -⟩
    rw [lineMap_coord] at hu
    rw [crossing, le_div_iff_of_neg hd]
    linarith

/-- What is left of the segment ends above the high side of an axis. -/
theorem cut_high (hp : ∀ i ∈ s, p i ∈ Set.Icc (low i) (high i))
    (ht : IsGreatest (Inside low high p q s) t) (hpi : p i ∈ Set.Icc (low i) (high i))
    (hlt : high i < AffineMap.lineMap (p i) (q i) t) :
    q i ≠ p i ∧ IsGreatest (Inside low high p q (insert i s)) (crossing p q i (high i)) := by
  obtain ⟨hlow, hhigh⟩ := hpi
  rw [lineMap_coord] at hlt
  have hd : 0 < q i - p i := by
    by_contra hn
    linarith [mul_nonpos_of_nonneg_of_nonpos ht.1.1.1 (not_lt.mp hn)]
  have hne : q i ≠ p i := fun h => by rw [h, sub_self] at hd; exact lt_irrefl 0 hd
  refine ⟨hne, isGreatest_insert_crossing hp ht ⟨hlow.trans hhigh, le_rfl⟩ hne ?_ ?_ ?_⟩
  · exact div_nonneg (sub_nonneg.mpr hhigh) hd.le
  · rw [crossing, div_le_iff₀ hd]
    linarith
  · rintro u ⟨-, hu⟩
    rw [lineMap_coord] at hu
    rw [crossing, le_div_iff₀ hd]
    linarith

/-- The whole segment is left when its end is in the box. -/
theorem eq_one_of_isGreatest (ht : IsGreatest (Inside low high p q s) t)
    (hq : ∀ i ∈ s, q i ∈ Set.Icc (low i) (high i)) : t = 1 := by
  refine le_antisymm ht.1.1.2 (ht.2 ⟨⟨zero_le_one, le_rfl⟩, fun i hi => ?_⟩)
  rw [AffineMap.lineMap_apply_one]
  exact hq i hi

end Segment
