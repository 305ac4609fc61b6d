import Inspector.Planner.Steps
import Mathlib.Tactic.Linarith

/-! # Rounding to steps

A target is rounded to whole steps on each axis by itself. Rounding is off by at most half a step,
leaves whole numbers alone, and so keeps a whole sum or difference of two targets within one step.
-/

namespace Inspector

variable {K : Type*} [Field K] [LinearOrder K] [IsStrictOrderedRing K] [FloorRing K]

theorem lroundf_intCast (n : ℤ) : lroundf (n : K) = n := by
  have hhalf : ∀ k : ℤ, ⌊(k : K) + 1 / 2⌋ = k := by
    intro k
    apply Int.floor_eq_iff.mpr
    constructor <;> linarith
  unfold lroundf
  split_ifs
  · exact hhalf n
  · rw [← Int.cast_neg, hhalf, neg_neg]

theorem abs_lroundf_sub_le (x : K) : |(lroundf x : K) - x| ≤ 1 / 2 := by
  apply abs_sub_le_iff.mpr
  unfold lroundf
  split_ifs
  · have hle := Int.floor_le (x + 1 / 2)
    have hlt := Int.lt_floor_add_one (x + 1 / 2)
    constructor <;> linarith
  · have hle := Int.floor_le (-x + 1 / 2)
    have hlt := Int.lt_floor_add_one (-x + 1 / 2)
    rw [Int.cast_neg]
    constructor <;> linarith

/-- Two errors of half a step move a whole number by at most one. -/
theorem abs_sub_le_one {z n : ℤ} {e e' : K} (he : |e| ≤ 1 / 2) (he' : |e'| ≤ 1 / 2)
    (h : (z : K) - n = e + e') : |z - n| ≤ 1 := by
  have hsum : |(z : K) - n| ≤ 1 := by
    rw [h]
    have hadd := abs_add_le e e'
    linarith
  have hcast : ((|z - n| : ℤ) : K) ≤ (1 : ℤ) := by
    push_cast
    exact hsum
  exact Int.cast_le.mp hcast

/-- Two numbers with a whole difference keep it within one step. -/
theorem abs_lroundf_sub_lroundf_le {x y : K} {n : ℤ} (h : x - y = n) :
    |lroundf x - lroundf y - n| ≤ 1 := by
  have hy : |y - lroundf y| ≤ 1 / 2 := abs_sub_comm y _ ▸ abs_lroundf_sub_le y
  apply abs_sub_le_one (abs_lroundf_sub_le x) hy
  push_cast
  linarith

/-- Two numbers with a whole sum keep it within one step. -/
theorem abs_lroundf_add_lroundf_le {x y : K} {n : ℤ} (h : x + y = n) :
    |lroundf x + lroundf y - n| ≤ 1 := by
  apply abs_sub_le_one (abs_lroundf_sub_le x) (abs_lroundf_sub_le y)
  push_cast
  linarith

namespace Planner

variable {m : FloatMath K} {s : Settings K} {rpm : K} {target : Axis → K} {plData : PlanLineData K}
  {p : Planner K}

theorem targetSteps_of_eq {i : Axis} {n : ℤ} (h : target i * (s.axis i).stepsPerMm = n) :
    targetSteps s target i = n := by
  rw [targetSteps, h, lroundf_intCast]

/-- After an ordinary motion the planner is at its target, also when the motion was empty. -/
theorem planBufferLine_position (h : plData.Ordinary) :
    (planBufferLine m s rpm target plData p).2.2.position = targetSteps s target := by
  rcases planBufferLine_cases m s rpm target plData p with ⟨-, -, hpos, hempty⟩ | ⟨-, -, he⟩
  · have h0 : stepEventCount s target plData p = 0 := by
      rcases hempty with hempty | hsys
      · by_contra h0
        unfold planBufferLine at hempty
        simp [h0, h.1] at hempty
      · exact absurd hsys (by simp [h.1])
    rw [hpos]
    ext i
    have hi := stepEventCount_eq_zero.mp h0 i
    simp only [deltaSteps, positionSteps, h.1, Bool.false_eq_true, if_false] at hi
    omega
  · rw [he, plannerRecalculate_position]
    simp [pushBlock, h.2]

end Planner

end Inspector
