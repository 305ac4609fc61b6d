import Inspector.Numerals
import Mathlib.Algebra.Order.Floor.Ring
import Mathlib.Tactic.FieldSimp
import Mathlib.Tactic.Linarith
import Mathlib.Tactic.LinearCombination
import Mathlib.Tactic.Ring

/-! # Angles that count their turns

An angle that has made some turns is brought to another direction the short way round, by at most
half a turn. To ask for the angle itself, turns included, is no request for a direction: more than
one turn is then made again.
-/

namespace Winding

variable {K : Type*} [Field K] [LinearOrder K] [FloorRing K] {T last a : K}

/-- An angle without its turns. -/
def wrapped (T a : K) : K := a - T * ⌊a / T⌋

/-- The short way from an angle to a direction. -/
def turn (T last a : K) : K :=
  let d := a - wrapped T last
  if |d| ≤ T / 2 then d else if 0 < d then -(T - d) else d + T

/-- Where the short way leads. -/
def toward (T last a : K) : K := last + turn T last a

variable [IsStrictOrderedRing K]

theorem wrapped_nonneg (hT : 0 < T) (a : K) : 0 ≤ wrapped T a := by
  have h := mul_le_mul_of_nonneg_left (Int.floor_le (a / T)) hT.le
  rw [mul_div_cancel₀ _ hT.ne'] at h
  exact sub_nonneg.mpr h

theorem wrapped_lt (hT : 0 < T) (a : K) : wrapped T a < T := by
  have h := mul_lt_mul_of_pos_left (Int.lt_floor_add_one (a / T)) hT
  rw [mul_div_cancel₀ _ hT.ne', mul_add, mul_one] at h
  rw [wrapped]
  linarith

/-- Turns do not matter for the direction. -/
theorem wrapped_add_turns (hT : 0 < T) (a : K) (k : ℤ) : wrapped T (a + T * k) = wrapped T a := by
  have hfloor : ⌊(a + T * k) / T⌋ = ⌊a / T⌋ + k := by
    rw [add_div, mul_div_cancel_left₀ _ hT.ne', Int.floor_add_intCast]
  rw [wrapped, wrapped, hfloor]
  push_cast
  ring

theorem wrapped_of_mem (hT : 0 < T) (h0 : 0 ≤ a) (h1 : a < T) : wrapped T a = a := by
  have hfloor : ⌊a / T⌋ = 0 :=
    Int.floor_eq_zero_iff.mpr ⟨div_nonneg h0 hT.le, (div_lt_one hT).mpr h1⟩
  rw [wrapped, hfloor, Int.cast_zero, mul_zero, sub_zero]

omit [IsStrictOrderedRing K] in
/-- The short way leads to the direction. -/
theorem exists_toward_eq (T last a : K) : ∃ k : ℤ, toward T last a = a + T * k := by
  unfold toward turn
  dsimp only
  split_ifs
  · exact ⟨⌊last / T⌋, by rw [wrapped]; ring⟩
  · exact ⟨⌊last / T⌋ - 1, by rw [wrapped]; push_cast; ring⟩
  · exact ⟨⌊last / T⌋ + 1, by rw [wrapped]; push_cast; ring⟩

/-- It is at most half a turn. -/
theorem abs_turn_le (hT : 0 < T) (last : K) (h0 : 0 ≤ a) (h1 : a < T) :
    |turn T last a| ≤ T / 2 := by
  have hlow := wrapped_nonneg hT last
  have hhigh := wrapped_lt hT last
  unfold turn
  dsimp only
  split_ifs with hnear hpos
  · exact hnear
  · rw [abs_of_pos hpos, not_le] at hnear
    rw [abs_le]
    constructor <;> linarith
  · rw [abs_of_nonpos (not_lt.mp hpos), not_le] at hnear
    rw [abs_le]
    constructor <;> linarith

/-- An angle that has the direction is kept. -/
theorem toward_of_wrapped (hT : 0 < T) (h : wrapped T last = a) : toward T last a = last := by
  have hturn : turn T last a = 0 := by
    unfold turn
    dsimp only
    rw [h, sub_self, abs_zero, if_pos (by linarith)]
  rw [toward, hturn, add_zero]

theorem toward_toward (hT : 0 < T) (h0 : 0 ≤ a) (h1 : a < T) :
    toward T (toward T last a) a = toward T last a := by
  obtain ⟨k, hk⟩ := exists_toward_eq T last a
  refine toward_of_wrapped hT ?_
  rw [hk, wrapped_add_turns hT, wrapped_of_mem hT h0 h1]

/-- An angle that is less than half a turn away is where the short way to its direction leads. -/
theorem toward_wrapped (hT : 0 < T) (h : |a - last| < T / 2) : toward T last (wrapped T a) = a := by
  obtain ⟨k, hk⟩ := exists_toward_eq T last (wrapped T a)
  have hturn := abs_turn_le hT last (wrapped_nonneg hT a) (wrapped_lt hT a)
  have hway : toward T last (wrapped T a) = last + turn T last (wrapped T a) := rfl
  have hwrapped : wrapped T a = a - T * ⌊a / T⌋ := rfl
  obtain ⟨h1, h2⟩ := abs_lt.mp h
  obtain ⟨h3, h4⟩ := abs_le.mp hturn
  obtain ⟨j, hj⟩ : ∃ j : ℤ, j = k - ⌊a / T⌋ := ⟨_, rfl⟩
  have hsum : toward T last (wrapped T a) = a + T * j := by
    rw [hk, hj]
    push_cast
    linarith
  have hzero : j = 0 := by
    by_contra hne
    rcases lt_or_gt_of_ne hne with hneg | hpos
    · have hle : (j : K) ≤ -1 := by exact_mod_cast (by omega : j ≤ -1)
      linarith [mul_le_mul_of_nonneg_left hle hT.le]
    · have hle : (1 : K) ≤ j := by exact_mod_cast (by omega : 1 ≤ j)
      linarith [mul_le_mul_of_nonneg_left hle hT.le]
  rw [hsum, hzero, Int.cast_zero, mul_zero, add_zero]

section Itself

theorem turn_self (hT : 0 < T) (last : K) :
    turn T last last = if ⌊last / T⌋ = 0 then 0
      else if 0 < ⌊last / T⌋ then T * (⌊last / T⌋ - 1) else T * (⌊last / T⌋ + 1) := by
  have hd : last - wrapped T last = T * ⌊last / T⌋ := by
    rw [wrapped]
    ring
  unfold turn
  dsimp only
  rw [hd]
  generalize ⌊last / T⌋ = k
  rcases lt_trichotomy k 0 with hk | rfl | hk
  · have hle : (k : K) ≤ -1 := by exact_mod_cast (by omega : k ≤ -1)
    have hneg : T * (k : K) ≤ -T := by
      linarith [mul_le_mul_of_nonneg_left hle hT.le]
    rw [if_neg, if_neg (by linarith), if_neg hk.ne, if_neg (by omega)]
    · ring
    · rw [abs_of_neg (by linarith)]
      linarith
  · rw [if_pos rfl, Int.cast_zero, mul_zero, abs_zero, if_pos (by linarith)]
  · have hle : (1 : K) ≤ k := by exact_mod_cast (by omega : 1 ≤ k)
    have hpos : T ≤ T * (k : K) := by
      linarith [mul_le_mul_of_nonneg_left hle hT.le]
    rw [if_neg, if_pos (by linarith), if_neg hk.ne', if_pos hk]
    · ring
    · rw [abs_of_pos (by linarith)]
      linarith

theorem floor_bounds_iff (hT : 0 < T) :
    -1 ≤ ⌊last / T⌋ ∧ ⌊last / T⌋ < 2 ↔ -T ≤ last ∧ last < 2 * T := by
  rw [Int.le_floor, Int.floor_lt, le_div_iff₀ hT, div_lt_iff₀ hT]
  push_cast
  rw [neg_one_mul]

/-- An angle of up to one turn in either direction is kept. -/
theorem toward_self (hT : 0 < T) (h : -T ≤ last ∧ last < 2 * T) : toward T last last = last := by
  obtain ⟨hlow, hhigh⟩ := (floor_bounds_iff hT).mpr h
  rw [toward, turn_self hT]
  generalize ⌊last / T⌋ = k at hlow hhigh
  obtain rfl | rfl | rfl : k = -1 ∨ k = 0 ∨ k = 1 := by omega
  · norm_num
  · norm_num
  · norm_num

/-- An angle of more than one turn is turned on by at least a turn. -/
theorem abs_turn_self_le_iff (hT : 0 < T) :
    |turn T last last| ≤ T / 2 ↔ -T ≤ last ∧ last < 2 * T := by
  rw [← floor_bounds_iff hT, turn_self hT]
  generalize ⌊last / T⌋ = k
  constructor
  · intro h
    by_contra hk
    rcases lt_or_gt_of_ne (show k ≠ 0 by omega) with hneg | hpos
    · rw [if_neg hneg.ne, if_neg (by omega)] at h
      have hle : (k : K) + 1 ≤ -1 := by exact_mod_cast (by omega : k + 1 ≤ -1)
      have hmul := mul_le_mul_of_nonneg_left hle hT.le
      linarith [(abs_le.mp h).1]
    · rw [if_neg hpos.ne', if_pos hpos] at h
      have hle : (1 : K) ≤ k - 1 := by exact_mod_cast (by omega : 1 ≤ k - 1)
      have hmul := mul_le_mul_of_nonneg_left hle hT.le
      linarith [(abs_le.mp h).2]
  · rintro ⟨hlow, hhigh⟩
    obtain rfl | rfl | rfl : k = -1 ∨ k = 0 ∨ k = 1 := by omega
    · norm_num
      linarith
    · norm_num
      linarith
    · norm_num
      linarith

end Itself

end Winding
