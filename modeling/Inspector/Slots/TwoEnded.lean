import Mathlib.Data.List.Basic
import Mathlib.Data.List.Nodup
import Mathlib.Data.Nat.Init
import Mathlib.Logic.Function.Basic

/-! # Arrays that are filled from both ends

The low end of an array holds a list in its order, the high end holds another one from the last
place down, and the places between them are blank. An element leaves the low list for the end of the
high one when what is behind it moves down by one place.
-/

namespace Slots

variable {α : Type*}

/-- The elements behind the place `idx` are moved down by one place, one after the other. -/
def shiftDown (map : ℕ → α) (idx : ℕ) : ℕ → ℕ → α
  | 0 => map
  | k + 1 => shiftDown (Function.update map idx (map (idx + 1))) (idx + 1) k

/-- A list is written from the place `idx` on. -/
def writes (map : ℕ → α) (idx : ℕ) : List α → ℕ → α
  | [] => map
  | a :: l => writes (Function.update map idx a) (idx + 1) l

theorem shiftDown_apply (map : ℕ → α) (idx k i : ℕ) :
    shiftDown map idx k i = if idx ≤ i ∧ i < idx + k then map (i + 1) else map i := by
  induction k generalizing map idx with
  | zero => rw [shiftDown, if_neg (by omega)]
  | succ k ih =>
    rw [shiftDown, ih]
    by_cases hi : i = idx
    · subst hi
      simp
    · have hiff : (idx + 1 ≤ i ∧ i < idx + 1 + k) ↔ (idx ≤ i ∧ i < idx + (k + 1)) := by omega
      simp only [hiff]
      split_ifs with h
      · exact Function.update_of_ne (by omega) _ _
      · exact Function.update_of_ne hi _ _

theorem writes_of_lt (map : ℕ → α) (idx : ℕ) (l : List α) {i : ℕ} (h : i < idx) :
    writes map idx l i = map i := by
  induction l generalizing map idx with
  | nil => rfl
  | cons a l ih =>
    rw [writes, ih _ _ (by omega)]
    exact Function.update_of_ne (by omega) _ _

theorem writes_of_ge (map : ℕ → α) (idx : ℕ) (l : List α) {i : ℕ} (h : idx + l.length ≤ i) :
    writes map idx l i = map i := by
  induction l generalizing map idx with
  | nil => rfl
  | cons a l ih =>
    rw [List.length_cons] at h
    rw [writes, ih _ _ (by omega)]
    exact Function.update_of_ne (by omega) _ _

theorem writes_add (map : ℕ → α) (idx : ℕ) (l : List α) {j : ℕ} (h : j < l.length) :
    writes map idx l (idx + j) = l[j] := by
  induction l generalizing map idx j with
  | nil => exact absurd h (Nat.not_lt_zero j)
  | cons a l ih =>
    cases j with
    | zero =>
      rw [writes, writes_of_lt _ _ _ (by omega)]
      exact Function.update_self _ _ _
    | succ j =>
      rw [writes, show idx + (j + 1) = idx + 1 + j by omega]
      exact ih _ _ (by simpa using h)

/-- The array holds `low` from its first place up and `high` from its last place down. -/
structure TwoEnded (map : ℕ → α) (cap : ℕ) (blank : α) (low high : List α) : Prop where
  map_low : ∀ i (h : i < low.length), map i = low[i]
  map_high : ∀ j (h : j < high.length), map (cap - 1 - j) = high[j]
  gap : ∀ i, low.length ≤ i → i + high.length < cap → map i = blank
  fits : low.length + high.length ≤ cap

namespace TwoEnded

variable {map : ℕ → α} {cap : ℕ} {blank : α} {low high : List α}

theorem nil (h : ∀ i < cap, map i = blank) : TwoEnded map cap blank [] [] where
  map_low i hi := absurd hi (Nat.not_lt_zero i)
  map_high j hj := absurd hj (Nat.not_lt_zero j)
  gap i _ hi := h i hi
  fits := Nat.zero_le cap

/-- A list is written behind the low one. -/
theorem append (h : TwoEnded map cap blank low high) {l : List α}
    (hfits : low.length + l.length + high.length ≤ cap) :
    TwoEnded (writes map low.length l) cap blank (low ++ l) high where
  map_low i hi := by
    rcases Nat.lt_or_ge i low.length with hlt | hge
    · rw [writes_of_lt _ _ _ hlt, List.getElem_append_left hlt]
      exact h.map_low i hlt
    · obtain ⟨j, rfl⟩ := Nat.exists_eq_add_of_le hge
      rw [List.length_append] at hi
      rw [writes_add _ _ _ (by omega), List.getElem_append_right hge]
      simp
  map_high j hj := by
    rw [writes_of_ge _ _ _ (by omega)]
    exact h.map_high j hj
  gap i hi hgap := by
    rw [List.length_append] at hi
    rw [writes_of_ge _ _ _ hi]
    exact h.gap i (by omega) hgap
  fits := by rwa [List.length_append]

/-- An element leaves the low list for the end of the high one. -/
theorem move (h : TwoEnded map cap blank low high) {idx last : ℕ} (hidx : idx < low.length)
    (hlast : last + 1 + high.length = cap) :
    TwoEnded (Function.update (shiftDown map idx (last - idx)) last low[idx]) cap blank
      (low.eraseIdx idx) (high ++ [low[idx]]) where
  map_low i hi := by
    have := h.fits
    rw [List.length_eraseIdx_of_lt hidx] at hi
    rw [Function.update_of_ne (by omega), shiftDown_apply, List.getElem_eraseIdx]
    by_cases hlt : i < idx
    · rw [if_neg (by omega), dif_pos hlt]
      exact h.map_low i _
    · rw [if_pos (by omega), dif_neg hlt]
      exact h.map_low (i + 1) _
  map_high j hj := by
    rw [List.length_append, List.length_singleton] at hj
    rcases Nat.lt_or_ge j high.length with hlt | hge
    · rw [Function.update_of_ne (by omega), shiftDown_apply, if_neg (by omega),
        List.getElem_append_left hlt]
      exact h.map_high j hlt
    · obtain rfl : j = high.length := by omega
      rw [show cap - 1 - high.length = last by omega, Function.update_self]
      simp
  gap i hi hgap := by
    rw [List.length_eraseIdx_of_lt hidx] at hi
    rw [List.length_append, List.length_singleton] at hgap
    rw [Function.update_of_ne (by omega), shiftDown_apply, if_pos (by omega)]
    exact h.gap (i + 1) (by omega) (by omega)
  fits := by
    have := h.fits
    rw [List.length_eraseIdx_of_lt hidx, List.length_append, List.length_singleton]
    omega

/-- The first blank place is behind the low list. -/
theorem find_blank [DecidableEq α] (h : TwoEnded map cap blank low high) (hblank : blank ∉ low)
    (hroom : low.length + high.length < cap) {n : ℕ} (hn : cap ≤ n) :
    (List.range n).find? (fun i => map i = blank) = some low.length := by
  rw [List.find?_range_eq_some]
  refine ⟨decide_eq_true (h.gap _ (Nat.le_refl _) hroom), List.mem_range.mpr (by omega), fun j hj => ?_⟩
  simp only [Bool.not_eq_true', decide_eq_false_iff_not, h.map_low j hj]
  intro heq
  exact hblank (heq ▸ List.getElem_mem hj)

/-- The first place of an element of the low list is where the list has it. -/
theorem find_low [DecidableEq α] (h : TwoEnded map cap blank low high) (hnodup : low.Nodup) {idx : ℕ}
    (hidx : idx < low.length) {n : ℕ} (hn : cap ≤ n) :
    (List.range n).find? (fun i => map i = low[idx]) = some idx := by
  have := h.fits
  rw [List.find?_range_eq_some]
  refine ⟨decide_eq_true (h.map_low idx hidx), List.mem_range.mpr (by omega), fun j hj => ?_⟩
  simp only [Bool.not_eq_true', decide_eq_false_iff_not, h.map_low j (Nat.lt_trans hj hidx)]
  intro heq
  exact Nat.ne_of_lt hj ((List.Nodup.getElem_inj_iff hnodup).mp heq)

theorem map_range (h : TwoEnded map cap blank low high) : (List.range low.length).map map = low := by
  apply List.ext_getElem
  · simp
  · intro i hi hi'
    simpa using h.map_low i hi'

/-- Every place holds an element of one of the lists or is blank. -/
theorem cases (h : TwoEnded map cap blank low high) {i : ℕ} (hi : i < cap) :
    (∃ hl : i < low.length, map i = low[i]) ∨ map i = blank ∨
      ∃ hh : cap - 1 - i < high.length, map i = high[cap - 1 - i] := by
  rcases Nat.lt_or_ge i low.length with hlt | hge
  · exact .inl ⟨hlt, h.map_low i hlt⟩
  · rcases Nat.lt_or_ge (i + high.length) cap with hgap | hhigh
    · exact .inr (.inl (h.gap i hge hgap))
    · have hj : cap - 1 - i < high.length := by omega
      refine .inr (.inr ⟨hj, ?_⟩)
      rw [← h.map_high _ hj]
      congr 1
      omega

/-- An element of the lists is in one place of the array. -/
theorem existsUnique (h : TwoEnded map cap blank low high) (hnodup : (low ++ high).Nodup)
    (hblank : blank ∉ low ++ high) {a : α} (ha : a ∈ low ++ high) : ∃! i, i < cap ∧ map i = a := by
  have hfits := h.fits
  obtain ⟨hlow, hhigh, hdisjoint⟩ := List.nodup_append'.mp hnodup
  rcases List.mem_append.mp ha with hal | hah
  · obtain ⟨k, hk, rfl⟩ := List.getElem_of_mem hal
    refine ⟨k, ⟨by omega, h.map_low k hk⟩, ?_⟩
    rintro i ⟨hi, heq⟩
    rcases h.cases hi with ⟨hil, hmap⟩ | hmap | ⟨hih, hmap⟩
    · exact (List.Nodup.getElem_inj_iff hlow).mp (hmap.symm.trans heq)
    · exact absurd (hmap ▸ heq ▸ ha) hblank
    · exact absurd (heq ▸ hmap ▸ List.getElem_mem hih) (hdisjoint hal)
  · obtain ⟨k, hk, rfl⟩ := List.getElem_of_mem hah
    refine ⟨cap - 1 - k, ⟨by omega, h.map_high k hk⟩, ?_⟩
    rintro i ⟨hi, heq⟩
    rcases h.cases hi with ⟨hil, hmap⟩ | hmap | ⟨hih, hmap⟩
    · exact absurd hah (hdisjoint (heq ▸ hmap ▸ List.getElem_mem hil))
    · exact absurd (hmap ▸ heq ▸ ha) hblank
    · have := (List.Nodup.getElem_inj_iff hhigh).mp (hmap.symm.trans heq)
      omega

end TwoEnded

end Slots
