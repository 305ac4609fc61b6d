import Inspector.Numerals
import Mathlib.Data.Fin.Basic
import Mathlib.Data.Nat.ModEq
import Mathlib.Logic.Function.Iterate

/-! # Successors around a cycle

The positions of a cyclic array, their successors and predecessors. A position is reached from
another one by a number of steps that is unique as long as it stays below the length of the cycle,
so the contents of an arc are a list.
-/

namespace Cyclic

variable {n : ℕ} {α : Type*}

/-- The position behind `i`. -/
def next (i : Fin (n + 1)) : Fin (n + 1) :=
  if h : i.val = n then ⟨0, n.succ_pos⟩ else ⟨i.val + 1, by omega⟩

/-- The position before `i`. -/
def prev (i : Fin (n + 1)) : Fin (n + 1) :=
  if h : i.val = 0 then ⟨n, n.lt_succ_self⟩ else ⟨i.val - 1, by omega⟩

@[simp] theorem prev_next (i : Fin (n + 1)) : prev (next i) = i := by
  by_cases h : i.val = n
  · simp only [next, dif_pos h, prev, dite_true]
    exact Fin.ext h.symm
  · simp only [next, dif_neg h, prev]
    rw [dif_neg (Nat.succ_ne_zero _)]
    exact Fin.ext (Nat.add_sub_cancel i.val 1)

theorem iterate_next_val (i : Fin (n + 1)) (k : ℕ) :
    (next^[k] i).val = (i.val + k) % (n + 1) := by
  induction k with
  | zero => exact (Nat.mod_eq_of_lt i.isLt).symm
  | succ k ih =>
    rw [Function.iterate_succ_apply', ← Nat.add_assoc, Nat.add_mod, ← ih]
    simp only [next]
    split_ifs with h
    · rw [h]
      cases n with
      | zero => rfl
      | succ n => rw [Nat.mod_eq_of_lt (by omega : 1 < n + 1 + 1), Nat.mod_self]
    · have hlt := (next^[k] i).isLt
      rw [Nat.mod_eq_of_lt (by omega : 1 < n + 1), Nat.mod_eq_of_lt (by omega)]

/-- A position is reached in at most one number of steps below the length of the cycle. -/
theorem iterate_next_inj {i : Fin (n + 1)} {k l : ℕ} (hk : k ≤ n) (hl : l ≤ n) :
    next^[k] i = next^[l] i ↔ k = l := by
  constructor
  · intro h
    have hval := congrArg Fin.val h
    rw [iterate_next_val, iterate_next_val] at hval
    have hmod : k ≡ l [MOD n + 1] := Nat.ModEq.add_left_cancel' i.val hval
    exact hmod.eq_of_lt_of_lt (by omega) (by omega)
  · rintro rfl
    rfl

theorem iterate_next_cycle (i : Fin (n + 1)) : next^[n + 1] i = i := by
  apply Fin.ext
  rw [iterate_next_val, Nat.add_mod_right, Nat.mod_eq_of_lt i.isLt]

@[simp] theorem prev_iterate_succ (i : Fin (n + 1)) (k : ℕ) :
    prev (next^[k + 1] i) = next^[k] i := by
  rw [Function.iterate_succ_apply', prev_next]

/-- The number of steps from `i` to `j`. -/
def dist (i j : Fin (n + 1)) : ℕ :=
  if i.val ≤ j.val then j.val - i.val else n + 1 - (i.val - j.val)

theorem dist_iterate_next (i : Fin (n + 1)) {k : ℕ} (hk : k ≤ n) : dist i (next^[k] i) = k := by
  have := i.isLt
  rw [dist, iterate_next_val]
  rcases Nat.lt_or_ge (i.val + k) (n + 1) with h | h
  · rw [Nat.mod_eq_of_lt h, if_pos (Nat.le_add_right _ _), Nat.add_sub_cancel_left]
  · rw [Nat.mod_eq_sub_mod h, Nat.mod_eq_of_lt (by omega), if_neg (by omega)]
    omega

/-- The contents of the arc of length `k` from `i` on. -/
def arc (f : Fin (n + 1) → α) : ℕ → Fin (n + 1) → List α
  | 0, _ => []
  | k + 1, i => f i :: arc f k (next i)

theorem arc_succ (f : Fin (n + 1) → α) (k : ℕ) (i : Fin (n + 1)) :
    arc f (k + 1) i = arc f k i ++ [f (next^[k] i)] := by
  induction k generalizing i with
  | zero => rfl
  | succ k ih =>
    rw [arc, ih, Function.iterate_succ_apply]
    rfl

@[simp] theorem length_arc (f : Fin (n + 1) → α) (k : ℕ) (i : Fin (n + 1)) :
    (arc f k i).length = k := by
  induction k generalizing i with
  | zero => rfl
  | succ k ih => rw [arc, List.length_cons, ih]

theorem map_arc {β : Type*} (g : α → β) (f : Fin (n + 1) → α) (k : ℕ) (i : Fin (n + 1)) :
    (arc f k i).map g = arc (g ∘ f) k i := by
  induction k generalizing i with
  | zero => rfl
  | succ k ih => rw [arc, List.map_cons, ih, arc, Function.comp_apply]

/-- A write outside of an arc does not change its contents. -/
theorem arc_update (f : Fin (n + 1) → α) {k : ℕ} {i j : Fin (n + 1)} (a : α)
    (h : ∀ l < k, next^[l] i ≠ j) : arc (Function.update f j a) k i = arc f k i := by
  induction k generalizing i with
  | zero => rfl
  | succ k ih =>
    have h0 : i ≠ j := h 0 k.succ_pos
    rw [arc, arc, Function.update_of_ne h0, ih fun l hl => h (l + 1) (Nat.succ_lt_succ hl)]

end Cyclic
