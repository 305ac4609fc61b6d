import Mathlib.Logic.Function.Basic
import Mathlib.Data.Nat.Basic

/-! # Ranges of a memory

A memory is a function from addresses. Two memories agree on a range if they hold the same values
there. Copies of a range and writes from an address on change no other address.
-/

namespace Memory

/-- A number of addresses from a first one on. -/
structure Range where
  start : ℕ
  size : ℕ
  deriving DecidableEq, Repr

namespace Range

variable {V : Type*} {r r' : Range} {m m' src : ℕ → V} {a : ℕ}

def Contains (r : Range) (a : ℕ) : Prop := r.start ≤ a ∧ a < r.start + r.size

instance : DecidablePred (Contains r) := fun _ => inferInstanceAs (Decidable (_ ∧ _))

def Disjoint (r r' : Range) : Prop := ∀ a, r.Contains a → ¬ r'.Contains a

theorem disjoint_of_le (h : r.start + r.size ≤ r'.start ∨ r'.start + r'.size ≤ r.start) :
    Disjoint r r' := by
  rintro a ⟨h1, h2⟩ ⟨h3, h4⟩
  omega

/-- The memories hold the same values in the range. -/
def Agree (r : Range) (m m' : ℕ → V) : Prop := ∀ a, r.Contains a → m a = m' a

theorem agree_of_size_zero (h : r.size = 0) : r.Agree m m' := by
  rintro a ⟨h1, h2⟩
  omega

/-- A memory with a range copied from another one. -/
def copy (r : Range) (src m : ℕ → V) : ℕ → V := fun a => if r.Contains a then src a else m a

theorem copy_of_contains (h : r.Contains a) : r.copy src m a = src a := if_pos h

theorem copy_of_not_contains (h : ¬ r.Contains a) : r.copy src m a = m a := if_neg h

theorem copy_of_size_zero (h : r.size = 0) : r.copy src m = m := by
  ext a
  apply copy_of_not_contains
  rintro ⟨h1, h2⟩
  omega

theorem agree_copy_self_iff : r.Agree m (r.copy src m') ↔ r.Agree m src := by
  constructor
  · intro h a ha
    rw [h a ha, copy_of_contains ha]
  · intro h a ha
    rw [h a ha, copy_of_contains ha]

/-- A copied range agrees in the part that agrees with its source. -/
theorem Agree.copy_of_le (h : r'.Agree m src) (hr : ∀ a, r'.Contains a → r.Contains a) :
    r'.Agree m (r.copy src m') :=
  fun a ha => (h a ha).trans (copy_of_contains (hr a ha)).symm

theorem agree_copy_iff (hd : Disjoint r' r) : r'.Agree m (r.copy src m') ↔ r'.Agree m m' := by
  constructor
  · intro h a ha
    rw [h a ha, copy_of_not_contains (hd a ha)]
  · intro h a ha
    rw [h a ha, copy_of_not_contains (hd a ha)]

end Range

variable {V : Type*}

/-- A memory with values written from an address on. -/
def write : ℕ → List V → (ℕ → V) → ℕ → V
  | _, [], m => m
  | a, v :: vs, m => write (a + 1) vs (Function.update m a v)

theorem write_of_not_mem {a b : ℕ} (vs : List V) (m : ℕ → V) (h : b < a ∨ a + vs.length ≤ b) :
    write a vs m b = m b := by
  induction vs generalizing a m with
  | nil => rfl
  | cons v vs ih =>
    rw [List.length_cons] at h
    have hne : b ≠ a := by omega
    have hrest : b < a + 1 ∨ a + 1 + vs.length ≤ b := by omega
    rw [write, ih _ hrest]
    exact Function.update_of_ne hne v m

/-- What an address holds behind a write. -/
theorem write_apply {a b : ℕ} (vs : List V) (m : ℕ → V) :
    write a vs m b = if a ≤ b then vs[b - a]?.getD (m b) else m b := by
  induction vs generalizing a m with
  | nil => rw [write, List.getElem?_nil, Option.getD_none, ite_self]
  | cons v vs ih =>
    rw [write, ih]
    rcases Nat.lt_trichotomy b a with hlt | rfl | hlt
    · rw [if_neg (by omega), if_neg (by omega), Function.update_of_ne (by omega)]
    · rw [if_neg (by omega), if_pos le_rfl, Nat.sub_self, List.getElem?_cons_zero,
        Function.update_self, Option.getD_some]
    · rw [if_pos (by omega), if_pos (by omega), Function.update_of_ne (by omega),
        show b - a = b - (a + 1) + 1 by omega, List.getElem?_cons_succ]

/-- Writes within a range leave the ranges that it does not overlap as they are. -/
theorem agree_write {r r' : Range} {a : ℕ} {vs : List V} (m : ℕ → V) (hd : r'.Disjoint r)
    (hle : r.start ≤ a) (hfit : a + vs.length ≤ r.start + r.size) :
    r'.Agree (write a vs m) m := by
  intro b hb
  apply write_of_not_mem
  by_contra h
  have hmem : r.Contains b := by
    constructor <;> omega
  exact hd b hb hmem

end Memory
