import Mathlib.Order.Lattice
import Mathlib.Data.List.Basic

/-! # Insertion that puts ties with the first element in front

Elements are inserted into a list one after the other. An element goes in front of the whole list
when its key is not above that of the first element, and otherwise behind all elements whose keys
are not above its own. The list stays sorted, and elements with equal keys stay in their order of
insertion unless one is inserted whose key is that of the first.
-/

namespace Ordered

variable {τ κ ν : Type*} [LinearOrder κ] [LinearOrder ν] {key : τ → κ} {seq : τ → ν} {t a b : τ}
  {l l' m : List τ}

/-- The keys do not decrease. -/
def Sorted (key : τ → κ) (l : List τ) : Prop := l.Pairwise fun a b => key a ≤ key b

/-- Elements with equal keys are in order. -/
def Stable (key : τ → κ) (seq : τ → ν) (l : List τ) : Prop :=
  l.Pairwise fun a b => key a = key b → seq a < seq b

/-- The parts of a list that an element is put between. -/
def Fits (key : τ → κ) (t : τ) (l₁ l₂ : List τ) : Prop :=
  match l₁ with
  | [] => ∀ h ∈ l₂.head?, key t ≤ key h
  | h :: l => key h < key t ∧ (∀ a ∈ l, key a ≤ key t) ∧ ∀ a ∈ l₂.head?, key t < key a

/-- The second list is the first one with an element inserted. -/
def Inserted (key : τ → κ) (t : τ) (l l' : List τ) : Prop :=
  ∃ l₁ l₂, l = l₁ ++ l₂ ∧ l' = l₁ ++ t :: l₂ ∧ Fits key t l₁ l₂

theorem Inserted.sublist (h : Inserted key t l l') : l.Sublist l' := by
  obtain ⟨l₁, l₂, rfl, rfl, -⟩ := h
  exact (List.sublist_cons_self t l₂).append_left l₁

theorem Inserted.mem (h : Inserted key t l l') : t ∈ l' := by
  obtain ⟨l₁, l₂, -, rfl, -⟩ := h
  exact List.mem_append_right _ List.mem_cons_self

theorem Inserted.mem_iff (h : Inserted key t l l') : a ∈ l' ↔ a = t ∨ a ∈ l := by
  obtain ⟨l₁, l₂, rfl, rfl, -⟩ := h
  rw [List.perm_middle.mem_iff, List.mem_cons]

/-- All that follows is above the first of it. -/
theorem Sorted.head_le (hs : Sorted key (a :: l)) (hb : b ∈ a :: l) : key a ≤ key b := by
  rcases List.mem_cons.mp hb with rfl | hb
  · exact le_rfl
  · exact List.rel_of_pairwise_cons hs hb

theorem Fits.le (h : Fits key t l m) (ha : a ∈ l) : key a ≤ key t := by
  cases l with
  | nil => cases ha
  | cons b l =>
    obtain ⟨hb, hl, -⟩ := h
    rcases List.mem_cons.mp ha with rfl | ha
    · exact hb.le
    · exact hl a ha

theorem Fits.ge (h : Fits key t l m) (hs : Sorted key m) (ha : a ∈ m) : key t ≤ key a := by
  cases m with
  | nil => cases ha
  | cons b m =>
    apply le_trans _ (hs.head_le ha)
    cases l with
    | nil => exact h b rfl
    | cons c l => exact (h.2.2 b rfl).le

theorem Inserted.sorted (h : Inserted key t l l') (hs : Sorted key l) : Sorted key l' := by
  obtain ⟨l₁, l₂, rfl, rfl, hfits⟩ := h
  obtain ⟨h₁, h₂, h₁₂⟩ := List.pairwise_append.mp hs
  apply List.pairwise_append.mpr
  refine ⟨h₁, List.pairwise_cons.mpr ⟨fun a ha => hfits.ge h₂ ha, h₂⟩, ?_⟩
  intro a ha b hb
  rcases List.mem_cons.mp hb with rfl | hb
  · exact hfits.le ha
  · exact h₁₂ a ha b hb

/-- The list stays stable when the new element, which comes last, does not tie with the first. -/
theorem Inserted.stable (h : Inserted key t l l') (hs : Sorted key l) (hst : Stable key seq l)
    (hlast : ∀ a ∈ l, seq a < seq t) (hne : ∀ a ∈ l.head?, key a ≠ key t) : Stable key seq l' := by
  obtain ⟨l₁, l₂, rfl, rfl, hfits⟩ := h
  obtain ⟨h₁, h₂, h₁₂⟩ := List.pairwise_append.mp hst
  have hs₂ : Sorted key l₂ := (List.pairwise_append.mp hs).2.1
  have habove : ∀ a ∈ l₂, key t ≠ key a := by
    intro a ha
    cases l₂ with
    | nil => cases ha
    | cons b l₂ =>
      apply (lt_of_lt_of_le _ (hs₂.head_le ha)).ne
      cases l₁ with
      | nil => exact lt_of_le_of_ne (hfits b rfl) (hne b rfl).symm
      | cons c l₁ => exact hfits.2.2 b rfl
  apply List.pairwise_append.mpr
  refine ⟨h₁, List.pairwise_cons.mpr ⟨fun a ha he => absurd he (habove a ha), h₂⟩, ?_⟩
  intro a ha b hb
  rcases List.mem_cons.mp hb with rfl | hb
  · exact fun _ => hlast a (List.mem_append_left _ ha)
  · exact h₁₂ a ha b hb

/-- A new element that ties with the first one is out of order. -/
theorem Inserted.not_stable (h : Inserted key t l l') (ha : l.head? = some a)
    (hlast : seq a < seq t) (he : key a = key t) : ¬ Stable key seq l' := by
  obtain ⟨l₁, l₂, rfl, rfl, hfits⟩ := h
  cases l₁ with
  | nil =>
    intro hst
    have hmem : a ∈ l₂ := List.mem_of_mem_head? ha
    exact absurd (List.rel_of_pairwise_cons hst hmem he.symm) hlast.not_gt
  | cons b l₁ =>
    obtain rfl := Option.some.inj ha
    exact absurd he hfits.1.ne

end Ordered
