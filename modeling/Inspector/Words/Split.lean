import Mathlib.Data.List.Basic
import Mathlib.Tactic.TypeStar

/-! # Words between separators

The words of a list are the longest runs without a separator, as `strtok` gives them. A list made of
words with separators between them has these words again. A word also occurs where a list goes on
with it; a search compares its elements one after the other with the list.
-/

namespace Words

section Occurrences

variable {α : Type*} {w l : List α} {k j : ℕ}

/-- The list goes on with the word from a position. -/
def OccursAt (w l : List α) (k : ℕ) : Prop := w <+: l.drop k

/-- The first position at which the word occurs. -/
structure IsFirst (w l : List α) (k : ℕ) : Prop where
  occurs : OccursAt w l k
  not_before : ∀ i < k, ¬OccursAt w l i

/-- The first elements of the word agree with the list. -/
def Agrees (w l : List α) (k j : ℕ) : Prop := ∀ i < j, l[k + i]? = w[i]?

theorem occursAt_iff : OccursAt w l k ↔ Agrees w l k w.length := by
  unfold OccursAt Agrees
  rw [List.prefix_iff_getElem?]
  refine forall₂_congr fun i hi => ?_
  rw [List.getElem?_drop, List.getElem?_eq_getElem hi]

theorem agrees_zero : Agrees w l k 0 := fun i hi => absurd hi (Nat.not_lt_zero i)

theorem Agrees.succ (h : Agrees w l k j) (hj : l[k + j]? = w[j]?) : Agrees w l k (j + 1) := by
  intro i hi
  rcases Nat.lt_succ_iff_lt_or_eq.mp hi with hlt | rfl
  · exact h i hlt
  · exact hj

/-- An element that differs. -/
theorem not_occursAt_of_ne {c d : α} (hw : w[j]? = some d) (hl : l[k + j]? = some c)
    (hne : d ≠ c) : ¬OccursAt w l k := by
  intro h
  have hlt : j < w.length := (List.getElem?_eq_some_iff.mp hw).1
  have heq := occursAt_iff.mp h j hlt
  rw [hw, hl] at heq
  exact hne (Option.some.inj heq).symm

/-- The list ends before the word does. -/
theorem not_occursAt_of_lt (hlt : l.length < k + w.length) (hw : w ≠ []) : ¬OccursAt w l k := by
  intro h
  have hle := h.length_le
  rw [List.length_drop] at hle
  have hpos := List.length_pos_of_ne_nil hw
  omega

/-- There is one first position only. -/
theorem IsFirst.unique {k' : ℕ} (h : IsFirst w l k) (h' : IsFirst w l k') : k = k' := by
  rcases Nat.lt_trichotomy k k' with hlt | heq | hlt
  · exact absurd h.occurs (h'.not_before k hlt)
  · exact heq
  · exact absurd h'.occurs (h.not_before k' hlt)

end Occurrences

variable {α : Type*} [DecidableEq α]

/-- The nonempty runs between separators. -/
def words (sep : α) (l : List α) : List (List α) := (l.splitOn sep).filter fun w => w ≠ []

/-- A nonempty run without separators. -/
structure IsWord (sep : α) (w : List α) : Prop where
  not_mem : sep ∉ w
  ne_nil : w ≠ []

variable {sep : α} {w l : List α}

@[simp] theorem words_nil : words sep ([] : List α) = [] := by
  simp [words]

/-- A separator parts the words on its left from those on its right. -/
theorem words_append_cons (sep : α) (l m : List α) :
    words sep (l ++ sep :: m) = words sep l ++ words sep m := by
  unfold words
  rw [List.splitOn_append_cons_self, List.filter_append]

theorem words_word (h : IsWord sep w) : words sep w = [w] := by
  unfold words
  rw [List.splitOn_eq_singleton h.not_mem, List.filter_cons_of_pos (by simpa using h.ne_nil),
    List.filter_nil]

theorem words_cons_sep (l : List α) : words sep (sep :: l) = words sep l := by
  have h := words_append_cons sep [] l
  simpa using h

/-- Words that are each followed by a separator. -/
theorem words_flatMap_append {ws : List (List α)} (h : ∀ w ∈ ws, IsWord sep w) (l : List α) :
    words sep (ws.flatMap (· ++ [sep]) ++ l) = ws ++ words sep l := by
  induction ws with
  | nil => rfl
  | cons w ws ih =>
    have hw := h w List.mem_cons_self
    have hrest := ih fun v hv => h v (List.mem_cons_of_mem w hv)
    rw [List.flatMap_cons, List.append_assoc, List.append_assoc, List.singleton_append,
      words_append_cons, words_word hw, hrest, List.singleton_append, List.cons_append]

/-- A list is without separators, or it is parted at the first one. -/
@[elab_as_elim] theorem parted_induction {motive : List α → Prop} (sep : α)
    (last : ∀ l, sep ∉ l → motive l)
    (parted : ∀ l m, sep ∉ l → motive m → motive (l ++ sep :: m)) (l : List α) : motive l := by
  induction hn : l.length using Nat.strongRecOn generalizing l with
  | _ n ih =>
    by_cases h : sep ∈ l
    · obtain ⟨l, m, rfl, hl⟩ := List.eq_append_cons_of_mem h
      refine parted l m hl (ih m.length ?_ m rfl)
      rw [← hn, List.length_append, List.length_cons]
      omega
    · exact last l h

/-- The runs between separators are made of the other elements. -/
theorem mem_of_mem_splitOn {x : α} :
    ∀ {l w : List α}, w ∈ l.splitOn sep → x ∈ w → x ∈ l ∧ x ≠ sep
  | [], w, h, hx => by
    rw [List.splitOn_nil, List.mem_singleton] at h
    exact absurd (h ▸ hx) List.not_mem_nil
  | y :: l, w, h, hx => by
    rw [List.splitOn_cons_eq_if_modifyHead] at h
    obtain ⟨v, vs, hv⟩ := List.exists_cons_of_ne_nil (List.splitOn_ne_nil sep l)
    have hrest : ∀ {u : List α}, u ∈ l.splitOn sep → x ∈ u → x ∈ y :: l ∧ x ≠ sep := by
      intro u hu hxu
      obtain ⟨hl, hne⟩ := mem_of_mem_splitOn hu hxu
      exact ⟨List.mem_cons_of_mem y hl, hne⟩
    split at h
    · rcases List.mem_cons.mp h with rfl | h
      · exact absurd hx List.not_mem_nil
      · exact hrest h hx
    · rename_i hy
      rw [hv, List.modifyHead_cons] at h
      rcases List.mem_cons.mp h with rfl | h
      · rcases List.mem_cons.mp hx with rfl | hx
        · exact ⟨List.mem_cons_self, fun heq => hy (beq_iff_eq.mpr heq)⟩
        · exact hrest (hv ▸ List.mem_cons_self) hx
      · exact hrest (hv ▸ List.mem_cons_of_mem v h) hx

theorem isWord_of_mem (h : w ∈ words sep l) : IsWord sep w := by
  obtain ⟨hsplit, hne⟩ := List.mem_filter.mp h
  exact ⟨fun hmem => (mem_of_mem_splitOn hsplit hmem).2 rfl, by simpa using hne⟩

/-- The words are made of what is in the list. -/
theorem mem_of_mem_words {x : α} (h : w ∈ words sep l) (hx : x ∈ w) : x ∈ l :=
  (mem_of_mem_splitOn (List.mem_filter.mp h).1 hx).1

end Words
