import Mathlib.Data.List.Basic

/-! # Keyed lists

A list of keys with values, read at the first entry of a key. Writing replaces that entry, or adds
one at the end. Removing all entries whose keys satisfy a predicate leaves the other keys alone.
-/

namespace Keyed

variable {κ ν : Type*} [DecidableEq κ]

/-- The value of the first entry of a key. -/
def read (k : κ) : List (κ × ν) → Option ν
  | [] => none
  | e :: l => if e.1 = k then some e.2 else read k l

/-- Replace the first entry of a key, or add one at the end. -/
def write (k : κ) (v : ν) : List (κ × ν) → List (κ × ν)
  | [] => [(k, v)]
  | e :: l => if e.1 = k then (k, v) :: l else e :: write k v l

/-- Remove the entries whose keys satisfy a predicate. -/
def remove (p : κ → Bool) (l : List (κ × ν)) : List (κ × ν) := l.filter fun e => !p e.1

variable {k k' : κ} {v : ν} {l : List (κ × ν)} {p : κ → Bool}

theorem read_write_self : read k (write k v l) = some v := by
  induction l with
  | nil => exact if_pos rfl
  | cons e l ih =>
    rw [write]
    split_ifs with h
    · exact if_pos rfl
    · rw [read, if_neg h, ih]

theorem read_write_of_ne (h : k' ≠ k) : read k' (write k v l) = read k' l := by
  induction l with
  | nil => exact if_neg h.symm
  | cons e l ih =>
    rw [write]
    split_ifs with he
    · rw [read, read, if_neg h.symm, if_neg (he ▸ h.symm)]
    · rw [read, read, ih]

theorem read_remove_of_pos (h : p k = true) : read k (remove p l) = none := by
  induction l with
  | nil => rfl
  | cons e l ih =>
    rw [remove, List.filter_cons]
    split_ifs with he
    · have hne : e.1 ≠ k := by
        rintro rfl
        rw [h] at he
        cases he
      rw [read, if_neg hne]
      exact ih
    · exact ih

theorem read_remove_of_neg (h : p k = false) : read k (remove p l) = read k l := by
  induction l with
  | nil => rfl
  | cons e l ih =>
    rw [remove, List.filter_cons, read]
    split_ifs with he hk hk
    · rw [read, if_pos hk]
    · rw [read, if_neg hk]
      exact ih
    · rw [hk, h] at he
      exact absurd rfl he
    · exact ih

theorem mem_of_read (h : read k l = some v) : (k, v) ∈ l := by
  induction l with
  | nil => cases h
  | cons e l ih =>
    rw [read] at h
    split_ifs at h with he
    · obtain rfl := Option.some.inj h
      exact he ▸ List.mem_cons_self
    · exact List.mem_cons_of_mem e (ih h)

theorem read_of_not_mem (h : ∀ e ∈ l, e.1 ≠ k) : read k l = none := by
  cases hread : read k l with
  | none => rfl
  | some v => exact absurd rfl (h _ (mem_of_read hread))

theorem read_of_mem (hkeys : (l.map Prod.fst).Nodup) (h : (k, v) ∈ l) : read k l = some v := by
  induction l with
  | nil => cases h
  | cons e l ih =>
    obtain ⟨he, hl⟩ := List.nodup_cons.mp hkeys
    rcases List.mem_cons.mp h with rfl | h
    · exact if_pos rfl
    · have hne : e.1 ≠ k := fun heq => he (heq ▸ List.mem_map_of_mem h)
      rw [read, if_neg hne, ih hl h]

theorem write_of_not_mem (h : ∀ e ∈ l, e.1 ≠ k) : write k v l = l ++ [(k, v)] := by
  induction l with
  | nil => rfl
  | cons e l ih =>
    rw [write, if_neg (h e List.mem_cons_self),
      ih fun e' he' => h e' (List.mem_cons_of_mem e he'), List.cons_append]

/-- Write to an entry that is the first one of its key. -/
theorem write_append {l₁ l₂ : List (κ × ν)} {w : ν} (h : ∀ e ∈ l₁, e.1 ≠ k) :
    write k v (l₁ ++ (k, w) :: l₂) = l₁ ++ (k, v) :: l₂ := by
  induction l₁ with
  | nil => exact if_pos rfl
  | cons e l₁ ih =>
    rw [List.cons_append, write, if_neg (h e List.mem_cons_self),
      ih fun e' he' => h e' (List.mem_cons_of_mem e he'), List.cons_append]

theorem mem_write (hkeys : (l.map Prod.fst).Nodup) {e : κ × ν} (h : e ∈ write k v l) :
    e = (k, v) ∨ e ∈ l ∧ e.1 ≠ k := by
  induction l with
  | nil => exact .inl (List.mem_singleton.mp h)
  | cons a l ih =>
    obtain ⟨ha, hl⟩ := List.nodup_cons.mp hkeys
    rw [write] at h
    split_ifs at h with hak
    · rcases List.mem_cons.mp h with rfl | h
      · exact .inl rfl
      · refine .inr ⟨List.mem_cons_of_mem a h, fun heq => ?_⟩
        rw [hak, ← heq] at ha
        exact ha (List.mem_map_of_mem h)
    · rcases List.mem_cons.mp h with rfl | h
      · exact .inr ⟨List.mem_cons_self, hak⟩
      · exact (ih hl h).imp id fun hmem => ⟨List.mem_cons_of_mem a hmem.1, hmem.2⟩

theorem nodup_write (hkeys : (l.map Prod.fst).Nodup) : ((write k v l).map Prod.fst).Nodup := by
  induction l with
  | nil => exact List.pairwise_singleton _ k
  | cons a l ih =>
    obtain ⟨ha, hl⟩ := List.nodup_cons.mp hkeys
    rw [write]
    split_ifs with hak
    · exact List.nodup_cons.mpr ⟨hak ▸ ha, hl⟩
    · refine List.nodup_cons.mpr ⟨fun hmem => ?_, ih hl⟩
      obtain ⟨e, he, heq⟩ := List.mem_map.mp hmem
      rcases mem_write hl he with rfl | ⟨he, -⟩
      · exact hak heq.symm
      · exact ha (heq ▸ List.mem_map_of_mem he)

omit [DecidableEq κ] in
theorem mem_remove {e : κ × ν} : e ∈ remove p l ↔ e ∈ l ∧ p e.1 = false := by
  rw [remove, List.mem_filter, Bool.not_eq_true']

omit [DecidableEq κ] in
theorem nodup_remove (hkeys : (l.map Prod.fst).Nodup) : ((remove p l).map Prod.fst).Nodup :=
  hkeys.sublist (List.filter_sublist.map Prod.fst)

omit [DecidableEq κ] in
theorem remove_of_not_mem (h : ∀ e ∈ l, p e.1 = false) : remove p l = l :=
  List.filter_eq_self.mpr fun e he => by rw [h e he, Bool.not_false]

omit [DecidableEq κ] in
/-- Remove the one entry of a key. -/
theorem remove_append {l₁ l₂ : List (κ × ν)} {e : κ × ν} (he : p e.1 = true)
    (h₁ : ∀ e ∈ l₁, p e.1 = false) (h₂ : ∀ e ∈ l₂, p e.1 = false) :
    remove p (l₁ ++ e :: l₂) = l₁ ++ l₂ := by
  have hcons : remove p (e :: l₂) = remove p l₂ :=
    List.filter_cons_of_neg (by rw [he, Bool.not_true]; exact Bool.false_ne_true)
  have happend : remove p (l₁ ++ e :: l₂) = remove p l₁ ++ remove p (e :: l₂) :=
    List.filter_append l₁ (e :: l₂)
  rw [happend, hcons, remove_of_not_mem h₁, remove_of_not_mem h₂]

end Keyed
