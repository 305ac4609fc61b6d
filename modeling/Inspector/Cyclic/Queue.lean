import Inspector.Cyclic.Successor

/-! # Queues on a cycle

A queue is kept in a cyclic array between the place of its first element and the place behind its
last one. It is empty when these are the same, so one place stays free when it is full.
-/

namespace Cyclic

variable {n : ℕ} {α : Type*}

theorem dist_le (i j : Fin (n + 1)) : dist i j ≤ n := by
  have := i.isLt
  have := j.isLt
  rw [dist]
  split_ifs <;> omega

theorem iterate_dist (i j : Fin (n + 1)) : next^[dist i j] i = j := by
  apply Fin.ext
  have := i.isLt
  have := j.isLt
  rw [iterate_next_val, dist]
  split_ifs with h
  · rw [Nat.add_sub_cancel' h, Nat.mod_eq_of_lt j.isLt]
  · rw [Nat.mod_eq_sub_mod (by omega), Nat.mod_eq_of_lt (by omega)]
    omega

theorem dist_eq_zero_iff {i j : Fin (n + 1)} : dist i j = 0 ↔ i = j := by
  constructor
  · intro h
    have hj := iterate_dist i j
    rwa [h, Function.iterate_zero_apply] at hj
  · rintro rfl
    exact dist_iterate_next i n.zero_le

theorem next_eq_iff {i j : Fin (n + 1)} : next j = i ↔ dist i j = n := by
  have hj := iterate_dist i j
  constructor
  · intro h
    by_contra hne
    have hlt : dist i j + 1 ≤ n := by
      have := dist_le i j
      omega
    rw [← hj, ← Function.iterate_succ_apply' next] at h
    have hzero : next^[dist i j + 1] i = next^[0] i := h
    exact Nat.succ_ne_zero _ ((iterate_next_inj hlt n.zero_le).mp hzero)
  · intro h
    rw [h] at hj
    rw [← hj, ← Function.iterate_succ_apply' next]
    exact iterate_next_cycle i

theorem dist_next_right {i j : Fin (n + 1)} (h : next j ≠ i) : dist i (next j) = dist i j + 1 := by
  have hlt : dist i j + 1 ≤ n := by
    have hle := dist_le i j
    have hne := next_eq_iff.not.mp h
    omega
  have hnext : next j = next^[dist i j + 1] i := by
    rw [Function.iterate_succ_apply', iterate_dist]
  rw [hnext, dist_iterate_next i hlt]

theorem dist_next_left {i j : Fin (n + 1)} (h : i ≠ j) : dist i j = dist (next i) j + 1 := by
  obtain ⟨k, hk⟩ : ∃ k, dist i j = k + 1 := Nat.exists_eq_succ_of_ne_zero (dist_eq_zero_iff.not.mpr h)
  have hle := dist_le i j
  have hj := iterate_dist i j
  rw [hk, Function.iterate_succ_apply] at hj
  have hdist := dist_iterate_next (next i) (by omega : k ≤ n)
  rw [hj] at hdist
  rw [hk, hdist]

/-- A queue in a cyclic array of `n + 1` places. -/
structure Queue (n : ℕ) (α : Type*) where
  data : Fin (n + 1) → α
  head : Fin (n + 1)
  tail : Fin (n + 1)

namespace Queue

variable {q : Queue n α}

/-- The elements from the first one on. -/
def contents (q : Queue n α) : List α := arc q.data (dist q.tail q.head) q.tail

/-- An element is put behind the last one. -/
def put (q : Queue n α) (a : α) : Queue n α :=
  { q with data := Function.update q.data q.head a, head := next q.head }

/-- The first element is taken away. -/
def drop (q : Queue n α) : Queue n α := { q with tail := next q.tail }

/-- All elements are taken away. -/
def clear (q : Queue n α) : Queue n α := { q with tail := q.head }

@[simp] theorem contents_clear : q.clear.contents = [] := by
  have hzero : dist q.head q.head = 0 := dist_eq_zero_iff.mpr rfl
  change arc q.data (dist q.head q.head) q.head = []
  rw [hzero]
  rfl

theorem length_contents : q.contents.length = dist q.tail q.head := length_arc _ _ _

theorem contents_eq_nil_iff : q.contents = [] ↔ q.tail = q.head := by
  rw [← List.length_eq_zero_iff, length_contents, dist_eq_zero_iff]

theorem full_iff : next q.head = q.tail ↔ q.contents.length = n := by
  rw [length_contents, next_eq_iff]

theorem length_contents_le (q : Queue n α) : q.contents.length ≤ n := by
  rw [length_contents]
  exact dist_le _ _

theorem contents_put (h : next q.head ≠ q.tail) (a : α) :
    (q.put a).contents = q.contents ++ [a] := by
  have houtside : ∀ k < dist q.tail q.head, next^[k] q.tail ≠ q.head := by
    intro k hk hhead
    rw [← iterate_dist q.tail q.head] at hhead
    have hle := dist_le q.tail q.head
    exact hk.ne ((iterate_next_inj (hk.le.trans hle) hle).mp hhead)
  change arc (Function.update q.data q.head a) (dist q.tail (next q.head)) q.tail = _
  rw [dist_next_right h, arc_succ, arc_update q.data a houtside, iterate_dist,
    Function.update_self]
  rfl

theorem contents_eq_cons (h : q.tail ≠ q.head) :
    q.contents = q.data q.tail :: q.drop.contents := by
  rw [contents, dist_next_left h]
  rfl

/-- A place holds an element. -/
def Holds (q : Queue n α) (i : Fin (n + 1)) : Prop :=
  ∃ k < dist q.tail q.head, next^[k] q.tail = i

theorem not_holds_clear (i : Fin (n + 1)) : ¬q.clear.Holds i := by
  rintro ⟨k, hk, -⟩
  have hzero : dist q.head q.head = 0 := dist_eq_zero_iff.mpr rfl
  change k < dist q.head q.head at hk
  omega

/-- The place of the first element is free when it has been taken away. -/
theorem not_holds_tail (h : q.tail ≠ q.head) : ¬q.drop.Holds q.tail := by
  rintro ⟨k, hk, hi⟩
  change k < dist (next q.tail) q.head at hk
  change next^[k] (next q.tail) = q.tail at hi
  rw [← Function.iterate_succ_apply] at hi
  have hle := dist_le q.tail q.head
  rw [dist_next_left h] at hle
  have hzero : next^[k + 1] q.tail = next^[0] q.tail := hi
  exact Nat.succ_ne_zero _ ((iterate_next_inj (by omega) n.zero_le).mp hzero)

theorem not_holds_put {i : Fin (n + 1)} (h : next q.head ≠ q.tail) (hi : ¬q.Holds i)
    (hhead : i ≠ q.head) (a : α) : ¬(q.put a).Holds i := by
  rintro ⟨k, hk, hk'⟩
  change k < dist q.tail (next q.head) at hk
  change next^[k] q.tail = i at hk'
  rw [dist_next_right h] at hk
  rcases Nat.lt_or_ge k (dist q.tail q.head) with hlt | hge
  · exact hi ⟨k, hlt, hk'⟩
  · obtain rfl : k = dist q.tail q.head := by omega
    exact hhead (hk'.symm.trans (iterate_dist q.tail q.head))

theorem holds_put (h : next q.head ≠ q.tail) (a : α) : (q.put a).Holds q.head := by
  refine ⟨dist q.tail q.head, ?_, iterate_dist q.tail q.head⟩
  change dist q.tail q.head < dist q.tail (next q.head)
  rw [dist_next_right h]
  exact Nat.lt_succ_self _

/-- A write to a place that holds nothing does not change the contents. -/
theorem contents_update {i : Fin (n + 1)} (hi : ¬q.Holds i) (a : α) :
    ({ q with data := Function.update q.data i a } : Queue n α).contents = q.contents :=
  arc_update q.data a fun k hk he => hi ⟨k, hk, he⟩

end Queue

end Cyclic
