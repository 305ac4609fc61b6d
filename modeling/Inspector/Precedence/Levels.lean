import Mathlib.Data.List.Basic
import Mathlib.Data.List.Pairwise
import Mathlib.Data.Nat.Basic

/-! # Operators by precedence

A chain is an operand followed by operators with an operand each. Its value is found level by level:
the operators of the highest level are applied from left to right, then those of the level below,
down to the first one. An operand may be missing, and an application may fail. A stack of operands
and operators finds the same value in one pass when the levels on it increase.
-/

namespace Precedence

variable {Op V : Type*} (prec : Op → ℕ) (exec : Op → V → V → Option V)

/-- The operators of a chain, each with the operand behind it. -/
abbrev Links (Op V : Type*) : Type _ := List (Op × Option V)

/-- An operator between operands. -/
def apply (o : Op) (x y : Option V) : Option V := x.bind fun a => y.bind fun b => exec o a b

/-- The operators of a level are applied from left to right. -/
def level (p : ℕ) : Option V → Links Op V → Option V × Links Op V
  | x, [] => (x, [])
  | x, (o, y) :: l =>
    if prec o = p then level p (apply exec o x y) l
    else
      let (y', l') := level p y l
      (x, (o, y') :: l')

/-- The levels from one down to the first. -/
def levels : ℕ → Option V × Links Op V → Option V × Links Op V
  | 0, e => e
  | n + 1, e => levels n (level prec exec (n + 1) e.1 e.2)

/-- The value of a chain of operators up to a level. -/
def value (n : ℕ) (x : Option V) (l : Links Op V) : Option V := (levels prec exec n (x, l)).1

/-- An operator with its operands taken from the stack as long as its level is not above the level
of the operator on the stack. -/
def reduce : List (V × Op) → V → Op → Option (List (V × Op))
  | [], y, o => some [(y, o)]
  | (v, o') :: s, y, o =>
    if prec o ≤ prec o' then (exec o' v y).bind fun w => reduce s w o
    else some ((y, o) :: (v, o') :: s)

/-- The chain that a stack stands in front of. -/
def unwind : List (V × Op) → Option V × Links Op V → Option V × Links Op V
  | [], e => e
  | (v, o) :: s, e => unwind s (some v, (o, e.1) :: e.2)

/-- The levels on a stack increase. -/
def Increasing (s : List (V × Op)) : Prop := s.Pairwise fun a b => prec b.2 < prec a.2

variable {prec exec} {p n : ℕ} {o : Op} {x y : Option V} {l : Links Op V} {s s' : List (V × Op)}

section Missing

/-- An operand of a chain is missing. -/
def Missing (e : Option V × Links Op V) : Prop := e.1 = none ∨ ∃ q ∈ e.2, q.2 = none

theorem apply_eq_none (h : x = none ∨ y = none) : apply exec o x y = none := by
  rcases h with rfl | rfl
  · rfl
  · cases x <;> rfl

theorem Missing.level (h : Missing (x, l)) : Missing (level prec exec p x l) := by
  induction l generalizing x with
  | nil => exact h
  | cons q l ih =>
    obtain ⟨o, y⟩ := q
    rw [Precedence.level]
    split_ifs
    · refine ih ?_
      rcases h with hx | ⟨q, hq, hnone⟩
      · exact .inl (apply_eq_none (.inl hx))
      · rcases List.mem_cons.mp hq with rfl | hq
        · exact .inl (apply_eq_none (.inr hnone))
        · exact .inr ⟨q, hq, hnone⟩
    · rcases h with hx | ⟨q, hq, hnone⟩
      · exact .inl hx
      · have hrest : Missing (y, l) := by
          rcases List.mem_cons.mp hq with rfl | hq
          · exact .inl hnone
          · exact .inr ⟨q, hq, hnone⟩
        rcases ih hrest with hy | ⟨q, hq, hnone⟩
        · exact .inr ⟨_, List.mem_cons_self, hy⟩
        · exact .inr ⟨q, List.mem_cons_of_mem _ hq, hnone⟩

/-- The operators that are left are of other levels. -/
theorem ne_of_mem_level {q : Op × Option V} (h : q ∈ (level prec exec p x l).2) :
    prec q.1 ≠ p ∧ ∃ q' ∈ l, q'.1 = q.1 := by
  induction l generalizing x with
  | nil => exact absurd h List.not_mem_nil
  | cons r l ih =>
    obtain ⟨o, y⟩ := r
    rw [level] at h
    split_ifs at h with ho
    · obtain ⟨hne, q', hq', heq⟩ := ih h
      exact ⟨hne, q', List.mem_cons_of_mem _ hq', heq⟩
    · rcases List.mem_cons.mp h with rfl | h
      · exact ⟨ho, _, List.mem_cons_self, rfl⟩
      · obtain ⟨hne, q', hq', heq⟩ := ih h
        exact ⟨hne, q', List.mem_cons_of_mem _ hq', heq⟩

/-- The levels of the operators of a chain are among the first `n`. -/
def Within (prec : Op → ℕ) (n : ℕ) (l : Links Op V) : Prop := ∀ q ∈ l, 0 < prec q.1 ∧ prec q.1 ≤ n

theorem Within.level (h : Within prec (n + 1) l) : Within prec n (level prec exec (n + 1) x l).2 := by
  intro q hq
  obtain ⟨hne, q', hq', heq⟩ := ne_of_mem_level hq
  obtain ⟨hpos, hle⟩ := h q' hq'
  rw [heq] at hpos hle
  omega

/-- Without an operand there is no value. -/
theorem value_of_missing (hl : Within prec n l) (h : Missing (x, l)) :
    value prec exec n x l = none := by
  induction n generalizing x l with
  | zero =>
    rcases h with hx | ⟨q, hq, -⟩
    · exact hx
    · have hwithin := hl q hq
      omega
  | succ n ih => exact ih hl.level h.level

end Missing

section Stack

theorem unwind_missing (h : Missing (x, l)) : Missing (unwind s (x, l)) := by
  induction s generalizing x l with
  | nil => exact h
  | cons a s ih =>
    obtain ⟨v, o⟩ := a
    refine ih ?_
    rcases h with hx | ⟨q, hq, hnone⟩
    · exact .inr ⟨_, List.mem_cons_self, hx⟩
    · exact .inr ⟨q, List.mem_cons_of_mem _ hq, hnone⟩

theorem unwind_within (hs : ∀ a ∈ s, 0 < prec a.2 ∧ prec a.2 ≤ n) (hl : Within prec n l) :
    Within prec n (unwind s (x, l)).2 := by
  induction s generalizing x l with
  | nil => exact hl
  | cons a s ih =>
    obtain ⟨v, o⟩ := a
    refine ih (fun b hb => hs b (List.mem_cons_of_mem _ hb)) ?_
    intro q hq
    rcases List.mem_cons.mp hq with rfl | hq
    · exact hs (v, o) List.mem_cons_self
    · exact hl q hq

/-- A level above those on the stack leaves the stack as it is. -/
theorem level_unwind (hs : ∀ a ∈ s, prec a.2 ≠ p) :
    level prec exec p (unwind s (x, l)).1 (unwind s (x, l)).2 =
      unwind s (level prec exec p x l) := by
  induction s generalizing x l with
  | nil => rfl
  | cons a s ih =>
    obtain ⟨v, o⟩ := a
    have ho : prec o ≠ p := hs (v, o) List.mem_cons_self
    rw [unwind, ih fun b hb => hs b (List.mem_cons_of_mem _ hb), level, if_neg ho]
    rfl

variable (exec) in
/-- An operand in front of operators of other levels is left as it is. -/
theorem level_of_head (h : ∀ q ∈ l.head?, prec q.1 ≠ p) (x : Option V) :
    ∃ l', level prec exec p x l = (x, l') ∧ (∀ y, level prec exec p y l = (y, l')) ∧
      l'.head?.map Prod.fst = l.head?.map Prod.fst := by
  cases l with
  | nil => exact ⟨[], rfl, fun _ => rfl, rfl⟩
  | cons q l =>
    obtain ⟨o, z⟩ := q
    have ho : prec o ≠ p := h (o, z) rfl
    refine ⟨(o, (level prec exec p z l).1) :: (level prec exec p z l).2, ?_, fun y => ?_, rfl⟩
    · rw [level, if_neg ho]
    · rw [level, if_neg ho]

/-- An operator between lower levels on the left and levels that are not higher on the right can be
applied first. -/
theorem levels_apply (hs : ∀ a ∈ s, prec a.2 < prec o) (hn : prec o ≤ n)
    (hpos : 0 < prec o) (hl : ∀ q ∈ l.head?, prec q.1 ≤ prec o) :
    levels prec exec n (unwind s (x, (o, y) :: l)) =
      levels prec exec n (unwind s (apply exec o x y, l)) := by
  induction n generalizing x y l with
  | zero => omega
  | succ n ih =>
    have hne : ∀ a ∈ s, prec a.2 ≠ n + 1 := by
      intro a ha
      have hlt := hs a ha
      omega
    rw [levels, levels, level_unwind hne, level_unwind hne, level]
    split_ifs with ho
    · rfl
    · have hlt : prec o ≤ n := by omega
      have hother : ∀ q ∈ l.head?, prec q.1 ≠ n + 1 := by
        intro q hq
        have hle := hl q hq
        omega
      obtain ⟨l', hlevel, hall, hhead⟩ := level_of_head exec hother y
      rw [hlevel, hall]
      refine ih hlt ?_
      intro q hq
      have hq' : q.1 ∈ l.head?.map Prod.fst := hhead ▸ Option.mem_map_of_mem Prod.fst hq
      obtain ⟨r, hr, heq⟩ := Option.map_eq_some_iff.mp hq'
      rw [← heq]
      exact hl r hr

/-- The stack that is left has the operator on top, and the value of the chain is the same. -/
theorem reduce_some (hs : Increasing prec s) (hn : ∀ a ∈ s, 0 < prec a.2 ∧ prec a.2 ≤ n)
    (hl : ∀ q ∈ l.head?, prec q.1 ≤ prec o) {b : V} (h : reduce prec exec s b o = some s') :
    ∃ w s'', s' = (w, o) :: s'' ∧ s'' <:+ s ∧ Increasing prec s' ∧
      levels prec exec n (unwind s (some b, l)) = levels prec exec n (unwind s'' (some w, l)) := by
  induction s generalizing b with
  | nil =>
    obtain rfl := Option.some.inj h
    exact ⟨b, [], rfl, List.suffix_rfl, List.pairwise_singleton _ _, rfl⟩
  | cons a s ih =>
    obtain ⟨v, o'⟩ := a
    obtain ⟨hbelow, hrest⟩ := List.pairwise_cons.mp hs
    obtain ⟨hpos, hle⟩ := hn (v, o') List.mem_cons_self
    rw [reduce] at h
    split_ifs at h with ho
    · obtain ⟨w, hw, hreduce⟩ := Option.bind_eq_some_iff.mp h
      obtain ⟨w', s'', rfl, hsuffix, hincreasing, heq⟩ :=
        ih hrest (fun c hc => hn c (List.mem_cons_of_mem _ hc)) hreduce
      refine ⟨w', s'', rfl, hsuffix.trans (List.suffix_cons _ s), hincreasing, ?_⟩
      have happly : apply exec o' (some v) (some b) = some w := hw
      rw [unwind, levels_apply hbelow hle hpos fun q hq => le_trans (hl q hq) ho, happly, heq]
    · obtain rfl := Option.some.inj h
      refine ⟨b, (v, o') :: s, rfl, List.suffix_rfl, ?_, rfl⟩
      refine List.pairwise_cons.mpr ⟨?_, hs⟩
      intro c hc
      rcases List.mem_cons.mp hc with rfl | hc
      · exact Nat.lt_of_not_le ho
      · exact lt_trans (hbelow c hc) (Nat.lt_of_not_le ho)

/-- When an application fails the chain has no value. -/
theorem reduce_none (hs : Increasing prec s) (hn : ∀ a ∈ s, 0 < prec a.2 ∧ prec a.2 ≤ n)
    (hwithin : Within prec n l) (hl : ∀ q ∈ l.head?, prec q.1 ≤ prec o) {b : V}
    (h : reduce prec exec s b o = none) :
    (levels prec exec n (unwind s (some b, l))).1 = none := by
  induction s generalizing b with
  | nil => cases h
  | cons a s ih =>
    obtain ⟨v, o'⟩ := a
    obtain ⟨hbelow, hrest⟩ := List.pairwise_cons.mp hs
    obtain ⟨hpos, hle⟩ := hn (v, o') List.mem_cons_self
    have hs' := fun c hc => hn c (List.mem_cons_of_mem (v, o') hc)
    rw [reduce] at h
    split_ifs at h with ho
    rw [unwind, levels_apply hbelow hle hpos fun q hq => le_trans (hl q hq) ho]
    cases hw : exec o' v b with
    | none =>
      have happly : apply exec o' (some v) (some b) = none := hw
      rw [happly]
      exact value_of_missing (unwind_within hs' hwithin) (unwind_missing (.inl rfl))
    | some w =>
      have happly : apply exec o' (some v) (some b) = some w := hw
      rw [hw, Option.bind_some] at h
      rw [happly]
      exact ih hrest hs' h

/-- There are no more operators on a stack than levels. -/
theorem Increasing.length_le (hs : Increasing prec s) (hpos : ∀ a ∈ s, 0 < prec a.2) :
    ∀ a ∈ s.head?, s.length ≤ prec a.2 := by
  induction s with
  | nil => exact fun a ha => by cases ha
  | cons b s ih =>
    intro a ha
    obtain rfl := Option.some.inj ha
    obtain ⟨hbelow, hrest⟩ := List.pairwise_cons.mp hs
    have hlen := ih hrest fun c hc => hpos c (List.mem_cons_of_mem b hc)
    cases s with
    | nil => exact hpos b List.mem_cons_self
    | cons c s => exact le_trans (Nat.succ_le_succ (hlen c rfl)) (hbelow c List.mem_cons_self)

end Stack

section Run

/-- A chain is read with a stack, up to an operator that stops it. -/
def run (prec : Op → ℕ) (exec : Op → V → V → Option V) (stop : Op) :
    List (V × Op) → Option V → Links Op V → Option V
  | s, x, [] => x.bind fun b => (reduce prec exec s b stop).bind fun s' => s'.head?.map Prod.fst
  | s, x, (o, y) :: l =>
    x.bind fun b => (reduce prec exec s b o).bind fun s' => run prec exec stop s' y l

theorem levels_nil (n : ℕ) (x : Option V) : levels prec exec n (x, []) = (x, []) := by
  induction n with
  | zero => rfl
  | succ n ih => exact ih

theorem run_unwind {stop : Op} (hs : Increasing prec s)
    (hn : ∀ a ∈ s, 0 < prec a.2 ∧ prec a.2 ≤ n) (hstop : ∀ a ∈ s, prec stop ≤ prec a.2)
    (hl : Within prec n l) (hlstop : ∀ q ∈ l, prec stop ≤ prec q.1) :
    run prec exec stop s x l = (levels prec exec n (unwind s (x, l))).1 := by
  induction l generalizing s x with
  | nil =>
    rw [run]
    cases x with
    | none => exact (value_of_missing (unwind_within hn hl) (unwind_missing (.inl rfl))).symm
    | some b =>
      rw [Option.bind_some]
      have hhead : ∀ q ∈ ([] : Links Op V).head?, prec q.1 ≤ prec stop := fun q hq => by cases hq
      cases hreduce : reduce prec exec s b stop with
      | none => exact (reduce_none hs hn hl hhead hreduce).symm
      | some s' =>
        obtain ⟨w, s'', rfl, hsuffix, hincreasing, heq⟩ := reduce_some hs hn hhead hreduce
        have hempty : s'' = [] := by
          by_contra hne
          obtain ⟨a, t, rfl⟩ := List.exists_cons_of_ne_nil hne
          have hlt : prec a.2 < prec stop := (List.pairwise_cons.mp hincreasing).1 a List.mem_cons_self
          have hle := hstop a (hsuffix.subset List.mem_cons_self)
          omega
        rw [heq, hempty, unwind, levels_nil]
        rfl
  | cons q l ih =>
    obtain ⟨o, y⟩ := q
    rw [run]
    cases x with
    | none => exact (value_of_missing (unwind_within hn hl) (unwind_missing (.inl rfl))).symm
    | some b =>
      rw [Option.bind_some]
      have hhead : ∀ q ∈ ((o, y) :: l).head?, prec q.1 ≤ prec o := by
        rintro q ⟨⟩
        exact le_rfl
      cases hreduce : reduce prec exec s b o with
      | none => exact (reduce_none hs hn hl hhead hreduce).symm
      | some s' =>
        obtain ⟨w, s'', rfl, hsuffix, hincreasing, heq⟩ := reduce_some hs hn hhead hreduce
        have ho := hl (o, y) List.mem_cons_self
        have hostop := hlstop (o, y) List.mem_cons_self
        have hn' : ∀ a ∈ (w, o) :: s'', 0 < prec a.2 ∧ prec a.2 ≤ n := by
          intro a ha
          rcases List.mem_cons.mp ha with rfl | ha
          · exact ho
          · exact hn a (hsuffix.subset ha)
        have hstop' : ∀ a ∈ (w, o) :: s'', prec stop ≤ prec a.2 := by
          intro a ha
          rcases List.mem_cons.mp ha with rfl | ha
          · exact hostop
          · exact hstop a (hsuffix.subset ha)
        rw [Option.bind_some, heq,
          ih hincreasing hn' hstop' (fun q hq => hl q (List.mem_cons_of_mem _ hq))
            (fun q hq => hlstop q (List.mem_cons_of_mem _ hq))]
        rfl

/-- The stack finds the value of a chain. -/
theorem run_eq {stop : Op} (hl : Within prec n l) (hstop : ∀ q ∈ l, prec stop ≤ prec q.1) :
    run prec exec stop [] x l = value prec exec n x l :=
  run_unwind List.Pairwise.nil (fun a ha => by cases ha) (fun a ha => by cases ha) hl hstop

end Run

end Precedence
