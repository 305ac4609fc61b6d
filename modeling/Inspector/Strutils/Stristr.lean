import Inspector.ToolTable.Table
import Inspector.Transition.Loop
import Inspector.Words.Split

/-! # The search that ignores case

`stristr` of `strutils.c` compares in one loop. When a comparison fails behind the first character,
it goes on at the character after the one that the comparison began with, and compares this one at
once. So no occurrence is left out, and the place where the comparison began or the number of
characters that agree goes up with every pass.
-/

namespace Inspector

namespace Strutils

open ToolTable (caps)
open Transition (loop)
open Words (OccursAt IsFirst Agrees)

/-- A character of a string: the one that is zero ends it. -/
abbrev Letter := {c : UInt8 // c ≠ 0}

/-- A string. A pointer into a string is the text from there up to the terminator. -/
abbrev Text := List Letter

/-- The character that a pointer points to. -/
def char : Text → UInt8
  | [] => 0
  | c :: _ => c

/-- The variables of `stristr`. -/
structure Search where
  s : Text
  p : Text
  r : Option Text

namespace Search

/-- The comparison with the first character of `s2`, and `s++`. There is no result when a pointer is
moved from the terminator on. -/
def again (s2 s : Text) : Search ⊕ Option (Option Text) :=
  match s with
  | [] => .inr none
  | c :: t =>
    if caps (char s2) = caps c then .inl ⟨t, s2.tail, some (c :: t)⟩ else .inl ⟨t, s2, none⟩

/-- The body of the loop of `stristr`. -/
def body (s2 : Text) (a : Search) : Search ⊕ Option (Option Text) :=
  match a.s, a.p with
  | _, [] => .inr (some a.r)
  | [], _ :: _ => .inr (some none)
  | c :: s, d :: p =>
    if caps d = caps c then .inl ⟨s, p, some (a.r.getD (c :: s))⟩
    else
      match a.r with
      | none => again s2 (c :: s)
      | some [] => .inr none
      | some (_ :: t) => again s2 t

end Search

/-- `stristr`, with a number of passes of its loop at most. -/
def stristr (fuel : ℕ) (s1 : Text) (s2 : Option Text) : Option (Option (Option Text)) :=
  match s2 with
  | none => some (some (some s1))
  | some [] => some (some (some s1))
  | some s2 => loop (Search.body s2) fuel ⟨s1, s2, none⟩

/-- A text without the difference of upper and lower case. -/
def spelled (s : Text) : List UInt8 := s.map fun c : Letter => caps c.val

variable {s1 s2 : Text} {k j : ℕ} {a : Search}

@[simp] theorem length_spelled (s : Text) : (spelled s).length = s.length := List.length_map _

/-- What is compared at a position. -/
theorem getElem?_spelled {s t : Text} {c : Letter} (h : s.drop k = c :: t) :
    (spelled s)[k]? = some (caps c) := by
  have hget : s[k]? = some c := by
    rw [← List.head?_drop, h, List.head?_cons]
  rw [spelled, List.getElem?_map, hget, Option.map_some]

theorem drop_succ_of_eq {s t : Text} {c : Letter} (h : s.drop k = c :: t) :
    s.drop (k + 1) = t := by
  rw [← List.tail_drop, h, List.tail_cons]

/-- The comparison began at `k`, and `j` characters agree. -/
structure Inv (s1 s2 : Text) (k j : ℕ) (a : Search) : Prop where
  s_eq : a.s = s1.drop (k + j)
  p_eq : a.p = s2.drop j
  r_eq : a.r = if j = 0 then none else some (s1.drop k)
  agrees : Agrees (spelled s2) (spelled s1) k j
  not_before : ∀ i < k, ¬OccursAt (spelled s2) (spelled s1) i

/-- How much there is left to do. -/
def rank (s1 s2 : Text) (k j : ℕ) : ℕ := (s1.length - k) * (s2.length + 2) + (s2.length - j)

theorem rank_succ_right (hj : j < s2.length) : rank s1 s2 k (j + 1) < rank s1 s2 k j := by
  unfold rank
  omega

theorem rank_succ_left {k' : ℕ} (hlt : k < k') (hk' : k' ≤ s1.length) (j' : ℕ) :
    rank s1 s2 k' j' < rank s1 s2 k j := by
  unfold rank
  have hle : s1.length - k' + 1 ≤ s1.length - k := by omega
  have hmul := Nat.mul_le_mul_right (s2.length + 2) hle
  rw [Nat.succ_mul] at hmul
  omega

/-- What the search is to give. -/
def Finds (s1 s2 : Text) (r : Option Text) : Prop :=
  (r = none ↔ ∀ k, ¬OccursAt (spelled s2) (spelled s1) k) ∧
    ∀ t, r = some t ↔ ∃ k, IsFirst (spelled s2) (spelled s1) k ∧ k ≤ s1.length ∧ t = s1.drop k

theorem finds_none (h : ∀ k, ¬OccursAt (spelled s2) (spelled s1) k) : Finds s1 s2 none := by
  refine ⟨⟨fun _ => h, fun _ => rfl⟩, fun t => ?_⟩
  constructor
  · intro heq
    cases heq
  · rintro ⟨k, hfirst, -⟩
    exact absurd hfirst.occurs (h k)

theorem finds_some (h : IsFirst (spelled s2) (spelled s1) k) (hk : k ≤ s1.length) :
    Finds s1 s2 (some (s1.drop k)) := by
  refine ⟨?_, fun t => ?_⟩
  · constructor
    · intro heq
      cases heq
    · intro hnone
      exact absurd h.occurs (hnone k)
  constructor
  · intro heq
    exact ⟨k, h, hk, (Option.some.inj heq).symm⟩
  · rintro ⟨k', h', -, rfl⟩
    rw [h.unique h']

namespace Inv

variable (h : Inv s1 s2 k j a)
include h

/-- The whole of `s2` agrees. -/
theorem exit (hs2 : s2 ≠ []) (hk : k ≤ s1.length) (hp : a.p = []) : Finds s1 s2 a.r := by
  have hlen : s2.length ≤ j := List.drop_eq_nil_iff.mp (h.p_eq.symm.trans hp)
  have hpos := List.length_pos_of_ne_nil hs2
  have hoccurs : OccursAt (spelled s2) (spelled s1) k := by
    rw [Words.occursAt_iff, length_spelled]
    exact fun i hi => h.agrees i (hi.trans_le hlen)
  rw [h.r_eq, if_neg (by omega)]
  exact finds_some ⟨hoccurs, h.not_before⟩ hk

/-- The string has come to its end inside of `s2`. -/
theorem exhausted (hs : a.s = []) (hp : a.p ≠ []) : Finds s1 s2 none := by
  have hlen : s1.length ≤ k + j := List.drop_eq_nil_iff.mp (h.s_eq.symm.trans hs)
  have hj : j < s2.length := by
    by_contra hge
    exact hp (h.p_eq.trans (List.drop_eq_nil_of_le (not_lt.mp hge)))
  refine finds_none fun i => ?_
  by_cases hi : i < k
  · exact h.not_before i hi
  · refine Words.not_occursAt_of_lt ?_ ?_
    · simp only [length_spelled]
      omega
    · rw [← List.length_pos_iff, length_spelled]
      omega

variable {c d : Letter} {s p : Text}

theorem lt_length (hs : a.s = c :: s) : k + j < s1.length := by
  have hne : s1.drop (k + j) ≠ [] := by
    rw [← h.s_eq, hs]
    exact List.cons_ne_nil _ _
  rw [Ne, List.drop_eq_nil_iff] at hne
  omega

theorem lt_pattern (hp : a.p = d :: p) : j < s2.length := by
  have hne : s2.drop j ≠ [] := by
    rw [← h.p_eq, hp]
    exact List.cons_ne_nil _ _
  rw [Ne, List.drop_eq_nil_iff] at hne
  omega

variable (hs : a.s = c :: s) (hp : a.p = d :: p)
include hs hp

/-- One character more agrees. -/
theorem agree (heq : caps d = caps c) :
    Inv s1 s2 k (j + 1) ⟨s, p, some (a.r.getD (c :: s))⟩ := by
  have hs1 : s1.drop (k + j) = c :: s := h.s_eq.symm.trans hs
  have hs2 : s2.drop j = d :: p := h.p_eq.symm.trans hp
  refine ⟨(drop_succ_of_eq hs1).symm, (drop_succ_of_eq hs2).symm, ?_, ?_, h.not_before⟩
  · rw [if_neg (Nat.succ_ne_zero j), h.r_eq]
    split_ifs with hj
    · rw [hj, Nat.add_zero] at hs1
      rw [Option.getD_none, hs1]
    · rw [Option.getD_some]
  · refine h.agrees.succ ?_
    rw [getElem?_spelled hs1, getElem?_spelled hs2, heq]

/-- A character that differs. -/
theorem differ (hne : caps d ≠ caps c) : ∀ i < k + 1, ¬OccursAt (spelled s2) (spelled s1) i := by
  have hs1 : s1.drop (k + j) = c :: s := h.s_eq.symm.trans hs
  have hs2 : s2.drop j = d :: p := h.p_eq.symm.trans hp
  intro i hi
  rcases Nat.lt_succ_iff_lt_or_eq.mp hi with hlt | rfl
  · exact h.not_before i hlt
  · exact Words.not_occursAt_of_ne (getElem?_spelled hs2) (getElem?_spelled hs1) hne

end Inv

/-- A comparison is yet to begin. -/
theorem fresh (hbefore : ∀ i < k, ¬OccursAt (spelled s2) (spelled s1) i) :
    Inv s1 s2 k 0 ⟨s1.drop k, s2, none⟩ :=
  ⟨rfl, rfl, rfl, Words.agrees_zero, hbefore⟩

/-- The comparison with the first character of `s2`. -/
theorem again_inv (hs2 : s2 ≠ []) (hk : k < s1.length)
    (hbefore : ∀ i < k, ¬OccursAt (spelled s2) (spelled s1) i) :
    ∃ a' k' j', Search.again s2 (s1.drop k) = .inl a' ∧ Inv s1 s2 k' j' a' ∧ k ≤ k' ∧
      k' ≤ s1.length := by
  obtain ⟨d, p, rfl⟩ := List.exists_cons_of_ne_nil hs2
  have hs1 : s1.drop k = s1[k] :: s1.drop (k + 1) := List.drop_eq_getElem_cons hk
  have hstart := fresh hbefore
  rw [hs1, Search.again, List.tail_cons]
  by_cases heq : caps (char (d :: p)) = caps s1[k]
  · rw [if_pos heq]
    exact ⟨_, k, 1, rfl, hstart.agree hs1 rfl heq, le_rfl, hk.le⟩
  · rw [if_neg heq]
    exact ⟨_, k + 1, 0, rfl, fresh (hstart.differ hs1 rfl heq), Nat.le_succ k, hk⟩

/-- One pass of the loop. -/
theorem body_inv (hs2 : s2 ≠ []) (hk : k ≤ s1.length) (h : Inv s1 s2 k j a) :
    (∃ r, a.body s2 = .inr (some r) ∧ Finds s1 s2 r) ∨
      ∃ a' k' j', a.body s2 = .inl a' ∧ Inv s1 s2 k' j' a' ∧ k' ≤ s1.length ∧
        rank s1 s2 k' j' < rank s1 s2 k j := by
  rcases hp : a.p with - | ⟨d, p⟩
  · refine .inl ⟨a.r, ?_, h.exit hs2 hk hp⟩
    rw [Search.body, hp]
  rcases hs : a.s with - | ⟨c, s⟩
  · refine .inl ⟨none, ?_, h.exhausted hs (hp ▸ List.cons_ne_nil d p)⟩
    rw [Search.body, hs, hp]
  have hlt := h.lt_length hs
  have hlt2 := h.lt_pattern hp
  right
  by_cases heq : caps d = caps c
  · refine ⟨_, k, j + 1, ?_, h.agree hs hp heq, hk, rank_succ_right hlt2⟩
    rw [Search.body, hs, hp]
    exact if_pos heq
  have hbefore := h.differ hs hp heq
  by_cases hj : j = 0
  · -- the first character of `s2` is compared once more
    subst hj
    have hs1 : s1.drop k = c :: s := h.s_eq.symm.trans hs
    obtain ⟨d', p', rfl⟩ := List.exists_cons_of_ne_nil hs2
    obtain ⟨rfl, rfl⟩ : d = d' ∧ p = p' := List.cons.inj (hp.symm.trans h.p_eq)
    refine ⟨_, k + 1, 0, ?_, fresh hbefore, hlt, rank_succ_left (Nat.lt_succ_self k) hlt 0⟩
    rw [Search.body, hs, hp, drop_succ_of_eq hs1]
    simp only
    rw [if_neg heq, h.r_eq, if_pos rfl]
    exact if_neg heq
  · have hk1 : k + 1 < s1.length := by omega
    obtain ⟨a', k', j', hagain, hinv, hle, hle'⟩ := again_inv hs2 hk1 hbefore
    refine ⟨a', k', j', ?_, hinv, hle', rank_succ_left hle hle' j'⟩
    have hr : a.r = some (s1[k] :: s1.drop (k + 1)) := by
      rw [h.r_eq, if_neg hj, List.drop_eq_getElem_cons (by omega)]
    rw [Search.body, hs, hp]
    simp only
    rw [if_neg heq, hr]
    exact hagain

/-- The search comes to its end, and gives the first position at which `s2` occurs. -/
theorem stristr_finds (s1 s2 : Text) :
    ∃ r, Finds s1 s2 r ∧
      ∀ n, (s1.length + 1) * (s2.length + 2) < n → stristr n s1 (some s2) = some (some r) := by
  by_cases hs2 : s2 = []
  · subst hs2
    have hfirst : IsFirst (spelled []) (spelled s1) 0 :=
      ⟨List.nil_prefix, fun i hi => absurd hi (Nat.not_lt_zero i)⟩
    exact ⟨some s1, finds_some hfirst (Nat.zero_le _), fun n _ => rfl⟩
  have hstart : Inv s1 s2 0 0 ⟨s1, s2, none⟩ := fresh fun i hi => absurd hi (Nat.not_lt_zero i)
  have hloop : ∃ r, (∃ r', r = some r' ∧ Finds s1 s2 r') ∧
      ∀ n, rank s1 s2 0 0 < n → loop (Search.body s2) n ⟨s1, s2, none⟩ = some r := by
    refine Transition.loop_of_rank
      (P := fun n a => ∃ k j, Inv s1 s2 k j a ∧ k ≤ s1.length ∧ n = rank s1 s2 k j) ?_
      ⟨0, 0, hstart, Nat.zero_le _, rfl⟩
    rintro n a ⟨k, j, hinv, hk, rfl⟩
    rcases body_inv hs2 hk hinv with ⟨r, hr, hfinds⟩ | ⟨a', k', j', ha', hinv', hk', hlt⟩
    · exact .inl ⟨some r, hr, r, rfl, hfinds⟩
    · exact .inr ⟨a', ha', _, hlt, k', j', hinv', hk', rfl⟩
  obtain ⟨_, ⟨r, rfl, hfinds⟩, hfuel⟩ := hloop
  refine ⟨r, hfinds, fun n hn => ?_⟩
  obtain ⟨d, p, rfl⟩ := List.exists_cons_of_ne_nil hs2
  refine hfuel n (lt_trans ?_ hn)
  unfold rank
  rw [Nat.succ_mul, Nat.sub_zero]
  omega

end Strutils

end Inspector
