import Mathlib.Data.List.Nodup
import Mathlib.Logic.Function.Basic

/-! # Linked lists

The nodes of a singly linked list are found by following a function from a head. Loops over such a
list are given a bound on their steps, and have no result when they do not end within it.
-/

namespace Linked

variable {ι : Type*} {next next' : ι → Option ι} {h : Option ι} {a t i : ι} {l m : List ι}

/-- The list is found by following `next` from the head. -/
inductive Chain (next : ι → Option ι) : Option ι → List ι → Prop where

  | nil : Chain next none []

  | cons {a : ι} {l : List ι} : Chain next (next a) l → Chain next (some a) (a :: l)

theorem chain_none_iff : Chain next none l ↔ l = [] := by
  constructor
  · rintro ⟨⟩
    rfl
  · rintro rfl
    exact .nil

theorem chain_nil_iff : Chain next h [] ↔ h = none := by
  constructor
  · rintro ⟨⟩
    rfl
  · rintro rfl
    exact .nil

theorem chain_some_iff : Chain next (some a) l ↔ ∃ m, l = a :: m ∧ Chain next (next a) m := by
  constructor
  · rintro (_ | hm)
    exact ⟨_, rfl, hm⟩
  · rintro ⟨m, rfl, hm⟩
    exact .cons hm

theorem chain_cons_iff : Chain next h (a :: l) ↔ h = some a ∧ Chain next (next a) l := by
  constructor
  · rintro (_ | hl)
    exact ⟨rfl, hl⟩
  · rintro ⟨rfl, hl⟩
    exact .cons hl

theorem Chain.head_eq (hc : Chain next h l) : h = l.head? := by
  cases hc with
  | nil => rfl
  | cons _ => rfl

theorem Chain.unique (hl : Chain next h l) (hm : Chain next h m) : l = m := by
  induction hl generalizing m with
  | nil => exact (chain_none_iff.mp hm).symm
  | cons _ ih =>
    obtain ⟨m', rfl, hm'⟩ := chain_some_iff.mp hm
    rw [ih hm']

/-- Only the nodes of a list decide about it. -/
theorem Chain.congr (hc : Chain next h l) (he : ∀ i ∈ l, next' i = next i) :
    Chain next' h l := by
  induction hc with
  | nil => exact .nil
  | @cons a l _ ih =>
    apply Chain.cons
    rw [he a List.mem_cons_self]
    exact ih fun i hi => he i (List.mem_cons_of_mem a hi)

/-- What follows a node. -/
theorem Chain.suffix (hc : Chain next h (l ++ t :: m)) : Chain next (next t) m := by
  induction l generalizing h with
  | nil => exact (chain_cons_iff.mp hc).2
  | cons a l ih => exact ih (chain_cons_iff.mp hc).2

/-- What follows the first part of a list. -/
theorem Chain.drop (hc : Chain next h (l ++ m)) :
    Chain next (l.getLast?.elim h next) m := by
  rcases List.eq_nil_or_concat l with rfl | ⟨k, p, rfl⟩
  · exact hc
  · rw [List.concat_eq_append, List.append_assoc] at hc
    rw [List.concat_eq_append, List.getLast?_concat]
    exact hc.suffix

section Collect

/-- The nodes that are found from a head, up to a bound. -/
def collect (next : ι → Option ι) : ℕ → Option ι → List ι
  | 0, _ => []
  | _, none => []
  | fuel + 1, some t => t :: collect next fuel (next t)

theorem Chain.collect_eq {fuel : ℕ} (hc : Chain next h l) (hfuel : l.length ≤ fuel) :
    collect next fuel h = l := by
  induction l generalizing h fuel with
  | nil =>
    obtain rfl := chain_nil_iff.mp hc
    cases fuel <;> rfl
  | cons a l ih =>
    obtain ⟨rfl, hl⟩ := chain_cons_iff.mp hc
    obtain ⟨fuel, rfl⟩ : ∃ k, fuel = k + 1 :=
      ⟨fuel - 1, by rw [List.length_cons] at hfuel; omega⟩
    exact congrArg (a :: ·) (ih hl (Nat.le_of_succ_le_succ hfuel))

end Collect

section Update

variable [DecidableEq ι] {v : Option ι}

/-- Writing to a node that is not in the list. -/
theorem Chain.update (hc : Chain next h l) (ht : t ∉ l) :
    Chain (Function.update next t v) h l :=
  hc.congr fun i hi => Function.update_of_ne (fun he : i = t => ht (he ▸ hi)) v next

/-- Writing to a node replaces what follows it. -/
theorem Chain.replace (hc : Chain next h (l ++ t :: m)) (ht : t ∉ l) {m' : List ι}
    (hv : Chain next v m') (hm : t ∉ m') :
    Chain (Function.update next t v) h (l ++ t :: m') := by
  induction l generalizing h with
  | nil =>
    obtain ⟨rfl, -⟩ := chain_cons_iff.mp hc
    apply Chain.cons
    rw [Function.update_self]
    exact hv.update hm
  | cons a l ih =>
    obtain ⟨rfl, hl⟩ := chain_cons_iff.mp hc
    obtain ⟨ha, hl'⟩ := not_or.mp fun h => ht (List.mem_cons.mpr h)
    apply Chain.cons
    rw [Function.update_of_ne (Ne.symm ha)]
    exact ih hl hl'

/-- Taking out a node that has a predecessor. -/
theorem Chain.unlink {p : ι} (hc : Chain next h (l ++ p :: t :: m))
    (hn : (l ++ p :: t :: m).Nodup) :
    Chain (Function.update next p (next t)) h (l ++ p :: m) := by
  have hsuffix : Chain next h ((l ++ [p]) ++ t :: m) := by
    rwa [List.append_assoc]
  obtain ⟨-, hpt, hdisjoint⟩ := List.nodup_append.mp hn
  apply hc.replace (fun hp => hdisjoint p hp p List.mem_cons_self rfl) hsuffix.suffix
  exact fun hp => (List.nodup_cons.mp hpt).1 (List.mem_cons_of_mem t hp)

theorem erase_eq {p : ι} (h : (l ++ p :: t :: m).Nodup) :
    (l ++ p :: t :: m).erase t = l ++ p :: m := by
  have hsplit : l ++ p :: t :: m = (l ++ [p]) ++ t :: m := by
    rw [List.append_assoc]
    rfl
  rw [hsplit] at h ⊢
  obtain ⟨-, -, hdisjoint⟩ := List.nodup_append.mp h
  have hnot : t ∉ l ++ [p] := fun hx => hdisjoint t hx t List.mem_cons_self rfl
  rw [List.erase_append_right _ hnot, List.erase_cons_head, List.append_assoc]
  rfl

/-- Putting in a node after another one. -/
theorem Chain.insert (hc : Chain next h (l ++ t :: m)) (hn : (l ++ t :: m).Nodup)
    (hi : i ∉ l ++ t :: m) :
    Chain (Function.update (Function.update next i (next t)) t (some i)) h (l ++ t :: i :: m) := by
  obtain ⟨-, htm, hdisjoint⟩ := List.nodup_append.mp hn
  have hil : i ∉ t :: m := fun h => hi (List.mem_append_right l h)
  have hti : t ≠ i := fun he => hil (he ▸ List.mem_cons_self)
  have him : i ∉ m := fun h => hil (List.mem_cons_of_mem t h)
  have htnot : t ∉ m := (List.nodup_cons.mp htm).1
  apply (hc.update hi).replace (fun ht => hdisjoint t ht t List.mem_cons_self rfl)
  · apply Chain.cons
    rw [Function.update_self]
    exact hc.suffix.update him
  · rintro (_ | ⟨_, ht⟩)
    · exact hti rfl
    · exact htnot ht

end Update

section Seek

/-- The loop that looks for the node in front of one that meets a condition, or the last node. -/
def seek (next : ι → Option ι) (p : ι → Bool) : ℕ → ι → Option ι
  | 0, _ => none
  | fuel + 1, t =>
    match next t with
    | none => some t
    | some u => if p u then some t else seek next p fuel u

/-- The loop stops in front of the first node that meets the condition. -/
theorem seek_eq (p : ι → Bool) {fuel : ℕ} (hc : Chain next (some a) (a :: l))
    (hfuel : l.length < fuel) :
    ∃ l₁ t l₂, a :: l = l₁ ++ t :: l₂ ∧ seek next p fuel a = some t ∧
      (∀ i ∈ (l₁ ++ [t]).tail, p i = false) ∧ ∀ i ∈ l₂.head?, p i = true := by
  induction l generalizing a fuel with
  | nil =>
    obtain ⟨fuel, rfl⟩ : ∃ k, fuel = k + 1 := ⟨fuel - 1, by omega⟩
    have hnext : next a = none := chain_nil_iff.mp (chain_cons_iff.mp hc).2
    refine ⟨[], a, [], rfl, ?_, ?_, ?_⟩
    · rw [seek, hnext]
    · rintro i ⟨⟩
    · rintro i ⟨⟩
  | cons u l ih =>
    obtain ⟨fuel, rfl⟩ : ∃ k, fuel = k + 1 := ⟨fuel - 1, by omega⟩
    have hu := (chain_cons_iff.mp hc).2
    have hnext : next a = some u := (chain_cons_iff.mp hu).1
    rw [hnext] at hu
    cases hp : p u with
    | true =>
      refine ⟨[], a, u :: l, rfl, ?_, ?_, ?_⟩
      · rw [seek, hnext]
        exact if_pos hp
      · rintro i ⟨⟩
      · rintro i ⟨⟩
        exact hp
    | false =>
      obtain ⟨l₁, t, l₂, heq, hseek, hbefore, hafter⟩ :=
        ih hu (Nat.lt_of_succ_lt_succ hfuel)
      refine ⟨a :: l₁, t, l₂, by rw [heq]; rfl, ?_, ?_, hafter⟩
      · rw [seek, hnext]
        exact (if_neg (by rw [hp]; exact Bool.false_ne_true)).trans hseek
      · intro i hi
        change i ∈ l₁ ++ [t] at hi
        cases l₁ with
        | nil =>
          obtain ⟨rfl, -⟩ := List.cons_eq_cons.mp heq
          rwa [List.mem_singleton.mp hi]
        | cons b l₁ =>
          obtain ⟨rfl, -⟩ := List.cons_eq_cons.mp heq
          rcases List.mem_cons.mp hi with rfl | hi
          · exact hp
          · exact hbefore i hi

/-- Without a condition the loop ends at the last node. -/
theorem seek_last {fuel : ℕ} (hc : Chain next (some a) (a :: l)) (hfuel : l.length < fuel) :
    ∃ l₁ t, a :: l = l₁ ++ [t] ∧ seek next (fun _ => false) fuel a = some t := by
  obtain ⟨l₁, t, l₂, heq, hseek, -, hafter⟩ := seek_eq (fun _ => false) hc hfuel
  cases l₂ with
  | nil => exact ⟨l₁, t, heq, hseek⟩
  | cons b l₂ => exact absurd (hafter b rfl) Bool.false_ne_true

end Seek

section Search

/-- The loop that looks for a node that meets a condition. It finds the node and the one in front
of it, if any, or it finds none. -/
def search (next : ι → Option ι) (p : ι → Bool) :
    ℕ → Option ι → Option ι → Option (Option (Option ι × ι))
  | _, _, none => some none
  | 0, _, some _ => none
  | fuel + 1, prev, some t =>
    if p t then some (some (prev, t)) else search next p fuel (some t) (next t)

/-- The loop finds the first node that meets the condition. -/
theorem search_eq (p : ι → Bool) {fuel : ℕ} (hc : Chain next h l) (hfuel : l.length ≤ fuel)
    (prev : Option ι) :
    (∀ i ∈ l, p i = false) ∧ search next p fuel prev h = some none ∨
    ∃ l₁ t l₂, l = l₁ ++ t :: l₂ ∧ p t = true ∧ (∀ i ∈ l₁, p i = false) ∧
      search next p fuel prev h = some (some (l₁.getLast?.or prev, t)) := by
  induction l generalizing h fuel prev with
  | nil =>
    obtain rfl := chain_nil_iff.mp hc
    left
    refine ⟨?_, ?_⟩
    · rintro i ⟨⟩
    · cases fuel <;> rfl
  | cons a l ih =>
    obtain ⟨rfl, hl⟩ := chain_cons_iff.mp hc
    obtain ⟨fuel, rfl⟩ : ∃ k, fuel = k + 1 :=
      ⟨fuel - 1, by rw [List.length_cons] at hfuel; omega⟩
    cases hp : p a with
    | true =>
      right
      refine ⟨[], a, l, rfl, hp, ?_, ?_⟩
      · rintro i ⟨⟩
      · rw [search]
        exact if_pos hp
    | false =>
      have hstep : search next p (fuel + 1) prev (some a) =
          search next p fuel (some a) (next a) := by
        rw [search]
        exact if_neg (by rw [hp]; exact Bool.false_ne_true)
      rw [hstep]
      rcases ih hl (Nat.le_of_succ_le_succ hfuel) (some a) with
        ⟨hall, hs⟩ | ⟨l₁, t, l₂, rfl, ht, hbefore, hs⟩
      · left
        refine ⟨?_, hs⟩
        rintro i hi
        rcases List.mem_cons.mp hi with rfl | hi
        · exact hp
        · exact hall i hi
      · right
        refine ⟨a :: l₁, t, l₂, rfl, ht, ?_, ?_⟩
        · rintro i hi
          rcases List.mem_cons.mp hi with rfl | hi
          · exact hp
          · exact hbefore i hi
        · rw [hs]
          cases l₁ with
          | nil => rfl
          | cons b l₁ => simp [List.getLast?_cons]

/-- The loop ends, and what it finds is the first node that meets the condition. -/
theorem search_map (p : ι → Bool) {fuel : ℕ} (hc : Chain next h l) (hfuel : l.length ≤ fuel)
    (prev : Option ι) :
    (search next p fuel prev h).map (fun found => found.map Prod.snd) = some (l.find? p) := by
  rcases search_eq p hc hfuel prev with ⟨hall, hs⟩ | ⟨l₁, t, l₂, rfl, ht, hbefore, hs⟩
  · rw [hs, List.find?_eq_none.mpr fun i hi => by rw [hall i hi]; exact Bool.false_ne_true]
    rfl
  · rw [hs, List.find?_append, List.find?_cons_of_pos ht,
      List.find?_eq_none.mpr fun i hi => by rw [hbefore i hi]; exact Bool.false_ne_true]
    rfl

theorem search_find (p : ι → Bool) {fuel : ℕ} (hc : Chain next h l) (hfuel : l.length ≤ fuel)
    (prev : Option ι) :
    ((search next p fuel prev h).bind id).map Prod.snd = l.find? p := by
  have hmap := search_map p hc hfuel prev
  cases hs : search next p fuel prev h with
  | none =>
    rw [hs] at hmap
    cases hmap
  | some found =>
    rw [hs] at hmap
    exact Option.some.inj hmap

end Search

/-! ### Loops that read their nodes

A loop over a linked list reads each node it comes to, and has no result when a node cannot be read.
It stops at the first node that meets a condition.
-/

section Scan

variable {ι ν : Type*} {read : ι → Option ν} {next : ν → Option ι} {p : ι → ν → Bool}
  {val : ι → ν} {h : Option ι} {l : List ι}

/-- The loop: the node in front of where it stops, and the node at which it stops, if any. -/
def scan (read : ι → Option ν) (next : ν → Option ι) (p : ι → ν → Bool) :
    ℕ → Option ι → Option ι → Option (Option ι × Option ι)
  | _, prev, none => some (prev, none)
  | 0, _, some _ => none
  | fuel + 1, prev, some t =>
    (read t).bind fun v =>
      if p t v then some (prev, some t) else scan read next p fuel (some t) (next v)

/-- The loop stops at the first node that meets the condition, or at the end. -/
theorem scan_eq {fuel : ℕ} (hc : Chain (fun i => next (val i)) h l)
    (hread : ∀ i ∈ l, read i = some (val i)) (hfuel : l.length ≤ fuel) (prev : Option ι) :
    (∀ i ∈ l, p i (val i) = false) ∧
      scan read next p fuel prev h = some (l.getLast?.or prev, none) ∨
    ∃ l₁ t l₂, l = l₁ ++ t :: l₂ ∧ p t (val t) = true ∧ (∀ i ∈ l₁, p i (val i) = false) ∧
      scan read next p fuel prev h = some (l₁.getLast?.or prev, some t) := by
  induction l generalizing h fuel prev with
  | nil =>
    obtain rfl := chain_nil_iff.mp hc
    left
    refine ⟨nofun, ?_⟩
    cases fuel <;> rfl
  | cons a l ih =>
    obtain ⟨rfl, hl⟩ := chain_cons_iff.mp hc
    obtain ⟨fuel, rfl⟩ : ∃ k, fuel = k + 1 :=
      ⟨fuel - 1, by rw [List.length_cons] at hfuel; omega⟩
    have hstep : scan read next p (fuel + 1) prev (some a) =
        if p a (val a) then some (prev, some a)
        else scan read next p fuel (some a) (next (val a)) := by
      rw [scan, hread a List.mem_cons_self, Option.bind_some]
    rw [hstep]
    cases hp : p a (val a) with
    | true => exact .inr ⟨[], a, l, rfl, hp, nofun, rfl⟩
    | false =>
      rcases ih hl (fun i hi => hread i (List.mem_cons_of_mem a hi)) (Nat.le_of_succ_le_succ hfuel)
        (some a) with ⟨hall, hs⟩ | ⟨l₁, t, l₂, rfl, ht, hbefore, hs⟩
      · left
        refine ⟨?_, ?_⟩
        · rintro i hi
          rcases List.mem_cons.mp hi with rfl | hi
          · exact hp
          · exact hall i hi
        · rw [if_neg Bool.false_ne_true, hs]
          cases l with
          | nil => rfl
          | cons b l => simp [List.getLast?_cons]
      · right
        refine ⟨a :: l₁, t, l₂, rfl, ht, ?_, ?_⟩
        · rintro i hi
          rcases List.mem_cons.mp hi with rfl | hi
          · exact hp
          · exact hbefore i hi
        · rw [if_neg Bool.false_ne_true, hs]
          cases l₁ with
          | nil => rfl
          | cons b l₁ => simp [List.getLast?_cons]

/-- The loop stops at a given node, when it is the first to meet the condition; what is behind it is
not read. -/
theorem scan_append {l₁ l₂ : List ι} {t : ι} {fuel : ℕ}
    (hc : Chain (fun i => next (val i)) h (l₁ ++ t :: l₂))
    (hread : ∀ i ∈ l₁ ++ [t], read i = some (val i)) (ht : p t (val t) = true)
    (hfront : ∀ i ∈ l₁, p i (val i) = false) (hfuel : l₁.length < fuel) (prev : Option ι) :
    scan read next p fuel prev h = some (l₁.getLast?.or prev, some t) := by
  induction l₁ generalizing h fuel prev with
  | nil =>
    obtain ⟨fuel, rfl⟩ : ∃ k, fuel = k + 1 := ⟨fuel - 1, by omega⟩
    obtain ⟨rfl, -⟩ := chain_cons_iff.mp hc
    rw [scan, hread t (List.mem_singleton_self t), Option.bind_some, if_pos ht]
    rfl
  | cons a l₁ ih =>
    obtain ⟨fuel, rfl⟩ : ∃ k, fuel = k + 1 := ⟨fuel - 1, by omega⟩
    obtain ⟨rfl, hl⟩ := chain_cons_iff.mp hc
    have ha : ¬ p a (val a) = true := by
      rw [hfront a List.mem_cons_self]
      exact Bool.false_ne_true
    rw [scan, hread a List.mem_cons_self, Option.bind_some, if_neg ha,
      ih hl (fun i hi => hread i (List.mem_cons_of_mem a hi))
        (fun i hi => hfront i (List.mem_cons_of_mem a hi)) (Nat.lt_of_succ_lt_succ hfuel)]
    cases l₁ with
    | nil => rfl
    | cons b l₁ => simp [List.getLast?_cons]

end Scan

end Linked
