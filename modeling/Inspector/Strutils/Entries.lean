import Inspector.Strutils.Stristr
import Inspector.Words.Split
import Mathlib.Order.Bounds.Basic

/-! # Lists of entries in a string

`strnumentries`, `strgetentry` and `strlookup` of `strutils.c` scan a list for its delimiters in
three loops. All of them come upon the same entries. There is no result when a pointer is moved from
the end of the list on.
-/

namespace Inspector

namespace Strutils

open Words (parted_induction)

variable {d : Letter}

/-- `strchr`. -/
def strchr (s : Text) (d : Letter) : Option Text :=
  match s with
  | [] => none
  | c :: t => if c = d then some (c :: t) else strchr t d

theorem strchr_of_not_mem {s : Text} (h : d ∉ s) : strchr s d = none := by
  induction s with
  | nil => rfl
  | cons c t ih =>
    rw [List.mem_cons, not_or] at h
    rw [strchr, if_neg (Ne.symm h.1), ih h.2]

theorem strchr_parted {l : Text} (h : d ∉ l) (t : Text) :
    strchr (l ++ d :: t) d = some (d :: t) := by
  induction l with
  | nil => exact if_pos rfl
  | cons c l ih =>
    rw [List.mem_cons, not_or] at h
    rw [List.cons_append, strchr, if_neg (Ne.symm h.1), ih h.2]

theorem strchr_length {s e : Text} (h : strchr s d = some e) : e.length ≤ s.length := by
  induction s with
  | nil => cases h
  | cons c t ih =>
    rw [strchr] at h
    split_ifs at h with hc
    · rw [← Option.some.inj h]
    · exact (ih h).trans (Nat.le_succ _)

/-- The delimiters that the loop of `strnumentries` finds. -/
def countDelimiters (p : Text) (d : Letter) : Option ℕ :=
  match h : strchr p d with
  | none => some 0
  | some [] => none
  | some (_ :: t) => (countDelimiters t d).map (· + 1)
termination_by p.length
decreasing_by exact strchr_length h

/-- `strnumentries`. -/
def strnumentries (s : Option Text) (d : Letter) : Option ℕ :=
  match s with
  | none => some 0
  | some [] => some 0
  | some (c :: s) => (countDelimiters (c :: s) d).map (· + 1)

/-- The text that is copied from `p` up to `e`. -/
def copied (p : Text) : Option Text → Text
  | none => p
  | some e => p.take (p.length - e.length)

/-- The loop of `strgetentry`. -/
def getEntry (d : Letter) : ℕ → Text → Option Text → Option Text
  | 0, p, e => some (copied p e)
  | entry + 1, _, some (_ :: p) => getEntry d entry p (strchr p d)
  | _ + 1, _, _ => none

/-- `strgetentry`: the text in the buffer. -/
def strgetentry (s : Text) (entry : ℕ) (d : Letter) : Option Text :=
  if entry = 0 ∧ strchr s d = none then some s else getEntry d entry s (strchr s d)

/-- The loop of `strlookup`. -/
def lookup (s1 : Text) (d : Letter) : ℕ → Text → ℕ → Option ℤ
  | 0, _, _ => some (-1)
  | idx + 1, p, entry =>
    match strchr p d with
    | none => some (if p.length = s1.length ∧ p = s1 then entry else -1)
    | some [] => none
    | some (c :: t) =>
      let len := p.length - (c :: t).length
      if len = s1.length ∧ p.take len = s1.take len then some entry
      else lookup s1 d idx t (entry + 1)

/-- `strlookup`. -/
def strlookup (s1 s2 : Text) (d : Letter) : Option ℤ :=
  (strnumentries (some s2) d).bind fun idx => lookup s1 d idx s2 0

/-- The entries of a list; an empty string has none. -/
def entries (s : Text) (d : Letter) : List Text := if s = [] then [] else s.splitOn d

theorem countDelimiters_of_not_mem {s : Text} (h : d ∉ s) : countDelimiters s d = some 0 := by
  have hnone := strchr_of_not_mem h
  rw [countDelimiters]
  split
  · rfl
  all_goals
    rename_i heq
    cases hnone.symm.trans heq

theorem countDelimiters_parted {l : Text} (h : d ∉ l) (t : Text) :
    countDelimiters (l ++ d :: t) d = (countDelimiters t d).map (· + 1) := by
  have hsome := strchr_parted h t
  rw [countDelimiters]
  split
  all_goals
    rename_i heq
    cases hsome.symm.trans heq
  rfl

theorem countDelimiters_eq (s : Text) (d : Letter) :
    countDelimiters s d = some ((s.splitOn d).length - 1) := by
  induction s using parted_induction d with
  | last s h =>
    rw [countDelimiters_of_not_mem h, List.splitOn_eq_singleton h, List.length_singleton]
  | parted l t hl ih =>
    have hpos := List.length_pos_of_ne_nil (List.splitOn_ne_nil d t)
    rw [countDelimiters_parted hl, ih, Option.map_some, Nat.sub_add_cancel hpos,
      List.splitOn_append_cons_self_of_not_mem hl, List.length_cons, Nat.add_sub_cancel]

theorem strnumentries_eq (s : Text) (d : Letter) :
    strnumentries (some s) d = some (entries s d).length := by
  cases s with
  | nil => rfl
  | cons c s =>
    have hpos := List.length_pos_of_ne_nil (List.splitOn_ne_nil d (c :: s))
    rw [strnumentries, countDelimiters_eq, Option.map_some, entries,
      if_neg (List.cons_ne_nil c s), Nat.sub_add_cancel hpos]

theorem copied_strchr (s : Text) (d : Letter) :
    some (copied s (strchr s d)) = (s.splitOn d)[0]? := by
  induction s using parted_induction d with
  | last s h =>
    rw [strchr_of_not_mem h, List.splitOn_eq_singleton h, copied, List.getElem?_cons_zero]
  | parted l t hl ih =>
    rw [strchr_parted hl, List.splitOn_append_cons_self_of_not_mem hl, copied,
      List.getElem?_cons_zero, List.length_append, Nat.add_sub_cancel, List.take_left]

theorem getEntry_eq (s : Text) (d : Letter) {i : ℕ} (hi : i < (s.splitOn d).length) :
    getEntry d i s (strchr s d) = (s.splitOn d)[i]? := by
  induction s using parted_induction d generalizing i with
  | last s h =>
    rw [List.splitOn_eq_singleton h, List.length_singleton, Nat.lt_one_iff] at hi
    rw [hi, getEntry, copied_strchr]
  | parted l t hl ih =>
    cases i with
    | zero => rw [getEntry, copied_strchr]
    | succ i =>
      rw [List.splitOn_append_cons_self_of_not_mem hl, List.length_cons,
        Nat.add_lt_add_iff_right] at hi
      rw [strchr_parted hl, getEntry, ih hi, List.splitOn_append_cons_self_of_not_mem hl,
        List.getElem?_cons_succ]

theorem strgetentry_eq (s : Text) (d : Letter) {i : ℕ} (hi : i < (entries s d).length) :
    strgetentry s i d = (entries s d)[i]? := by
  have hs : s ≠ [] := by
    rintro rfl
    exact absurd hi (Nat.not_lt_zero i)
  rw [entries, if_neg hs] at hi ⊢
  rw [← getEntry_eq s d hi, strgetentry]
  split_ifs with h
  · rw [h.1, h.2, getEntry, copied]
  · rfl

/-- What `strlookup` gives for the position of a text. -/
def lookedUp (entry : ℕ) (i : Option ℕ) : ℤ := i.elim (-1) fun i => ((entry + i : ℕ) : ℤ)

theorem lookup_eq (s1 p : Text) (d : Letter) (entry : ℕ) :
    lookup s1 d (p.splitOn d).length p entry =
      some (lookedUp entry ((p.splitOn d).idxOf? s1)) := by
  induction p using parted_induction d generalizing entry with
  | last p h =>
    rw [List.splitOn_eq_singleton h, List.length_singleton, lookup, strchr_of_not_mem h,
      List.idxOf?_singleton]
    by_cases heq : p = s1
    · rw [if_pos (by rw [heq]; exact ⟨rfl, rfl⟩), if_pos (beq_iff_eq.mpr heq)]
      rfl
    · rw [if_neg (fun h => heq h.2), if_neg (fun h => heq (beq_iff_eq.mp h))]
      rfl
  | parted l t hl ih =>
    have hlen : (l ++ d :: t).length - (d :: t).length = l.length := by
      rw [List.length_append, Nat.add_sub_cancel]
    have hequal : l.length = s1.length ∧ l = s1.take l.length ↔ l = s1 := by
      constructor
      · rintro ⟨hlength, htake⟩
        rw [htake, hlength, List.take_length]
      · rintro rfl
        exact ⟨rfl, List.take_length.symm⟩
    rw [List.splitOn_append_cons_self_of_not_mem hl, List.length_cons, lookup, strchr_parted hl,
      List.idxOf?_cons]
    simp only [hlen, List.take_left, hequal]
    by_cases heq : l = s1
    · rw [if_pos heq, if_pos (beq_iff_eq.mpr heq)]
      rfl
    · rw [if_neg heq, if_neg (fun h => heq (beq_iff_eq.mp h)), ih]
      cases (t.splitOn d).idxOf? s1 with
      | none => rfl
      | some i =>
        simp only [lookedUp, Option.map_some, Option.elim_some, Nat.add_assoc, Nat.add_comm 1 i]

theorem strlookup_eq (s1 s2 : Text) (d : Letter) :
    strlookup s1 s2 d = some (lookedUp 0 ((entries s2 d).idxOf? s1)) := by
  rw [strlookup, strnumentries_eq, Option.bind_some, entries]
  split_ifs with hs
  · rfl
  · exact lookup_eq s1 s2 d 0

/-- The first position of an entry. -/
theorem isLeast_of_idxOf? {es : List Text} {t : Text} {i : ℕ} (h : es.idxOf? t = some i) :
    IsLeast {j | es[j]? = some t} i := by
  obtain ⟨hi, hget, hbefore⟩ := List.idxOf?_eq_some_iff.mp h
  refine ⟨List.getElem?_eq_some_iff.mpr ⟨hi, hget⟩, fun j hj => ?_⟩
  obtain ⟨hj, hget'⟩ := List.getElem?_eq_some_iff.mp hj
  by_contra hlt
  exact hbefore j (not_le.mp hlt) hget'

/-- A text that is looked up is at its first position, or is no entry. -/
theorem strlookup_cases (s1 s2 : Text) (d : Letter) :
    (strlookup s1 s2 d = some (-1) ∧ s1 ∉ entries s2 d) ∨
      ∃ i : ℕ, strlookup s1 s2 d = some (i : ℤ) ∧
        IsLeast {j | (entries s2 d)[j]? = some s1} i := by
  rw [strlookup_eq]
  cases h : (entries s2 d).idxOf? s1 with
  | none => exact .inl ⟨rfl, List.idxOf?_eq_none_iff.mp h⟩
  | some i =>
    refine .inr ⟨i, ?_, isLeast_of_idxOf? h⟩
    rw [lookedUp, Option.elim_some, Nat.zero_add]

/-- The functions agree on the entries of a list. -/
structure LooksUp (s2 : Text) (d : Letter) : Prop where
  getentry : ∀ i < (entries s2 d).length, strgetentry s2 i d = (entries s2 d)[i]?
  lookup : ∀ s1, ∃ r, strlookup s1 s2 d = some r ∧ (r = -1 ↔ s1 ∉ entries s2 d) ∧
    ∀ i : ℕ, r = i ↔ IsLeast {j | (entries s2 d)[j]? = some s1} i
  lookup_getentry : ∀ i < (entries s2 d).length, ∃ t, strgetentry s2 i d = some t ∧
    ∃ j : ℕ, strlookup t s2 d = some (j : ℤ) ∧ IsLeast {j | (entries s2 d)[j]? = some t} j

theorem looksUp (s2 : Text) (d : Letter) : LooksUp s2 d := by
  refine ⟨fun i hi => strgetentry_eq s2 d hi, fun s1 => ?_, fun i hi => ?_⟩
  · rcases strlookup_cases s1 s2 d with ⟨hlookup, hnot⟩ | ⟨i, hlookup, hleast⟩
    · refine ⟨-1, hlookup, ⟨fun _ => hnot, fun _ => rfl⟩, fun j => ?_⟩
      constructor
      · intro hj
        omega
      · intro hleast
        exact absurd (List.mem_of_getElem? hleast.1) hnot
    · refine ⟨i, hlookup, ⟨fun hi => by omega, fun hnot => ?_⟩, fun j => ?_⟩
      · exact absurd (List.mem_of_getElem? hleast.1) hnot
      · constructor
        · intro hij
          rwa [← Int.ofNat_inj.mp hij]
        · intro hleast'
          exact congrArg Nat.cast (hleast.unique hleast')
  · have hget : (entries s2 d)[i]? = some (entries s2 d)[i] := List.getElem?_eq_getElem hi
    refine ⟨(entries s2 d)[i], (strgetentry_eq s2 d hi).trans hget, ?_⟩
    rcases strlookup_cases (entries s2 d)[i] s2 d with ⟨-, hnot⟩ | hfound
    · exact absurd (List.getElem_mem hi) hnot
    · exact hfound

end Strutils

end Inspector
