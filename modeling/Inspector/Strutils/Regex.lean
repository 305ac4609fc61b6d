import Inspector.Strutils.Stristr
import Mathlib.Computability.Language

/-! # The matcher of regular expressions

`matchhere` of `regex.c` tries an expression at the beginning of a text, and `matchstar` tries what
follows a starred character behind each run of this character, shortest first. A text matches if a
word of the language of the expression stands in it, at the beginning after a `^` and at the end
before a `$`. The help on a topic is found by `matchhere`.
-/

namespace Inspector

namespace Strutils

namespace Regex

abbrev star : UInt8 := 42
abbrev dot : UInt8 := 46
abbrev caret : UInt8 := 94
abbrev dollar : UInt8 := 36

/-- The comparison of a character of the expression with one of the text. -/
def fits (c d : Letter) : Bool := c.val = dot || c = d

/-- `matchstar`, with what is tried behind the run. -/
def matchstar (c : Letter) (tryRest : Text → Bool) : Text → Bool
  | [] => tryRest []
  | d :: text => tryRest (d :: text) || fits c d && matchstar c tryRest text

/-- The last test of `matchhere`. -/
def matchone (c : Letter) (tryRest : Text → Bool) : Text → Bool
  | [] => false
  | d :: text => fits c d && tryRest text

/-- `matchhere`. -/
def matchhere : Text → Text → Bool
  | [], _ => true
  | [c], text => if c.val = dollar then text.isEmpty else matchone c (matchhere []) text
  | c :: s :: regexp, text =>
    if s.val = star then matchstar c (matchhere regexp) text
    else matchone c (matchhere (s :: regexp)) text

/-- The loop of `match`. -/
def anywhere (regexp : Text) : Text → Bool
  | [] => matchhere regexp []
  | d :: text => matchhere regexp (d :: text) || anywhere regexp text

/-- `match`. -/
def isMatch : Text → Text → Bool
  | [], text => anywhere [] text
  | c :: regexp, text =>
    if c.val = caret then matchhere regexp text else anywhere (c :: regexp) text

/-! ### The language of an expression -/

/-- A part of an expression: a character, or a starred one. -/
inductive Piece
  | one (c : Letter)
  | many (c : Letter)

/-- An expression behind its `^`: its parts, and whether it ends with a `$`. -/
structure Pattern where
  pieces : List Piece
  atEnd : Bool

def Pattern.cons (p : Piece) (r : Pattern) : Pattern := ⟨p :: r.pieces, r.atEnd⟩

/-- How an expression is read. -/
def pattern : Text → Pattern
  | [] => ⟨[], false⟩
  | [c] => if c.val = dollar then ⟨[], true⟩ else ⟨[.one c], false⟩
  | c :: s :: regexp =>
    if s.val = star then (pattern regexp).cons (.many c) else (pattern (s :: regexp)).cons (.one c)

/-- The texts of one character that a character stands for. -/
def letters (c : Letter) : Language Letter := {x | ∃ d, x = [d] ∧ fits c d = true}

open scoped Computability in
def Piece.language : Piece → Language Letter
  | one c => letters c
  | many c => (letters c)∗

/-- The words of an expression. -/
def Pattern.language (r : Pattern) : Language Letter := (r.pieces.map Piece.language).prod

/-- A word of the expression stands at the beginning of a text. -/
def Pattern.Begins (r : Pattern) (text : Text) : Prop :=
  ∃ word ∈ r.language, ∃ rest, text = word ++ rest ∧ (r.atEnd = true → rest = [])

variable {c : Letter} {regexp text : Text} {r : Pattern}

open scoped Computability in
theorem mem_star_letters_iff : text ∈ (letters c)∗ ↔ ∀ d ∈ text, fits c d = true := by
  rw [Language.mem_kstar]
  constructor
  · rintro ⟨words, rfl, hwords⟩ d hd
    obtain ⟨word, hword, hd⟩ := List.mem_flatten.mp hd
    obtain ⟨e, rfl, he⟩ := hwords word hword
    rwa [List.mem_singleton.mp hd]
  · intro h
    refine ⟨text.map fun d => [d], (List.flatMap_singleton' text).symm, fun word hword => ?_⟩
    obtain ⟨d, hd, rfl⟩ := List.mem_map.mp hword
    exact ⟨d, rfl, h d hd⟩

theorem begins_nil (atEnd : Bool) :
    Pattern.Begins ⟨[], atEnd⟩ text ↔ (atEnd = true → text = []) := by
  constructor
  · rintro ⟨word, hword, rest, rfl, hrest⟩
    obtain rfl : word = [] := hword
    exact hrest
  · intro h
    exact ⟨[], rfl, text, rfl, h⟩

theorem begins_cons (p : Piece) :
    (r.cons p).Begins text ↔ ∃ word ∈ p.language, ∃ rest, text = word ++ rest ∧ r.Begins rest := by
  constructor
  · rintro ⟨word, hword, rest, rfl, hrest⟩
    obtain ⟨a, ha, b, hb, rfl⟩ := Language.mem_mul.mp hword
    exact ⟨a, ha, b ++ rest, List.append_assoc _ _ _, b, hb, rest, rfl, hrest⟩
  · rintro ⟨a, ha, _, rfl, b, hb, rest, rfl, hrest⟩
    exact ⟨a ++ b, Language.append_mem_mul ha hb, rest, (List.append_assoc _ _ _).symm, hrest⟩

theorem matchone_iff {tryRest : Text → Bool} (h : ∀ text, tryRest text = true ↔ r.Begins text) :
    matchone c tryRest text = true ↔ (r.cons (.one c)).Begins text := by
  rw [begins_cons]
  constructor
  · intro hmatch
    cases text with
    | nil => cases hmatch
    | cons d text =>
      obtain ⟨hfits, hrest⟩ := Bool.and_eq_true_iff.mp hmatch
      exact ⟨[d], ⟨d, rfl, hfits⟩, text, rfl, (h text).mp hrest⟩
  · rintro ⟨_, ⟨d, rfl, hfits⟩, rest, rfl, hrest⟩
    exact Bool.and_eq_true_iff.mpr ⟨hfits, (h rest).mpr hrest⟩

/-- The runs of a starred character are tried until what follows matches behind one. -/
theorem matchstar_iff {tryRest : Text → Bool} (h : ∀ text, tryRest text = true ↔ r.Begins text) :
    matchstar c tryRest text = true ↔ (r.cons (.many c)).Begins text := by
  rw [begins_cons]
  simp only [Piece.language, mem_star_letters_iff]
  induction text with
  | nil =>
    rw [matchstar, h]
    constructor
    · intro hrest
      exact ⟨[], by simp, [], rfl, hrest⟩
    · rintro ⟨word, -, rest, htext, hrest⟩
      obtain ⟨-, rfl⟩ := List.append_eq_nil_iff.mp htext.symm
      exact hrest
  | cons d text ih =>
    rw [matchstar, Bool.or_eq_true, Bool.and_eq_true, h, ih]
    constructor
    · rintro (hrest | ⟨hfits, word, hword, rest, rfl, hrest⟩)
      · exact ⟨[], by simp, d :: text, rfl, hrest⟩
      · exact ⟨d :: word, List.forall_mem_cons.mpr ⟨hfits, hword⟩, rest, rfl, hrest⟩
    · rintro ⟨word, hword, rest, htext, hrest⟩
      cases word with
      | nil => exact .inl (by rwa [htext])
      | cons e word =>
        obtain ⟨rfl, rfl⟩ := List.cons.inj htext
        obtain ⟨hfits, hword⟩ := List.forall_mem_cons.mp hword
        exact .inr ⟨hfits, word, hword, rest, rfl, hrest⟩

/-- `matchhere` finds out whether a word of the expression begins a text. -/
theorem matchhere_iff (regexp text : Text) :
    matchhere regexp text = true ↔ (pattern regexp).Begins text := by
  induction regexp using pattern.induct generalizing text with
  | case1 => simp [matchhere, pattern, begins_nil]
  | case2 c hc => simp [matchhere, pattern, hc, begins_nil]
  | case3 c hc =>
    rw [matchhere, if_neg hc, pattern, if_neg hc]
    exact matchone_iff (r := ⟨[], false⟩) fun text => by simp [matchhere, begins_nil]
  | case4 c s regexp hs ih =>
    rw [matchhere, if_pos hs, pattern, if_pos hs]
    exact matchstar_iff ih
  | case5 c s regexp hs ih =>
    rw [matchhere, if_neg hs, pattern, if_neg hs]
    exact matchone_iff ih

theorem anywhere_iff (regexp text : Text) :
    anywhere regexp text = true ↔ ∃ before rest, text = before ++ rest ∧ (pattern regexp).Begins rest := by
  induction text with
  | nil =>
    rw [anywhere, matchhere_iff]
    constructor
    · intro h
      exact ⟨[], [], rfl, h⟩
    · rintro ⟨before, rest, htext, h⟩
      obtain ⟨-, rfl⟩ := List.append_eq_nil_iff.mp htext.symm
      exact h
  | cons d text ih =>
    rw [anywhere, Bool.or_eq_true, matchhere_iff, ih]
    constructor
    · rintro (h | ⟨before, rest, rfl, h⟩)
      · exact ⟨[], d :: text, rfl, h⟩
      · exact ⟨d :: before, rest, rfl, h⟩
    · rintro ⟨before, rest, htext, h⟩
      cases before with
      | nil => exact .inl (by rwa [htext])
      | cons e before =>
        obtain ⟨rfl, rfl⟩ := List.cons.inj htext
        exact .inr ⟨before, rest, rfl, h⟩

/-- An expression begins with a `^`. -/
def AtStart (regexp : Text) : Prop := char regexp = caret

instance (regexp : Text) : Decidable (AtStart regexp) := inferInstanceAs (Decidable (_ = _))

/-- An expression without its `^`. -/
def body (regexp : Text) : Text := if AtStart regexp then regexp.tail else regexp

theorem isMatch_of_atStart (h : AtStart regexp) (text : Text) :
    isMatch regexp text = matchhere (body regexp) text := by
  cases regexp with
  | nil => cases h
  | cons c regexp =>
    have hc : c.val = caret := h
    rw [isMatch, if_pos hc, body, if_pos h, List.tail_cons]

theorem isMatch_of_not_atStart (h : ¬AtStart regexp) (text : Text) :
    isMatch regexp text = anywhere (body regexp) text := by
  rw [body, if_neg h]
  cases regexp with
  | nil => rfl
  | cons c regexp =>
    have hc : c.val ≠ caret := h
    rw [isMatch, if_neg hc]

/-- `matchhere` finds out whether a word of an expression begins a text, and `match` whether one
stands in it, at its beginning if the expression begins with a `^`. The word reaches to the end of
the text if the expression ends with a `$`. -/
theorem matches_language (regexp text : Text) :
    (matchhere regexp text = true ↔ (pattern regexp).Begins text) ∧
      (isMatch regexp text = true ↔ ∃ before rest, text = before ++ rest ∧
        (AtStart regexp → before = []) ∧ (pattern (body regexp)).Begins rest) := by
  constructor
  · exact matchhere_iff regexp text
  by_cases hstart : AtStart regexp
  · rw [isMatch_of_atStart hstart, matchhere_iff]
    constructor
    · intro h
      exact ⟨[], text, rfl, fun _ => rfl, h⟩
    · rintro ⟨before, rest, rfl, hbefore, h⟩
      rwa [hbefore hstart]
  · rw [isMatch_of_not_atStart hstart, anywhere_iff]
    simp only [hstart, false_implies, true_and]

end Regex

end Strutils

end Inspector
