import Inspector.NutsBolts.Numerals

/-! # Spelling of numerals

What a numeral looks like: a sign or none, digits, and at most one point among them. The numeral at
the beginning of a text is the longest part of it of that form.
-/

namespace Inspector

open Json

/-- The characters of a numeral: its sign, its digits in front of the point, the point, and the
digits behind it. -/
structure Spelling where
  sign : Bytes
  whole : Bytes
  point : Bytes
  fraction : Bytes

namespace Spelling

variable (p : Spelling)

def text : Bytes := p.sign ++ (p.whole ++ (p.point ++ p.fraction))

/-- A sign or none, at least one digit, and no digits behind the point without it. -/
structure IsNumeral : Prop where
  sign : p.sign = [] ∨ p.sign = [0x2B] ∨ p.sign = [0x2D]
  whole : ∀ b ∈ p.whole, isDigit b = true
  point : p.point = [] ∧ p.fraction = [] ∨ p.point = [0x2E]
  fraction : ∀ b ∈ p.fraction, isDigit b = true
  digits : p.whole ≠ [] ∨ p.fraction ≠ []

/-- The numeral that is spelled. -/
def toNumeral : Numeral :=
  ⟨p.sign = [0x2D], p.whole.map digitValue, p.fraction.map digitValue⟩

end Spelling

/-- The characters `s` spell the numeral `n`. -/
def Numeral.Spells (n : Numeral) (s : Bytes) : Prop :=
  ∃ p : Spelling, p.IsNumeral ∧ p.toNumeral = n ∧ p.text = s

/-- The numeral `n` stands at the beginning of a text, which goes on with `rest`. -/
structure Numeral.Leads (n : Numeral) (text s rest : Bytes) : Prop where
  spelling : n.Spells s
  text_eq : text = s ++ rest
  longest : ∀ n' : Numeral, ∀ s', n'.Spells s' → s' <+: text → s'.length ≤ s.length

section Forms

variable {text rest t s : Bytes} {n n' : Numeral} {p : Spelling}

/-- Digits that are followed by no digit. -/
theorem takeWhile_digits {digits r : Bytes} (hdigits : ∀ b ∈ digits, isDigit b = true)
    (hr : ∀ b ∈ r.head?, isDigit b = false) :
    (digits ++ r).takeWhile isDigit = digits ∧ (digits ++ r).dropWhile isDigit = r := by
  have hstop : r.takeWhile isDigit = [] ∧ r.dropWhile isDigit = r := by
    cases r with
    | nil => exact ⟨rfl, rfl⟩
    | cons b l =>
      have hb : ¬isDigit b = true := by
        rw [hr b rfl]
        exact Bool.false_ne_true
      exact ⟨List.takeWhile_cons_of_neg hb, List.dropWhile_cons_of_neg hb⟩
  rw [List.takeWhile_append_of_pos hdigits, List.dropWhile_append_of_pos hdigits, hstop.1, hstop.2,
    List.append_nil]
  exact ⟨rfl, rfl⟩

/-- A numeral begins with a digit or a point behind its sign. -/
theorem sign_text (h : p.IsNumeral) (t : Bytes) :
    sign (p.text ++ t) = (p.toNumeral.negative, p.whole ++ (p.point ++ (p.fraction ++ t))) := by
  obtain ⟨b, l, hb, hl⟩ : ∃ b l, (isDigit b = true ∨ b = 0x2E) ∧
      p.whole ++ (p.point ++ (p.fraction ++ t)) = b :: l := by
    cases hwhole : p.whole with
    | cons b l =>
      exact ⟨b, _, .inl (h.whole b (by rw [hwhole]; exact List.mem_cons_self)), rfl⟩
    | nil =>
      rcases h.point with ⟨-, hfraction⟩ | hpoint
      · exact absurd hfraction (h.digits.resolve_left (not_not.mpr hwhole))
      · exact ⟨0x2E, _, .inr rfl, by rw [hpoint]; rfl⟩
  have htext : p.text ++ t = p.sign ++ (b :: l) := by
    rw [← hl, Spelling.text]
    simp only [List.append_assoc]
  rw [htext, hl, Spelling.toNumeral]
  rcases h.sign with hsign | hsign | hsign
  · rw [hsign, List.nil_append]
    rcases hb with hb | rfl
    · exact sign_of_digit hb l
    · rfl
  · rw [hsign]
    rfl
  · rw [hsign]
    rfl

/-- The characters of a numeral are read as that numeral. -/
theorem numeral_text (h : p.IsNumeral) : numeral p.text = some (p.toNumeral, []) := by
  have hsign := sign_text h []
  rw [List.append_nil, List.append_nil] at hsign
  have hfraction : p.fraction.takeWhile isDigit = p.fraction ∧
      p.fraction.dropWhile isDigit = [] := by
    have hall := takeWhile_digits (r := []) h.fraction (fun b hb => by cases hb)
    rwa [List.append_nil] at hall
  have hne : ¬(p.whole.map digitValue = [] ∧ p.fraction = []) := by
    rw [List.map_eq_nil_iff, not_and_or]
    exact h.digits
  rw [numeral, hsign]
  simp only
  rcases h.point with ⟨hpoint, hnil⟩ | hpoint
  · have hwhole := takeWhile_digits (r := []) h.whole (fun b hb => by cases hb)
    rw [hnil] at hne
    have hfractionOf : fractionOf [] = ([], []) := rfl
    rw [hpoint, hnil, List.append_nil, hwhole.1, hwhole.2, hfractionOf, if_neg hne,
      Spelling.toNumeral, hnil]
  · have hwhole := takeWhile_digits (r := 0x2E :: p.fraction) h.whole
      (fun b hb => by cases hb; rfl)
    rw [hpoint, List.singleton_append, hwhole.1, hwhole.2, fractionOf, List.head?_cons, if_pos rfl,
      List.tail_cons, hfraction.1, hfraction.2, if_neg hne]
    rfl

theorem Numeral.Spells.eq (h : n.Spells s) (h' : n'.Spells s) : n = n' := by
  obtain ⟨p, hp, rfl, rfl⟩ := h
  obtain ⟨p', hp', rfl, htext⟩ := h'
  have hnumeral := numeral_text hp'
  rw [htext, numeral_text hp] at hnumeral
  exact (Prod.mk.inj (Option.some.inj hnumeral)).1

/-- What is read of a text is spelled there. -/
theorem spells_of_numeral (h : numeral text = some (n, rest)) :
    ∃ s, n.Spells s ∧ text = s ++ rest := by
  obtain ⟨sgn, hsgn, hneg, htext⟩ : ∃ sgn : Bytes,
      (sgn = [] ∨ sgn = [0x2B] ∨ sgn = [0x2D]) ∧ decide (sgn = [0x2D]) = (sign text).1 ∧
        text = sgn ++ (sign text).2 := by
    rw [sign.eq_def]
    split
    · exact ⟨[0x2D], .inr (.inr rfl), rfl, rfl⟩
    · exact ⟨[0x2B], .inr (.inl rfl), rfl, rfl⟩
    · exact ⟨[], .inl rfl, rfl, rfl⟩
  rw [numeral] at h
  simp only at h
  split_ifs at h with hnone
  obtain ⟨rfl, rfl⟩ := Prod.mk.inj (Option.some.inj h)
  have hdigits : ∀ l : Bytes, ∀ b ∈ l.takeWhile isDigit, isDigit b = true :=
    fun l b hb => List.mem_takeWhile_imp hb
  rw [List.map_eq_nil_iff, not_and_or] at hnone
  have hsplit := List.takeWhile_append_dropWhile (p := isDigit) (l := (sign text).2)
  rw [fractionOf] at hnone ⊢
  split_ifs at hnone ⊢ with hpoint
  · obtain ⟨tail, htail⟩ : ∃ tail, (sign text).2.dropWhile isDigit = 0x2E :: tail :=
      List.head?_eq_some_iff.mp hpoint
    rw [htail, List.tail_cons] at hnone ⊢
    refine ⟨_, ⟨⟨sgn, _, [0x2E], _⟩, ⟨hsgn, hdigits (sign text).2, .inr rfl, hdigits tail, hnone⟩,
      by rw [Spelling.toNumeral, hneg], rfl⟩, ?_⟩
    have htails := List.takeWhile_append_dropWhile (p := isDigit) (l := tail)
    conv_lhs => rw [htext, ← hsplit, htail, ← htails]
    simp [Spelling.text]
  · refine ⟨_, ⟨⟨sgn, _, [], []⟩, ⟨hsgn, hdigits (sign text).2, .inl ⟨rfl, rfl⟩,
      fun b hb => (List.not_mem_nil hb).elim, hnone⟩, by rw [Spelling.toNumeral, hneg], rfl⟩, ?_⟩
    conv_lhs => rw [htext, ← hsplit]
    simp [Spelling.text]

/-- A numeral that a text begins with is read, perhaps with more characters. -/
theorem exists_numeral (h : n.Spells s) (t : Bytes) :
    ∃ n' rest, numeral (s ++ t) = some (n', rest) ∧ rest.length ≤ t.length := by
  obtain ⟨p, hp, rfl, rfl⟩ := h
  rw [numeral, sign_text hp t]
  simp only
  have hdrop : ∀ l : Bytes, (l.dropWhile isDigit).length ≤ l.length :=
    fun l => List.length_dropWhile_le _ _
  rcases hp.point with ⟨hpoint, hnil⟩ | hpoint
  · rw [hpoint, hnil, List.nil_append, List.nil_append, List.takeWhile_append_of_pos hp.whole,
      List.dropWhile_append_of_pos hp.whole]
    have hne : p.whole ≠ [] := hp.digits.resolve_right (not_not.mpr hnil)
    rw [if_neg (by simp [hne])]
    refine ⟨_, _, rfl, ?_⟩
    rw [fractionOf]
    split_ifs
    · have htail := hdrop (t.dropWhile isDigit).tail
      rw [List.length_tail] at htail
      have hle := hdrop t
      simp only
      omega
    · exact hdrop t
  · have hwhole := takeWhile_digits (r := 0x2E :: (p.fraction ++ t)) hp.whole
      (fun b hb => by cases hb; rfl)
    rw [hpoint, List.singleton_append, hwhole.1, hwhole.2, fractionOf, List.head?_cons, if_pos rfl,
      List.tail_cons, List.takeWhile_append_of_pos hp.fraction,
      List.dropWhile_append_of_pos hp.fraction]
    rw [if_neg]
    · exact ⟨_, _, rfl, hdrop t⟩
    · rintro ⟨hw, hf⟩
      rw [List.map_eq_nil_iff] at hw
      rcases hp.digits with hne | hne
      · exact hne hw
      · exact hne (List.append_eq_nil_iff.mp hf).1

/-- The numeral at the beginning of a text is the one that is read. -/
theorem numeral_eq_some_iff : numeral text = some (n, rest) ↔ ∃ s, n.Leads text s rest := by
  constructor
  · intro h
    obtain ⟨s, hs, htext⟩ := spells_of_numeral h
    refine ⟨s, hs, htext, ?_⟩
    rintro n' s' hs' ⟨t, ht⟩
    obtain ⟨n'', rest', hnumeral, hle⟩ := exists_numeral hs' t
    rw [ht, h] at hnumeral
    obtain ⟨-, rfl⟩ := Prod.mk.inj (Option.some.inj hnumeral)
    have hlen := congrArg List.length (ht.trans htext)
    rw [List.length_append, List.length_append] at hlen
    omega
  · rintro ⟨s, hs, rfl, hlongest⟩
    obtain ⟨n', rest', hnumeral, hle⟩ := exists_numeral hs rest
    obtain ⟨s', hs', htext⟩ := spells_of_numeral hnumeral
    have hlen' := hlongest n' s' hs' ⟨rest', htext.symm⟩
    have hlen := congrArg List.length htext
    rw [List.length_append, List.length_append] at hlen
    obtain ⟨rfl, rfl⟩ := List.append_inj htext (by omega)
    rw [hnumeral, hs.eq hs']

theorem numeral_eq_none_iff :
    numeral text = none ↔ ∀ n : Numeral, ∀ s, n.Spells s → ¬s <+: text := by
  constructor
  · rintro h n s hs ⟨t, rfl⟩
    obtain ⟨n', rest, hnumeral, -⟩ := exists_numeral hs t
    rw [h] at hnumeral
    cases hnumeral
  · intro h
    cases hnumeral : numeral text with
    | none => rfl
    | some r =>
      obtain ⟨s, hs, htext⟩ := spells_of_numeral (n := r.1) hnumeral
      exact absurd ⟨r.2, htext.symm⟩ (h r.1 s hs)

end Forms

end Inspector
