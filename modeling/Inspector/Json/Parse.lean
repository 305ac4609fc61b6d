import Mathlib.Data.Nat.Digits.Lemmas

/-! # Reading JSON

Values are strings, integers, objects and arrays; a text is a list of bytes. The reader takes white
space between tokens, the escapes of a single character, and no control characters in strings. A
text is read with fuel, of which its length is enough.
-/

namespace Json

abbrev Bytes := List UInt8

inductive Value
  | string (s : Bytes)
  | int (n : ℤ)
  | object (members : List (Bytes × Value))
  | array (elements : List Value)

/-- The byte that is meant by the letter of an escape. -/
def unescape : UInt8 → Option UInt8
  | 0x22 => some 0x22
  | 0x5C => some 0x5C
  | 0x2F => some 0x2F
  | 0x62 => some 0x08
  | 0x66 => some 0x0C
  | 0x6E => some 0x0A
  | 0x72 => some 0x0D
  | 0x74 => some 0x09
  | _ => none

/-- The rest of a string, behind its opening quote. -/
def parseChars : Bytes → Option (Bytes × Bytes)
  | [] => none
  | b :: text =>
    if b = 0x22 then some ([], text)
    else if b < 0x20 then none
    else if b = 0x5C then
      match text with
      | [] => none
      | c :: text => (unescape c).bind fun b => (parseChars text).map fun p => (b :: p.1, p.2)
    else (parseChars text).map fun p => (b :: p.1, p.2)

def isSpace (b : UInt8) : Bool := b = 0x20 ∨ b = 0x09 ∨ b = 0x0A ∨ b = 0x0D

def skipSpace (text : Bytes) : Bytes := text.dropWhile isSpace

def isDigit (b : UInt8) : Bool := 0x30 ≤ b ∧ b ≤ 0x39

def digit (d : ℕ) : UInt8 := 0x30 + UInt8.ofNat d

/-- A number without a leading zero. -/
def parseNat (text : Bytes) : Option (ℕ × Bytes) :=
  let digits := text.takeWhile isDigit
  if digits = [] ∨ (digits.head? = some 0x30 ∧ digits ≠ [0x30]) then none
  else some (Nat.ofDigits 10 (digits.reverse.map fun b => b.toNat - 0x30),
    text.dropWhile isDigit)

def parseInt (text : Bytes) : Option (ℤ × Bytes) :=
  match text with
  | 0x2D :: text => (parseNat text).map fun p => (-(p.1 : ℤ), p.2)
  | text => (parseNat text).map fun p => ((p.1 : ℤ), p.2)

section Items

variable {α : Type*} (item : Bytes → Option (α × Bytes)) (close : UInt8)

/-- What follows an item: a comma and more items, or the closing byte. -/
def parseRest (next : Bytes → Option (List α × Bytes)) (a : α) (text : Bytes) :
    Option (List α × Bytes) :=
  match skipSpace text with
  | [] => none
  | b :: text =>
    if b = 0x2C then (next text).map fun p => (a :: p.1, p.2)
    else if b = close then some ([a], text)
    else none

/-- Items separated by commas, up to a closing byte. -/
def parseItems : ℕ → Bytes → Option (List α × Bytes)
  | 0, _ => none
  | n + 1, text => (item text).bind fun p => parseRest close (parseItems n) p.1 p.2

/-- A list of items, which may be empty. -/
def parseList (n : ℕ) (text : Bytes) : Option (List α × Bytes) :=
  match skipSpace text with
  | [] => none
  | b :: text => if b = close then some ([], text) else parseItems item close n (b :: text)

end Items

/-- A member of an object. -/
def parseMember (value : Bytes → Option (Value × Bytes)) (text : Bytes) :
    Option ((Bytes × Value) × Bytes) :=
  match skipSpace text with
  | 0x22 :: text =>
    (parseChars text).bind fun p =>
      match skipSpace p.2 with
      | 0x3A :: text => (value text).map fun q => ((p.1, q.1), q.2)
      | _ => none
  | _ => none

def parseValue : ℕ → Bytes → Option (Value × Bytes)
  | 0, _ => none
  | n + 1, text =>
    match skipSpace text with
    | 0x22 :: text => (parseChars text).map fun p => (.string p.1, p.2)
    | 0x7B :: text =>
      (parseList (parseMember (parseValue n)) 0x7D n text).map fun p => (.object p.1, p.2)
    | 0x5B :: text => (parseList (parseValue n) 0x5D n text).map fun p => (.array p.1, p.2)
    | text => (parseInt text).map fun p => (.int p.1, p.2)

/-- The value that a whole text stands for. -/
def parse (text : Bytes) : Option Value :=
  (parseValue (text.length + 1) text).bind fun p =>
    if skipSpace p.2 = [] then some p.1 else none

/-- A byte that stands for itself in a string. -/
def Plain (b : UInt8) : Prop := 0x20 ≤ b ∧ b ≠ 0x22 ∧ b ≠ 0x5C

instance (b : UInt8) : Decidable (Plain b) := inferInstanceAs (Decidable (_ ∧ _ ∧ _))

theorem parseChars_cons (b : UInt8) (text : Bytes) :
    parseChars (b :: text) =
      if b = 0x22 then some ([], text)
      else if b < 0x20 then none
      else if b = 0x5C then
        match text with
        | [] => none
        | c :: text => (unescape c).bind fun b => (parseChars text).map fun p => (b :: p.1, p.2)
      else (parseChars text).map fun p => (b :: p.1, p.2) := by
  rw [parseChars.eq_def]
  rfl

theorem parseChars_cons_of_plain {b : UInt8} (h : Plain b) (text : Bytes) :
    parseChars (b :: text) = (parseChars text).map fun p => (b :: p.1, p.2) := by
  obtain ⟨hcontrol, hquote, hbackslash⟩ := h
  rw [parseChars_cons, if_neg hquote, if_neg (UInt8.not_lt.mpr hcontrol), if_neg hbackslash]

theorem parseChars_append_of_plain : ∀ {s : Bytes}, (∀ b ∈ s, Plain b) → ∀ text : Bytes,
    parseChars (s ++ text) = (parseChars text).map fun p => (s ++ p.1, p.2)
  | [], _, text => by simp
  | b :: s, h, text => by
    have hs := parseChars_append_of_plain (s := s) (fun c hc => h c (List.mem_cons_of_mem b hc)) text
    rw [List.cons_append, parseChars_cons_of_plain (h b List.mem_cons_self), hs, Option.map_map]
    rfl

/-- A string of plain bytes. -/
theorem parseChars_of_plain {s : Bytes} (h : ∀ b ∈ s, Plain b) (text : Bytes) :
    parseChars (s ++ 0x22 :: text) = some (s, text) := by
  rw [parseChars_append_of_plain h, parseChars_cons, if_pos rfl, Option.map_some, List.append_nil]

/-- A string with a control character. -/
theorem parseChars_of_control {s : Bytes} {b : UInt8} (h : ∀ b ∈ s, Plain b) (hb : b < 0x20)
    (text : Bytes) : parseChars (s ++ b :: text) = none := by
  have hquote : b ≠ 0x22 := by
    rintro rfl
    exact absurd hb (by decide)
  rw [parseChars_append_of_plain h, parseChars_cons, if_neg hquote, if_pos hb, Option.map_none]

/-- An escape. -/
theorem parseChars_escape (c : UInt8) (text : Bytes) :
    parseChars (0x5C :: c :: text) =
      (unescape c).bind fun b => (parseChars text).map fun p => (b :: p.1, p.2) := by
  rw [parseChars_cons, if_neg (by decide), if_neg (by decide), if_pos rfl]

@[simp] theorem skipSpace_nil : skipSpace [] = [] := rfl

theorem skipSpace_cons {b : UInt8} (h : isSpace b = false) (text : Bytes) :
    skipSpace (b :: text) = b :: text :=
  List.dropWhile_cons_of_neg (by rw [h]; exact Bool.false_ne_true)

theorem isDigit_digit {d : ℕ} (h : d < 10) : isDigit (digit d) = true := by
  have hall : ∀ d : Fin 10, isDigit (digit d) = true := by decide
  exact hall ⟨d, h⟩

theorem toNat_digit {d : ℕ} (h : d < 10) : (digit d).toNat - 0x30 = d := by
  have hall : ∀ d : Fin 10, (digit d).toNat - 0x30 = d := by decide
  exact hall ⟨d, h⟩

/-- The digits of a number, the most significant one first. -/
def decimal (n : ℕ) : Bytes := if n = 0 then [0x30] else (Nat.digits 10 n).reverse.map digit

theorem isDigit_of_mem_decimal {n : ℕ} {b : UInt8} (h : b ∈ decimal n) : isDigit b = true := by
  unfold decimal at h
  split_ifs at h with hn
  · rw [List.mem_singleton.mp h]
    rfl
  · obtain ⟨d, hd, rfl⟩ := List.mem_map.mp h
    exact isDigit_digit (Nat.digits_lt_base (by decide) (List.mem_reverse.mp hd))

theorem decimal_ne_nil (n : ℕ) : decimal n ≠ [] := by
  unfold decimal
  split_ifs with hn
  · exact List.cons_ne_nil _ _
  · rw [Ne, List.map_eq_nil_iff, List.reverse_eq_nil_iff]
    exact Nat.digits_ne_nil_iff_ne_zero.mpr hn

theorem ofDigits_decimal (n : ℕ) :
    Nat.ofDigits 10 ((decimal n).reverse.map fun b => b.toNat - 0x30) = n := by
  unfold decimal
  split_ifs with hn
  · rw [hn]
    rfl
  · have hdigits : ((Nat.digits 10 n).map digit).map (fun b => b.toNat - 0x30) =
        Nat.digits 10 n := by
      rw [List.map_map]
      conv_rhs => rw [← List.map_id (Nat.digits 10 n)]
      apply List.map_congr_left
      exact fun d hd => toNat_digit (Nat.digits_lt_base (by decide) hd)
    rw [← List.map_reverse, List.reverse_reverse, hdigits, Nat.ofDigits_digits]

/-- There is no leading zero. -/
theorem head_decimal {n : ℕ} (h : (decimal n).head? = some 0x30) : decimal n = [0x30] := by
  unfold decimal at h ⊢
  split_ifs at h ⊢ with hn
  · rfl
  · exfalso
    rw [List.head?_map, List.head?_reverse, Option.map_eq_some_iff] at h
    obtain ⟨d, hd, hdigit⟩ := h
    have hne : Nat.digits 10 n ≠ [] := Nat.digits_ne_nil_iff_ne_zero.mpr hn
    rw [List.getLast?_eq_some_getLast hne] at hd
    have hlast := Nat.getLast_digit_ne_zero 10 hn
    obtain rfl := Option.some.inj hd
    have hlt := Nat.digits_lt_base (by decide) (List.getLast_mem hne)
    apply hlast
    rw [← toNat_digit hlt, hdigit]
    rfl

/-- A number that no digit follows. -/
theorem parseNat_decimal (n : ℕ) {text : Bytes} (h : ∀ b ∈ text.head?, isDigit b = false) :
    parseNat (decimal n ++ text) = some (n, text) := by
  have hall : ∀ b ∈ decimal n, isDigit b = true := fun b hb => isDigit_of_mem_decimal hb
  have htake : text.takeWhile isDigit = [] ∧ text.dropWhile isDigit = text := by
    cases text with
    | nil => exact ⟨rfl, rfl⟩
    | cons b text =>
      have hb : isDigit b = false := h b rfl
      simp [hb]
  have hdigits : (decimal n ++ text).takeWhile isDigit = decimal n := by
    rw [List.takeWhile_append_of_pos hall, htake.1, List.append_nil]
  have hrest : (decimal n ++ text).dropWhile isDigit = text := by
    rw [List.dropWhile_append_of_pos hall, htake.2]
  unfold parseNat
  simp only [hdigits, hrest, ofDigits_decimal]
  apply if_neg
  rintro (hnil | ⟨hzero, hne⟩)
  · exact decimal_ne_nil n hnil
  · exact hne (head_decimal hzero)

section Items

variable {α : Type*} {next : Bytes → Option (List α × Bytes)} {close : UInt8} {a : α}

theorem parseRest_comma (text : Bytes) :
    parseRest close next a (0x2C :: text) = (next text).map fun p => (a :: p.1, p.2) := by
  rw [parseRest, skipSpace_cons (by decide)]
  exact if_pos rfl

theorem parseRest_close (hcomma : close ≠ 0x2C) (hspace : isSpace close = false) (text : Bytes) :
    parseRest close next a (close :: text) = some ([a], text) := by
  rw [parseRest, skipSpace_cons hspace]
  exact (if_neg hcomma).trans (if_pos rfl)

theorem parseRest_other {b : UInt8} (hcomma : b ≠ 0x2C) (hclose : b ≠ close)
    (hspace : isSpace b = false) (text : Bytes) :
    parseRest close next a (b :: text) = none := by
  rw [parseRest, skipSpace_cons hspace]
  exact (if_neg hcomma).trans (if_neg hclose)

end Items

/-- A member whose tag is plain. -/
theorem parseMember_tag {tag : Bytes} (h : ∀ b ∈ tag, Plain b)
    (value : Bytes → Option (Value × Bytes)) (text : Bytes) :
    parseMember value (0x22 :: (tag ++ 0x22 :: 0x3A :: text)) =
      (value text).map fun p => ((tag, p.1), p.2) := by
  rw [parseMember, skipSpace_cons (by decide)]
  simp only [parseChars_of_plain h, Option.bind_some, skipSpace_cons (b := 0x3A) (by decide)]

theorem parseValue_string (n : ℕ) (text : Bytes) :
    parseValue (n + 1) (0x22 :: text) = (parseChars text).map fun p => (.string p.1, p.2) := by
  rw [parseValue, skipSpace_cons (by decide)]
  rfl

theorem parseValue_object (n : ℕ) (text : Bytes) :
    parseValue (n + 1) (0x7B :: text) =
      (parseList (parseMember (parseValue n)) 0x7D n text).map fun p => (.object p.1, p.2) := by
  rw [parseValue, skipSpace_cons (by decide)]
  rfl

theorem parseValue_array (n : ℕ) (text : Bytes) :
    parseValue (n + 1) (0x5B :: text) =
      (parseList (parseValue n) 0x5D n text).map fun p => (.array p.1, p.2) := by
  rw [parseValue, skipSpace_cons (by decide)]
  rfl

/-- A value that begins with a sign or a digit. -/
theorem parseValue_int {b : UInt8} (h : b = 0x2D ∨ isDigit b = true) (n : ℕ) (text : Bytes) :
    parseValue (n + 1) (b :: text) =
      (parseInt (b :: text)).map fun p => (.int p.1, p.2) := by
  have hne : ∀ c, isDigit c = false → c ≠ 0x2D → b ≠ c := by
    rintro c hdigit hsign rfl
    rcases h with h | h
    · exact hsign h
    · rw [hdigit] at h
      cases h
  have hspace : isSpace b = false := by
    simp [isSpace, hne 0x20 rfl (by decide), hne 0x09 rfl (by decide), hne 0x0A rfl (by decide),
      hne 0x0D rfl (by decide)]
  rw [parseValue, skipSpace_cons hspace]
  split
  · rename_i heq
    exact absurd (List.cons.inj heq).1 (hne 0x22 rfl (by decide))
  · rename_i heq
    exact absurd (List.cons.inj heq).1 (hne 0x7B rfl (by decide))
  · rename_i heq
    exact absurd (List.cons.inj heq).1 (hne 0x5B rfl (by decide))
  · rfl

end Json
