import Inspector.Json.Parse
import Mathlib.Data.Rat.Floor
import Mathlib.Tactic.FieldSimp
import Mathlib.Tactic.Linarith
import Mathlib.Tactic.NormNum
import Mathlib.Tactic.Ring

/-! # Numbers in texts

`read_uint` and `read_float` of `nuts_bolts.c` on texts of bytes, and the numbers with three
decimals that `sprintf` writes. Floats are rational numbers; reading keeps nine digits. Numbers of
no more digits are read back as they were written.
-/

namespace Inspector

open Json

/-- A carriage return or a line feed. -/
def isLineEnd (c : UInt8) : Bool := c = 0x0D ∨ c = 0x0A

/-- The codes of `status_code_t` that reading numbers gives. -/
inductive NumberStatus | negativeValue | commandValueNotInteger | badNumberFormat
  deriving DecidableEq, Repr

/-- `MAX_INT_DIGITS`. -/
def maxIntDigits : ℕ := 9

/-- The variables of the loops of `read_uint` and `read_float`. -/
structure Scan where
  intval : ℕ := 0
  ndigit : ℕ := 0
  exp : ℤ := 0
  isDecimal : Bool := false
  ok : Bool := false
  deriving DecidableEq, Repr

namespace Scan

/-- The count of digits, without leading zeros. -/
def count (s : Scan) (c : ℕ) : ℕ := if c ≠ 0 ∨ s.intval ≠ 0 then s.ndigit + 1 else s.ndigit

/-- A digit in `read_float`. -/
def floatDigit (s : Scan) (c : ℕ) : Scan :=
  if s.count c ≤ maxIntDigits then
    { s with
      ok := true
      ndigit := s.count c
      exp := if s.isDecimal then s.exp - 1 else s.exp
      intval := s.intval * 10 + c }
  else
    { s with
      ok := true
      ndigit := s.count c
      exp := if s.isDecimal then s.exp else s.exp + 1 }

/-- A digit in `read_uint`; behind the decimal point only zeros are left. -/
def uintDigit (s : Scan) (c : ℕ) : Scan :=
  let ndigit := if s.isDecimal then s.ndigit else s.count c
  { s with
    ok := true
    ndigit := ndigit
    intval :=
      if (ndigit ≤ 9 ∨ c ≤ 4) ∧ s.intval ≤ 429496729 then s.intval * 10 + c else s.intval }

end Scan

/-- The value of a digit. -/
def digitValue (b : UInt8) : ℕ := b.toNat - 0x30

/-- The loop of `read_float`, up to the first character that is not part of the number. -/
def scanFloat : Scan → Bytes → Scan × Bytes
  | s, [] => (s, [])
  | s, b :: text =>
    if isDigit b then scanFloat (s.floatDigit (digitValue b)) text
    else if b = 0x2E ∧ s.isDecimal = false then scanFloat { s with isDecimal := true } text
    else (s, b :: text)

/-- The loop of `read_uint`. -/
def scanUint : Scan → Bytes → Except NumberStatus (Scan × Bytes)
  | s, [] => .ok (s, [])
  | s, b :: text =>
    if isDigit b then
      if s.isDecimal ∧ digitValue b ≠ 0 then .error .commandValueNotInteger
      else scanUint (s.uintDigit (digitValue b)) text
    else if b = 0x2E ∧ s.isDecimal = false then scanUint { s with isDecimal := true } text
    else .ok (s, b :: text)

/-- The sign in front of a number: whether it is a minus, and the text behind it. -/
def sign : Bytes → Bool × Bytes
  | 0x2D :: text => (true, text)
  | 0x2B :: text => (false, text)
  | text => (false, text)

/-- `read_float`: the number at the beginning of a text, and the text behind it. -/
def readFloat (text : Bytes) : Option (ℚ × Bytes) :=
  let (isNegative, text) := sign text
  let (s, rest) := scanFloat {} text
  let value : ℚ := s.intval * 10 ^ s.exp
  if s.ok then some (if isNegative then -value else value, rest) else none

/-- `read_uint`. -/
def readUint (text : Bytes) : Except NumberStatus (ℕ × Bytes) :=
  let (isNegative, text) := sign text
  if isNegative then .error .negativeValue
  else
    match scanUint {} text with
    | .error e => .error e
    | .ok (s, rest) => if s.ok then .ok (s.intval, rest) else .error .badNumberFormat

/-- The nearest natural number, halfway cases to the even one. -/
def roundEven (x : ℚ) : ℕ :=
  let n := ⌊x⌋.toNat
  if x - n < 1 / 2 then n
  else if 1 / 2 < x - n then n + 1
  else if n % 2 = 0 then n else n + 1

/-- `sprintf("%-.3f", v)`. -/
def fixed3 (v : ℚ) : Bytes :=
  let n := roundEven (|v| * 1000)
  (if v < 0 then [0x2D] else []) ++ decimal (n / 1000) ++
    [0x2E, digit (n / 100 % 10), digit (n / 10 % 10), digit (n % 10)]

section Decimals

theorem decimal_of_lt {n : ℕ} (h : n < 10) : decimal n = [digit n] := by
  unfold decimal
  split_ifs with hn
  · rw [hn]
    rfl
  · rw [Nat.digits_of_lt 10 n hn h]
    rfl

theorem decimal_of_le {n : ℕ} (h : 10 ≤ n) : decimal n = decimal (n / 10) ++ [digit (n % 10)] := by
  have hn : n ≠ 0 := by omega
  have hdiv : n / 10 ≠ 0 := by omega
  unfold decimal
  rw [if_neg hn, if_neg hdiv, Nat.digits_def' (by decide) (by omega), List.reverse_cons,
    List.map_append]
  rfl

theorem length_decimal_le : ∀ {k n : ℕ}, n < 10 ^ (k + 1) → (decimal n).length ≤ k + 1
  | 0, n, h => by
    rw [decimal_of_lt (by simpa using h)]
    simp
  | k + 1, n, h => by
    by_cases hlt : n < 10
    · rw [decimal_of_lt hlt]
      simp
    · have hdiv : n / 10 < 10 ^ (k + 1) := by
        rw [Nat.div_lt_iff_lt_mul (by decide), ← pow_succ]
        exact h
      have hrec := length_decimal_le hdiv
      rw [decimal_of_le (not_lt.mp hlt), List.length_append, List.length_singleton]
      omega

theorem digitValue_digit {d : ℕ} (h : d < 10) : digitValue (digit d) = d := toNat_digit h

end Decimals

namespace Scan

/-- The digits read so far are the digits of the number. -/
structure Counts (s : Scan) : Prop where
  lt : s.intval < 10 ^ s.ndigit
  le : s.ndigit ≠ 0 → 10 ^ (s.ndigit - 1) ≤ s.intval

variable {s : Scan} {c : ℕ}

theorem Counts.ndigit_le (h : s.Counts) {k : ℕ} (hk : s.intval < 10 ^ k) : s.ndigit ≤ k := by
  by_contra hlt
  have hle := h.le (by omega)
  have hpow := Nat.pow_le_pow_right (n := 10) (by decide) (show k ≤ s.ndigit - 1 by omega)
  omega

/-- One more digit of a number. -/
theorem counts_count (h : s.Counts) (hc : c < 10) :
    Counts { s with ndigit := s.count c, intval := s.intval * 10 + c } := by
  unfold count
  split_ifs with hnew
  · constructor
    · have hlt := h.lt
      simp only [pow_succ]
      omega
    · intro _
      simp only [Nat.add_sub_cancel]
      by_cases h0 : s.ndigit = 0
      · have hlt := h.lt
        rw [h0] at hlt ⊢
        simp at hlt ⊢
        omega
      · have hle := h.le h0
        obtain ⟨k, hk⟩ := Nat.exists_eq_succ_of_ne_zero h0
        rw [hk] at hle ⊢
        simp only [Nat.succ_eq_add_one, Nat.add_sub_cancel] at hle
        simp only [Nat.succ_eq_add_one, pow_succ]
        omega
  · obtain ⟨hc0, hzero⟩ := not_or.mp hnew
    have hval : s.intval * 10 + c = s.intval := by
      rw [not_not.mp hc0, not_not.mp hzero]
    rw [hval]
    exact ⟨h.lt, h.le⟩

/-- The scan of a number so far, in `read_float`. -/
structure Holds (s : Scan) (n : ℕ) (exp : ℤ) (isDecimal : Bool) : Prop where
  counts : s.Counts
  intval : s.intval = n
  exp : s.exp = exp
  isDecimal : s.isDecimal = isDecimal

theorem holds_start : Holds {} 0 0 false := ⟨⟨by decide, fun h => absurd rfl h⟩, rfl, rfl, rfl⟩

/-- One more digit of a number of at most nine. -/
theorem Holds.digit {n : ℕ} {exp : ℤ} {isDecimal : Bool} (h : s.Holds n exp isDecimal)
    (hc : c < 10) (hn : n * 10 + c < 10 ^ maxIntDigits) :
    (s.floatDigit c).Holds (n * 10 + c) (if isDecimal then exp - 1 else exp) isDecimal ∧
      (s.floatDigit c).ok = true := by
  obtain ⟨hcounts, rfl, rfl, rfl⟩ := h
  have hle : s.count c ≤ maxIntDigits := (counts_count hcounts hc).ndigit_le hn
  rw [floatDigit, if_pos hle]
  have hcounts' := counts_count hcounts hc
  exact ⟨⟨⟨hcounts'.lt, hcounts'.le⟩, rfl, rfl, rfl⟩, rfl⟩

end Scan

/-- The first character of a text does not go on with a number. -/
def Ends (text : Bytes) : Prop := ∀ b ∈ text.head?, isDigit b = false ∧ b ≠ 0x2E

theorem ends_nil : Ends [] := fun _ h => nomatch h

theorem ends_cons {b : UInt8} (h : isDigit b = false ∧ b ≠ 0x2E) (text : Bytes) :
    Ends (b :: text) := by
  rintro _ ⟨⟩
  exact h

theorem scanFloat_digit (s : Scan) {d : ℕ} (h : d < 10) (text : Bytes) :
    scanFloat s (digit d :: text) = scanFloat (s.floatDigit d) text := by
  rw [scanFloat, if_pos (isDigit_digit h), digitValue_digit h]

theorem scanFloat_point {s : Scan} (h : s.isDecimal = false) (text : Bytes) :
    scanFloat s (0x2E :: text) = scanFloat { s with isDecimal := true } text := by
  rw [scanFloat, if_neg (by decide), if_pos ⟨rfl, h⟩]

theorem scanFloat_ends (s : Scan) {text : Bytes} (h : Ends text) :
    scanFloat s text = (s, text) := by
  cases text with
  | nil => rfl
  | cons b text =>
    obtain ⟨hdigit, hpoint⟩ := h b rfl
    rw [scanFloat, if_neg (by simp [hdigit]), if_neg (by simp [hpoint])]

/-- A whole number of at most nine digits is scanned to its end. -/
theorem scanFloat_decimal {n : ℕ} (hn : n < 10 ^ maxIntDigits) (text : Bytes) :
    ∃ s : Scan, s.Holds n 0 false ∧ s.ok = true ∧
      scanFloat {} (decimal n ++ text) = scanFloat s text := by
  induction n using Nat.strong_induction_on generalizing text with
  | _ n ih =>
    by_cases hlt : n < 10
    · obtain ⟨hholds, hok⟩ := Scan.holds_start.digit hlt (by simpa using hn)
      rw [decimal_of_lt hlt, List.singleton_append, scanFloat_digit _ hlt]
      exact ⟨_, by simpa using hholds, hok, rfl⟩
    · have hle : 10 ≤ n := not_lt.mp hlt
      have hmod : n % 10 < 10 := Nat.mod_lt _ (by decide)
      have hsplit : n / 10 * 10 + n % 10 = n := by omega
      obtain ⟨s, hs, -, hscan⟩ := ih (n / 10) (by omega) (by omega) (digit (n % 10) :: text)
      obtain ⟨hholds, hok⟩ := hs.digit hmod (by rw [hsplit]; exact hn)
      rw [decimal_of_le hle, List.append_assoc, List.singleton_append, hscan,
        scanFloat_digit _ hmod]
      exact ⟨_, by simpa [hsplit] using hholds, hok, rfl⟩

/-- A decimal fraction of at most nine digits is scanned to its end. -/
theorem scanFloat_fraction {n : ℕ} (hn : n < 10 ^ maxIntDigits) {text : Bytes} (h : Ends text) :
    ∃ s : Scan, s.Holds n (-3) true ∧ s.ok = true ∧
      scanFloat {} (decimal (n / 1000) ++
        [0x2E, digit (n / 100 % 10), digit (n / 10 % 10), digit (n % 10)] ++ text) = (s, text) := by
  have hmod : ∀ k, k % 10 < 10 := fun k => Nat.mod_lt _ (by decide)
  obtain ⟨s, hs, -, hscan⟩ := scanFloat_decimal (n := n / 1000) (by omega)
    (0x2E :: digit (n / 100 % 10) :: digit (n / 10 % 10) :: digit (n % 10) :: text)
  have hpoint : Scan.Holds { s with isDecimal := true } (n / 1000) 0 true :=
    ⟨⟨hs.counts.lt, hs.counts.le⟩, hs.intval, hs.exp, rfl⟩
  obtain ⟨h1, -⟩ := hpoint.digit (hmod (n / 100)) (by omega)
  obtain ⟨h2, -⟩ := h1.digit (hmod (n / 10)) (by omega)
  obtain ⟨h3, hok⟩ := h2.digit (hmod n) (by omega)
  refine ⟨_, ⟨h3.counts, ?_, ?_, h3.isDecimal⟩, hok, ?_⟩
  · rw [h3.intval]
    omega
  · rw [h3.exp]
    rfl
  · simp only [List.append_assoc, List.cons_append, List.nil_append]
    rw [hscan, scanFloat_point hs.isDecimal, scanFloat_digit _ (hmod _), scanFloat_digit _ (hmod _),
      scanFloat_digit _ (hmod _), scanFloat_ends _ h]

theorem roundEven_natCast (n : ℕ) : roundEven n = n := by
  unfold roundEven
  simp

/-- Thousandths are rounded to themselves. -/
theorem roundEven_milli (z : ℤ) : roundEven (|(z / 1000 : ℚ)| * 1000) = z.natAbs := by
  have habs : |(z / 1000 : ℚ)| * 1000 = (z.natAbs : ℚ) := by
    rw [abs_div, abs_of_pos (by norm_num : (0 : ℚ) < 1000), Nat.cast_natAbs, Int.cast_abs]
    field_simp
  rw [habs, roundEven_natCast]

/-- A number begins with a digit. -/
theorem exists_decimal_append (n : ℕ) (text : Bytes) :
    ∃ b l, isDigit b = true ∧ decimal n ++ text = b :: l := by
  obtain ⟨b, l, hbl⟩ := List.exists_cons_of_ne_nil (decimal_ne_nil n)
  refine ⟨b, l ++ text, isDigit_of_mem_decimal (n := n) ?_, ?_⟩
  · rw [hbl]
    exact List.mem_cons_self
  · rw [hbl, List.cons_append]

theorem sign_of_digit {b : UInt8} (hb : isDigit b = true) (text : Bytes) :
    sign (b :: text) = (false, b :: text) := by
  unfold sign
  split
  · rename_i heq
    rw [(List.cons.inj heq).1] at hb
    exact absurd hb (by decide)
  · rename_i heq
    rw [(List.cons.inj heq).1] at hb
    exact absurd hb (by decide)
  · rfl

theorem sign_decimal (n : ℕ) (text : Bytes) :
    sign (decimal n ++ text) = (false, decimal n ++ text) := by
  obtain ⟨b, l, hb, hbl⟩ := exists_decimal_append n text
  rw [hbl, sign_of_digit hb]

/-- A multiple of a thousandth with at most nine digits. -/
def Milli (v : ℚ) : Prop := ∃ z : ℤ, z.natAbs < 10 ^ maxIntDigits ∧ v = z / 1000

/-- Such a number is read as it was written. -/
theorem readFloat_fixed3 {v : ℚ} (hv : Milli v) {text : Bytes} (h : Ends text) :
    readFloat (fixed3 v ++ text) = some (v, text) := by
  obtain ⟨z, hz, rfl⟩ := hv
  have hround := roundEven_milli z
  obtain ⟨s, hs, hok, hscan⟩ := scanFloat_fraction hz h
  have hval : (s.intval : ℚ) * 10 ^ s.exp = z.natAbs / 1000 := by
    rw [hs.intval, hs.exp]
    norm_num [zpow_neg]
    ring
  have hneg : (z / 1000 : ℚ) < 0 ↔ z < 0 := by
    rw [div_lt_iff₀ (by norm_num)]
    norm_num
  unfold fixed3
  simp only [hround]
  split_ifs with hlt
  · have hz0 : (z.natAbs : ℚ) = -z := by
      rw [Nat.cast_natAbs, abs_of_neg (hneg.mp hlt)]
      push_cast
      rfl
    have hsign : sign ([0x2D] ++ decimal (z.natAbs / 1000) ++ [0x2E, digit (z.natAbs / 100 % 10),
        digit (z.natAbs / 10 % 10), digit (z.natAbs % 10)] ++ text) =
        (true, decimal (z.natAbs / 1000) ++ [0x2E, digit (z.natAbs / 100 % 10),
          digit (z.natAbs / 10 % 10), digit (z.natAbs % 10)] ++ text) := rfl
    simp only [readFloat, hsign, hscan, hok, if_true, hval, hz0]
    congr 2
    ring
  · have hz0 : (z.natAbs : ℚ) = z := by
      rw [Nat.cast_natAbs, abs_of_nonneg (not_lt.mp fun h => hlt (hneg.mpr h))]
    have hsign : sign ([] ++ decimal (z.natAbs / 1000) ++ [0x2E, digit (z.natAbs / 100 % 10),
        digit (z.natAbs / 10 % 10), digit (z.natAbs % 10)] ++ text) =
        (false, decimal (z.natAbs / 1000) ++ [0x2E, digit (z.natAbs / 100 % 10),
          digit (z.natAbs / 10 % 10), digit (z.natAbs % 10)] ++ text) := by
      rw [List.nil_append, List.append_assoc, sign_decimal]
    simp only [readFloat, hsign, hscan, hok, if_true, hval, hz0, Bool.false_eq_true, if_false]

theorem scanUint_digit {s : Scan} (hs : s.isDecimal = false) {d : ℕ} (h : d < 10)
    (text : Bytes) : scanUint s (digit d :: text) = scanUint (s.uintDigit d) text := by
  rw [scanUint, if_pos (isDigit_digit h), digitValue_digit h, if_neg (by simp [hs])]

theorem scanUint_ends (s : Scan) {text : Bytes} (h : Ends text) :
    scanUint s text = .ok (s, text) := by
  cases text with
  | nil => rfl
  | cons b text =>
    obtain ⟨hdigit, hpoint⟩ := h b rfl
    rw [scanUint, if_neg (by simp [hdigit]), if_neg (by simp [hpoint])]

theorem scanUint_decimal {n : ℕ} (hn : n < 10 ^ maxIntDigits) (text : Bytes) :
    ∃ s : Scan, s.Counts ∧ s.intval = n ∧ s.isDecimal = false ∧ s.ok = true ∧
      scanUint {} (decimal n ++ text) = scanUint s text := by
  have hstep : ∀ {s : Scan} {c : ℕ}, s.Counts → s.isDecimal = false → c < 10 →
      s.intval * 10 + c < 10 ^ maxIntDigits → (s.uintDigit c).Counts ∧
        (s.uintDigit c).intval = s.intval * 10 + c ∧ (s.uintDigit c).isDecimal = false ∧
        (s.uintDigit c).ok = true := by
    intro s c hs hdec hc hlt
    have hcounts := Scan.counts_count hs hc
    have hle : s.count c ≤ 9 := hcounts.ndigit_le hlt
    have hsmall : s.intval ≤ 429496729 := by
      norm_num [maxIntDigits] at hlt
      omega
    have huint : s.uintDigit c =
        { s with ok := true, ndigit := s.count c, intval := s.intval * 10 + c } := by
      simp [Scan.uintDigit, hdec, hle, hsmall]
    rw [huint]
    exact ⟨⟨hcounts.lt, hcounts.le⟩, rfl, hdec, rfl⟩
  induction n using Nat.strong_induction_on generalizing text with
  | _ n ih =>
    by_cases hlt : n < 10
    · obtain ⟨hs, hval, hdec, hok⟩ := hstep Scan.holds_start.counts rfl hlt (by simpa using hn)
      rw [decimal_of_lt hlt, List.singleton_append, scanUint_digit rfl hlt]
      exact ⟨_, hs, by simpa using hval, hdec, hok, rfl⟩
    · have hle : 10 ≤ n := not_lt.mp hlt
      have hmod : n % 10 < 10 := Nat.mod_lt _ (by decide)
      have hsplit : n / 10 * 10 + n % 10 = n := by omega
      obtain ⟨s, hs, hval, hdec, -, hscan⟩ :=
        ih (n / 10) (by omega) (by omega) (digit (n % 10) :: text)
      obtain ⟨hs', hval', hdec', hok'⟩ := hstep hs hdec hmod (by rw [hval, hsplit]; exact hn)
      rw [decimal_of_le hle, List.append_assoc, List.singleton_append, hscan,
        scanUint_digit hdec hmod]
      exact ⟨_, hs', by rw [hval', hval, hsplit], hdec', hok', rfl⟩

/-- A natural number of at most nine digits is read as it was written. -/
theorem readUint_decimal {n : ℕ} (hn : n < 10 ^ maxIntDigits) {text : Bytes} (h : Ends text) :
    readUint (decimal n ++ text) = .ok (n, text) := by
  obtain ⟨s, -, hval, -, hok, hscan⟩ := scanUint_decimal hn text
  rw [scanUint_ends s h] at hscan
  simp only [readUint, sign_decimal, hscan, hok, hval, Bool.false_eq_true, if_false, if_true]

end Inspector
