import Inspector.Numerals
import Inspector.NutsBolts.Numbers
import Mathlib.Algebra.Order.Floor.Semifield
import Mathlib.Data.List.DropRight

/-! # Texts with a fixed number of decimals

`ftoa` of `nuts_bolts.c` rounds to a number of decimals. Floats are rational numbers, so that the
text is the number to within half a unit of the last decimal. Zeros at its end may be dropped.
-/

namespace Inspector

open Json

/-- The last digits of a number, with zeros in front. -/
def lastDigits : ℕ → ℕ → Bytes
  | 0, _ => []
  | k + 1, b => lastDigits k (b / 10) ++ [digit (b % 10)]

/-- The characters that `ftoa` puts into its buffer, from the end. -/
def ftoaText (n : ℚ) (places : ℕ) : Bytes :=
  let m := |n| + 1 / 2 / 10 ^ places
  let a := ⌊m⌋₊
  let b := ⌊(m - a) * 10 ^ places⌋₊
  (if n < 0 then [0x2D] else []) ++ decimal a ++ 0x2E :: lastDigits places b

/-- `STRLEN_COORDVALUE`. -/
def coordValueLength : ℕ := 14

/-- `ftoa`; `none` when the characters do not fit in its buffer. -/
def ftoa (n : ℚ) (places : ℕ) : Option Bytes :=
  if (ftoaText n places).length ≤ coordValueLength then some (ftoaText n places) else none

/-- The value of digits. -/
def digitsValue (l : Bytes) : ℕ := l.foldl (fun n b => n * 10 + digitValue b) 0

/-- A text with a decimal point and no more than a number of decimals denotes a number. -/
def Denotes (text : Bytes) (places : ℕ) (v : ℚ) : Prop :=
  ∃ (isNegative : Bool) (whole decimals : Bytes),
    text = (if isNegative then [0x2D] else []) ++ whole ++ 0x2E :: decimals ∧
    whole ≠ [] ∧ (∀ b ∈ whole ++ decimals, isDigit b = true) ∧ decimals.length ≤ places ∧
    v = (if isNegative then -1 else 1) *
      (digitsValue whole + digitsValue decimals / 10 ^ decimals.length)

section Digits

@[simp] theorem digitsValue_nil : digitsValue [] = 0 := rfl

@[simp] theorem digitsValue_concat (l : Bytes) (b : UInt8) :
    digitsValue (l ++ [b]) = digitsValue l * 10 + digitValue b := by
  simp [digitsValue]

theorem digitsValue_decimal (n : ℕ) : digitsValue (decimal n) = n := by
  induction n using Nat.strong_induction_on with
  | _ n ih =>
    by_cases hlt : n < 10
    · have hsingle := digitsValue_concat [] (digit n)
      rw [decimal_of_lt hlt]
      rw [List.nil_append, digitsValue_nil, digitValue_digit hlt] at hsingle
      omega
    · have hdiv := ih (n / 10) (by omega)
      rw [decimal_of_le (not_lt.mp hlt), digitsValue_concat, hdiv,
        digitValue_digit (Nat.mod_lt _ (by decide))]
      omega

@[simp] theorem length_lastDigits : ∀ k b, (lastDigits k b).length = k
  | 0, _ => rfl
  | k + 1, b => by rw [lastDigits, List.length_append, length_lastDigits k, List.length_singleton]

theorem isDigit_of_mem_lastDigits : ∀ {k b : ℕ} {c : UInt8}, c ∈ lastDigits k b → isDigit c = true
  | k + 1, b, c, h => by
    rw [lastDigits, List.mem_append, List.mem_singleton] at h
    rcases h with h | rfl
    · exact isDigit_of_mem_lastDigits h
    · exact isDigit_digit (Nat.mod_lt _ (by decide))

theorem digitsValue_lastDigits : ∀ k b, digitsValue (lastDigits k b) = b % 10 ^ k
  | 0, b => by simp [lastDigits, Nat.mod_one]
  | k + 1, b => by
    have hmod := Nat.mod_mul (x := b) (a := 10) (b := 10 ^ k)
    rw [lastDigits, digitsValue_concat, digitsValue_lastDigits k,
      digitValue_digit (Nat.mod_lt _ (by decide)), pow_succ, Nat.mul_comm (10 ^ k) 10, hmod]
    omega

end Digits

section Rounding

variable {K : Type*} [Field K] [LinearOrder K] [IsStrictOrderedRing K] [FloorSemiring K]

/-- The whole part of a number rounded to a number of decimals. -/
theorem floor_whole (x : K) (places : ℕ) :
    ⌊x + 1 / 2 / 10 ^ places⌋₊ = ⌊x * 10 ^ places + 1 / 2⌋₊ / 10 ^ places := by
  have hpow : (0 : K) < 10 ^ places := by positivity
  have hscale : (x + 1 / 2 / 10 ^ places) * 10 ^ places = x * 10 ^ places + 1 / 2 := by
    field_simp
  have hdiv := Nat.floor_div_natCast (x * 10 ^ places + 1 / 2) (10 ^ places)
  rw [← hdiv, ← hscale]
  push_cast
  rw [mul_div_cancel_right₀ _ hpow.ne']

/-- Its decimals. -/
theorem floor_part {x : K} (hx : 0 ≤ x) (places : ℕ) :
    ⌊(x + 1 / 2 / 10 ^ places - ⌊x + 1 / 2 / 10 ^ places⌋₊) * 10 ^ places⌋₊ =
      ⌊x * 10 ^ places + 1 / 2⌋₊ % 10 ^ places := by
  have hpow : (0 : K) < 10 ^ places := by positivity
  have hscale : (x + 1 / 2 / 10 ^ places) * 10 ^ places = x * 10 ^ places + 1 / 2 := by
    field_simp
  have hM0 : 0 ≤ x * 10 ^ places + 1 / 2 := by positivity
  rw [floor_whole]
  generalize x * 10 ^ places + 1 / 2 = M at hscale hM0
  have hle : ((⌊M⌋₊ / 10 ^ places * 10 ^ places : ℕ) : K) ≤ M :=
    (Nat.cast_le.mpr (Nat.div_mul_le_self _ _)).trans (Nat.floor_le hM0)
  have hadd := Nat.floor_add_natCast (sub_nonneg.mpr hle) (⌊M⌋₊ / 10 ^ places * 10 ^ places)
  rw [sub_add_cancel] at hadd
  have hsub : (x + 1 / 2 / 10 ^ places - (⌊M⌋₊ / 10 ^ places : ℕ)) * 10 ^ places =
      M - (⌊M⌋₊ / 10 ^ places * 10 ^ places : ℕ) := by
    rw [sub_mul, hscale]
    push_cast
    rfl
  have hmod := Nat.div_add_mod' ⌊M⌋₊ (10 ^ places)
  rw [hsub]
  omega

/-- A rounded number is off by half a unit of its last decimal at most. -/
theorem abs_floor_sub_le {x : K} (hx : 0 ≤ x) (places : ℕ) :
    |(⌊x * 10 ^ places + 1 / 2⌋₊ : K) / 10 ^ places - x| ≤ 1 / 2 / 10 ^ places := by
  have hpow : (0 : K) < 10 ^ places := by positivity
  have hle := Nat.floor_le (show 0 ≤ x * 10 ^ places + 1 / 2 by positivity)
  have hlt := Nat.lt_floor_add_one (x * 10 ^ places + 1 / 2)
  generalize ⌊x * 10 ^ places + 1 / 2⌋₊ = N at hle hlt ⊢
  have hdiff : (N : K) / 10 ^ places - x = (N - x * 10 ^ places) / 10 ^ places := by
    field_simp
  rw [hdiff, abs_div, abs_of_pos hpow]
  apply div_le_div_of_nonneg_right _ hpow.le
  rw [abs_le]
  constructor <;> linarith

/-- The digits of the text are those of the number rounded to a whole number of last decimals. -/
theorem ftoaText_eq (n : ℚ) (places : ℕ) :
    ftoaText n places = (if n < 0 then [0x2D] else []) ++
      decimal (⌊|n| * 10 ^ places + 1 / 2⌋₊ / 10 ^ places) ++
        0x2E :: lastDigits places (⌊|n| * 10 ^ places + 1 / 2⌋₊ % 10 ^ places) := by
  rw [ftoaText, floor_part (abs_nonneg n), floor_whole]

/-- The text denotes the number to within half a unit of the last decimal. -/
theorem exists_denotes_ftoaText (n : ℚ) (places : ℕ) :
    ∃ v, Denotes (ftoaText n places) places v ∧ |v - n| ≤ 1 / 2 / 10 ^ places := by
  have hpow : (0 : ℚ) < 10 ^ places := by positivity
  rw [ftoaText_eq]
  generalize hN : ⌊|n| * 10 ^ places + 1 / 2⌋₊ = N
  refine ⟨_, ⟨decide (n < 0), decimal (N / 10 ^ places), lastDigits places (N % 10 ^ places),
    ?_, decimal_ne_nil _, ?_, (length_lastDigits _ _).le, rfl⟩, ?_⟩
  · simp only [decide_eq_true_eq]
  · intro b hb
    rcases List.mem_append.mp hb with hb | hb
    · exact isDigit_of_mem_decimal hb
    · exact isDigit_of_mem_lastDigits hb
  · have hdigits : (digitsValue (decimal (N / 10 ^ places)) : ℚ) +
        digitsValue (lastDigits places (N % 10 ^ places)) / 10 ^ places = N / 10 ^ places := by
      have hsplit : ((N / 10 ^ places * 10 ^ places + N % 10 ^ places : ℕ) : ℚ) = N :=
        congrArg Nat.cast (Nat.div_add_mod' N (10 ^ places))
      rw [digitsValue_decimal, digitsValue_lastDigits, Nat.mod_mod, ← hsplit]
      push_cast
      field_simp
    have hnear := abs_floor_sub_le (abs_nonneg n) places
    rw [hN] at hnear
    rw [length_lastDigits, hdigits]
    by_cases hneg : n < 0
    · have hflip : (-1 : ℚ) * (N / 10 ^ places) - n = -(N / 10 ^ places - |n|) := by
        rw [abs_of_neg hneg]
        ring
      simp only [hneg, decide_true, if_true]
      rw [hflip, abs_neg]
      exact hnear
    · simp only [hneg, decide_false, Bool.false_eq_true, if_false, one_mul]
      rwa [abs_of_nonneg (not_lt.mp hneg)] at hnear

/-- A number of up to four digits fits in the buffer. -/
theorem length_ftoaText_le {n : ℚ} (h : |n| < 9999) :
    (ftoaText n 8).length ≤ coordValueLength := by
  have hfloor : ⌊|n| * 10 ^ 8 + 1 / 2⌋₊ < 10 ^ 4 * 10 ^ 8 := by
    rw [Nat.floor_lt (by positivity)]
    push_cast
    linarith
  have hdecimal : (decimal (⌊|n| * 10 ^ 8 + 1 / 2⌋₊ / 10 ^ 8)).length ≤ 4 := by
    apply length_decimal_le
    exact Nat.div_lt_of_lt_mul (by rwa [Nat.mul_comm] at hfloor)
  rw [ftoaText_eq, List.length_append, List.length_append, List.length_cons, length_lastDigits]
  split_ifs
  · simp only [List.length_singleton, coordValueLength]
    omega
  · simp only [List.length_nil, coordValueLength]
    omega

end Rounding

theorem rdropWhile_decimals (l decimals : Bytes) :
    (l ++ 0x2E :: decimals).rdropWhile (· = 0x30) =
      l ++ 0x2E :: decimals.rdropWhile (· = 0x30) := by
  induction decimals using List.reverseRecOn with
  | nil => simp [List.rdropWhile_concat_neg]
  | append_singleton decimals b ih =>
    have hassoc : l ++ 0x2E :: (decimals ++ [b]) = (l ++ 0x2E :: decimals) ++ [b] := by simp
    rw [hassoc]
    by_cases hb : b = 0x30
    · rw [List.rdropWhile_concat_pos _ _ _ (by simpa using hb),
        List.rdropWhile_concat_pos _ _ _ (by simpa using hb), ih]
    · rw [List.rdropWhile_concat_neg _ _ _ (by simpa using hb),
        List.rdropWhile_concat_neg _ _ _ (by simpa using hb), hassoc]

/-- Zeros at the end of the decimals do not count. -/
theorem digitsValue_rdropWhile (decimals : Bytes) :
    (digitsValue (decimals.rdropWhile (· = 0x30)) : ℚ) /
        10 ^ (decimals.rdropWhile (· = 0x30)).length =
      digitsValue decimals / 10 ^ decimals.length := by
  induction decimals using List.reverseRecOn with
  | nil => rfl
  | append_singleton decimals b ih =>
    by_cases hb : b = 0x30
    · have hzero : digitValue b = 0 := by
        rw [hb]
        rfl
      rw [List.rdropWhile_concat_pos _ _ _ (by simpa using hb), ih, digitsValue_concat, hzero,
        List.length_append, List.length_singleton, pow_succ]
      push_cast
      rw [add_zero, mul_div_mul_right _ _ (by norm_num)]
    · rw [List.rdropWhile_concat_neg _ _ _ (by simpa using hb)]

theorem Denotes.rdropWhile {text : Bytes} {places : ℕ} {v : ℚ} (h : Denotes text places v) :
    Denotes (text.rdropWhile (· = 0x30)) places v := by
  obtain ⟨isNegative, whole, decimals, rfl, hwhole, hdigits, hlen, rfl⟩ := h
  have hkept := List.rdropWhile_prefix (· = 0x30) decimals
  refine ⟨isNegative, whole, decimals.rdropWhile (· = 0x30), rdropWhile_decimals _ _, hwhole, ?_,
    hkept.length_le.trans hlen, ?_⟩
  · intro b hb
    apply hdigits
    rcases List.mem_append.mp hb with hb | hb
    · exact List.mem_append_left _ hb
    · exact List.mem_append_right _ (hkept.subset hb)
  · rw [digitsValue_rdropWhile]

end Inspector
