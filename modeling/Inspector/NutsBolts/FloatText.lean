import Inspector.Numerals
import Inspector.NutsBolts.Ftoa
import Inspector.NutsBolts.Spelling

/-! # Formatting decimal numbers

`ftoa` with its buffer, which is filled from the end, and with the conversions to 32-bit integers
that it makes. The text is the rounded number whenever its characters fit in the buffer and its
decimals in such an integer.
-/

namespace Inspector

open Json

/-- A character is put in front of a text; there is no result when the buffer is full. -/
def put (c : UInt8) (text : Bytes) : Option Bytes :=
  if text.length < coordValueLength then some (c :: text) else none

/-- The decimals, from the last one on. -/
def putDecimals : ℕ → ℕ → Bytes → Option Bytes
  | 0, _, text => some text
  | k + 1, b, text =>
    (put (if b ≠ 0 then digit (b % 10) else 0x30) text).bind (putDecimals k (b / 10))

def putDigits : List ℕ → Bytes → Option Bytes
  | [], text => some text
  | d :: digits, text => (put (digit d) text).bind (putDigits digits)

/-- The digits in front of the point. -/
def putWhole (a : ℕ) (text : Bytes) : Option Bytes :=
  if a = 0 then put 0x30 text else putDigits (Nat.digits 10 a) text

section Ftoa

variable {K : Type*} [Field K]

/-- `froundvalues`. -/
def froundvalues (K : Type*) [Field K] : List K :=
  [0.5, 0.05, 0.005, 0.0005, 0.00005, 0.000005, 0.0000005, 0.00000005, 0.000000005, 0.0000000005,
    0.00000000005]

/-- A number is multiplied by powers of ten in steps of two, and the last one alone. -/
def scale : ℕ → K → K
  | 0, n => n
  | 1, n => n * 10
  | k + 2, n => scale k (n * 100)

variable [LinearOrder K] [FloorSemiring K]

/-- A conversion to `uint32_t`; outside of the range it may give anything. -/
structure ToUint32 (K : Type*) [Field K] [LinearOrder K] [FloorSemiring K] where
  toFun : K → ℕ
  lt : ∀ x, toFun x < 2 ^ 32
  eq_floor : ∀ x, 0 ≤ x → x < 2 ^ 32 → toFun x = ⌊x⌋₊

/-- `ftoa`; there is no result when it writes outside of its buffer or reads outside of the table. -/
def formatFloat (conv : ToUint32 K) (n : K) (decimalPlaces : ℕ) : Option Bytes :=
  (froundvalues K)[decimalPlaces]?.bind fun round => do
    let m := (if n < 0 then -n else n) + round
    let a := conv.toFun m
    let decimals := conv.toFun (scale decimalPlaces (m - a))
    let text ← (if decimalPlaces = 0 then some [] else putDecimals decimalPlaces decimals [])
    let text ← put 0x2E text
    let text ← putWhole a text
    if n < 0 then put 0x2D text else some text

/-- The number rounded half up in magnitude, in units of its last decimal. -/
def rounded (n : K) (places : ℕ) : ℕ := ⌊|n| * 10 ^ places + 1 / 2⌋₊

/-- A minus if the number is negative, the digits of the rounded number, and its decimals. -/
def roundedText (n : K) (places : ℕ) : Bytes :=
  (if n < 0 then [0x2D] else []) ++ (decimal (rounded n places / 10 ^ places) ++
    0x2E :: lastDigits places (rounded n places % 10 ^ places))

/-- The text of the rounded number is written, and reads back as a number that is off by half a unit
of the last decimal at most. -/
structure Formats (conv : ToUint32 K) (n : K) (places : ℕ) : Prop where
  text : formatFloat conv n places = some (roundedText n places)
  read : ∃ v : Numeral, numeral (roundedText n places) = some (v, []) ∧
    v.fraction.length = places ∧ (v.negative = true ↔ n < 0) ∧
    |(v.value : K) - n| ≤ 1 / 2 / 10 ^ places

end Ftoa

section Buffer

variable {f g : Bytes → Option Bytes} {l l' : Bytes}

/-- The characters `l` are put in front of a text, if the buffer has room for them. -/
def Puts (f : Bytes → Option Bytes) (l : Bytes) : Prop :=
  ∀ text : Bytes, text.length ≤ coordValueLength →
    f text = if (l ++ text).length ≤ coordValueLength then some (l ++ text) else none

theorem puts_nil : Puts some [] := fun _ h => (if_pos h).symm

theorem puts_put (c : UInt8) : Puts (put c) [c] := by
  intro text _
  rw [put, List.singleton_append, List.length_cons]
  exact if_congr Nat.lt_iff_add_one_le rfl rfl

theorem Puts.bind (h : Puts f l) (h' : Puts g l') :
    Puts (fun text => (f text).bind g) (l' ++ l) := by
  intro text htext
  simp only
  rw [h text htext, List.append_assoc]
  by_cases hroom : (l ++ text).length ≤ coordValueLength
  · rw [if_pos hroom, Option.bind_some, h' _ hroom]
  · rw [if_neg hroom, Option.bind_none, if_neg]
    rw [List.length_append]
    omega

theorem puts_decimals (k b : ℕ) : Puts (putDecimals k b) (lastDigits k b) := by
  induction k generalizing b with
  | zero => exact puts_nil
  | succ k ih =>
    have hdigit : (if b ≠ 0 then digit (b % 10) else 0x30) = digit (b % 10) := by
      split_ifs with hb
      · rfl
      · rw [not_not.mp hb]
        rfl
    have hput := (puts_put (digit (b % 10))).bind (ih (b / 10))
    rw [← hdigit] at hput
    rw [lastDigits, ← hdigit]
    exact hput

theorem puts_digits (digits : List ℕ) : Puts (putDigits digits) (digits.map digit).reverse := by
  induction digits with
  | nil => exact puts_nil
  | cons d digits ih =>
    rw [List.map_cons, List.reverse_cons]
    exact (puts_put (digit d)).bind ih

theorem puts_whole (a : ℕ) : Puts (putWhole a) (decimal a) := by
  by_cases ha : a = 0
  · have hput := puts_put 0x30
    rw [ha]
    exact hput
  · have hputs := puts_digits (Nat.digits 10 a)
    intro text htext
    rw [putWhole, if_neg ha, hputs text htext, decimal, if_neg ha, List.map_reverse]

end Buffer

section Table

variable {K : Type*} [Field K]

theorem scale_eq (k : ℕ) (n : K) : scale k n = n * 10 ^ k := by
  induction k, n using scale.induct with
  | case1 n => rw [scale, pow_zero, mul_one]
  | case2 n => rw [scale, pow_one]
  | case3 n k ih =>
    rw [scale, ih, pow_succ, pow_succ]
    ring

theorem froundvalues_eq [LinearOrder K] [IsStrictOrderedRing K] {k : ℕ} (h : k ≤ 10) :
    (froundvalues K)[k]? = some (1 / 2 / 10 ^ k) := by
  interval_cases k <;> norm_num [froundvalues]

end Table

section Text

variable {K : Type*} [Field K] [LinearOrder K] [IsStrictOrderedRing K] [FloorSemiring K]

variable {conv : ToUint32 K} {n : K} {places : ℕ}

/-- The characters in the buffer are those of the whole part and the converted decimals. -/
theorem formatFloat_eq (conv : ToUint32 K) (hn : |n| < 2 ^ 32 - 1) (hplaces : places ≤ 10) :
    ∃ b, (rounded n places % 10 ^ places < 2 ^ 32 → b = rounded n places % 10 ^ places) ∧
      b < 2 ^ 32 ∧ formatFloat conv n places =
        let text := (if n < 0 then [0x2D] else []) ++
          (decimal (rounded n places / 10 ^ places) ++ 0x2E :: lastDigits places b)
        if text.length ≤ coordValueLength then some text else none := by
  have hpow : (0 : K) < 10 ^ places := by positivity
  have habs : (if n < 0 then -n else n) = |n| := by
    split_ifs with hneg
    · exact (abs_of_neg hneg).symm
    · exact (abs_of_nonneg (not_lt.mp hneg)).symm
  have hhalf : (1 : K) / 2 / 10 ^ places ≤ 1 / 2 :=
    div_le_self (by norm_num) (one_le_pow₀ (by norm_num))
  have hwhole : conv.toFun (|n| + 1 / 2 / 10 ^ places) = ⌊|n| + 1 / 2 / 10 ^ places⌋₊ :=
    conv.eq_floor _ (by positivity) (by linarith)
  have hpart := floor_part (abs_nonneg n) places
  have hle := Nat.floor_le (show 0 ≤ |n| + 1 / 2 / 10 ^ places by positivity)
  generalize hb : conv.toFun ((|n| + 1 / 2 / 10 ^ places - ⌊|n| + 1 / 2 / 10 ^ places⌋₊) *
    10 ^ places) = b
  refine ⟨b, fun hsmall => ?_, hb ▸ conv.lt _, ?_⟩
  · rw [← hb, rounded, ← hpart]
    apply conv.eq_floor _ (mul_nonneg (sub_nonneg.mpr hle) hpow.le)
    rw [rounded, ← hpart, Nat.floor_lt' (by norm_num)] at hsmall
    exact_mod_cast hsmall
  · have hdecimals : (if places = 0 then some [] else putDecimals places b []) =
        putDecimals places b [] := by
      split_ifs with hzero
      · rw [hzero]
        rfl
      · rfl
    have hsign : Puts (fun text => if n < 0 then put 0x2D text else some text)
        (if n < 0 then [0x2D] else []) := by
      split_ifs
      · exact puts_put _
      · exact puts_nil
    have hputs := (((puts_decimals places b).bind (puts_put 0x2E)).bind
      (puts_whole (rounded n places / 10 ^ places))).bind hsign
    have htext := hputs [] (Nat.zero_le _)
    simp only [List.append_nil, List.singleton_append] at htext
    rw [formatFloat, froundvalues_eq hplaces, Option.bind_some]
    simp only [habs, hwhole, scale_eq, hb, hdecimals]
    rw [floor_whole]
    simp only [rounded] at htext ⊢
    rw [← htext]
    simp only [Option.bind_assoc]
    rfl

theorem number_digitValue (l : Bytes) : number (l.map digitValue) = digitsValue l := by
  rw [number, digitsValue, List.foldl_map]

/-- The text reads back as the rounded number. -/
theorem read_roundedText (n : K) (places : ℕ) :
    ∃ v : Numeral, numeral (roundedText n places) = some (v, []) ∧ v.fraction.length = places ∧
      (v.negative = true ↔ n < 0) ∧ |(v.value : K) - n| ≤ 1 / 2 / 10 ^ places := by
  let p : Spelling := ⟨if n < 0 then [0x2D] else [], decimal (rounded n places / 10 ^ places),
    [0x2E], lastDigits places (rounded n places % 10 ^ places)⟩
  have hp : p.IsNumeral := by
    refine ⟨?_, fun b hb => isDigit_of_mem_decimal hb, .inr rfl,
      fun b hb => isDigit_of_mem_lastDigits hb, .inl (decimal_ne_nil _)⟩
    by_cases hneg : n < 0
    · exact .inr (.inr (if_pos hneg))
    · exact .inl (if_neg hneg)
  have hnegative : p.toNumeral.negative = true ↔ n < 0 := by
    simp only [Spelling.toNumeral, p, decide_eq_true_eq]
    split_ifs with hneg
    · exact iff_of_true rfl hneg
    · exact iff_of_false id hneg
  have hlen : p.toNumeral.fraction.length = places := by
    simp only [Spelling.toNumeral, p, List.length_map, length_lastDigits]
  have hnumber : number p.toNumeral.digits = rounded n places := by
    simp only [Numeral.digits, Spelling.toNumeral, p]
    rw [number_append, number_digitValue, number_digitValue, digitsValue_decimal,
      digitsValue_lastDigits, Nat.mod_mod, List.length_map, length_lastDigits, Nat.div_add_mod']
  have hvalue : (p.toNumeral.value : K) =
      (if n < 0 then -(rounded n places : K) else rounded n places) / 10 ^ places := by
    rw [Numeral.value, Numeral.placed, hnumber, hlen]
    simp only [hnegative]
    split_ifs
    · push_cast
      rfl
    · push_cast
      rfl
  have hnear := abs_floor_sub_le (abs_nonneg n) places
  refine ⟨p.toNumeral, numeral_text hp, hlen, hnegative, ?_⟩
  rw [hvalue]
  split_ifs with hneg
  · have hflip : -(rounded n places : K) / 10 ^ places - n =
        -((rounded n places : K) / 10 ^ places - |n|) := by
      rw [abs_of_neg hneg]
      ring
    rw [hflip, abs_neg]
    exact hnear
  · rw [abs_of_nonneg (not_lt.mp hneg)] at hnear
    rw [rounded, abs_of_nonneg (not_lt.mp hneg)]
    exact hnear

/-- Decimals that need more than 32 bits are not written. -/
theorem lastDigits_ne {b r : ℕ} (hb : b < 2 ^ 32) (hr : 2 ^ 32 ≤ r) (hlt : r < 10 ^ places) :
    lastDigits places b ≠ lastDigits places r := by
  intro heq
  have hvalue := congrArg digitsValue heq
  rw [digitsValue_lastDigits, digitsValue_lastDigits, Nat.mod_eq_of_lt (by omega),
    Nat.mod_eq_of_lt hlt] at hvalue
  omega

theorem Formats.fits (h : Formats conv n places) (hn : |n| < 2 ^ 32 - 1) (hplaces : places ≤ 10) :
    (roundedText n places).length ≤ coordValueLength ∧
      rounded n places % 10 ^ places < 2 ^ 32 := by
  obtain ⟨b, -, hb, htext⟩ := formatFloat_eq conv hn hplaces
  simp only at htext
  generalize hsgn : (if n < 0 then [0x2D] else [] : Bytes) = sgn at htext
  rw [h.text, roundedText, hsgn] at htext
  rw [roundedText, hsgn]
  split_ifs at htext with hroom
  have heq := Option.some.inj htext
  have hdecimals := (List.cons.inj (List.append_cancel_left (List.append_cancel_left heq))).2
  refine ⟨heq ▸ hroom, not_le.mp fun hlarge => ?_⟩
  exact lastDigits_ne hb hlarge (Nat.mod_lt _ (by positivity)) hdecimals.symm

/-- A number is formatted as it is to be exactly if its text fits in the buffer and its decimals in
32 bits. -/
theorem formats_iff (conv : ToUint32 K) (hn : |n| < 2 ^ 32 - 1) (hplaces : places ≤ 10) :
    Formats conv n places ↔ (roundedText n places).length ≤ coordValueLength ∧
      rounded n places % 10 ^ places < 2 ^ 32 := by
  refine ⟨fun h => h.fits hn hplaces, ?_⟩
  rintro ⟨hroom, hlt⟩
  obtain ⟨b, hsmall, -, htext⟩ := formatFloat_eq conv hn hplaces
  rw [hsmall hlt] at htext
  exact ⟨htext.trans (if_pos hroom), read_roundedText n places⟩

/-- The conversion that keeps the lower 32 bits. -/
def wrapping : ToUint32 ℚ where
  toFun x := ⌊x⌋₊ % 2 ^ 32
  lt x := Nat.mod_lt _ (by decide)
  eq_floor x hx hlt := Nat.mod_eq_of_lt (by
    rw [Nat.floor_lt hx]
    exact_mod_cast hlt)

/-- `1.500`. -/
theorem formats_iff_threeHalves : Formats wrapping (3 / 2) 3 := by
  have hrounded : rounded (3 / 2 : ℚ) 3 = 1500 := by
    rw [rounded, Nat.floor_eq_iff (by positivity), abs_of_pos (by norm_num)]
    norm_num
  have hlt : |(3 / 2 : ℚ)| < 2 ^ 32 - 1 := by
    rw [abs_of_pos (by norm_num)]
    norm_num
  refine (formats_iff wrapping hlt (by decide)).mpr ⟨?_, ?_⟩
  · rw [roundedText, hrounded, if_neg (by norm_num)]
    decide
  · rw [hrounded]
    decide

/-- `-123456789.0000` is one character too long. -/
theorem not_formats : ¬Formats wrapping (-123456789) 4 := by
  have hrounded : rounded (-123456789 : ℚ) 4 = 1234567890000 := by
    rw [rounded, Nat.floor_eq_iff (by positivity), abs_of_neg (by norm_num)]
    norm_num
  have hlt : |(-123456789 : ℚ)| < 2 ^ 32 - 1 := by
    rw [abs_of_neg (by norm_num)]
    norm_num
  intro h
  have hroom := (h.fits hlt (by decide)).1
  rw [roundedText, hrounded, if_pos (by norm_num)] at hroom
  have hwhole : decimal (1234567890000 / 10 ^ 4) =
      [0x31, 0x32, 0x33, 0x34, 0x35, 0x36, 0x37, 0x38, 0x39] := by
    norm_num [decimal]
    decide
  rw [hwhole] at hroom
  exact absurd hroom (by decide)

end Text

end Inspector
