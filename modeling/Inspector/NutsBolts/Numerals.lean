import Inspector.NutsBolts.Numbers
import Mathlib.Data.List.TakeWhile
import Mathlib.Data.Nat.Digits.Lemmas

/-! # Numerals

A numeral at the beginning of a text, with its value, and what `read_float` and `read_uint` make of
it. Digits behind the ninth significant one are read as zeros in `read_float`; in `read_uint` zeros
behind the point count as if they stood in front of it.
-/

namespace Inspector

open Json

/-- The number that digits stand for, the first one with the highest place. -/
def number (digits : List ℕ) : ℕ := digits.foldl (fun n d => n * 10 + d) 0

section Number

variable {digits : List ℕ} {d : ℕ}

@[simp] theorem number_nil : number [] = 0 := rfl

theorem number_concat (digits : List ℕ) (d : ℕ) :
    number (digits ++ [d]) = number digits * 10 + d := by
  rw [number, List.foldl_append]
  rfl

theorem number_append (digits digits' : List ℕ) :
    number (digits ++ digits') = number digits * 10 ^ digits'.length + number digits' := by
  induction digits' using List.reverseRecOn with
  | nil => simp
  | append_singleton digits' d ih =>
    rw [← List.append_assoc, number_concat, ih, number_concat, List.length_append,
      List.length_singleton]
    ring

theorem number_cons (d : ℕ) (digits : List ℕ) :
    number (d :: digits) = d * 10 ^ digits.length + number digits := by
  have happend := number_append [d] digits
  have hd : number [d] = d := Nat.zero_add d
  rwa [hd] at happend

theorem number_eq_ofDigits (digits : List ℕ) : number digits = Nat.ofDigits 10 digits.reverse := by
  induction digits using List.reverseRecOn with
  | nil => rfl
  | append_singleton digits d ih =>
    rw [number_concat, ih, List.reverse_concat, Nat.ofDigits_cons]
    ring

/-- Numbers of equally many digits are equal only if their digits are. -/
theorem number_inj {digits' : List ℕ} (h : digits.length = digits'.length)
    (hlt : ∀ d ∈ digits, d < 10) (hlt' : ∀ d ∈ digits', d < 10) :
    number digits = number digits' ↔ digits = digits' := by
  refine ⟨fun heq => ?_, fun heq => heq ▸ rfl⟩
  rw [number_eq_ofDigits, number_eq_ofDigits] at heq
  refine List.reverse_injective (Nat.ofDigits_inj_of_len_eq (by decide) ?_ ?_ ?_ heq)
  · rw [List.length_reverse, List.length_reverse, h]
  · exact fun d hd => hlt d (List.mem_reverse.mp hd)
  · exact fun d hd => hlt' d (List.mem_reverse.mp hd)

theorem number_eq_zero_of_forall (h : ∀ d ∈ digits, d = 0) : number digits = 0 := by
  induction digits with
  | nil => rfl
  | cons d digits ih =>
    rw [number_cons, h d List.mem_cons_self,
      ih fun d' hd' => h d' (List.mem_cons_of_mem d hd'), Nat.zero_mul]

end Number

/-- A numeral: its sign and its digits in front of the point and behind it. -/
structure Numeral where
  negative : Bool
  whole : List ℕ
  fraction : List ℕ
  deriving DecidableEq, Repr

/-- The digits behind a point at the beginning of a text, and the text behind them. -/
def fractionOf (text : Bytes) : Bytes × Bytes :=
  if text.head? = some 0x2E then (text.tail.takeWhile isDigit, text.tail.dropWhile isDigit)
  else ([], text)

/-- The numeral at the beginning of a text, and the text behind it. -/
def numeral (text : Bytes) : Option (Numeral × Bytes) :=
  let (negative, text) := sign text
  let whole := (text.takeWhile isDigit).map digitValue
  let (fraction, rest) := fractionOf (text.dropWhile isDigit)
  if whole = [] ∧ fraction = [] then none
  else some (⟨negative, whole, fraction.map digitValue⟩, rest)

namespace Numeral

variable (n : Numeral)

def digits : List ℕ := n.whole ++ n.fraction

/-- A number with the sign and the point of the numeral. -/
def placed (m : ℕ) : ℚ := (if n.negative then -(m : ℚ) else m) / 10 ^ n.fraction.length

/-- The exact value. -/
def value : ℚ := n.placed (number n.digits)

end Numeral

/-- The value of a natural number. -/
theorem Numeral.value_natural {n : Numeral} (hneg : n.negative = false)
    (hzeros : ∀ d ∈ n.fraction, d = 0) : n.value = number n.whole := by
  have hpow : (10 : ℚ) ^ n.fraction.length ≠ 0 := pow_ne_zero _ (by norm_num)
  rw [Numeral.value, Numeral.placed, hneg, Numeral.digits, number_append,
    number_eq_zero_of_forall hzeros]
  simp only [Bool.false_eq_true, if_false, Nat.add_zero]
  push_cast
  exact mul_div_cancel_right₀ _ hpow

/-- The digits, with zeros in place of those that `read_float` drops, after a number of significant
ones. -/
def keep : ℕ → List ℕ → List ℕ
  | _, [] => []
  | k, d :: digits =>
    let k := if d ≠ 0 ∨ k ≠ 0 then k + 1 else k
    (if k ≤ maxIntDigits then d else 0) :: keep k digits

/-- The value with the digits that `read_float` keeps. -/
def Numeral.kept (n : Numeral) : ℚ := n.placed (number (keep 0 n.digits))

theorem length_keep (k : ℕ) (digits : List ℕ) : (keep k digits).length = digits.length := by
  induction digits generalizing k with
  | nil => rfl
  | cons d digits ih => rw [keep, List.length_cons, ih, List.length_cons]

theorem keep_lt {digits : List ℕ} (h : ∀ d ∈ digits, d < 10) (k : ℕ) :
    ∀ d ∈ keep k digits, d < 10 := by
  induction digits generalizing k with
  | nil => exact h
  | cons a digits ih =>
    intro d hd
    rcases List.mem_cons.mp hd with rfl | hd
    · by_cases hk : (if a ≠ 0 ∨ k ≠ 0 then k + 1 else k) ≤ maxIntDigits
      · rw [if_pos hk]
        exact h a List.mem_cons_self
      · rw [if_neg hk]
        decide
    · exact ih (fun d' hd' => h d' (List.mem_cons_of_mem a hd')) _ d hd

/-- The number of significant digits after some more. -/
def significant : ℕ → List ℕ → ℕ
  | k, [] => k
  | k, d :: digits => significant (if d ≠ 0 ∨ k ≠ 0 then k + 1 else k) digits

theorem keep_append (k : ℕ) (digits digits' : List ℕ) :
    keep k (digits ++ digits') = keep k digits ++ keep (significant k digits) digits' := by
  induction digits generalizing k with
  | nil => rfl
  | cons d digits ih => rw [List.cons_append, keep, ih, keep, significant, List.cons_append]

/-- The kept value is the exact one when no digit has been dropped but zeros. -/
theorem Numeral.kept_eq_value_iff (n : Numeral) (h : ∀ d ∈ n.digits, d < 10) :
    n.kept = n.value ↔ keep 0 n.digits = n.digits := by
  rw [← number_inj (length_keep 0 n.digits) (keep_lt h 0) h, Numeral.kept, Numeral.value,
    Numeral.placed, Numeral.placed]
  have hpow : (10 : ℚ) ^ n.fraction.length ≠ 0 := pow_ne_zero _ (by norm_num)
  rw [div_left_inj' hpow]
  split_ifs
  · rw [neg_inj, Nat.cast_inj]
  · rw [Nat.cast_inj]

section Float

variable {s : Scan} {n p c : ℕ}

/-- What has been read of a numeral in `read_float`, with the number of digits behind the point. -/
structure Scan.Reads (s : Scan) (n p : ℕ) : Prop where
  value : (s.intval : ℚ) * 10 ^ s.exp * 10 ^ p = n
  zero : s.intval = 0 ↔ s.ndigit = 0
  exp : s.ndigit ≤ maxIntDigits → s.exp = -p
  point : s.isDecimal = false → p = 0

theorem Scan.reads_start : Scan.Reads {} 0 0 := ⟨by norm_num, by simp, fun _ => rfl, fun _ => rfl⟩

theorem Scan.count_eq (h : s.Reads n p) (c : ℕ) :
    s.count c = if c ≠ 0 ∨ s.ndigit ≠ 0 then s.ndigit + 1 else s.ndigit := by
  rw [Scan.count]
  simp only [ne_eq, h.zero]

/-- As long as digits are kept, they are those of the number. -/
theorem Scan.Reads.intval_eq (h : s.Reads n p) (hs : s.ndigit ≤ maxIntDigits) :
    (s.intval : ℚ) = n := by
  have hvalue := h.value
  rw [h.exp hs, zpow_neg, zpow_natCast] at hvalue
  have hpow : (10 : ℚ) ^ p ≠ 0 := pow_ne_zero _ (by norm_num)
  rwa [inv_mul_cancel_right₀ hpow] at hvalue

/-- One more digit. -/
theorem Scan.Reads.digit (h : s.Reads n p) (c : ℕ) :
    (s.floatDigit c).Reads (n * 10 + if s.count c ≤ maxIntDigits then c else 0)
      (if s.isDecimal then p + 1 else p) := by
  have hcount := Scan.count_eq h c
  have hle : s.ndigit ≤ s.count c := by
    rw [hcount]
    split_ifs <;> omega
  have hten : (10 : ℚ) ≠ 0 := by norm_num
  have hpow : ∀ k : ℕ, (10 : ℚ) ^ k ≠ 0 := fun k => pow_ne_zero _ hten
  rw [Scan.floatDigit]
  by_cases hkeep : s.count c ≤ maxIntDigits
  · have hintval := h.intval_eq (hle.trans hkeep)
    have hexp := h.exp (hle.trans hkeep)
    rw [if_pos hkeep, if_pos hkeep]
    have hexp' : (if s.isDecimal then s.exp - 1 else s.exp) =
        -((if s.isDecimal then p + 1 else p : ℕ) : ℤ) := by
      split_ifs
      · rw [hexp]
        push_cast
        ring
      · exact hexp
    refine ⟨?_, ?_, fun _ => hexp', fun hpoint => ?_⟩
    · simp only
      rw [hexp', zpow_neg, zpow_natCast, inv_mul_cancel_right₀ (hpow _)]
      push_cast
      rw [hintval]
    · have hzero := h.zero
      simp only
      rw [hcount]
      split_ifs with hc
      · rw [iff_false]
        omega
      · obtain ⟨hc0, hd0⟩ := not_or.mp hc
        omega
    · simp only at hpoint
      rw [hpoint]
      exact h.point hpoint
  · have hzero := h.zero
    rw [if_neg hkeep, if_neg hkeep, Nat.add_zero]
    refine ⟨?_, ?_, fun hlt => absurd hlt hkeep, fun hpoint => ?_⟩
    · simp only
      push_cast
      rw [← h.value]
      split_ifs
      · rw [pow_succ]
        ring
      · rw [zpow_add_one₀ hten]
        ring
    · simp only
      have hnine : maxIntDigits < s.ndigit + 1 := by
        refine lt_of_not_ge fun hge => hkeep ?_
        rw [hcount]
        split_ifs <;> omega
      have hdigits : 8 < s.ndigit := by
        rw [maxIntDigits] at hnine
        omega
      refine iff_of_false (fun h0 => ?_) fun h0 => ?_ <;> omega
    · simp only at hpoint
      rw [hpoint]
      exact h.point hpoint

@[simp] theorem Scan.ndigit_floatDigit (s : Scan) (c : ℕ) :
    (s.floatDigit c).ndigit = s.count c := by
  rw [Scan.floatDigit]
  split_ifs <;> rfl

@[simp] theorem Scan.isDecimal_floatDigit (s : Scan) (c : ℕ) :
    (s.floatDigit c).isDecimal = s.isDecimal := by
  rw [Scan.floatDigit]
  split_ifs <;> rfl

@[simp] theorem Scan.ok_floatDigit (s : Scan) (c : ℕ) : (s.floatDigit c).ok = true := by
  rw [Scan.floatDigit]
  split_ifs <;> rfl

theorem Scan.isDecimal_foldl (s : Scan) (digits : List ℕ) :
    (digits.foldl Scan.floatDigit s).isDecimal = s.isDecimal := by
  induction digits generalizing s with
  | nil => rfl
  | cons c digits ih => rw [List.foldl_cons, ih, Scan.isDecimal_floatDigit]

theorem Scan.ok_foldl (s : Scan) (digits : List ℕ) :
    (digits.foldl Scan.floatDigit s).ok = (s.ok || !digits.isEmpty) := by
  induction digits generalizing s with
  | nil => simp
  | cons c digits ih => rw [List.foldl_cons, ih, Scan.ok_floatDigit]; simp

/-- Digits that stand together. -/
theorem Scan.Reads.foldl (h : s.Reads n p) (digits : List ℕ) :
    (digits.foldl Scan.floatDigit s).Reads
      (n * 10 ^ digits.length + number (keep s.ndigit digits))
      (if s.isDecimal then p + digits.length else p) ∧
    (digits.foldl Scan.floatDigit s).ndigit = significant s.ndigit digits := by
  induction digits generalizing s n p with
  | nil => simpa [keep, significant] using h
  | cons c digits ih =>
    have hcount := Scan.count_eq h c
    obtain ⟨hreads, hndigit⟩ := ih (h.digit c)
    rw [List.foldl_cons]
    rw [Scan.ndigit_floatDigit, hcount] at hreads hndigit
    refine ⟨?_, hndigit⟩
    rw [Scan.isDecimal_floatDigit] at hreads
    have hn : n * 10 ^ (c :: digits).length + number (keep s.ndigit (c :: digits)) =
        (n * 10 + if (if c ≠ 0 ∨ s.ndigit ≠ 0 then s.ndigit + 1 else s.ndigit) ≤ maxIntDigits
          then c else 0) * 10 ^ digits.length +
          number (keep (if c ≠ 0 ∨ s.ndigit ≠ 0 then s.ndigit + 1 else s.ndigit) digits) := by
      rw [keep, number_cons, length_keep, List.length_cons, pow_succ]
      ring
    have hp : (if s.isDecimal then p + (c :: digits).length else p) =
        if s.isDecimal then (if s.isDecimal then p + 1 else p) + digits.length
        else if s.isDecimal then p + 1 else p := by
      rw [List.length_cons]
      split_ifs
      · omega
      · rfl
    rw [hn, hp]
    exact hreads

/-- The loop of `read_float` reads the digits that stand together. -/
theorem scanFloat_takeWhile (s : Scan) (text : Bytes) :
    scanFloat s text = scanFloat (((text.takeWhile isDigit).map digitValue).foldl Scan.floatDigit s)
      (text.dropWhile isDigit) := by
  induction text generalizing s with
  | nil => rfl
  | cons b text ih =>
    cases hb : isDigit b with
    | true =>
      rw [scanFloat, if_pos hb, ih, List.takeWhile_cons_of_pos hb, List.dropWhile_cons_of_pos hb,
        List.map_cons, List.foldl_cons]
    | false =>
      have hneg : ¬ isDigit b = true := by
        rw [hb]
        exact Bool.false_ne_true
      rw [List.takeWhile_cons_of_neg hneg, List.dropWhile_cons_of_neg hneg]
      rfl

/-- The loop stops behind the digits that follow the point. -/
theorem scanFloat_dropWhile {s : Scan} (h : s.isDecimal = true) (text : Bytes) :
    scanFloat s (text.dropWhile isDigit) = (s, text.dropWhile isDigit) := by
  cases hdrop : text.dropWhile isDigit with
  | nil => rfl
  | cons b rest =>
    have hb : ¬ isDigit b = true := by
      have hhead := List.head?_dropWhile_not isDigit text
      rw [hdrop] at hhead
      simpa using hhead
    have hpoint : ¬ (b = 0x2E ∧ s.isDecimal = false) := by
      rw [h]
      simp
    rw [scanFloat, if_neg hb, if_neg hpoint]

/-- What `read_float` has read at the end of a numeral. -/
theorem scanFloat_eq (text : Bytes) :
    ∃ s : Scan, scanFloat {} text = (s, (fractionOf (text.dropWhile isDigit)).2) ∧
      s.ok = !(((text.takeWhile isDigit).map digitValue).isEmpty &&
        (fractionOf (text.dropWhile isDigit)).1.isEmpty) ∧
      (s.intval : ℚ) * 10 ^ s.exp =
        number (keep 0 ((text.takeWhile isDigit).map digitValue ++
          (fractionOf (text.dropWhile isDigit)).1.map digitValue)) /
          10 ^ (fractionOf (text.dropWhile isDigit)).1.length := by
  let s₁ := ((text.takeWhile isDigit).map digitValue).foldl Scan.floatDigit {}
  obtain ⟨hwhole, hndigit⟩ :=
    Scan.reads_start.foldl ((text.takeWhile isDigit).map digitValue)
  have hpoint : s₁.isDecimal = false := Scan.isDecimal_foldl _ _
  have hok : s₁.ok = !((text.takeWhile isDigit).map digitValue).isEmpty := Scan.ok_foldl _ _
  rw [scanFloat_takeWhile, fractionOf]
  change ∃ s : Scan, scanFloat s₁ (text.dropWhile isDigit) = _ ∧ _
  cases hdrop : text.dropWhile isDigit with
  | nil =>
    refine ⟨s₁, rfl, ?_, ?_⟩
    · rw [hok]
      simp
    · have hvalue := hwhole.value
      simpa using hvalue
  | cons b rest =>
    have hten : ∀ k : ℕ, (10 : ℚ) ^ k ≠ 0 := fun k => pow_ne_zero _ (by norm_num)
    have hb : isDigit b = false := by
      have hhead := List.head?_dropWhile_not isDigit text
      rw [hdrop] at hhead
      simpa using hhead
    by_cases hb' : b = 0x2E
    · subst hb'
      have hdecimal : Scan.Reads { s₁ with isDecimal := true } _ 0 :=
        ⟨hwhole.value, hwhole.zero, hwhole.exp, fun _ => rfl⟩
      obtain ⟨hreads, -⟩ := hdecimal.foldl ((rest.takeWhile isDigit).map digitValue)
      have hvalue := hreads.value
      have hnumber : number (keep 0 ((text.takeWhile isDigit).map digitValue ++
          (rest.takeWhile isDigit).map digitValue)) =
          (0 * 10 ^ ((text.takeWhile isDigit).map digitValue).length +
            number (keep 0 ((text.takeWhile isDigit).map digitValue))) *
            10 ^ ((rest.takeWhile isDigit).map digitValue).length +
            number (keep s₁.ndigit ((rest.takeWhile isDigit).map digitValue)) := by
        have hdigits : s₁.ndigit = significant 0 ((text.takeWhile isDigit).map digitValue) :=
          hndigit
        rw [keep_append, number_append, length_keep, hdigits]
        ring
      refine ⟨((rest.takeWhile isDigit).map digitValue).foldl Scan.floatDigit
        { s₁ with isDecimal := true }, ?_, ?_, ?_⟩
      · rw [scanFloat_point hpoint, scanFloat_takeWhile, scanFloat_dropWhile]
        · rfl
        · exact Scan.isDecimal_foldl _ _
      · rw [Scan.ok_foldl]
        simp only [hok, List.head?_cons, if_true, List.tail_cons, List.isEmpty_map]
        cases (text.takeWhile isDigit).isEmpty <;> rfl
      · simp only [List.head?_cons, if_true, List.tail_cons]
        rw [eq_div_iff (hten _), hnumber]
        rw [List.length_map] at hvalue ⊢
        simpa using hvalue
    · have hhead : (b :: rest).head? ≠ some 0x2E := fun heq => hb' (Option.some.inj heq)
      have hends : Ends (b :: rest) := ends_cons ⟨hb, hb'⟩ rest
      rw [if_neg hhead]
      refine ⟨s₁, scanFloat_ends s₁ hends, ?_, ?_⟩
      · rw [hok]
        simp
      · have hvalue := hwhole.value
        simpa using hvalue

/-- `read_float` reads the numeral with the digits that are kept. -/
theorem readFloat_eq (text : Bytes) :
    readFloat text = (numeral text).map fun r => (r.1.kept, r.2) := by
  obtain ⟨s, hscan, hok, hvalue⟩ := scanFloat_eq (sign text).2
  rw [readFloat, numeral]
  simp only
  rw [hscan]
  simp only
  by_cases hnone : ((sign text).2.takeWhile isDigit).map digitValue = [] ∧
      (fractionOf ((sign text).2.dropWhile isDigit)).1 = []
  · have hfalse : s.ok = false := by
      rw [hok, hnone.1, hnone.2]
      rfl
    rw [if_pos hnone, hfalse]
    rfl
  · have htrue : s.ok = true := by
      rw [hok, Bool.not_eq_true', Bool.and_eq_false_iff, List.isEmpty_eq_false_iff,
        List.isEmpty_eq_false_iff]
      exact not_and_or.mp hnone
    rw [if_neg hnone, if_pos htrue, Option.map_some, hvalue]
    simp only [Numeral.kept, Numeral.placed, Numeral.digits, List.length_map]
    split_ifs
    · rw [neg_div]
    · rfl

end Float

/-- The number that `read_uint` makes of the digits of a numeral. -/
def Numeral.uint (n : Numeral) : ℕ :=
  (n.fraction.foldl Scan.uintDigit
    { n.whole.foldl Scan.uintDigit {} with isDecimal := true }).intval

section Uint

variable {s : Scan}

@[simp] theorem Scan.isDecimal_uintDigit (s : Scan) (c : ℕ) :
    (s.uintDigit c).isDecimal = s.isDecimal := rfl

@[simp] theorem Scan.ok_uintDigit (s : Scan) (c : ℕ) : (s.uintDigit c).ok = true := rfl

theorem Scan.isDecimal_foldl_uintDigit (s : Scan) (digits : List ℕ) :
    (digits.foldl Scan.uintDigit s).isDecimal = s.isDecimal := by
  induction digits generalizing s with
  | nil => rfl
  | cons c digits ih => rw [List.foldl_cons, ih, Scan.isDecimal_uintDigit]

theorem Scan.ok_foldl_uintDigit (s : Scan) (digits : List ℕ) :
    (digits.foldl Scan.uintDigit s).ok = (s.ok || !digits.isEmpty) := by
  induction digits generalizing s with
  | nil => simp
  | cons c digits ih =>
    rw [List.foldl_cons, ih, Scan.ok_uintDigit]
    simp

/-- The loop of `read_uint` reads the digits in front of the point. -/
theorem scanUint_takeWhile (h : s.isDecimal = false) (text : Bytes) :
    scanUint s text = scanUint (((text.takeWhile isDigit).map digitValue).foldl Scan.uintDigit s)
      (text.dropWhile isDigit) := by
  induction text generalizing s with
  | nil => rfl
  | cons b text ih =>
    cases hb : isDigit b with
    | true =>
      have hzero : ¬ (s.isDecimal = true ∧ digitValue b ≠ 0) := by
        rw [h]
        simp
      rw [scanUint, if_pos hb, if_neg hzero, ih ((Scan.isDecimal_uintDigit s _).trans h),
        List.takeWhile_cons_of_pos hb, List.dropWhile_cons_of_pos hb, List.map_cons,
        List.foldl_cons]
    | false =>
      have hneg : ¬ isDigit b = true := by
        rw [hb]
        exact Bool.false_ne_true
      rw [List.takeWhile_cons_of_neg hneg, List.dropWhile_cons_of_neg hneg]
      rfl

/-- Behind the point it reads zeros. -/
theorem scanUint_zeros (h : s.isDecimal = true) (text : Bytes) :
    scanUint s text =
      if ∀ d ∈ (text.takeWhile isDigit).map digitValue, d = 0 then
        .ok (((text.takeWhile isDigit).map digitValue).foldl Scan.uintDigit s,
          text.dropWhile isDigit)
      else .error .commandValueNotInteger := by
  induction text generalizing s with
  | nil => simp [scanUint]
  | cons b text ih =>
    cases hb : isDigit b with
    | true =>
      rw [scanUint, if_pos hb, List.takeWhile_cons_of_pos hb, List.dropWhile_cons_of_pos hb,
        List.map_cons, List.foldl_cons]
      by_cases hzero : digitValue b = 0
      · rw [if_neg (fun hne => hne.2 hzero), ih ((Scan.isDecimal_uintDigit s _).trans h)]
        simp [hzero]
      · rw [if_pos ⟨h, hzero⟩, if_neg]
        exact fun hall => hzero (hall _ List.mem_cons_self)
    | false =>
      have hneg : ¬ isDigit b = true := by
        rw [hb]
        exact Bool.false_ne_true
      have hpoint : ¬ (b = 0x2E ∧ s.isDecimal = false) := by
        rw [h]
        simp
      rw [scanUint, if_neg hneg, if_neg hpoint, List.takeWhile_cons_of_neg hneg,
        List.dropWhile_cons_of_neg hneg]
      simp

/-- What `read_uint` has read at the end of a numeral. -/
theorem scanUint_eq (text : Bytes) :
    ∃ s : Scan, scanUint {} text =
        (if ∀ d ∈ (fractionOf (text.dropWhile isDigit)).1.map digitValue, d = 0 then
          .ok (s, (fractionOf (text.dropWhile isDigit)).2)
        else .error .commandValueNotInteger) ∧
      s.ok = !(((text.takeWhile isDigit).map digitValue).isEmpty &&
        (fractionOf (text.dropWhile isDigit)).1.isEmpty) ∧
      s.intval = (⟨false, (text.takeWhile isDigit).map digitValue,
        (fractionOf (text.dropWhile isDigit)).1.map digitValue⟩ : Numeral).uint := by
  let s₁ := ((text.takeWhile isDigit).map digitValue).foldl Scan.uintDigit {}
  have hpoint : s₁.isDecimal = false := Scan.isDecimal_foldl_uintDigit _ _
  have hok : s₁.ok = !((text.takeWhile isDigit).map digitValue).isEmpty :=
    Scan.ok_foldl_uintDigit _ _
  rw [scanUint_takeWhile rfl, fractionOf]
  change ∃ s : Scan, scanUint s₁ (text.dropWhile isDigit) = _ ∧ _
  cases hdrop : text.dropWhile isDigit with
  | nil =>
    refine ⟨s₁, ?_, ?_, rfl⟩
    · simp [scanUint]
    · rw [hok]
      simp
  | cons b rest =>
    have hb : isDigit b = false := by
      have hhead := List.head?_dropWhile_not isDigit text
      rw [hdrop] at hhead
      simpa using hhead
    by_cases hb' : b = 0x2E
    · subst hb'
      refine ⟨((rest.takeWhile isDigit).map digitValue).foldl Scan.uintDigit
        { s₁ with isDecimal := true }, ?_, ?_, rfl⟩
      · rw [scanUint, if_neg (by rw [hb]; exact Bool.false_ne_true), if_pos ⟨rfl, hpoint⟩,
          scanUint_zeros rfl]
        rfl
      · rw [Scan.ok_foldl_uintDigit]
        simp only [hok, List.head?_cons, if_true, List.tail_cons, List.isEmpty_map]
        cases (text.takeWhile isDigit).isEmpty <;> rfl
    · have hhead : (b :: rest).head? ≠ some 0x2E := fun heq => hb' (Option.some.inj heq)
      rw [if_neg hhead]
      refine ⟨s₁, ?_, ?_, rfl⟩
      · rw [scanUint_ends s₁ (ends_cons ⟨hb, hb'⟩ rest)]
        simp
      · rw [hok]
        simp

/-- `read_uint` reads the numeral when it is a natural number. -/
theorem readUint_eq (text : Bytes) :
    readUint text =
      if (sign text).1 = true then .error .negativeValue
      else
        match numeral text with
        | none => .error .badNumberFormat
        | some (n, rest) =>
          if ∀ d ∈ n.fraction, d = 0 then .ok (n.uint, rest)
          else .error .commandValueNotInteger := by
  obtain ⟨s, hscan, hok, hvalue⟩ := scanUint_eq (sign text).2
  rw [readUint, numeral]
  simp only
  by_cases hneg : (sign text).1 = true
  · rw [if_pos hneg, if_pos hneg]
  · rw [if_neg hneg, if_neg hneg, hscan]
    by_cases hnone : ((sign text).2.takeWhile isDigit).map digitValue = [] ∧
        (fractionOf ((sign text).2.dropWhile isDigit)).1 = []
    · have hfalse : ¬ s.ok = true := by
        rw [hok, hnone.1, hnone.2]
        exact Bool.false_ne_true
      rw [if_pos hnone, hnone.2]
      simp [hfalse]
    · have htrue : s.ok = true := by
        rw [hok, Bool.not_eq_true', Bool.and_eq_false_iff, List.isEmpty_eq_false_iff,
          List.isEmpty_eq_false_iff]
        exact not_and_or.mp hnone
      rw [if_neg hnone]
      simp only
      split_ifs
      · simp [htrue, hvalue, Numeral.uint]
      · rfl

/-- What is in front of the point is read exactly when it has at most nine digits, and stays large
when it has more. -/
theorem intval_whole {digits : List ℕ} (h : ∀ d ∈ digits, d < 10) :
    number digits < 10 ^ maxIntDigits ∧ (digits.foldl Scan.uintDigit {}).Counts ∧
      (digits.foldl Scan.uintDigit {}).intval = number digits ∨
    10 ^ maxIntDigits ≤ number digits ∧
      10 ^ (maxIntDigits - 1) ≤ (digits.foldl Scan.uintDigit {}).intval := by
  have hpow : 10 ^ maxIntDigits = 1000000000 := rfl
  have hpow' : 10 ^ (maxIntDigits - 1) = 100000000 := rfl
  induction digits using List.reverseRecOn with
  | nil => exact .inl ⟨by decide, Scan.holds_start.counts, rfl⟩
  | append_singleton digits c ih =>
    have hc : c < 10 := h c (List.mem_append_right _ (List.mem_singleton_self c))
    rw [List.foldl_append, List.foldl_cons, List.foldl_nil, number_concat]
    have hdecimal : (digits.foldl Scan.uintDigit {}).isDecimal = false :=
      Scan.isDecimal_foldl_uintDigit _ _
    generalize digits.foldl Scan.uintDigit {} = s at ih hdecimal ⊢
    have hdigit : (s.uintDigit c).ndigit = s.count c ∧ (s.uintDigit c).intval =
        if (s.count c ≤ 9 ∨ c ≤ 4) ∧ s.intval ≤ 429496729 then s.intval * 10 + c
        else s.intval := by
      rw [Scan.uintDigit, hdecimal]
      exact ⟨rfl, rfl⟩
    rw [hdigit.2]
    rcases ih fun d hd => h d (List.mem_append_left _ hd) with ⟨hlt, hcounts, hval⟩ | ⟨hle, hval⟩
    · by_cases hnine : number digits * 10 + c < 10 ^ maxIntDigits
      · have hcount : s.count c ≤ 9 :=
          (Scan.counts_count hcounts hc).ndigit_le (by rw [hval]; exact hnine)
        left
        have hsmall : (s.count c ≤ 9 ∨ c ≤ 4) ∧ s.intval ≤ 429496729 := ⟨.inl hcount, by omega⟩
        rw [if_pos hsmall, hval]
        refine ⟨hnine, ?_, rfl⟩
        have hnew := Scan.counts_count hcounts hc
        refine ⟨?_, ?_⟩
        · rw [hdigit.1, hdigit.2, if_pos hsmall]
          exact hnew.lt
        · rw [hdigit.1, hdigit.2, if_pos hsmall]
          exact hnew.le
      · right
        refine ⟨not_lt.mp hnine, ?_⟩
        split_ifs <;> omega
    · right
      refine ⟨by omega, ?_⟩
      split_ifs <;> omega

theorem intval_uintDigit_zero (s : Scan) :
    (s.uintDigit 0).intval = if s.intval ≤ 429496729 then s.intval * 10 else s.intval := by
  simp [Scan.uintDigit]

/-- There is no room for more digits. -/
theorem intval_zeros_of_lt {zeros : List ℕ} (h : ∀ d ∈ zeros, d = 0)
    (hs : 429496729 < s.intval) : (zeros.foldl Scan.uintDigit s).intval = s.intval := by
  induction zeros generalizing s with
  | nil => rfl
  | cons c zeros ih =>
    obtain rfl : c = 0 := h c List.mem_cons_self
    have hdigit : (s.uintDigit 0).intval = s.intval := by
      rw [intval_uintDigit_zero, if_neg (not_le.mpr hs)]
    rw [List.foldl_cons, ih (fun d hd => h d (List.mem_cons_of_mem 0 hd)) (by rwa [hdigit]), hdigit]

/-- Zeros behind the point count as if they stood in front of it, as long as there is room. -/
theorem intval_zeros {zeros : List ℕ} (h : ∀ d ∈ zeros, d = 0) :
    ∃ j ≤ zeros.length, (zeros.foldl Scan.uintDigit s).intval = s.intval * 10 ^ j ∧
      (j = zeros.length ∨ 429496729 < s.intval * 10 ^ j) := by
  induction zeros generalizing s with
  | nil => exact ⟨0, le_rfl, by simp, .inl rfl⟩
  | cons c zeros ih =>
    by_cases hsmall : s.intval ≤ 429496729
    · obtain rfl : c = 0 := h c List.mem_cons_self
      obtain ⟨j, hj, hval, hor⟩ :=
        ih (s := s.uintDigit 0) fun d hd => h d (List.mem_cons_of_mem 0 hd)
      rw [intval_uintDigit_zero, if_pos hsmall] at hval hor
      refine ⟨j + 1, Nat.succ_le_succ hj, ?_, ?_⟩
      · rw [List.foldl_cons, hval, pow_succ]
        ring
      · rw [pow_succ, mul_comm (10 ^ j), ← mul_assoc]
        exact hor.imp (congrArg Nat.succ) id
    · have hlarge := not_le.mp hsmall
      refine ⟨0, Nat.zero_le _, ?_, .inr ?_⟩
      · rw [intval_zeros_of_lt h hlarge, pow_zero, mul_one]
      · rwa [pow_zero, mul_one]

/-- What `read_uint` makes of a natural number: it is exact up to nine digits, but zeros behind the
point are put in front of it. -/
theorem Numeral.uint_eq (n : Numeral) (hwhole : ∀ d ∈ n.whole, d < 10)
    (hzeros : ∀ d ∈ n.fraction, d = 0) :
    (∃ j ≤ n.fraction.length, n.uint = number n.whole * 10 ^ j ∧
      (j = n.fraction.length ∨ 429496729 < number n.whole * 10 ^ j)) ∨
    10 ^ maxIntDigits ≤ number n.whole ∧ 10 ^ (maxIntDigits - 1) ≤ n.uint := by
  obtain ⟨j, hj, hval, hor⟩ := intval_zeros (s := { n.whole.foldl Scan.uintDigit {} with
    isDecimal := true }) hzeros
  rcases intval_whole hwhole with ⟨-, -, hintval⟩ | ⟨hle, hintval⟩
  · left
    have hsame : ({ n.whole.foldl Scan.uintDigit {} with isDecimal := true } : Scan).intval =
        number n.whole := hintval
    rw [hsame] at hval hor
    exact ⟨j, hj, hval, hor⟩
  · right
    refine ⟨hle, hintval.trans ?_⟩
    rw [Numeral.uint, hval]
    exact Nat.le_mul_of_pos_right _ (pow_pos (by decide) j)

/-- Small numbers are read with all zeros behind the point in front of it. -/
theorem Numeral.uint_eq_of_lt (n : Numeral) (hwhole : ∀ d ∈ n.whole, d < 10)
    (hzeros : ∀ d ∈ n.fraction, d = 0)
    (h : n.uint < 2 ^ 16 ∨ number n.whole * 10 ^ n.fraction.length < 2 ^ 16) :
    n.uint = number n.whole * 10 ^ n.fraction.length := by
  have hnine : 10 ^ maxIntDigits = 1000000000 := rfl
  have height : 10 ^ (maxIntDigits - 1) = 100000000 := rfl
  rcases n.uint_eq hwhole hzeros with ⟨j, hj, huint, rfl | hlarge⟩ | ⟨hle, huint⟩
  · exact huint
  · have hpow : number n.whole * 10 ^ j ≤ number n.whole * 10 ^ n.fraction.length :=
      Nat.mul_le_mul_left _ (Nat.pow_le_pow_right (by decide) hj)
    omega
  · have hpow : number n.whole ≤ number n.whole * 10 ^ n.fraction.length :=
      Nat.le_mul_of_pos_right _ (pow_pos (by decide) _)
    omega

end Uint

/-- The digits of a numeral are digits. -/
theorem numeral_lt {text rest : Bytes} {n : Numeral} (h : numeral text = some (n, rest)) :
    (∀ d ∈ n.whole, d < 10) ∧ ∀ d ∈ n.fraction, d < 10 := by
  have hdigit : ∀ text : Bytes, ∀ d ∈ (text.takeWhile isDigit).map digitValue, d < 10 := by
    intro text d hd
    obtain ⟨b, hb, rfl⟩ := List.mem_map.mp hd
    have hb' : isDigit b = true := List.mem_takeWhile_imp hb
    rw [isDigit, decide_eq_true_iff] at hb'
    have hle : b.toNat ≤ 0x39 := hb'.2
    rw [digitValue]
    omega
  rw [numeral] at h
  simp only at h
  split_ifs at h with hnone
  obtain ⟨rfl, -⟩ := Prod.mk.inj (Option.some.inj h)
  refine ⟨hdigit _, ?_⟩
  simp only
  rw [fractionOf]
  split_ifs
  · exact hdigit _
  · simp

theorem negative_of_numeral {text rest : Bytes} {n : Numeral}
    (h : numeral text = some (n, rest)) : n.negative = (sign text).1 := by
  rw [numeral] at h
  simp only at h
  split_ifs at h
  obtain ⟨rfl, -⟩ := Prod.mk.inj (Option.some.inj h)
  rfl

end Inspector
