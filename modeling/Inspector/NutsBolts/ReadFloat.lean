import Inspector.NutsBolts.Spelling

/-! # Reading decimal numbers

`read_float` with the widths of its variables. The value is the one of the numeral cut after nine
significant digits; the exponent counts the digits dropped in front of the point up and the digits
kept behind it down, and does so in one direction only, so that its last value decides whether it
has ever left its range.
-/

namespace Inspector

open Json

/-- `LINE_BUFFER_SIZE`. -/
def lineBufferSize : ℕ := 257

/-- A natural number cut after its first nine digits. -/
def truncate (m : ℕ) : ℕ :=
  m / 10 ^ ((Nat.digits 10 m).length - maxIntDigits) *
    10 ^ ((Nat.digits 10 m).length - maxIntDigits)

/-- The value cut after nine significant digits. -/
def Numeral.truncated (n : Numeral) : ℚ := n.placed (truncate (number n.digits))

/-- The exponent: the digits dropped in front of the point less those kept behind it. -/
def Numeral.exponent (n : Numeral) : ℤ :=
  ((significant 0 n.whole - maxIntDigits : ℕ) : ℤ) -
    (n.fraction.length -
      (significant 0 n.digits - maxIntDigits - (significant 0 n.whole - maxIntDigits)) : ℕ)

namespace Scan

/-- A digit in `read_float`, where `uint_fast8_t` and `int_fast8_t` have so many bits. -/
def fastDigit (bits : ℕ) (s : Scan) (c : ℕ) : Scan :=
  if s.count c % 2 ^ bits ≤ maxIntDigits then
    { s with
      ok := true
      ndigit := s.count c % 2 ^ bits
      exp := if s.isDecimal then (s.exp - 1).bmod (2 ^ bits) else s.exp
      intval := (s.intval * 10 + c) % 2 ^ 32 }
  else
    { s with
      ok := true
      ndigit := s.count c % 2 ^ bits
      exp := if s.isDecimal then s.exp else (s.exp + 1).bmod (2 ^ bits) }

/-- The counters have not overflowed. -/
structure Fits (bits : ℕ) (s : Scan) : Prop where
  intval : s.intval < 2 ^ 32
  ndigit : s.ndigit < 2 ^ bits
  lower : -2 ^ (bits - 1) ≤ s.exp
  upper : s.exp < 2 ^ (bits - 1)

end Scan

/-- The loop of `read_float` with variables of limited width. -/
def scanFast (bits : ℕ) : Scan → Bytes → Scan × Bytes
  | s, [] => (s, [])
  | s, b :: text =>
    if isDigit b then scanFast bits (s.fastDigit bits (digitValue b)) text
    else if b = 0x2E ∧ s.isDecimal = false then scanFast bits { s with isDecimal := true } text
    else (s, b :: text)

/-- `read_float` with variables of limited width. -/
def readFast (bits : ℕ) (text : Bytes) : Option (ℚ × Bytes) :=
  let (isNegative, text) := sign text
  let (s, rest) := scanFast bits {} text
  let value : ℚ := s.intval * 10 ^ s.exp
  if s.ok then some (if isNegative then -value else value, rest) else none

/-- No counter overflows in the loop. -/
def ScanFits (bits : ℕ) : Scan → Bytes → Prop
  | _, [] => True
  | s, b :: text =>
    if isDigit b then
      (s.floatDigit (digitValue b)).Fits bits ∧ ScanFits bits (s.floatDigit (digitValue b)) text
    else if b = 0x2E ∧ s.isDecimal = false then ScanFits bits { s with isDecimal := true } text
    else True

/-- What reading a decimal number is to do: it succeeds where a numeral begins and takes all of it,
and, counted without limits, its value is the one cut after nine significant digits. On a line no
counter overflows, so that the counters of limited width give the same value. -/
structure ReadsFloat (bits : ℕ) (text : Bytes) : Prop where
  success : (readFast bits text).isSome ↔ ∃ n : Numeral, ∃ s, n.Spells s ∧ s <+: text
  position : ∀ n : Numeral, ∀ s rest, n.Leads text s rest →
    (readFast bits text).map Prod.snd = some rest
  value : ∀ n : Numeral, ∀ s rest, n.Leads text s rest → readFloat text = some (n.truncated, rest)
  counters : ∀ n : Numeral, ∀ s rest, n.Leads text s rest → s.length < lineBufferSize →
    ScanFits bits {} (sign text).2 ∧ readFast bits text = some (n.truncated, rest)

section Truncation

variable {digits : List ℕ} {d : ℕ}

theorem significant_append (k : ℕ) (digits digits' : List ℕ) :
    significant k (digits ++ digits') = significant (significant k digits) digits' := by
  induction digits generalizing k with
  | nil => rfl
  | cons d digits ih => exact ih _

theorem significant_concat (k : ℕ) (digits : List ℕ) (d : ℕ) :
    significant k (digits ++ [d]) =
      if d ≠ 0 ∨ significant k digits ≠ 0 then significant k digits + 1
      else significant k digits :=
  significant_append k digits [d]

/-- The significant digits of a number are those that it is written with. -/
theorem significant_eq (h : ∀ d ∈ digits, d < 10) :
    significant 0 digits = (Nat.digits 10 (number digits)).length := by
  induction digits using List.reverseRecOn with
  | nil => rfl
  | append_singleton digits d ih =>
    have hd : d < 10 := h d (List.mem_append_right _ (List.mem_singleton_self d))
    have hdigits := ih fun d hd => h d (List.mem_append_left _ hd)
    rw [significant_concat, number_concat, hdigits]
    by_cases hzero : number digits = 0
    · by_cases hd0 : d = 0
      · rw [hzero, hd0]
        rfl
      · rw [hzero, if_pos (.inl hd0), Nat.zero_mul, Nat.zero_add, Nat.digits_of_lt 10 d hd0 hd]
        rfl
    · have hlen : (Nat.digits 10 (number digits)).length ≠ 0 := by
        rw [Ne, List.length_eq_zero_iff, Nat.digits_eq_nil_iff_eq_zero]
        exact hzero
      have hdiv : (number digits * 10 + d) / 10 = number digits := by omega
      have hdef := Nat.digits_def' (b := 10) (n := number digits * 10 + d) (by decide) (by omega)
      rw [if_pos (.inr hlen), hdef, hdiv, List.length_cons]

/-- The digits that `read_float` keeps are those of the truncated number. -/
theorem number_keep (h : ∀ d ∈ digits, d < 10) :
    number (keep 0 digits) = truncate (number digits) := by
  rw [truncate, ← significant_eq h]
  induction digits using List.reverseRecOn with
  | nil => rfl
  | append_singleton digits d ih =>
    have hd : d < 10 := h d (List.mem_append_right _ (List.mem_singleton_self d))
    have hkeep := ih fun d hd => h d (List.mem_append_left _ hd)
    rw [keep_append, number_append, hkeep, number_concat, significant_concat]
    generalize significant 0 digits = k
    simp only [keep, List.length_cons, List.length_nil, Nat.zero_add, pow_one]
    by_cases hk : (if d ≠ 0 ∨ k ≠ 0 then k + 1 else k) ≤ maxIntDigits
    · have hle : k ≤ maxIntDigits := by
        split_ifs at hk <;> omega
      rw [if_pos hk, Nat.sub_eq_zero_of_le hk, Nat.sub_eq_zero_of_le hle]
      simp [number]
    · have hnew : d ≠ 0 ∨ k ≠ 0 := by
        by_contra hold
        rw [if_neg hold] at hk
        have hk0 : k = 0 := not_not.mp (not_or.mp hold).2
        rw [hk0] at hk
        exact hk (Nat.zero_le _)
      rw [if_neg hk, if_pos hnew]
      rw [if_pos hnew] at hk
      have hsucc : k + 1 - maxIntDigits = k - maxIntDigits + 1 := by omega
      have hdiv : (number digits * 10 + d) / 10 = number digits := by omega
      rw [hsucc, pow_succ', ← Nat.div_div_eq_div_mul, hdiv]
      simp only [number, List.foldl_cons, List.foldl_nil]
      ring

theorem truncate_of_lt {m : ℕ} (h : m < 10 ^ maxIntDigits) : truncate m = m := by
  have hlen : (Nat.digits 10 m).length ≤ maxIntDigits :=
    (Nat.digits_length_le_iff (by decide) m).mpr h
  rw [truncate, Nat.sub_eq_zero_of_le hlen, pow_zero, Nat.div_one, Nat.mul_one]

/-- A numeral of at most nine significant digits is read exactly. -/
theorem Numeral.truncated_eq_value {n : Numeral} (h : number n.digits < 10 ^ maxIntDigits) :
    n.truncated = n.value := by
  rw [Numeral.truncated, truncate_of_lt h, Numeral.value]

end Truncation

namespace Scan

section Counters

variable {s s' t : Scan} {c bits : ℕ}

/-- How the variables of `read_float` hang together. -/
structure Steady (s : Scan) : Prop where
  zero : s.intval = 0 ↔ s.ndigit = 0
  lt : s.intval < 10 ^ maxIntDigits
  lt_pow : s.ndigit ≤ maxIntDigits → s.intval < 10 ^ s.ndigit
  exp_nonpos : s.ndigit ≤ maxIntDigits → s.exp ≤ 0
  exp_nonneg : s.isDecimal = false → 0 ≤ s.exp

theorem steady_start : Steady {} :=
  ⟨by simp, by decide, fun _ => by decide, fun _ => le_rfl, fun _ => le_rfl⟩

theorem Steady.count_eq (h : s.Steady) (c : ℕ) :
    s.count c = if c ≠ 0 ∨ s.ndigit ≠ 0 then s.ndigit + 1 else s.ndigit := by
  rw [count]
  simp only [ne_eq, h.zero]

theorem Steady.ndigit_le_count (h : s.Steady) (c : ℕ) : s.ndigit ≤ s.count c := by
  rw [h.count_eq]
  split_ifs <;> omega

/-- The accumulator has room for a digit that is kept. -/
theorem Steady.intval_lt (h : s.Steady) (hc : c < 10) (hkeep : s.count c ≤ maxIntDigits) :
    s.intval * 10 + c < 10 ^ s.count c := by
  have hlt := h.lt_pow ((h.ndigit_le_count c).trans hkeep)
  rw [h.count_eq]
  split_ifs with hnew
  · rw [pow_succ]
    omega
  · obtain ⟨hc0, hk0⟩ := not_or.mp hnew
    have hintval := h.zero.mpr (not_not.mp hk0)
    rw [not_not.mp hc0, hintval]
    exact pow_pos (by decide) _

theorem Steady.floatDigit (h : s.Steady) (hc : c < 10) : (s.floatDigit c).Steady := by
  have hcount := h.count_eq c
  have hzero := h.zero
  rw [Scan.floatDigit]
  by_cases hkeep : s.count c ≤ maxIntDigits
  · have hlt := h.intval_lt hc hkeep
    have hexp := h.exp_nonpos ((h.ndigit_le_count c).trans hkeep)
    rw [if_pos hkeep]
    refine ⟨?_, hlt.trans_le (Nat.pow_le_pow_right (by decide) hkeep), fun _ => hlt, fun _ => ?_,
      fun hpoint => ?_⟩
    · simp only
      rw [hcount]
      split_ifs with hnew
      · rw [iff_false]
        omega
      · obtain ⟨hc0, hk0⟩ := not_or.mp hnew
        omega
    · simp only
      split_ifs <;> omega
    · have hpoint : s.isDecimal = false := hpoint
      simp only [hpoint, Bool.false_eq_true, if_false]
      exact h.exp_nonneg hpoint
  · have hnine : 8 < s.ndigit := by
      have hlarge := not_le.mp hkeep
      have hmax : maxIntDigits = 9 := rfl
      rw [hcount] at hlarge
      split_ifs at hlarge <;> omega
    have hle := h.ndigit_le_count c
    rw [if_neg hkeep]
    refine ⟨?_, h.lt, fun hle => absurd hle hkeep, fun hle => absurd hle hkeep, fun hpoint => ?_⟩
    · simp only
      omega
    · have hpoint : s.isDecimal = false := hpoint
      have hexp := h.exp_nonneg hpoint
      simp only [hpoint, Bool.false_eq_true, if_false]
      omega

theorem Steady.point (h : s.Steady) : Steady { s with isDecimal := true } :=
  ⟨h.zero, h.lt, h.lt_pow, h.exp_nonpos, fun hpoint => absurd hpoint.symm Bool.false_ne_true⟩

/-- The counters only ever go on in one direction. -/
structure Before (s t : Scan) : Prop where
  ndigit : s.ndigit ≤ t.ndigit
  exp : t.exp ≤ s.exp ∧ s.exp ≤ 0 ∨ 0 ≤ s.exp ∧ s.exp ≤ t.exp

theorem Before.trans (h : s.Before s') (h' : s'.Before t) : s.Before t := by
  obtain ⟨hn, he⟩ := h
  obtain ⟨hn', he'⟩ := h'
  exact ⟨hn.trans hn', by omega⟩

theorem Steady.before_floatDigit (h : s.Steady) (c : ℕ) : s.Before (s.floatDigit c) := by
  have hle := h.ndigit_le_count c
  rw [Scan.floatDigit]
  by_cases hkeep : s.count c ≤ maxIntDigits
  · have hexp := h.exp_nonpos (hle.trans hkeep)
    rw [if_pos hkeep]
    refine ⟨hle, ?_⟩
    simp only
    split_ifs <;> omega
  · rw [if_neg hkeep]
    refine ⟨hle, ?_⟩
    simp only
    cases hpoint : s.isDecimal with
    | true =>
      rw [if_pos rfl]
      omega
    | false =>
      have hexp := h.exp_nonneg hpoint
      rw [if_neg Bool.false_ne_true]
      omega

end Counters

end Scan

section Loop

variable {s t : Scan} {text rest : Bytes} {n : Numeral} {bits c : ℕ}

theorem digitValue_lt {b : UInt8} (h : isDigit b = true) : digitValue b < 10 := by
  rw [isDigit, decide_eq_true_iff] at h
  have hle : b.toNat ≤ 0x39 := h.2
  rw [digitValue]
  omega

theorem before_scanFloat (h : s.Steady) (text : Bytes) :
    s.Before (scanFloat s text).1 ∧ (scanFloat s text).1.Steady := by
  have hself : s.Before s := ⟨le_rfl, by omega⟩
  induction text generalizing s with
  | nil => exact ⟨hself, h⟩
  | cons b text ih =>
    rw [scanFloat]
    split_ifs with hb hpoint
    · obtain ⟨hbefore, hsteady⟩ := ih (h.floatDigit (digitValue_lt hb)) ⟨le_rfl, by omega⟩
      exact ⟨(h.before_floatDigit _).trans hbefore, hsteady⟩
    · obtain ⟨hbefore, hsteady⟩ := ih h.point ⟨le_rfl, by omega⟩
      exact ⟨⟨hbefore.ndigit, hbefore.exp⟩, hsteady⟩
    · exact ⟨hself, h⟩

/-- What comes before counters that have not overflowed has not overflowed. -/
theorem Scan.Before.fits (hbefore : s.Before t) (h : s.Steady) (ht : t.Fits bits) :
    s.Fits bits := by
  have hlower := ht.lower
  have hupper := ht.upper
  have hpos : (0 : ℤ) < 2 ^ (bits - 1) := pow_pos (by decide) _
  have hexp := hbefore.exp
  exact ⟨h.lt.trans (by decide), hbefore.ndigit.trans_lt ht.ndigit, by omega, by omega⟩

/-- No counter overflows if the last state fits. -/
theorem scanFits_of_fits (h : s.Steady) (hfits : (scanFloat s text).1.Fits bits) :
    ScanFits bits s text := by
  induction text generalizing s with
  | nil => trivial
  | cons b text ih =>
    rw [scanFloat] at hfits
    rw [ScanFits]
    split_ifs at hfits ⊢ with hb hpoint
    · have hsteady := h.floatDigit (digitValue_lt hb)
      obtain ⟨hbefore, -⟩ := before_scanFloat hsteady text
      exact ⟨hbefore.fits hsteady hfits, ih hsteady hfits⟩
    · exact ih h.point hfits

theorem fits_of_scanFits (h : s.Fits bits) (hfits : ScanFits bits s text) :
    (scanFloat s text).1.Fits bits := by
  induction text generalizing s with
  | nil => exact h
  | cons b text ih =>
    rw [scanFloat]
    rw [ScanFits] at hfits
    split_ifs at hfits ⊢ with hb hpoint
    · exact ih hfits.1 hfits.2
    · exact ih ⟨h.intval, h.ndigit, h.lower, h.upper⟩ hfits
    · exact h

/-- A number within its range is what its bits hold. -/
theorem bmod_eq_of_range {e : ℤ} (hbits : 0 < bits) (hlower : -2 ^ (bits - 1) ≤ e)
    (hupper : e < 2 ^ (bits - 1)) : e.bmod (2 ^ bits) = e := by
  obtain ⟨k, rfl⟩ := Nat.exists_eq_add_of_lt hbits
  rw [Nat.zero_add, Nat.add_sub_cancel] at *
  have hpow : (2 : ℕ) ^ (k + 1) = 2 * 2 ^ k := by rw [pow_succ, Nat.mul_comm]
  have hcast : ((2 ^ k : ℕ) : ℤ) = 2 ^ k := by push_cast; rfl
  rw [hpow]
  rw [← hcast] at hlower hupper
  generalize (2 : ℕ) ^ k = m at *
  apply Int.bmod_eq_of_le <;> omega

theorem fastDigit_eq (h : s.Steady) (hbits : 0 < bits) (hc : c < 10)
    (hfits : (s.floatDigit c).Fits bits) : s.fastDigit bits c = s.floatDigit c := by
  have hcount : s.count c % 2 ^ bits = s.count c := by
    apply Nat.mod_eq_of_lt
    have hlt := hfits.ndigit
    rwa [Scan.ndigit_floatDigit] at hlt
  rw [Scan.fastDigit, hcount]
  have hlower := hfits.lower
  have hupper := hfits.upper
  rw [Scan.floatDigit] at hlower hupper ⊢
  split_ifs at hlower hupper ⊢ with hkeep hpoint hpoint
  · have hlt := (h.intval_lt hc hkeep).trans_le (Nat.pow_le_pow_right (by decide) hkeep)
    have hnine : 10 ^ maxIntDigits = 1000000000 := rfl
    rw [bmod_eq_of_range hbits hlower hupper, Nat.mod_eq_of_lt (by omega)]
  · have hlt := (h.intval_lt hc hkeep).trans_le (Nat.pow_le_pow_right (by decide) hkeep)
    have hnine : 10 ^ maxIntDigits = 1000000000 := rfl
    rw [Nat.mod_eq_of_lt (by omega)]
  · rfl
  · rw [bmod_eq_of_range hbits hlower hupper]

/-- As long as nothing overflows the widths make no difference. -/
theorem scanFast_eq (h : s.Steady) (hbits : 0 < bits) (hfits : ScanFits bits s text) :
    scanFast bits s text = scanFloat s text := by
  induction text generalizing s with
  | nil => rfl
  | cons b text ih =>
    rw [ScanFits] at hfits
    rw [scanFast, scanFloat]
    split_ifs at hfits ⊢ with hb hpoint
    · have hc := digitValue_lt hb
      rw [fastDigit_eq h hbits hc hfits.1, ih (h.floatDigit hc) hfits.2]
    · exact ih h.point hfits
    · rfl

end Loop

section Exponent

variable {s t : Scan} {text rest s' : Bytes} {n : Numeral} {bits c : ℕ}

theorem le_significant (k : ℕ) (digits : List ℕ) : k ≤ significant k digits := by
  induction digits generalizing k with
  | nil => exact le_rfl
  | cons d digits ih =>
    refine le_trans ?_ (ih _)
    split_ifs <;> omega

theorem significant_le (k : ℕ) (digits : List ℕ) : significant k digits ≤ k + digits.length := by
  induction digits generalizing k with
  | nil => exact le_rfl
  | cons d digits ih =>
    refine (ih _).trans ?_
    rw [List.length_cons]
    split_ifs <;> omega

/-- The digits that are dropped. -/
def dropped (k : ℕ) (digits : List ℕ) : ℕ :=
  significant k digits - maxIntDigits - (k - maxIntDigits)

theorem dropped_le (k : ℕ) (digits : List ℕ) : dropped k digits ≤ digits.length := by
  have hle := significant_le k digits
  rw [dropped]
  omega

theorem dropped_cons (k c : ℕ) (digits : List ℕ) :
    dropped k (c :: digits) =
      (if (if c ≠ 0 ∨ k ≠ 0 then k + 1 else k) ≤ maxIntDigits then 0 else 1) +
        dropped (if c ≠ 0 ∨ k ≠ 0 then k + 1 else k) digits := by
  have hle := le_significant (if c ≠ 0 ∨ k ≠ 0 then k + 1 else k) digits
  rw [dropped, dropped, significant]
  by_cases hnew : c ≠ 0 ∨ k ≠ 0
  · rw [if_pos hnew] at *
    split_ifs <;> omega
  · rw [if_neg hnew] at *
    have hk : k = 0 := not_not.mp (not_or.mp hnew).2
    rw [hk, if_pos (Nat.zero_le _), Nat.zero_add]

/-- The counters behind digits that stand together. -/
theorem Scan.Steady.foldl (h : s.Steady) {digits : List ℕ} (hlt : ∀ d ∈ digits, d < 10) :
    (digits.foldl Scan.floatDigit s).Steady ∧
      (digits.foldl Scan.floatDigit s).ndigit = significant s.ndigit digits ∧
      (digits.foldl Scan.floatDigit s).exp =
        s.exp + if s.isDecimal then -((digits.length - dropped s.ndigit digits : ℕ) : ℤ)
          else dropped s.ndigit digits := by
  induction digits generalizing s with
  | nil =>
    refine ⟨h, rfl, ?_⟩
    simp [dropped, significant]
  | cons c digits ih =>
    obtain ⟨hsteady, hndigit, hexp⟩ :=
      ih (h.floatDigit (hlt c List.mem_cons_self)) fun d hd => hlt d (List.mem_cons_of_mem c hd)
    have hcount := h.count_eq c
    have hle := dropped_le (s.count c) digits
    rw [Scan.ndigit_floatDigit] at hndigit hexp
    rw [List.foldl_cons]
    refine ⟨hsteady, ?_, ?_⟩
    · rw [hndigit, significant, hcount]
    · rw [hexp, dropped_cons, ← hcount, Scan.isDecimal_floatDigit, List.length_cons,
        Scan.floatDigit]
      by_cases hkeep : s.count c ≤ maxIntDigits
      · rw [if_pos hkeep, if_pos hkeep]
        simp only
        split_ifs <;> omega
      · rw [if_neg hkeep, if_neg hkeep]
        simp only
        split_ifs <;> omega

/-- The counters at the end of a numeral. -/
theorem scanFloat_numeral (h : numeral text = some (n, rest)) :
    (scanFloat {} (sign text).2).1.exp = n.exponent ∧
      (scanFloat {} (sign text).2).1.ndigit = significant 0 n.digits := by
  obtain ⟨hwhole, hfraction⟩ := numeral_lt h
  rw [numeral] at h
  simp only at h
  split_ifs at h
  obtain ⟨rfl, -⟩ := Prod.mk.inj (Option.some.inj h)
  simp only at hwhole hfraction
  generalize (sign text).2 = text at *
  rw [scanFloat_takeWhile, Numeral.exponent, Numeral.digits]
  simp only
  rw [significant_append]
  generalize hw : (text.takeWhile isDigit).map digitValue = w at *
  obtain ⟨hsteady, hndigit, hexp⟩ := Scan.steady_start.foldl hwhole
  have hpoint : (w.foldl Scan.floatDigit {}).isDecimal = false := Scan.isDecimal_foldl _ _
  generalize w.foldl Scan.floatDigit {} = s at *
  simp only [Bool.false_eq_true, if_false, dropped, Nat.zero_sub, Nat.sub_zero,
    Int.zero_add] at hexp
  rw [fractionOf] at hfraction ⊢
  split_ifs at hfraction ⊢ with hhead
  · obtain ⟨tail, htail⟩ := List.head?_eq_some_iff.mp hhead
    rw [htail, List.tail_cons] at hfraction ⊢
    obtain ⟨-, hndigit', hexp'⟩ := hsteady.point.foldl hfraction
    rw [scanFloat_point hpoint, scanFloat_takeWhile, scanFloat_dropWhile (Scan.isDecimal_foldl _ _)]
    refine ⟨?_, hndigit'.trans (congrArg (significant · _) hndigit)⟩
    rw [hexp']
    simp only [if_true, dropped, hexp, hndigit]
    rfl
  · have hends : Ends (text.dropWhile isDigit) := by
      intro b hb
      have hb : (text.dropWhile isDigit).head? = some b := hb
      have hnot := List.head?_dropWhile_not isDigit text
      rw [hb] at hnot
      refine ⟨by simpa using hnot, fun hdot => hhead ?_⟩
      rw [hb, hdot]
    rw [scanFloat_ends s hends]
    simp only [List.map_nil, List.length_nil, significant, Nat.zero_sub, Nat.cast_zero, sub_zero]
    exact ⟨hexp, hndigit⟩

end Exponent

section Law

variable {text rest s : Bytes} {n : Numeral} {bits : ℕ}

theorem readFloat_eq_truncated (text : Bytes) :
    readFloat text = (numeral text).map fun r => (r.1.truncated, r.2) := by
  rw [readFloat_eq]
  cases h : numeral text with
  | none => rfl
  | some r =>
    obtain ⟨n, rest⟩ := r
    obtain ⟨hwhole, hfraction⟩ := numeral_lt h
    rw [Option.map_some, Option.map_some, Numeral.kept, Numeral.truncated, number_keep]
    exact fun d hd => (List.mem_append.mp hd).elim (hwhole d) (hfraction d)

/-- Whatever the widths are, the loop goes on as far. -/
theorem scanFast_position {t : Scan} {s : Scan} (hpoint : s.isDecimal = t.isDecimal)
    (hok : s.ok = t.ok) (text : Bytes) :
    (scanFast bits s text).1.ok = (scanFloat t text).1.ok ∧
      (scanFast bits s text).2 = (scanFloat t text).2 := by
  induction text generalizing s t with
  | nil => exact ⟨hok, rfl⟩
  | cons b text ih =>
    rw [scanFast, scanFloat, hpoint]
    split_ifs
    · apply ih
      · rw [Scan.isDecimal_floatDigit, ← hpoint, Scan.fastDigit]
        split_ifs <;> rfl
      · rw [Scan.ok_floatDigit, Scan.fastDigit]
        split_ifs <;> rfl
    · exact ih rfl hok
    · exact ⟨hok, rfl⟩

theorem readFast_position (bits : ℕ) (text : Bytes) :
    (readFast bits text).map Prod.snd = (numeral text).map Prod.snd := by
  have hfloat : (readFloat text).map Prod.snd = (numeral text).map Prod.snd := by
    rw [readFloat_eq, Option.map_map]
    rfl
  have hsame : (scanFast bits {} (sign text).2).1.ok = (scanFloat {} (sign text).2).1.ok ∧
      (scanFast bits {} (sign text).2).2 = (scanFloat {} (sign text).2).2 :=
    scanFast_position rfl rfl _
  obtain ⟨hok, hrest⟩ := hsame
  rw [← hfloat, readFast, readFloat]
  simp only
  rw [hok, hrest]
  split_ifs <;> rfl

theorem readFast_eq (hbits : 0 < bits) (h : ScanFits bits {} (sign text).2) :
    readFast bits text = readFloat text := by
  rw [readFast, readFloat]
  simp only
  rw [scanFast_eq Scan.steady_start hbits h]

/-- A numeral has no more digits than characters, and fewer if some stand behind the point. -/
theorem Numeral.Spells.length_le (h : n.Spells s) :
    n.digits.length ≤ s.length ∧ (n.digits.length = s.length → n.fraction = []) := by
  obtain ⟨p, hp, rfl, rfl⟩ := h
  simp only [Numeral.digits, Spelling.toNumeral, Spelling.text, List.length_append, List.length_map,
    List.map_eq_nil_iff]
  refine ⟨by omega, fun heq => ?_⟩
  rcases hp.point with ⟨-, hnil⟩ | hpoint
  · exact hnil
  · rw [hpoint, List.length_singleton] at heq
    omega

/-- On a line the counters overflow only through the exponent. -/
theorem scanFits_iff (h : n.Leads text s rest) (hline : s.length < lineBufferSize) (extra : ℕ) :
    ScanFits (8 + extra) {} (sign text).2 ↔
      -2 ^ (7 + extra) ≤ n.exponent ∧ n.exponent < 2 ^ (7 + extra) := by
  have hbits : 8 + extra - 1 = 7 + extra := by omega
  obtain ⟨hexp, hndigit⟩ := scanFloat_numeral (numeral_eq_some_iff.mpr ⟨s, h⟩)
  constructor
  · intro hfits
    have hstart : Scan.Fits (8 + extra) {} := by
      have hpos : (0 : ℤ) < 2 ^ (8 + extra - 1) := pow_pos (by decide) _
      exact ⟨by decide, pow_pos (by decide) _, by simp only; omega, hpos⟩
    have hlast := fits_of_scanFits hstart hfits
    rw [← hexp, ← hbits]
    exact ⟨hlast.lower, hlast.upper⟩
  · rintro ⟨hlower, hupper⟩
    obtain ⟨-, hsteady⟩ := before_scanFloat Scan.steady_start (sign text).2
    refine scanFits_of_fits Scan.steady_start ⟨hsteady.lt.trans (by decide), ?_, ?_, ?_⟩
    · rw [hndigit]
      obtain ⟨hle, hpoint⟩ := h.spelling.length_le
      have hdigits := significant_le 0 n.digits
      have hsize : lineBufferSize = 257 := rfl
      have hpow : 2 ^ 8 * 2 ^ extra = 2 ^ (8 + extra) := (pow_add 2 8 extra).symm
      rcases Nat.eq_zero_or_pos extra with rfl | hextra
      · by_contra hlarge
        have hlen : n.digits.length = s.length := by omega
        have hnil := hpoint hlen
        rw [Numeral.exponent, hnil, List.length_nil, Nat.zero_sub, Nat.cast_zero,
          sub_zero] at hupper
        rw [Numeral.digits, hnil, List.append_nil] at hlarge
        have hmax : maxIntDigits = 9 := rfl
        omega
      · have hone : 2 ^ 1 ≤ 2 ^ extra := Nat.pow_le_pow_right (by decide) hextra
        omega
    · rw [hexp, hbits]
      exact hlower
    · rw [hexp, hbits]
      exact hupper

theorem readsFloat_of_range {extra : ℕ}
    (h : ∀ n : Numeral, ∀ s rest, n.Leads text s rest → s.length < lineBufferSize →
      -2 ^ (7 + extra) ≤ n.exponent ∧ n.exponent < 2 ^ (7 + extra)) :
    ReadsFloat (8 + extra) text := by
  have hvalue : ∀ n : Numeral, ∀ s rest, n.Leads text s rest →
      readFloat text = some (n.truncated, rest) := by
    intro n s rest hleads
    rw [readFloat_eq_truncated, numeral_eq_some_iff.mpr ⟨s, hleads⟩, Option.map_some]
  refine ⟨?_, fun n s rest hleads => ?_, hvalue, fun n s rest hleads hline => ?_⟩
  · have hsome : (readFast (8 + extra) text).isSome = (numeral text).isSome := by
      have hposition := congrArg Option.isSome (readFast_position (8 + extra) text)
      rwa [Option.isSome_map, Option.isSome_map] at hposition
    rw [hsome, Option.isSome_iff_ne_none, Ne, numeral_eq_none_iff]
    push Not
    rfl
  · rw [readFast_position, numeral_eq_some_iff.mpr ⟨s, hleads⟩, Option.map_some]
  · have hfits := (scanFits_iff hleads hline extra).mpr (h n s rest hleads hline)
    exact ⟨hfits, (readFast_eq (by omega) hfits).trans (hvalue n s rest hleads)⟩

/-- `0.00…01`, with so many zeros behind the point. -/
def tiny (zeros : ℕ) : Bytes := 0x30 :: 0x2E :: (List.replicate zeros 0x30 ++ [0x31])

def tinyNumeral (zeros : ℕ) : Numeral := ⟨false, [0], List.replicate zeros 0 ++ [1]⟩

theorem leads_tiny (zeros : ℕ) : (tinyNumeral zeros).Leads (tiny zeros) (tiny zeros) [] := by
  refine ⟨⟨⟨[], [0x30], [0x2E], List.replicate zeros 0x30 ++ [0x31]⟩,
    ⟨.inl rfl, ?_, .inr rfl, ?_, ?_⟩, ?_, rfl⟩, (List.append_nil _).symm,
    fun _ _ _ h => h.length_le⟩
  · intro b hb
    rw [List.mem_singleton.mp hb]
    rfl
  · intro b hb
    rcases List.mem_append.mp hb with hb | hb
    · rw [List.eq_of_mem_replicate hb]
      rfl
    · rw [List.mem_singleton.mp hb]
      rfl
  · exact .inl (List.cons_ne_nil _ _)
  · simp only [Spelling.toNumeral, List.map_append, List.map_replicate]
    rfl

theorem exponent_tiny (zeros : ℕ) : (tinyNumeral zeros).exponent = -(zeros + 1 : ℕ) := by
  have hzeros : ∀ k, significant 0 (List.replicate k 0) = 0 := by
    intro k
    induction k with
    | zero => rfl
    | succ k ih => exact ih
  have hwhole : significant 0 [0] = 0 := rfl
  have hdigits : significant 0 ([0] ++ (List.replicate zeros 0 ++ [1])) = 1 := by
    rw [significant_append, hwhole, significant_append, hzeros]
    rfl
  rw [Numeral.exponent, Numeral.digits, tinyNumeral]
  simp only [hwhole, hdigits, List.length_append, List.length_replicate, List.length_singleton]
  rfl

/-- One more bit is enough. -/
theorem exponent_range (h : n.Spells s) (hline : s.length < lineBufferSize) (extra : ℕ) :
    -2 ^ (7 + (extra + 1)) ≤ n.exponent ∧ n.exponent < 2 ^ (7 + (extra + 1)) := by
  obtain ⟨hle, hpoint⟩ := h.length_le
  have hsize : lineBufferSize = 257 := rfl
  have hmax : maxIntDigits = 9 := rfl
  have hwhole := significant_le 0 n.whole
  have hlen : n.digits.length = n.whole.length + n.fraction.length := List.length_append
  have hpow : (2 : ℤ) ^ 8 ≤ 2 ^ (7 + (extra + 1)) := pow_le_pow_right₀ (by decide) (by omega)
  rw [Numeral.exponent]
  omega

/-- With more than eight bits every numeral is read as it is to be. -/
theorem readsFloat_wide (extra : ℕ) (text : Bytes) : ReadsFloat (8 + (extra + 1)) text :=
  readsFloat_of_range fun _ _ _ hleads hline => exponent_range hleads.spelling hline extra

end Law

end Inspector
