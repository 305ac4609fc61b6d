import Inspector.NutsBolts.Spelling

/-! # Reading natural numbers

`read_uint` on a line: which numerals it reads as the numbers they are. A tenth digit is taken only
when it is at most four, and zeros behind the point are appended to the number as long as there is
room for one more digit.
-/

namespace Inspector

open Json

/-- `read_uint` from a position on a line: the number and the position behind it. -/
def readUintAt (line : Bytes) (charCounter : ℕ) : Except NumberStatus (ℕ × ℕ) :=
  (readUint (line.drop charCounter)).map fun r => (r.1, line.length - r.2.length)

/-- A natural number of 32 bits, without a minus and with nothing but zeros behind the point. -/
structure Numeral.IsUint (n : Numeral) : Prop where
  negative : n.negative = false
  zeros : ∀ d ∈ n.fraction, d = 0
  lt : n.value < 2 ^ 32

/-- The numeral at a position is read exactly if it is a natural number of 32 bits, and is an error
otherwise. -/
def ReadsUint (line : Bytes) (charCounter : ℕ) : Prop :=
  ∀ (n : Numeral) (s rest : Bytes), n.Leads (line.drop charCounter) s rest →
    (n.IsUint → ∃ v : ℕ, v = n.value ∧
      readUintAt line charCounter = .ok (v, charCounter + s.length)) ∧
    (¬n.IsUint → ∃ e, readUintAt line charCounter = .error e)

/-- The numeral has no tenth digit above four, and no zeros behind the point that would still find
room. -/
structure Numeral.Plain (n : Numeral) : Prop where
  digits : number n.whole < 10 ^ maxIntDigits ∨ number n.whole % 10 ≤ 4
  zeros : n.fraction = [] ∨ number n.whole = 0 ∨ 429496729 < number n.whole

section Accumulator

variable {s : Scan} {c : ℕ}

/-- What the accumulator holds while digits are read; dropped digits are counted too. -/
structure Scan.Bounded (s : Scan) : Prop where
  lt : s.intval < 2 ^ 32
  lt_pow : s.isDecimal = false → s.intval < 10 ^ s.ndigit

theorem Scan.Bounded.uintDigit (h : s.Bounded) (hc : c < 10) (hzero : s.isDecimal = true → c = 0) :
    (s.uintDigit c).Bounded := by
  have hcount : s.isDecimal = false → s.intval * 10 + c < 10 ^ s.count c := by
    intro hs
    have hlt := h.lt_pow hs
    rw [Scan.count]
    split_ifs with hnew
    · rw [pow_succ]
      omega
    · obtain ⟨hc0, hintval⟩ := not_or.mp hnew
      rw [not_not.mp hc0, not_not.mp hintval]
      exact pow_pos (by decide) _
  have hlt := h.lt
  constructor
  · simp only [Scan.uintDigit]
    cases hs : s.isDecimal with
    | true =>
      have hc0 := hzero hs
      split_ifs <;> omega
    | false =>
      simp only [Bool.false_eq_true, if_false]
      have hcount := hcount hs
      split_ifs with hfits
      · rcases hfits.1 with hnine | hfour
        · have hpow : 10 ^ s.count c ≤ 10 ^ 9 := Nat.pow_le_pow_right (by decide) hnine
          omega
        · omega
      · exact hlt
  · intro hs
    have hs' : s.isDecimal = false := hs
    have hcount := hcount hs'
    simp only [Scan.uintDigit, hs', Bool.false_eq_true, if_false]
    split_ifs
    · exact hcount
    · omega

theorem Scan.Bounded.foldl {digits : List ℕ} (h : s.Bounded) (hlt : ∀ d ∈ digits, d < 10)
    (hzero : s.isDecimal = true → ∀ d ∈ digits, d = 0) :
    (digits.foldl Scan.uintDigit s).Bounded := by
  induction digits generalizing s with
  | nil => exact h
  | cons c digits ih =>
    refine ih (h.uintDigit (hlt c List.mem_cons_self) fun hs => ?_)
      (fun d hd => hlt d (List.mem_cons_of_mem c hd)) fun hs d hd => ?_
    · exact hzero hs c List.mem_cons_self
    · exact hzero hs d (List.mem_cons_of_mem c hd)

/-- The accumulator of 32 bits does not overflow. -/
theorem Numeral.uint_lt {n : Numeral} (hwhole : ∀ d ∈ n.whole, d < 10)
    (hzeros : ∀ d ∈ n.fraction, d = 0) : n.uint < 2 ^ 32 := by
  have hstart : Scan.Bounded {} := ⟨by decide, fun _ => by decide⟩
  have hfront := hstart.foldl hwhole fun h => absurd h Bool.false_ne_true
  have hpoint : Scan.Bounded { n.whole.foldl Scan.uintDigit {} with isDecimal := true } :=
    ⟨hfront.lt, fun h => absurd h.symm Bool.false_ne_true⟩
  exact (hpoint.foldl (fun d hd => hzeros d hd ▸ by decide) fun _ => hzeros).lt

end Accumulator

section Value

variable {n : Numeral}

theorem number_div_mod (digits : List ℕ) {d : ℕ} (hd : d < 10) :
    number (digits ++ [d]) / 10 = number digits ∧ number (digits ++ [d]) % 10 = d := by
  rw [number_concat]
  omega

/-- Of ten digits the last one may be missing. -/
theorem intval_whole_of_lt {digits : List ℕ} (h : ∀ d ∈ digits, d < 10)
    (hlt : number digits < 2 ^ 32) :
    (digits.foldl Scan.uintDigit {}).intval =
      if number digits < 10 ^ maxIntDigits ∨ number digits % 10 ≤ 4 then number digits
      else number digits / 10 := by
  have hnine : 10 ^ maxIntDigits = 1000000000 := rfl
  rcases intval_whole h with ⟨hsmall, -, hintval⟩ | ⟨hlarge, -⟩
  · rw [if_pos (.inl hsmall), hintval]
  · induction digits using List.reverseRecOn with
    | nil =>
      rw [number_nil] at hlarge
      omega
    | append_singleton digits c _ =>
      have hc : c < 10 := h c (List.mem_append_right _ (List.mem_singleton_self c))
      obtain ⟨hdiv, hmod⟩ := number_div_mod digits hc
      have hdigits : ∀ d ∈ digits, d < 10 := fun d hd => h d (List.mem_append_left _ hd)
      obtain ⟨-, hcounts, hintval⟩ : number digits < 10 ^ maxIntDigits ∧ _ := by
        refine (intval_whole hdigits).resolve_right fun hle => ?_
        omega
      have hdecimal : (digits.foldl Scan.uintDigit {}).isDecimal = false :=
        Scan.isDecimal_foldl_uintDigit _ _
      rw [List.foldl_append, List.foldl_cons, List.foldl_nil, hdiv, hmod]
      generalize digits.foldl Scan.uintDigit {} = s at hcounts hintval hdecimal ⊢
      -- nine digits are counted before the tenth
      have hcount : ¬s.count c ≤ 9 := by
        have hpow := hcounts.lt
        have hten : 9 ≤ s.ndigit := by
          by_contra hle
          have hle' := Nat.pow_le_pow_right (n := 10) (by decide) (show s.ndigit ≤ 8 by omega)
          omega
        rw [Scan.count]
        split_ifs with hnew
        · omega
        · omega
      have hdigit : (s.uintDigit c).intval =
          if c ≤ 4 ∧ s.intval ≤ 429496729 then s.intval * 10 + c else s.intval := by
        rw [Scan.uintDigit, hdecimal]
        simp only [Bool.false_eq_true, if_false, hcount, false_or]
      rw [hdigit, hintval, number_concat]
      split_ifs <;> omega

/-- The number is read as it is exactly when its numeral is plain. -/
theorem Numeral.uint_eq_number_iff (hwhole : ∀ d ∈ n.whole, d < 10)
    (hzeros : ∀ d ∈ n.fraction, d = 0) (hlt : number n.whole < 2 ^ 32) :
    n.uint = number n.whole ↔ n.Plain := by
  have hnine : 10 ^ maxIntDigits = 1000000000 := rfl
  have hintval := intval_whole_of_lt hwhole hlt
  obtain ⟨j, hj, huint, hroom⟩ := intval_zeros (s := { n.whole.foldl Scan.uintDigit {} with
    isDecimal := true }) hzeros
  have huint : n.uint = (n.whole.foldl Scan.uintDigit {}).intval * 10 ^ j := huint
  have hroom : j = n.fraction.length ∨
      429496729 < (n.whole.foldl Scan.uintDigit {}).intval * 10 ^ j := hroom
  constructor
  · intro heq
    rw [huint, hintval] at heq
    rw [hintval] at hroom
    by_cases hdigits : number n.whole < 10 ^ maxIntDigits ∨ number n.whole % 10 ≤ 4
    · rw [if_pos hdigits] at heq hroom
      refine ⟨hdigits, ?_⟩
      rcases Nat.eq_zero_or_pos (number n.whole) with hzero | hpos
      · exact .inr (.inl hzero)
      · have hpow : 10 ^ j = 1 := Nat.eq_of_mul_eq_mul_left hpos (heq.trans (Nat.mul_one _).symm)
        rw [hpow, Nat.mul_one] at hroom
        refine hroom.imp (fun hlen => ?_) .inr
        have hj0 : j = 0 := (Nat.pow_eq_one.mp hpow).resolve_left (by decide)
        exact List.length_eq_zero_iff.mp (hlen.symm.trans hj0)
    · rw [if_neg hdigits] at heq
      obtain ⟨hlarge, hlast⟩ := not_or.mp hdigits
      cases j with
      | zero => omega
      | succ j =>
        rw [pow_succ, ← Nat.mul_assoc] at heq
        omega
  · rintro ⟨hdigits, hfraction⟩
    rw [if_pos hdigits] at hintval
    rcases hfraction with hnil | hzero | hlarge
    · have hj0 : j = 0 := by
        rw [hnil] at hj
        exact Nat.le_zero.mp hj
      rw [huint, hintval, hj0, pow_zero, Nat.mul_one]
    · rw [huint, hintval, hzero, Nat.zero_mul]
    · rw [Numeral.uint, intval_zeros_of_lt hzeros]
      · exact hintval
      · simp only [hintval]
        exact hlarge

end Value

section Position

variable {line : Bytes} {charCounter : ℕ} {n : Numeral} {s rest : Bytes}

/-- The position behind a numeral. -/
theorem Numeral.Leads.length_sub (h : n.Leads (line.drop charCounter) s rest) :
    line.length - rest.length = charCounter + s.length := by
  have hne : s ≠ [] := by
    obtain ⟨p, hp, -, htext⟩ := h.spelling
    rintro rfl
    simp only [Spelling.text, List.append_eq_nil_iff] at htext
    exact hp.digits.elim (fun hw => hw htext.2.1) fun hf => hf htext.2.2.2
  have hlen := congrArg List.length h.text_eq
  rw [List.length_drop, List.length_append] at hlen
  have hpos := List.length_pos_iff.mpr hne
  omega

/-- A numeral with nothing but zeros behind the point and no minus is read, the others are
errors. -/
theorem readUintAt_eq (h : n.Leads (line.drop charCounter) s rest) :
    readUintAt line charCounter =
      if n.negative = true then .error .negativeValue
      else if ∀ d ∈ n.fraction, d = 0 then .ok (n.uint, charCounter + s.length)
      else .error .commandValueNotInteger := by
  have hnumeral := numeral_eq_some_iff.mpr ⟨s, h⟩
  rw [readUintAt, readUint_eq, hnumeral, negative_of_numeral hnumeral]
  rw [← h.length_sub]
  simp only
  split_ifs <;> rfl

/-- Where no numeral begins there is an error, too. -/
theorem readUintAt_of_none
    (h : ∀ n : Numeral, ∀ s, n.Spells s → ¬s <+: line.drop charCounter) :
    ∃ e, readUintAt line charCounter = .error e := by
  rw [readUintAt, readUint_eq, numeral_eq_none_iff.mpr h]
  split_ifs
  · exact ⟨_, rfl⟩
  · exact ⟨_, rfl⟩

/-- A position is read exactly as long as its numeral is no natural number at all, or is plain and
of 32 bits. -/
theorem readsUint_iff (line : Bytes) (charCounter : ℕ) :
    ReadsUint line charCounter ↔
      ∀ (n : Numeral) (s rest : Bytes), n.Leads (line.drop charCounter) s rest →
        n.negative = true ∨ (∃ d ∈ n.fraction, d ≠ 0) ∨ n.value < 2 ^ 32 ∧ n.Plain := by
  apply forall_congr'
  intro n
  refine forall₃_congr fun s rest h => ?_
  have hread := readUintAt_eq h
  obtain ⟨hwhole, -⟩ := numeral_lt (numeral_eq_some_iff.mpr ⟨s, h⟩)
  cases hneg : n.negative with
  | true =>
    rw [if_pos hneg] at hread
    refine iff_of_true ⟨fun huint => ?_, fun _ => ⟨_, hread⟩⟩ (.inl rfl)
    rw [huint.negative] at hneg
    cases hneg
  | false =>
    rw [hneg, if_neg Bool.false_ne_true] at hread
    by_cases hzeros : ∀ d ∈ n.fraction, d = 0
    · have hvalue := Numeral.value_natural hneg hzeros
      rw [if_pos hzeros] at hread
      rw [hread]
      constructor
      · rintro ⟨hok, herror⟩
        right
        right
        by_cases hsmall : n.value < 2 ^ 32
        · obtain ⟨v, hv, heq⟩ := hok ⟨hneg, hzeros, hsmall⟩
          obtain ⟨rfl, -⟩ := Prod.mk.inj (Except.ok.inj heq)
          have hlt : number n.whole < 2 ^ 32 := by exact_mod_cast hvalue ▸ hsmall
          rw [hvalue, Nat.cast_inj] at hv
          exact ⟨hsmall, (Numeral.uint_eq_number_iff hwhole hzeros hlt).mp hv⟩
        · obtain ⟨e, he⟩ := herror fun huint => hsmall huint.lt
          cases he
      · rintro (h0 | ⟨d, hd, hne⟩ | ⟨hsmall, hplain⟩)
        · exact absurd h0 Bool.false_ne_true
        · exact absurd (hzeros d hd) hne
        · have hlt : number n.whole < 2 ^ 32 := by exact_mod_cast hvalue ▸ hsmall
          refine ⟨fun _ => ⟨n.uint, ?_, rfl⟩, fun hnot => absurd ⟨hneg, hzeros, hsmall⟩ hnot⟩
          rw [hvalue, (Numeral.uint_eq_number_iff hwhole hzeros hlt).mpr hplain]
    · have hisUint : ¬n.IsUint := fun huint => hzeros huint.zeros
      rw [if_neg hzeros] at hread
      refine iff_of_true ⟨fun huint => absurd huint hisUint, fun _ => ⟨_, hread⟩⟩ (.inr (.inl ?_))
      simpa only [not_forall, exists_prop] using hzeros

/-- `1.0`. -/
def oneZero : Bytes := [0x31, 0x2E, 0x30]

/-- It is read as ten. -/
theorem not_readsUint_oneZero : ¬ReadsUint oneZero 0 := by
  obtain ⟨s, hs⟩ := numeral_eq_some_iff.mp
    (show numeral (oneZero.drop 0) = some (⟨false, [1], [0]⟩, []) by decide)
  have hvalue : (⟨false, [1], [0]⟩ : Numeral).value = 1 := by
    rw [Numeral.value_natural rfl (by decide)]
    rfl
  intro h
  obtain ⟨v, hv, hread⟩ := (h _ s [] hs).1 ⟨rfl, by decide, by rw [hvalue]; norm_num⟩
  rw [hvalue, Nat.cast_eq_one] at hv
  have hten : readUintAt oneZero 0 = .ok (10, 3) := by decide
  rw [hten, hv] at hread
  cases hread

end Position

end Inspector
