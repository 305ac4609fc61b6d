import Inspector.Settings.StoreSetting
import Mathlib.Data.Nat.Prime.Basic

/-! # Settings that are stored exactly

A directly stored setting takes the numeral at the beginning of a text when it is of the kind of the
setting and within the declared limits. The field then holds the exact value, if `read_float` has
kept all digits, if `read_uint` has not put zeros behind the point in front of it, and if there is
room for it in the field.
-/

namespace Inspector.Settings

open Json

/-- The limit that a text declares. -/
def limit (text : Bytes) : Option ℚ := (numeral text).map fun n => n.1.value

namespace Detail

/-- A value within the declared limits of a setting. -/
def Within (d : Detail) (x : ℚ) : Prop :=
  match d.datatype with
  | .bool => x = 0 ∨ x = 1
  | .bitfield | .xbitfield => x < 2 ^ d.entries
  | .radioButtons => x < d.entries
  | .axisMask => x < 2 ^ nAxis
  | .integer | .decimal | .int8 | .int16 =>
    (match d.minValue.bind limit with
      | some lo => lo ≤ x ∨ d.allowNull = true ∧ x = 0
      | none => 0 ≤ x) ∧
    ∀ hi ∈ d.maxValue.bind limit, x ≤ hi
  | .string | .password | .ipv4 => True

/-- A numeral of the kind of a setting: any one, or a natural number. -/
def Takes (d : Detail) (n : Numeral) : Prop :=
  d.datatype = .decimal ∨ n.negative = false ∧ ∀ c ∈ n.fraction, c = 0

/-- A setting is accepted with the exact value of a numeral of its kind within the limits, or
nothing is changed or saved. -/
def StoresExactly (d : Detail) (svalue : Bytes) (s : State) (r : Status × State) : Prop :=
  (r.1 = .ok → ∃ n rest, numeral (svalue.dropWhile (· = 0x20)) = some (n, rest) ∧ d.Takes n ∧
    d.Within n.value ∧ (r.2.settings d.value).number = some n.value) ∧
  (r.1 ≠ .ok → r.2.settings = s.settings ∧ r.2.nvs = s.nvs)

/-- The numeral of a text is read and stored exactly: a decimal one has no digits but zeros behind
the ninth significant one, a natural one has no zeros behind a point and fits into 16 bits, unless
what is read is out of the limits. -/
def ReadsExactly (d : Detail) (svalue : Bytes) : Prop :=
  ∀ n rest, numeral (svalue.dropWhile (· = 0x20)) = some (n, rest) → d.Takes n →
    if d.datatype = .decimal then keep 0 n.digits = n.digits ∨ ¬ d.Within n.kept
    else
      (n.fraction = [] ∨ number n.whole = 0 ∨
        ¬ d.Within (number n.whole * 10 ^ n.fraction.length : ℕ)) ∧
      (d.Within (number n.whole) → number n.whole < 2 ^ 16)

/-- What the rows of the table have in common. -/
structure Sound (d : Detail) : Prop where
  direct : d.type.isFn = false
  core : d.datatype = .decimal → d.type.isCore = true
  datatype : d.datatype ∈ [.bitfield, .radioButtons, .axisMask, .int8, .int16, .decimal]
  entries : d.datatype ∈ [.bitfield, .radioButtons] → d.entries ≤ 3
  float : d.datatype = .decimal → ∀ text, d.minValue = some text ∨ d.maxValue = some text →
    ∃ x rest, readFloat text = some (x, rest) ∧ limit text = some x
  uint : d.datatype ∈ [.int8, .int16] → ∀ text, d.minValue = some text ∨ d.maxValue = some text →
    ∃ m rest, readUint text = .ok (m, rest) ∧ limit text = some (m : ℚ)
  int8 : d.datatype = .int8 → ∃ hi ≤ (255 : ℚ), d.maxValue.bind limit = some hi
  int16 : d.datatype = .int16 → (d.minValue = none ∧ d.maxValue = none) ∨
    ∃ hi ≤ (65535 : ℚ), d.maxValue.bind limit = some hi

variable {d : Detail}

theorem chain_ok {a b : Status} : (if a ≠ .ok then a else b) = .ok ↔ a = .ok ∧ b = .ok := by
  by_cases ha : a = .ok
  · rw [if_neg (not_not.mpr ha)]
    exact ⟨fun hb => ⟨ha, hb⟩, And.right⟩
  · rw [if_pos ha]
    exact ⟨fun h => absurd h ha, fun h => absurd h.1 ha⟩

theorem range_ok {p : Prop} [Decidable p] :
    (if p then Status.settingValueOutOfRange else .ok) = .ok ↔ ¬ p := by
  split_ifs with hp <;> simp [hp]

/-- Validation compares a float with the declared limits. -/
theorem Sound.validateValue_eq (hd : d.Sound) (hdec : d.datatype = .decimal) (x : ℚ) :
    validateValue d (some x) = .ok ↔ d.Within x := by
  rw [Within, hdec, validateValue, chain_ok]
  refine and_congr ?_ ?_
  · cases hmin : d.minValue with
    | none =>
      simp only [Option.bind_none, Option.any_some, decide_eq_true_eq]
      split_ifs with hx <;> simp [not_le.mpr, not_lt.mp, hx]
    | some text =>
      obtain ⟨lo, rest, hread, hlimit⟩ := hd.float hdec text (.inl hmin)
      simp only [hread, range_ok, not_not, Option.bind_some, hlimit, Option.any_some,
        decide_eq_true_eq, Option.some.injEq]
  · cases hmax : d.maxValue with
    | none => simp
    | some text =>
      obtain ⟨hi, rest, hread, hlimit⟩ := hd.float hdec text (.inr hmax)
      simp only [hread, range_ok, Option.bind_some, hlimit, Option.any_some, decide_eq_true_eq,
        not_lt, Option.mem_def, Option.some.injEq, forall_eq']

/-- Validation compares an unsigned integer with the declared limits. -/
theorem Sound.validateUintValue_eq (hd : d.Sound) (hint : d.datatype = .int8 ∨ d.datatype = .int16)
    (m : ℕ) : validateUintValue d m = .ok ↔ d.Within m := by
  have hmem : d.datatype ∈ [Datatype.int8, .int16] := by
    rcases hint with h | h <;> simp [h]
  have hwithin : d.Within m ↔
      (match d.minValue.bind limit with
        | some lo => lo ≤ m ∨ d.allowNull = true ∧ (m : ℚ) = 0
        | none => (0 : ℚ) ≤ m) ∧ ∀ hi ∈ d.maxValue.bind limit, (m : ℚ) ≤ hi := by
    rcases hint with h | h <;> rw [Within, h]
  rw [hwithin, validateUintValue, chain_ok]
  refine and_congr ?_ ?_
  · cases hmin : d.minValue with
    | none => simp
    | some text =>
      obtain ⟨lo, rest, hread, hlimit⟩ := hd.uint hmem text (.inl hmin)
      simp only [hread, range_ok, not_not, Option.bind_some, hlimit, Nat.cast_le, Nat.cast_eq_zero]
  · cases hmax : d.maxValue with
    | none => simp
    | some text =>
      obtain ⟨hi, rest, hread, hlimit⟩ := hd.uint hmem text (.inr hmax)
      simp only [hread, range_ok, Option.bind_some, hlimit, not_lt, Option.mem_def,
        Option.some.injEq, forall_eq', Nat.cast_le]

/-- The validation of a natural number. -/
theorem Sound.settingValidateMeUint_eq (hd : d.Sound) (hdec : d.datatype ≠ .decimal) {svalue rest}
    {m : ℕ} (h : readUint svalue = .ok (m, rest)) :
    settingValidateMeUint d svalue = .ok ↔ d.Within m := by
  have hdatatype := hd.datatype
  simp only [List.mem_cons, List.not_mem_nil, or_false] at hdatatype
  rw [settingValidateMeUint, h]
  rcases hdatatype with ht | ht | ht | ht | ht | ht
  · simp only [ht, Within, range_ok, not_le]
    exact_mod_cast Iff.rfl
  · simp only [ht, Within, range_ok, not_le, Nat.cast_lt]
  · simp only [ht, Within, range_ok, not_le]
    exact_mod_cast Iff.rfl
  · simp only [ht]
    exact hd.validateUintValue_eq (.inl ht) m
  · simp only [ht]
    exact hd.validateUintValue_eq (.inr ht) m
  · exact absurd ht hdec

theorem le_of_within {m : ℕ} {hi : ℚ} (hint : d.datatype = .int8 ∨ d.datatype = .int16)
    (hhi : d.maxValue.bind limit = some hi) (h : d.Within m) : (m : ℚ) ≤ hi := by
  rcases hint with ht | ht <;> rw [Within, ht] at h <;> exact h.2 hi hhi

theorem Sound.datatype_cases (hd : d.Sound) (hdec : d.datatype ≠ .decimal) :
    d.datatype = .bitfield ∨ d.datatype = .radioButtons ∨ d.datatype = .axisMask ∨
      d.datatype = .int8 ∨ d.datatype = .int16 := by
  have hdatatype := hd.datatype
  simp only [List.mem_cons, List.not_mem_nil, or_false] at hdatatype
  tauto

/-- A value within the limits fits into a byte, where that is what is stored. -/
theorem Sound.lt_byte (hd : d.Sound) (hdec : d.datatype ≠ .decimal) (h16 : d.datatype ≠ .int16)
    {m : ℕ} (h : d.Within m) : m < 2 ^ 8 := by
  rcases hd.datatype_cases hdec with ht | ht | ht | ht | ht
  · have hpow : 2 ^ d.entries ≤ 2 ^ 3 :=
      Nat.pow_le_pow_right (by decide) (hd.entries (by simp [ht]))
    rw [Within, ht] at h
    have hlt : m < 2 ^ d.entries := by exact_mod_cast h
    omega
  · have hentries := hd.entries (by simp [ht])
    rw [Within, ht] at h
    have hlt : m < d.entries := by exact_mod_cast h
    omega
  · rw [Within, ht] at h
    have hlt : m < 2 ^ nAxis := by exact_mod_cast h
    exact hlt.trans (by decide)
  · obtain ⟨hi, hle, hhi⟩ := hd.int8 ht
    have hm : m ≤ 255 := by exact_mod_cast (le_of_within (.inl ht) hhi h).trans hle
    omega
  · exact absurd ht h16

/-- A setting takes no more than 16 bits, or any natural number. -/
theorem Sound.lt_or_unlimited (hd : d.Sound) (hdec : d.datatype ≠ .decimal) :
    (∀ m : ℕ, d.Within m → m < 2 ^ 16) ∨ ∀ m : ℕ, d.Within m := by
  by_cases h16 : d.datatype = .int16
  · rcases hd.int16 h16 with ⟨hlo, hhi⟩ | ⟨hi, hle, hhi⟩
    · right
      intro m
      rw [Within, h16]
      simp [hlo, hhi]
    · left
      intro m h
      have hm : m ≤ 65535 := by exact_mod_cast (le_of_within (.inr h16) hhi h).trans hle
      omega
  · left
    intro m h
    have hm := hd.lt_byte hdec h16 h
    omega

theorem toNat_axisMask : ∀ m < 2 ^ nAxis,
    (UInt8.ofNat m &&& UInt8.ofNat (2 ^ nAxis - 1)).toNat = m := by
  decide

/-- What is read back from the field of a natural number. -/
theorem Sound.cell_number (hd : d.Sound) (hdec : d.datatype ≠ .decimal) (value : Option ℚ) (m : ℕ)
    (svalue : Bytes) :
    ∃ cell, d.cell value m svalue = some cell ∧
      (d.Within m → cell.number = some ((m % 2 ^ 16 : ℕ) : ℚ)) := by
  have hbyte : d.datatype ≠ .int16 → d.Within m → (UInt8.ofNat m).toNat = m % 2 ^ 16 := by
    intro h16 h
    have hm := hd.lt_byte hdec h16 h
    rw [UInt8.toNat_ofNat', Nat.mod_eq_of_lt hm, Nat.mod_eq_of_lt (by omega)]
  rcases hd.datatype_cases hdec with ht | ht | ht | ht | ht
  · refine ⟨.uint8 (UInt8.ofNat m), by rw [cell, ht], fun h => ?_⟩
    rw [Cell.number, hbyte (by simp [ht]) h]
  · refine ⟨.uint8 (UInt8.ofNat m), by rw [cell, ht], fun h => ?_⟩
    rw [Cell.number, hbyte (by simp [ht]) h]
  · refine ⟨.uint8 (UInt8.ofNat m &&& UInt8.ofNat (2 ^ nAxis - 1)), by rw [cell, ht], fun h => ?_⟩
    rw [Within, ht] at h
    have hm : m < 2 ^ nAxis := by exact_mod_cast h
    rw [Cell.number, toNat_axisMask m hm, Nat.mod_eq_of_lt (hm.trans (by decide))]
  · refine ⟨.uint8 (UInt8.ofNat m), by rw [cell, ht], fun h => ?_⟩
    rw [Cell.number, hbyte (by simp [ht]) h]
  · refine ⟨.uint16 (UInt16.ofNat m), by rw [cell, ht], fun _ => ?_⟩
    rw [Cell.number, UInt16.toNat_ofNat']

end Detail

section Store

variable {setter : Setter} {d : Detail} {svalue : Bytes} {s : State}

/-- A setting that is not accepted leaves the settings and the storage as they are. -/
theorem settingsStoreSetting_unchanged {setting : Option Detail}
    (hdirect : ∀ d ∈ setting, d.type.isFn = false)
    (h : (settingsStoreSetting setter setting svalue s).1 ≠ .ok) :
    (settingsStoreSetting setter setting svalue s).2 = s := by
  cases setting with
  | none => rfl
  | some d =>
    rw [settingsStoreSetting] at h ⊢
    simp only [Detail.store, hdirect d rfl, Bool.false_eq_true, if_false] at h ⊢
    generalize d.read (svalue.dropWhile (· = 0x20)) = r at h ⊢
    by_cases hread : (d.datatype = .decimal ∧ r.1 = none ∨ r.2 = none) ∧ d.type.isCore
    · rw [if_pos hread]
    · rw [if_neg hread] at h ⊢
      by_cases hvalid : settingValidateMe s.webuiConnected d r.1 (svalue.dropWhile (· = 0x20)) ≠ .ok
      · rw [if_pos hvalid]
      · rw [if_neg hvalid] at h ⊢
        cases hcell : d.cell r.1 (r.2.getD 0) (svalue.dropWhile (· = 0x20)) with
        | none => rfl
        | some cell =>
          rw [hcell] at h
          exact absurd rfl h

/-- A setting whose value has been read is stored when it is valid. -/
theorem settingsStoreSetting_read (hd : d.type.isFn = false) {value : Option ℚ} {m : ℕ}
    (hread : d.read (svalue.dropWhile (· = 0x20)) = (value, some m))
    (hvalue : d.datatype = .decimal → value ≠ none) {cell : Cell}
    (hcell : d.cell value m (svalue.dropWhile (· = 0x20)) = some cell) :
    settingsStoreSetting setter (some d) svalue s =
      let status := settingValidateMe s.webuiConnected d value (svalue.dropWhile (· = 0x20))
      if status ≠ .ok then (status, s)
      else (.ok, { s with settings := Function.update s.settings d.value cell }.save) := by
  have hcore : ¬ ((d.datatype = .decimal ∧ value = none ∨ some m = none) ∧ d.type.isCore) := by
    rintro ⟨⟨hdec, hnone⟩ | hnone, -⟩
    · exact hvalue hdec hnone
    · exact Option.some_ne_none m hnone
  rw [settingsStoreSetting]
  simp only [hread, Detail.store, hd, Bool.false_eq_true, if_false, Option.getD_some, hcell]
  rw [if_neg hcore]
  rfl

namespace Detail

theorem Sound.isString_eq (hd : d.Sound) (hdec : d.datatype ≠ .decimal) :
    d.datatype.isString = false := by
  rcases hd.datatype_cases hdec with ht | ht | ht | ht | ht <;> rw [ht] <;> rfl

theorem Sound.settingValidateMe_uint (hd : d.Sound) (hdec : d.datatype ≠ .decimal)
    (webui : Bool) (value : Option ℚ) (svalue : Bytes) :
    settingValidateMe webui d value svalue = settingValidateMeUint d svalue := by
  rcases hd.datatype_cases hdec with ht | ht | ht | ht | ht <;> rw [settingValidateMe, ht]

variable (setter s) in
/-- A text without a natural number is not accepted. -/
theorem Sound.store_uint_error (hd : d.Sound) (hdec : d.datatype ≠ .decimal) {e : NumberStatus}
    (h : readUint (svalue.dropWhile (· = 0x20)) = .error e) :
    (settingsStoreSetting setter (some d) svalue s).1 ≠ .ok := by
  have hread : d.read (svalue.dropWhile (· = 0x20)) = (none, none) := by
    rw [read, if_neg hdec, hd.isString_eq hdec, h]
    rfl
  have hvalid : settingValidateMe s.webuiConnected d none (svalue.dropWhile (· = 0x20)) ≠ .ok := by
    rw [hd.settingValidateMe_uint hdec, settingValidateMeUint, h]
    cases e <;> simp [Status.ofNumber]
  rw [settingsStoreSetting]
  simp only [hread]
  split_ifs
  · simp
  · exact hvalid

variable (setter s) in
/-- A natural number is accepted when it is within the limits, and its last 16 bits are stored. -/
theorem Sound.store_uint (hd : d.Sound) (hdec : d.datatype ≠ .decimal) {m : ℕ} {rest : Bytes}
    (h : readUint (svalue.dropWhile (· = 0x20)) = .ok (m, rest)) :
    ((settingsStoreSetting setter (some d) svalue s).1 = .ok ↔ d.Within m) ∧
    (d.Within m → ((settingsStoreSetting setter (some d) svalue s).2.settings d.value).number =
      some ((m % 2 ^ 16 : ℕ) : ℚ)) := by
  have hread : d.read (svalue.dropWhile (· = 0x20)) = (none, some m) := by
    rw [read, if_neg hdec, hd.isString_eq hdec, h]
    rfl
  obtain ⟨cell, hcell, hnumber⟩ := hd.cell_number hdec none m (svalue.dropWhile (· = 0x20))
  have hvalid := hd.settingValidateMe_uint hdec s.webuiConnected none
    (svalue.dropWhile (· = 0x20))
  rw [settingsStoreSetting_read hd.direct hread (fun ht => absurd ht hdec) hcell]
  simp only [hvalid]
  rw [← hd.settingValidateMeUint_eq hdec h]
  by_cases hok : settingValidateMeUint d (svalue.dropWhile (· = 0x20)) = .ok
  · rw [if_neg (not_not.mpr hok)]
    refine ⟨iff_of_true rfl hok, fun _ => ?_⟩
    simp only [State.save, Function.update_self]
    exact hnumber ((hd.settingValidateMeUint_eq hdec h).mp hok)
  · rw [if_pos hok]
    exact ⟨Iff.rfl, fun h => absurd h hok⟩

variable (setter s) in
/-- A text without a number is not accepted. -/
theorem Sound.store_float_none (hd : d.Sound) (hdec : d.datatype = .decimal)
    (h : readFloat (svalue.dropWhile (· = 0x20)) = none) :
    (settingsStoreSetting setter (some d) svalue s).1 ≠ .ok := by
  have hread : d.read (svalue.dropWhile (· = 0x20)) = (none, some 0) := by
    rw [read, if_pos hdec, h]
    rfl
  rw [settingsStoreSetting]
  simp only [hread]
  rw [if_pos ⟨.inl ⟨hdec, trivial⟩, hd.core hdec⟩]
  simp

variable (setter s) in
/-- A number is accepted when what has been read is within the limits, and that is stored. -/
theorem Sound.store_float (hd : d.Sound) (hdec : d.datatype = .decimal) {x : ℚ} {rest : Bytes}
    (h : readFloat (svalue.dropWhile (· = 0x20)) = some (x, rest)) :
    ((settingsStoreSetting setter (some d) svalue s).1 = .ok ↔ d.Within x) ∧
    (d.Within x → ((settingsStoreSetting setter (some d) svalue s).2.settings d.value).number =
      some x) := by
  have hread : d.read (svalue.dropWhile (· = 0x20)) = (some x, some 0) := by
    rw [read, if_pos hdec, h]
    rfl
  have hcell : d.cell (some x) 0 (svalue.dropWhile (· = 0x20)) = some (.float (some x)) := by
    rw [cell, hdec]
  have hvalid : settingValidateMe s.webuiConnected d (some x) (svalue.dropWhile (· = 0x20)) =
      validateValue d (some x) := by
    rw [settingValidateMe, hdec]
  rw [settingsStoreSetting_read hd.direct hread (fun _ => Option.some_ne_none x) hcell]
  simp only [hvalid]
  rw [← hd.validateValue_eq hdec x]
  by_cases hok : validateValue d (some x) = .ok
  · rw [if_neg (not_not.mpr hok)]
    refine ⟨iff_of_true rfl hok, fun _ => ?_⟩
    simp only [State.save, Function.update_self, Cell.number]
  · rw [if_pos hok]
    exact ⟨Iff.rfl, fun h => absurd h hok⟩

/-- The sixteen bits of a number with zeros appended are the number only if it is zero. -/
theorem eq_zero_of_mod {m j : ℕ} (hm : m < 2 ^ 16) (hj : j ≠ 0) (h : m * 10 ^ j % 2 ^ 16 = m) :
    m = 0 := by
  have hone : 1 ≤ 10 ^ j := Nat.one_le_pow _ _ (by decide)
  have hmod : m ≡ m * 10 ^ j [MOD 2 ^ 16] := by
    rw [Nat.ModEq, h, Nat.mod_eq_of_lt hm]
  have hdvd : 2 ^ 16 ∣ m * (10 ^ j - 1) := by
    rw [Nat.mul_sub, Nat.mul_one]
    exact (Nat.modEq_iff_dvd' (Nat.le_mul_of_pos_right m hone)).mp hmod
  have hodd : Odd (10 ^ j - 1) :=
    Nat.Even.sub_odd hone ((by decide : Even 10).pow_of_ne_zero hj) odd_one
  have hcoprime : Nat.Coprime (2 ^ 16) (10 ^ j - 1) :=
    Nat.Coprime.pow_left 16 (Nat.coprime_two_left.mpr hodd)
  exact Nat.eq_zero_of_dvd_of_lt (hcoprime.dvd_of_dvd_mul_right hdvd) hm

/-- A natural number is stored exactly when no zeros have been put in front of the point, and it
fits into 16 bits. -/
theorem Sound.uint_exact_iff (hd : d.Sound) (hdec : d.datatype ≠ .decimal) {n : Numeral}
    (hwhole : ∀ c ∈ n.whole, c < 10) (hzeros : ∀ c ∈ n.fraction, c = 0) :
    (d.Within n.uint → d.Within (number n.whole) ∧ n.uint % 2 ^ 16 = number n.whole) ↔
      (n.fraction = [] ∨ number n.whole = 0 ∨
        ¬ d.Within (number n.whole * 10 ^ n.fraction.length : ℕ)) ∧
      (d.Within (number n.whole) → number n.whole < 2 ^ 16) := by
  rcases hd.lt_or_unlimited hdec with hlimited | hall
  · constructor
    · refine fun h => ⟨?_, hlimited _⟩
      by_contra hcon
      obtain ⟨hfraction, hne, hwithin⟩ := by simpa only [not_or, not_not] using hcon
      have huint := n.uint_eq_of_lt hwhole hzeros (.inr (hlimited _ hwithin))
      obtain ⟨-, hmod⟩ := h (huint ▸ hwithin)
      rw [huint, Nat.mod_eq_of_lt (hlimited _ hwithin)] at hmod
      have hpow : 10 ^ n.fraction.length = 1 :=
        Nat.eq_of_mul_eq_mul_left (Nat.pos_of_ne_zero hne) (by rw [hmod, Nat.mul_one])
      have hlen : n.fraction.length ≠ 0 := fun h0 => hfraction (List.length_eq_zero_iff.mp h0)
      exact absurd hpow (Nat.one_lt_pow hlen (by decide)).ne'
    · rintro ⟨hor, -⟩ hwithin
      have huint := n.uint_eq_of_lt hwhole hzeros (.inl (hlimited _ hwithin))
      have hsame : n.uint = number n.whole := by
        rcases hor with hfraction | hzero | hnot
        · rw [huint, hfraction, List.length_nil, pow_zero, Nat.mul_one]
        · rw [huint, hzero, Nat.zero_mul]
        · exact absurd (huint ▸ hwithin) hnot
      rw [← hsame]
      exact ⟨hwithin, Nat.mod_eq_of_lt (hlimited _ hwithin)⟩
  · have hnine : 10 ^ maxIntDigits = 1000000000 := rfl
    simp only [hall, true_and, not_true_eq_false, or_false, forall_const]
    constructor
    · intro hmod
      have hlt : number n.whole < 2 ^ 16 := hmod ▸ Nat.mod_lt _ (by decide)
      refine ⟨?_, hlt⟩
      rcases n.uint_eq hwhole hzeros with ⟨j, hj, huint, hor⟩ | ⟨hle, -⟩
      · rcases Nat.eq_zero_or_pos j with rfl | hpos
        · rw [pow_zero, Nat.mul_one] at hor
          left
          exact List.length_eq_zero_iff.mp (by omega)
        · right
          exact eq_zero_of_mod hlt hpos.ne' (huint ▸ hmod)
      · omega
    · rintro ⟨hor, hlt⟩
      have hsame : n.uint = number n.whole := by
        rcases n.uint_eq hwhole hzeros with ⟨j, hj, huint, -⟩ | ⟨hle, -⟩
        · rcases hor with hfraction | hzero
          · rw [hfraction, List.length_nil, Nat.le_zero] at hj
            rw [huint, hj, pow_zero, Nat.mul_one]
          · rw [huint, hzero, Nat.zero_mul]
        · omega
      rw [hsame, Nat.mod_eq_of_lt hlt]

/-- Only what is accepted matters. -/
theorem Sound.storesExactly_accepted (hd : d.Sound) :
    d.StoresExactly svalue s (settingsStoreSetting setter (some d) svalue s) ↔
      ((settingsStoreSetting setter (some d) svalue s).1 = .ok →
        ∃ n rest, numeral (svalue.dropWhile (· = 0x20)) = some (n, rest) ∧ d.Takes n ∧
          d.Within n.value ∧
          ((settingsStoreSetting setter (some d) svalue s).2.settings d.value).number =
            some n.value) := by
  refine and_iff_left fun hne => ?_
  have hsame := settingsStoreSetting_unchanged (fun d' hd' => Option.some.inj hd' ▸ hd.direct) hne
  rw [hsame]
  exact ⟨rfl, rfl⟩

theorem Sound.storesExactly_iff_float (hd : d.Sound) (hdec : d.datatype = .decimal) :
    d.StoresExactly svalue s (settingsStoreSetting setter (some d) svalue s) ↔
      d.ReadsExactly svalue := by
  rw [hd.storesExactly_accepted, ReadsExactly]
  simp only [hdec, if_true]
  have htext := readFloat_eq (svalue.dropWhile (· = 0x20))
  cases hnumeral : numeral (svalue.dropWhile (· = 0x20)) with
  | none =>
    rw [hnumeral, Option.map_none] at htext
    have hne := hd.store_float_none setter s hdec htext
    exact iff_of_true (fun hok => absurd hok hne) fun n rest h => absurd h (by simp)
  | some p =>
    obtain ⟨n, rest⟩ := p
    rw [hnumeral, Option.map_some] at htext
    obtain ⟨haccept, hnumber⟩ := hd.store_float setter s hdec htext
    obtain ⟨hwhole, hfraction⟩ := numeral_lt hnumeral
    have hkept := n.kept_eq_value_iff fun c hc =>
      (List.mem_append.mp hc).elim (hwhole c) (hfraction c)
    rw [haccept]
    constructor
    · rintro h n' rest' hn' -
      obtain ⟨rfl, rfl⟩ := Prod.mk.inj (Option.some.inj hn')
      by_cases hwithin : d.Within n.kept
      · obtain ⟨n', rest', hn', -, -, hval⟩ := h hwithin
        obtain ⟨rfl, rfl⟩ := Prod.mk.inj (Option.some.inj hn')
        left
        rw [hnumber hwithin] at hval
        exact hkept.mp (Option.some.inj hval)
      · exact .inr hwithin
    · intro h hwithin
      have hexact := hkept.mpr ((h n rest rfl (.inl hdec)).resolve_right (not_not.mpr hwithin))
      refine ⟨n, rest, rfl, .inl hdec, hexact ▸ hwithin, ?_⟩
      rw [hnumber hwithin, hexact]

/-- A text that does not start with a natural number is not read. -/
theorem readUint_error {text : Bytes}
    (h : ∀ n rest, numeral text = some (n, rest) →
      ¬ (n.negative = false ∧ ∀ c ∈ n.fraction, c = 0)) :
    ∃ e, readUint text = .error e := by
  rw [readUint_eq]
  cases hneg : (sign text).1 with
  | true => exact ⟨_, if_pos rfl⟩
  | false =>
    rw [if_neg Bool.false_ne_true]
    cases hnumeral : numeral text with
    | none => exact ⟨_, rfl⟩
    | some p =>
      have hzeros : ¬ ∀ c ∈ p.1.fraction, c = 0 := fun hzeros =>
        h p.1 p.2 hnumeral ⟨(negative_of_numeral hnumeral).trans hneg, hzeros⟩
      exact ⟨_, if_neg hzeros⟩

theorem Sound.storesExactly_iff_uint (hd : d.Sound) (hdec : d.datatype ≠ .decimal) :
    d.StoresExactly svalue s (settingsStoreSetting setter (some d) svalue s) ↔
      d.ReadsExactly svalue := by
  rw [hd.storesExactly_accepted, ReadsExactly]
  simp only [hdec, if_false]
  by_cases hnatural : ∃ n rest, numeral (svalue.dropWhile (· = 0x20)) = some (n, rest) ∧
      n.negative = false ∧ ∀ c ∈ n.fraction, c = 0
  · obtain ⟨n, rest, hnumeral, hneg, hzeros⟩ := hnatural
    have htext := readUint_eq (svalue.dropWhile (· = 0x20))
    rw [hnumeral, ← negative_of_numeral hnumeral, hneg, if_neg Bool.false_ne_true] at htext
    simp only [if_pos hzeros] at htext
    obtain ⟨haccept, hnumber⟩ := hd.store_uint setter s hdec htext
    have hexact := hd.uint_exact_iff hdec (numeral_lt hnumeral).1 hzeros
    have hvalue := Numeral.value_natural hneg hzeros
    rw [haccept, hnumeral]
    constructor
    · rintro h n' rest' hn' -
      obtain ⟨rfl, rfl⟩ := Prod.mk.inj (Option.some.inj hn')
      refine hexact.mp fun hwithin => ?_
      obtain ⟨n', rest', hn', -, hwithin', hval⟩ := h hwithin
      obtain ⟨rfl, rfl⟩ := Prod.mk.inj (Option.some.inj hn')
      rw [hnumber hwithin, hvalue] at hval
      rw [hvalue] at hwithin'
      exact ⟨hwithin', by exact_mod_cast Option.some.inj hval⟩
    · intro h hwithin
      obtain ⟨hwithin', hmod⟩ := hexact.mpr (h n rest rfl (.inr ⟨hneg, hzeros⟩)) hwithin
      refine ⟨n, rest, rfl, .inr ⟨hneg, hzeros⟩, hvalue ▸ hwithin', ?_⟩
      rw [hnumber hwithin, hvalue, hmod]
  · obtain ⟨e, he⟩ := readUint_error fun n rest hn hnat => hnatural ⟨n, rest, hn, hnat⟩
    have hne := hd.store_uint_error setter s hdec he
    refine iff_of_true (fun hok => absurd hok hne) fun n rest hn htakes => ?_
    exact absurd ⟨n, rest, hn, htakes.resolve_left hdec⟩ hnatural

/-- A sound setting is stored exactly if and only if its text is read exactly. -/
theorem Sound.storesExactly_iff (hd : d.Sound) :
    d.StoresExactly svalue s (settingsStoreSetting setter (some d) svalue s) ↔
      d.ReadsExactly svalue := by
  by_cases hdec : d.datatype = .decimal
  · exact hd.storesExactly_iff_float hdec
  · exact hd.storesExactly_iff_uint hdec

end Detail

end Store

section Table

/-- The format of a list does not matter for the rest of a row. -/
theorem forall_settingDetail {p : Detail → Prop}
    (h : ∀ d ∈ (settingDetail {}).map fun d => { d with format := [] }, p d) (formats : Formats) :
    ∀ d ∈ settingDetail formats, p { d with format := [] } := by
  have hsame : (settingDetail formats).map (fun d => { d with format := [] }) =
      (settingDetail {}).map fun d => { d with format := [] } := rfl
  rw [← hsame] at h
  exact fun d hd => h _ (List.mem_map_of_mem hd)

theorem entries_settingDetail (formats : Formats) :
    ∀ d ∈ settingDetail formats, d.datatype ∈ [.bitfield, .radioButtons] → d.entries ≤ 3 := by
  have hlists : ((settingDetail formats).filter
      fun d => d.datatype ∈ [Datatype.bitfield, .radioButtons]).map Detail.entries =
      [strnumentries formats.coolantSignals 0x2C, 3, strnumentries formats.doorOptions 0x2C, 3,
        strnumentries formats.fsOptions 0x2C] := rfl
  intro d hd ht
  have hfilter : d ∈ (settingDetail formats).filter
      fun d => d.datatype ∈ [Datatype.bitfield, .radioButtons] :=
    List.mem_filter.mpr ⟨hd, decide_eq_true ht⟩
  have hmem := List.mem_map_of_mem (f := Detail.entries) hfilter
  rw [hlists] at hmem
  have hcoolant := formats.entries_coolantSignals
  have hdoor := formats.entries_doorOptions
  have hfs := formats.entries_fsOptions
  simp only [List.mem_cons, List.not_mem_nil, or_false] at hmem
  omega

/-- The limits in the table are numerals of the kind of their setting. -/
theorem limits_settingDetail (formats : Formats) :
    ∀ d ∈ settingDetail formats, ∀ text, d.minValue = some text ∨ d.maxValue = some text →
      limit text ≠ none ∧
      (d.datatype = .decimal → (readFloat text).map Prod.fst = limit text) ∧
      (d.datatype ≠ .decimal →
        (readUint text).toOption.map (fun p => (p.1 : ℚ)) = limit text) := by
  intro d hd text htext
  refine forall_settingDetail (p := fun d =>
    ∀ text ∈ d.minValue.toList ++ d.maxValue.toList, limit text ≠ none ∧
      (d.datatype = .decimal → (readFloat text).map Prod.fst = limit text) ∧
      (d.datatype ≠ .decimal → (readUint text).toOption.map (fun p => (p.1 : ℚ)) = limit text))
    (by decide +kernel) formats d hd text ?_
  simpa only [List.mem_append, Option.mem_toList] using htext

/-- All rows of the table are sound. -/
theorem sound_settingDetail (formats : Formats) : ∀ d ∈ settingDetail formats, d.Sound := by
  intro d hd
  have htype := forall_settingDetail (p := fun d => d.type.isFn = false ∧ d.datatype ∈
    [.bitfield, .radioButtons, .axisMask, .int8, .int16, .decimal] ∧
    (d.datatype = .decimal → d.type.isCore = true)) (by decide +kernel) formats d hd
  have hmax := forall_settingDetail (p := fun d =>
    (d.datatype = .int8 → (d.maxValue.bind limit).any (· ≤ 255)) ∧
    (d.datatype = .int16 → (d.minValue = none ∧ d.maxValue = none) ∨
      (d.maxValue.bind limit).any (· ≤ 65535))) (by decide +kernel) formats d hd
  have hany : ∀ {o : Option ℚ} {k : ℚ}, o.any (· ≤ k) = true → ∃ hi ≤ k, o = some hi := by
    intro o k h
    obtain ⟨hi, rfl, hle⟩ := (Option.any_eq_true _ _).mp h
    exact ⟨hi, of_decide_eq_true hle, rfl⟩
  have hlimits := limits_settingDetail formats d hd
  constructor
  case direct => exact htype.1
  case core => exact htype.2.2
  case datatype => exact htype.2.1
  case entries => exact entries_settingDetail formats d hd
  case float =>
    intro hdec text htext
    obtain ⟨hne, hfloat, -⟩ := hlimits text htext
    obtain ⟨x, hx⟩ := Option.ne_none_iff_exists'.mp hne
    obtain ⟨p, hp, rfl⟩ := Option.map_eq_some_iff.mp ((hfloat hdec).trans hx)
    exact ⟨p.1, p.2, hp, hx⟩
  case uint =>
    intro hint text htext
    have hdec : d.datatype ≠ .decimal := by
      intro hdec
      rw [hdec] at hint
      exact absurd hint (by decide)
    obtain ⟨hne, -, huint⟩ := hlimits text htext
    obtain ⟨x, hx⟩ := Option.ne_none_iff_exists'.mp hne
    have hread := (huint hdec).trans hx
    cases hr : readUint text with
    | error e =>
      rw [hr] at hread
      exact absurd hread (by simp [Except.toOption])
    | ok p =>
      rw [hr] at hread
      exact ⟨p.1, p.2, rfl, hx.trans hread.symm⟩
  case int8 => exact fun ht => hany (hmax.1 ht)
  case int16 => exact fun ht => (hmax.2 ht).imp id hany

/-- A row of the table is stored exactly if and only if its text is read exactly. -/
theorem settingsStoreSetting_exact_iff (setter : Setter) (formats : Formats) {d : Detail}
    (hd : d ∈ settingDetail formats) (svalue : Bytes) (s : State) :
    d.StoresExactly svalue s (settingsStoreSetting setter (some d) svalue s) ↔
      d.ReadsExactly svalue :=
  (sound_settingDetail formats d hd).storesExactly_iff

/-- The debounce delay of the homing switches. -/
def homingDebounceDelay : Detail :=
  ⟨26, .int16, [], none, none, .isLegacy, .homingDebounceDelay, false⟩

/-- A delay of 250 ms is stored exactly. -/
theorem settingsStoreSetting_exact_delay :
    homingDebounceDelay.StoresExactly (ascii "250") ⟨fun _ => .uint16 0, none, false⟩
      (settingsStoreSetting (fun _ _ settings => (.ok, settings)) (some homingDebounceDelay)
        (ascii "250") ⟨fun _ => .uint16 0, none, false⟩) := by
  refine (settingsStoreSetting_exact_iff _ {} (by decide) _ _).mpr fun n rest hn _ => ?_
  have hnumeral : numeral ((ascii "250").dropWhile (· = 0x20)) =
      some (⟨false, [2, 5, 0], []⟩, []) := by
    decide
  obtain ⟨rfl, -⟩ := Prod.mk.inj (Option.some.inj (hnumeral.symm.trans hn))
  rw [if_neg (by decide)]
  exact ⟨.inl rfl, fun _ => by decide⟩

/-- A delay of 65536 ms is accepted, and zero is stored. -/
theorem not_settingsStoreSetting_exact :
    ¬ ∀ (setter : Setter) (formats : Formats), ∀ d ∈ settingDetail formats,
      ∀ (svalue : Bytes) (s : State),
        d.StoresExactly svalue s (settingsStoreSetting setter (some d) svalue s) := by
  intro h
  have hmem : homingDebounceDelay ∈ settingDetail {} := by decide
  have hexact := (sound_settingDetail {} _ hmem).storesExactly_iff.mp
    (h (fun _ _ settings => (.ok, settings)) {} _ hmem (ascii "65536")
      ⟨fun _ => .uint16 0, none, false⟩)
  have hnumeral : numeral ((ascii "65536").dropWhile (· = 0x20)) =
      some (⟨false, [6, 5, 5, 3, 6], []⟩, []) := by
    decide
  have hread := hexact _ _ hnumeral (.inr (by decide))
  rw [if_neg (by decide)] at hread
  have hwithin : homingDebounceDelay.Within (number [6, 5, 5, 3, 6]) := by
    refine ⟨Nat.cast_nonneg _, fun hi hhi => ?_⟩
    exact absurd hhi (by simp [homingDebounceDelay])
  exact absurd (hread.2 hwithin) (by decide)

end Table

end Inspector.Settings
