import Inspector.NutsBolts.FloatText
import Inspector.NutsBolts.ReadFloat
import Inspector.Settings.Exactness
import Inspector.ToolTable.Table

/-! # A dump of the settings

`report_setting` writes a setting as the line that sets it, and `system_execute_line` takes such
lines. So the lines of the settings of one controller bring them to another one: numbers with a
point as they were rounded, all others as they were. The commands of the table and of plugins are
given from outside, and what is written to the stream is left out.
-/

namespace Inspector.Settings

open Json

/-- `get_decimal_places`. -/
def getDecimalPlaces (format : Bytes) : ℕ :=
  match format.dropWhile (· ≠ 0x2E) with
  | [] => 1
  | _ :: decimals => decimals.length

/-- The formats of the settings with a point. -/
def decimalFormat : Field → Bytes
  | .junctionDeviation | .arcTolerance | .g73Retract | .pwmSpindleRpmMax | .pwmSpindleRpmMin
  | .homingDualAxisFailDistanceMin | .homingDualAxisFailDistanceMax => ascii "#####0.000"
  | .steppersPulseDelayMicroseconds | .safetyDoorSpindleOnDelay | .safetyDoorCoolantOnDelay =>
    ascii "#0.0"
  | .pwmSpindlePwmFreq => ascii "#####0"
  | .pwmSpindlePwmOffValue | .pwmSpindlePwmMinValue | .pwmSpindlePwmMaxValue
  | .homingDualAxisFailLengthPercent => ascii "##0.0"
  | .parkingPulloutIncrement | .parkingPulloutRate | .parkingRate => ascii "###0.0"
  | .parkingTarget => ascii "-###0.0"
  | .positionPidPGain | .positionPidIGain | .positionPidDGain | .positionPidIMaxError =>
    ascii "###0.000"
  | .toolChangeFeedRate | .toolChangeSeekRate | .toolChangePulloffRate => ascii "#####0.0"
  | _ => []

/-- The decimals of a setting with a point. -/
def places (f : Field) : ℕ := getDecimalPlaces (decimalFormat f)

/-- `setting_get_value` of a directly stored setting. -/
def settingGetValue (conv : ToUint32 ℚ) (webuiConnected : Bool) (setting : Detail)
    (settings : Field → Cell) : Option Bytes :=
  match setting.datatype, settings setting.value with
  | .decimal, .float x => x.bind fun x => formatFloat conv x (places setting.value)
  | .bool, .uint8 n | .bitfield, .uint8 n | .xbitfield, .uint8 n | .axisMask, .uint8 n
  | .radioButtons, .uint8 n | .int8, .uint8 n => some (decimal n.toNat)
  | .int16, .uint16 n => some (decimal n.toNat)
  | .integer, .uint32 n => some (decimal n.toNat)
  | .password, .text s => some (if webuiConnected then passwordMask else s)
  | .string, .text s | .ipv4, .text s => some s
  | _, _ => none

/-- `report_setting`. -/
def reportSetting (conv : ToUint32 ℚ) (setting : Detail) (s : State) : Option Bytes :=
  (settingGetValue conv s.webuiConnected setting s.settings).map fun value =>
    0x24 :: (decimal setting.id ++ 0x3D :: value)

/-- The lines of some settings. -/
def dump (conv : ToUint32 ℚ) (details : List Detail) (s : State) : Option (List Bytes) :=
  details.mapM fun d => reportSetting conv d s

/-- The codes that a line gives; those of the commands are numbers. -/
inductive LineStatus
  | setting (status : Status)
  | command (code : ℕ)
  | idleError
  deriving DecidableEq, Repr

/-- `isintf`. -/
def isIntf (value : ℚ) : Bool := |value - if 0 ≤ value then ⌊value⌋ else ⌈value⌉| < 0.001

/-- What `system_execute_line` uses: the setter functions, `setting_get_details`, and the commands
of the table and of plugins, which have no result where they return `Status_Unhandled`. -/
structure System where
  setter : Setter
  settingGetDetails : ℕ → Option Detail
  execute : Bytes → Option Bytes → State → Option (LineStatus × State)

variable (system : System)

/-- `system_execute_line`. Settings are taken in the idle state, after an alarm and in check mode
only. -/
def systemExecuteLine (isIdle : Bool) (line : Bytes) (s : State) : LineStatus × State :=
  match line with
  | [] | [_] => (.setting .ok, s)
  | _ :: text =>
    let command := ((text.takeWhile (· ≠ 0x3D)).filter (· ≠ 0x20)).map ToolTable.caps
    let rest := text.dropWhile (· ≠ 0x3D)
    if ascii "HELP" <+: command ++ rest then (.setting .ok, s)
    else
      match system.execute command rest.tail? s with
      | some result => result
      | none =>
        if ¬ isIdle then (.idleError, s)
        else
          match readFloat command with
          | none => (.setting .invalidStatement, s)
          | some (parameter, _) =>
            if 0 ≤ parameter ∧ isIntf parameter then
              let details := system.settingGetDetails ⌊parameter⌋₊
              match rest.tail? with
              | some args =>
                let (status, s) := settingsStoreSetting system.setter details args s
                (.setting status, s)
              | none => (.setting (if details.isSome then .ok else .settingDisabled), s)
            else (.setting .invalidStatement, s)

/-- Lines are executed one after the other. -/
def executeLines (isIdle : Bool) : List Bytes → State → List LineStatus × State
  | [], s => ([], s)
  | line :: lines, s =>
    let (status, s) := systemExecuteLine system isIdle line s
    let (statuses, s) := executeLines isIdle lines s
    (status :: statuses, s)

/-! ### Rounded numbers -/

/-- The number that a text with some decimals gives. -/
def roundedValue (x : ℚ) (places : ℕ) : ℚ :=
  (if x < 0 then -(rounded x places : ℚ) else rounded x places) / 10 ^ places

section Rounded

variable {x lo hi : ℚ} {places : ℕ}

theorem abs_roundedValue_sub_le (x : ℚ) (places : ℕ) :
    |roundedValue x places - x| ≤ 1 / 2 / 10 ^ places := by
  have hnear := abs_floor_sub_le (abs_nonneg x) places
  by_cases hneg : x < 0
  · have hflip : roundedValue x places - x = -((rounded x places : ℚ) / 10 ^ places - |x|) := by
      rw [roundedValue, if_pos hneg, abs_of_neg hneg]
      ring
    rw [hflip, abs_neg]
    exact hnear
  · rw [roundedValue, if_neg hneg]
    nth_rewrite 2 [← abs_of_nonneg (not_lt.mp hneg)]
    exact hnear

theorem exists_roundedValue (x : ℚ) (places : ℕ) :
    ∃ r : ℤ, roundedValue x places * 10 ^ places = r ∧ |(r : ℚ) - x * 10 ^ places| ≤ 1 / 2 := by
  have hpow : (0 : ℚ) < 10 ^ places := by positivity
  have hnear := mul_le_mul_of_nonneg_right (abs_roundedValue_sub_le x places) hpow.le
  have hint : roundedValue x places * 10 ^ places =
      ((if x < 0 then -(rounded x places : ℤ) else rounded x places : ℤ) : ℚ) := by
    rw [roundedValue, div_mul_cancel₀ _ hpow.ne']
    split_ifs <;> push_cast <;> rfl
  refine ⟨_, hint, ?_⟩
  rw [← hint, ← sub_mul, abs_mul, abs_of_pos hpow]
  rwa [div_mul_cancel₀ _ hpow.ne'] at hnear

/-- A bound with no more decimals still holds. -/
theorem le_roundedValue {k : ℤ} (hk : lo * 10 ^ places = k) (h : lo ≤ x) :
    lo ≤ roundedValue x places := by
  have hpow : (0 : ℚ) < 10 ^ places := by positivity
  obtain ⟨r, hr, hnear⟩ := exists_roundedValue x places
  have hkx : (k : ℚ) ≤ x * 10 ^ places := hk ▸ mul_le_mul_of_nonneg_right h hpow.le
  have hlt : (k : ℚ) < r + 1 := by linarith [(abs_le.mp hnear).1]
  have hle : k ≤ r := Int.lt_add_one_iff.mp (by exact_mod_cast hlt)
  refine le_of_mul_le_mul_right ?_ hpow
  rw [hk, hr]
  exact_mod_cast hle

theorem roundedValue_le {k : ℤ} (hk : hi * 10 ^ places = k) (h : x ≤ hi) :
    roundedValue x places ≤ hi := by
  have hpow : (0 : ℚ) < 10 ^ places := by positivity
  obtain ⟨r, hr, hnear⟩ := exists_roundedValue x places
  have hkx : x * 10 ^ places ≤ (k : ℚ) := hk ▸ mul_le_mul_of_nonneg_right h hpow.le
  have hlt : (r : ℚ) < k + 1 := by linarith [(abs_le.mp hnear).2]
  have hle : r ≤ k := Int.lt_add_one_iff.mp (by exact_mod_cast hlt)
  refine le_of_mul_le_mul_right ?_ hpow
  rw [hk, hr]
  exact_mod_cast hle

/-- Numbers with no more decimals are not changed. -/
theorem roundedValue_of_int {k : ℤ} (hk : x * 10 ^ places = k) : roundedValue x places = x :=
  le_antisymm (roundedValue_le hk le_rfl) (le_roundedValue hk le_rfl)

theorem roundedValue_roundedValue (x : ℚ) (places : ℕ) :
    roundedValue (roundedValue x places) places = roundedValue x places := by
  obtain ⟨r, hr, -⟩ := exists_roundedValue x places
  exact roundedValue_of_int hr

/-- The text of a rounded number is read as that number when it has at most nine digits. -/
theorem readFloat_roundedText (h : rounded x places < 10 ^ maxIntDigits) :
    readFloat (roundedText x places) = some (roundedValue x places, []) := by
  let p : Spelling := ⟨if x < 0 then [0x2D] else [], decimal (rounded x places / 10 ^ places),
    [0x2E], lastDigits places (rounded x places % 10 ^ places)⟩
  have hp : p.IsNumeral := by
    refine ⟨?_, fun b hb => isDigit_of_mem_decimal hb, .inr rfl,
      fun b hb => isDigit_of_mem_lastDigits hb, .inl (decimal_ne_nil _)⟩
    by_cases hneg : x < 0
    · exact .inr (.inr (if_pos hneg))
    · exact .inl (if_neg hneg)
  have hnegative : p.toNumeral.negative = decide (x < 0) := by
    by_cases hneg : x < 0 <;> simp [Spelling.toNumeral, p, hneg]
  have hlen : p.toNumeral.fraction.length = places := by
    simp only [Spelling.toNumeral, p, List.length_map, length_lastDigits]
  have hnumber : number p.toNumeral.digits = rounded x places := by
    simp only [Numeral.digits, Spelling.toNumeral, p]
    rw [number_append, number_digitValue, number_digitValue, digitsValue_decimal,
      digitsValue_lastDigits, Nat.mod_mod, List.length_map, length_lastDigits, Nat.div_add_mod']
  have hvalue : p.toNumeral.value = roundedValue x places := by
    rw [Numeral.value, Numeral.placed, hnumber, hlen, hnegative, roundedValue]
    simp only [decide_eq_true_eq]
  have htext : roundedText x places = p.text := rfl
  rw [readFloat_eq_truncated, htext, numeral_text hp, Option.map_some,
    Numeral.truncated_eq_value (hnumber ▸ h), hvalue]

/-- Such a number is written. -/
theorem formatFloat_eq_roundedText (conv : ToUint32 ℚ) (hplaces : places ≤ 3)
    (h : rounded x places < 10 ^ maxIntDigits) :
    formatFloat conv x places = some (roundedText x places) := by
  have hpow : (1 : ℚ) ≤ 10 ^ places := one_le_pow₀ (by norm_num)
  have hfloor := Nat.lt_floor_add_one (|x| * 10 ^ places + 1 / 2)
  have hcast : ((rounded x places : ℕ) : ℚ) + 1 ≤ 10 ^ maxIntDigits := by exact_mod_cast h
  have hmul : |x| ≤ |x| * 10 ^ places := le_mul_of_one_le_right (abs_nonneg x) hpow
  have hx : |x| < 2 ^ 32 - 1 := by
    rw [maxIntDigits] at hcast
    rw [rounded] at hcast
    linarith
  refine ((formats_iff conv hx (hplaces.trans (by decide))).mpr ⟨?_, ?_⟩).text
  · have hdecimal : (decimal (rounded x places / 10 ^ places)).length ≤ 8 + 1 :=
      length_decimal_le ((Nat.div_le_self _ _).trans_lt h)
    rw [roundedText, List.length_append, List.length_append, List.length_cons, length_lastDigits]
    split_ifs <;> simp only [List.length_singleton, List.length_nil, coordValueLength] <;> omega
  · exact (Nat.mod_le _ _).trans_lt (h.trans (by decide))

end Rounded

/-! ### What is kept in the fields -/

/-- What a setting keeps in its field: a value within its limits. -/
def Detail.Keeps (d : Detail) : Cell → Prop
  | .float x => d.datatype = .decimal ∧ ∃ y, x = some y ∧ d.Within y
  | .uint8 n => d.datatype ∈ [.bitfield, .radioButtons, .axisMask, .int8] ∧ d.Within n.toNat
  | .uint16 n => d.datatype = .int16 ∧ d.Within n.toNat
  | .text _ | .uint32 _ => False

/-- The settings of the table keep values within their limits. -/
def Kept (formats : Formats) (settings : Field → Cell) : Prop :=
  ∀ d ∈ settingDetail formats, d.Keeps (settings d.value)

/-- The number in a field has at most nine digits when it is written. -/
def Short (f : Field) (c : Cell) : Prop :=
  ∀ x, c = .float (some x) → rounded x (places f) < 10 ^ maxIntDigits

/-- What a dump brings to the field of another controller. -/
def restored (f : Field) : Cell → Cell
  | .float x => .float (x.map fun x => roundedValue x (places f))
  | c => c

@[simp] theorem restored_uint8 (f : Field) (n : UInt8) : restored f (.uint8 n) = .uint8 n := rfl

@[simp] theorem restored_uint16 (f : Field) (n : UInt16) : restored f (.uint16 n) = .uint16 n := rfl

/-- A second dump brings the same. -/
theorem restored_restored (f : Field) (c : Cell) : restored f (restored f c) = restored f c := by
  cases c with
  | float x => cases x <;> simp [restored, roundedValue_roundedValue]
  | _ => rfl

section Table

variable {formats : Formats} {d : Detail}

/-- The settings with a point have one to three decimals, and their limits have no more. -/
theorem decimals_settingDetail (formats : Formats) :
    ∀ d ∈ settingDetail formats, d.datatype = .decimal → places d.value ≤ 3 ∧
      ∀ lim ∈ (d.minValue.bind limit).toList ++ (d.maxValue.bind limit).toList,
        (lim * 10 ^ places d.value).den = 1 := by
  intro d hd
  exact forall_settingDetail (p := fun d => d.datatype = .decimal → places d.value ≤ 3 ∧
    ∀ lim ∈ (d.minValue.bind limit).toList ++ (d.maxValue.bind limit).toList,
      (lim * 10 ^ places d.value).den = 1) (by decide +kernel) formats d hd

theorem eq_of_value_eq {d' : Detail} (hd : d ∈ settingDetail formats)
    (hd' : d' ∈ settingDetail formats) (h : d.value = d'.value) : d = d' := by
  have hnodup : ((settingDetail formats).map Detail.value).Nodup := by
    have hsame : (settingDetail formats).map Detail.value = (settingDetail {}).map Detail.value :=
      rfl
    rw [hsame]
    decide
  exact List.inj_on_of_nodup_map hnodup hd hd' h

theorem id_lt (hd : d ∈ settingDetail formats) : d.id < 10 ^ maxIntDigits :=
  forall_settingDetail (p := fun d => d.id < 10 ^ maxIntDigits) (by decide) formats d hd

/-- Rounding keeps a number within the limits of its setting. -/
theorem within_roundedValue (hd : d ∈ settingDetail formats) (hdec : d.datatype = .decimal) {x : ℚ}
    (h : d.Within x) : d.Within (roundedValue x (places d.value)) := by
  obtain ⟨-, hlimits⟩ := decimals_settingDetail formats d hd hdec
  have hint : ∀ lim, d.minValue.bind limit = some lim ∨ d.maxValue.bind limit = some lim →
      lim * 10 ^ places d.value = ((lim * 10 ^ places d.value).num : ℚ) := by
    intro lim hlim
    have hden := hlimits lim (by
      rw [List.mem_append, Option.mem_toList, Option.mem_toList]
      exact hlim)
    rw [Rat.coe_int_num_of_den_eq_one hden]
  rw [Detail.Within, hdec] at h ⊢
  obtain ⟨hmin, hmax⟩ := h
  constructor
  · cases hlo : d.minValue.bind limit with
    | none =>
      rw [hlo] at hmin
      exact le_roundedValue (k := 0) (by simp) hmin
    | some lo =>
      rw [hlo] at hmin
      rcases hmin with hmin | ⟨hnull, rfl⟩
      · exact .inl (le_roundedValue (hint lo (.inl hlo)) hmin)
      · exact .inr ⟨hnull, roundedValue_of_int (k := 0) (by simp)⟩
  · intro hi hhi
    exact roundedValue_le (hint hi (.inr hhi)) (hmax hi hhi)

end Table

/-! ### Storing what has been written -/

section Store

variable {formats : Formats} {d : Detail} {setter : Setter}

theorem dropWhile_space {c : UInt8} {text : Bytes} (hc : c ≠ 0x20) :
    (c :: text).dropWhile (· = 0x20) = c :: text := by
  rw [List.dropWhile_cons_of_neg]
  simpa using hc

theorem dropWhile_decimal (n : ℕ) : (decimal n).dropWhile (· = 0x20) = decimal n := by
  cases h : decimal n with
  | nil => rfl
  | cons c text =>
    apply dropWhile_space
    rintro rfl
    have hdigit := isDigit_of_mem_decimal (n := n) (b := 0x20) (by simp [h])
    exact absurd hdigit (by decide)

theorem dropWhile_roundedText (x : ℚ) (places : ℕ) :
    (roundedText x places).dropWhile (· = 0x20) = roundedText x places := by
  rw [roundedText]
  split_ifs
  · exact dropWhile_space (by decide)
  · rw [List.nil_append]
    cases h : decimal (rounded x places / 10 ^ places) with
    | nil => exact absurd h (decimal_ne_nil _)
    | cons c text =>
      apply dropWhile_space
      rintro rfl
      have hdigit := isDigit_of_mem_decimal (n := rounded x places / 10 ^ places) (b := 0x20)
        (by simp [h])
      exact absurd hdigit (by decide)

/-- A field is set and the settings are saved. -/
def State.put (t : State) (f : Field) (cell : Cell) : State :=
  { t with settings := Function.update t.settings f cell }.save

@[simp] theorem State.settings_put (t : State) (f : Field) (cell : Cell) :
    (t.put f cell).settings = Function.update t.settings f cell := rfl

@[simp] theorem State.nvs_put (t : State) (f : Field) (cell : Cell) :
    (t.put f cell).nvs = t.nvs.map fun _ => (t.put f cell).settings := rfl

/-- A natural number that has been written is stored again. -/
theorem store_decimal (hd : d.Sound) (hdec : d.datatype ≠ .decimal) {m : ℕ} (hm : m < 2 ^ 16)
    (hwithin : d.Within m) {cell : Cell} (hcell : d.cell none m (decimal m) = some cell)
    (t : State) :
    settingsStoreSetting setter (some d) (decimal m) t = (.ok, t.put d.value cell) := by
  have huint := readUint_decimal (n := m) (hm.trans (by decide)) ends_nil
  rw [List.append_nil] at huint
  have hread : d.read ((decimal m).dropWhile (· = 0x20)) = (none, some m) := by
    rw [dropWhile_decimal, Detail.read, if_neg hdec, hd.isString_eq hdec, huint]
    rfl
  have hvalid : settingValidateMe t.webuiConnected d none (decimal m) = .ok := by
    rw [hd.settingValidateMe_uint hdec]
    exact (hd.settingValidateMeUint_eq hdec huint).mpr hwithin
  rw [settingsStoreSetting_read hd.direct hread (fun h => absurd h hdec)
    (by rwa [dropWhile_decimal])]
  simp only [dropWhile_decimal, hvalid]
  rfl

/-- A number with a point that has been written is stored as it was rounded. -/
theorem store_roundedText (hd : d ∈ settingDetail formats) (hdec : d.datatype = .decimal) {x : ℚ}
    (hwithin : d.Within x) (hshort : rounded x (places d.value) < 10 ^ maxIntDigits) (t : State) :
    settingsStoreSetting setter (some d) (roundedText x (places d.value)) t =
      (.ok, t.put d.value (.float (some (roundedValue x (places d.value))))) := by
  have hsound := sound_settingDetail formats d hd
  have hread : d.read ((roundedText x (places d.value)).dropWhile (· = 0x20)) =
      (some (roundedValue x (places d.value)), some 0) := by
    rw [dropWhile_roundedText, Detail.read, if_pos hdec, readFloat_roundedText hshort]
    rfl
  have hvalid : settingValidateMe t.webuiConnected d (some (roundedValue x (places d.value)))
      (roundedText x (places d.value)) = .ok := by
    rw [settingValidateMe, hdec]
    exact (hsound.validateValue_eq hdec _).mpr (within_roundedValue hd hdec hwithin)
  have hcell : d.cell (some (roundedValue x (places d.value))) 0
      ((roundedText x (places d.value)).dropWhile (· = 0x20)) =
      some (.float (some (roundedValue x (places d.value)))) := by
    rw [Detail.cell, hdec]
  rw [settingsStoreSetting_read hsound.direct hread (fun _ => Option.some_ne_none _) hcell]
  simp only [dropWhile_roundedText, hvalid]
  rfl

theorem ofNat_toNat_axisMask {n : UInt8} (h : n.toNat < 2 ^ nAxis) :
    UInt8.ofNat n.toNat &&& UInt8.ofNat (2 ^ nAxis - 1) = n := by
  rw [← UInt8.toNat_inj]
  exact Detail.toNat_axisMask _ h

variable (setter) in
/-- The value of a setting is written, and storing it gives what is restored. -/
theorem store_settingGetValue (conv : ToUint32 ℚ) (hd : d ∈ settingDetail formats)
    {settings : Field → Cell} (hkeeps : d.Keeps (settings d.value))
    (hshort : Short d.value (settings d.value)) (webuiConnected : Bool) :
    ∃ value, settingGetValue conv webuiConnected d settings = some value ∧
      ∀ t, settingsStoreSetting setter (some d) value t =
        (.ok, t.put d.value (restored d.value (settings d.value))) := by
  have hsound := sound_settingDetail formats d hd
  cases hc : settings d.value with
  | float x =>
    rw [hc] at hkeeps hshort
    obtain ⟨hdec, y, rfl, hwithin⟩ := hkeeps
    have hplaces := (decimals_settingDetail formats d hd hdec).1
    refine ⟨roundedText y (places d.value), ?_, ?_⟩
    · rw [settingGetValue, hdec, hc]
      exact formatFloat_eq_roundedText conv hplaces (hshort y rfl)
    · exact store_roundedText hd hdec hwithin (hshort y rfl)
  | uint8 n =>
    rw [hc] at hkeeps
    obtain ⟨htype, hwithin⟩ := hkeeps
    have hn := n.toNat_lt
    simp only [List.mem_cons, List.not_mem_nil, or_false] at htype
    refine ⟨decimal n.toNat, ?_, ?_⟩
    · rcases htype with ht | ht | ht | ht <;> rw [settingGetValue, ht, hc]
    · have hdec : d.datatype ≠ .decimal := by
        rcases htype with ht | ht | ht | ht <;> simp [ht]
      apply store_decimal hsound hdec (by omega) hwithin
      rcases htype with ht | ht | ht | ht
      · rw [Detail.cell, ht, restored_uint8, UInt8.ofNat_toNat]
      · rw [Detail.cell, ht, restored_uint8, UInt8.ofNat_toNat]
      · have hlt : n.toNat < 2 ^ nAxis := by
          rw [Detail.Within, ht] at hwithin
          exact_mod_cast hwithin
        rw [Detail.cell, ht, restored_uint8, ofNat_toNat_axisMask hlt]
      · rw [Detail.cell, ht, restored_uint8, UInt8.ofNat_toNat]
  | uint16 n =>
    rw [hc] at hkeeps
    obtain ⟨ht, hwithin⟩ := hkeeps
    refine ⟨decimal n.toNat, ?_, ?_⟩
    · rw [settingGetValue, ht, hc]
    · apply store_decimal hsound (by simp [ht]) n.toNat_lt hwithin
      rw [Detail.cell, ht, restored_uint16, UInt16.ofNat_toNat]
  | uint32 n =>
    rw [hc] at hkeeps
    exact hkeeps.elim
  | text s =>
    rw [hc] at hkeeps
    exact hkeeps.elim

end Store

/-! ### Stored values stay within the limits -/

section Kept

variable {formats : Formats} {d : Detail} {setter : Setter} {s : State}

/-- A natural number within the limits is kept. -/
theorem keeps_uint (hd : d.Sound) (hdec : d.datatype ≠ .decimal) {m : ℕ} (h : d.Within m)
    (svalue : Bytes) : ∃ cell, d.cell none m svalue = some cell ∧ d.Keeps cell := by
  have hbyte : d.datatype ≠ .int16 → (UInt8.ofNat m).toNat = m := by
    intro h16
    rw [UInt8.toNat_ofNat', Nat.mod_eq_of_lt (hd.lt_byte hdec h16 h)]
  rcases hd.datatype_cases hdec with ht | ht | ht | ht | ht
  · refine ⟨.uint8 (UInt8.ofNat m), by rw [Detail.cell, ht], by simp [ht], ?_⟩
    rwa [hbyte (by simp [ht])]
  · refine ⟨.uint8 (UInt8.ofNat m), by rw [Detail.cell, ht], by simp [ht], ?_⟩
    rwa [hbyte (by simp [ht])]
  · refine ⟨.uint8 (UInt8.ofNat m &&& UInt8.ofNat (2 ^ nAxis - 1)), by rw [Detail.cell, ht],
      by simp [ht], ?_⟩
    have hlt : m < 2 ^ nAxis := by
      rw [Detail.Within, ht] at h
      exact_mod_cast h
    rwa [Detail.toNat_axisMask m hlt]
  · refine ⟨.uint8 (UInt8.ofNat m), by rw [Detail.cell, ht], by simp [ht], ?_⟩
    rwa [hbyte (by simp [ht])]
  · refine ⟨.uint16 (UInt16.ofNat m), by rw [Detail.cell, ht], ht, ?_⟩
    rw [UInt16.toNat_ofNat']
    -- a number that is cut to 16 bits had no limits
    rcases hd.lt_or_unlimited hdec with hlt | hall
    · rwa [Nat.mod_eq_of_lt (hlt m h)]
    · exact hall _

/-- An accepted value is kept by its setting. -/
theorem exists_keeps_of_ok (hd : d.Sound) {svalue : Bytes}
    (h : (settingsStoreSetting setter (some d) svalue s).1 = .ok) :
    ∃ cell, d.Keeps cell ∧ (settingsStoreSetting setter (some d) svalue s).2.settings =
      Function.update s.settings d.value cell := by
  by_cases hdec : d.datatype = .decimal
  · cases hr : readFloat (svalue.dropWhile (· = 0x20)) with
    | none => exact absurd h (hd.store_float_none setter s hdec hr)
    | some r =>
      obtain ⟨x, rest⟩ := r
      have hwithin := (hd.store_float setter s hdec hr).1.mp h
      have hread : d.read (svalue.dropWhile (· = 0x20)) = (some x, some 0) := by
        rw [Detail.read, if_pos hdec, hr]
        rfl
      have hcell : d.cell (some x) 0 (svalue.dropWhile (· = 0x20)) = some (.float (some x)) := by
        rw [Detail.cell, hdec]
      refine ⟨.float (some x), ⟨hdec, x, rfl, hwithin⟩, ?_⟩
      rw [settingsStoreSetting_read hd.direct hread (fun _ => Option.some_ne_none _) hcell] at h ⊢
      simp only at h ⊢
      split_ifs at h ⊢ with hvalid
      · exact absurd h hvalid
      · rfl
  · cases hr : readUint (svalue.dropWhile (· = 0x20)) with
    | error e => exact absurd h (hd.store_uint_error setter s hdec hr)
    | ok r =>
      obtain ⟨m, rest⟩ := r
      have hwithin := (hd.store_uint setter s hdec hr).1.mp h
      have hread : d.read (svalue.dropWhile (· = 0x20)) = (none, some m) := by
        rw [Detail.read, if_neg hdec, hd.isString_eq hdec, hr]
        rfl
      obtain ⟨cell, hcell, hkeeps⟩ := keeps_uint hd hdec hwithin (svalue.dropWhile (· = 0x20))
      refine ⟨cell, hkeeps, ?_⟩
      rw [settingsStoreSetting_read hd.direct hread (fun h => absurd h hdec) hcell] at h ⊢
      simp only at h ⊢
      split_ifs at h ⊢ with hvalid
      · exact absurd h hvalid
      · rfl

theorem Kept.update {settings : Field → Cell} (h : Kept formats settings)
    (hd : d ∈ settingDetail formats) {cell : Cell} (hcell : d.Keeps cell) :
    Kept formats (Function.update settings d.value cell) := by
  intro d' hd'
  by_cases hvalue : d'.value = d.value
  · rw [hvalue, Function.update_self, eq_of_value_eq hd' hd hvalue]
    exact hcell
  · rw [Function.update_of_ne hvalue]
    exact h d' hd'

theorem Kept.store (h : Kept formats s.settings) (hd : d ∈ settingDetail formats)
    (svalue : Bytes) : Kept formats (settingsStoreSetting setter (some d) svalue s).2.settings := by
  have hsound := sound_settingDetail formats d hd
  by_cases hok : (settingsStoreSetting setter (some d) svalue s).1 = .ok
  · obtain ⟨cell, hkeeps, hsettings⟩ := exists_keeps_of_ok hsound hok
    rw [hsettings]
    exact h.update hd hkeeps
  · have hdirect : ∀ d' ∈ some d, d'.type.isFn = false := by
      rintro d' ⟨⟩
      exact hsound.direct
    rw [settingsStoreSetting_unchanged hdirect hok]
    exact h

variable (setter) in
/-- Settings are stored one after the other, whether they are accepted or not. -/
def storeAll (writes : List (Detail × Bytes)) (s : State) : State :=
  writes.foldl (fun s w => (settingsStoreSetting setter (some w.1) w.2 s).2) s

variable (setter) in
theorem Kept.storeAll {writes : List (Detail × Bytes)} (h : Kept formats s.settings)
    (hwrites : ∀ w ∈ writes, w.1 ∈ settingDetail formats) :
    Kept formats (storeAll setter writes s).settings := by
  induction writes generalizing s with
  | nil => exact h
  | cons w writes ih =>
    obtain ⟨hw, hwrites⟩ := List.forall_mem_cons.mp hwrites
    exact ih (h.store hw w.2) hwrites

end Kept

/-! ### The lines -/

section Lines

variable {formats : Formats} {d : Detail} {ds : List Detail} {system : System} {s : State}

theorem takeWhile_decimal (n : ℕ) (value : Bytes) :
    (decimal n ++ 0x3D :: value).takeWhile (· ≠ 0x3D) = decimal n ∧
      (decimal n ++ 0x3D :: value).dropWhile (· ≠ 0x3D) = 0x3D :: value := by
  have hne : ∀ c ∈ decimal n, decide (c ≠ 0x3D) = true := by
    intro c hc
    refine decide_eq_true ?_
    rintro rfl
    exact absurd (isDigit_of_mem_decimal hc) (by decide)
  rw [List.takeWhile_append_of_pos hne, List.dropWhile_append_of_pos hne]
  simp

theorem caps_eq_self {c : UInt8} (h : isDigit c = true) : ToolTable.caps c = c := by
  have hdigit : 0x30 ≤ c ∧ c ≤ 0x39 := by simpa [isDigit] using h
  rw [ToolTable.caps, if_neg]
  rintro ⟨hle, -⟩
  exact absurd (UInt8.le_trans hle hdigit.2) (by decide)

/-- Digits are not changed by the editing of a line. -/
theorem edited_decimal (n : ℕ) :
    ((decimal n).filter (· ≠ 0x20)).map ToolTable.caps = decimal n := by
  have hspace : ∀ c ∈ decimal n, decide (c ≠ 0x20) = true := by
    intro c hc
    refine decide_eq_true ?_
    rintro rfl
    exact absurd (isDigit_of_mem_decimal hc) (by decide)
  have hcaps : ∀ c ∈ decimal n, ToolTable.caps c = id c := fun c hc =>
    caps_eq_self (isDigit_of_mem_decimal hc)
  rw [List.filter_eq_self.mpr hspace, List.map_congr_left hcaps, List.map_id]

theorem not_isPrefix_help (n : ℕ) (text : Bytes) : ¬ascii "HELP" <+: decimal n ++ text := by
  cases h : decimal n with
  | nil => exact absurd h (decimal_ne_nil n)
  | cons c digits =>
    intro hhelp
    have hhead : 0x48 = c := (List.cons_prefix_cons.mp hhelp).1
    have hdigit := isDigit_of_mem_decimal (n := n) (b := c) (by simp [h])
    rw [← hhead] at hdigit
    exact absurd hdigit (by decide)

theorem readFloat_decimal {n : ℕ} (hn : n < 10 ^ maxIntDigits) :
    readFloat (decimal n) = some ((n : ℚ), []) := by
  let p : Spelling := ⟨[], decimal n, [], []⟩
  have hp : p.IsNumeral := ⟨.inl rfl, fun b hb => isDigit_of_mem_decimal hb, .inl ⟨rfl, rfl⟩,
    fun b hb => absurd hb List.not_mem_nil, .inl (decimal_ne_nil n)⟩
  have hnumber : number p.toNumeral.digits = n := by
    simp only [Numeral.digits, Spelling.toNumeral, p, List.map_nil, List.append_nil]
    rw [number_digitValue, digitsValue_decimal]
  have hvalue : p.toNumeral.value = n := by
    rw [Numeral.value, Numeral.placed, hnumber]
    simp [Spelling.toNumeral, p]
  have htext : decimal n = p.text := by simp [Spelling.text, p]
  rw [readFloat_eq_truncated, htext, numeral_text hp, Option.map_some,
    Numeral.truncated_eq_value (hnumber ▸ hn), hvalue]

theorem isIntf_natCast (n : ℕ) : isIntf n = true := by
  norm_num [isIntf]

/-- The line of a setting stores its value. -/
theorem systemExecuteLine_setting (hd : d ∈ settingDetail formats)
    (hdetails : system.settingGetDetails d.id = some d)
    (hexecute : ∀ value s, system.execute (decimal d.id) (some value) s = none) (value : Bytes)
    (t : State) :
    systemExecuteLine system true (0x24 :: (decimal d.id ++ 0x3D :: value)) t =
      (.setting (settingsStoreSetting system.setter (some d) value t).1,
        (settingsStoreSetting system.setter (some d) value t).2) := by
  obtain ⟨htake, hdrop⟩ := takeWhile_decimal d.id value
  have hread := readFloat_decimal (id_lt hd)
  cases hline : decimal d.id ++ 0x3D :: value with
  | nil => simp at hline
  | cons c text =>
    rw [systemExecuteLine, ← hline]
    · simp only [htake, hdrop, edited_decimal, if_neg (not_isPrefix_help _ _), List.tail?_cons,
        hexecute, hread, isIntf_natCast, Nat.cast_nonneg, Nat.floor_natCast, hdetails]
      simp
    · simp

/-- A line brings a setting of one controller to another one. -/
def Brings (system : System) (s : State) (d : Detail) (line : Bytes) : Prop :=
  ∀ t, systemExecuteLine system true line t =
    (.setting .ok, t.put d.value (restored d.value (s.settings d.value)))

theorem exists_dump (conv : ToUint32 ℚ) (hkept : Kept formats s.settings)
    (hds : ∀ d ∈ ds, d ∈ settingDetail formats)
    (hshort : ∀ d ∈ ds, Short d.value (s.settings d.value))
    (hdetails : ∀ d ∈ ds, system.settingGetDetails d.id = some d)
    (hexecute : ∀ d ∈ ds, ∀ value t, system.execute (decimal d.id) (some value) t = none) :
    ∃ lines, dump conv ds s = some lines ∧ List.Forall₂ (Brings system s) ds lines := by
  induction ds with
  | nil => exact ⟨[], rfl, .nil⟩
  | cons d ds ih =>
    obtain ⟨hd, hds⟩ := List.forall_mem_cons.mp hds
    obtain ⟨hshort, hshorts⟩ := List.forall_mem_cons.mp hshort
    obtain ⟨hdetail, hdetails⟩ := List.forall_mem_cons.mp hdetails
    obtain ⟨hexec, hexecute⟩ := List.forall_mem_cons.mp hexecute
    obtain ⟨lines, hdump, hlines⟩ := ih hds hshorts hdetails hexecute
    obtain ⟨value, hvalue, hstore⟩ := store_settingGetValue system.setter conv hd
      (hkept d hd) hshort s.webuiConnected
    refine ⟨(0x24 :: (decimal d.id ++ 0x3D :: value)) :: lines, ?_, ?_⟩
    · rw [dump] at hdump ⊢
      rw [List.mapM_cons, reportSetting, hvalue, hdump]
      rfl
    · constructor
      · intro t
        rw [systemExecuteLine_setting hd hdetail hexec, hstore t]
      · exact hlines

/-- Lines that bring settings are accepted, and leave all other settings as they were. -/
theorem executeLines_brings {lines : List Bytes} (h : List.Forall₂ (Brings system s) ds lines)
    (t : State) :
    (executeLines system true lines t).1 = ds.map (fun _ => .setting .ok) ∧
      ((executeLines system true lines t).2.settings = fun f =>
        if f ∈ ds.map Detail.value then restored f (s.settings f) else t.settings f) ∧
      (executeLines system true lines t).2.nvs = if ds = [] then t.nvs else
        t.nvs.map fun _ => (executeLines system true lines t).2.settings := by
  induction h generalizing t with
  | nil => exact ⟨rfl, by simp [executeLines], rfl⟩
  | @cons d line ds lines hline _ ih =>
    obtain ⟨hstatus, hsettings, hnvs⟩ := ih (t.put d.value (restored d.value (s.settings d.value)))
    simp only [executeLines, hline t]
    refine ⟨by rw [hstatus, List.map_cons], ?_, ?_⟩
    · rw [hsettings]
      funext f
      by_cases hf : f = d.value
      · simp [hf]
      · simp [hf]
    · rw [hnvs, if_neg (List.cons_ne_nil d ds)]
      split_ifs with hnil
      · subst hnil
        simp [hsettings]
      · rw [State.nvs_put, Option.map_map]
        rfl

end Lines

/-- The test of what a setting has in its field. -/
def Detail.isKept (d : Detail) : Cell → Bool
  | .float (some x) => d.datatype = .decimal ∧ validateValue d (some x) = .ok
  | .uint8 n => d.datatype ∈ [.bitfield, .radioButtons, .axisMask, .int8] ∧
    settingValidateMeUint d (decimal n.toNat) = .ok
  | .uint16 n => d.datatype = .int16 ∧ settingValidateMeUint d (decimal n.toNat) = .ok
  | _ => false

theorem keeps_of_isKept {d : Detail} (hd : d.Sound) {c : Cell} (h : d.isKept c = true) :
    d.Keeps c := by
  have huint : ∀ m < 2 ^ 16, d.datatype ≠ .decimal →
      settingValidateMeUint d (decimal m) = .ok → d.Within m := by
    intro m hm hdec hvalid
    have hread := readUint_decimal (n := m) (hm.trans (by decide)) ends_nil
    rw [List.append_nil] at hread
    exact (hd.settingValidateMeUint_eq hdec hread).mp hvalid
  cases c with
  | float x =>
    cases x with
    | none => cases h
    | some x =>
      obtain ⟨hdec, hvalid⟩ := of_decide_eq_true h
      exact ⟨hdec, x, rfl, (hd.validateValue_eq hdec x).mp hvalid⟩
  | uint8 n =>
    obtain ⟨htype, hvalid⟩ := of_decide_eq_true h
    have hdec : d.datatype ≠ .decimal := by
      intro hdec
      rw [hdec] at htype
      exact absurd htype (by decide)
    exact ⟨htype, huint _ (n.toNat_lt.trans (by decide)) hdec hvalid⟩
  | uint16 n =>
    obtain ⟨htype, hvalid⟩ := of_decide_eq_true h
    exact ⟨htype, huint _ n.toNat_lt (by simp [htype]) hvalid⟩
  | uint32 n => cases h
  | text s => cases h

/-- Settings in the middle of their limits. -/
def plainSettings (f : Field) : Cell :=
  match ((settingDetail {}).find? (·.value = f)).map Detail.datatype with
  | some .decimal => .float (some 0)
  | some .int16 => .uint16 100
  | some .int8 => .uint8 1
  | _ => .uint8 0

theorem kept_plainSettings : Kept {} plainSettings := by
  have hall : ∀ d ∈ settingDetail {}, d.isKept (plainSettings d.value) = true := by
    decide +kernel
  exact fun d hd => keeps_of_isKept (sound_settingDetail {} d hd) (hall d hd)

/-- The deviation of a path at its corners. -/
def cornerDeviation : Detail :=
  ⟨11, .decimal, [], none, none, .isLegacy, .junctionDeviation, false⟩

/-- A system without commands. -/
def bareSystem : System where
  setter := fun _ _ settings => (.ok, settings)
  settingGetDetails := fun id => (settingDetail {}).find? (·.id = id)
  execute := fun _ _ _ => none

end Inspector.Settings
