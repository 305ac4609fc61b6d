import Inspector.Settings.Detail

/-! # Storing a setting

`settings_store_setting` of `settings.c` with the validation of a value. Floats are rational
numbers, a float that is not a number is `none`. What `on_changed` does behind a stored setting is
left out.
-/

namespace Inspector.Settings

open Json

/-- The codes of `status_code_t` that storing a setting gives. -/
inductive Status
  | ok | badNumberFormat | negativeValue | commandValueNotInteger | settingValueOutOfRange
  | settingDisabled | invalidStatement
  deriving DecidableEq, Repr

/-- The code of a number that is not read. -/
def Status.ofNumber : NumberStatus → Status
  | .negativeValue => .negativeValue
  | .commandValueNotInteger => .commandValueNotInteger
  | .badNumberFormat => .badNumberFormat

/-- What is stored in a field. -/
inductive Cell
  | float (x : Option ℚ)
  | text (s : Bytes)
  | uint8 (n : UInt8)
  | uint16 (n : UInt16)
  | uint32 (n : UInt32)
  deriving DecidableEq

/-- The number that is read back from a field. -/
def Cell.number : Cell → Option ℚ
  | .float x => x
  | .text _ => none
  | .uint8 n => some n.toNat
  | .uint16 n => some n.toNat
  | .uint32 n => some n.toNat

/-- The settings, and their copy in the storage, if there is one. -/
structure State where
  settings : Field → Cell
  nvs : Option (Field → Cell)
  webuiConnected : Bool

/-- `validate_value`. -/
def validateValue (setting : Detail) (value : Option ℚ) : Status :=
  let status : Status :=
    match setting.minValue with
    | some text =>
      match readFloat text with
      | none => .badNumberFormat
      | some (val, _) =>
        if ¬ (value.any (val ≤ ·) ∨ setting.allowNull ∧ value = some 0) then
          .settingValueOutOfRange
        else .ok
    | none => if value.any (· < 0) then .negativeValue else .ok
  if status ≠ .ok then status
  else
    match setting.maxValue with
    | some text =>
      match readFloat text with
      | none => .badNumberFormat
      | some (val, _) => if value.any (val < ·) then .settingValueOutOfRange else .ok
    | none => .ok

/-- `validate_uint_value`. -/
def validateUintValue (setting : Detail) (value : ℕ) : Status :=
  let status : Status :=
    match setting.minValue with
    | some text =>
      match readUint text with
      | .error status => .ofNumber status
      | .ok (val, _) =>
        if ¬ (val ≤ value ∨ setting.allowNull ∧ value = 0) then .settingValueOutOfRange else .ok
    | none => .ok
  if status ≠ .ok then status
  else
    match setting.maxValue with
    | some text =>
      match readUint text with
      | .error _ => .badNumberFormat
      | .ok (val, _) => if val < value then .settingValueOutOfRange else .ok
    | none => .ok

/-- `setting_validate_me_uint`. -/
def settingValidateMeUint (setting : Detail) (svalue : Bytes) : Status :=
  match readUint svalue with
  | .error status => .ofNumber status
  | .ok (value, _) =>
    match setting.datatype with
    | .bool => if ¬ (value = 0 ∨ value = 1) then .settingValueOutOfRange else .ok
    | .bitfield | .xbitfield =>
      if 2 ^ setting.entries ≤ value then .settingValueOutOfRange else .ok
    | .radioButtons => if setting.entries ≤ value then .settingValueOutOfRange else .ok
    | .axisMask => if 2 ^ nAxis ≤ value then .settingValueOutOfRange else .ok
    | .int8 | .int16 | .integer => validateUintValue setting value
    | _ => .ok

/-- `PASSWORD_MASK`. -/
def passwordMask : Bytes := ascii "********"

/-- `setting_validate_me`. -/
def settingValidateMe (webuiConnected : Bool) (setting : Detail) (value : Option ℚ)
    (svalue : Bytes) : Status :=
  match setting.datatype with
  | .bool | .bitfield | .xbitfield | .radioButtons | .axisMask | .int8 | .int16 | .integer =>
    settingValidateMeUint setting svalue
  | .decimal => validateValue setting value
  | .password =>
    if webuiConnected ∧ svalue = passwordMask then .invalidStatement
    else validateValue setting (some svalue.length)
  | .string => validateValue setting (some svalue.length)
  | .ipv4 => .ok

/-- What is stored in the field of a setting; nothing for a datatype without a field. -/
def Detail.cell (setting : Detail) (value : Option ℚ) (intValue : ℕ) (svalue : Bytes) :
    Option Cell :=
  match setting.datatype with
  | .decimal => some (.float value)
  | .string | .password => some (.text svalue)
  | .axisMask => some (.uint8 (UInt8.ofNat intValue &&& UInt8.ofNat (2 ^ nAxis - 1)))
  | .bool | .bitfield | .xbitfield | .radioButtons | .int8 => some (.uint8 (UInt8.ofNat intValue))
  | .int16 => some (.uint16 (UInt16.ofNat intValue))
  | .integer => some (.uint32 (UInt32.ofNat intValue))
  | .ipv4 => none

/-- What a setter function is called with. -/
inductive Argument
  | float (x : Option ℚ)
  | text (s : Bytes)
  | int (n : ℕ)

/-- The argument that goes with a datatype. -/
def Detail.argument (setting : Detail) (value : Option ℚ) (intValue : ℕ) (svalue : Bytes) :
    Argument :=
  match setting.datatype with
  | .decimal => .float value
  | .string | .password | .ipv4 => .text svalue
  | _ => .int intValue

/-- A setter function of the setting with a number. -/
abbrev Setter := ℕ → Argument → (Field → Cell) → Status × (Field → Cell)

variable (setter : Setter)

/-- The value goes to the setter function or to the field. -/
def Detail.store (setting : Detail) (value : Option ℚ) (intValue : ℕ) (svalue : Bytes)
    (settings : Field → Cell) : Status × (Field → Cell) :=
  if setting.type.isFn then setter setting.id (setting.argument value intValue svalue) settings
  else
    match setting.cell value intValue svalue with
    | some cell => (.ok, Function.update settings setting.value cell)
    | none => (.badNumberFormat, settings)

/-- `_settings_write_global`. -/
def State.save (s : State) : State := { s with nvs := s.nvs.map fun _ => s.settings }

/-- The value of a setting, read as a float or as an unsigned integer. A float that is not read is
not a number. -/
def Detail.read (setting : Detail) (svalue : Bytes) : Option ℚ × Option ℕ :=
  if setting.datatype = .decimal then ((readFloat svalue).map Prod.fst, some 0)
  else if setting.datatype.isString then (none, some 0)
  else (none, (readUint svalue).toOption.map Prod.fst)

/-- `settings_store_setting`, with what `setting_get_details` has found. The test for the step pulse
time compares the details with a null pointer and never holds. -/
def settingsStoreSetting (setting : Option Detail) (svalue : Bytes) (s : State) : Status × State :=
  match setting with
  | none => (.settingDisabled, s)
  | some setting =>
    let svalue := svalue.dropWhile (· = 0x20)
    let (value, intValue) := setting.read svalue
    if (setting.datatype = .decimal ∧ value = none ∨ intValue = none) ∧ setting.type.isCore then
      (.badNumberFormat, s)
    else
      let status := settingValidateMe s.webuiConnected setting value svalue
      if status ≠ .ok then (status, s)
      else
        let (status, settings) := setting.store setter value (intValue.getD 0) svalue s.settings
        let s := { s with settings := settings }
        if status = .ok then (status, s.save) else (status, s)

end Inspector.Settings
