import Inspector.NutsBolts.Numerals

/-! # Details of the settings

The rows of `setting_detail` of `settings.c` that are stored directly, without a setter function,
with the limits they declare. Rows with a setter function are left out of the table.
-/

namespace Inspector.Settings

open Json

/-- A text of ASCII characters. -/
def ascii (s : String) : Bytes := s.toList.map fun c => UInt8.ofNat c.toNat

/-- `N_AXIS`. -/
def nAxis : ℕ := 5

/-- `setting_datatype_t`. -/
inductive Datatype
  | bool | bitfield | xbitfield | radioButtons | axisMask | integer | decimal
  | string | password | ipv4 | int8 | int16
  deriving DecidableEq, Repr

/-- `setting_is_string`. -/
def Datatype.isString (d : Datatype) : Bool := d = .string ∨ d = .password ∨ d = .ipv4

/-- `setting_type_t`. -/
inductive SettingType
  | nonCore | nonCoreFn | isExtended | isExtendedFn | isLegacy | isLegacyFn | isExpanded
  | isExpandedFn
  deriving DecidableEq, Repr

/-- `setting_is_core`. -/
def SettingType.isCore (t : SettingType) : Bool := ¬ (t = .nonCore ∨ t = .nonCoreFn)

/-- The types of the settings with a setter function. -/
def SettingType.isFn (t : SettingType) : Bool :=
  t = .nonCoreFn ∨ t = .isExtendedFn ∨ t = .isLegacyFn ∨ t = .isExpandedFn

/-- The fields of `settings_t` that are stored directly. -/
inductive Field
  | steppersIdleLockTime | steppersStepInvertMask | steppersDirInvertMask
  | steppersEnableInvertMask | limitsInvertMask | junctionDeviation | arcTolerance
  | coolantInvertMask | limitsDisablePullupMask | homingDirMaskValue | homingDebounceDelay
  | g73Retract | steppersPulseDelayMicroseconds | pwmSpindleRpmMax | pwmSpindleRpmMin
  | pwmSpindlePwmFreq | pwmSpindlePwmOffValue | pwmSpindlePwmMinValue | pwmSpindlePwmMaxValue
  | spindlePpr | parkingAxis | homingLocateCycles | parkingPulloutIncrement | parkingPulloutRate
  | parkingTarget | parkingRate | safetyDoorFlagsValue | positionPidPGain | positionPidIGain
  | positionPidDGain | positionPidIMaxError | toolChangeFeedRate | toolChangeSeekRate
  | toolChangePulloffRate | homingDualAxisFailLengthPercent | homingDualAxisFailDistanceMin
  | homingDualAxisFailDistanceMax | safetyDoorSpindleOnDelay | safetyDoorCoolantOnDelay
  | plannerBufferBlocks | offsetLockMask | rgbStripLength0 | rgbStripLength1 | fsOptionsMask
  | homeInvertMask | motorWarningEnable | motorWarningInvert | motorFaultEnable | motorFaultInvert
  | stepperEnableDelay
  deriving DecidableEq, Repr

/-- `setting_detail_t`: a minimum and a maximum are texts. -/
structure Detail where
  id : ℕ
  datatype : Datatype
  format : Bytes
  minValue : Option Bytes
  maxValue : Option Bytes
  type : SettingType
  value : Field
  allowNull : Bool
  deriving DecidableEq, Repr

/-- `strnumentries`: the number of entries of a list. -/
def strnumentries (s : Bytes) (delimiter : UInt8) : ℕ :=
  if s = [] then 0 else s.count delimiter + 1

/-- The number of entries in the format of a setting. -/
def Detail.entries (d : Detail) : ℕ := strnumentries d.format 0x2C

/-- The formats that are kept in RAM. `setting_remove_elements` replaces entries by `N/A` or cuts
them off at the end. -/
structure Formats where
  coolantSignals : Bytes := ascii "Flood,Mist"
  doorOptions : Bytes := ascii "Ignore when idle,Keep coolant state on door open"
  fsOptions : Bytes := ascii "Auto mount SD card,Hide LittleFS,Hierarchical listing"
  entries_coolantSignals : strnumentries coolantSignals 0x2C ≤ 2 := by decide
  entries_doorOptions : strnumentries doorOptions 0x2C ≤ 2 := by decide
  entries_fsOptions : strnumentries fsOptions 0x2C ≤ 3 := by decide

/-- The directly stored rows of `setting_detail`. -/
def settingDetail (formats : Formats) : List Detail :=
  [ ⟨1, .int16, [], none, some (ascii "65535"), .isLegacy, .steppersIdleLockTime, false⟩,
    ⟨2, .axisMask, [], none, none, .isLegacy, .steppersStepInvertMask, false⟩,
    ⟨3, .axisMask, [], none, none, .isLegacy, .steppersDirInvertMask, false⟩,
    ⟨4, .axisMask, [], none, none, .isLegacy, .steppersEnableInvertMask, false⟩,
    ⟨5, .axisMask, [], none, none, .isLegacy, .limitsInvertMask, false⟩,
    ⟨11, .decimal, [], none, none, .isLegacy, .junctionDeviation, false⟩,
    ⟨12, .decimal, [], none, none, .isLegacy, .arcTolerance, false⟩,
    ⟨15, .bitfield, formats.coolantSignals, none, none, .isExtended, .coolantInvertMask, false⟩,
    ⟨18, .axisMask, [], none, none, .isExtended, .limitsDisablePullupMask, false⟩,
    ⟨23, .axisMask, [], none, none, .isLegacy, .homingDirMaskValue, false⟩,
    ⟨26, .int16, [], none, none, .isLegacy, .homingDebounceDelay, false⟩,
    ⟨28, .decimal, [], none, none, .isExtended, .g73Retract, false⟩,
    ⟨29, .decimal, [], none, some (ascii "20"),
      .isExtended, .steppersPulseDelayMicroseconds, false⟩,
    ⟨30, .decimal, [], none, none, .isLegacy, .pwmSpindleRpmMax, false⟩,
    ⟨31, .decimal, [], none, none, .isLegacy, .pwmSpindleRpmMin, false⟩,
    ⟨33, .decimal, [], none, none, .isExtended, .pwmSpindlePwmFreq, false⟩,
    ⟨34, .decimal, [], none, some (ascii "100"), .isExtended, .pwmSpindlePwmOffValue, false⟩,
    ⟨35, .decimal, [], none, some (ascii "100"), .isExtended, .pwmSpindlePwmMinValue, false⟩,
    ⟨36, .decimal, [], none, some (ascii "100"), .isExtended, .pwmSpindlePwmMaxValue, false⟩,
    ⟨38, .int16, [], none, none, .isExtended, .spindlePpr, false⟩,
    ⟨42, .radioButtons, ascii "X,Y,Z", none, none, .isExtended, .parkingAxis, false⟩,
    ⟨43, .int8, [], some (ascii "1"), some (ascii "128"), .isExtended, .homingLocateCycles, false⟩,
    ⟨56, .decimal, [], none, none, .isExtended, .parkingPulloutIncrement, false⟩,
    ⟨57, .decimal, [], none, none, .isExtended, .parkingPulloutRate, false⟩,
    ⟨58, .decimal, [], some (ascii "-100000"), none, .isExtended, .parkingTarget, false⟩,
    ⟨59, .decimal, [], none, none, .isExtended, .parkingRate, false⟩,
    ⟨61, .bitfield, formats.doorOptions, none, none, .isExtended, .safetyDoorFlagsValue, false⟩,
    ⟨90, .decimal, [], none, none, .isExtended, .positionPidPGain, false⟩,
    ⟨91, .decimal, [], none, none, .isExtended, .positionPidIGain, false⟩,
    ⟨92, .decimal, [], none, none, .isExtended, .positionPidDGain, false⟩,
    ⟨95, .decimal, [], none, none, .isExtended, .positionPidIMaxError, false⟩,
    ⟨343, .decimal, [], none, none, .isExtended, .toolChangeFeedRate, false⟩,
    ⟨344, .decimal, [], none, none, .isExtended, .toolChangeSeekRate, false⟩,
    ⟨345, .decimal, [], none, none, .isExtended, .toolChangePulloffRate, false⟩,
    ⟨347, .decimal, [], some (ascii "0"), some (ascii "100"),
      .isExtended, .homingDualAxisFailLengthPercent, false⟩,
    ⟨348, .decimal, [], none, none, .isExtended, .homingDualAxisFailDistanceMin, false⟩,
    ⟨349, .decimal, [], none, none, .isExtended, .homingDualAxisFailDistanceMax, false⟩,
    ⟨392, .decimal, [], some (ascii "0.5"), some (ascii "20"),
      .isExtended, .safetyDoorSpindleOnDelay, true⟩,
    ⟨393, .decimal, [], some (ascii "0.5"), some (ascii "20"),
      .isExtended, .safetyDoorCoolantOnDelay, true⟩,
    ⟨398, .int16, [], some (ascii "30"), some (ascii "1000"),
      .isExtended, .plannerBufferBlocks, false⟩,
    ⟨486, .bitfield, ascii "G59.1,G59.2,G59.3", none, none, .isExtended, .offsetLockMask, false⟩,
    ⟨536, .int8, [], none, some (ascii "255"), .nonCore, .rgbStripLength0, false⟩,
    ⟨537, .int8, [], none, some (ascii "255"), .nonCore, .rgbStripLength1, false⟩,
    ⟨650, .bitfield, formats.fsOptions, none, none, .isExtended, .fsOptionsMask, false⟩,
    ⟨671, .axisMask, [], none, none, .isExtended, .homeInvertMask, false⟩,
    ⟨742, .axisMask, [], none, none, .isExtended, .motorWarningEnable, false⟩,
    ⟨743, .axisMask, [], none, none, .isExtended, .motorWarningInvert, false⟩,
    ⟨744, .axisMask, [], none, none, .isExtended, .motorFaultEnable, false⟩,
    ⟨745, .axisMask, [], none, none, .isExtended, .motorFaultInvert, false⟩,
    ⟨680, .int16, [], none, some (ascii "500"), .isExtended, .stepperEnableDelay, false⟩ ]

end Inspector.Settings
