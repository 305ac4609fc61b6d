import Inspector.Numerals
import Mathlib.Order.Defs.LinearOrder
import Mathlib.Data.Set.Function

/-! # The words of a block

`gc_execute_block` imports the words of a block one after the other. A command word belongs to a
modal group, of which a block may hold one command, and some commands also claim the axis words. A
value word may appear once. Numbers are read before, so a word comes with its value. Expressions,
path blending, acceleration profiles and the `U`, `V` and `W` words of a lathe are not configured.
-/

namespace Inspector

namespace BlockWords

/-- The bits of `modal_groups_t`. -/
inductive Group
  | g0 | g1 | g2 | g3 | g4 | g5 | g6 | g7 | g8 | g10 | g11 | g12 | g13 | g14 | g15 | g16
  | m4 | m5 | m6 | m7 | m8 | m9 | m10
  deriving DecidableEq, Repr

/-- `m_groups`. -/
def Group.isM : Group → Bool
  | m4 | m5 | m6 | m7 | m8 | m9 | m10 => true
  | _ => false

/-- The bits of `parameter_words_t`. -/
inductive Param
  | dollar | a | b | c | i | j | k | d | e | f | h | l | m | n | o | p | q | r | s | t | u | v | w
  | x | y | z
  deriving DecidableEq, Repr

/-- `uint_words`. -/
def Param.isUint : Param → Bool
  | l | n | o => true
  | _ => false

/-- `axis_command_t`, but for `AxisCommand_None`. -/
inductive AxisCommand | nonModal | motionMode | toolLengthOffset | scaling
  deriving DecidableEq, Repr

/-- `non_modal_t`. -/
inductive NonModal
  | noAction | dwell | settings | goHome0 | setHome0 | goHome1 | setHome1 | absoluteOverride
  | setCoordinateOffset | resetCoordinateOffset | clearCoordinateOffset | restoreCoordinateOffset
  deriving DecidableEq, Repr

/-- `motion_mode_t`. -/
inductive MotionMode
  | seek | linear | cwArc | ccwArc | cubicSpline | quadraticSpline | spindleSynchronized
  | drillChipBreak | threading | cannedCycle81 | cannedCycle82 | cannedCycle83 | cannedCycle84
  | cannedCycle85 | cannedCycle86 | cannedCycle89 | probeToward | probeTowardNoError | probeAway
  | probeAwayNoError | none
  deriving DecidableEq, Repr

/-- `plane_select_t`. -/
inductive Plane | xy | zx | yz
  deriving DecidableEq, Repr

/-- `feed_mode_t`. -/
inductive FeedMode | unitsPerMin | inverseTime | unitsPerRev
  deriving DecidableEq, Repr

/-- `tool_offset_mode_t`. -/
inductive ToolOffsetMode | cancel | enable | enableDynamic | applyAdditional
  deriving DecidableEq, Repr

/-- `cc_retract_mode_t`. -/
inductive RetractMode | previous | rPos
  deriving DecidableEq, Repr

/-- `macro_call_t`; a code that it does not name can come from `G66`. -/
inductive MacroCall | none | nonModal | modal | modal1 | nonModal98 | unnamed (code : ℕ)
  deriving DecidableEq, Repr

/-- `program_flow_t`. -/
inductive ProgramFlow
  | running | paused | optionalStop | completedM2 | completedM30 | completedM60 | callReturn
  deriving DecidableEq, Repr

/-- `tool_action_t`. -/
inductive ToolAction | none | change | set
  deriving DecidableEq, Repr

/-- `override_mode_t`. -/
inductive OverrideMode
  | none | feedSpeedEnable | feedSpeedDisable | feedRate | spindleSpeed | feedHold | parking
  deriving DecidableEq, Repr

/-- `io_mcode_t`. -/
inductive IoMcode
  | none | outputOnSynced | outputOffSynced | outputOnImmediate | outputOffImmediate | waitOnInput
  | analogOutSynced | analogOutImmediate
  deriving DecidableEq, Repr

/-- `modal_state_action_t`. -/
inductive StateAction | noAction | save | invalidate | restore | saveAutoRestore
  deriving DecidableEq, Repr

/-- `user_mcode_type_t`, but for `UserMCode_Unsupported`. -/
inductive UserMcodeType | normal | noValueWords
  deriving DecidableEq, Repr

/-- `atc_status_t`. -/
inductive Atc | none | online | offline
  deriving DecidableEq, Repr

inductive Status
  | expectedCommandLetter
  | badNumberFormat
  | gcodeUnsupportedCommand
  | gcodeAxisCommandConflict
  | gcodeCommandValueNotInteger
  | gcodeModalGroupViolation
  | gcodeWordRepeated
  | negativeValue
  deriving DecidableEq, Repr

/-- The conversions of C from a float to an integer type: `int_value`, `mantissa` and the signed
integers. What they give for a number outside of the range of the type is not defined. -/
structure Casts (K : Type*) where
  intValue : K → ℕ
  mantissa : K → ℕ
  toInt32 : K → ℤ
  nanToInt32 : ℤ

/-- The settings, the capabilities of the driver, and the parts of `gc_state` that are read. -/
structure Config where
  latheMode : Bool
  probe : Bool
  nTools : ℕ
  onMacroExecute : Bool
  onMacroReturn : Bool
  streamFile : Bool
  g66Args : Bool
  /-- The arguments of `G66` are those of a `G66.1` at this call level. -/
  g66Modal1 : Bool
  motion : MotionMode
  /-- An optional stop is to be taken. -/
  optionalStop : Bool
  atc : Atc
  toolChangeIgnore : Bool
  suspendRead : Bool
  toolChange : Bool
  mist : Bool
  overrideControl : Bool
  digitalOut : Bool
  waitOnInput : Bool
  analogOut : Bool
  unclaimedDigitalOut : ℕ
  unclaimedDigitalIn : ℕ
  unclaimedAnalogIn : ℕ
  unclaimedAnalogOut : ℕ
  userMcodeCheck : ℕ → Option UserMcodeType

/-- A word with its number; a word without one; and `O`, which takes an unsigned integer. -/
inductive Word (K : Type*)
  | number (letter : Char) (value : K)
  | bare (letter : Char)
  | label (value : ℕ)

/-- A member of `gc_values_t`. -/
inductive Stored (K : Type*)
  | real (value : K)
  | nan
  | int (value : ℤ)

/-- What the import of the words sets: the parts of `gc_block`, and the flags beside it. -/
structure Block (K : Type*) where
  nonModalCommand : NonModal
  motion : MotionMode
  cannedCycleActive : Bool
  cannedCycleChange : Bool
  planeSelect : Plane
  distanceIncremental : Bool
  feedMode : FeedMode
  unitsImperial : Bool
  diameterMode : Bool
  toolOffsetMode : ToolOffsetMode
  g5xOffset : Fin 9
  rpmMode : Bool
  retractMode : RetractMode
  scalingActive : Bool
  programFlow : ProgramFlow
  spindleOn : Bool
  spindleCcw : Bool
  mist : Bool
  flood : Bool
  setCoolant : Bool
  toolAction : ToolAction
  overrideCommand : OverrideMode
  portCommand : IoMcode
  stateAction : StateAction
  userMcode : ℕ
  macroCall : MacroCall
  axisCommand : Option AxisCommand
  commandWords : Group → Bool
  words : Param → Bool
  values : Param → Stored K

/-- What the case of a word sets. -/
inductive Setting (K : Type*)
  | nothing (group : Option Group)
  | nonModal (command : NonModal)
  | motion (mode : MotionMode)
  | cannedCycle (mode : MotionMode) (change : Bool)
  | planeSelect (plane : Plane)
  | distanceIncremental (on : Bool)
  | feedMode (mode : FeedMode)
  | unitsImperial (on : Bool)
  | diameterMode (on : Bool)
  | toolOffsetMode (mode : ToolOffsetMode)
  | g5xOffset (id : Fin 9)
  | rpmMode (css : Bool)
  | retractMode (mode : RetractMode)
  | macroCall98
  | programFlow (flow : ProgramFlow)
  | spindle (on ccw : Bool)
  | coolantMist
  | coolantFlood
  | coolantOff
  | toolAction (action : ToolAction)
  | override (mode : OverrideMode)
  | port (mcode : IoMcode)
  | userMcode (code : ℕ)
  | value (param : Param) (stored : Stored K)

variable {K : Type*}

/-- `word_bit.modal_group` of a command. -/
def Setting.group : Setting K → Option Group
  | nothing group => group
  | nonModal _ => some .g0
  | motion _ | cannedCycle _ _ => some .g1
  | planeSelect _ => some .g2
  | distanceIncremental _ => some .g3
  | feedMode _ => some .g5
  | unitsImperial _ => some .g6
  | toolOffsetMode _ => some .g8
  | retractMode _ => some .g10
  | g5xOffset _ => some .g12
  | rpmMode _ => some .g14
  | diameterMode _ => some .g15
  | macroCall98 => some .g16
  | programFlow _ => some .m4
  | port _ => some .m5
  | toolAction _ => some .m6
  | spindle _ _ => some .m7
  | coolantMist | coolantFlood | coolantOff => some .m8
  | override _ => some .m9
  | userMcode _ => some .m10
  | value _ _ => none

/-- `word_bit.parameter` of a value. -/
def Setting.param : Setting K → Option Param
  | value param _ => some param
  | _ => none

/-- The fields that a setting writes. -/
def Setting.write : Setting K → Block K → Block K
  | nothing _, b => b
  | nonModal command, b => { b with nonModalCommand := command }
  | motion mode, b => { b with motion := mode, cannedCycleActive := false }
  | cannedCycle mode change, b =>
    { b with motion := mode, cannedCycleActive := true, cannedCycleChange := change }
  | planeSelect plane, b => { b with planeSelect := plane }
  | distanceIncremental on, b => { b with distanceIncremental := on }
  | feedMode mode, b => { b with feedMode := mode }
  | unitsImperial on, b => { b with unitsImperial := on }
  | diameterMode on, b => { b with diameterMode := on }
  | toolOffsetMode mode, b => { b with toolOffsetMode := mode }
  | g5xOffset id, b => { b with g5xOffset := id }
  | rpmMode css, b => { b with rpmMode := css }
  | retractMode mode, b => { b with retractMode := mode }
  | macroCall98, b => { b with macroCall := .nonModal98 }
  | programFlow flow, b => { b with programFlow := flow }
  | spindle on ccw, b => { b with spindleOn := on, spindleCcw := ccw }
  | coolantMist, b => { b with mist := true, setCoolant := true }
  | coolantFlood, b => { b with flood := true, setCoolant := true }
  | coolantOff, b => { b with mist := false, flood := false, setCoolant := true }
  | toolAction action, b => { b with toolAction := action }
  | override mode, b => { b with overrideCommand := mode }
  | port mcode, b => { b with portCommand := mcode }
  | userMcode code, b => { b with userMcode := code }
  | value param stored, b => { b with values := Function.update b.values param stored }

/-- What the case of a command word does. The last three are handled out of line: `G65`, `G66` and
`G67`; `G50` and `G51`, which claim the axis words unchecked; and `M70` to `M73`, which have no
modal group. -/
inductive Action (K : Type*)
  | set (claim : Option AxisCommand) (setting : Setting K)
  | callMacro (call : MacroCall) (group : Option Group)
  | scaling (on : Bool)
  | state (action : StateAction)

/-- The axis words are claimed, if they are not claimed yet. -/
def claim (axisCommand : Option AxisCommand) (command : AxisCommand) (setting : Setting K) :
    Except Status (Action K) :=
  if axisCommand.isSome then .error .gcodeAxisCommandConflict
  else .ok (.set (some command) setting)

def motionMode : ℕ → MotionMode
  | 0 => .seek
  | 1 => .linear
  | 2 => .cwArc
  | 3 => .ccwArc
  | 5 => .cubicSpline
  | 33 => .spindleSynchronized
  | 73 => .drillChipBreak
  | 76 => .threading
  | 81 => .cannedCycle81
  | 82 => .cannedCycle82
  | 83 => .cannedCycle83
  | 84 => .cannedCycle84
  | 85 => .cannedCycle85
  | 86 => .cannedCycle86
  | 89 => .cannedCycle89
  | _ => .none

/-- The `switch` over the `G` words: the case of a word and the mantissa that it leaves. -/
def gWord (c : Config) (axisCommand : Option AxisCommand) (g16 : Bool) (intValue mantissa : ℕ) :
    Except Status (Action K × ℕ) :=
  match intValue with
  | 7 | 8 =>
    if c.latheMode then .ok (.set none (.diameterMode (intValue == 7)), mantissa)
    else .error .gcodeUnsupportedCommand
  | 4 => .ok (.set none (.nonModal .dwell), mantissa)
  | 53 => .ok (.set none (.nonModal .absoluteOverride), mantissa)
  | 10 =>
    if mantissa = 0 then (claim axisCommand .nonModal (.nonModal .settings)).map (·, mantissa)
    else .ok (.set none (.nonModal .settings), mantissa)
  | 28 =>
    match mantissa with
    | 0 => (claim axisCommand .nonModal (.nonModal .goHome0)).map (·, 0)
    | 10 => .ok (.set none (.nonModal .setHome0), 0)
    | _ => .error .gcodeUnsupportedCommand
  | 30 =>
    match mantissa with
    | 0 => (claim axisCommand .nonModal (.nonModal .goHome1)).map (·, 0)
    | 10 => .ok (.set none (.nonModal .setHome1), 0)
    | _ => .error .gcodeUnsupportedCommand
  | 92 =>
    match mantissa with
    | 0 => (claim axisCommand .nonModal (.nonModal .setCoordinateOffset)).map (·, 0)
    | 10 => .ok (.set none (.nonModal .resetCoordinateOffset), 0)
    | 20 => .ok (.set none (.nonModal .clearCoordinateOffset), 0)
    | 30 => .ok (.set none (.nonModal .restoreCoordinateOffset), 0)
    | _ => .error .gcodeUnsupportedCommand
  | 33 | 76 =>
    if mantissa ≠ 0 then .error .gcodeUnsupportedCommand
    else (claim axisCommand .motionMode (.motion (motionMode intValue))).map (·, mantissa)
  | 38 =>
    if !c.probe then .error .gcodeUnsupportedCommand
    else
      match mantissa with
      | 20 => (claim axisCommand .motionMode (.motion .probeToward)).map (·, 0)
      | 30 => (claim axisCommand .motionMode (.motion .probeTowardNoError)).map (·, 0)
      | 40 => (claim axisCommand .motionMode (.motion .probeAway)).map (·, 0)
      | 50 => (claim axisCommand .motionMode (.motion .probeAwayNoError)).map (·, 0)
      | _ => .error .gcodeUnsupportedCommand
  | 0 | 1 | 2 | 3 =>
    (claim axisCommand .motionMode (.motion (motionMode intValue))).map (·, mantissa)
  | 5 =>
    if axisCommand.isSome then .error .gcodeAxisCommandConflict
    else
      match mantissa with
      | 0 => .ok (.set (some .motionMode) (.motion .cubicSpline), 0)
      | 10 => .ok (.set (some .motionMode) (.motion .quadraticSpline), 0)
      | _ => .error .gcodeUnsupportedCommand
  | 80 => .ok (.set none (.motion .none), mantissa)
  | 73 | 81 | 82 | 83 | 84 | 85 | 86 | 89 =>
    (claim axisCommand .motionMode
      (.cannedCycle (motionMode intValue) (motionMode intValue != c.motion))).map (·, mantissa)
  | 17 => .ok (.set none (.planeSelect .xy), mantissa)
  | 18 => .ok (.set none (.planeSelect .zx), mantissa)
  | 19 => .ok (.set none (.planeSelect .yz), mantissa)
  | 90 | 91 =>
    if mantissa = 0 then .ok (.set none (.distanceIncremental (intValue == 91)), mantissa)
    else if mantissa ≠ 10 ∨ intValue = 90 then .error .gcodeUnsupportedCommand
    else .ok (.set none (.nothing (some .g4)), 0)
  | 93 => .ok (.set none (.feedMode .inverseTime), mantissa)
  | 94 => .ok (.set none (.feedMode .unitsPerMin), mantissa)
  | 95 => .ok (.set none (.feedMode .unitsPerRev), mantissa)
  | 20 | 21 => .ok (.set none (.unitsImperial (intValue == 20)), mantissa)
  | 40 => .ok (.set none (.nothing (some .g7)), mantissa)
  | 49 => .ok (.set none (.toolOffsetMode .cancel), 0)
  | 43 =>
    if mantissa = 0 ∧ c.nTools ≠ 0 then .ok (.set none (.toolOffsetMode .enable), 0)
    else if mantissa = 20 ∧ c.nTools ≠ 0 then
      .ok (.set none (.toolOffsetMode .applyAdditional), 0)
    else if mantissa = 10 then
      (claim axisCommand .toolLengthOffset (.toolOffsetMode .enableDynamic)).map (·, 0)
    else .error .gcodeUnsupportedCommand
  | 54 => .ok (.set none (.g5xOffset 0), mantissa)
  | 55 => .ok (.set none (.g5xOffset 1), mantissa)
  | 56 => .ok (.set none (.g5xOffset 2), mantissa)
  | 57 => .ok (.set none (.g5xOffset 3), mantissa)
  | 58 => .ok (.set none (.g5xOffset 4), mantissa)
  | 59 =>
    match mantissa with
    | 0 => .ok (.set none (.g5xOffset 5), 0)
    | 10 => .ok (.set none (.g5xOffset 6), 0)
    | 20 => .ok (.set none (.g5xOffset 7), 0)
    | 30 => .ok (.set none (.g5xOffset 8), 0)
    | _ => .error .gcodeUnsupportedCommand
  | 61 =>
    if mantissa ≠ 0 then .error .gcodeUnsupportedCommand
    else .ok (.set none (.nothing (some .g13)), mantissa)
  | 65 =>
    if c.onMacroExecute ∧ mantissa = 0 then .ok (.callMacro .nonModal (some .g16), 0)
    else .error .gcodeUnsupportedCommand
  | 66 =>
    if c.onMacroExecute ∧ mantissa ≤ 10 then
      match mantissa with
      | 0 => .ok (.callMacro .modal (some .g16), 0)
      | 10 => .ok (.callMacro .modal1 (some .g16), 0)
      | _ => .ok (.callMacro (.unnamed (intValue + mantissa * 10)) (some .g16), 0)
    else .error .gcodeUnsupportedCommand
  | 67 =>
    if c.onMacroExecute then
      .ok (.callMacro .none (if g16 ∧ c.g66Args then none else some .g16), mantissa)
    else .error .gcodeUnsupportedCommand
  | 96 | 97 =>
    if c.latheMode then .ok (.set none (.rpmMode (intValue == 96)), mantissa)
    else .error .gcodeUnsupportedCommand
  | 98 => .ok (.set none (.retractMode .previous), mantissa)
  | 99 => .ok (.set none (.retractMode .rPos), mantissa)
  | 50 | 51 => .ok (.scaling (intValue == 51), mantissa)
  | _ => .error .gcodeUnsupportedCommand

/-- The `switch` over the `M` words, with the type of a user M-code. -/
def mWord (c : Config) (intValue mantissa : ℕ) :
    Except Status (Action K × Option UserMcodeType) :=
  match intValue with
  | 0 => .ok (.set none (.programFlow .paused), none)
  | 1 => .ok (.set none (if c.optionalStop then .programFlow .optionalStop
      else .nothing (some .m4)), none)
  | 2 => .ok (.set none (.programFlow .completedM2), none)
  | 30 => .ok (.set none (.programFlow .completedM30), none)
  | 60 => .ok (.set none (.programFlow .completedM60), none)
  | 3 | 4 | 5 => .ok (.set none (.spindle (intValue != 5) (intValue == 4)), none)
  | 6 =>
    if c.atc ≠ .none ∨ !c.toolChangeIgnore then
      if (if c.atc = .none then c.suspendRead else c.atc = .online ∧ c.toolChange) then
        .ok (.set none (.toolAction .change), none)
      else .error .gcodeUnsupportedCommand
    else .ok (.set none (.nothing none), none)
  | 7 => if c.mist then .ok (.set none .coolantMist, none) else .error .gcodeUnsupportedCommand
  | 8 => .ok (.set none .coolantFlood, none)
  | 9 => .ok (.set none .coolantOff, none)
  | 56 =>
    if c.overrideControl then .ok (.set none (.override .parking), none)
    else .error .gcodeUnsupportedCommand
  | 48 => .ok (.set none (.override .feedSpeedEnable), none)
  | 49 => .ok (.set none (.override .feedSpeedDisable), none)
  | 50 => .ok (.set none (.override .feedRate), none)
  | 51 => .ok (.set none (.override .spindleSpeed), none)
  | 53 => .ok (.set none (.override .feedHold), none)
  | 61 => .ok (.set none (.toolAction .set), none)
  | 62 | 63 | 64 | 65 =>
    if !c.digitalOut ∨ c.unclaimedDigitalOut = 0 then .error .gcodeUnsupportedCommand
    else
      .ok (.set none (.port (match intValue with
        | 62 => .outputOnSynced
        | 63 => .outputOffSynced
        | 64 => .outputOnImmediate
        | _ => .outputOffImmediate)), none)
  | 66 =>
    if !c.waitOnInput ∨ c.unclaimedDigitalIn = 0 ∧ c.unclaimedAnalogIn = 0 then
      .error .gcodeUnsupportedCommand
    else .ok (.set none (.port .waitOnInput), none)
  | 67 | 68 =>
    if !c.analogOut ∨ c.unclaimedAnalogOut = 0 then .error .gcodeUnsupportedCommand
    else .ok (.set none (.port (if intValue = 67 then .analogOutSynced
      else .analogOutImmediate)), none)
  | 70 => .ok (.state .save, none)
  | 71 => .ok (.state .invalidate, none)
  | 72 => .ok (.state .restore, none)
  | 73 => .ok (.state .saveAutoRestore, none)
  | 98 =>
    if mantissa ≠ 0 ∨ !c.onMacroExecute then .error .gcodeUnsupportedCommand
    else .ok (.set none .macroCall98, none)
  | 99 =>
    if mantissa ≠ 0 ∨ !(c.streamFile || c.onMacroReturn) then .error .gcodeUnsupportedCommand
    else .ok (.set none (.programFlow .callReturn), none)
  | _ =>
    let code := if mantissa ≠ 0 then intValue * 100 + mantissa else intValue
    match c.userMcodeCheck code with
    | some type => .ok (.set none (.userMcode code), some type)
    | none => .error .gcodeUnsupportedCommand

/-- The letters of the value words. -/
def param : Char → Option Param
  | '$' => some .dollar
  | 'A' => some .a
  | 'B' => some .b
  | 'C' => some .c
  | 'D' => some .d
  | 'E' => some .e
  | 'F' => some .f
  | 'H' => some .h
  | 'I' => some .i
  | 'J' => some .j
  | 'K' => some .k
  | 'L' => some .l
  | 'N' => some .n
  | 'O' => some .o
  | 'P' => some .p
  | 'Q' => some .q
  | 'R' => some .r
  | 'S' => some .s
  | 'T' => some .t
  | 'U' => some .u
  | 'V' => some .v
  | 'W' => some .w
  | 'X' => some .x
  | 'Y' => some .y
  | 'Z' => some .z
  | _ => none

/-- The value that is stored for a letter. -/
def store (k : Casts K) (name : Param) (value : Option K) (intValue mantissa : ℕ) :
    Except Status (Stored K) :=
  match name with
  | .l =>
    if mantissa > 0 then .error .gcodeCommandValueNotInteger
    else .ok (.int (if value.isNone then 255 else intValue % 256))
  | .n => .ok (.int (value.elim k.nanToInt32 k.toInt32))
  | .o => if mantissa = 0 then .ok (.int intValue) else .error .gcodeCommandValueNotInteger
  | .dollar =>
    if mantissa > 0 then .error .gcodeCommandValueNotInteger
    else .ok (.int (value.elim k.nanToInt32 k.toInt32))
  | _ => .ok (value.elim .nan .real)

namespace Block

/-- The check for more than one command of a modal group. -/
def occupy (b : Block K) : Option Group → Except Status (Block K)
  | none => .ok b
  | some group =>
    if b.commandWords group then .error .gcodeModalGroupViolation
    else .ok { b with commandWords := Function.update b.commandWords group true }

/-- The rest of the case of a command word. -/
def perform (b : Block K) : Action K → Except Status (Block K)
  | .set claim setting =>
    (setting.write { b with axisCommand := claim.or b.axisCommand }).occupy setting.group
  | .callMacro call group =>
    let some_m := [Group.m4, .m5, .m6, .m7, .m8, .m9, .m10].any b.commandWords
    let b :=
      if call ≠ .none ∧ some_m then
        { b with
          words := Function.update b.words .m true
          commandWords := fun group => b.commandWords group && !group.isM }
      else b
    { b with macroCall := call }.occupy group
  | .scaling on => { b with axisCommand := some .scaling, scalingActive := on }.occupy (some .g11)
  | .state action => .ok { b with stateAction := action }

/-- The rest of the case of a value word. -/
def assign (b : Block K) (name : Param) (stored : Stored K) (negative : Bool) :
    Except Status (Block K) :=
  if b.words name then .error .gcodeWordRepeated
  else if name.isUint ∧ negative then .error .negativeValue
  else
    .ok { b with
      values := Function.update b.values name stored
      words := Function.update b.words name true }

end Block

/-- The variables of the loop. `m` is the value of the last `M` word, which a macro call reads. -/
structure Scan (K : Type*) where
  block : Block K
  intValue : ℕ
  mantissa : ℕ
  userMcode : Option UserMcodeType
  m : Stored K

/-- A macro call with arguments is in the block. -/
def MacroCall.takesArguments : MacroCall → Bool
  | nonModal | modal | modal1 => true
  | _ => false

variable [LinearOrder K] [Zero K]

namespace Scan

/-- `case 'G'`. -/
def gCase (c : Config) (b : Block K) (x : Scan K) : Except Status (Scan K) := do
  let (action, mantissa) ← gWord c b.axisCommand (b.commandWords .g16) x.intValue x.mantissa
  if mantissa > 0 then .error .gcodeCommandValueNotInteger
  else
    let b ← b.perform action
    return { x with block := b, mantissa := mantissa, userMcode := none }

/-- `case 'M'`. -/
def mCase (c : Config) (value : Option K) (b : Block K) (x : Scan K) : Except Status (Scan K) :=
  let x := { x with m := value.elim .nan .real }
  if b.macroCall.takesArguments then
    if b.words .m then .error .gcodeWordRepeated
    else .ok { x with block := { b with words := Function.update b.words .m true } }
  else if x.intValue ≤ 99 ∧ x.mantissa > 0 then .error .gcodeCommandValueNotInteger
  else do
    let (action, type) ← mWord c x.intValue x.mantissa
    let b ← b.perform action
    return { x with block := b, userMcode := type }

/-- The words that assign values. -/
def valueCase (k : Casts K) (letter : Char) (value : Option K) (b : Block K) (x : Scan K) :
    Except Status (Scan K) :=
  match param letter with
  | none => .error .gcodeUnsupportedCommand
  | some name => do
    let stored ← store k name value x.intValue x.mantissa
    let b ← b.assign name stored (value.any (· < 0))
    return { x with block := b }

/-- The `switch` over the letters. -/
def word (k : Casts K) (c : Config) (letter : Char) (value : Option K) (x : Scan K) :
    Except Status (Scan K) :=
  let b :=
    if c.g66Modal1 then
      { x.block with
        commandWords := Function.update x.block.commandWords .g16 true
        macroCall := .modal1 }
    else x.block
  if letter = 'G' then x.gCase c b
  else if letter = 'M' then x.mCase c value b
  else x.valueCase k letter value b

def isWordLetter (letter : Char) : Bool :=
  !((letter < 'A' && letter != '$') || letter > 'Z')

/-- One word. -/
def step (k : Casts K) (c : Config) (x : Scan K) : Word K → Except Status (Scan K)
  | .number letter value =>
    if !isWordLetter letter then .error .expectedCommandLetter
    else
      { x with intValue := k.intValue value, mantissa := k.mantissa value }.word k c letter
        (some value)
  | .bare letter =>
    if !isWordLetter letter then .error .expectedCommandLetter
    else if x.userMcode = some .noValueWords then x.word k c letter none
    else .error .badNumberFormat
  | .label value => { x with intValue := value }.word k c 'O' none

end Scan

/-- The import of the words of a block. -/
def parse (k : Casts K) (c : Config) (b : Block K) (ws : List (Word K)) :
    Except Status (Scan K) :=
  ws.foldlM (Scan.step k c) ⟨b, 0, 0, none, .nan⟩

end BlockWords

end Inspector
