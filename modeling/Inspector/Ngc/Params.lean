import Inspector.Keyed.List

/-! # NGC parameters

The parameters of all call levels are kept in two lists, one of numbered and one of named
parameters, whose entries carry the context of the call that owns them. Memory does not run out.
The values are those of any type with a zero in place of `float`.
-/

namespace Inspector

namespace Ngc

/-- `NGC_MAX_CALL_LEVEL`. -/
def maxCallLevel : ℕ := 10

/-- `NGC_STACK_DEPTH`. -/
def stackDepth : ℕ := 20

/-- `NGC_MAX_PARAM_LENGTH`. -/
def maxParamLength : ℕ := 30

/-- The address a caller passes as context: that of the parser state plus the call level, or that
of an entry of the flow control stack. -/
inductive Context
  | parser (level : ℕ)
  | flow (idx : ℕ)
  deriving DecidableEq, Repr

abbrev Name := List UInt8

instance : LawfulBEq Name := inferInstance

/-- The identifiers of `ngc_ro_params`, from the first one to the last one of each row. -/
def ngcRoParams : List (ℕ × ℕ) :=
  [(5061, 5069), (5070, 5070), (5161, 5169), (5181, 5189), (5191, 5199), (5210, 5210),
    (5211, 5219), (5220, 5220), (5221, 5230), (5241, 5250), (5261, 5270), (5281, 5290),
    (5301, 5310), (5321, 5330), (5341, 5350), (5361, 5370), (5381, 5390), (5399, 5399),
    (5400, 5400), (5401, 5409), (5420, 5428), (5599, 5599)]

/-- The names of `ngc_named_ro_param`. -/
def ngcNamedRoParam : List Name :=
  ["_vmajor", "_vminor", "_line", "_motion_mode", "_plane", "_ccomp", "_metric", "_imperial",
    "_absolute", "_incremental", "_inverse_time", "_units_per_minute", "_units_per_rev",
    "_coord_system", "_tool_offset", "_retract_r_plane", "_retract_old_z", "_spindle_rpm_mode",
    "_spindle_css_mode", "_ijk_absolute_mode", "_lathe_diameter_mode", "_lathe_radius_mode",
    "_spindle_on", "_spindle_cw", "_mist", "_flood", "_speed_override", "_feed_override",
    "_adaptive_feed", "_feed_hold", "_feed", "_rpm", "_x", "_y", "_z", "_a", "_b", "_c", "_u",
    "_v", "_w", "_abs_x", "_abs_y", "_abs_z", "_abs_a", "_abs_b", "_abs_c", "_abs_u", "_abs_v",
    "_abs_w", "_current_tool", "_current_pocket", "_selected_tool", "_selected_pocket",
    "_call_level", "_probe_state", "_probe2_state", "_toolsetter_state", "_active_probe",
    "_homed_state", "_homed_axes", "_tool_table_size", "_free_memory"].map
      fun s => s.toList.map Char.toUInt8

/-- What the read-only parameters are read as. -/
structure ReadOnly (V : Type*) where
  param : ℕ → V
  named : Name → V

/-- `LCAPS`. -/
def lcaps (c : UInt8) : UInt8 :=
  if 'A'.toUInt8 ≤ c ∧ c ≤ 'Z'.toUInt8 then c ||| 0x20 else c

/-- `ngc_name_tolower`. -/
def nameTolower (name : Name) : Name :=
  ((name.filter fun c => ' '.toUInt8 < c).take (maxParamLength + 1)).map lcaps

/-- A name begins with an underscore. -/
def isGlobal (name : Name) : Bool := name.head? = some '_'.toUInt8

/-- No name, or nothing behind an underscore. -/
def isBlank (name : Name) : Bool := (if isGlobal name then name.drop 1 else name).isEmpty

/-- The static variables of `ngc_params.c`; the innermost call level comes first. -/
structure Params (V : Type*) where
  callLevels : List Context := []
  callContext : Option Context := none
  rwParams : List ((Option Context × ℕ) × V) := []
  rwGlobalParams : List ((Option Context × Name) × V) := []

namespace Params

variable {V : Type*}

/-- `ngc_call_level`. -/
def ngcCallLevel (s : Params V) : ℕ := s.callLevels.length

/-- `ngc_call_push`. -/
def ngcCallPush (context : Context) (s : Params V) : Bool × Params V :=
  if s.ngcCallLevel < maxCallLevel then
    (true, { s with callLevels := context :: s.callLevels, callContext := some context })
  else (false, s)

/-- `ngc_call_pop`. -/
def ngcCallPop (s : Params V) : Params V :=
  match s.callLevels with
  | [] => s
  | _ :: callLevels =>
    let s :=
      match s.callContext with
      | none => s
      | some context =>
        { s with
          rwParams := Keyed.remove (fun key => key.1 = some context) s.rwParams
          rwGlobalParams := Keyed.remove (fun key => key.1 = some context) s.rwGlobalParams }
    { s with callLevels := callLevels, callContext := callLevels.head? }

/-- The context that a numbered parameter belongs to. -/
def paramContext (s : Params V) (id : ℕ) : Option Context :=
  if 30 < id then none else s.callContext

/-- The context that a named parameter belongs to. -/
def nameContext (s : Params V) (name : Name) : Option Context :=
  if isGlobal name then none else s.callContext

variable [Zero V] [DecidableEq V]

/-- `ngc_param_get`. -/
def ngcParamGet (ro : ReadOnly V) (id : ℕ) (s : Params V) : Bool × V :=
  if 0 < id ∧ id < 5061 then (true, (Keyed.read (s.paramContext id, id) s.rwParams).getD 0)
  else if ngcRoParams.any fun row => row.1 ≤ id ∧ id ≤ row.2 then (true, ro.param id)
  else (false, 0)

/-- `ngc_param_set`. -/
def ngcParamSet (id : ℕ) (value : V) (s : Params V) : Bool × Params V :=
  if 0 < id ∧ id < 5061 then
    let key := (s.paramContext id, id)
    if (Keyed.read key s.rwParams).isNone ∧ value = 0 then (true, s)
    else (true, { s with rwParams := Keyed.write key value s.rwParams })
  else (false, s)

/-- `ngc_named_param_get`. -/
def ngcNamedParamGet (ro : ReadOnly V) (name : Name) (s : Params V) : Option V :=
  let name := nameTolower name
  if isBlank name then none
  else if isGlobal name ∧ name ∈ ngcNamedRoParam then some (ro.named name)
  else Keyed.read (s.nameContext name, name) s.rwGlobalParams

/-- `ngc_named_param_set`. -/
def ngcNamedParamSet (name : Name) (value : V) (s : Params V) : Bool × Params V :=
  let name := nameTolower name
  if isBlank name then (false, s)
  else if isGlobal name ∧ name ∈ ngcNamedRoParam then (true, s)
  else if name.length ≤ maxParamLength then
    (true,
      { s with rwGlobalParams := Keyed.write (s.nameContext name, name) value s.rwGlobalParams })
  else (false, s)

/-- The flow control entries up to the one of the innermost subroutine call are in use. -/
def flowInUse : List Context → ℕ
  | [] => 0
  | .parser _ :: levels => flowInUse levels
  | .flow idx :: _ => idx + 1

end Params

/-- Operations on the parameters. The calls are those of `G65` and of a subroutine, which is called
with some control structures open since the enclosing call. -/
inductive ParamOp (V : Type*)
  | set (id : ℕ) (value : V)
  | setNamed (name : Name) (value : V)
  | callMacro
  | callSub (opened : ℕ)
  | pop

namespace Params

variable {V : Type*} [Zero V] [DecidableEq V]

def exec (s : Params V) : ParamOp V → Params V
  | .set id value => (s.ngcParamSet id value).2
  | .setNamed name value => (s.ngcNamedParamSet name value).2
  | .callMacro => (s.ngcCallPush (.parser s.ngcCallLevel)).2
  | .callSub opened =>
    let idx := flowInUse s.callLevels + opened
    if idx < stackDepth then (s.ngcCallPush (.flow idx)).2 else s
  | .pop => s.ngcCallPop

def run (ops : List (ParamOp V)) : Params V := ops.foldl exec {}

end Params

end Ngc

end Inspector
