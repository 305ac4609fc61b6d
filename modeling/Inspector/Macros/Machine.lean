import Inspector.Gcode.Offsets
import Inspector.Transition.Output

/-! # Macro calls

`G65`, `G66` and `M98` call a macro: a file, or a subprogram of the file that is read. The call
pushes an entry on the macro stack and lets the reading go on in the macro; at its end, the end of
the file or `M99`, it is read again until the repeats of the entry are used up. A block is a step.
A refused block, or one that fails, ends the run, and so does the end of the program. Check mode,
where macros are not read, `G66.1` and the macros for tool changes are left out.
-/

namespace Inspector

namespace Macros

open Offsets

/-- `MACRO_STACK_DEPTH`. -/
abbrev macroStackDepth : ℕ := 5

/-- `NGC_MAX_CALL_LEVEL`. -/
abbrev ngcMaxCallLevel : ℕ := 10

/-- `G65Macro_LastInbuilt`. -/
def lastInbuilt : ℕ := 7

/-- The words that call a macro: `macro_call_t`. -/
inductive MacroCall
  | nonModal
  | modal
  | nonModal98
  deriving DecidableEq

/-- The words of a block with a call. -/
structure Words (K : Type*) where
  p : Option K
  l : Option K
  dollar : Bool

/-- A block of a program. The motions are those with `G0` and `G1`, which call the macro of an active
`G66`. The other blocks neither move like that nor call. -/
inductive Block (K A : Type*)
  | other (a : A)
  | motion (a : A)
  | g65 (w : Words K)
  | g66 (w : Words K)
  | g67
  | m98 (motion : Option A) (w : Words K)
  | m99

/-- The arguments of `macro_call`, where `dollar` asks for a subprogram. -/
structure Arguments where
  id : ℕ
  dollar : Bool
  repeats : ℕ

/-- A call with its word. -/
structure Call extends Arguments where
  call : MacroCall

/-- What a run puts out: the blocks that are executed, where the body of a macro begins, and where
the control returns from it. -/
inductive Event (A : Type*)
  | block (a : A)
  | begin (call : MacroCall) (id : ℕ)
  | return (call : MacroCall) (id : ℕ)

/-- `macro_stack_entry_t`. A file is known by the number of files open when it was opened, itself
included. -/
structure Entry where
  call : MacroCall
  id : ℕ
  repeats : ℕ
  file : ℕ
  pos : ℕ
  posReturn : ℕ
  parameterStack : Bool

/-- `g66_arguments_t`. -/
structure G66Arguments extends Arguments where
  callLevel : ℕ

/-- The levels of calls with parameters, and the active modal calls, the last one first. -/
structure Levels where
  callLevel : ℕ
  g66Args : List G66Arguments

/-- A file that is read. A position is a number of blocks. -/
structure Stream (K A : Type*) where
  code : List (Block K A)
  pos : ℕ

/-- The macro stack and the files that are read, the last ones first. The last file in the list is
the program itself. -/
structure State (K A : Type*) where
  macros : List Entry
  levels : Levels
  streams : List (Stream K A)

/-- The conversions, the subprograms of the files, the files with macros, and the inbuilt macros
that accept their arguments. -/
structure Config (K A : Type*) where
  casts : Casts
  toMacroId : K → ℕ
  macroPos : ℕ → ℕ → ℕ
  fileMacro : ℕ → Option (List (Block K A))
  inbuilt : ℕ → Bool

variable {K A : Type*}

section Levels

/-- `ngc_call_push`. -/
def Levels.push (v : Levels) : Option Levels :=
  if v.callLevel < ngcMaxCallLevel then some { v with callLevel := v.callLevel + 1 } else none

/-- `ngc_call_pop`. -/
def Levels.pop (v : Levels) : Levels := { v with callLevel := v.callLevel - 1 }

/-- The modal call that a motion makes. -/
def Levels.modalCall (v : Levels) : Option Call :=
  match v.g66Args with
  | args :: _ => if args.callLevel = v.callLevel then some ⟨args.toArguments, .modal⟩ else none
  | [] => none

/-- `G66` stores the arguments of its call. -/
def Levels.activate (v : Levels) (call : Call) : Levels :=
  { v with g66Args := ⟨call.toArguments, v.callLevel⟩ :: v.g66Args }

/-- `G67`. -/
def Levels.cancel (v : Levels) : Levels := { v with g66Args := v.g66Args.tail }

/-- A call of `G65` or `G66` pushes a level. -/
def Call.enter (call : Call) (v : Levels) : Option Levels :=
  if call.call = .nonModal98 then some v else v.push

end Levels

section Stack

/-- `stream_reposition`. -/
def State.streamReposition (s : State K A) (file pos : ℕ) : State K A :=
  { s with
    streams := s.streams.modify (s.streams.length - file) fun stream =>
      { stream with pos := pos } }

/-- `stream_redirect_close`. -/
def State.streamRedirectClose (s : State K A) (file : ℕ) : State K A :=
  { s with streams := s.streams.eraseIdx (s.streams.length - file) }

/-- `--repeats`, of 32 bits. -/
def decrement (repeats : ℕ) : ℕ := if repeats = 0 then 2 ^ 32 - 1 else repeats - 1

/-- `end_macro`, where nothing failed. -/
def endMacro (s : State K A) : State K A × List (Event A) :=
  match s.macros with
  | [] => (s, [])
  | e :: rest =>
    let repeats := decrement e.repeats
    if repeats ≠ 0 then
      (({ s with macros := { e with repeats := repeats } :: rest }).streamReposition e.file e.pos,
        [.begin e.call e.id])
    else
      let s := if e.posReturn ≠ 0 then s.streamReposition e.file e.posReturn
        else s.streamRedirectClose e.file
      ({ s with
          macros := rest
          levels := if e.parameterStack then s.levels.pop else s.levels },
        [.return e.call e.id])

end Stack

section Call

/-- `macro_execute`, for a macro that is not inbuilt. -/
def macroExecute (c : Config K A) (s : State K A) (call : Call) :
    Option (State K A × List (Event A)) :=
  let file := s.streams.length
  let pos := c.macroPos file call.id
  if macroStackDepth ≤ s.macros.length then none
  else if call.dollar ∧ pos ≠ 0 then
    let posReturn := (s.streams.head?.map Stream.pos).getD 0
    let entry : Entry := ⟨call.call, call.id, call.repeats, file, pos, posReturn, false⟩
    some (({ s with macros := entry :: s.macros }).streamReposition file pos,
      [.begin call.call call.id])
  else
    (c.fileMacro call.id).map fun code =>
      let entry : Entry := ⟨call.call, call.id, call.repeats, file + 1, 0, 0, !call.dollar⟩
      ({ s with macros := entry :: s.macros, streams := ⟨code, 0⟩ :: s.streams },
        [.begin call.call call.id])

/-- `onMacroExecute` with `macro_execute`. An inbuilt macro is executed at once, and then a level is
popped. -/
def onMacroExecute (c : Config K A) (s : State K A) (call : Call) :
    Option (State K A × List (Event A)) :=
  if 1 ≤ call.id ∧ call.id ≤ lastInbuilt then
    if 1 < call.repeats ∨ c.inbuilt call.id = false then none
    else some ({ s with levels := s.levels.pop },
      [.begin call.call call.id, .return call.call call.id])
  else if 100 ≤ call.id then macroExecute c s call
  else none

/-- `macro_call`, with the level that is pushed before it. -/
def macroCall (c : Config K A) (s : State K A) (call : Call) :
    Option (State K A × List (Event A)) :=
  (call.enter s.levels).bind fun levels => onMacroExecute c { s with levels := levels } call

variable [Field K] [LinearOrder K] [FloorRing K]

/-- The checks of a block with a call: the narrowed words, with their default. -/
def readCall (c : Config K A) (kind : MacroCall) (v : Levels) (w : Words K) : Option Call :=
  (readL c.casts w.l).toOption.bind fun l =>
  if v.g66Args ≠ [] then
    some ⟨⟨c.toMacroId (w.p.getD 0), kind = .nonModal98 || kind = .modal && w.dollar, l⟩, kind⟩
  else
    w.p.bind fun p =>
    if 65535 < p then none
    else
      some ⟨⟨c.toMacroId p, kind = .nonModal98 || kind = .modal && w.dollar,
        if w.l = none ∨ l = 0 then 1 else l⟩, kind⟩

/-- A motion, with the modal call after it. -/
def executeMotion (c : Config K A) (s : State K A) (a : A) :
    Option (State K A × List (Event A)) :=
  match s.levels.modalCall with
  | some call => (macroCall c s call).map fun (s, out) => (s, .block a :: out)
  | none => some (s, [.block a])

/-- `gc_execute_block`, of a block that was read. A motion in the block of an `M98` clears the call
or puts the modal one in its place. -/
def gcExecuteBlock (c : Config K A) (s : State K A) :
    Block K A → Option (State K A × List (Event A))
  | .other a => some (s, [.block a])
  | .motion a => executeMotion c s a
  | .g65 w => (readCall c .nonModal s.levels w).bind (macroCall c s)
  | .g66 w => (readCall c .modal s.levels w).map fun call =>
    ({ s with levels := s.levels.activate call }, [])
  | .g67 => some ({ s with levels := s.levels.cancel }, [])
  | .m98 none w => (readCall c .nonModal98 s.levels w).bind (macroCall c s)
  | .m98 (some a) w => (readCall c .nonModal98 s.levels w).bind fun _ => executeMotion c s a
  | .m99 => if s.macros = [] then none else some (endMacro s)

/-- A block is read and executed, or the file ends; `onG65MacroEOF` then ends the macro. -/
def step (c : Config K A) (s : State K A) : Option (State K A × List (Event A)) :=
  match s.streams with
  | [] => none
  | stream :: rest =>
    match stream.code[stream.pos]? with
    | some block =>
      gcExecuteBlock c { s with streams := { stream with pos := stream.pos + 1 } :: rest } block
    | none =>
      if rest ≠ [] ∧ s.macros.head?.map Entry.file = some s.streams.length then
        some (endMacro s)
      else none

end Call

end Macros

end Inspector
