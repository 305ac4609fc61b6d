import Inspector.Ngc.Expressions
import Inspector.Ngc.StringParams

/-! # Flow control

The `O` words of `ngc_flowctrl.c`. The control stack is a list of the entries up to `stack_idx`, the
top one first. A function has no result when it uses an entry while `stack_idx` is -1, an argument
of a call that has not been assigned, or an expression that is not there. What a line finds outside
of the flow control is given with it, and what it does there is kept as a list of effects.
-/

namespace Inspector

namespace Ngc

open Json (Bytes)
open Streams (Allocator)

/-- `ngc_cmd_t`. -/
inductive Cmd
  | noOp | opIf | opElseIf | opElse | opEndIf | opDo | opContinue | opBreak | opWhile | opEndWhile
  | opRepeat | opEndRepeat | opSub | opEndSub | opCall | opReturn | raiseAlarm | raiseError
  deriving DecidableEq, Repr

/-- `ngc_sub_t`, less its link. -/
structure Sub where
  oLabel : UInt32
  file : ℕ
  filePos : ℕ
  lineNumber : ℕ
  deriving DecidableEq, Repr

/-- `ngc_stack_entry_t`. -/
structure StackEntry where
  oLabel : UInt32 := 0
  operation : Cmd := .noOp
  sub : Option ℕ := none
  file : Option ℕ := none
  filePos : ℕ := 0
  lineNumber : ℕ := 0
  expr : Option Bytes := none
  repeats : ℕ := 0
  skip : Bool := false
  handled : Bool := false
  brk : Bool := false
  deriving DecidableEq, Repr

/-- What is done to the streams, the parameters and the system. -/
inductive Effect (V : Type*)
  | reposition (file : Option ℕ) (filePos lineNumber : ℕ)
  | redirect (file : ℕ)
  | close (file : Option ℕ)
  | deleteString (id : UInt32)
  | callPop
  | paramSet (id : ℕ) (value : V)
  | clearValue
  | value (value : Option V)
  | alarm (code : ℤ)

/-- What a line finds outside of the flow control: `hal.stream.file` and the positions in files,
what `ngc_eval_expression` gives for a text, in front of and behind what a subroutine leaves, what
is allocated and set successfully, and the files that `grbl.on_macro_return` unwinds if it is
there. -/
structure Outside (V : Type*) where
  file : Option ℕ
  tell : ℕ → ℕ
  eval : Bytes → Except Status (V × Bytes)
  evalReturned : Bytes → Except Status (V × Bytes)
  param : ℕ → V
  paramSet : ℕ → V → Bool
  stringParam : UInt32 → Option Name
  redirect : Name → Option ℕ
  callPush : Bool
  subAllocated : Bool
  exprAllocated : Bool
  onMacroReturn : Option (List (Option ℕ))

/-- The static variables, with the addresses of the subroutines, and `skip_blocks`. -/
structure FlowCtrl (V : Type*) where
  stack : List StackEntry := []
  skipSub : Bool := false
  subs : List (ℕ × Sub) := []
  execSub : Option ℕ := none
  skipBlocks : Bool := false
  effects : List (Effect V) := []

/-- The statements in the order in which they are looked for. -/
def commandNames : List (Bytes × Cmd) :=
  [(['A', 'L', 'A', 'R', 'M'], .raiseAlarm), (['B', 'R', 'E', 'A', 'K'], .opBreak),
    (['C', 'O', 'N', 'T', 'I', 'N', 'U', 'E'], .opContinue), (['C', 'A', 'L', 'L'], .opCall),
    (['D', 'O'], .opDo), (['E', 'L', 'S', 'E', 'I', 'F'], .opElseIf),
    (['E', 'L', 'S', 'E'], .opElse), (['E', 'N', 'D', 'I', 'F'], .opEndIf),
    (['E', 'N', 'D', 'W', 'H', 'I', 'L', 'E'], .opEndWhile),
    (['E', 'N', 'D', 'R', 'E', 'P', 'E', 'A', 'T'], .opEndRepeat),
    (['E', 'N', 'D', 'S', 'U', 'B'], .opEndSub), (['E', 'R', 'R', 'O', 'R'], .raiseError),
    (['I', 'F'], .opIf), (['R', 'E', 'P', 'E', 'A', 'T'], .opRepeat),
    (['R', 'E', 'T', 'U', 'R', 'N'], .opReturn), (['S', 'U', 'B'], .opSub),
    (['W', 'H', 'I', 'L', 'E'], .opWhile)].map fun (text, operation) =>
      (text.map Char.toUInt8, operation)

/-- `read_command`, with the text behind the statement. -/
def readCommand (line : Bytes) : Option (Cmd × Bytes) := lookup commandNames line

namespace FlowCtrl

variable {V : Type*}

section Stack

variable (s : FlowCtrl V)

/-- `stack[stack_idx]`. -/
def top : Option StackEntry := s.stack.head?

/-- A write to `stack[stack_idx]`. -/
def setTop (g : StackEntry → StackEntry) : Option (FlowCtrl V) :=
  match s.stack with
  | [] => none
  | e :: stack => some { s with stack := g e :: stack }

def emit (effect : Effect V) : FlowCtrl V := { s with effects := s.effects ++ [effect] }

/-- `get_refcount`. -/
def getRefcount : Option ℕ × ℕ :=
  let oLabel := ((s.subs.filter fun x => maxParamId < x.2.oLabel).getLast?.map
    fun x => x.2.oLabel).getD 0
  let named := s.subs.filter fun x => x.2.oLabel = oLabel
  (named.getLast?.map Prod.fst, named.length)

/-- `add_sub`. -/
def addSub (alloc : Allocator) (out : Outside V) (oLabel : UInt32) (lineNumber file : ℕ) :
    Option (ℕ × Sub) × FlowCtrl V :=
  if out.subAllocated then
    let sub := (alloc.malloc (s.subs.map Prod.fst), ⟨oLabel, file, out.tell file, lineNumber⟩)
    (some sub, { s with subs := s.subs ++ [sub] })
  else (none, s)

/-- `clear_subs`. -/
def clearSubs (file : Option ℕ) : FlowCtrl V :=
  { s with subs := s.subs.filter fun x => !(file = none ∨ file = some x.2.file) }

/-- `stack_push`, with `hal.stream.file`. -/
def stackPush (out : Outside V) (file : Option ℕ) (oLabel : UInt32) (lineNumber : ℕ)
    (operation : Cmd) : Status × FlowCtrl V :=
  if s.stack.length < stackDepth ∧ (operation = .opCall → out.callPush = true) then
    (.ok, { s with stack :=
      { oLabel := oLabel, lineNumber := lineNumber, file := file, operation := operation
        sub := s.execSub } :: s.stack })
  else (.flowControlStackOverflow, s)

/-- `stack_pull`. -/
def stackPull : FlowCtrl V :=
  match s.stack with
  | [] => s
  | e :: stack =>
    let s := if e.operation = .opCall then s.emit .callPop else s
    { s with stack := stack }

end Stack

/-- Entries are pulled as long as they meet a condition. -/
def pullWhile (p : StackEntry → Bool) : List StackEntry → FlowCtrl V → FlowCtrl V
  | [], s => s
  | e :: stack, s => if p e then pullWhile p stack s.stackPull else s

/-- The loop of `BREAK` and `CONTINUE`; the condition is looked at again when the stack is empty. -/
def pullToLabel (oLabel : UInt32) : List StackEntry → FlowCtrl V → Option (FlowCtrl V)
  | [], _ => none
  | e :: stack, s => if oLabel ≠ e.oLabel then pullToLabel oLabel stack s.stackPull else some s

section Unwind

variable (s : FlowCtrl V)

/-- `stack_unwind_sub`. -/
def stackUnwindSub (oLabel : UInt32) : FlowCtrl V :=
  let s := pullWhile (fun e => e.oLabel ≠ oLabel) s.stack s
  let s :=
    match s.stack with
    | [] => s
    | e :: _ =>
      let s :=
        if maxParamId < oLabel then
          let (last, count) := s.getRefcount
          let s := if e.sub = last ∧ count = 1 then s.emit (.deleteString oLabel) else s
          (s.clearSubs e.file).emit (.close e.file)
        else s.emit (.reposition e.file e.filePos e.lineNumber)
      s.stackPull
  { s with execSub := s.top.bind StackEntry.sub }

/-- `ngc_flowctrl_unwind_stack`. -/
def ngcFlowctrlUnwindStack (file : Option ℕ) : FlowCtrl V :=
  let s := s.clearSubs file
  pullWhile (fun e => e.file = file) s.stack s

/-- `ngc_flowctrl_init`. -/
def ngcFlowctrlInit : FlowCtrl V :=
  let s := s.clearSubs none
  pullWhile (fun _ => true) s.stack s

end Unwind

section Statements

variable (f : FloatOps V) (nearbyint : V → V) (alloc : Allocator) (out : Outside V)
variable (oLabel : UInt32) (lineNumber : ℕ) (text : Bytes) (skipping : Bool)

/-- What follows the evaluation of an expression, if this succeeds. -/
def withValue (eval : Except Status (V × Bytes)) (s : FlowCtrl V)
    (next : V → Option (Status × FlowCtrl V)) : Option (Status × FlowCtrl V) :=
  match eval with
  | .ok (value, _) => next value
  | .error status => some (status, s)

/-- What follows a push, if this succeeds. -/
def withPush (s : FlowCtrl V) (operation : Cmd)
    (next : FlowCtrl V → Option (Status × FlowCtrl V)) : Option (Status × FlowCtrl V) :=
  match s.stackPush out out.file oLabel lineNumber operation with
  | (.ok, s) => next s
  | (status, s) => some (status, s)

def withTop (s : FlowCtrl V) (next : StackEntry → Option (Status × FlowCtrl V)) :
    Option (Status × FlowCtrl V) := s.top.bind next

/-- A statement that is only used in a file. -/
def inFile (s : FlowCtrl V) (next : ℕ → Option (Status × FlowCtrl V)) :
    Option (Status × FlowCtrl V) :=
  match out.file with
  | some file => next file
  | none => some (.flowControlNotExecutingMacro, s)

/-- A statement that does not belong to the entry on top of the stack. -/
def misplaced (s : FlowCtrl V) : Option (Status × FlowCtrl V) :=
  some (if skipping then .ok else .flowControlSyntaxError, s)

/-- The reading of the file goes on where an entry has been pushed. -/
def goBack (s : FlowCtrl V) (e : StackEntry) : FlowCtrl V :=
  s.emit (.reposition e.file e.filePos e.lineNumber)

/-- `IF`. -/
def ifStatement (s : FlowCtrl V) : Option (Status × FlowCtrl V) :=
  if skipping then some (.ok, s)
  else
    withValue (out.eval text) s fun value =>
      withPush out oLabel lineNumber s .opIf fun s =>
        (s.setTop fun e => { e with skip := f.isZero value, handled := !f.isZero value }).map
          fun s => (.ok, s)

/-- `ELSEIF`. -/
def elseIfStatement (lastOp : Cmd) (s : FlowCtrl V) : Option (Status × FlowCtrl V) :=
  if lastOp = .opIf ∨ lastOp = .opElseIf then
    s.withTop fun e =>
      if oLabel = e.oLabel then
        (s.setTop fun e => { e with skip := e.handled }).bind fun s =>
          if e.handled then some (.ok, s)
          else
            withValue (out.eval text) s fun value =>
              (s.setTop fun e =>
                if f.isZero value then { e with skip := true }
                else { e with skip := false, operation := .opElseIf, handled := true }).map
                  fun s => (.ok, s)
      else some (.ok, s)
  else misplaced skipping s

/-- `ELSE`. -/
def elseStatement (lastOp : Cmd) (s : FlowCtrl V) : Option (Status × FlowCtrl V) :=
  if lastOp = .opIf ∨ lastOp = .opElseIf then
    s.withTop fun e =>
      if oLabel = e.oLabel then
        (s.setTop fun e =>
          if e.handled then { e with skip := true }
          else { e with skip := false, operation := .opElse }).map fun s => (.ok, s)
      else some (.ok, s)
  else misplaced skipping s

/-- `ENDIF`. -/
def endIfStatement (lastOp : Cmd) (s : FlowCtrl V) : Option (Status × FlowCtrl V) :=
  if lastOp = .opIf ∨ lastOp = .opElseIf ∨ lastOp = .opElse then
    s.withTop fun e => some (.ok, if oLabel = e.oLabel then s.stackPull else s)
  else misplaced skipping s

/-- `DO`. -/
def doStatement (s : FlowCtrl V) : Option (Status × FlowCtrl V) :=
  inFile out s fun file =>
    if skipping then some (.ok, s)
    else
      withPush out oLabel lineNumber s .opDo fun s =>
        (s.setTop fun e => { e with filePos := out.tell file, skip := false }).map
          fun s => (.ok, s)

/-- `WHILE` behind a `DO`. -/
def whileOfDo (value : V) (s : FlowCtrl V) (e : StackEntry) : FlowCtrl V :=
  if f.isZero value then s.stackPull else s.goBack e

/-- `WHILE` in front of a loop. -/
def whileOfLoop (file : ℕ) (value : V) (s : FlowCtrl V) : Option (Status × FlowCtrl V) :=
  withPush out oLabel lineNumber s .opWhile fun s =>
    (s.setTop fun e => { e with skip := f.isZero value }).bind fun s =>
      if f.isZero value then some (.ok, s)
      else if out.exprAllocated then
        (s.setTop fun e =>
          { e with expr := some text, file := some file, filePos := out.tell file }).map
            fun s => (.ok, s)
      else some (.flowControlOutOfMemory, s)

/-- `WHILE`. -/
def whileStatement (lastOp : Cmd) (s : FlowCtrl V) : Option (Status × FlowCtrl V) :=
  inFile out s fun file =>
    if s.top.any StackEntry.brk then
      s.withTop fun e =>
        some (.ok, if lastOp = .opDo ∧ oLabel = e.oLabel then s.stackPull else s)
    else if skipping then some (.ok, s)
    else
      withValue (out.eval text) s fun value =>
        if lastOp = .opDo then
          s.withTop fun e =>
            if oLabel = e.oLabel then some (.ok, whileOfDo f value s e)
            else whileOfLoop f out oLabel lineNumber text file value s
        else whileOfLoop f out oLabel lineNumber text file value s

/-- The expression of a loop is evaluated again, and the reading goes on in front of the loop. -/
def whileAgain (s : FlowCtrl V) (e : StackEntry) : Option (Status × FlowCtrl V) :=
  if e.skip then some (.ok, s)
  else
    e.expr.bind fun expr =>
      withValue (out.eval expr) s fun value =>
        (s.setTop fun e => { e with skip := f.isZero value }).map fun s =>
          (.ok, if f.isZero value then s else s.goBack e)

/-- The entry is pulled when it is skipped. -/
def pullSkipped (r : Status × FlowCtrl V) : Status × FlowCtrl V :=
  (r.1, if r.2.top.any StackEntry.skip then r.2.stackPull else r.2)

/-- `ENDWHILE`. -/
def endWhileStatement (lastOp : Cmd) (s : FlowCtrl V) : Option (Status × FlowCtrl V) :=
  inFile out s fun _ =>
    if lastOp = .opWhile then
      s.withTop fun e =>
        if oLabel = e.oLabel then
          (if skipping then some (.ok, s) else whileAgain f out s e).map pullSkipped
        else some (.ok, s)
    else misplaced skipping s

/-- `REPEAT`. -/
def repeatStatement (s : FlowCtrl V) : Option (Status × FlowCtrl V) :=
  inFile out s fun file =>
    if skipping then some (.ok, s)
    else
      withValue (out.eval text) s fun value =>
        withPush out oLabel lineNumber s .opRepeat fun s =>
          let value := nearbyint value
          (s.setTop fun e =>
            if f.le value (f.lit 0) then { e with skip := true }
            else
              { e with
                skip := false
                file := some file
                filePos := out.tell file
                repeats := f.toUint value }).map fun s => (.ok, s)

/-- `ENDREPEAT`. -/
def endRepeatStatement (lastOp : Cmd) (s : FlowCtrl V) : Option (Status × FlowCtrl V) :=
  inFile out s fun _ =>
    if lastOp = .opRepeat then
      s.withTop fun e =>
        if oLabel = e.oLabel then
          if skipping then some (.ok, s.stackPull)
          else
            (s.setTop fun e => { e with repeats := e.repeats - 1 }).map fun s =>
              (.ok, if 1 < e.repeats then s.goBack e else s.stackPull)
        else some (.ok, s)
    else misplaced skipping s

/-- `BREAK`. -/
def breakStatement (s : FlowCtrl V) : Option (Status × FlowCtrl V) :=
  inFile out s fun _ =>
    if skipping then some (.ok, s)
    else
      (pullToLabel oLabel s.stack s).bind fun s =>
        match s.top with
        | some e =>
          if e.operation = .opDo ∨ e.operation = .opWhile ∨ e.operation = .opRepeat then
            if oLabel = e.oLabel then
              (s.setTop fun e =>
                { e with repeats := 0, brk := true, skip := true, handled := true }).map
                  fun s => (.ok, s)
            else some (.ok, s)
          else some (.flowControlSyntaxError, s)
        | none => some (.flowControlSyntaxError, s)

/-- What `CONTINUE` does with its loop. -/
def continueLoop (s : FlowCtrl V) (e : StackEntry) : Option (Status × FlowCtrl V) :=
  match e.operation with
  | .opRepeat =>
    (s.setTop fun e =>
      if 1 < e.repeats then { e with repeats := e.repeats - 1 }
      else { e with repeats := e.repeats - 1, skip := true }).map fun s =>
        (.ok, if 1 < e.repeats then s.goBack e else s)
  | .opDo => some (.ok, s.goBack e)
  | .opWhile => (whileAgain f out s e).map pullSkipped
  | _ => some (.flowControlSyntaxError, s)

/-- `CONTINUE`. -/
def continueStatement (s : FlowCtrl V) : Option (Status × FlowCtrl V) :=
  inFile out s fun _ =>
    if skipping then some (.ok, s)
    else
      (pullToLabel oLabel s.stack s).bind fun s =>
        match s.top with
        | some e =>
          if oLabel = e.oLabel then continueLoop f out s e
          else some (.flowControlSyntaxError, s)
        | none => some (.flowControlSyntaxError, s)

/-- `ALARM`. -/
def alarmStatement (s : FlowCtrl V) : Option (Status × FlowCtrl V) :=
  if skipping then some (.ok, s)
  else
    match out.eval text with
    | .ok (value, _) => some (.ok, s.emit (.alarm (f.toInt value)))
    | .error _ => some (.ok, s)

/-- `ERROR`. -/
def errorStatement (s : FlowCtrl V) : Option (Status × FlowCtrl V) :=
  if skipping then some (.ok, s)
  else
    match out.eval text with
    | .ok (value, _) =>
      some (if f.toInt value = 0 then .ok else .raised (f.toInt value), s)
    | .error _ => some (.ok, s)

/-- The subroutine that is looked for by the first loop of `SUB`. -/
def definedSub (file : ℕ) (s : FlowCtrl V) : Option (ℕ × Sub) :=
  (s.subs.find? fun x => x.2.oLabel = oLabel ∧ x.2.file = file).or s.subs.getLast?

/-- `SUB`. -/
def subStatement (s : FlowCtrl V) : Option (Status × FlowCtrl V) :=
  inFile out s fun file =>
    if maxParamId < oLabel then
      some (if (definedSub oLabel file s).any fun x => x.2.oLabel = oLabel then .ok
        else .flowControlSyntaxError, s)
    else
      let (sub, s) := s.addSub alloc out oLabel lineNumber file
      some (if sub.isSome then .ok else .flowControlOutOfMemory, { s with skipSub := sub.isSome })

/-- The value that a subroutine returns. -/
def returnValue (s : FlowCtrl V) : FlowCtrl V :=
  s.emit (.value ((out.evalReturned text).toOption.map Prod.fst))

/-- `ENDSUB`. -/
def endSubStatement (s : FlowCtrl V) : Option (Status × FlowCtrl V) :=
  inFile out s fun _ =>
    let s := if s.skipSub then s else returnValue out text (s.stackUnwindSub oLabel)
    some (.ok, { s with skipSub := false })

/-- The subroutine that is called, and `hal.stream.file`. -/
def calledSub (s : FlowCtrl V) : Option (ℕ × Sub) × Option ℕ × FlowCtrl V :=
  if maxParamId < oLabel then
    match (out.stringParam oLabel).bind out.redirect with
    | some file =>
      let (sub, s) := (s.emit (.redirect file)).addSub alloc out oLabel lineNumber file
      (sub, some file, s)
    | none => (none, out.file, s)
  else
    (s.subs.find? fun x => x.2.oLabel = oLabel ∧ out.file = some x.2.file, out.file, s)

/-- The loop that reads the arguments of a call. -/
def readArguments : ℕ → Bytes → Except Status (List V)
  | 0, _ => .ok []
  | n + 1, text =>
    if text = [] then .ok []
    else
      match out.eval text with
      | .ok (value, rest) => (readArguments n rest).map fun values => value :: values
      | .error status => .error status

/-- The array `params`, whose elements may not have been assigned. -/
def callParams (values : List V) : List (Option V) :=
  values.map some ++
    if values.length + 1 < 30 then
      (List.range' (values.length + 1) (30 - values.length)).map fun id => some (out.param id)
    else List.replicate (30 - values.length) none

/-- The loop that sets the parameters of a call, from an identifier on. -/
def setParams : List (Option V) → ℕ → Status × FlowCtrl V → Option (Status × FlowCtrl V)
  | [], _, r => some r
  | param :: params, id, r =>
    param.bind fun value =>
      setParams params (id + 1) <|
        if f.isZero value then r
        else if out.paramSet id value then (r.1, r.2.emit (.paramSet id value))
        else (.flowControlOutOfMemory, r.2)

/-- A call with its arguments. -/
def callWith (sub : ℕ × Sub) (file : Option ℕ) (values : List V) (s : FlowCtrl V) :
    Option (Status × FlowCtrl V) :=
  match s.stackPush out file oLabel lineNumber .opCall with
  | (.ok, s) =>
    (s.setTop fun e =>
      { e with
        sub := some sub.1
        file := file
        filePos := (file.map out.tell).getD 0
        repeats := 1 }).bind fun s =>
      (setParams f out (callParams out values) 1 (.ok, { s with execSub := some sub.1 })).map
        fun (status, s) =>
          if status = .ok then
            (.ok, (s.emit .clearValue).emit
              (.reposition (some sub.2.file) sub.2.filePos sub.2.lineNumber))
          else (status, s)
  | (status, s) => some (status, s)

/-- `CALL`. -/
def callStatement (s : FlowCtrl V) : Option (Status × FlowCtrl V) :=
  if out.file.isSome ∨ maxParamId < oLabel then
    if skipping then some (.ok, s)
    else
      match calledSub alloc out oLabel lineNumber s with
      | (none, _, s) => some (.flowControlSyntaxError, s)
      | (some sub, file, s) =>
        match readArguments out 30 text with
        | .ok values => callWith f out oLabel lineNumber sub file values s
        | .error status => some (status, s)
  else some (.flowControlNotExecutingMacro, s)

/-- `RETURN`. -/
def returnStatement (s : FlowCtrl V) : Option (Status × FlowCtrl V) :=
  inFile out s fun _ =>
    if skipping then some (.ok, s)
    else if s.execSub.isSome then some (.ok, returnValue out text (s.stackUnwindSub oLabel))
    else
      match out.onMacroReturn with
      | some files =>
        s.top.map fun e =>
          let s := returnValue out text (s.ngcFlowctrlUnwindStack e.file)
          (.ok, files.foldl ngcFlowctrlUnwindStack s)
      | none => some (.ok, returnValue out text s)

/-- The switch of `ngc_flowctrl`. -/
def statement (operation lastOp : Cmd) (s : FlowCtrl V) : Option (Status × FlowCtrl V) :=
  match operation with
  | .opIf => ifStatement f out oLabel lineNumber text skipping s
  | .opElseIf => elseIfStatement f out oLabel text skipping lastOp s
  | .opElse => elseStatement oLabel skipping lastOp s
  | .opEndIf => endIfStatement oLabel skipping lastOp s
  | .opDo => doStatement out oLabel lineNumber skipping s
  | .opWhile => whileStatement f out oLabel lineNumber text skipping lastOp s
  | .opEndWhile => endWhileStatement f out oLabel skipping lastOp s
  | .opRepeat => repeatStatement f nearbyint out oLabel lineNumber text skipping s
  | .opEndRepeat => endRepeatStatement out oLabel skipping lastOp s
  | .opBreak => breakStatement out oLabel skipping s
  | .opContinue => continueStatement f out oLabel skipping s
  | .raiseAlarm => alarmStatement f out text skipping s
  | .raiseError => errorStatement f out text skipping s
  | .opSub => subStatement alloc out oLabel lineNumber s
  | .opEndSub => endSubStatement out oLabel text s
  | .opCall => callStatement f alloc out oLabel lineNumber text skipping s
  | .opReturn => returnStatement out oLabel text skipping s
  | .noOp => some (.flowControlSyntaxError, s)

end Statements

/-- Lines are skipped, because of a subroutine that is not executed or of the entry on top. -/
def skipping (s : FlowCtrl V) : Bool := s.skipSub || s.top.any StackEntry.skip

/-- `last_op`. -/
def lastOp (s : FlowCtrl V) : Cmd :=
  match s.top with
  | some e => e.operation
  | none => if s.skipSub then .opSub else .noOp

/-- What `ngc_flowctrl` does with the status of a statement. -/
def finish (r : Status × FlowCtrl V) : Status × FlowCtrl V :=
  if r.1 = .ok then (.ok, { r.2 with skipBlocks := r.2.skipping })
  else (r.1, { r.2.ngcFlowctrlInit with skipBlocks := false })

/-- `ngc_flowctrl`. -/
def ngcFlowctrl (f : FloatOps V) (nearbyint : V → V) (alloc : Allocator) (out : Outside V)
    (oLabel : UInt32) (lineNumber : ℕ) (line : Bytes) (s : FlowCtrl V) :
    Option (Status × FlowCtrl V) :=
  match readCommand line with
  | none => some (.flowControlSyntaxError, s)
  | some (operation, text) =>
    (statement f nearbyint alloc out oLabel lineNumber text s.skipping operation s.lastOp s).map
      finish

end FlowCtrl

/-- What happens to the flow control: a line with an `O` word, and what other modules and the
handlers of files call. -/
inductive FlowOp (V : Type*)
  | line (out : Outside V) (oLabel : UInt32) (lineNumber : ℕ) (line : Bytes)
  | unwindStack (file : Option ℕ)
  | unwindSub (oLabel : UInt32)
  | init

/-- An operation, with the status of a line. -/
def FlowOp.exec {V : Type*} (f : FloatOps V) (nearbyint : V → V) (alloc : Allocator)
    (s : FlowCtrl V) : FlowOp V → Option (Status × FlowCtrl V)
  | .line out oLabel lineNumber text => s.ngcFlowctrl f nearbyint alloc out oLabel lineNumber text
  | .unwindStack file => some (.ok, s.ngcFlowctrlUnwindStack file)
  | .unwindSub oLabel => some (.ok, s.stackUnwindSub oLabel)
  | .init => some (.ok, s.ngcFlowctrlInit)

end Ngc

end Inspector
