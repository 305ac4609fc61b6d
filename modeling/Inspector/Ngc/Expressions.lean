import Inspector.Ngc.Operations

/-! # Reading expressions

The functions of `ngc_expr.c` that read values out of a line. A position in the line is given as the
text from there up to the terminator. What a variable for a value holds before it is assigned is
looked at when reading it fails. A fault is a use of memory outside of a buffer or of the slots of
the stack, or a nesting that is deeper than the fuel.
-/

namespace Inspector

namespace Ngc

open Json (Bytes isDigit)

/-- `MAX_STACK`. -/
def maxStack : ℕ := 7

/-- What reading at a position comes to. -/
inductive Reading (α : Type*)
  | ok (value : α) (rest : Bytes)
  | error (status : Status)
  | fault
  deriving DecidableEq

namespace Reading

variable {α β : Type*}

def bind (r : Reading α) (f : α → Bytes → Reading β) : Reading β :=
  match r with
  | ok value rest => f value rest
  | error status => error status
  | fault => fault

/-- A result that is found in front of `rest`. -/
def ofExcept (r : Except Status α) (rest : Bytes) : Reading α :=
  match r with
  | .ok value => ok value rest
  | .error status => error status

end Reading

/-- What `setting_get_details` and the functions for the values of settings find. -/
inductive SettingValue (V : Type*)
  | decimal (value : V)
  | integer (value : ℕ)
  | other

/-- The parameters and the settings. -/
structure Store (V : Type*) where
  namedParamGet : Name → Option V
  namedParamExists : Name → Bool
  paramGet : ℕ → Option V
  paramExists : ℕ → Bool
  setting : ℤ → Option (SettingValue V)

/-- The conversion to `ngc_param_id_t`. -/
def toParamId (n : ℤ) : ℕ := (n % 65536).toNat

/-- The arrays of `ngc_eval_expression`. -/
structure Arrays (V : Type*) where
  values : ℕ → V
  operators : ℕ → BinaryOp

section Readers

variable {V : Type*} (f : FloatOps V) (store : Store V) (unset : Bytes → V)
variable (read : Bytes → Reading V)

/-- The integer that a value is close to. -/
def integerOf (fvalue : V) : Except Status ℤ :=
  let value := f.toInt (f.floor fvalue)
  if f.lt (f.lit 0.9999) (f.sub fvalue (f.ofInt value)) then
    .ok ((f.toUint (f.ceil fvalue) : ℤ).bmod (2 ^ 32))
  else if f.lt (f.lit 0.0001) (f.sub fvalue (f.ofInt value)) then
    .error .gcodeCommandValueNotInteger
  else .ok value

/-- `ngc_read_integer_value`. -/
def ngcReadIntegerValue (s : Bytes) : Reading ℤ :=
  (read s).bind fun fvalue rest => .ofExcept (integerOf f fvalue) rest

/-- The name of a parameter, in a buffer of its own. -/
def readName (s : Bytes) : Reading Name :=
  let r := ngcReadName s 0
  if maxParamLength + 1 < r.written.length then .fault
  else if r.status = .ok then .ok (r.written.takeWhile fun c => c ≠ 0) (s.drop r.pos)
  else .error r.status

/-- A parameter by its name. -/
def namedParam (name : Name) : Except Status V :=
  match store.namedParamGet name with
  | some value => .ok value
  | none => .error .badNumberFormat

/-- A parameter by its number. -/
def numberedParam (check : Bool) (param : ℤ) : Except Status V :=
  if param < 0 ∨ check ∧ ¬ store.paramExists (toParamId param) then .error .gcodeValueOutOfRange
  else
    match store.paramGet (toParamId param) with
    | some value => .ok value
    | none => .error .gcodeValueOutOfRange

/-- `ngc_read_parameter`. -/
def ngcReadParameter (check : Bool) (s : Bytes) : Reading V :=
  if s.head? = some '#'.toUInt8 then
    if s.tail.head? = some '<'.toUInt8 then
      (readName s.tail).bind fun name rest => .ofExcept (namedParam store name) rest
    else
      (ngcReadIntegerValue f read s.tail).bind fun param rest =>
        .ofExcept (numberedParam store check param) rest
  else .error .badNumberFormat

/-- The inner loop of `ngc_eval_expression`, from the index of the top of the stack, with the index
at its end. -/
def collapse (a : Arrays V) : ℕ → Except Status (Arrays V × ℕ)
  | 0 => .ok (a, 0)
  | k + 1 =>
    if precedence (a.operators (k + 1)) ≤ precedence (a.operators k) then
      (f.executeBinary (a.values k) (a.operators k) (a.values (k + 1))).bind fun v =>
        let a : Arrays V := ⟨Function.update a.values k v,
          Function.update a.operators k (a.operators (k + 1))⟩
        if 1 < k + 1 ∧ precedence (a.operators k) ≤ precedence (a.operators (k - 1)) then
          collapse a k
        else .ok (a, k + 1)
    else .ok (a, k + 1)

/-- What the outer loop does with a value and the operator behind it, and how it goes on. -/
def advance (next : Arrays V → ℕ → Bytes → Reading V) (a : Arrays V) (stackIndex : ℕ) (value : V)
    (operation : BinaryOp) (rest : Bytes) : Reading V :=
  let a : Arrays V := ⟨Function.update a.values stackIndex value,
    Function.update a.operators stackIndex operation⟩
  if precedence (a.operators (stackIndex - 1)) < precedence (a.operators stackIndex) then
    next a (stackIndex + 1) rest
  else
    (Reading.ofExcept (collapse f a stackIndex) rest).bind fun (a, stackIndex) rest =>
      next a stackIndex rest

/-- The outer loop, with the index of the top of the stack. -/
def evalLoop : ℕ → Arrays V → ℕ → Bytes → Reading V
  | 0, _, _, _ => .fault
  | n + 1, a, stackIndex, s =>
    if a.operators 0 = .rightBracket then .ok (a.values 0) s
    else if 0 < stackIndex ∧ stackIndex < maxStack then
      (read s).bind fun value rest =>
        (Reading.ofExcept (readOperation rest) []).bind fun (operation, rest) _ =>
          advance f (evalLoop n) a stackIndex value operation rest
    else .fault

/-- `ngc_eval_expression`; the first value and operation are put into all slots. -/
def evalExpression (s : Bytes) : Reading V :=
  if s.head? = some '['.toUInt8 then
    (read s.tail).bind fun value rest =>
      (Reading.ofExcept (readOperation rest) []).bind fun (operation, rest) _ =>
        evalLoop f read (rest.length + 1) ⟨fun _ => value, fun _ => operation⟩ 1 rest
  else .error .gcodeUnsupportedCommand

/-- `read_atan`. -/
def readAtan (value : V) (s : Bytes) : Reading V :=
  if s.head? = some '/'.toUInt8 ∧ s.tail.head? = some '['.toUInt8 then
    (evalExpression f read s.tail).bind fun argument2 rest =>
      .ok (f.mul (f.atan2 value argument2) f.degrad) rest
  else .error .expressionSyntaxError

/-- `EXISTS`, behind its bracket. -/
def readExists (s : Bytes) : Reading V :=
  let arg := (s.drop 2).takeWhile fun c => c ≠ ']'.toUInt8
  let rest := (s.drop 2).drop arg.length
  if s.take 2 = ['#'.toUInt8, '<'.toUInt8] ∧ rest.head? = some ']'.toUInt8 ∧
      arg.getLast? = some '>'.toUInt8 then
    .ok (f.truth (store.namedParamExists arg.dropLast)) rest.tail
  else .error .expressionSyntaxError

/-- The number of a bit. -/
def bitOf (bitnum : ℤ) : Except Status (Option ℕ) :=
  if bitnum < 0 ∨ 31 < bitnum then .error .expressionArgumentOutOfRange
  else .ok (some bitnum.toNat)

/-- The number of a bit, if there is one. -/
def readBit (s : Bytes) : Reading (Option ℕ) :=
  if s.head? = some ','.toUInt8 then
    (ngcReadIntegerValue f read s.tail).bind fun bitnum rest => .ofExcept (bitOf bitnum) rest
  else .ok none s

/-- The value of a setting or of a bit of it. -/
def settingValue (settingId : ℤ) (bitnum : Option ℕ) : Except Status V :=
  match store.setting settingId with
  | some (.decimal value) => .ok value
  | some (.integer value) =>
    match bitnum with
    | some bitnum => .ok (f.truth (f.toUint (f.ofInt value) / 2 ^ bitnum % 2 = 1))
    | none => .ok (f.ofInt value)
  | _ => .error .expressionArgumentOutOfRange

/-- `PRM`, behind its bracket. -/
def readPrm (s : Bytes) : Reading V :=
  (ngcReadIntegerValue f read s).bind fun settingId rest =>
    (readBit f read rest).bind fun bitnum rest =>
      if rest.head? = some ']'.toUInt8 then
        .ofExcept (settingValue f store settingId bitnum) rest.tail
      else .error .expressionSyntaxError

/-- `read_unary`. -/
def readUnary (s : Bytes) : Reading V :=
  (Reading.ofExcept (readOperationUnary s) []).bind fun (operation, rest) _ =>
    if rest.head? = some '['.toUInt8 then
      match operation with
      | .exist => readExists f store rest.tail
      | .parameter => readPrm f store read rest.tail
      | .atan => (evalExpression f read rest).bind fun value rest => readAtan f read value rest
      | _ =>
        (evalExpression f read rest).bind fun value rest =>
          .ofExcept (f.executeUnary value operation) rest
    else .error .expressionSyntaxError

/-- A number without parameters and operations. -/
def readNumber (s : Bytes) : Reading V :=
  match f.readFloat s with
  | some (value, rest) => .ok value rest
  | none => .error .badNumberFormat

/-- What is checked of a value that has been read: it is a finite number. -/
def checked (v : V) : Reading V → Reading V
  | .ok value rest => if f.invalid value then .error .expressionInvalidResult else .ok value rest
  | .error status => .error (if f.invalid v then .expressionInvalidResult else status)
  | .fault => .fault

/-- A sign belongs to what follows, unless this is a number. -/
def signs (s : Bytes) : Bool :=
  match s with
  | [] => false
  | c :: _ => !isDigit c && c ≠ '.'.toUInt8

/-- `ngc_read_real_value`, with what it calls for the values inside of it. -/
def realValue (s : Bytes) : Reading V :=
  match s with
  | [] => .error .expressionSyntaxError
  | c :: t =>
    checked f (unset s) <|
      if c = '['.toUInt8 then evalExpression f read s
      else if c = '#'.toUInt8 then ngcReadParameter f store read false s
      else if c = '+'.toUInt8 ∧ signs t then read t
      else if c = '-'.toUInt8 ∧ signs t then (read t).bind fun value rest => .ok (f.neg value) rest
      else if 'A'.toUInt8 ≤ c ∧ c ≤ 'Z'.toUInt8 then readUnary f store read s
      else readNumber f s

end Readers

section Functions

variable {V : Type*} (f : FloatOps V) (store : Store V) (unset : Bytes → V)

/-- The nesting of `ngc_read_real_value`. -/
def readReal : ℕ → Bytes → Reading V
  | 0, _ => .fault
  | n + 1, s => realValue f store unset (readReal n) s

/-- `ngc_read_real_value`. -/
def ngcReadRealValue (s : Bytes) : Reading V := readReal f store unset (s.length + 1) s

/-- `ngc_eval_expression`. -/
def ngcEvalExpression (s : Bytes) : Reading V := evalExpression f (readReal f store unset s.length) s

end Functions

end Ngc

end Inspector
