import Inspector.Ngc.Names
import Inspector.NutsBolts.Numbers

/-! # The operations of expressions

Binary and unary operations on the values of expressions, their levels of precedence, and the texts
that they are written as. The operations of `float` are those of any type of values; the only law
they have is that the sign makes no difference to whether a value is a finite number.
-/

namespace Inspector

namespace Ngc

open Json (Bytes)

/-- The operations of `float`, its constants and its conversions. -/
structure FloatOps (V : Type*) where
  lit : ℚ → V
  ofInt : ℤ → V
  toInt : V → ℤ
  toUint : V → ℕ
  add : V → V → V
  sub : V → V → V
  mul : V → V → V
  div : V → V → V
  fmod : V → V → V
  pow : V → V → V
  atan2 : V → V → V
  neg : V → V
  fabs : V → V
  floor : V → V
  ceil : V → V
  acos : V → V
  asin : V → V
  cos : V → V
  exp : V → V
  log : V → V
  sin : V → V
  sqrt : V → V
  tan : V → V
  lt : V → V → Bool
  le : V → V → Bool
  eq : V → V → Bool
  /-- `isnan` or `isinf`. -/
  invalid : V → Bool
  invalid_neg : ∀ v, invalid (neg v) = invalid v

/-- `ngc_binary_op_t`. -/
inductive BinaryOp
  | noOp | dividedBy | modulo | power | times
  | and2 | exclusiveOR | minus | notExclusiveOR | plus | rightBracket
  | lt | eq | ne | le | ge | gt
  deriving DecidableEq, Repr

/-- `ngc_unary_op_t`. -/
inductive UnaryOp
  | abs | acos | asin | atan | cos | exp | fix | fup | ln | round | sin | sqrt | tan
  | exist | parameter
  deriving DecidableEq, Repr

/-- `precedence`. -/
def precedence : BinaryOp → ℕ
  | .rightBracket => 1
  | .and2 | .exclusiveOR | .notExclusiveOR => 2
  | .lt | .eq | .ne | .le | .ge | .gt => 3
  | .minus | .plus => 4
  | .noOp | .dividedBy | .modulo | .times => 5
  | .power => 6

namespace FloatOps

variable {V : Type*} (f : FloatOps V)

/-- The value of a condition. -/
def truth (b : Bool) : V := if b then f.lit 1 else f.lit 0

/-- `TOLERANCE_EQUAL`. -/
def toleranceEqual : V := f.lit 0.0001

/-- `DEGRAD`. -/
def degrad : V := f.lit 57.29577951308232087680

/-- `RADDEG`. -/
def raddeg : V := f.lit 0.01745329251994329577

def isZero (v : V) : Bool := f.eq v (f.lit 0)

/-- The distance that `EQ` and `NE` compare. -/
def diff (lhs rhs : V) : V :=
  let diff := f.sub lhs rhs
  if f.lt diff (f.lit 0) then f.neg diff else diff

/-- `execute_binary1`. -/
def executeBinary1 (lhs : V) (operation : BinaryOp) (rhs : V) : Except Status V :=
  match operation with
  | .dividedBy =>
    if f.isZero rhs || f.eq rhs (f.neg (f.lit 0)) then .error .expressionDivideByZero
    else .ok (f.div lhs rhs)
  | .modulo =>
    let v := f.fmod lhs rhs
    .ok (if f.lt v (f.lit 0) then f.add v (f.fabs rhs) else v)
  | .power =>
    if f.lt lhs (f.lit 0) && !f.eq (f.floor rhs) rhs then .error .expressionInvalidArgument
    else .ok (f.pow lhs rhs)
  | .times => .ok (f.mul lhs rhs)
  | _ => .error .expressionUknownOp

/-- `execute_binary2`. -/
def executeBinary2 (lhs : V) (operation : BinaryOp) (rhs : V) : Except Status V :=
  match operation with
  | .and2 => .ok (f.truth !(f.isZero lhs || f.isZero rhs))
  | .exclusiveOR =>
    .ok (f.truth ((f.isZero lhs && !f.isZero rhs) || (!f.isZero lhs && f.isZero rhs)))
  | .minus => .ok (f.sub lhs rhs)
  | .notExclusiveOR => .ok (f.truth (!f.isZero lhs || !f.isZero rhs))
  | .plus => .ok (f.add lhs rhs)
  | .lt => .ok (f.truth (f.lt lhs rhs))
  | .eq => .ok (f.truth (f.lt (f.diff lhs rhs) f.toleranceEqual))
  | .ne => .ok (f.truth (f.le f.toleranceEqual (f.diff lhs rhs)))
  | .le => .ok (f.truth (f.le lhs rhs))
  | .ge => .ok (f.truth (f.le rhs lhs))
  | .gt => .ok (f.truth (f.lt rhs lhs))
  | _ => .error .expressionUknownOp

/-- `execute_binary`. -/
def executeBinary (lhs : V) (operation : BinaryOp) (rhs : V) : Except Status V :=
  match operation with
  | .noOp | .dividedBy | .modulo | .power | .times => f.executeBinary1 lhs operation rhs
  | _ => f.executeBinary2 lhs operation rhs

/-- `execute_unary`. -/
def executeUnary (operand : V) (operation : UnaryOp) : Except Status V :=
  match operation with
  | .abs => .ok (if f.lt operand (f.lit 0) then f.mul (f.lit (-1)) operand else operand)
  | .acos =>
    if f.lt operand (f.lit (-1)) || f.lt (f.lit 1) operand then
      .error .expressionArgumentOutOfRange
    else .ok (f.mul (f.acos operand) f.degrad)
  | .asin =>
    if f.lt operand (f.lit (-1)) || f.lt (f.lit 1) operand then
      .error .expressionArgumentOutOfRange
    else .ok (f.mul (f.asin operand) f.degrad)
  | .cos => .ok (f.cos (f.mul operand f.raddeg))
  | .exist => .ok operand
  | .exp => .ok (f.exp operand)
  | .fix => .ok (f.floor operand)
  | .fup => .ok (f.ceil operand)
  | .ln =>
    if f.le operand (f.lit 0) then .error .expressionArgumentOutOfRange else .ok (f.log operand)
  | .round =>
    let half := if f.lt operand (f.lit 0) then f.lit (-0.5) else f.lit 0.5
    .ok (f.ofInt (f.toInt (f.add operand half)))
  | .sin => .ok (f.sin (f.mul operand f.raddeg))
  | .sqrt =>
    if f.lt operand (f.lit 0) then .error .expressionArgumentOutOfRange else .ok (f.sqrt operand)
  | .tan => .ok (f.tan (f.mul operand f.raddeg))
  | .atan | .parameter => .error .expressionUknownOp

/-- The decimal point of `read_float`. -/
def scale (fval : V) (exp : ℤ) : V :=
  if f.isZero fval then fval
  else
    match exp with
    | .ofNat n => (fun v => f.mul v (f.lit 10))^[n] fval
    | .negSucc n =>
      let v := (fun v => f.mul v (f.lit 0.01))^[(n + 1) / 2] fval
      if (n + 1) % 2 = 1 then f.mul v (f.lit 0.1) else v

/-- `read_float`. -/
def readFloat (s : Bytes) : Option (V × Bytes) :=
  let (isNegative, text) := sign s
  let (scan, rest) := scanFloat {} text
  if scan.ok then
    let fval := f.scale (f.ofInt scan.intval) scan.exp
    some (if isNegative then f.neg fval else fval, rest)
  else none

end FloatOps

/-- What is written for the binary operations, a longer text in front of what begins it. -/
def binaryNames : List (Bytes × BinaryOp) :=
  [(['+'], .plus), (['-'], .minus), (['/'], .dividedBy), (['*', '*'], .power), (['*'], .times),
    ([']'], .rightBracket), (['A', 'N', 'D'], .and2), (['M', 'O', 'D'], .modulo),
    (['O', 'R'], .notExclusiveOR), (['X', 'O', 'R'], .exclusiveOR), (['E', 'Q'], .eq),
    (['N', 'E'], .ne), (['G', 'E'], .ge), (['G', 'T'], .gt), (['L', 'E'], .le),
    (['L', 'T'], .lt)].map fun (text, operation) => (text.map Char.toUInt8, operation)

/-- What is written for the unary operations. -/
def unaryNames : List (Bytes × UnaryOp) :=
  [(['A', 'B', 'S'], .abs), (['A', 'C', 'O', 'S'], .acos), (['A', 'S', 'I', 'N'], .asin),
    (['A', 'T', 'A', 'N'], .atan), (['C', 'O', 'S'], .cos), (['E', 'X', 'P'], .exp),
    (['E', 'X', 'I', 'S', 'T', 'S'], .exist), (['F', 'I', 'X'], .fix), (['F', 'U', 'P'], .fup),
    (['L', 'N'], .ln), (['R', 'O', 'U', 'N', 'D'], .round), (['S', 'I', 'N'], .sin),
    (['S', 'Q', 'R', 'T'], .sqrt), (['T', 'A', 'N'], .tan),
    (['P', 'R', 'M'], .parameter)].map fun (text, operation) => (text.map Char.toUInt8, operation)

/-- The first operation whose text begins a text, and what is behind it. -/
def lookup {Op : Type*} (names : List (Bytes × Op)) (s : Bytes) : Option (Op × Bytes) :=
  names.findSome? fun (text, operation) =>
    if text.isPrefixOf s then some (operation, s.drop text.length) else none

/-- `read_operation`. -/
def readOperation (s : Bytes) : Except Status (BinaryOp × Bytes) :=
  match lookup binaryNames s with
  | some found => .ok found
  | none => .error .expressionUknownOp

/-- `read_operation_unary`. -/
def readOperationUnary (s : Bytes) : Except Status (UnaryOp × Bytes) :=
  match lookup unaryNames s with
  | some found => .ok found
  | none => .error .expressionUknownOp

end Ngc

end Inspector
