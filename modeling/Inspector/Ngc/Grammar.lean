import Inspector.Ngc.Expressions
import Inspector.Precedence.Levels

/-! # The grammar of expressions

Expressions as syntax trees: what they are written as, and what they are worth. An operand is a
number, a parameter, a function or an expression in brackets, behind any signs; an expression is an
operand and a chain of operators with an operand each. The operators are applied by their levels of
precedence. A value that is no finite number is none.
-/

namespace Inspector

namespace Ngc

open Json (Bytes isDigit)

/-- The text of a number without a sign. -/
structure Numeral where
  text : Bytes
  chars : ∀ c ∈ text, isDigit c ∨ c = '.'.toUInt8
  points : text.count '.'.toUInt8 ≤ 1
  digits : ∃ c ∈ text, isDigit c

/-- The name of a parameter. -/
structure ParamName where
  text : Name
  not_mem : '>'.toUInt8 ∉ text
  ne_zero : (0 : UInt8) ∉ text
  length_le : text.length ≤ maxParamLength

/-- An operator between operands. -/
def IsOperator (o : BinaryOp) : Prop := o ≠ .noOp ∧ o ≠ .rightBracket

/-- A function of a value. -/
def IsFunction (o : UnaryOp) : Prop := o ≠ .atan ∧ o ≠ .exist ∧ o ≠ .parameter

mutual

/-- An operand. -/
inductive Operand
  | number (n : Numeral)
  | signed (minus : Bool) (x : Operand)
  | named (name : ParamName)
  | numbered (x : Operand)
  | function (o : UnaryOp) (h : IsFunction o) (x : Operand) (l : Chain)
  | atan (x : Operand) (l : Chain) (y : Operand) (m : Chain)
  | exist (name : ParamName) (h : ']'.toUInt8 ∉ name.text)
  | setting (settingId : Operand)
  | settingBit (settingId bitnum : Operand)
  | bracket (x : Operand) (l : Chain)

/-- The operators of an expression, each with the operand behind it. -/
inductive Chain
  | nil
  | link (o : BinaryOp) (h : IsOperator o) (x : Operand) (l : Chain)

end

/-- What an operation is written as. -/
def nameOf {Op : Type*} [DecidableEq Op] (names : List (Bytes × Op)) (o : Op) : Bytes :=
  ((names.find? fun name => name.2 = o).map Prod.fst).getD []

def BinaryOp.text (o : BinaryOp) : Bytes := nameOf binaryNames o

def UnaryOp.text (o : UnaryOp) : Bytes := nameOf unaryNames o

mutual

/-- What an operand is written as. -/
def Operand.text : Operand → Bytes
  | .number n => n.text
  | .signed minus x => (if minus then '-'.toUInt8 else '+'.toUInt8) :: x.text
  | .named name => '#'.toUInt8 :: '<'.toUInt8 :: (name.text ++ ['>'.toUInt8])
  | .numbered x => '#'.toUInt8 :: x.text
  | .function o _ x l => o.text ++ '['.toUInt8 :: (x.text ++ (l.text ++ [']'.toUInt8]))
  | .atan x l y m =>
    UnaryOp.atan.text ++ '['.toUInt8 :: (x.text ++ (l.text ++ ']'.toUInt8 :: '/'.toUInt8 ::
      '['.toUInt8 :: (y.text ++ (m.text ++ [']'.toUInt8]))))
  | .exist name _ =>
    UnaryOp.exist.text ++ '['.toUInt8 :: '#'.toUInt8 :: '<'.toUInt8 ::
      (name.text ++ ['>'.toUInt8, ']'.toUInt8])
  | .setting settingId => UnaryOp.parameter.text ++ '['.toUInt8 :: (settingId.text ++ [']'.toUInt8])
  | .settingBit settingId bitnum =>
    UnaryOp.parameter.text ++ '['.toUInt8 ::
      (settingId.text ++ ','.toUInt8 :: (bitnum.text ++ [']'.toUInt8]))
  | .bracket x l => '['.toUInt8 :: (x.text ++ (l.text ++ [']'.toUInt8]))

/-- What a chain is written as. -/
def Chain.text : Chain → Bytes
  | .nil => []
  | .link o _ x l => o.text ++ (x.text ++ l.text)

end

section Values

variable {V : Type*} (f : FloatOps V) (store : Store V)

/-- An operation between values. -/
def operation (o : BinaryOp) (v w : V) : Option V := (f.executeBinary v o w).toOption

/-- The levels of precedence of the operators. -/
def topLevel : ℕ := 6

/-- The value of an expression. -/
def expressionValue (x : Option V) (l : Precedence.Links BinaryOp V) : Option V :=
  Precedence.value precedence (operation f) topLevel x l

/-- The value of a number. -/
def numeralValue (n : Numeral) : V :=
  let (scan, _) := scanFloat {} n.text
  f.scale (f.ofInt scan.intval) scan.exp

/-- A finite number. -/
def finite (v : Option V) : Option V := v.filter fun v => !f.invalid v

/-- The integer that a value is close to. -/
def toInteger (v : Option V) : Option ℤ := v.bind fun v => (integerOf f v).toOption

mutual

/-- The value of an operand. -/
def Operand.value : Operand → Option V
  | .number n => finite f (some (numeralValue f n))
  | .signed minus x => finite f (x.value.map fun v => if minus then f.neg v else v)
  | .named name => finite f (namedParam store name.text).toOption
  | .numbered x =>
    finite f ((toInteger f x.value).bind fun n => (numberedParam store false n).toOption)
  | .function o _ x l =>
    finite f ((expressionValue f x.value l.links).bind fun v => (f.executeUnary v o).toOption)
  | .atan x l y m =>
    finite f ((expressionValue f x.value l.links).bind fun v =>
      (expressionValue f y.value m.links).map fun w => f.mul (f.atan2 v w) f.degrad)
  | .exist name _ => finite f (some (f.truth (store.namedParamExists name.text)))
  | .setting settingId =>
    finite f ((toInteger f settingId.value).bind fun n => (settingValue f store n none).toOption)
  | .settingBit settingId bitnum =>
    finite f ((toInteger f settingId.value).bind fun n =>
      (toInteger f bitnum.value).bind fun bit =>
        (bitOf bit).toOption.bind fun bit => (settingValue f store n bit).toOption)
  | .bracket x l => finite f (expressionValue f x.value l.links)

/-- The operators of a chain with the values of their operands. -/
def Chain.links : Chain → Precedence.Links BinaryOp V
  | .nil => []
  | .link o _ x l => (o, x.value) :: l.links

end

end Values

end Ngc

end Inspector
