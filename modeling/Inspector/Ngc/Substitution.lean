import Inspector.Ngc.Operations
import Inspector.NutsBolts.Ftoa

/-! # Parameters in messages

`ngc_substitute_parameters` of `ngc_expr.c`: the first pass finds the length of the message, the
second one writes it. A position in the line is given as the text from there up to the terminator.
What is written into the message is not bounded by what has been allocated for it.
-/

namespace Inspector

namespace Ngc

open Json (Bytes isDigit)

/-- What `get_format` keeps: the decimals that a marker selects, and the digit of a marker. -/
structure FormatState where
  decimals : ℕ
  d : ℕ
  deriving DecidableEq, Repr

/-- `get_format`: the next position in a marker, zero if there is none, or minus the length of a
complete one. -/
def getFormat (floatDecimals : ℕ) (c : UInt8) (pos : ℤ) (s : FormatState) : ℤ × FormatState :=
  if pos = 1 then
    if c = 'd'.toUInt8 then (-2, { s with decimals := 0 })
    else if c = 'f'.toUInt8 then (-2, { s with decimals := floatDecimals })
    else if c = '.'.toUInt8 then (2, s)
    else (0, s)
  else if pos = 2 then
    if isDigit c then (3, { s with d := digitValue c }) else (0, s)
  else if c = 'f'.toUInt8 then (-4, { s with decimals := s.d })
  else (0, s)

/-- `trim_float`. -/
def trimFloat (s : Bytes) : Bytes :=
  if '.'.toUInt8 ∈ s then
    let s := s.rdropWhile (· = '0'.toUInt8)
    if s.getLast? = some '.'.toUInt8 then s.dropLast else s
  else s

/-- What is written for a number with some decimals. -/
def formatted (decimals : ℕ) (value : ℚ) : Bytes :=
  if decimals ≠ 0 then ftoaText value decimals else trimFloat (ftoaText value decimals)

/-- What is written for a reference to a parameter, also if it is not read. -/
def shown (decimals : ℕ) (value : Option ℚ) : Bytes :=
  match value with
  | some value => formatted decimals value
  | none => ['N'.toUInt8, '/'.toUInt8, 'A'.toUInt8]

/-- `ngc_read_parameter` at a `#`: the value, if it is read, and the text behind it. -/
structure ParamReader where
  read : Bytes → Option ℚ × Bytes
  suffix : ∀ text, (read ('#'.toUInt8 :: text)).2 <:+ text

section Passes

variable (floatDecimals : ℕ) (reader : ParamReader)

/-- The variables of the first pass. -/
structure Measure where
  parseFormat : ℤ
  format : FormatState
  len : ℕ
  deriving DecidableEq, Repr

/-- The first pass, in no more than a number of rounds. -/
def measure : ℕ → Measure → Bytes → Measure
  | 0, s, _ => s
  | _ + 1, s, [] => s
  | n + 1, s, c :: line =>
    if s.parseFormat ≠ 0 then
      let (pos, format) := getFormat floatDecimals c s.parseFormat s.format
      if pos < 0 then measure n ⟨0, format, s.len + pos.natAbs⟩ line
      else measure n ⟨pos, format, s.len⟩ line
    else if c = '%'.toUInt8 then measure n { s with parseFormat := 1 } line
    else if c = '#'.toUInt8 then
      let (value, rest) := reader.read (c :: line)
      measure n { s with len := s.len + (shown s.format.decimals value).length } rest
    else measure n { s with len := s.len + 1 } line

/-- The variables of the second pass. -/
structure Message where
  parseFormat : ℤ
  format : FormatState
  fmt : Bytes
  message : Bytes
  deriving DecidableEq, Repr

/-- The second pass; `fmt` is copied up to its terminator. -/
def write : ℕ → Message → Bytes → Message
  | 0, s, _ => s
  | _ + 1, s, [] => s
  | n + 1, s, c :: line =>
    if s.parseFormat ≠ 0 then
      let fmt := s.fmt.set s.parseFormat.toNat c
      let (pos, format) := getFormat floatDecimals c s.parseFormat s.format
      if pos < 0 then write n ⟨0, format, fmt, s.message⟩ line
      else if pos = 0 then write n ⟨0, format, fmt, s.message ++ fmt.takeWhile (· ≠ 0)⟩ line
      else write n ⟨pos, format, fmt, s.message⟩ line
    else if c = '%'.toUInt8 then write n { s with parseFormat := 1, fmt := s.fmt.set 0 c } line
    else if c = '#'.toUInt8 then
      let (value, rest) := reader.read (c :: line)
      write n { s with message := s.message ++ shown s.format.decimals value } rest
    else write n { s with message := s.message ++ [c] } line

/-- The string in a line, up to its terminator and without leading spaces. -/
def trimmed (line : Bytes) : Bytes := (line.takeWhile (· ≠ 0)).dropWhile (· = ' '.toUInt8)

/-- `ngc_substitute_parameters`: the length that is allocated in addition to the terminator, and
the message. The digit is what is left from an earlier marker. -/
def ngcSubstituteParameters (d : ℕ) (line : Bytes) : ℕ × Bytes :=
  let line := trimmed line
  let first := measure floatDecimals reader line.length ⟨0, ⟨floatDecimals, d⟩, 0⟩ line
  let second := write floatDecimals reader line.length
    ⟨first.parseFormat, first.format, List.replicate 5 0, []⟩ line
  (first.len, second.message)

end Passes

end Ngc

end Inspector
