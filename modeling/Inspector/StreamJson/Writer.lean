import Inspector.Json.Parse
import Mathlib.Logic.Function.Basic

/-! # The JSON writer

A file is written to by calls that follow the structure of a document: `stream_json.c`. The bytes
written and the number of elements on every level are kept in the handle.
-/

namespace Inspector

namespace StreamJson

open Json (Bytes)

/-- `json_out`, with what has been written to its file. -/
structure JsonOut where
  file : Bytes := []
  level : ℕ := 0
  maxLevel : ℕ
  elements : ℕ → ℕ := fun _ => 0

/-- A C string. -/
structure CString where
  bytes : Bytes
  ne_zero : ∀ b ∈ bytes, b ≠ 0

/-- A tag without special characters. -/
structure Tag where
  bytes : Bytes
  plain : ∀ b ∈ bytes, Json.Plain b

namespace JsonOut

variable (json : JsonOut)

/-- `vfs_write` and `vfs_puts`. -/
def write (s : Bytes) : JsonOut := { json with file := json.file ++ s }

/-- Count one more element on the current level. -/
def count : JsonOut :=
  { json with
    elements := Function.update json.elements json.level
      ((json.elements json.level + 1) % 2 ^ 32) }

/-- Enter the next level. -/
def enter : JsonOut :=
  { json with
    level := json.level + 1
    elements := Function.update json.elements (json.level + 1) 0 }

/-- Write a comma, unless the element is the first one, and count it. -/
def separate : JsonOut :=
  (if json.elements json.level ≠ 0 then json.write [0x2C] else json).count

/-- `json_start`. -/
def jsonStart (maxLevels : ℕ) : JsonOut := JsonOut.write { maxLevel := maxLevels } [0x7B]

/-- `json_end`. -/
def jsonEnd : JsonOut := json.write [0x7D]

/-- `add_tag`. -/
def addTag (tag : Tag) : Bool × JsonOut :=
  if json.level < json.maxLevel then
    (true, ((json.separate.write [0x22]).write tag.bytes).write [0x22, 0x3A])
  else (false, json)

/-- What the functions that enter or leave a level return. -/
def answer : Bool × JsonOut := (json.level < json.maxLevel, json)

/-- `json_start_object`. -/
def jsonStartObject : Bool × JsonOut :=
  answer (if json.level < json.maxLevel then (json.separate.write [0x7B]).enter else json)

/-- `json_start_tagged_object`. -/
def jsonStartTaggedObject (tag : Tag) : Bool × JsonOut :=
  answer
    (if json.level < json.maxLevel then ((json.addTag tag).2.write [0x7B]).enter else json)

/-- `json_end_object`. -/
def jsonEndObject : Bool × JsonOut :=
  answer
    (if json.level < json.maxLevel then
      let json := json.write [0x7D]
      { json with level := json.level - 1 }
    else json)

/-- `json_start_array`. -/
def jsonStartArray (tag : Tag) : Bool × JsonOut :=
  answer
    (if json.level < json.maxLevel then ((json.addTag tag).2.write [0x5B]).enter else json)

/-- `json_end_array`. -/
def jsonEndArray : Bool × JsonOut :=
  answer
    (if json.level ≠ 0 then
      let json := json.write [0x5D]
      { json with level := json.level - 1 }
    else json)

/-- The letter that stands for a byte behind a backslash. -/
def escape : UInt8 → Option UInt8
  | 0x22 => some 0x22
  | 0x5C => some 0x5C
  | 0x08 => some 0x62
  | 0x0C => some 0x66
  | 0x0A => some 0x6E
  | 0x0D => some 0x72
  | 0x09 => some 0x74
  | _ => none

/-- The loop over the characters of a string: `s2`, as an offset into the string, and `esc[1]`. The
loop leaves `s1` at the start of the string. -/
def scan (s : Bytes) : Option ℕ × UInt8 :=
  s.foldl (fun found c =>
    match escape c with
    | some letter => (some 0, letter)
    | none => (found.1, 0)) (none, 0)

/-- What is written between the quotes. -/
def escaped (s : Bytes) : Bytes :=
  if s.any fun c => (escape c).isSome then
    match scan s with
    | (some s2, letter) => (s.drop s2).take (s2 - 0) ++ [0x5C, letter]
    | (none, _) => s
  else s

/-- `json_add_string`. -/
def jsonAddString (tag : Tag) (s : CString) : Bool × JsonOut :=
  match json.addTag tag with
  | (true, json) => (true, ((json.write [0x22]).write (escaped s.bytes)).write [0x22])
  | (false, json) => (false, json)

/-- `uitoa`. -/
def uitoa (n : ℕ) : Bytes := if n = 0 then [0x30] else (Nat.digits 10 n).reverse.map Json.digit

/-- `json_add_int`. -/
def jsonAddInt (tag : Tag) (value : BitVec 32) : Bool × JsonOut :=
  match json.addTag tag with
  | (true, json) =>
    let v := uitoa (if value.toInt < 0 then -value else value).toNat
    (true, (if value.toInt < 0 then json.write [0x2D] else json).write v)
  | (false, json) => (false, json)

end JsonOut

mutual

/-- A member of an object. -/
inductive Member
  | string (tag : Tag) (s : CString)
  | int (tag : Tag) (value : BitVec 32)
  | object (tag : Tag) (members : Members)
  | array (tag : Tag) (objects : Objects)

/-- The members of an object. -/
inductive Members
  | nil
  | cons (m : Member) (ms : Members)

/-- The objects of an array. -/
inductive Objects
  | nil
  | cons (members : Members) (os : Objects)

end

mutual

/-- The calls that write a member. -/
def Member.write (json : JsonOut) : Member → JsonOut
  | .string tag s => (json.jsonAddString tag s).2
  | .int tag value => (json.jsonAddInt tag value).2
  | .object tag members => (members.write (json.jsonStartTaggedObject tag).2).jsonEndObject.2
  | .array tag objects => (objects.write (json.jsonStartArray tag).2).jsonEndArray.2

/-- The calls that write the members of an object. -/
def Members.write (json : JsonOut) : Members → JsonOut
  | .nil => json
  | .cons m ms => ms.write (m.write json)

/-- The calls that write the objects of an array. -/
def Objects.write (json : JsonOut) : Objects → JsonOut
  | .nil => json
  | .cons members os => os.write (members.write json.jsonStartObject.2).jsonEndObject.2

end

/-- The text of a document. -/
def document (maxLevels : ℕ) (root : Members) : Bytes :=
  (root.write (JsonOut.jsonStart maxLevels)).jsonEnd.file

mutual

/-- The value of a member. -/
def Member.value : Member → Bytes × Json.Value
  | .string tag s => (tag.bytes, .string s.bytes)
  | .int tag value => (tag.bytes, .int value.toInt)
  | .object tag members => (tag.bytes, .object members.values)
  | .array tag objects => (tag.bytes, .array objects.values)

def Members.values : Members → List (Bytes × Json.Value)
  | .nil => []
  | .cons m ms => m.value :: ms.values

def Objects.values : Objects → List Json.Value
  | .nil => []
  | .cons members os => .object members.values :: os.values

end

mutual

/-- How many levels a member needs below its own. -/
def Member.depth : Member → ℕ
  | .string _ _ => 0
  | .int _ _ => 0
  | .object _ members => members.depth + 1
  | .array _ objects => objects.depth + 1

def Members.depth : Members → ℕ
  | .nil => 0
  | .cons m ms => max m.depth ms.depth

def Objects.depth : Objects → ℕ
  | .nil => 0
  | .cons members os => max (members.depth + 1) os.depth

end

end StreamJson

end Inspector
