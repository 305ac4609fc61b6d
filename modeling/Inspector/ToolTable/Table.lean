import Inspector.NutsBolts.Numbers
import Inspector.Planner.Block
import Inspector.Words.Split

/-! # The tool table and its file

`tooltable.c` keeps a pocket for each line of a file in the format of LinuxCNC, and writes the file
again when a tool is set or, with a random tool changer, changed. Offsets and radii are rational
numbers. The counters of the loader are of type `uint_fast8_t`, which is as wide as a register. The
buffers that `writeTools` formats numbers in are taken as long enough.
-/

namespace Inspector

open Json

namespace ToolTable

/-- `tool_data_t`. -/
structure ToolData where
  offset : Axis → ℚ
  radius : ℚ
  toolId : ℤ

/-- `tool_pocket_t`. -/
structure Pocket where
  tool : ToolData
  pocketId : ℤ
  name : Bytes

/-- A pocket that is all zeros. -/
def Pocket.blank : Pocket := ⟨⟨fun _ => 0, 0, 0⟩, 0, []⟩

/-- The pocket that the loader fills from a line. -/
def Pocket.unset : Pocket := ⟨⟨fun _ => 0, 0, -1⟩, -1, []⟩

/-- `sizeof(buf)` in `load_tools`. -/
def bufSize : ℕ := 300

/-- `sizeof(name)` in `tool_pocket_t`. -/
def nameSize : ℕ := 101

/-- The conversion to `uint16_t`. -/
def toUint16 (z : ℤ) : ℕ := (z % 65536).toNat

def axisLetter : Axis → UInt8
  | .x => 0x58
  | .y => 0x59
  | .z => 0x5A
  | .a => 0x41
  | .b => 0x42

/-- The configured axes in the order of their numbers. -/
def axes : List Axis := [.x, .y, .z, .a, .b]

/-- The words of the line of a pocket. -/
def toolWords (p : Pocket) : List Bytes :=
  [0x50 :: decimal (toUint16 p.pocketId), 0x54 :: decimal (toUint16 p.tool.toolId)] ++
    (axes.filter fun i => p.tool.offset i ≠ 0).map
      (fun i => axisLetter i :: fixed3 (p.tool.offset i)) ++
    if p.tool.radius ≠ 0 then [0x44 :: fixed3 (p.tool.radius * 2)] else []

/-- The line of a pocket. -/
def toolLine (p : Pocket) : Bytes :=
  (toolWords p).flatMap (· ++ [0x20]) ++ if p.name ≠ [] then [0x3B, 0x20] ++ p.name else []

/-- The file that `writeTools` writes; the first pocket is left out. -/
def fileText (pockets : List Pocket) : Bytes :=
  (pockets.tail.filter fun p => 0 ≤ p.tool.toolId).flatMap fun p => toolLine p ++ [0x0A]

/-- The status that the loader comes to for a line. -/
inductive LoadStatus | ok | unusedWords | valueOutOfRange | number (e : NumberStatus)
  deriving DecidableEq, Repr

/-- `CAPS`. -/
def caps (c : UInt8) : UInt8 := if 0x61 ≤ c ∧ c ≤ 0x7A then c &&& 0x5F else c

/-- A word is appended to a name as long as it fits. -/
def appendWord (name w : Bytes) : Bytes :=
  if name.length + w.length ≤ nameSize - 2 then
    (if name = [] then w else name ++ 0x20 :: w)
  else name

/-- The name in a comment: its first word, behind the semicolon, and the words that follow. -/
def commentName (first : Bytes) (rest : List Bytes) : Bytes :=
  (rest.foldl appendWord (first.take (nameSize - 1))).map fun c => if c = 0x7C then 0x25 else c

/-- The offset of an axis from a word. -/
def readOffset (i : Axis) (value : Bytes) (p : Pocket) : Except LoadStatus Pocket :=
  match readFloat value with
  | none => .error .valueOutOfRange
  | some (v, _) =>
    .ok { p with tool := { p.tool with offset := Function.update p.tool.offset i v } }

/-- A word of a line other than a comment; words with other letters are skipped. -/
def readWord (letter : UInt8) (value : Bytes) (p : Pocket) : Except LoadStatus Pocket :=
  match caps letter with
  | 0x54 =>
    match readUint value with
    | .error e => .error (.number e)
    | .ok (n, _) => .ok { p with tool := { p.tool with toolId := (n : ℤ).bmod (2 ^ 32) } }
  | 0x50 =>
    match readUint value with
    | .error e => .error (.number e)
    | .ok (n, _) => .ok { p with pocketId := (n : ℤ).bmod (2 ^ 16) }
  | 0x58 => readOffset .x value p
  | 0x59 => readOffset .y value p
  | 0x5A => readOffset .z value p
  | 0x41 => readOffset .a value p
  | 0x42 => readOffset .b value p
  | 0x44 =>
    match readFloat value with
    | none => .error .valueOutOfRange
    | some (v, _) => .ok { p with tool := { p.tool with radius := v / 2 } }
  | _ => .ok p

/-- The words of a line, up to the first error or to a comment. -/
def readWords : List Bytes → Pocket → Except LoadStatus Pocket
  | [], p => .ok p
  | [] :: ws, p => readWords ws p
  | (letter :: value) :: ws, p =>
    if letter = 0x3B then .ok { p with name := commentName value ws }
    else
      match readWord letter value p with
      | .error e => .error e
      | .ok p => readWords ws p

/-- The variables of the second pass of `load_tools`. -/
structure Reader where
  buf : Bytes
  entry : ℕ
  nTools : ℕ
  pockets : List Pocket
  status : LoadStatus

/-- A pocket that was read takes its place: that of its number with a random tool changer, and the
next one without. -/
def Reader.store (random : Bool) (p : Pocket) (r : Reader) : Reader :=
  if 0 ≤ p.tool.toolId ∧ 0 ≤ p.pocketId then
    let entry := if random then p.pocketId.toNat else r.entry + 1
    let r := { r with entry := entry }
    if entry < r.pockets.length then
      { r with nTools := r.nTools + 1, pockets := r.pockets.set entry p }
    else r
  else r

/-- The end of a line. The line ends at its first zero. -/
def Reader.endLine (random : Bool) (r : Reader) : Reader :=
  let line := r.buf.takeWhile (· ≠ 0x00)
  let r := { r with buf := [] }
  if line = [] ∨ line.head? = some 0x3B then r
  else
    match readWords (Words.words 0x20 line) .unset with
    | .error e => { r with status := e }
    | .ok p => { r with status := .ok }.store random p

/-- A character of the second pass; `none` when the zero at the end of a line is written behind the
buffer. -/
def Reader.readChar (random : Bool) (r : Reader) (c : UInt8) : Option Reader :=
  if isLineEnd c then
    if r.buf.length < bufSize then some (r.endLine random) else none
  else some { r with buf := if r.buf.length < bufSize then r.buf ++ [c] else r.buf }

/-- A character of the first pass of `load_tools`: the last character of the line, and the number of
lines that were not empty. -/
def countChar (acc : UInt8 × ℕ) (c : UInt8) : UInt8 × ℕ :=
  if isLineEnd c then (if acc.1 ≠ 0 then (0, acc.2 + 1) else acc) else (c, acc.2)

/-- The first pass of `load_tools`. -/
def countLines (file : Bytes) : ℕ := (file.foldl countChar (0, 0)).2

/-- The tool table and its file. The pockets are `pocket0` alone or an array of at least two;
`pocket0` holds what was last in `pocket0`. Whether `writeTools` has written the file is kept for
the statements. -/
structure Session where
  pockets : List Pocket
  pocket0 : Pocket
  loaded : Bool
  currentTool : ℤ
  file : Bytes
  written : Bool

namespace Session

/-- The number of pockets after the first pass of `load_tools`; memory for more may be missing. -/
def nPockets (malloc : Bool) (file : Bytes) (s : Session) : ℕ :=
  let nTools := countLines file
  if nTools ≠ 0 ∧ (s.pockets.length < nTools + 1 ∨ s.pockets.length = 1) then
    if malloc then nTools + 1 else 1
  else s.pockets.length

/-- `load_tools`: the status is the one of the last line that was read. -/
def loadTools (random malloc : Bool) (file : Bytes) (s : Session) :
    Option (Session × LoadStatus) :=
  let s := { s with pocket0 := if s.pockets.length = 1 then s.pockets.headD s.pocket0 else s.pocket0 }
  let n := s.nPockets malloc file
  if 1 < n then
    (file.foldlM (Reader.readChar random)
      { buf := [], entry := 0, nTools := 0, pockets := List.replicate n .blank
        status := .unusedWords }).map fun r =>
      ({ s with pockets := r.pockets, loaded := decide (0 < r.nTools) }, r.status)
  else some ({ s with pockets := [s.pocket0], loaded := false }, .unusedWords)

/-- `get_pocket`. -/
def getPocket (toolId : ℤ) (s : Session) : Option ℕ :=
  if 0 ≤ toolId then s.pockets.findIdx? fun p => p.tool.toolId = toolId else none

/-- `writeTools`; the file may not open. -/
def writeTools (opens : Bool) (tool : ToolData) (s : Session) : Session :=
  match s.getPocket tool.toolId with
  | none => s
  | some k =>
    let s := { s with pockets := s.pockets.modify k fun p => { p with tool := tool } }
    if opens then { s with file := fileText s.pockets, written := true } else s

/-- What `onToolChanged` does with a random tool changer: the tool that was in the spindle takes the
pocket of the new one, which is in no pocket any more. -/
def swapPockets (opens : Bool) (toolId : ℤ) (s : Session) : Session :=
  match s.getPocket toolId, s.getPocket s.currentTool with
  | some source, some target =>
    let pocketId := (s.pockets[source]?.getD .blank).pocketId
    let s := { s with
      pockets := (s.pockets.modify target fun p => { p with pocketId := pocketId }).modify source
        fun p => { p with pocketId := -1 } }
    s.writeTools opens (s.pockets[target]?.getD .blank).tool
  | _, _ => s

/-- `onToolChanged`. -/
def onToolChanged (random opens : Bool) (toolId : ℤ) (s : Session) : Session :=
  { (if random then s.swapPockets opens toolId else s) with currentTool := toolId }

/-- Updates of the table: `set_tool`, the selection of the next tool and a tool change. -/
inductive Op
  | setTool (opens : Bool) (tool : ToolData)
  | select (toolId : ℤ) (next : Bool)
  | changed (opens : Bool) (toolId : ℤ)

def exec (random : Bool) (s : Session) : Op → Session
  | .setTool opens tool => s.writeTools opens tool
  | .select toolId next => if next then s else { s with currentTool := toolId }
  | .changed opens toolId => s.onToolChanged random opens toolId

end Session

end ToolTable

end Inspector
