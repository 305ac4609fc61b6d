import Inspector.ToolTable.Table
import Mathlib.Data.List.TakeWhile

/-! # Normalising a block

`gc_normalize_block` filters a line in place: it reads at `s1`, writes behind it at `s2`, and puts
terminators behind comments for those that handle them. The line stands in front of a terminator.
Characters are unsigned.
-/

namespace Inspector

namespace Gcode

open Json (Bytes)
open ToolTable (caps)

/-- The text at a place in memory. -/
def cstring (mem : Bytes) (k : ℕ) : Bytes := (mem.drop k).takeWhile fun c => c ≠ 0

/-- What handles the text of a comment; it may change the text in place. -/
structure CommentHandler (R : Type*) where
  call : Bytes → R × Bytes
  length_call : ∀ text, (call text).2.length = text.length

/-- What is met at a closing parenthesis: the state of the machine, the driver, the argument for the
message, the handlers and the allocator. -/
structure Setting (S : Type*) where
  skipBlocks : Bool := false
  checkMode : Bool := false
  noGcodeMessageHandling : Bool := false
  takesMessage : Bool := true
  onProcessGcodeComment : Option (CommentHandler (Option Bytes)) := none
  onGcodeComment : Option (CommentHandler S) := none
  malloc : ℕ → Bool := fun _ => true

/-- The variables of the function. A message is what has been allocated for it. -/
structure Scan (S : Type*) where
  mem : Bytes
  s1 : ℕ
  s2 : ℕ
  comment : Option ℕ := none
  status : S
  message : Option Bytes := none

/-- A comment that is taken as the message. -/
def isMsg (comment : Bytes) : Bool := 
  (comment.take 4).map caps = ['M'.toUInt8, 'S'.toUInt8, 'G'.toUInt8, ','.toUInt8]

namespace Scan

variable {S R : Type*} (env : Setting S) (n : Scan S)

/-- A write to memory. -/
def put (i : ℕ) (c : UInt8) : Scan S := { n with mem := n.mem.set i c }

/-- The call of a handler with the text at `k`. -/
def handle (f : CommentHandler R) (k : ℕ) : R × Scan S :=
  let text := cstring n.mem k
  let (r, text') := f.call text
  (r, { n with mem := n.mem.take k ++ text' ++ n.mem.drop (k + text.length) })

/-- The message that a handler finds in the comment at `k`. -/
def process (k : ℕ) : Scan S :=
  match env.onProcessGcodeComment with
  | some f =>
    let (message, n) := n.handle f k
    { n with message := message }
  | none => n

/-- The message behind `MSG,`, without blanks in front. -/
def copyMessage (k : ℕ) : Scan S :=
  if n.message = none ∧ isMsg (cstring n.mem k) ∧ env.malloc (n.s1 - k - 3) then
    let blanks := ((cstring n.mem (k + 4)).takeWhile fun c => c = ' '.toUInt8).length
    { n with message := some ((n.mem.drop (k + 4 + blanks)).take (n.s1 - k - 3 - blanks)) }
  else n

/-- The first message is extracted. -/
def extract (k : ℕ) : Scan S :=
  if !env.noGcodeMessageHandling ∧ env.takesMessage ∧ n.message = none then
    (n.process env k).copyMessage env k
  else n

/-- The comment at `k` is reported when it is no message. -/
def event (k : ℕ) : Scan S :=
  match env.onGcodeComment with
  | some f =>
    if cstring n.mem k ≠ [] ∧ (!env.takesMessage ∨ n.message = none) then
      let (status, n) := n.handle f k
      { n with status := status }
    else n
  | none => n

/-- A closing parenthesis. -/
def close : Scan S :=
  match n.comment with
  | some k =>
    if env.skipBlocks || env.checkMode then { n with comment := none }
    else { ((n.put n.s1 0).extract env k).event env k with comment := none }
  | none => n

/-- A character other than the terminator. -/
def step (c : UInt8) : Scan S :=
  if c ≤ ' '.toUInt8 then { n with s1 := n.s1 + 1 }
  else if c = ';'.toUInt8 then
    if n.comment = none then n.put n.s1 0 else { n with s1 := n.s1 + 1 }
  else if c = '('.toUInt8 then { n with comment := some (n.s1 + 1), s1 := n.s1 + 1 }
  else if c = ')'.toUInt8 then { n.close env with s1 := n.s1 + 1 }
  else if n.comment = none then
    { n.put n.s2 (caps c) with s2 := n.s2 + 1, s1 := n.s1 + 1 }
  else { n with s1 := n.s1 + 1 }

/-- The loop. There is no result when it reads behind the memory, or does not end. -/
def loop (env : ℕ → Setting S) : ℕ → Scan S → Option (Scan S)
  | 0, _ => none
  | fuel + 1, n =>
    (n.mem[n.s1]?).bind fun c => if c = 0 then some n else loop env fuel (n.step (env n.s1) c)

end Scan

/-- What `gc_normalize_block` leaves: the text it returns, the status and the message. -/
structure Normalized (S : Type*) where
  block : Bytes
  status : S
  message : Option Bytes

/-- `gc_normalize_block`. -/
def gcNormalizeBlock {S : Type*} (env : ℕ → Setting S) (blockDelete : Bool) (line : Bytes)
    (status : S) (message : Option Bytes) : Option (Normalized S) :=
  let blanks := (line.takeWhile fun c => c ≤ ' '.toUInt8).length
  let first := (line)[blanks]?
  if first = some ';'.toUInt8 ∨ first = some '/'.toUInt8 ∧ blockDelete then
    some ⟨cstring ((line ++ [0]).set blanks 0) blanks, status, message⟩
  else
    let block := if first = some '/'.toUInt8 then blanks + 1 else blanks
    let start : Scan S := ⟨line ++ [0], block, block, none, status, message⟩
    (start.loop env (line.length + 2)).map fun n =>
      ⟨cstring (n.mem.set n.s2 0) block, n.status, n.message⟩

end Gcode

end Inspector
