import Mathlib.Data.List.Basic

/-! # Reading lines in the main loop

`protocol_main_loop` assembles the characters of the input stream into a line, and hands the line
over when its end is reached. Real-time commands have been taken out of the stream before. What the
rest of the firmware does meanwhile is an input of each character. A system abort ends the main
loop, which starts over afterwards.
-/

namespace Inspector

namespace Protocol

/-- `LINE_BUFFER_SIZE`. -/
def lineBufferSize : ℕ := 257

def asciiBS : UInt8 := 0x08
def asciiLF : UInt8 := 0x0A
def asciiCR : UInt8 := 0x0D
def asciiCAN : UInt8 := 0x18
def asciiEOF : UInt8 := 0x1A
def asciiDEL : UInt8 := 0x7F

/-- The status codes that the main loop tells apart. -/
inductive StatusCode
  | ok | overflow | systemGClock | gcodeToolChangePending | other (code : ℕ)
  deriving DecidableEq, Repr

/-- `line_flags_t`, and whether printable real-time commands are kept in the line. -/
structure LineFlags where
  overflow : Bool := false
  commentParentheses : Bool := false
  commentSemicolon : Bool := false
  keepRtCommands : Bool := false
  deriving DecidableEq, Repr

namespace LineFlags

/-- Follow the comments of a line. The driver handles messages in comments if `messages` is set. -/
def track (messages first : Bool) (flags : LineFlags) (c : UInt8) : LineFlags :=
  if c = '$'.toUInt8 ∨ c = '['.toUInt8 then
    if first then { flags with keepRtCommands := true } else flags
  else if c = '('.toUInt8 then
    if !flags.keepRtCommands then
      if !flags.commentSemicolon then
        { flags with commentParentheses := true, keepRtCommands := messages }
      else { flags with commentParentheses := false }
    else flags
  else if c = ')'.toUInt8 then
    if !flags.commentSemicolon then
      { flags with commentParentheses := false, keepRtCommands := false }
    else flags
  else if c = ';'.toUInt8 then
    if !flags.commentParentheses then
      { flags with keepRtCommands := false, commentSemicolon := true }
    else flags
  else flags

end LineFlags

/-- `recheck_line`. -/
def recheckLine (messages : Bool) : List UInt8 → LineFlags
  | [] => {}
  | c :: line => line.foldl (LineFlags.track messages false) (LineFlags.track messages true {} c)

/-- What the firmware does when a line ends. -/
structure LineEnv where
  realtimeAbort : Bool
  aborted : Bool
  userCommands : Bool
  alarm : Bool
  jog : Bool
  result : StatusCode
  deriving DecidableEq, Repr

/-- How an end of line is answered: with the text that is handed over, if any. -/
inductive Answer
  | secondary
  | abort
  | overflow
  | empty
  | systemLine (text : List UInt8)
  | userCommand (text : List UInt8)
  | demarcation (text : List UInt8)
  | locked (text : List UInt8)
  | gcode (text : List UInt8)
  | skipped (text : List UInt8)
  deriving DecidableEq, Repr

/-- The local variables of the main loop and the last status. The line fits its buffer. -/
structure MainLoop where
  line : List UInt8
  flags : LineFlags
  eol : Option UInt8
  lastError : StatusCode
  fits : line.length < lineBufferSize

namespace MainLoop

/-- The main loop when it is entered. -/
def enter (lastError : StatusCode) : MainLoop := ⟨[], {}, none, lastError, by decide⟩

/-- Direct a line to its executor; the result is the answer and the status. -/
def dispatch (env : LineEnv) (m : MainLoop) : Answer × StatusCode :=
  if m.flags.overflow then (.overflow, .overflow)
  else match m.line with
    | [] => (.empty, .ok)
    | c :: rest =>
      if c = '$'.toUInt8 then (.systemLine m.line, env.result)
      else if c = '['.toUInt8 ∧ env.userCommands then (.userCommand m.line, env.result)
      else if env.alarm || env.jog then
        if c = '%'.toUInt8 ∧ rest = [] ∧ env.alarm then (.demarcation m.line, .ok)
        else (.locked m.line, .systemGClock)
      else if m.lastError = .ok ∨ m.lastError = .gcodeToolChangePending then
        (.gcode m.line, env.result)
      else (.skipped m.line, m.lastError)

/-- The end of a line. -/
def endLine (env : LineEnv) (c : UInt8) (m : MainLoop) : Answer × MainLoop :=
  if m.line = [] ∧ m.eol ≠ none ∧ m.eol ≠ some c then (.secondary, { m with eol := none })
  else if env.realtimeAbort then (.abort, enter m.lastError)
  else
    let (answer, status) := m.dispatch env
    let eol := match answer with
      | .gcode _ => if status = .ok then some c else none
      | _ => some c
    (answer, if env.aborted then enter status else ⟨[], {}, eol, status, by decide⟩)

/-- Add a character to the line unless the line is full. -/
def store (messages : Bool) (c : UInt8) (m : MainLoop) : MainLoop :=
  let flags := m.flags.track messages (decide (m.line = [])) c
  if h : m.line.length < lineBufferSize - 1 then
    { m with
      line := m.line ++ [c]
      flags := { flags with overflow := false }
      fits := by simp only [List.length_append, List.length_singleton]; omega }
  else { m with flags := { flags with overflow := true } }

/-- Remove the last character of the line. -/
def delete (messages : Bool) (m : MainLoop) : MainLoop :=
  if m.line = [] then m
  else
    { m with
      line := m.line.dropLast
      flags := recheckLine messages m.line.dropLast
      fits := by rw [List.length_dropLast]; have := m.fits; omega }

/-- One character of the input stream. -/
def read (messages : Bool) (m : MainLoop) (input : UInt8 × LineEnv) : MainLoop :=
  let c := input.1
  if c = asciiCAN then enter .ok
  else if c = asciiEOF then m
  else if c = asciiLF ∨ c = asciiCR then (m.endLine input.2 c).2
  else if c ≠ asciiBS ∧ c ≤ (if m.line ≠ [] then 0x1F else 0x20) then m
  else if c = asciiBS ∨ c = asciiDEL then m.delete messages
  else m.store messages c

/-- The main loop after a stream of characters. -/
def run (messages : Bool) (stream : List (UInt8 × LineEnv)) : MainLoop :=
  stream.foldl (read messages) (enter .ok)

end MainLoop

end Protocol

end Inspector
