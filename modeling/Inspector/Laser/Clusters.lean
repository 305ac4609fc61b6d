import Inspector.NutsBolts.Ftoa
import Inspector.Protocol.Line

/-! # Clusters of laser powers

`lb_clusters.c` unpacks a line with several S values into a line for each value, once for files and
once for the other streams. A string is the list of its characters in front of the zero at its end.
A result is `none` when something is written outside a buffer or through a null pointer, when a line
is read behind its end, and when a value is used that was never set. S values are not scaled, and
neither resets nor errors in a line are modelled.
-/

namespace Inspector

open Json

namespace Laser

/-- `LB_CLUSTER_SIZE`. -/
def clusterSize : ℕ := 16

/-- The sizes of the buffers in `cluster`. -/
def blockSize : ℕ := 34

def paramSize : ℕ := 24

def svalSize : ℕ := 10

/-- The variable `cluster`; `head` is what `block` holds in front of `s`. -/
structure Cluster where
  head : Bytes
  param : Bytes
  sval : List Bytes
  count : ℕ
  next : ℕ
  deriving DecidableEq, Repr

/-- What a string is up to its first zero. -/
def cstr (text : Bytes) : Bytes := text.takeWhile (· ≠ 0x00)

/-- The test for a cluster. -/
def isCluster (line : Bytes) : Bool :=
  5 < line.length ∧ (line.head? = some 0x47 ∨ line.head? = some 0x67) ∧ line.tail.head? = some 0x31 ∧
    0x3A ∈ cstr line

/-- The command up to its `S`, without spaces, and the text behind it. -/
def splitCommand : Bytes → Bytes × Option Bytes
  | [] => ([], none)
  | c :: line =>
    if c = 0x00 then ([], none)
    else if c = 0x53 then ([c], some line)
    else
      let (block, text) := splitCommand line
      (if c ≠ 0x20 then c :: block else block, text)

/-- `strcpy` of a value. -/
def copyValue (value : Bytes) : Option Bytes :=
  if (cstr value).length < svalSize then some (cstr value) else none

/-- The values of a line, each one with the end of a line behind it, and `some none` when there are
too many. The character behind a colon is not looked at. -/
def splitValues (eol : UInt8) (count : ℕ) (value : Bytes) : Bytes → Option (Option (List Bytes))
  | [] => (copyValue value).map fun v => some [v]
  | c :: text =>
    if c = 0x00 then (copyValue value).map fun v => some [v]
    else if c = 0x3A then
      match copyValue (value ++ [eol]) with
      | none => none
      | some v =>
        if count + 1 = clusterSize then some none
        else
          match text with
          | [] => none
          | next :: text =>
            (splitValues eol (count + 1) [next] text).map fun values => values.map (v :: ·)
    else splitValues eol count (value ++ [c]) text

/-- `get_value`: the text of a share of a number, and the text behind the number. -/
def getValue (text : Bytes) (scale : ℕ) : Option (Bytes × Bytes) :=
  match readFloat text with
  | none => none
  | some (val, rest) => (ftoa (val / scale) 8).map fun number => (number, rest)

/-- `*strchr(text, c) = d`. -/
def replaceChar (c d : UInt8) : Bytes → Option Bytes
  | [] => none
  | b :: text => if b = c then some (d :: text) else (replaceChar c d text).map (b :: ·)

/-- The other words go behind the first value, and take the end of the line from it. -/
def takeParam (rest : Bytes) (eol : UInt8) (sval : List Bytes) : Option (Bytes × List Bytes) :=
  if rest.length = 1 then some ([], sval)
  else if paramSize ≤ rest.length then none
  else
    match replaceChar 0x53 eol rest, sval with
    | some param, v :: vs => (replaceChar eol 0x00 v).map fun v => (param, cstr v :: vs)
    | _, _ => none

/-- A cluster is taken apart; `some none` when it has too many values. The stream decoder copies the
command into `param` first. -/
def unpack (copies : Bool) (line : Bytes) (eol : UInt8) : Option (Option Cluster) :=
  match splitCommand line with
  | (_, none) => none
  | (block, some text) =>
    if blockSize ≤ block.length ∨ copies = true ∧ paramSize ≤ block.length then none
    else
      match splitValues eol 0 [] text with
      | none => none
      | some none => some none
      | some (some sval) =>
        match getValue (block.drop 3) sval.length with
        | none => none
        | some (number, rest) =>
          match takeParam rest eol sval with
          | none => none
          | some (param, sval) =>
            let cmd := block.take 3 ++ number
            let head := cmd.rdropWhile (· = 0x30) ++ [0x53]
            if blockSize ≤ cmd.length ∨ blockSize ≤ head.length then none
            else some (some { head, param, sval, count := sval.length, next := 0 })

/-- The next line of a cluster. -/
def Cluster.nextLine (c : Cluster) : Option (Bytes × Cluster) :=
  let line := c.head ++ c.sval.getD c.next [] ++ c.param
  let next := c.next + 1
  if line.length < blockSize then
    some (line, { c with param := [], next := next, count := if next = c.count then 0 else c.count })
  else none

section File

/-- The variables of the decoder for files, and what `file_read` still gives. -/
structure FileState where
  rest : Bytes
  eol : UInt8
  pending : Bytes
  cluster : Cluster
  deriving DecidableEq, Repr

/-- The characters up to the end of a line. -/
def readLine : Bytes → Bytes × Bytes
  | [] => ([], [])
  | c :: text =>
    if isLineEnd c then ([c], text)
    else
      let (line, rest) := readLine text
      (c :: line, rest)

/-- The part of `file_fill_buffer` that gives the next line of a cluster. -/
def FileState.emit (s : FileState) : Option FileState :=
  match s.cluster.nextLine with
  | none => none
  | some (line, cluster) => some { s with pending := line, cluster := cluster }

/-- `file_fill_buffer`. A line end alone is dropped when it is not the one before. -/
def fileFillBuffer (s : FileState) : Option FileState :=
  if s.cluster.count = 0 then
    let (line, rest) := readLine s.rest
    if Protocol.lineBufferSize ≤ line.length then none
    else
      let eol := (line.getLast?.filter isLineEnd).getD s.eol
      let s' := { s with rest := rest, eol := eol }
      if line.length = 1 ∧ line.all isLineEnd ∧ s.eol ≠ 0x00 ∧ s.eol ≠ eol then
        some { s' with pending := [] }
      else if isCluster line then
        match unpack false line eol with
        | none => none
        | some none => some { s' with pending := [], cluster := { s.cluster with count := 0 } }
        | some (some cluster) => { s' with cluster := cluster }.emit
      else some { s' with pending := line }
  else s.emit

/-- `file_decoder`. -/
def fileDecoder (s : FileState) : Option (FileState × Option UInt8) :=
  match if s.pending = [] then fileFillBuffer s else some s with
  | none => none
  | some s =>
    match s.pending with
    | [] => some (s, none)
    | c :: pending => some ({ s with pending := pending }, some c)

end File

section Stream

/-- The variables of the other decoder, and what `stream_read` gives; `line` is `none` when its
pointer is null. -/
structure StreamState where
  events : List (Option UInt8)
  eol : UInt8
  pending : Bytes
  cluster : Cluster
  line : Option Bytes
  buffering : Bool
  deriving DecidableEq, Repr

/-- What `stream_fill_buffer` returns: a line is there, or no line yet. -/
inductive Fill | ready | returns (c : Option UInt8)
  deriving DecidableEq, Repr

/-- The part of `stream_fill_buffer` that gives the next line of a cluster. -/
def StreamState.emit (s : StreamState) : Option (StreamState × Fill) :=
  match s.cluster.nextLine with
  | none => none
  | some (line, cluster) =>
    some ({ s with
      pending := line
      cluster := cluster
      line := if cluster.count = 0 then none else s.line }, .ready)

/-- The end of a line in `stream_fill_buffer`. -/
def StreamState.endLine (s : StreamState) (line : Bytes) (c : UInt8) :
    Option (StreamState × Fill) :=
  if line.length = 1 ∧ s.eol ≠ 0x00 ∧ s.eol ≠ c then
    some ({ s with eol := 0x00, line := some [] }, .returns none)
  else if isCluster line then
    match unpack true line c with
    | none => none
    | some none => some ({ s with eol := c, line := none }, .returns none)
    | some (some cluster) => { s with eol := c, cluster := cluster, line := some line }.emit
  else some ({ s with eol := c, line := none, pending := line }, .ready)

/-- A character in `stream_fill_buffer`; a line that gets too long is given up. -/
def StreamState.readChar (s : StreamState) (line : Bytes) (c : UInt8) :
    Option (StreamState × Fill) :=
  if Protocol.lineBufferSize - 1 ≤ line.length + 1 then
    some ({ s with line := none }, .returns none)
  else if isLineEnd c then s.endLine (line ++ [c]) c
  else some ({ s with line := some (line ++ [c]) }, .returns none)

/-- `stream_fill_buffer`. -/
def streamFillBuffer (s : StreamState) : Option (StreamState × Fill) :=
  let s := match s.line with
    | none => { s with line := some [], pending := [], cluster := { s.cluster with count := 0 } }
    | some _ => s
  if s.cluster.count = 0 then
    match s.events with
    | [] => some (s, .returns none)
    | none :: events => some ({ s with events := events }, .returns none)
    | some c :: events =>
      if c = Protocol.asciiCAN then some ({ s with events := events }, .returns (some c))
      else { s with events := events }.readChar (s.line.getD []) c
  else s.emit

/-- The part of `stream_decoder` that gives a character. -/
def StreamState.give (s : StreamState) : StreamState × Option UInt8 :=
  match s.pending with
  | [] => ({ s with buffering := true }, none)
  | c :: pending => ({ s with pending := pending }, some c)

/-- `stream_decoder`. -/
def streamDecoder (s : StreamState) : Option (StreamState × Option UInt8) :=
  if s.buffering then
    match streamFillBuffer s with
    | none => none
    | some (s, .returns c) => some (s, c)
    | some (s, .ready) => some { s with buffering := false }.give
  else some s.give

end Stream

end Laser

end Inspector
