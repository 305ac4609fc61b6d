import Mathlib.Data.List.Basic

/-! # Multipart bodies

`multipartparser_execute` is called for every chunk of a request body as it arrives, and tells the
upload handler what it finds. Header fields, header values and data are scanned for their ends at
once, which makes no difference to a reading byte by byte, so a body may be cut into chunks
anywhere. The data of a part come out with every `"\r\n--"` in them left out, since the parser
forgets these bytes when no boundary follows.
-/

namespace Inspector

namespace Multipart

abbrev cr : UInt8 := 13
abbrev lf : UInt8 := 10
abbrev sp : UInt8 := 32
abbrev ht : UInt8 := 9
abbrev hyphen : UInt8 := 45
abbrev colon : UInt8 := 58

/-- `enum state`. -/
inductive State
  | preamble | preambleHyHy | firstBoundary | headerFieldStart | headerField | headerValueStart
  | headerValue | headerValueCr | headersDone | data | dataCr | dataCrLf | dataCrLfHy
  | dataBoundaryStart | dataBoundary | dataBoundaryDone | dataBoundaryDoneCrLf
  | dataBoundaryDoneHyHy | epilogue
  deriving DecidableEq, Repr

/-- The callbacks. -/
inductive Event
  | bodyBegin
  | partBegin
  | headerField (bytes : List UInt8)
  | headerValue (bytes : List UInt8)
  | headersComplete
  | data (bytes : List UInt8)
  | partEnd
  | bodyEnd
  deriving DecidableEq, Repr

/-- `multipartparser`, with a boundary that fits into its array. -/
structure Parser where
  boundary : List UInt8
  index : ℕ
  state : State

/-- `multipartparser_init`. -/
def init (boundary : List UInt8) : Parser := ⟨boundary, 0, .preamble⟩

/-- `header_field_chars`: the characters of a token. -/
def isFieldChar (c : UInt8) : Bool :=
  (48 ≤ c && c ≤ 57) || (65 ≤ c && c ≤ 90) || (94 ≤ c && c ≤ 122) ||
    [33, 35, 36, 37, 38, 39, 42, 43, 45, 46, 124, 126].contains c

/-- What a pass through the loop comes to: the bytes that are left to be read, or `goto error` at
the first of them. -/
inductive Outcome
  | next (x : Parser) (events : List Event) (rest : List UInt8)
  | error (x : Parser) (events : List Event) (rest : List UInt8)

/-- Events that come before. -/
def Outcome.after (es : List Event) : Outcome → Outcome
  | next x events rest => next x (es ++ events) rest
  | error x events rest => error x (es ++ events) rest

/-- A callback for the bytes of a scan, if there are any. -/
def chunk (event : List UInt8 → Event) (bytes : List UInt8) : List Event :=
  if bytes = [] then [] else [event bytes]

namespace Parser

variable (x : Parser)

/-- `case s_header_field`. -/
def scanField (l : List UInt8) : Outcome :=
  let x := { x with state := .headerField }
  let events := chunk .headerField (l.takeWhile isFieldChar)
  match l.dropWhile isFieldChar with
  | [] => .next x events []
  | c :: rest =>
    if c = colon then .next { x with state := .headerValueStart } events rest
    else .error x events (c :: rest)

/-- `case s_header_value`. -/
def scanValue (l : List UInt8) : Outcome :=
  let events := chunk .headerValue (l.takeWhile (· ≠ cr))
  match l.dropWhile (· ≠ cr) with
  | [] => .next { x with state := .headerValue } events []
  | _ :: rest => .next { x with state := .headerValueCr } events rest

/-- `case s_data`. -/
def scanData (l : List UInt8) : Outcome :=
  let events := chunk .data (l.takeWhile (· ≠ cr))
  match l.dropWhile (· ≠ cr) with
  | [] => .next { x with state := .data } events []
  | _ :: rest => .next { x with state := .dataCr } events rest

/-- `case s_data_boundary_done`. -/
def boundaryDone (c : UInt8) (l : List UInt8) : Outcome :=
  if c = cr then .next { x with state := .dataBoundaryDoneCrLf } [] l
  else if c = hyphen then .next { x with state := .dataBoundaryDoneHyHy } [] l
  else .error x [] (c :: l)

/-- `case s_data_boundary`. -/
def boundary? (c : UInt8) (l : List UInt8) : Outcome :=
  if x.index = x.boundary.length then
    { x with index := 0, state := .dataBoundaryDone }.boundaryDone c l
  else if x.boundary[x.index]? = some c then .next { x with index := x.index + 1 } [] l
  else (x.scanData (c :: l)).after [.data (x.boundary.take x.index)]

/-- One pass through the loop, at the byte `c` before the bytes `l`. -/
def pass (c : UInt8) (l : List UInt8) : Outcome :=
  match x.state with
  | .preamble =>
    if c = hyphen then .next { x with state := .preambleHyHy } [] l else .next x [] l
  | .preambleHyHy =>
    .next { x with state := if c = hyphen then .firstBoundary else .preamble } [] l
  | .firstBoundary =>
    if x.index = x.boundary.length then
      if c = cr then .next { x with index := x.index + 1 } [] l else .error x [] (c :: l)
    else if x.index = x.boundary.length + 1 then
      if c = lf then
        .next { x with index := 0, state := .headerFieldStart } [.bodyBegin, .partBegin] l
      else .error x [] (c :: l)
    else if x.boundary[x.index]? = some c then .next { x with index := x.index + 1 } [] l
    else .error x [] (c :: l)
  | .headerFieldStart =>
    if c = cr then .next { x with state := .headersDone } [] l else x.scanField (c :: l)
  | .headerField => x.scanField (c :: l)
  | .headerValueStart => if c = sp ∨ c = ht then .next x [] l else x.scanValue (c :: l)
  | .headerValue => x.scanValue (c :: l)
  | .headerValueCr =>
    if c = lf then .next { x with state := .headerFieldStart } [] l else .error x [] (c :: l)
  | .headersDone =>
    if c = lf then .next { x with state := .data } [.headersComplete] l
    else .error x [] (c :: l)
  | .data => x.scanData (c :: l)
  | .dataCr =>
    if c = lf then .next { x with state := .dataCrLf } [] l
    else (x.scanData (c :: l)).after [.data [cr]]
  | .dataCrLf =>
    if c = hyphen then .next { x with state := .dataCrLfHy } [] l
    else (x.scanData (c :: l)).after [.data [cr, lf]]
  | .dataCrLfHy =>
    if c = hyphen then .next { x with state := .dataBoundaryStart } [] l
    else (x.scanData (c :: l)).after [.data [cr, lf, hyphen]]
  | .dataBoundaryStart => { x with index := 0, state := .dataBoundary }.boundary? c l
  | .dataBoundary => x.boundary? c l
  | .dataBoundaryDone => x.boundaryDone c l
  | .dataBoundaryDoneCrLf =>
    if c = lf then .next { x with state := .headerFieldStart } [.partEnd, .partBegin] l
    else .error x [] (c :: l)
  | .dataBoundaryDoneHyHy =>
    if c = hyphen then .next { x with state := .epilogue } [.partEnd, .bodyEnd] l
    else .error x [] (c :: l)
  | .epilogue => .next x [] l

end Parser

/-- What a call returns: the parser, the callbacks, and the bytes from the one in error on. -/
structure Result (α : Type) where
  parser : Parser
  events : List α
  error : Option (List UInt8)

/-- The loop, with fuel for its passes. -/
def passes : ℕ → Parser → List UInt8 → Result Event
  | _, x, [] => ⟨x, [], none⟩
  | 0, x, l => ⟨x, [], some l⟩
  | fuel + 1, x, c :: l =>
    match x.pass c l with
    | .next y events rest =>
      let r := passes fuel y rest
      { r with events := events ++ r.events }
    | .error y events rest => ⟨y, events, some rest⟩

/-- `multipartparser_execute`. Every pass reads a byte. -/
def execute (x : Parser) (data : List UInt8) : Result Event := passes data.length x data

/-! ### Byte by byte -/

/-- What is told of a single byte. -/
inductive Atom
  | bodyBegin
  | partBegin
  | headerField (byte : UInt8)
  | headerValue (byte : UInt8)
  | headersComplete
  | data (byte : UInt8)
  | partEnd
  | bodyEnd
  deriving DecidableEq, Repr

def Event.atoms : Event → List Atom
  | bodyBegin => [.bodyBegin]
  | partBegin => [.partBegin]
  | headerField bytes => bytes.map .headerField
  | headerValue bytes => bytes.map .headerValue
  | headersComplete => [.headersComplete]
  | data bytes => bytes.map .data
  | partEnd => [.partEnd]
  | bodyEnd => [.bodyEnd]

namespace Result

variable {α : Type}

/-- What was told before. -/
def after (as : List α) (r : Result α) : Result α := { r with events := as ++ r.events }

@[simp] theorem after_nil (r : Result α) : r.after [] = r := rfl

@[simp] theorem after_after (as bs : List α) (r : Result α) :
    (r.after bs).after as = r.after (as ++ bs) := by
  simp [after]

/-- What a result tells byte by byte. -/
def atoms (r : Result Event) : Result Atom := ⟨r.parser, r.events.flatMap Event.atoms, r.error⟩

end Result

/-- Reading byte by byte: each is read by a pass that sees no other. -/
def feed : Parser → List UInt8 → Result Atom
  | x, [] => ⟨x, [], none⟩
  | x, c :: l =>
    match x.pass c [] with
    | .next y events _ => (feed y l).after (events.flatMap Event.atoms)
    | .error y events _ => ⟨y, events.flatMap Event.atoms, some (c :: l)⟩

/-- A pass, with the bytes it leaves read one by one. -/
def Outcome.finish : Outcome → Result Atom
  | next y events rest => (feed y rest).after (events.flatMap Event.atoms)
  | error y events rest => ⟨y, events.flatMap Event.atoms, some rest⟩

@[simp] theorem Outcome.finish_after (es : List Event) (o : Outcome) :
    (o.after es).finish = o.finish.after (es.flatMap Event.atoms) := by
  cases o <;> simp [Outcome.after, finish, Result.after]

@[simp] theorem atoms_chunk_data (l : List UInt8) :
    (chunk .data l).flatMap Event.atoms = l.map .data := by
  unfold chunk
  split_ifs with h <;> simp [h, Event.atoms]

@[simp] theorem atoms_chunk_headerField (l : List UInt8) :
    (chunk .headerField l).flatMap Event.atoms = l.map .headerField := by
  unfold chunk
  split_ifs with h <;> simp [h, Event.atoms]

@[simp] theorem atoms_chunk_headerValue (l : List UInt8) :
    (chunk .headerValue l).flatMap Event.atoms = l.map .headerValue := by
  unfold chunk
  split_ifs with h <;> simp [h, Event.atoms]

theorem scanData_cons_of_ne (x : Parser) {c : UInt8} (h : c ≠ cr) (l : List UInt8) :
    (x.scanData (c :: l)).finish = (x.scanData l).finish.after [.data c] := by
  have htake : (c :: l).takeWhile (· ≠ cr) = c :: l.takeWhile (· ≠ cr) :=
    List.takeWhile_cons_of_pos (decide_eq_true h)
  have hdrop : (c :: l).dropWhile (· ≠ cr) = l.dropWhile (· ≠ cr) :=
    List.dropWhile_cons_of_pos (decide_eq_true h)
  rw [Parser.scanData, Parser.scanData, htake, hdrop]
  cases l.dropWhile (· ≠ cr) <;> simp only [Outcome.finish, atoms_chunk_data] <;> rfl

/-- Scanning data for its end is reading it byte by byte. -/
theorem feed_data (x : Parser) (l : List UInt8) :
    feed { x with state := .data } l = (x.scanData l).finish := by
  induction l with
  | nil => simp [feed, Parser.scanData, Outcome.finish]
  | cons c l ih =>
    by_cases h : c = cr
    · subst h
      simp [feed, Parser.pass, Parser.scanData, Outcome.finish]
    · rw [scanData_cons_of_ne x h, ← ih]
      simp [feed, Parser.pass, Parser.scanData, h]

theorem scanValue_cons_of_ne (x : Parser) {c : UInt8} (h : c ≠ cr) (l : List UInt8) :
    (x.scanValue (c :: l)).finish = (x.scanValue l).finish.after [.headerValue c] := by
  have htake : (c :: l).takeWhile (· ≠ cr) = c :: l.takeWhile (· ≠ cr) :=
    List.takeWhile_cons_of_pos (decide_eq_true h)
  have hdrop : (c :: l).dropWhile (· ≠ cr) = l.dropWhile (· ≠ cr) :=
    List.dropWhile_cons_of_pos (decide_eq_true h)
  rw [Parser.scanValue, Parser.scanValue, htake, hdrop]
  cases l.dropWhile (· ≠ cr) <;> simp only [Outcome.finish, atoms_chunk_headerValue] <;> rfl

theorem feed_headerValue (x : Parser) (l : List UInt8) :
    feed { x with state := .headerValue } l = (x.scanValue l).finish := by
  induction l with
  | nil => simp [feed, Parser.scanValue, Outcome.finish]
  | cons c l ih =>
    by_cases h : c = cr
    · subst h
      simp [feed, Parser.pass, Parser.scanValue, Outcome.finish]
    · rw [scanValue_cons_of_ne x h, ← ih]
      simp [feed, Parser.pass, Parser.scanValue, h]

theorem scanField_cons_of_isFieldChar (x : Parser) {c : UInt8} (h : isFieldChar c = true)
    (l : List UInt8) :
    (x.scanField (c :: l)).finish = (x.scanField l).finish.after [.headerField c] := by
  simp only [Parser.scanField, List.takeWhile_cons_of_pos h, List.dropWhile_cons_of_pos h]
  cases l.dropWhile isFieldChar with
  | nil => simp only [Outcome.finish, atoms_chunk_headerField]; rfl
  | cons d rest =>
    by_cases hd : d = colon <;> simp only [hd, if_true, if_false, Outcome.finish,
      atoms_chunk_headerField] <;> rfl

theorem feed_headerField (x : Parser) (l : List UInt8) :
    feed { x with state := .headerField } l = (x.scanField l).finish := by
  induction l with
  | nil => simp [feed, Parser.scanField, Outcome.finish]
  | cons c l ih =>
    by_cases h : isFieldChar c = true
    · rw [scanField_cons_of_isFieldChar x h, ← ih]
      simp [feed, Parser.pass, Parser.scanField, h]
    · by_cases hc : c = colon
      · subst hc
        simp [feed, Parser.pass, Parser.scanField, Outcome.finish, h]
      · simp [feed, Parser.pass, Parser.scanField, Outcome.finish, h, hc]

/-- A pass that tells something and then goes on as in another state. -/
theorem feed_cons_of_pass {x y : Parser} {c : UInt8} {es : List Event}
    (h : x.pass c [] = (y.pass c []).after es) (l : List UInt8) :
    feed x (c :: l) = (feed y (c :: l)).after (es.flatMap Event.atoms) := by
  simp only [feed, h]
  cases y.pass c [] <;> simp [Outcome.after, Result.after]

theorem feed_headerFieldStart_of_ne (boundary : List UInt8) (index : ℕ) {c : UInt8} (h : c ≠ cr)
    (l : List UInt8) :
    feed ⟨boundary, index, .headerFieldStart⟩ (c :: l) =
      feed ⟨boundary, index, .headerField⟩ (c :: l) := by
  have hpass : (Parser.mk boundary index .headerFieldStart).pass c [] =
      ((Parser.mk boundary index .headerField).pass c []).after [] := by
    simp only [Parser.pass, if_neg h, Parser.scanField]
    cases List.dropWhile isFieldChar [c] with
    | nil => rfl
    | cons d rest => by_cases hd : d = colon <;> simp [hd, Outcome.after]
  simpa using feed_cons_of_pass hpass l

theorem feed_headerValueStart_of_ne (boundary : List UInt8) (index : ℕ) {c : UInt8}
    (h : ¬(c = sp ∨ c = ht)) (l : List UInt8) :
    feed ⟨boundary, index, .headerValueStart⟩ (c :: l) =
      feed ⟨boundary, index, .headerValue⟩ (c :: l) := by
  have hpass : (Parser.mk boundary index .headerValueStart).pass c [] =
      ((Parser.mk boundary index .headerValue).pass c []).after [] := by
    simp only [Parser.pass, if_neg h, Parser.scanValue]
    cases List.dropWhile (· ≠ cr) [c] <;> rfl
  simpa using feed_cons_of_pass hpass l

theorem feed_dataCr_of_ne (boundary : List UInt8) (index : ℕ) {c : UInt8} (h : c ≠ lf)
    (l : List UInt8) :
    feed ⟨boundary, index, .dataCr⟩ (c :: l) =
      (feed ⟨boundary, index, .data⟩ (c :: l)).after [.data cr] := by
  have hpass : (Parser.mk boundary index .dataCr).pass c [] =
      ((Parser.mk boundary index .data).pass c []).after [.data [cr]] := by
    simp only [Parser.pass, if_neg h]
    rfl
  exact feed_cons_of_pass hpass l

theorem feed_dataCrLf_of_ne (boundary : List UInt8) (index : ℕ) {c : UInt8} (h : c ≠ hyphen)
    (l : List UInt8) :
    feed ⟨boundary, index, .dataCrLf⟩ (c :: l) =
      (feed ⟨boundary, index, .data⟩ (c :: l)).after [.data cr, .data lf] := by
  have hpass : (Parser.mk boundary index .dataCrLf).pass c [] =
      ((Parser.mk boundary index .data).pass c []).after [.data [cr, lf]] := by
    simp only [Parser.pass, if_neg h]
    rfl
  exact feed_cons_of_pass hpass l

theorem feed_dataCrLfHy_of_ne (boundary : List UInt8) (index : ℕ) {c : UInt8} (h : c ≠ hyphen)
    (l : List UInt8) :
    feed ⟨boundary, index, .dataCrLfHy⟩ (c :: l) =
      (feed ⟨boundary, index, .data⟩ (c :: l)).after [.data cr, .data lf, .data hyphen] := by
  have hpass : (Parser.mk boundary index .dataCrLfHy).pass c [] =
      ((Parser.mk boundary index .data).pass c []).after [.data [cr, lf, hyphen]] := by
    simp only [Parser.pass, if_neg h]
    rfl
  exact feed_cons_of_pass hpass l

/-- The boundary begins at the first byte after `"\r\n--"`. -/
theorem feed_dataBoundaryStart (boundary : List UInt8) (index : ℕ) (c : UInt8)
    (l : List UInt8) :
    feed ⟨boundary, index, .dataBoundaryStart⟩ (c :: l) =
      feed ⟨boundary, 0, .dataBoundary⟩ (c :: l) := by
  have hpass : (Parser.mk boundary index .dataBoundaryStart).pass c [] =
      ((Parser.mk boundary 0 .dataBoundary).pass c []).after [] := by
    simp only [Parser.pass]
    cases (Parser.mk boundary 0 .dataBoundary).boundary? c [] <;> rfl
  simpa using feed_cons_of_pass hpass l

/-- A byte that does not go on like the boundary. -/
theorem feed_dataBoundary_of_ne {boundary : List UInt8} {index : ℕ}
    (hindex : index ≠ boundary.length) {c : UInt8} (h : boundary[index]? ≠ some c)
    (l : List UInt8) :
    feed ⟨boundary, index, .dataBoundary⟩ (c :: l) =
      (feed ⟨boundary, index, .data⟩ (c :: l)).after ((boundary.take index).map .data) := by
  have hpass : (Parser.mk boundary index .dataBoundary).pass c [] =
      ((Parser.mk boundary index .data).pass c []).after [.data (boundary.take index)] := by
    simp only [Parser.pass, Parser.boundary?, if_neg hindex, if_neg h]
    rfl
  simpa [Event.atoms] using feed_cons_of_pass hpass l

theorem feed_boundary? (boundary : List UInt8) (index : ℕ) (c : UInt8) (l : List UInt8) :
    feed ⟨boundary, index, .dataBoundary⟩ (c :: l) =
      ((Parser.mk boundary index .dataBoundary).boundary? c l).finish := by
  by_cases hfull : index = boundary.length
  · simp only [feed, Parser.pass, Parser.boundary?, if_pos hfull, Parser.boundaryDone]
    split_ifs <;> rfl
  · by_cases hc : boundary[index]? = some c
    · simp only [feed, Parser.pass, Parser.boundary?, if_neg hfull, if_pos hc]
      rfl
    · rw [feed_dataBoundary_of_ne hfull hc, feed_data ⟨boundary, index, .dataBoundary⟩,
        Parser.boundary?, if_neg hfull, if_neg hc, Outcome.finish_after]
      simp [Event.atoms]

/-- A pass of the loop reads its bytes one by one. -/
theorem feed_cons (x : Parser) (c : UInt8) (l : List UInt8) :
    feed x (c :: l) = (x.pass c l).finish := by
  obtain ⟨boundary, index, state⟩ := x
  cases state
  case headerFieldStart =>
    by_cases hc : c = cr
    · simp [feed, Parser.pass, Outcome.finish, hc]
    · rw [feed_headerFieldStart_of_ne boundary index hc]
      simp [Parser.pass, hc, feed_headerField ⟨boundary, index, .headerFieldStart⟩ (c :: l)]
  case headerField => exact feed_headerField ⟨boundary, index, .headerField⟩ (c :: l)
  case headerValueStart =>
    by_cases hc : c = sp ∨ c = ht
    · simp [feed, Parser.pass, Outcome.finish, hc]
    · rw [feed_headerValueStart_of_ne boundary index hc]
      simp [Parser.pass, hc, feed_headerValue ⟨boundary, index, .headerValueStart⟩ (c :: l)]
  case headerValue => exact feed_headerValue ⟨boundary, index, .headerValue⟩ (c :: l)
  case data => exact feed_data ⟨boundary, index, .data⟩ (c :: l)
  case dataCr =>
    by_cases hc : c = lf
    · simp [feed, Parser.pass, Outcome.finish, hc]
    · rw [feed_dataCr_of_ne boundary index hc]
      simp [Parser.pass, hc, feed_data ⟨boundary, index, .dataCr⟩ (c :: l), Event.atoms]
  case dataCrLf =>
    by_cases hc : c = hyphen
    · simp [feed, Parser.pass, Outcome.finish, hc]
    · rw [feed_dataCrLf_of_ne boundary index hc]
      simp [Parser.pass, hc, feed_data ⟨boundary, index, .dataCrLf⟩ (c :: l), Event.atoms]
  case dataCrLfHy =>
    by_cases hc : c = hyphen
    · simp [feed, Parser.pass, Outcome.finish, hc]
    · rw [feed_dataCrLfHy_of_ne boundary index hc]
      simp [Parser.pass, hc, feed_data ⟨boundary, index, .dataCrLfHy⟩ (c :: l), Event.atoms]
  case dataBoundaryStart =>
    rw [feed_dataBoundaryStart, feed_boundary?]
    rfl
  case dataBoundary => exact feed_boundary? boundary index c l
  case epilogue => rfl
  all_goals
    simp only [feed, Parser.pass, Parser.boundaryDone]
    split_ifs <;> rfl

/-- A pass that ends without error has at most the bytes `l` left. -/
def Outcome.Leaves (l : List UInt8) : Outcome → Prop
  | next _ _ rest => rest.length ≤ l.length
  | error _ _ _ => True

theorem Outcome.Leaves.after {l : List UInt8} {o : Outcome} (h : o.Leaves l) (es : List Event) :
    (o.after es).Leaves l := by
  cases o <;> exact h

theorem length_le_of_dropWhile {p : UInt8 → Bool} {c d : UInt8} {l rest : List UInt8}
    (h : (c :: l).dropWhile p = d :: rest) : rest.length ≤ l.length := by
  have hsuffix := (List.dropWhile_suffix p (l := c :: l)).length_le
  rw [h] at hsuffix
  simpa using hsuffix

theorem leaves_scanField (x : Parser) (c : UInt8) (l : List UInt8) :
    (x.scanField (c :: l)).Leaves l := by
  unfold Parser.scanField
  cases h : (c :: l).dropWhile isFieldChar with
  | nil => simp [Outcome.Leaves]
  | cons d rest =>
    dsimp only
    split_ifs
    · exact length_le_of_dropWhile h
    · trivial

theorem leaves_scanValue (x : Parser) (c : UInt8) (l : List UInt8) :
    (x.scanValue (c :: l)).Leaves l := by
  unfold Parser.scanValue
  cases h : (c :: l).dropWhile (· ≠ cr) with
  | nil => simp [Outcome.Leaves]
  | cons d rest => exact length_le_of_dropWhile h

theorem leaves_scanData (x : Parser) (c : UInt8) (l : List UInt8) :
    (x.scanData (c :: l)).Leaves l := by
  unfold Parser.scanData
  cases h : (c :: l).dropWhile (· ≠ cr) with
  | nil => simp [Outcome.Leaves]
  | cons d rest => exact length_le_of_dropWhile h

theorem leaves_boundaryDone (x : Parser) (c : UInt8) (l : List UInt8) :
    (x.boundaryDone c l).Leaves l := by
  unfold Parser.boundaryDone
  split_ifs <;> simp [Outcome.Leaves]

theorem leaves_boundary? (x : Parser) (c : UInt8) (l : List UInt8) :
    (x.boundary? c l).Leaves l := by
  unfold Parser.boundary?
  split_ifs
  · exact leaves_boundaryDone _ c l
  · exact Nat.le_refl _
  · exact (leaves_scanData x c l).after _

theorem leaves_pass (x : Parser) (c : UInt8) (l : List UInt8) : (x.pass c l).Leaves l := by
  obtain ⟨boundary, index, state⟩ := x
  cases state
  case headerField => exact leaves_scanField _ c l
  case headerValue => exact leaves_scanValue _ c l
  case data => exact leaves_scanData _ c l
  case dataBoundaryStart => exact leaves_boundary? _ c l
  case dataBoundary => exact leaves_boundary? _ c l
  case dataBoundaryDone => exact leaves_boundaryDone _ c l
  all_goals
    simp only [Parser.pass]
    try split_ifs
  all_goals first
    | exact (leaves_scanData _ c l).after _
    | exact leaves_scanField _ c l
    | exact leaves_scanValue _ c l
    | simp [Outcome.Leaves]

theorem atoms_passes (fuel : ℕ) (x : Parser) (l : List UInt8) (hl : l.length ≤ fuel) :
    (passes fuel x l).atoms = feed x l := by
  induction fuel generalizing x l with
  | zero =>
    obtain rfl := List.eq_nil_of_length_eq_zero (Nat.le_zero.mp hl)
    rfl
  | succ fuel ih =>
    cases l with
    | nil => rfl
    | cons c l =>
      have hleaves := leaves_pass x c l
      rw [feed_cons, passes]
      cases h : x.pass c l with
      | error y es rest => rfl
      | next y es rest =>
        rw [h] at hleaves
        have hrest : rest.length ≤ fuel := Nat.le_trans hleaves (Nat.le_of_succ_le_succ hl)
        simp [Result.atoms, Outcome.finish, Result.after, ← ih y rest hrest]

/-- Reading a chunk reads its bytes one by one. -/
theorem atoms_execute (x : Parser) (data : List UInt8) : (execute x data).atoms = feed x data :=
  atoms_passes data.length x data (Nat.le_refl _)

/-! ### Chunks -/

/-- `fs_post_receive_data`: the buffers of a request, as they come. What `http_upload_chunk` returns
is not looked at. -/
def receive : Parser → List (List UInt8) → Parser × List Event
  | x, [] => (x, [])
  | x, q :: p =>
    let r := execute x q
    let s := receive r.parser p
    (s.1, r.events ++ s.2)

theorem feed_append_of_none {x : Parser} {a : List UInt8} (h : (feed x a).error = none)
    (b : List UInt8) : feed x (a ++ b) = (feed (feed x a).parser b).after (feed x a).events := by
  induction a generalizing x with
  | nil => rfl
  | cons c a ih =>
    simp only [List.cons_append, feed] at h ⊢
    cases hpass : x.pass c [] with
    | error y es rest => simp [hpass] at h
    | next y es rest =>
      simp only [hpass] at h ⊢
      rw [ih h]
      simp [Result.after]

theorem feed_append_of_some {x : Parser} {a rest : List UInt8} (h : (feed x a).error = some rest)
    (b : List UInt8) :
    feed x (a ++ b) = ⟨(feed x a).parser, (feed x a).events, some (rest ++ b)⟩ := by
  induction a generalizing x with
  | nil => simp [feed] at h
  | cons c a ih =>
    simp only [List.cons_append, feed] at h ⊢
    cases hpass : x.pass c [] with
    | error y es left =>
      simp only [hpass, Option.some.injEq] at h
      simp [← h]
    | next y es left =>
      simp only [hpass] at h ⊢
      rw [ih h]
      rfl

theorem error_execute (x : Parser) (data : List UInt8) :
    (execute x data).error = (feed x data).error := by
  rw [← atoms_execute]
  rfl

theorem parser_execute (x : Parser) (data : List UInt8) :
    (execute x data).parser = (feed x data).parser := by
  rw [← atoms_execute]
  rfl

theorem events_execute (x : Parser) (data : List UInt8) :
    (execute x data).events.flatMap Event.atoms = (feed x data).events := by
  rw [← atoms_execute]
  rfl

/-- Buffers without an error tell what their bytes tell one by one. -/
theorem receive_eq_feed {x : Parser} {chunks : List (List UInt8)}
    (h : (feed x chunks.flatten).error = none) :
    (receive x chunks).1 = (feed x chunks.flatten).parser ∧
      (receive x chunks).2.flatMap Event.atoms = (feed x chunks.flatten).events := by
  induction chunks generalizing x with
  | nil => exact ⟨rfl, rfl⟩
  | cons q p ih =>
    rw [List.flatten_cons] at h ⊢
    cases hq : (feed x q).error with
    | some rest => simp [feed_append_of_some hq] at h
    | none =>
      rw [feed_append_of_none hq] at h ⊢
      obtain ⟨hparser, hevents⟩ := ih h
      simp only [receive, parser_execute]
      constructor
      · exact hparser
      · rw [List.flatMap_append, events_execute, hevents]
        rfl

/-- The buffer in which the first error is. -/
theorem exists_error {x : Parser} {chunks : List (List UInt8)} {rest : List UInt8}
    (h : (feed x chunks.flatten).error = some rest) :
    ∃ before q later left, chunks = before ++ q :: later ∧
      (feed x before.flatten).error = none ∧
      (feed (feed x before.flatten).parser q).error = some left ∧ rest = left ++ later.flatten := by
  induction chunks generalizing x with
  | nil => simp [feed] at h
  | cons q p ih =>
    rw [List.flatten_cons] at h
    cases hq : (feed x q).error with
    | some left =>
      rw [feed_append_of_some hq] at h
      exact ⟨[], q, p, left, rfl, rfl, hq, (Option.some.inj h).symm⟩
    | none =>
      rw [feed_append_of_none hq] at h
      obtain ⟨before, q', later, left, rfl, hbefore, hleft, hrest⟩ := ih h
      refine ⟨q :: before, q', later, left, rfl, ?_, ?_, hrest⟩
      · rw [List.flatten_cons, feed_append_of_none hq]
        exact hbefore
      · rw [List.flatten_cons, feed_append_of_none hq]
        exact hleft

/-- A body tells the same however it is cut into buffers, up to its first error, which is at the
same byte. -/
theorem receive_spec (x : Parser) (chunks : List (List UInt8)) :
    ((execute x chunks.flatten).error = none →
      (receive x chunks).1 = (execute x chunks.flatten).parser ∧
      (receive x chunks).2.flatMap Event.atoms =
        (execute x chunks.flatten).events.flatMap Event.atoms) ∧
    ∀ rest, (execute x chunks.flatten).error = some rest →
      ∃ before q later left, chunks = before ++ q :: later ∧
        (execute (receive x before).1 q).error = some left ∧ rest = left ++ later.flatten ∧
        (receive x before).2.flatMap Event.atoms ++
            (execute (receive x before).1 q).events.flatMap Event.atoms =
          (execute x chunks.flatten).events.flatMap Event.atoms := by
  simp only [error_execute, parser_execute, events_execute]
  refine ⟨receive_eq_feed, fun rest h => ?_⟩
  obtain ⟨before, q, later, left, rfl, hbefore, hleft, hrest⟩ := exists_error h
  obtain ⟨hparser, hevents⟩ := receive_eq_feed hbefore
  refine ⟨before, q, later, left, rfl, ?_, hrest, ?_⟩
  · rw [hparser, hleft]
  · rw [hparser, hevents, List.flatten_append, List.flatten_cons, feed_append_of_none hbefore,
      feed_append_of_some hleft]
    rfl

/-! ### Bodies -/

/-- What the parser makes of the data of a part: when no boundary follows, the bytes `"\r\n--"` are
not told. -/
def cut : List UInt8 → List UInt8
  | 13 :: 10 :: 45 :: 45 :: l => cut l
  | c :: l => c :: cut l
  | [] => []

theorem cut_cons_of_ne {c : UInt8} (h : c ≠ cr) (l : List UInt8) : cut (c :: l) = c :: cut l := by
  rw [cut]
  rintro l' rfl
  exact absurd rfl h

theorem cut_append_of_notMem {a : List UInt8} (h : cr ∉ a) (l : List UInt8) :
    cut (a ++ l) = a ++ cut l := by
  induction a with
  | nil => rfl
  | cons c a ih =>
    simp only [List.mem_cons, not_or] at h
    rw [List.cons_append, cut_cons_of_ne (Ne.symm h.1), ih h.2, List.cons_append]

theorem length_cut_le (l : List UInt8) : (cut l).length ≤ l.length := by
  fun_induction cut l with
  | case1 l ih => exact Nat.le_trans ih (by simp only [List.length_cons]; omega)
  | case2 c l h ih => simpa using ih
  | case3 => simp

/-- A part: header fields with their values, and data. -/
structure Part where
  headers : List (List UInt8 × List UInt8)
  content : List UInt8

def delimiter (boundary : List UInt8) : List UInt8 := cr :: lf :: hyphen :: hyphen :: boundary

def headerLine (header : List UInt8 × List UInt8) : List UInt8 :=
  header.1 ++ colon :: sp :: header.2 ++ [cr, lf]

/-- A part with the delimiter after it. -/
def Part.text (boundary : List UInt8) (part : Part) : List UInt8 :=
  part.headers.flatMap headerLine ++ cr :: lf :: (part.content ++ delimiter boundary)

/-- A body: the parts between delimiters, and after the last of them the closing hyphens. -/
def body (boundary : List UInt8) (parts : List Part) : List UInt8 :=
  hyphen :: hyphen :: boundary ++ cr :: lf ::
    ((parts.map (Part.text boundary)).intersperse [cr, lf]).flatten ++ [hyphen, hyphen]

def toldHeader (header : List UInt8 × List UInt8) : List Atom :=
  header.1.map .headerField ++ header.2.map .headerValue

/-- What the callbacks are told of a part, from its header fields to its data. -/
def Part.told (part : Part) : List Atom :=
  part.headers.flatMap toldHeader ++ .headersComplete :: (cut part.content).map .data

/-- What the callbacks are told of a body. -/
def told (parts : List Part) : List Atom :=
  [.bodyBegin, .partBegin] ++
    ((parts.map Part.told).intersperse [.partEnd, .partBegin]).flatten ++ [.partEnd, .bodyEnd]

/-- What a client keeps to. -/
structure Part.Valid (boundary : List UInt8) (part : Part) : Prop where
  field : ∀ header ∈ part.headers, header.1 ≠ [] ∧ ∀ c ∈ header.1, isFieldChar c = true
  value : ∀ header ∈ part.headers,
    cr ∉ header.2 ∧ header.2.head? ≠ some sp ∧ header.2.head? ≠ some ht
  apart : ¬delimiter boundary <:+: part.content

section

variable {boundary : List UInt8}

theorem feed_data_cons_of_ne (index : ℕ) {c : UInt8} (h : c ≠ cr) (l : List UInt8) :
    feed ⟨boundary, index, .data⟩ (c :: l) =
      (feed ⟨boundary, index, .data⟩ l).after [.data c] := by
  rw [feed_data ⟨boundary, index, .data⟩, scanData_cons_of_ne _ h,
    feed_data ⟨boundary, index, .data⟩]

/-- The boundary, read from the byte `a.length` on. -/
theorem feed_boundary_append {state : State}
    (hstate : state = .firstBoundary ∨ state = .dataBoundary) (a b : List UInt8)
    {rest : List UInt8} (h : boundary = a ++ b ++ rest) (l : List UInt8) :
    feed ⟨boundary, a.length, state⟩ (b ++ l) =
      feed ⟨boundary, a.length + b.length, state⟩ l := by
  induction b generalizing a with
  | nil => rfl
  | cons c b ih =>
    have hlt : a.length < boundary.length := by
      simp only [h, List.length_append, List.length_cons]
      omega
    have hat : boundary[a.length]? = some c := by simp [h]
    have hpass : (Parser.mk boundary a.length state).pass c [] =
        .next ⟨boundary, a.length + 1, state⟩ [] [] := by
      rcases hstate with rfl | rfl
      · simp [Parser.pass, hat, show a.length ≠ boundary.length by omega,
          show a.length ≠ boundary.length + 1 by omega]
      · simp [Parser.pass, Parser.boundary?, hat, show a.length ≠ boundary.length by omega]
    have hrest := ih (a ++ [c]) (by simpa using h)
    simp only [List.length_append, List.length_singleton] at hrest
    simp only [List.cons_append, feed, hpass, List.flatMap_nil, Result.after_nil, hrest,
      List.length_cons]
    congr 2
    omega

theorem feed_data_cr (index : ℕ) (l : List UInt8) :
    feed ⟨boundary, index, .data⟩ (cr :: l) = feed ⟨boundary, index, .dataCr⟩ l := by
  simp [feed, Parser.pass, Parser.scanData, chunk]

theorem feed_dataCr_lf (index : ℕ) (l : List UInt8) :
    feed ⟨boundary, index, .dataCr⟩ (lf :: l) = feed ⟨boundary, index, .dataCrLf⟩ l := rfl

theorem feed_dataCrLf_hyphen (index : ℕ) (l : List UInt8) :
    feed ⟨boundary, index, .dataCrLf⟩ (hyphen :: l) = feed ⟨boundary, index, .dataCrLfHy⟩ l := rfl

theorem feed_dataCrLfHy_hyphen (index : ℕ) (l : List UInt8) :
    feed ⟨boundary, index, .dataCrLfHy⟩ (hyphen :: l) =
      feed ⟨boundary, index, .dataBoundaryStart⟩ l := rfl

/-- `"\r\n--"`, with anything after it. -/
theorem feed_data_hyphens (index : ℕ) (c : UInt8) (l : List UInt8) :
    feed ⟨boundary, index, .data⟩ (cr :: lf :: hyphen :: hyphen :: c :: l) =
      feed ⟨boundary, 0, .dataBoundary⟩ (c :: l) := by
  rw [feed_data_cr, feed_dataCr_lf, feed_dataCrLf_hyphen, feed_dataCrLfHy_hyphen,
    feed_dataBoundaryStart]

/-- The delimiter after the data of a part. -/
theorem feed_delimiter (hb : boundary ≠ []) (index : ℕ) (l : List UInt8) :
    feed ⟨boundary, index, .data⟩ (delimiter boundary ++ l) =
      feed ⟨boundary, boundary.length, .dataBoundary⟩ l := by
  have hmatch := feed_boundary_append (.inr rfl) [] boundary
    (show boundary = [] ++ boundary ++ [] by simp) l
  obtain ⟨c, b, rfl⟩ := List.exists_cons_of_ne_nil hb
  simp only [delimiter, List.cons_append, feed_data_hyphens]
  simpa using hmatch

/-- Bytes that begin like the delimiter and do not go on like it. -/
theorem feed_mismatch {a rest : List UInt8} (h : delimiter boundary = a ++ rest) (ha : a ≠ [])
    (hrest : rest ≠ []) {c : UInt8} (hc : rest.head? ≠ some c) (index : ℕ) (l : List UInt8) :
    ∃ index', feed ⟨boundary, index, .data⟩ (a ++ c :: l) =
      (feed ⟨boundary, index', .data⟩ (c :: l)).after
        ((if 4 ≤ a.length then a.drop 4 else a).map .data) := by
  match a, h with
  | [], _ => exact absurd rfl ha
  | [_], h =>
    obtain ⟨rfl, rfl⟩ : cr = _ ∧ _ := by simpa [delimiter] using h
    have hlf : c ≠ lf := by simpa [eq_comm] using hc
    exact ⟨index, (feed_data_cr index _).trans (feed_dataCr_of_ne boundary index hlf l)⟩
  | [_, _], h =>
    obtain ⟨rfl, rfl, rfl⟩ : cr = _ ∧ lf = _ ∧ _ := by simpa [delimiter] using h
    have hhyphen : c ≠ hyphen := by simpa [eq_comm] using hc
    exact ⟨index, (feed_data_cr index _).trans (feed_dataCrLf_of_ne boundary index hhyphen l)⟩
  | [_, _, _], h =>
    obtain ⟨rfl, rfl, rfl, rfl⟩ : cr = _ ∧ lf = _ ∧ hyphen = _ ∧ _ := by simpa [delimiter] using h
    have hhyphen : c ≠ hyphen := by simpa [eq_comm] using hc
    exact ⟨index, (feed_data_cr index _).trans (feed_dataCrLfHy_of_ne boundary index hhyphen l)⟩
  | _ :: _ :: _ :: _ :: a, h =>
    obtain ⟨rfl, rfl, rfl, rfl, hb⟩ :
        cr = _ ∧ lf = _ ∧ hyphen = _ ∧ hyphen = _ ∧ boundary = a ++ rest := by
      simpa [delimiter] using h
    obtain ⟨d, rest, rfl⟩ := List.exists_cons_of_ne_nil hrest
    have hne : a.length ≠ boundary.length := by simp [hb]
    have hat : boundary[a.length]? ≠ some c := by simpa [hb] using hc
    refine ⟨a.length, ?_⟩
    have hmatch := feed_boundary_append (.inr rfl) [] a (show boundary = [] ++ a ++ d :: rest from hb)
      (c :: l)
    have hcut := feed_dataBoundary_of_ne hne hat l
    obtain ⟨c', l', hl⟩ : ∃ c' l', a ++ c :: l = c' :: l' := by cases a <;> simp
    simp only [List.length_nil, Nat.zero_add] at hmatch
    simp only [List.cons_append, hl, feed_data_hyphens]
    rw [← hl, hmatch, hcut]
    simp [hb]

/-- Two lists agree on a prefix, and no further. -/
theorem exists_common_prefix (a b : List UInt8) :
    ∃ p s r, a = p ++ s ∧ b = p ++ r ∧ (s = [] ∨ r = [] ∨ s.head? ≠ r.head?) := by
  induction a generalizing b with
  | nil => exact ⟨[], [], b, rfl, rfl, .inl rfl⟩
  | cons c a ih =>
    cases b with
    | nil => exact ⟨[], c :: a, [], rfl, rfl, .inr (.inl rfl)⟩
    | cons d b =>
      by_cases h : c = d
      · obtain ⟨p, s, r, rfl, rfl, hsr⟩ := ih b
        exact ⟨c :: p, s, r, rfl, by rw [h]; rfl, hsr⟩
      · exact ⟨[], c :: a, d :: b, rfl, rfl, .inr (.inr (by simpa using h))⟩

theorem cut_append_of_mismatch (hcr : cr ∉ boundary) {a rest r : List UInt8}
    (h : delimiter boundary = a ++ rest) (hrest : rest ≠ []) (hr : r = [] ∨ rest.head? ≠ r.head?) :
    cut (a ++ r) = (if 4 ≤ a.length then a.drop 4 else a) ++ cut r := by
  match a, h with
  | [], _ => rfl
  | [_], h =>
    obtain ⟨rfl, rfl⟩ : cr = _ ∧ _ := by simpa [delimiter] using h
    rw [List.singleton_append, cut]
    · simp
    · rintro l - rfl
      simp at hr
  | [_, _], h =>
    obtain ⟨rfl, rfl, rfl⟩ : cr = _ ∧ lf = _ ∧ _ := by simpa [delimiter] using h
    rw [List.cons_append, List.singleton_append, cut, cut_cons_of_ne (by decide)]
    · simp
    · rintro l - hl
      obtain ⟨-, rfl⟩ := List.cons.inj hl
      simp at hr
  | [_, _, _], h =>
    obtain ⟨rfl, rfl, rfl, rfl⟩ : cr = _ ∧ lf = _ ∧ hyphen = _ ∧ _ := by simpa [delimiter] using h
    rw [List.cons_append, List.cons_append, List.singleton_append, cut,
      cut_cons_of_ne (by decide), cut_cons_of_ne (by decide)]
    · simp
    · rintro l - hl
      simp only [List.cons.injEq] at hl
      obtain ⟨-, -, rfl⟩ := hl
      simp at hr
  | _ :: _ :: _ :: _ :: a, h =>
    obtain ⟨rfl, rfl, rfl, rfl, hb⟩ :
        cr = _ ∧ lf = _ ∧ hyphen = _ ∧ hyphen = _ ∧ boundary = a ++ rest := by
      simpa [delimiter] using h
    have ha : cr ∉ a := fun hmem => hcr (by simp [hb, hmem])
    simpa [cut] using cut_append_of_notMem ha r

/-- The data of a part, up to the delimiter. -/
theorem feed_content (hb : boundary ≠ []) (hcr : cr ∉ boundary) (content : List UInt8)
    (hapart : ¬delimiter boundary <:+: content) (index : ℕ) (l : List UInt8) :
    feed ⟨boundary, index, .data⟩ (content ++ (delimiter boundary ++ l)) =
      (feed ⟨boundary, boundary.length, .dataBoundary⟩ l).after ((cut content).map .data) := by
  induction hn : content.length using Nat.strongRecOn generalizing content index with
  | _ n ih =>
    obtain ⟨a, rest, r, hdelimiter, rfl, hr⟩ :=
      exists_common_prefix (delimiter boundary) content
    have hrest : rest ≠ [] := by
      rintro rfl
      refine hapart ⟨[], r, ?_⟩
      simpa using hdelimiter
    replace hr : r = [] ∨ rest.head? ≠ r.head? := hr.resolve_left hrest
    have hapart' : ¬delimiter boundary <:+: r := fun h =>
      hapart (h.trans (List.suffix_append a r).isInfix)
    by_cases ha : a = []
    · subst ha
      cases r with
      | nil => exact feed_delimiter hb index l
      | cons c r =>
        have hc : c ≠ cr := by
          rw [← List.nil_append rest, ← hdelimiter] at hr
          simpa [delimiter, eq_comm] using hr
        have hrest' := ih r.length (by simp [← hn]) r
          (fun h => hapart' (h.trans (List.suffix_cons c r).isInfix)) index rfl
        simp [feed_data_cons_of_ne index hc, cut_cons_of_ne hc, hrest']
    · -- the byte after what is like the delimiter: in the data, or the delimiter's first
      obtain ⟨c, w, hw, hc⟩ : ∃ c w, r ++ (delimiter boundary ++ l) = c :: w ∧
          rest.head? ≠ some c := by
        cases r with
        | cons c r => exact ⟨c, _, rfl, by simpa using hr⟩
        | nil =>
          refine ⟨cr, _, rfl, fun h => ?_⟩
          obtain ⟨d, a, rfl⟩ := List.exists_cons_of_ne_nil ha
          have hmem : cr ∈ lf :: hyphen :: hyphen :: boundary := by
            rw [(List.cons.inj hdelimiter).2]
            exact List.mem_append_right a (List.mem_of_mem_head? h)
          simp [hcr, cr, lf, hyphen] at hmem
      obtain ⟨index', hmismatch⟩ := feed_mismatch hdelimiter ha hrest hc index w
      have hshorter : r.length < n := by
        have := List.length_pos_iff.mpr ha
        simp only [List.length_append] at hn
        omega
      rw [List.append_assoc, hw, hmismatch, ← hw, ih _ hshorter r hapart' index' rfl,
        cut_append_of_mismatch hcr hdelimiter hrest hr, Result.after_after, List.map_append]

/-- A header field, up to its colon. -/
theorem feed_field {name : List UInt8} (hname : ∀ c ∈ name, isFieldChar c = true) (index : ℕ)
    (l : List UInt8) :
    feed ⟨boundary, index, .headerField⟩ (name ++ colon :: l) =
      (feed ⟨boundary, index, .headerValueStart⟩ l).after (name.map .headerField) := by
  have hcolon : isFieldChar colon = false := by decide
  rw [feed_headerField ⟨boundary, index, .headerField⟩, Parser.scanField]
  simp [List.takeWhile_append_of_pos hname, List.dropWhile_append_of_pos hname, hcolon,
    Outcome.finish]

/-- A header value, up to the end of its line. -/
theorem feed_value {value : List UInt8} (hvalue : cr ∉ value ∧ value.head? ≠ some sp ∧
      value.head? ≠ some ht) (index : ℕ) (l : List UInt8) :
    feed ⟨boundary, index, .headerValueStart⟩ (value ++ cr :: lf :: l) =
      (feed ⟨boundary, index, .headerFieldStart⟩ l).after (value.map .headerValue) := by
  obtain ⟨hcr, hsp, hht⟩ := hvalue
  have hvalue : ∀ c ∈ value, (!decide (c = cr)) = true := by
    rintro c hc
    simpa using ne_of_mem_of_not_mem hc hcr
  obtain ⟨c, w, hw, hc⟩ : ∃ c w, value ++ cr :: lf :: l = c :: w ∧ ¬(c = sp ∨ c = ht) := by
    cases value with
    | nil => exact ⟨cr, lf :: l, rfl, by decide⟩
    | cons c v => exact ⟨c, _, rfl, by simpa using And.intro hsp hht⟩
  rw [hw, feed_headerValueStart_of_ne boundary index hc, ← hw,
    feed_headerValue ⟨boundary, index, .headerValue⟩, Parser.scanValue]
  simp [List.takeWhile_append_of_pos hvalue, List.dropWhile_append_of_pos hvalue,
    Outcome.finish, feed, Parser.pass]

theorem feed_header {header : List UInt8 × List UInt8} (hne : header.1 ≠ [])
    (hfield : ∀ c ∈ header.1, isFieldChar c = true)
    (hvalue : cr ∉ header.2 ∧ header.2.head? ≠ some sp ∧ header.2.head? ≠ some ht) (index : ℕ)
    (l : List UInt8) :
    feed ⟨boundary, index, .headerFieldStart⟩ (headerLine header ++ l) =
      (feed ⟨boundary, index, .headerFieldStart⟩ l).after (toldHeader header) := by
  obtain ⟨name, value⟩ := header
  obtain ⟨c, rest, rfl⟩ := List.exists_cons_of_ne_nil hne
  have hc : c ≠ cr := by
    rintro rfl
    exact absurd (hfield cr (by simp)) (by decide)
  have hline : headerLine (c :: rest, value) ++ l =
      c :: rest ++ colon :: sp :: (value ++ cr :: lf :: l) := by
    simp [headerLine]
  have hsp : feed ⟨boundary, index, .headerValueStart⟩ (sp :: (value ++ cr :: lf :: l)) =
      feed ⟨boundary, index, .headerValueStart⟩ (value ++ cr :: lf :: l) := rfl
  rw [hline, List.cons_append, feed_headerFieldStart_of_ne boundary index hc, ← List.cons_append,
    feed_field hfield, hsp, feed_value hvalue, Result.after_after, toldHeader]

/-- A part, from its headers to the delimiter after it. -/
theorem feed_part (hb : boundary ≠ []) (hcr : cr ∉ boundary) {part : Part}
    (hvalid : part.Valid boundary) (index : ℕ) (l : List UInt8) :
    feed ⟨boundary, index, .headerFieldStart⟩ (part.text boundary ++ l) =
      (feed ⟨boundary, boundary.length, .dataBoundary⟩ l).after part.told := by
  obtain ⟨headers, content⟩ := part
  obtain ⟨hfield, hvalue, hapart⟩ := hvalid
  induction headers with
  | nil =>
    have hend : feed ⟨boundary, index, .headerFieldStart⟩
          (cr :: lf :: (content ++ (delimiter boundary ++ l))) =
        (feed ⟨boundary, index, .data⟩ (content ++ (delimiter boundary ++ l))).after
          [.headersComplete] := rfl
    simp [Part.text, Part.told, hend, feed_content hb hcr content hapart]
  | cons header headers ih =>
    have hrest := ih (fun h hmem => hfield h (.tail _ hmem))
      (fun h hmem => hvalue h (.tail _ hmem)) hapart
    obtain ⟨hne, hchars⟩ := hfield header (.head _)
    have htext : Part.text boundary ⟨header :: headers, content⟩ ++ l =
        headerLine header ++ (Part.text boundary ⟨headers, content⟩ ++ l) := by
      simp [Part.text]
    rw [htext, feed_header hne hchars (hvalue header (.head _)), hrest, Result.after_after]
    simp [Part.told]

theorem feed_dataBoundary_crLf (l : List UInt8) :
    feed ⟨boundary, boundary.length, .dataBoundary⟩ (cr :: lf :: l) =
      (feed ⟨boundary, 0, .headerFieldStart⟩ l).after [.partEnd, .partBegin] := by
  simp [feed, Parser.pass, Parser.boundary?, Parser.boundaryDone, Event.atoms]

theorem feed_dataBoundary_hyphens (l : List UInt8) :
    feed ⟨boundary, boundary.length, .dataBoundary⟩ (hyphen :: hyphen :: l) =
      (feed ⟨boundary, 0, .epilogue⟩ l).after [.partEnd, .bodyEnd] := by
  simp [feed, Parser.pass, Parser.boundary?, Parser.boundaryDone, Event.atoms, hyphen, cr]

theorem feed_epilogue (index : ℕ) (l : List UInt8) :
    feed ⟨boundary, index, .epilogue⟩ l = ⟨⟨boundary, index, .epilogue⟩, [], none⟩ := by
  induction l with
  | nil => rfl
  | cons c l ih => simp [feed, Parser.pass, ih, Result.after]

/-- The parts, from the headers of the first to the hyphens after the last. -/
theorem feed_parts (hb : boundary ≠ []) (hcr : cr ∉ boundary) (part : Part) (parts : List Part)
    (hvalid : ∀ p ∈ part :: parts, p.Valid boundary) (index : ℕ) (l : List UInt8) :
    feed ⟨boundary, index, .headerFieldStart⟩
        ((((part :: parts).map (Part.text boundary)).intersperse [cr, lf]).flatten ++
          hyphen :: hyphen :: l) =
      ⟨⟨boundary, 0, .epilogue⟩,
        (((part :: parts).map Part.told).intersperse [.partEnd, .partBegin]).flatten ++
          [.partEnd, .bodyEnd], none⟩ := by
  have hpart := feed_part hb hcr (hvalid part (.head _)) index
  induction parts generalizing part index with
  | nil => simp [hpart, feed_dataBoundary_hyphens, feed_epilogue, Result.after]
  | cons next parts ih =>
    have hnext : next.Valid boundary := hvalid next (.tail _ (.head _))
    have hrest := ih next (fun p hmem => hvalid p (.tail _ hmem)) 0
      (feed_part hb hcr hnext 0)
    simp only [List.map_cons, List.intersperse_cons_cons, List.flatten_cons, List.append_assoc,
      List.cons_append, List.nil_append] at hrest ⊢
    rw [hpart, feed_dataBoundary_crLf, hrest]
    simp [Result.after]

/-- The first delimiter, without the line end before it. -/
theorem feed_first (l : List UInt8) :
    feed (init boundary) (hyphen :: hyphen :: boundary ++ cr :: lf :: l) =
      (feed ⟨boundary, 0, .headerFieldStart⟩ l).after [.bodyBegin, .partBegin] := by
  have hmatch := feed_boundary_append (.inl rfl) [] boundary
    (show boundary = [] ++ boundary ++ [] by simp) (cr :: lf :: l)
  have hhyphens : feed (init boundary) (hyphen :: hyphen :: (boundary ++ cr :: lf :: l)) =
      feed ⟨boundary, 0, .firstBoundary⟩ (boundary ++ cr :: lf :: l) := rfl
  simp only [List.length_nil, Nat.zero_add] at hmatch
  rw [List.cons_append, List.cons_append, hhyphens, hmatch]
  simp [feed, Parser.pass, Event.atoms]

theorem feed_body (hb : boundary ≠ []) (hcr : cr ∉ boundary) {parts : List Part}
    (hne : parts ≠ []) (hvalid : ∀ p ∈ parts, p.Valid boundary) (l : List UInt8) :
    feed (init boundary) (body boundary parts ++ l) =
      ⟨⟨boundary, 0, .epilogue⟩, told parts, none⟩ := by
  obtain ⟨part, parts, rfl⟩ := List.exists_cons_of_ne_nil hne
  have hparts := feed_parts hb hcr part parts hvalid 0 l
  have hbody : body boundary (part :: parts) ++ l =
      hyphen :: hyphen :: boundary ++ cr :: lf ::
        ((((part :: parts).map (Part.text boundary)).intersperse [cr, lf]).flatten ++
          hyphen :: hyphen :: l) := by
    simp [body]
  rw [hbody, feed_first, hparts]
  rfl

end

/-- The data of a part come out whole exactly when `"\r\n--"` is not in them. -/
theorem cut_eq_self_iff (l : List UInt8) : cut l = l ↔ ¬[cr, lf, hyphen, hyphen] <:+: l := by
  fun_induction cut l with
  | case1 l =>
    have hshorter := length_cut_le l
    have hprefix : [cr, lf, hyphen, hyphen] <:+: 13 :: 10 :: 45 :: 45 :: l := ⟨[], l, rfl⟩
    constructor
    · intro h
      rw [h] at hshorter
      simp only [List.length_cons] at hshorter
      omega
    · intro h
      exact absurd hprefix h
  | case2 c l h ih =>
    have hprefix : ¬[cr, lf, hyphen, hyphen] <+: c :: l := by
      rintro ⟨l', hl⟩
      obtain ⟨hc, hl⟩ := List.cons.inj hl
      exact h l' hc.symm hl.symm
    simp [List.infix_cons_iff, hprefix, ih]
  | case3 => simp

/-- However a body is cut into buffers, the callbacks are told its parts in order, each with its
header fields and values and with its data, but for every `"\r\n--"` in these. -/
theorem receive_body {boundary : List UInt8} (hb : boundary ≠ []) (hcr : cr ∉ boundary)
    {parts : List Part} (hne : parts ≠ []) (hvalid : ∀ p ∈ parts, p.Valid boundary)
    (chunks : List (List UInt8)) (epilogue : List UInt8)
    (h : chunks.flatten = body boundary parts ++ epilogue) :
    (receive (init boundary) chunks).1 = ⟨boundary, 0, .epilogue⟩ ∧
      (receive (init boundary) chunks).2.flatMap Event.atoms = told parts ∧
      ∀ p ∈ parts, cut p.content = p.content ↔ ¬[cr, lf, hyphen, hyphen] <:+: p.content := by
  have hbody := feed_body hb hcr hne hvalid epilogue
  rw [← h] at hbody
  obtain ⟨hparser, hevents⟩ := receive_eq_feed (congrArg Result.error hbody)
  exact ⟨by rw [hparser, hbody], by rw [hevents, hbody], fun p _ => cut_eq_self_iff p.content⟩

/-- The field `n: v` with the data `"hi\r\n--y"`. -/
def greeting : Part := ⟨[([110], [118])], [104, 105, 13, 10, 45, 45, 121]⟩

/-- A body in two buffers. -/
def greetingChunks : List (List UInt8) :=
  [(body [120] [greeting]).take 17, (body [120] [greeting]).drop 17]

/-- Nothing is told of the bytes between `"hi"` and `"y"`. -/
theorem receive_body_greeting : (receive (init [120]) greetingChunks).2.flatMap Event.atoms =
    [.bodyBegin, .partBegin, .headerField 110, .headerValue 118, .headersComplete, .data 104,
      .data 105, .data 121, .partEnd, .bodyEnd] := by
  have hvalid : greeting.Valid [120] := by
    refine ⟨?_, ?_, by decide⟩ <;> simp [greeting, isFieldChar, cr, sp, ht]
  have htold := receive_body (show [120] ≠ [] by decide) (show cr ∉ [120] by decide)
    (List.cons_ne_nil greeting []) (fun p hp => by rwa [List.mem_singleton.mp hp])
    greetingChunks [] (by simp [greetingChunks])
  rw [htold.2.1]
  rfl

end Multipart

end Inspector
