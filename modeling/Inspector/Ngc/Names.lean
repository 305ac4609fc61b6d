import Inspector.Ngc.Params
import Mathlib.Data.List.TakeWhile

/-! # Names and their buffers

The two loops that copy the name of a parameter: `ngc_read_name` takes it out of a line, and
`ngc_name_tolower` normalises it. Their buffers have `NGC_MAX_PARAM_LENGTH + 1` elements, and what
the loops write is kept with the terminator. A text is what stands before its terminator.
-/

namespace Inspector

namespace Ngc

/-- The codes of `status_code_t` that the functions of NGC parameters, expressions and flow control
give. -/
inductive Status
  | ok
  | badNumberFormat
  | negativeValue
  | gcodeUnsupportedCommand
  | gcodeValueOutOfRange
  | gcodeCommandValueNotInteger
  | expressionUknownOp
  | expressionDivideByZero
  | expressionInvalidArgument
  | expressionArgumentOutOfRange
  | expressionSyntaxError
  | expressionInvalidResult
  | flowControlSyntaxError
  | flowControlStackOverflow
  | flowControlNotExecutingMacro
  | flowControlOutOfMemory
  | fileOpenFailed
  -- The code that a program gives in `O<error>`.
  | raised (code : ℤ)
  deriving DecidableEq, Repr

/-- What `ngc_read_name` leaves: the position in the line, and what has been written. -/
structure NameRead where
  status : Status
  pos : ℕ
  written : List UInt8
  deriving DecidableEq, Repr

/-- The loop of `ngc_read_name` after `len` characters. -/
def copyName : ℕ → List UInt8 → List UInt8 × List UInt8
  | _, [] => ([], [])
  | len, c :: s =>
    if c ≠ '>'.toUInt8 ∧ len ≤ maxParamLength then
      let (buffer, rest) := copyName (len + 1) s
      (c :: buffer, rest)
    else ([], c :: s)

/-- `ngc_read_name`. -/
def ngcReadName (line : List UInt8) (pos : ℕ) : NameRead :=
  if (line)[pos]? = some '<'.toUInt8 then
    let (buffer, rest) := copyName 0 (line.drop (pos + 1))
    if rest.head? = some '>'.toUInt8 then
      ⟨.ok, pos + 1 + buffer.length + 1, buffer ++ [0]⟩
    else ⟨.flowControlSyntaxError, pos + 1 + buffer.length, buffer⟩
  else ⟨.badNumberFormat, pos + 1, []⟩

/-- The loop of `ngc_name_tolower` after `len` characters. -/
def lowerName : ℕ → List UInt8 → List UInt8
  | _, [] => []
  | len, c :: s =>
    if len ≤ maxParamLength then
      if ' '.toUInt8 < c then lcaps c :: lowerName (len + 1) s else lowerName len s
    else []

/-- What `ngc_name_tolower` writes into its buffer. -/
def lowered (name : Name) : List UInt8 := lowerName 0 name ++ [0]

/-- The characters of a name that count. -/
def visible (name : Name) : Name := name.filter fun c => ' '.toUInt8 < c

/-- A bracketed name starts at a position of a line. -/
def NameAt (line : List UInt8) (pos : ℕ) (name : Name) : Prop :=
  '>'.toUInt8 ∉ name ∧ '<'.toUInt8 :: name ++ ['>'.toUInt8] <+: line.drop pos

/-- A name stays within the buffer, is read as a whole, and is an error when it is too long. -/
structure ReadFits (line : List UInt8) (pos : ℕ) : Prop where
  bounded : (ngcReadName line pos).written.length ≤ maxParamLength + 1
  whole : (ngcReadName line pos).status = .ok →
    ∃ name, NameAt line pos name ∧ (ngcReadName line pos).written = name ++ [0]
  limited : ∀ name, NameAt line pos name → maxParamLength < name.length →
    (ngcReadName line pos).status ≠ .ok

/-- A name stays within the static buffer and is not cut. -/
structure LowerFits (name : Name) : Prop where
  bounded : (lowered name).length ≤ maxParamLength + 1
  whole : lowered name = (visible name).map lcaps ++ [0]

section Copy

theorem copyName_eq (len : ℕ) (s : List UInt8) :
    copyName len s =
      ((s.takeWhile (· ≠ '>'.toUInt8)).take (maxParamLength + 1 - len),
        s.drop ((s.takeWhile (· ≠ '>'.toUInt8)).take (maxParamLength + 1 - len)).length) := by
  induction s generalizing len with
  | nil => simp [copyName]
  | cons c s ih =>
    rw [copyName]
    by_cases hc : c ≠ '>'.toUInt8
    · by_cases hlen : len ≤ maxParamLength
      · have hsub : maxParamLength + 1 - len = maxParamLength + 1 - (len + 1) + 1 := by omega
        rw [if_pos ⟨hc, hlen⟩, ih, List.takeWhile_cons_of_pos (by simpa using hc), hsub,
          List.take_succ_cons, List.length_cons, List.drop_succ_cons]
      · have hsub : maxParamLength + 1 - len = 0 := by omega
        rw [if_neg fun h => hlen h.2, hsub, List.take_zero]
        rfl
    · rw [if_neg fun h => hc h.1, List.takeWhile_cons_of_neg (by simpa using hc)]
      simp

theorem lowerName_eq (len : ℕ) (name : Name) :
    lowerName len name = ((visible name).take (maxParamLength + 1 - len)).map lcaps := by
  induction name generalizing len with
  | nil => simp [lowerName, visible]
  | cons c name ih =>
    rw [lowerName]
    by_cases hlen : len ≤ maxParamLength
    · by_cases hc : ' '.toUInt8 < c
      · have hsub : maxParamLength + 1 - len = maxParamLength + 1 - (len + 1) + 1 := by omega
        have hvisible : visible (c :: name) = c :: visible name :=
          List.filter_cons_of_pos (decide_eq_true hc)
        rw [if_pos hlen, if_pos hc, ih, hvisible, hsub, List.take_succ_cons, List.map_cons]
      · have hvisible : visible (c :: name) = visible name :=
          List.filter_cons_of_neg (by simp [hc])
        rw [if_pos hlen, if_neg hc, ih, hvisible]
    · have hsub : maxParamLength + 1 - len = 0 := by omega
      rw [if_neg hlen, hsub, List.take_zero]
      rfl

/-- The lists of parameters are searched for the names that are written. -/
theorem nameTolower_eq (name : Name) : nameTolower name = lowerName 0 name := by
  rw [lowerName_eq]
  rfl

end Copy

section Read

variable {line : List UInt8} {pos : ℕ} {name : Name}

theorem NameAt.drop (h : NameAt line pos name) :
    (line)[pos]? = some '<'.toUInt8 ∧
      ∃ rest, line.drop (pos + 1) = name ++ '>'.toUInt8 :: rest := by
  obtain ⟨rest, hrest⟩ := h.2
  have hdrop : line.drop pos = '<'.toUInt8 :: (name ++ '>'.toUInt8 :: rest) := by
    rw [← hrest]
    simp
  refine ⟨?_, rest, ?_⟩
  · rw [← List.head?_drop, hdrop]
    rfl
  · rw [← List.drop_drop, hdrop]
    rfl

theorem takeWhile_of_nameAt (h : NameAt line pos name) :
    (line.drop (pos + 1)).takeWhile (· ≠ '>'.toUInt8) = name := by
  obtain ⟨-, rest, hrest⟩ := h.drop
  rw [hrest, List.takeWhile_append_of_pos, List.takeWhile_cons_of_neg, List.append_nil]
  · simp
  · intro c hc
    exact decide_eq_true fun heq => h.1 (heq ▸ hc)

/-- A name of a length that the loop takes is read as a whole. -/
theorem ngcReadName_of_le (h : NameAt line pos name) (hlen : name.length ≤ maxParamLength + 1) :
    ngcReadName line pos = ⟨.ok, pos + 1 + name.length + 1, name ++ [0]⟩ := by
  obtain ⟨hopen, rest, hrest⟩ := h.drop
  rw [ngcReadName, if_pos hopen, copyName_eq, takeWhile_of_nameAt h, Nat.sub_zero,
    List.take_of_length_le hlen, hrest]
  simp

theorem ngcReadName_of_lt (h : NameAt line pos name) (hlen : maxParamLength + 1 < name.length) :
    ngcReadName line pos =
      ⟨.flowControlSyntaxError, pos + 1 + (maxParamLength + 1), name.take (maxParamLength + 1)⟩ := by
  obtain ⟨hopen, rest, hrest⟩ := h.drop
  have htake : (name.take (maxParamLength + 1)).length = maxParamLength + 1 :=
    List.length_take_of_le hlen.le
  have hhead : ((name ++ '>'.toUInt8 :: rest).drop (maxParamLength + 1)).head? ≠
      some '>'.toUInt8 := by
    rw [List.head?_drop, List.getElem?_append_left hlen, List.getElem?_eq_getElem hlen]
    intro heq
    exact h.1 (Option.some.inj heq ▸ List.getElem_mem hlen)
  rw [ngcReadName, if_pos hopen, copyName_eq, takeWhile_of_nameAt h, Nat.sub_zero, htake, hrest]
  simp only [if_neg hhead, htake]

/-- What is read is a name. -/
theorem nameAt_of_ok (h : (ngcReadName line pos).status = .ok) : ∃ name, NameAt line pos name := by
  rw [ngcReadName] at h
  split_ifs at h with hopen
  rw [copyName_eq] at h
  dsimp only at h
  split_ifs at h with hclose
  set name := (line.drop (pos + 1)).takeWhile (· ≠ '>'.toUInt8) with hname
  set short := name.take (maxParamLength + 1 - 0) with hshort
  refine ⟨short, fun hmem => ?_, ?_⟩
  · have := List.mem_takeWhile_imp (hname ▸ List.mem_of_mem_take hmem)
    simp at this
  · obtain ⟨rest, hrest⟩ := List.head?_eq_some_iff.mp hclose
    have hprefix : short <+: line.drop (pos + 1) :=
      (List.take_prefix _ _).trans (List.takeWhile_prefix _)
    obtain ⟨tail, htail⟩ := hprefix
    have hlt : pos < line.length := (List.getElem?_eq_some_iff.mp hopen).1
    have hget : (line)[pos] = '<'.toUInt8 := (List.getElem?_eq_some_iff.mp hopen).2
    refine ⟨rest, ?_⟩
    rw [List.drop_eq_getElem_cons hlt, hget, ← htail]
    rw [← htail, List.drop_left] at hrest
    simp [hrest]

theorem length_written_of_ne_ok (h : (ngcReadName line pos).status ≠ .ok) :
    (ngcReadName line pos).written.length ≤ maxParamLength + 1 := by
  rw [ngcReadName] at h ⊢
  split_ifs at h ⊢ with hopen
  · rw [copyName_eq] at h ⊢
    dsimp only at h ⊢
    split_ifs at h ⊢ with hclose
    · exact absurd rfl h
    · exact List.length_take_le _ _
  · exact Nat.zero_le _

/-- A name is read as it should exactly when it is not one character too long. -/
theorem readFits_iff (line : List UInt8) (pos : ℕ) :
    ReadFits line pos ↔ ∀ name, NameAt line pos name → name.length ≠ maxParamLength + 1 := by
  constructor
  · intro h name hname hlen
    have hbounded := h.bounded
    rw [ngcReadName_of_le hname hlen.le] at hbounded
    rw [List.length_append, List.length_singleton] at hbounded
    omega
  · intro h
    refine ⟨?_, fun hok => ?_, fun name hname hlen hok => ?_⟩
    · by_cases hok : (ngcReadName line pos).status = .ok
      · obtain ⟨name, hname⟩ := nameAt_of_ok hok
        rcases lt_or_ge (maxParamLength + 1) name.length with hlt | hle
        · rw [ngcReadName_of_lt hname hlt] at hok
          cases hok
        · rw [ngcReadName_of_le hname hle, List.length_append]
          have := h name hname
          simp only [List.length_singleton]
          omega
      · exact length_written_of_ne_ok hok
    · obtain ⟨name, hname⟩ := nameAt_of_ok hok
      refine ⟨name, hname, ?_⟩
      rcases lt_or_ge (maxParamLength + 1) name.length with hlt | hle
      · rw [ngcReadName_of_lt hname hlt] at hok
        cases hok
      · rw [ngcReadName_of_le hname hle]
    · have hne := h name hname
      rw [ngcReadName_of_lt hname (by omega)] at hok
      cases hok

/-- A name is normalised as it should exactly when it is not too long. -/
theorem lowerFits_iff (name : Name) : LowerFits name ↔ (visible name).length ≤ maxParamLength := by
  have hlowered : lowered name = ((visible name).take (maxParamLength + 1)).map lcaps ++ [0] := by
    rw [lowered, lowerName_eq, Nat.sub_zero]
  constructor
  · intro h
    have hbounded := h.bounded
    rw [hlowered, List.length_append, List.length_map, List.length_take,
      List.length_singleton] at hbounded
    omega
  · intro h
    have htake : (visible name).take (maxParamLength + 1) = visible name :=
      List.take_of_length_le (by omega)
    rw [htake] at hlowered
    refine ⟨?_, hlowered⟩
    rw [hlowered, List.length_append, List.length_map, List.length_singleton]
    omega

/-- The two loops keep to their buffers exactly as long as the names keep to their limit. -/
theorem names_fit_iff (line : List UInt8) (pos : ℕ) (text : Name) :
    (ReadFits line pos ↔ ∀ name, NameAt line pos name → name.length ≠ maxParamLength + 1) ∧
      (LowerFits text ↔ (visible text).length ≤ maxParamLength) :=
  ⟨readFits_iff line pos, lowerFits_iff text⟩

/-- A name that is one character too long. -/
def longName : Name := List.replicate (maxParamLength + 1) 'A'.toUInt8

theorem not_names_fit_longName :
    ¬ ReadFits ('<'.toUInt8 :: longName ++ ['>'.toUInt8]) 0 ∧ ¬ LowerFits longName := by
  refine ⟨fun h => ?_, fun h => ?_⟩
  · exact absurd h.bounded (by decide)
  · exact absurd h.bounded (by decide)

end Read

end Ngc

end Inspector
