import Inspector.Ngc.Substitution
import Mathlib.Tactic.Ring

/-! # The segments of a message

What a message with its parameters substituted is, and the segments of a line as the two passes of
the substitution see them: characters, references, markers, and what begins like a marker but is
none.
-/

namespace Inspector

namespace Ngc

open Json (Bytes isDigit)

section Meaning

variable (floatDecimals : ℕ) (reader : ParamReader)

/-- A marker, and the decimals that it selects. -/
inductive Marker : Bytes → ℕ → Prop
  | integer : Marker ['%'.toUInt8, 'd'.toUInt8] 0
  | float : Marker ['%'.toUInt8, 'f'.toUInt8] floatDecimals
  | decimals (c : UInt8) (h : isDigit c = true) :
    Marker ['%'.toUInt8, '.'.toUInt8, c, 'f'.toUInt8] (digitValue c)

/-- A line with its references replaced by the values, in the format of the last marker, and its
markers removed. -/
inductive Substitutes : ℕ → Bytes → Bytes → Prop
  | nil (decimals : ℕ) : Substitutes decimals [] []
  | marker {decimals decimals' : ℕ} {run rest message : Bytes}
    (hrun : Marker floatDecimals run decimals') (h : Substitutes decimals' rest message) :
    Substitutes decimals (run ++ rest) message
  | reference {decimals : ℕ} {line message : Bytes}
    (h : Substitutes decimals (reader.read ('#'.toUInt8 :: line)).2 message) :
    Substitutes decimals ('#'.toUInt8 :: line)
      (shown decimals (reader.read ('#'.toUInt8 :: line)).1 ++ message)
  | other {decimals : ℕ} {c : UInt8} {line message : Bytes} (hc : c ≠ '#'.toUInt8)
    (hrun : ∀ run decimals' rest, Marker floatDecimals run decimals' → c :: line ≠ run ++ rest)
    (h : Substitutes decimals line message) : Substitutes decimals (c :: line) (c :: message)

end Meaning

/-- A part of a line. A run that is no marker is kept with the text behind it. -/
inductive Segment
  | plain (c : UInt8)
  | reference (value : Option ℚ)
  | marker (run : Bytes) (decimals : ℕ)
  | other (run rest : Bytes)
  | cut (run : Bytes)
  deriving DecidableEq

namespace Segment

/-- The characters that are read as a marker. -/
def run : Segment → Bytes
  | .marker run _ | .other run _ | .cut run => run
  | _ => []

def isMarker : Segment → Bool
  | .marker _ _ => true
  | _ => false

def isOther : Segment → Bool
  | .other _ _ => true
  | _ => false

def isCut : Segment → Bool
  | .cut _ => true
  | _ => false

end Segment

section Scan

variable (floatDecimals : ℕ) (reader : ParamReader)

/-- A run behind `%.` and a digit, with what is behind it. -/
def runEnd (d : UInt8) : Bytes → Segment × Bytes
  | [] => (.cut ['%'.toUInt8, '.'.toUInt8, d], [])
  | c :: rest =>
    if c = 'f'.toUInt8 then (.marker ['%'.toUInt8, '.'.toUInt8, d, c] (digitValue d), rest)
    else (.other ['%'.toUInt8, '.'.toUInt8, d, c] rest, rest)

/-- A run behind `%.`. -/
def runDigit : Bytes → Segment × Bytes
  | [] => (.cut ['%'.toUInt8, '.'.toUInt8], [])
  | c :: rest =>
    if isDigit c then runEnd c rest else (.other ['%'.toUInt8, '.'.toUInt8, c] rest, rest)

/-- A run behind `%`. -/
def formatRun : Bytes → Segment × Bytes
  | [] => (.cut ['%'.toUInt8], [])
  | c :: rest =>
    if c = 'd'.toUInt8 then (.marker ['%'.toUInt8, c] 0, rest)
    else if c = 'f'.toUInt8 then (.marker ['%'.toUInt8, c] floatDecimals, rest)
    else if c = '.'.toUInt8 then runDigit rest
    else (.other ['%'.toUInt8, c] rest, rest)

/-- The segments of a line, no more than a number of them. -/
def segments : ℕ → Bytes → List Segment
  | 0, _ => []
  | _ + 1, [] => []
  | n + 1, c :: line =>
    if c = '%'.toUInt8 then
      (formatRun floatDecimals line).1 :: segments n (formatRun floatDecimals line).2
    else if c = '#'.toUInt8 then
      .reference (reader.read (c :: line)).1 :: segments n (reader.read (c :: line)).2
    else .plain c :: segments n line

/-- The last character of the run begins a reference or a marker. -/
def Segment.Hides : Segment → Prop
  | .other run rest =>
    run.getLast? = some '#'.toUInt8 ∨
      run.getLast? = some '%'.toUInt8 ∧ (formatRun floatDecimals rest).1.isMarker = true
  | _ => False

end Scan

namespace Segment

/-- The decimals behind a segment. -/
def select (decimals : ℕ) : Segment → ℕ
  | .marker _ decimals' => decimals'
  | _ => decimals

/-- What a segment stands for. -/
def meaning (decimals : ℕ) : Segment → Bytes
  | .plain c => [c]
  | .reference value => shown decimals value
  | .marker _ _ => []
  | .other run _ | .cut run => run

/-- What the first pass adds to the length. -/
def allotted (decimals : ℕ) : Segment → ℕ
  | .plain _ => 1
  | .reference value => (shown decimals value).length
  | .marker run _ => run.length
  | _ => 0

/-- The characters in the buffer of the second pass, in front of its zeros: a run is put over those
of earlier runs. -/
def buffered (chars : Bytes) (s : Segment) : Bytes := s.run ++ chars.drop s.run.length

/-- What the second pass writes. -/
def written (decimals : ℕ) (chars : Bytes) (s : Segment) : Bytes :=
  match s with
  | .plain c => [c]
  | .reference value => shown decimals value
  | .other _ _ => s.buffered chars
  | _ => []

end Segment

/-- The decimals behind some segments. -/
def lastDecimals (decimals : ℕ) : List Segment → ℕ
  | [] => decimals
  | s :: segments => lastDecimals (s.select decimals) segments

/-- What the segments stand for. -/
def meaning (decimals : ℕ) : List Segment → Bytes
  | [] => []
  | s :: segments => s.meaning decimals ++ meaning (s.select decimals) segments

/-- The length that the first pass finds. -/
def allotted (decimals : ℕ) : List Segment → ℕ
  | [] => 0
  | s :: segments => s.allotted decimals + allotted (s.select decimals) segments

/-- What the second pass writes. -/
def written (decimals : ℕ) (chars : Bytes) : List Segment → Bytes
  | [] => []
  | s :: segments =>
    s.written decimals chars ++ written (s.select decimals) (s.buffered chars) segments

section Runs

variable {floatDecimals decimals : ℕ} {line rest run : Bytes}

/-- A marker is found where one stands. -/
theorem formatRun_of_marker (hrun : Marker floatDecimals run decimals)
    (h : '%'.toUInt8 :: line = run ++ rest) :
    formatRun floatDecimals line = (.marker run decimals, rest) := by
  cases hrun with
  | integer =>
    obtain rfl : line = 'd'.toUInt8 :: rest := (List.cons.inj h).2
    rfl
  | float =>
    obtain rfl : line = 'f'.toUInt8 :: rest := (List.cons.inj h).2
    rfl
  | decimals c hc =>
    obtain rfl : line = '.'.toUInt8 :: c :: 'f'.toUInt8 :: rest := (List.cons.inj h).2
    have hdigit : runDigit (c :: 'f'.toUInt8 :: rest) = runEnd c ('f'.toUInt8 :: rest) := if_pos hc
    exact hdigit

/-- A run is a marker, or begins like one, or is cut off by the end of the line. -/
inductive RunCases (floatDecimals : ℕ) (line : Bytes) : Prop
  | marker (run : Bytes) (decimals : ℕ) (rest : Bytes) (hrun : Marker floatDecimals run decimals)
    (hline : '%'.toUInt8 :: line = run ++ rest)
    (heq : formatRun floatDecimals line = (.marker run decimals, rest))
  | other (mid : Bytes) (c : UInt8) (rest : Bytes) (hline : line = mid ++ c :: rest)
    (hmid : ∀ b ∈ mid, b ≠ '#'.toUInt8 ∧ b ≠ '%'.toUInt8) (hlen : mid.length ≤ 2)
    (heq : formatRun floatDecimals line =
      (.other ('%'.toUInt8 :: (mid ++ [c])) rest, rest))
  | cut (heq : formatRun floatDecimals line = (.cut ('%'.toUInt8 :: line), []))

theorem ne_of_isDigit {c : UInt8} (h : isDigit c = true) : c ≠ '#'.toUInt8 ∧ c ≠ '%'.toUInt8 := by
  refine ⟨?_, ?_⟩
  · rintro rfl
    exact absurd h (by decide)
  · rintro rfl
    exact absurd h (by decide)

theorem runEnd_cases {d : UInt8} (hd : isDigit d = true) (line : Bytes) :
    RunCases floatDecimals ('.'.toUInt8 :: d :: line) := by
  have heq : formatRun floatDecimals ('.'.toUInt8 :: d :: line) = runEnd d line := if_pos hd
  cases line with
  | nil => exact .cut heq
  | cons c rest =>
    by_cases hc : c = 'f'.toUInt8
    · subst hc
      exact .marker _ _ rest (.decimals d hd) rfl heq
    · have hother : runEnd d (c :: rest) =
          (.other ['%'.toUInt8, '.'.toUInt8, d, c] rest, rest) := if_neg hc
      refine .other ['.'.toUInt8, d] c rest rfl ?_ le_rfl (heq.trans hother)
      intro b hb
      rcases List.mem_cons.mp hb with rfl | hb
      · decide
      · rw [List.mem_singleton.mp hb]
        exact ne_of_isDigit hd

theorem formatRun_cases (floatDecimals : ℕ) (line : Bytes) : RunCases floatDecimals line := by
  cases line with
  | nil => exact .cut rfl
  | cons c line =>
    by_cases hd : c = 'd'.toUInt8
    · subst hd
      exact .marker _ _ line .integer rfl rfl
    · by_cases hf : c = 'f'.toUInt8
      · subst hf
        exact .marker _ _ line .float rfl rfl
      · by_cases hpoint : c = '.'.toUInt8
        · subst hpoint
          cases line with
          | nil => exact .cut rfl
          | cons c line =>
            cases hc : isDigit c with
            | true => exact runEnd_cases hc line
            | false =>
              have heq : formatRun floatDecimals ('.'.toUInt8 :: c :: line) =
                  (.other ['%'.toUInt8, '.'.toUInt8, c] line, line) := by
                rw [formatRun, if_neg (by decide), if_neg (by decide), if_pos rfl, runDigit, hc]
                rfl
              refine .other ['.'.toUInt8] c line rfl ?_ (by decide) heq
              intro b hb
              rw [List.mem_singleton.mp hb]
              decide
        · have heq : formatRun floatDecimals (c :: line) =
              (.other ['%'.toUInt8, c] line, line) := by
            rw [formatRun, if_neg hd, if_neg hf, if_neg hpoint]
          exact .other [] c line rfl (fun b hb => absurd hb List.not_mem_nil) (by decide) heq

/-- What is behind a run is the end of the line. -/
theorem suffix_formatRun (floatDecimals : ℕ) (line : Bytes) :
    (formatRun floatDecimals line).2 <:+ line := by
  cases formatRun_cases floatDecimals line with
  | marker run decimals rest hrun hline heq =>
    rw [heq]
    cases hrun with
    | integer => exact ⟨['d'.toUInt8], (List.cons.inj hline).2.symm⟩
    | float => exact ⟨['f'.toUInt8], (List.cons.inj hline).2.symm⟩
    | decimals c hc => exact ⟨['.'.toUInt8, c, 'f'.toUInt8], (List.cons.inj hline).2.symm⟩
  | other mid c rest hline hmid hlen heq =>
    rw [heq, hline]
    exact ⟨mid ++ [c], by simp⟩
  | cut heq =>
    rw [heq]
    exact List.nil_suffix

/-- The characters of a run that is not cut off. -/
theorem run_formatRun (h : (formatRun floatDecimals line).1.isCut = false) :
    '%'.toUInt8 :: line =
      (formatRun floatDecimals line).1.run ++ (formatRun floatDecimals line).2 ∧
    (formatRun floatDecimals line).1.run.length ≤ 4 := by
  cases formatRun_cases floatDecimals line with
  | marker run decimals rest hrun hline heq =>
    rw [heq]
    refine ⟨hline, ?_⟩
    cases hrun <;> simp [Segment.run]
  | other mid c rest hline hmid hlen heq =>
    rw [heq, hline]
    refine ⟨by simp [Segment.run], ?_⟩
    rw [Segment.run, List.length_cons, List.length_append, List.length_singleton]
    omega
  | cut heq =>
    rw [heq] at h
    exact absurd h (by simp [Segment.isCut])

end Runs

section Meaning

variable {floatDecimals : ℕ} {reader : ParamReader}

/-- Only a percent sign begins a marker. -/
theorem ne_append_of_ne {c : UInt8} (hc : c ≠ '%'.toUInt8) {line run rest : Bytes} {decimals : ℕ}
    (hrun : Marker floatDecimals run decimals) : c :: line ≠ run ++ rest := by
  intro h
  cases hrun <;> exact hc (List.cons.inj h).1

/-- What is kept of a line in front of what is not hidden. -/
theorem Substitutes.mid {decimals : ℕ} {rest message : Bytes} (mid : Bytes)
    (hmid : ∀ b ∈ mid, b ≠ '#'.toUInt8 ∧ b ≠ '%'.toUInt8)
    (h : Substitutes floatDecimals reader decimals rest message) :
    Substitutes floatDecimals reader decimals (mid ++ rest) (mid ++ message) := by
  induction mid with
  | nil => exact h
  | cons b mid ih =>
    have hb := hmid b List.mem_cons_self
    exact .other hb.1 (fun _ _ _ hrun => ne_append_of_ne hb.2 hrun)
      (ih fun b' hb' => hmid b' (List.mem_cons_of_mem b hb'))

theorem Marker.head {run : Bytes} {decimals : ℕ} (h : Marker floatDecimals run decimals) :
    ∃ t, run = '%'.toUInt8 :: t := by
  cases h with
  | integer => exact ⟨_, rfl⟩
  | float => exact ⟨_, rfl⟩
  | decimals c hc => exact ⟨_, rfl⟩

theorem Marker.unique {run run' rest rest' : Bytes} {decimals decimals' : ℕ}
    (h : Marker floatDecimals run decimals) (h' : Marker floatDecimals run' decimals')
    (heq : run ++ rest = run' ++ rest') : decimals = decimals' ∧ rest = rest' := by
  obtain ⟨t, ht⟩ := h.head
  have hline : '%'.toUInt8 :: (t ++ rest) = run ++ rest := by rw [ht, List.cons_append]
  have hrun := formatRun_of_marker h hline
  rw [formatRun_of_marker h' (hline.trans heq)] at hrun
  obtain ⟨hseg, hrest⟩ := Prod.mk.inj hrun
  exact ⟨(Segment.marker.inj hseg).2.symm, hrest.symm⟩

/-- There is only one message. -/
theorem Substitutes.unique {decimals : ℕ} {line message message' : Bytes}
    (h : Substitutes floatDecimals reader decimals line message)
    (h' : Substitutes floatDecimals reader decimals line message') : message = message' := by
  induction h generalizing message' with
  | nil decimals =>
    generalize hline : [] = line at h'
    cases h' with
    | nil => rfl
    | marker hrun h' =>
      obtain ⟨t, rfl⟩ := hrun.head
      exact absurd hline (by simp)
    | reference h' => exact absurd hline (by simp)
    | other hc hrun h' => exact absurd hline (by simp)
  | @marker decimals decimals' run rest message hrun h ih =>
    generalize hline : run ++ rest = line at h'
    cases h' with
    | nil =>
      obtain ⟨t, rfl⟩ := hrun.head
      exact absurd hline (by simp)
    | marker hrun' h' =>
      obtain ⟨rfl, rfl⟩ := hrun.unique hrun' hline
      exact ih h'
    | reference h' =>
      obtain ⟨t, rfl⟩ := hrun.head
      exact absurd (List.cons.inj hline).1 (by decide)
    | other hc hno h' => exact absurd hline.symm (hno _ _ _ hrun)
  | @reference decimals line message h ih =>
    generalize hline : '#'.toUInt8 :: line = line' at h'
    cases h' with
    | nil => exact absurd hline (by simp)
    | marker hrun h' =>
      obtain ⟨t, rfl⟩ := hrun.head
      exact absurd (List.cons.inj hline).1 (by decide)
    | reference h' =>
      obtain rfl := (List.cons.inj hline).2
      rw [ih h']
    | other hc hno h' => exact absurd (List.cons.inj hline).1.symm hc
  | @other decimals c line message hc hno h ih =>
    generalize hline : c :: line = line' at h'
    cases h' with
    | nil => exact absurd hline (by simp)
    | marker hrun h' => exact absurd hline (hno _ _ _ hrun)
    | reference h' => exact absurd (List.cons.inj hline).1 hc
    | other hc' hno' h' =>
      obtain ⟨rfl, rfl⟩ := List.cons.inj hline
      rw [ih h']

end Meaning

end Ngc

end Inspector
