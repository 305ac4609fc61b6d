import Inspector.Ngc.ReadParameter
import Inspector.Ngc.Segments

/-! # Messages that fit

Both passes of `ngc_substitute_parameters` see the same segments of a line, unless a marker is cut
off at its end. The message is what they stand for when no run is shorter than an earlier one that
is still in the buffer, and it fits when the markers make up for the other runs, which the first
pass leaves out.
-/

namespace Inspector

namespace Ngc

open Json (Bytes isDigit)

theorem exists_succ_of_length {c : UInt8} {line : Bytes} {n : ℕ} (h : (c :: line).length ≤ n) :
    ∃ m, n = m + 1 ∧ line.length ≤ m := by
  rw [List.length_cons] at h
  exact ⟨n - 1, by omega, by omega⟩

section Measure

variable {floatDecimals : ℕ} {reader : ParamReader} {n decimals len : ℕ} {line : Bytes}

theorem measure_format {pos : ℤ} (hpos : pos ≠ 0) (format : FormatState) (c : UInt8) :
    measure floatDecimals reader (n + 1) ⟨pos, format, len⟩ (c :: line) =
      let r := getFormat floatDecimals c pos format
      if r.1 < 0 then measure floatDecimals reader n ⟨0, r.2, len + r.1.natAbs⟩ line
      else measure floatDecimals reader n ⟨r.1, r.2, len⟩ line :=
  if_pos hpos

variable (floatDecimals reader) in
/-- From some state on, the first pass goes over a segment. -/
def MeasuresTo (n : ℕ) (s : Measure) (line : Bytes) (decimals len : ℕ) (r : Segment × Bytes) :
    Prop :=
  r.1.isCut = false → ∃ m ≥ r.2.length, ∃ d,
    measure floatDecimals reader n s line =
      measure floatDecimals reader m
        ⟨0, ⟨r.1.select decimals, d⟩, len + r.1.allotted decimals⟩ r.2

theorem measuresTo_runEnd (h : line.length ≤ n) (d : UInt8) :
    MeasuresTo floatDecimals reader n ⟨3, ⟨decimals, digitValue d⟩, len⟩ line decimals len
      (runEnd d line) := by
  cases line with
  | nil => exact fun hcut => absurd hcut (by simp [runEnd, Segment.isCut])
  | cons c line =>
    obtain ⟨n, rfl, hn⟩ := exists_succ_of_length h
    by_cases hc : c = 'f'.toUInt8
    · subst hc
      exact fun _ => ⟨n, hn, digitValue d, rfl⟩
    · have hformat : getFormat floatDecimals c 3 ⟨decimals, digitValue d⟩ =
          (0, ⟨decimals, digitValue d⟩) := by
        rw [getFormat, if_neg (by decide), if_neg (by decide), if_neg hc]
      have hend : runEnd d (c :: line) =
          (.other ['%'.toUInt8, '.'.toUInt8, d, c] line, line) := if_neg hc
      rw [hend]
      refine fun _ => ⟨n, hn, digitValue d, ?_⟩
      rw [measure_format (by decide), hformat]
      rfl

theorem measuresTo_runDigit (h : line.length ≤ n) (d : ℕ) :
    MeasuresTo floatDecimals reader n ⟨2, ⟨decimals, d⟩, len⟩ line decimals len
      (runDigit line) := by
  cases line with
  | nil => exact fun hcut => absurd hcut (by decide)
  | cons c line =>
    obtain ⟨n, rfl, hn⟩ := exists_succ_of_length h
    cases hc : isDigit c with
    | true =>
      have hformat : getFormat floatDecimals c 2 ⟨decimals, d⟩ =
          (3, ⟨decimals, digitValue c⟩) := by
        rw [getFormat, if_neg (by decide), if_pos rfl, if_pos hc]
      have hdigit : runDigit (c :: line) = runEnd c line := if_pos hc
      have hstep : measure floatDecimals reader (n + 1) ⟨2, ⟨decimals, d⟩, len⟩ (c :: line) =
          measure floatDecimals reader n ⟨3, ⟨decimals, digitValue c⟩, len⟩ line := by
        rw [measure_format (by decide), hformat]
        rfl
      rw [hdigit]
      unfold MeasuresTo
      rw [hstep]
      exact measuresTo_runEnd hn c
    | false =>
      have hneg : ¬ isDigit c = true := by simp [hc]
      have hformat : getFormat floatDecimals c 2 ⟨decimals, d⟩ = (0, ⟨decimals, d⟩) := by
        rw [getFormat, if_neg (by decide), if_pos rfl, if_neg hneg]
      have hdigit : runDigit (c :: line) = (.other ['%'.toUInt8, '.'.toUInt8, c] line, line) :=
        if_neg hneg
      rw [hdigit]
      refine fun _ => ⟨n, hn, d, ?_⟩
      rw [measure_format (by decide), hformat]
      rfl

theorem measuresTo_formatRun (h : line.length ≤ n) (d : ℕ) :
    MeasuresTo floatDecimals reader n ⟨1, ⟨decimals, d⟩, len⟩ line decimals len
      (formatRun floatDecimals line) := by
  cases line with
  | nil => exact fun hcut => absurd hcut (by simp [formatRun, Segment.isCut])
  | cons c line =>
    obtain ⟨n, rfl, hn⟩ := exists_succ_of_length h
    by_cases hd : c = 'd'.toUInt8
    · subst hd
      exact fun _ => ⟨n, hn, d, rfl⟩
    · by_cases hf : c = 'f'.toUInt8
      · subst hf
        exact fun _ => ⟨n, hn, d, rfl⟩
      · by_cases hpoint : c = '.'.toUInt8
        · subst hpoint
          exact measuresTo_runDigit hn d
        · have hformat : getFormat floatDecimals c 1 ⟨decimals, d⟩ = (0, ⟨decimals, d⟩) := by
            rw [getFormat, if_pos rfl, if_neg hd, if_neg hf, if_neg hpoint]
          have hrun : formatRun floatDecimals (c :: line) =
              (.other ['%'.toUInt8, c] line, line) := by
            rw [formatRun, if_neg hd, if_neg hf, if_neg hpoint]
          rw [hrun]
          refine fun _ => ⟨n, hn, d, ?_⟩
          rw [measure_format (by decide), hformat]
          rfl

theorem measure_percent (d : ℕ) :
    measure floatDecimals reader (n + 1) ⟨0, ⟨decimals, d⟩, len⟩ ('%'.toUInt8 :: line) =
      measure floatDecimals reader n ⟨1, ⟨decimals, d⟩, len⟩ line := rfl

theorem measure_hash (d : ℕ) :
    measure floatDecimals reader (n + 1) ⟨0, ⟨decimals, d⟩, len⟩ ('#'.toUInt8 :: line) =
      measure floatDecimals reader n
        ⟨0, ⟨decimals, d⟩, len + (shown decimals (reader.read ('#'.toUInt8 :: line)).1).length⟩
        (reader.read ('#'.toUInt8 :: line)).2 := rfl

theorem measure_plain (d : ℕ) {c : UInt8} (hpercent : c ≠ '%'.toUInt8) (hhash : c ≠ '#'.toUInt8) :
    measure floatDecimals reader (n + 1) ⟨0, ⟨decimals, d⟩, len⟩ (c :: line) =
      measure floatDecimals reader n ⟨0, ⟨decimals, d⟩, len + 1⟩ line := by
  rw [measure, if_neg (not_not.mpr rfl), if_neg hpercent, if_neg hhash]

/-- The first pass finds the length of the segments. -/
theorem measure_segments (k : ℕ) : ∀ {n : ℕ} {line : Bytes} (decimals d len : ℕ),
    line.length ≤ n → line.length ≤ k →
    (∀ s ∈ segments floatDecimals reader k line, s.isCut = false) →
    ∃ d', measure floatDecimals reader n ⟨0, ⟨decimals, d⟩, len⟩ line =
      ⟨0, ⟨lastDecimals decimals (segments floatDecimals reader k line), d'⟩,
        len + allotted decimals (segments floatDecimals reader k line)⟩ := by
  induction k with
  | zero =>
    intro n line decimals d len hn hk _
    obtain rfl : line = [] := List.length_eq_zero_iff.mp (Nat.le_zero.mp hk)
    cases n <;> exact ⟨d, rfl⟩
  | succ k ih =>
    intro n line decimals d len hn hk hcut
    cases line with
    | nil => cases n <;> exact ⟨d, rfl⟩
    | cons c line =>
      obtain ⟨n, rfl, hn'⟩ := exists_succ_of_length hn
      have hk' : line.length ≤ k := Nat.le_of_succ_le_succ hk
      rw [segments] at hcut ⊢
      by_cases hpercent : c = '%'.toUInt8
      · subst hpercent
        rw [if_pos rfl] at hcut ⊢
        obtain ⟨hfirst, hrest⟩ := List.forall_mem_cons.mp hcut
        have hto : MeasuresTo floatDecimals reader n ⟨1, ⟨decimals, d⟩, len⟩ line decimals len
          (formatRun floatDecimals line) := measuresTo_formatRun hn' d
        obtain ⟨m, hm, d', hstep⟩ := hto hfirst
        obtain ⟨d'', hlater⟩ := ih _ d' _ hm
          ((suffix_formatRun floatDecimals line).length_le.trans hk') hrest
        refine ⟨d'', ?_⟩
        rw [measure_percent, hstep, hlater, Nat.add_assoc]
        rfl
      · rw [if_neg hpercent] at hcut ⊢
        by_cases hhash : c = '#'.toUInt8
        · subst hhash
          rw [if_pos rfl] at hcut ⊢
          have hsuffix := (reader.suffix line).length_le
          obtain ⟨d', hlater⟩ := ih decimals d _ (hsuffix.trans hn') (hsuffix.trans hk')
            (List.forall_mem_cons.mp hcut).2
          refine ⟨d', ?_⟩
          rw [measure_hash, hlater, Nat.add_assoc]
          rfl
        · rw [if_neg hhash] at hcut ⊢
          obtain ⟨d', hlater⟩ := ih decimals d (len + 1) hn' hk' (List.forall_mem_cons.mp hcut).2
          refine ⟨d', ?_⟩
          rw [measure_plain d hpercent hhash, hlater, Nat.add_assoc]
          rfl

end Measure

/-- A buffer of five characters. -/
def buffer (chars : Bytes) : Bytes := chars ++ List.replicate (5 - chars.length) 0

theorem set_buffer {pre chars : Bytes} (hpre : pre.length < 5) (hchars : chars.length ≤ 5)
    (c : UInt8) :
    (buffer (pre ++ chars.drop pre.length)).set pre.length c =
      buffer (pre ++ [c] ++ chars.drop (pre.length + 1)) := by
  have hlen : 5 - (pre ++ [c] ++ chars.drop (pre.length + 1)).length =
      4 - pre.length - (chars.length - (pre.length + 1)) := by
    rw [List.length_append, List.length_append, List.length_drop, List.length_singleton]
    omega
  have hlen' : 5 - (pre ++ chars.drop pre.length).length =
      5 - pre.length - (chars.length - pre.length) := by
    rw [List.length_append, List.length_drop]
    omega
  rw [buffer, buffer, hlen, hlen', List.append_assoc, List.append_assoc, List.append_assoc,
    List.set_append_right _ _ le_rfl, Nat.sub_self]
  congr 1
  by_cases hshort : pre.length < chars.length
  · rw [List.drop_eq_getElem_cons hshort]
    have hzeros : 5 - pre.length - (chars.length - pre.length) =
        4 - pre.length - (chars.length - (pre.length + 1)) := by omega
    rw [hzeros]
    rfl
  · have hnil : chars.drop pre.length = [] := List.drop_eq_nil_of_le (not_lt.mp hshort)
    have hnil' : chars.drop (pre.length + 1) = [] := List.drop_eq_nil_of_le (by omega)
    have hone : 5 - pre.length - (chars.length - pre.length) = (4 - pre.length) + 1 := by omega
    have hzeros : 4 - pre.length - (chars.length - (pre.length + 1)) = 4 - pre.length := by omega
    rw [hnil, hnil', hone, hzeros, List.replicate_succ]
    rfl

theorem takeWhile_buffer {chars : Bytes} (h : (0 : UInt8) ∉ chars) :
    (buffer chars).takeWhile (· ≠ 0) = chars := by
  have hchars : ∀ c ∈ chars, decide (c ≠ 0) = true := fun c hc =>
    decide_eq_true fun h0 => h (h0 ▸ hc)
  have hzeros : (List.replicate (5 - chars.length) (0 : UInt8)).takeWhile (· ≠ 0) = [] := by
    cases 5 - chars.length <;> rfl
  rw [buffer, List.takeWhile_append_of_pos hchars, hzeros, List.append_nil]

section Write

variable {floatDecimals : ℕ} {reader : ParamReader} {n decimals : ℕ} {line : Bytes}
variable {chars message : Bytes}

theorem write_format {pos : ℤ} (hpos : pos ≠ 0) (format : FormatState) (fmt : Bytes) (c : UInt8) :
    write floatDecimals reader (n + 1) ⟨pos, format, fmt, message⟩ (c :: line) =
      let fmt := fmt.set pos.toNat c
      let r := getFormat floatDecimals c pos format
      if r.1 < 0 then write floatDecimals reader n ⟨0, r.2, fmt, message⟩ line
      else if r.1 = 0 then
        write floatDecimals reader n ⟨0, r.2, fmt, message ++ fmt.takeWhile (· ≠ 0)⟩ line
      else write floatDecimals reader n ⟨r.1, r.2, fmt, message⟩ line :=
  if_pos hpos

variable (floatDecimals reader chars message) in
/-- From some state on, the second pass goes over a segment. -/
def WritesTo (n : ℕ) (s : Message) (line : Bytes) (decimals : ℕ) (r : Segment × Bytes) : Prop :=
  r.1.isCut = false → ∃ m ≥ r.2.length, ∃ d,
    write floatDecimals reader n s line =
      write floatDecimals reader m
        ⟨0, ⟨r.1.select decimals, d⟩, buffer (r.1.buffered chars),
          message ++ r.1.written decimals chars⟩ r.2

/-- A run that is no marker is copied out of the buffer. -/
theorem writesTo_other {pos : ℤ} {pre rest : Bytes} {c : UInt8} {format : FormatState}
    (hn : line.length ≤ n) (hpos : pos = pre.length) (hpre : 0 < pre.length)
    (hlen : pre.length < 5) (hchars : chars.length ≤ 5) (hzero : (0 : UInt8) ∉ pre ++ c :: chars)
    (hdecimals : format.decimals = decimals)
    (hformat : getFormat floatDecimals c pos format = (0, format)) :
    WritesTo floatDecimals reader chars message (n + 1)
      ⟨pos, format, buffer (pre ++ chars.drop pre.length), message⟩ (c :: line) decimals
      (.other (pre ++ [c]) rest, line) := by
  have hne : pos ≠ 0 := by omega
  have hnat : pos.toNat = pre.length := by omega
  have hnonzero : (0 : UInt8) ∉ pre ++ [c] ++ chars.drop (pre.length + 1) := by
    intro h
    apply hzero
    rw [List.append_assoc, List.singleton_append] at h
    rcases List.mem_append.mp h with h | h
    · exact List.mem_append_left _ h
    · rcases List.mem_cons.mp h with h | h
      · exact List.mem_append_right _ (h ▸ List.mem_cons_self)
      · exact List.mem_append_right _ (List.mem_cons_of_mem c (List.mem_of_mem_drop h))
  have hbuffered : (Segment.other (pre ++ [c]) rest).buffered chars =
      pre ++ [c] ++ chars.drop (pre.length + 1) := by
    rw [Segment.buffered, Segment.run, List.length_append, List.length_singleton]
  refine fun _ => ⟨n, hn, format.d, ?_⟩
  rw [write_format hne, hformat, hnat, set_buffer hlen hchars, Segment.written, hbuffered]
  simp only [lt_self_iff_false, if_false, if_true]
  rw [takeWhile_buffer hnonzero]
  simp only [Segment.select, ← hdecimals]

/-- The end of a marker. -/
theorem writesTo_marker {pos : ℤ} {pre : Bytes} {c : UInt8} {format : FormatState}
    (format' : FormatState) {k : ℤ} (hn : line.length ≤ n) (hpos : pos = pre.length)
    (hpre : 0 < pre.length) (hlen : pre.length < 5) (hchars : chars.length ≤ 5) (hk : k < 0)
    (hformat : getFormat floatDecimals c pos format = (k, format')) :
    WritesTo floatDecimals reader chars message (n + 1)
      ⟨pos, format, buffer (pre ++ chars.drop pre.length), message⟩ (c :: line) decimals
      (.marker (pre ++ [c]) format'.decimals, line) := by
  have hne : pos ≠ 0 := by omega
  have hnat : pos.toNat = pre.length := by omega
  have hbuffered : (Segment.marker (pre ++ [c]) format'.decimals).buffered chars =
      pre ++ [c] ++ chars.drop (pre.length + 1) := by
    rw [Segment.buffered, Segment.run, List.length_append, List.length_singleton]
  refine fun _ => ⟨n, hn, format'.d, ?_⟩
  rw [write_format hne, hformat, hnat, set_buffer hlen hchars, hbuffered]
  simp only [if_pos hk, Segment.select, Segment.written, List.append_nil]

/-- A character in the middle of a run. -/
theorem WritesTo.more {pos pos' : ℤ} (pre : Bytes) {c : UInt8} {format format' : FormatState}
    {r : Segment × Bytes} (hpos : pos = pre.length) (hpre : 0 < pre.length) (hlen : pre.length < 5)
    (hchars : chars.length ≤ 5) (hpos' : 0 < pos')
    (hformat : getFormat floatDecimals c pos format = (pos', format'))
    (h : WritesTo floatDecimals reader chars message n
      ⟨pos', format', buffer (pre ++ [c] ++ chars.drop (pre.length + 1)), message⟩ line decimals
      r) :
    WritesTo floatDecimals reader chars message (n + 1)
      ⟨pos, format, buffer (pre ++ chars.drop pre.length), message⟩ (c :: line) decimals r := by
  have hne : pos ≠ 0 := by omega
  have hnat : pos.toNat = pre.length := by omega
  intro hcut
  obtain ⟨m, hm, d, hstep⟩ := h hcut
  refine ⟨m, hm, d, ?_⟩
  rw [write_format hne, hformat, hnat, set_buffer hlen hchars]
  simp only [not_lt.mpr hpos'.le, hpos'.ne', if_false]
  exact hstep

theorem zero_not_mem {pre : Bytes} {c : UInt8} (hpre : (0 : UInt8) ∉ pre)
    (h : (0 : UInt8) ∉ (c :: line) ++ chars) : (0 : UInt8) ∉ pre ++ c :: chars := by
  simp only [List.mem_append, List.mem_cons, not_or] at h ⊢
  exact ⟨hpre, h.1.1, h.2⟩

theorem zero_not_mem_digit {d : UInt8} (hd : isDigit d = true) :
    (0 : UInt8) ∉ ['%'.toUInt8, '.'.toUInt8, d] := by
  have hne : (0 : UInt8) ≠ d := by
    rintro rfl
    exact absurd hd (by decide)
  intro h
  rcases List.mem_cons.mp h with h | h
  · exact absurd h (by decide)
  · rcases List.mem_cons.mp h with h | h
    · exact absurd h (by decide)
    · exact hne (List.mem_singleton.mp h)

theorem writesTo_runEnd (h : line.length ≤ n) (hchars : chars.length ≤ 5) {d : UInt8}
    (hd : isDigit d = true) (hzero : (0 : UInt8) ∉ line ++ chars) :
    WritesTo floatDecimals reader chars message n
      ⟨3, ⟨decimals, digitValue d⟩,
        buffer (['%'.toUInt8, '.'.toUInt8, d] ++ chars.drop 3), message⟩ line decimals
      (runEnd d line) := by
  cases line with
  | nil => exact fun hcut => absurd hcut (by simp [runEnd, Segment.isCut])
  | cons c line =>
    obtain ⟨n, rfl, hn⟩ := exists_succ_of_length h
    by_cases hc : c = 'f'.toUInt8
    · subst hc
      exact writesTo_marker ⟨digitValue d, digitValue d⟩ hn rfl (by simp) (by simp)
        hchars (by decide) rfl
    · have hformat : getFormat floatDecimals c 3 ⟨decimals, digitValue d⟩ =
          (0, ⟨decimals, digitValue d⟩) := by
        rw [getFormat, if_neg (by decide), if_neg (by decide), if_neg hc]
      have hend : runEnd d (c :: line) =
          (.other ['%'.toUInt8, '.'.toUInt8, d, c] line, line) := if_neg hc
      rw [hend]
      exact writesTo_other hn rfl (by simp) (by simp) hchars
        (zero_not_mem (zero_not_mem_digit hd) hzero) rfl hformat

theorem writesTo_runDigit (h : line.length ≤ n) (hchars : chars.length ≤ 5) (d : ℕ)
    (hzero : (0 : UInt8) ∉ line ++ chars) :
    WritesTo floatDecimals reader chars message n
      ⟨2, ⟨decimals, d⟩, buffer (['%'.toUInt8, '.'.toUInt8] ++ chars.drop 2), message⟩ line decimals
      (runDigit line) := by
  cases line with
  | nil => exact fun hcut => absurd hcut (by decide)
  | cons c line =>
    obtain ⟨n, rfl, hn⟩ := exists_succ_of_length h
    cases hc : isDigit c with
    | true =>
      have hformat : getFormat floatDecimals c 2 ⟨decimals, d⟩ =
          (3, ⟨decimals, digitValue c⟩) := by
        rw [getFormat, if_neg (by decide), if_pos rfl, if_pos hc]
      have hdigit : runDigit (c :: line) = runEnd c line := if_pos hc
      rw [hdigit]
      exact .more ['%'.toUInt8, '.'.toUInt8] rfl (by decide) (by decide) hchars (by decide) hformat
        (writesTo_runEnd hn hchars hc fun h0 => hzero (List.mem_cons_of_mem c h0))
    | false =>
      have hneg : ¬ isDigit c = true := by simp [hc]
      have hformat : getFormat floatDecimals c 2 ⟨decimals, d⟩ = (0, ⟨decimals, d⟩) := by
        rw [getFormat, if_neg (by decide), if_pos rfl, if_neg hneg]
      have hdigit : runDigit (c :: line) = (.other ['%'.toUInt8, '.'.toUInt8, c] line, line) :=
        if_neg hneg
      rw [hdigit]
      exact writesTo_other hn rfl (by decide) (by decide) hchars
        (zero_not_mem (by decide) hzero) rfl hformat

theorem writesTo_formatRun (h : line.length ≤ n) (hchars : chars.length ≤ 5) (d : ℕ)
    (hzero : (0 : UInt8) ∉ line ++ chars) :
    WritesTo floatDecimals reader chars message n
      ⟨1, ⟨decimals, d⟩, buffer (['%'.toUInt8] ++ chars.drop 1), message⟩ line decimals
      (formatRun floatDecimals line) := by
  cases line with
  | nil => exact fun hcut => absurd hcut (by simp [formatRun, Segment.isCut])
  | cons c line =>
    obtain ⟨n, rfl, hn⟩ := exists_succ_of_length h
    by_cases hd : c = 'd'.toUInt8
    · subst hd
      exact writesTo_marker ⟨0, d⟩ hn rfl (by decide) (by decide) hchars
        (by decide) rfl
    · by_cases hf : c = 'f'.toUInt8
      · subst hf
        exact writesTo_marker ⟨floatDecimals, d⟩ hn rfl (by decide) (by decide) hchars
          (by decide) rfl
      · by_cases hpoint : c = '.'.toUInt8
        · subst hpoint
          have hformat : getFormat floatDecimals '.'.toUInt8 1 ⟨decimals, d⟩ =
              (2, ⟨decimals, d⟩) := rfl
          exact .more ['%'.toUInt8] rfl (by decide) (by decide) hchars (by decide) hformat
            (writesTo_runDigit hn hchars d fun h0 => hzero (List.mem_cons_of_mem _ h0))
        · have hformat : getFormat floatDecimals c 1 ⟨decimals, d⟩ = (0, ⟨decimals, d⟩) := by
            rw [getFormat, if_pos rfl, if_neg hd, if_neg hf, if_neg hpoint]
          have hrun : formatRun floatDecimals (c :: line) =
              (.other ['%'.toUInt8, c] line, line) := by
            rw [formatRun, if_neg hd, if_neg hf, if_neg hpoint]
          rw [hrun]
          exact writesTo_other hn rfl (by decide) (by decide) hchars
            (zero_not_mem (by decide) hzero) rfl hformat

theorem write_percent (hchars : chars.length ≤ 5) (format : FormatState) :
    write floatDecimals reader (n + 1) ⟨0, format, buffer chars, message⟩ ('%'.toUInt8 :: line) =
      write floatDecimals reader n
        ⟨1, format, buffer (['%'.toUInt8] ++ chars.drop 1), message⟩ line := by
  have hset : (buffer chars).set 0 '%'.toUInt8 = buffer (['%'.toUInt8] ++ chars.drop 1) :=
    set_buffer (by decide : ([] : Bytes).length < 5) hchars _
  rw [← hset]
  rfl

theorem write_hash (format : FormatState) (fmt : Bytes) :
    write floatDecimals reader (n + 1) ⟨0, format, fmt, message⟩ ('#'.toUInt8 :: line) =
      write floatDecimals reader n
        ⟨0, format, fmt,
          message ++ shown format.decimals (reader.read ('#'.toUInt8 :: line)).1⟩
        (reader.read ('#'.toUInt8 :: line)).2 := rfl

theorem write_plain (format : FormatState) (fmt : Bytes) {c : UInt8} (hpercent : c ≠ '%'.toUInt8)
    (hhash : c ≠ '#'.toUInt8) :
    write floatDecimals reader (n + 1) ⟨0, format, fmt, message⟩ (c :: line) =
      write floatDecimals reader n ⟨0, format, fmt, message ++ [c]⟩ line := by
  rw [write, if_neg (not_not.mpr rfl), if_neg hpercent, if_neg hhash]

theorem length_buffered (s : Segment) :
    (s.buffered chars).length = max s.run.length chars.length := by
  rw [Segment.buffered, List.length_append, List.length_drop]
  omega

theorem zero_not_mem_buffered {s : Segment} (hrun : (0 : UInt8) ∉ s.run)
    (hchars : (0 : UInt8) ∉ chars) : (0 : UInt8) ∉ s.buffered chars := by
  intro h
  rcases List.mem_append.mp h with h | h
  · exact hrun h
  · exact hchars (List.mem_of_mem_drop h)

/-- The second pass writes what the segments give. -/
theorem write_segments (k : ℕ) : ∀ {n : ℕ} {line chars : Bytes} (decimals d : ℕ) (message : Bytes),
    line.length ≤ n → line.length ≤ k → chars.length ≤ 4 → (0 : UInt8) ∉ line →
    (0 : UInt8) ∉ chars → (∀ s ∈ segments floatDecimals reader k line, s.isCut = false) →
    (write floatDecimals reader n ⟨0, ⟨decimals, d⟩, buffer chars, message⟩ line).message =
      message ++ written decimals chars (segments floatDecimals reader k line) := by
  induction k with
  | zero =>
    intro n line chars decimals d message hn hk _ _ _ _
    obtain rfl : line = [] := List.length_eq_zero_iff.mp (Nat.le_zero.mp hk)
    cases n <;> exact (List.append_nil message).symm
  | succ k ih =>
    intro n line chars decimals d message hn hk hchars hzero hzero' hcut
    cases line with
    | nil => cases n <;> exact (List.append_nil message).symm
    | cons c line =>
      obtain ⟨n, rfl, hn'⟩ := exists_succ_of_length hn
      have hk' : line.length ≤ k := Nat.le_of_succ_le_succ hk
      have hline : (0 : UInt8) ∉ line := fun h => hzero (List.mem_cons_of_mem c h)
      have hfive : chars.length ≤ 5 := hchars.trans (by decide)
      rw [segments] at hcut ⊢
      by_cases hpercent : c = '%'.toUInt8
      · subst hpercent
        rw [if_pos rfl] at hcut ⊢
        obtain ⟨hfirst, hrest⟩ := List.forall_mem_cons.mp hcut
        obtain ⟨hrun, hlen⟩ := run_formatRun hfirst
        have hsuffix := suffix_formatRun floatDecimals line
        have hto : WritesTo floatDecimals reader chars message n
            ⟨1, ⟨decimals, d⟩, buffer (['%'.toUInt8] ++ chars.drop 1), message⟩ line decimals
            (formatRun floatDecimals line) := by
          refine writesTo_formatRun hn' hfive d fun h => ?_
          rcases List.mem_append.mp h with h | h
          · exact hline h
          · exact hzero' h
        obtain ⟨m, hm, d', hstep⟩ := hto hfirst
        have hnonzero : (0 : UInt8) ∉ (formatRun floatDecimals line).1.run := fun h =>
          hzero (hrun ▸ List.mem_append_left _ h)
        rw [write_percent hfive, hstep, ih _ d' _ hm (hsuffix.length_le.trans hk') ?_
          (fun h => hline (hsuffix.subset h)) (zero_not_mem_buffered hnonzero hzero') hrest,
          List.append_assoc]
        · rfl
        · rw [length_buffered]
          exact max_le hlen hchars
      · rw [if_neg hpercent] at hcut ⊢
        by_cases hhash : c = '#'.toUInt8
        · subst hhash
          rw [if_pos rfl] at hcut ⊢
          have hsuffix := reader.suffix line
          rw [write_hash, ih decimals d _ (hsuffix.length_le.trans hn')
            (hsuffix.length_le.trans hk') hchars (fun h => hline (hsuffix.subset h)) hzero'
            (List.forall_mem_cons.mp hcut).2, List.append_assoc]
          rfl
        · rw [if_neg hhash] at hcut ⊢
          rw [write_plain _ _ hpercent hhash, ih decimals d _ hn' hk' hchars hline hzero'
            (List.forall_mem_cons.mp hcut).2, List.append_assoc]
          rfl

end Write

section Meaning

variable {floatDecimals : ℕ} {reader : ParamReader}

/-- The message is what the segments stand for, unless a run hides a reference or a marker. -/
theorem substitutes_meaning (k : ℕ) : ∀ {line : Bytes} (decimals : ℕ), line.length ≤ k →
    (∀ s ∈ segments floatDecimals reader k line, s.isCut = false) →
    (∀ s ∈ segments floatDecimals reader k line, ¬ s.Hides floatDecimals) →
    Substitutes floatDecimals reader decimals line
      (meaning decimals (segments floatDecimals reader k line)) := by
  induction k with
  | zero =>
    intro line decimals hk _ _
    obtain rfl : line = [] := List.length_eq_zero_iff.mp (Nat.le_zero.mp hk)
    exact .nil decimals
  | succ k ih =>
    intro line decimals hk hcut hhides
    cases line with
    | nil => exact .nil decimals
    | cons c line =>
      have hk' : line.length ≤ k := Nat.le_of_succ_le_succ hk
      rw [segments] at hcut hhides ⊢
      by_cases hpercent : c = '%'.toUInt8
      · subst hpercent
        rw [if_pos rfl] at hcut hhides ⊢
        obtain ⟨hfirst, hrest⟩ := List.forall_mem_cons.mp hcut
        obtain ⟨hshown, hshown'⟩ := List.forall_mem_cons.mp hhides
        have hlater : ∀ decimals, Substitutes floatDecimals reader decimals
            (formatRun floatDecimals line).2
            (meaning decimals (segments floatDecimals reader k (formatRun floatDecimals line).2)) :=
          fun decimals => ih decimals
            ((suffix_formatRun floatDecimals line).length_le.trans hk') hrest hshown'
        cases formatRun_cases floatDecimals line with
        | marker run decimals' rest hrun hline heq =>
          rw [heq] at hlater ⊢
          rw [hline]
          exact .marker hrun (hlater decimals')
        | other mid c rest hline hmid hlen heq =>
          rw [heq] at hlater hshown ⊢
          have hlast : ('%'.toUInt8 :: (mid ++ [c])).getLast? = some c := by
            rw [List.getLast?_cons, List.getLast?_concat]
            rfl
          obtain ⟨hhash, hpercent⟩ := not_or.mp hshown
          rw [hlast] at hhash hpercent
          have htail : Substitutes floatDecimals reader decimals (c :: rest)
              (c :: meaning decimals (segments floatDecimals reader k rest)) := by
            refine .other (fun h => hhash (congrArg some h)) (fun run d' rest' hrun h => ?_)
              (hlater decimals)
            by_cases hc : c = '%'.toUInt8
            · rw [hc] at h
              refine hpercent ⟨congrArg some hc, ?_⟩
              rw [formatRun_of_marker hrun h]
              rfl
            · exact ne_append_of_ne hc hrun h
          have hall : meaning decimals (.other ('%'.toUInt8 :: (mid ++ [c])) rest ::
              segments floatDecimals reader k rest) = '%'.toUInt8 ::
                (mid ++ c :: meaning decimals (segments floatDecimals reader k rest)) := by
            simp [meaning, Segment.meaning, Segment.select]
          rw [hall, hline]
          refine .other (by decide) (fun run d' rest' hrun h => ?_) (htail.mid mid hmid)
          rw [← hline] at h
          rw [formatRun_of_marker hrun h] at heq
          exact absurd (Prod.mk.inj heq).1 (by simp)
        | cut heq =>
          rw [heq] at hfirst
          exact absurd hfirst (by simp [Segment.isCut])
      · rw [if_neg hpercent] at hcut hhides ⊢
        by_cases hhash : c = '#'.toUInt8
        · subst hhash
          rw [if_pos rfl] at hcut hhides ⊢
          exact .reference (ih decimals ((reader.suffix line).length_le.trans hk')
            (List.forall_mem_cons.mp hcut).2 (List.forall_mem_cons.mp hhides).2)
        · rw [if_neg hhash] at hcut hhides ⊢
          exact .other hhash (fun run d' rest' hrun => ne_append_of_ne hpercent hrun)
            (ih decimals hk' (List.forall_mem_cons.mp hcut).2 (List.forall_mem_cons.mp hhides).2)

end Meaning

/-- The number of characters in some runs. -/
def runLength (p : Segment → Bool) (segments : List Segment) : ℕ :=
  ((segments.filter p).map fun s => s.run.length).sum

theorem runLength_cons (p : Segment → Bool) (s : Segment) (segments : List Segment) :
    runLength p (s :: segments) = (if p s then s.run.length else 0) + runLength p segments := by
  rw [runLength, List.filter_cons]
  split_ifs
  · rfl
  · rw [Nat.zero_add]
    rfl

/-- The first pass counts the markers, and leaves out the runs that are none. -/
theorem allotted_eq {segments : List Segment} (hcut : ∀ s ∈ segments, s.isCut = false)
    (decimals : ℕ) :
    allotted decimals segments + runLength Segment.isOther segments =
      (meaning decimals segments).length + runLength Segment.isMarker segments := by
  induction segments generalizing decimals with
  | nil => rfl
  | cons s segments ih =>
    obtain ⟨hs, hrest⟩ := List.forall_mem_cons.mp hcut
    have hlater := ih hrest (s.select decimals)
    have hfirst : s.allotted decimals + (if s.isOther then s.run.length else 0) =
        (s.meaning decimals).length + if s.isMarker then s.run.length else 0 := by
      cases s with
      | plain c => rfl
      | reference value => rfl
      | marker run d => simp [Segment.allotted, Segment.isOther, Segment.isMarker, Segment.meaning,
          Segment.run]
      | other run rest => simp [Segment.allotted, Segment.isOther, Segment.isMarker,
          Segment.meaning, Segment.run]
      | cut run => exact absurd hs (by simp [Segment.isCut])
    rw [allotted, meaning, List.length_append, runLength_cons, runLength_cons]
    omega

/-- What is written of a segment is at least as long as what it stands for. -/
theorem length_meaning_le {segments : List Segment} (hcut : ∀ s ∈ segments, s.isCut = false)
    (decimals : ℕ) (chars : Bytes) :
    (meaning decimals segments).length ≤ (written decimals chars segments).length := by
  induction segments generalizing decimals chars with
  | nil => exact le_rfl
  | cons s segments ih =>
    obtain ⟨hs, hrest⟩ := List.forall_mem_cons.mp hcut
    have hfirst : (s.meaning decimals).length ≤ (s.written decimals chars).length := by
      cases s with
      | plain c => exact le_rfl
      | reference value => exact le_rfl
      | marker run d => exact le_rfl
      | other run rest =>
        rw [Segment.written, length_buffered]
        exact le_max_left _ _
      | cut run => exact absurd hs (by simp [Segment.isCut])
    rw [meaning, written, List.length_append, List.length_append]
    exact Nat.add_le_add hfirst (ih hrest _ _)

/-- A run that is no marker is at least as long as the ones in front of it. -/
def NotShorter (a b : Segment) : Prop := b.isOther = true → a.run.length ≤ b.run.length

/-- The message is what the segments stand for when nothing of an earlier run is left in the
buffer. -/
theorem written_eq_meaning_iff {segments : List Segment} (hcut : ∀ s ∈ segments, s.isCut = false)
    (decimals : ℕ) (chars : Bytes) :
    written decimals chars segments = meaning decimals segments ↔
      (∀ s ∈ segments, s.isOther = true → chars.length ≤ s.run.length) ∧
        segments.Pairwise NotShorter := by
  induction segments generalizing decimals chars with
  | nil => simp [written, meaning]
  | cons s segments ih =>
    obtain ⟨hs, hrest⟩ := List.forall_mem_cons.mp hcut
    have hlater := ih hrest (s.select decimals) (s.buffered chars)
    have hmax : (∀ b ∈ segments, b.isOther = true → (s.buffered chars).length ≤ b.run.length) ↔
        (∀ b ∈ segments, b.isOther = true → chars.length ≤ b.run.length) ∧
          ∀ b ∈ segments, NotShorter s b := by
      rw [length_buffered]
      constructor
      · intro h
        exact ⟨fun b hb ho => (le_max_right _ _).trans (h b hb ho),
          fun b hb ho => (le_max_left _ _).trans (h b hb ho)⟩
      · rintro ⟨hchars, hrun⟩ b hb ho
        exact max_le (hrun b hb ho) (hchars b hb ho)
    rw [written, meaning, List.forall_mem_cons, List.pairwise_cons]
    by_cases hok : s.isOther = true → chars.length ≤ s.run.length
    · have hsame : s.written decimals chars = s.meaning decimals := by
        cases s with
        | plain c => rfl
        | reference value => rfl
        | marker run d => rfl
        | other run rest =>
          rw [Segment.written, Segment.buffered, List.drop_eq_nil_of_le (hok rfl),
            List.append_nil]
          rfl
        | cut run => exact absurd hs (by simp [Segment.isCut])
      rw [hsame, List.append_right_inj, hlater, hmax]
      tauto
    · refine iff_of_false (fun heq => ?_) fun h => hok h.1.1
      obtain ⟨hother, hlt⟩ := Classical.not_imp.mp hok
      have hlen := congrArg List.length heq
      have hle := length_meaning_le hrest (s.select decimals) (s.buffered chars)
      have hwritten : (s.written decimals chars).length = chars.length ∧
          (s.meaning decimals).length = s.run.length := by
        cases s with
        | other run rest =>
          rw [Segment.written, length_buffered]
          exact ⟨max_eq_right (not_le.mp hlt).le, rfl⟩
        | plain c => exact absurd hother (by simp [Segment.isOther])
        | reference value => exact absurd hother (by simp [Segment.isOther])
        | marker run d => exact absurd hother (by simp [Segment.isOther])
        | cut run => exact absurd hother (by simp [Segment.isOther])
      rw [List.length_append, List.length_append] at hlen
      omega

theorem written_nil_eq_meaning_iff {segments : List Segment}
    (hcut : ∀ s ∈ segments, s.isCut = false) (decimals : ℕ) :
    written decimals [] segments = meaning decimals segments ↔ segments.Pairwise NotShorter :=
  (written_eq_meaning_iff hcut decimals []).trans (and_iff_right fun _ _ _ => Nat.zero_le _)

/-- In front of the first marker, only the format of the references matters. -/
theorem meaning_congr {segments : List Segment} {decimals decimals' : ℕ}
    (h : ∀ s ∈ segments.takeWhile fun s => !s.isMarker, s.meaning decimals = s.meaning decimals') :
    meaning decimals segments = meaning decimals' segments := by
  induction segments with
  | nil => rfl
  | cons s segments ih =>
    cases hmarker : s.isMarker with
    | true =>
      cases s with
      | marker run d => rfl
      | plain c => exact absurd hmarker (by simp [Segment.isMarker])
      | reference value => exact absurd hmarker (by simp [Segment.isMarker])
      | other run rest => exact absurd hmarker (by simp [Segment.isMarker])
      | cut run => exact absurd hmarker (by simp [Segment.isMarker])
    | false =>
      have hkeep : (!s.isMarker) = true := by
        rw [hmarker]
        rfl
      have htake : (s :: segments).takeWhile (fun s => !s.isMarker) =
          s :: segments.takeWhile fun s => !s.isMarker := List.takeWhile_cons_of_pos hkeep
      rw [htake] at h
      obtain ⟨hfirst, hrest⟩ := List.forall_mem_cons.mp h
      have hselect : ∀ decimals, s.select decimals = decimals := by
        cases s with
        | marker run d => exact absurd hmarker (by simp [Segment.isMarker])
        | plain c => exact fun _ => rfl
        | reference value => exact fun _ => rfl
        | other run rest => exact fun _ => rfl
        | cut run => exact fun _ => rfl
      rw [meaning, meaning, hselect, hselect, hfirst, ih hrest]

section Correct

variable (floatDecimals : ℕ) (reader : ParamReader)

/-- The segments of a string. -/
def lineSegments (line : Bytes) : List Segment :=
  segments floatDecimals reader (trimmed line).length (trimmed line)

/-- The message fits in what is allocated, and is the line with its references replaced and its
markers removed. -/
def Correct (line : Bytes) (r : ℕ × Bytes) : Prop :=
  r.2.length + 1 ≤ r.1 + 1 ∧ Substitutes floatDecimals reader floatDecimals (trimmed line) r.2

/-- The references in front of the first marker are the same in the format of the last one. -/
def SameInFront (segments : List Segment) : Prop :=
  ∀ s ∈ segments.takeWhile fun s => !s.isMarker,
    s.meaning (lastDecimals floatDecimals segments) = s.meaning floatDecimals

theorem zero_not_mem_trimmed (line : Bytes) : (0 : UInt8) ∉ trimmed line := by
  intro h
  have hkept := List.mem_takeWhile_imp ((List.dropWhile_suffix _).subset h)
  exact of_decide_eq_true hkept rfl

/-- Where no marker is cut off or hidden, and the references in front of the first marker are the
same in the format of the last one, the message is right exactly when no run that is no marker is
shorter than an earlier one, and the markers are at least as long as the other runs. -/
theorem correct_iff (d : ℕ) (line : Bytes)
    (hcut : ∀ s ∈ lineSegments floatDecimals reader line, s.isCut = false)
    (hhides : ∀ s ∈ lineSegments floatDecimals reader line, ¬ s.Hides floatDecimals)
    (hfront : SameInFront floatDecimals (lineSegments floatDecimals reader line)) :
    Correct floatDecimals reader line (ngcSubstituteParameters floatDecimals reader d line) ↔
      (lineSegments floatDecimals reader line).Pairwise NotShorter ∧
        runLength Segment.isOther (lineSegments floatDecimals reader line) ≤
          runLength Segment.isMarker (lineSegments floatDecimals reader line) := by
  have hsubstitutes := substitutes_meaning _ floatDecimals le_rfl hcut hhides
  obtain ⟨d', hmeasure⟩ := measure_segments _ floatDecimals d 0 le_rfl le_rfl hcut
  have hwrite := write_segments _ (lastDecimals floatDecimals
    (lineSegments floatDecimals reader line)) d' [] le_rfl le_rfl
    (List.length_nil.trans_le (Nat.zero_le 4)) (zero_not_mem_trimmed line) List.not_mem_nil hcut
  have hresult : ngcSubstituteParameters floatDecimals reader d line =
      (allotted floatDecimals (lineSegments floatDecimals reader line),
        written (lastDecimals floatDecimals (lineSegments floatDecimals reader line)) []
          (lineSegments floatDecimals reader line)) := by
    rw [ngcSubstituteParameters, hmeasure, Nat.zero_add]
    exact congrArg (Prod.mk _) hwrite
  have hwritten := written_nil_eq_meaning_iff hcut
    (lastDecimals floatDecimals (lineSegments floatDecimals reader line))
  rw [meaning_congr hfront] at hwritten
  have hmessage : Substitutes floatDecimals reader floatDecimals (trimmed line)
      (written (lastDecimals floatDecimals (lineSegments floatDecimals reader line)) []
        (lineSegments floatDecimals reader line)) ↔
      (lineSegments floatDecimals reader line).Pairwise NotShorter := by
    rw [← hwritten]
    exact ⟨fun h => h.unique hsubstitutes, fun h => h ▸ hsubstitutes⟩
  have hbalance := allotted_eq hcut floatDecimals
  rw [hresult, Correct, hmessage, and_comm]
  refine and_congr_right fun hpairwise => ?_
  rw [hwritten.mpr hpairwise]
  simp only [lineSegments] at hbalance ⊢
  omega

end Correct

section Example

/-- Rational numbers, with the operations that reading a number needs. -/
def rationalOps : FloatOps ℚ where
  lit x := x
  ofInt n := n
  toInt x := ⌊x⌋
  toUint x := ⌊x⌋.toNat
  add x y := x + y
  sub x y := x - y
  mul x y := x * y
  div x y := x / y
  fmod _ _ := 0
  pow _ _ := 0
  atan2 _ _ := 0
  neg x := -x
  fabs x := |x|
  floor x := ⌊x⌋
  ceil x := ⌈x⌉
  acos _ := 0
  asin _ := 0
  cos _ := 0
  exp _ := 0
  log _ := 0
  sin _ := 0
  sqrt _ := 0
  tan _ := 0
  lt x y := x < y
  le x y := x ≤ y
  eq x y := x = y
  invalid _ := false
  invalid_neg _ := rfl

/-- A store with five in its first parameter. -/
def fiveStore : Store ℚ where
  namedParamGet _ := none
  namedParamExists _ := false
  paramGet id := if id = 1 then some 5 else none
  paramExists id := id = 1
  setting _ := none

/-- `%d#1 mm`. -/
def markedLine : Bytes := ['%', 'd', '#', '1', ' ', 'm', 'm'].map Char.toUInt8

/-- `50% done`. -/
def percentLine : Bytes := ['5', '0', '%', ' ', 'd', 'o', 'n', 'e'].map Char.toUInt8

theorem lineSegments_markedLine :
    lineSegments 3 (.ofStore rationalOps fiveStore (fun _ => 0) id fun _ => 0) markedLine =
      [.marker ['%'.toUInt8, 'd'.toUInt8] 0, .reference (some 5), .plain ' '.toUInt8,
        .plain 'm'.toUInt8, .plain 'm'.toUInt8] := by
  decide +kernel

end Example

end Ngc

end Inspector
