import Inspector.Laser.Unpack
import Inspector.Transition.Output
import Mathlib.Data.List.ReduceOption

/-! # What the decoders give

Both decoders give the lines that are not clusters as they are, except for second characters of line
ends, and the lines of the clusters that fit in the buffers. An empty line is kept when its end is
the one the decoder has seen last.
-/

namespace Inspector

open Json

namespace Laser

/-- A line of the input. Its end may have a second character. -/
structure Line where
  content : Bytes
  first : UInt8
  second : Option UInt8
  content_chars : ∀ c ∈ content, isLineEnd c = false
  first_end : isLineEnd first = true
  second_end : ∀ c ∈ second, isLineEnd c = true ∧ c ≠ first

namespace Line

def bytes (l : Line) : Bytes := l.content ++ l.first :: l.second.toList

/-- The line with the first character of its end. -/
def text (l : Line) : Bytes := l.content ++ [l.first]

theorem first_ne_zero (l : Line) : l.first ≠ 0x00 := by
  intro h
  have hend := l.first_end
  rw [h] at hend
  cases hend

end Line

/-- What is given for a line: the line, or the lines of a cluster that fits. -/
def Delivers (copies : Bool) (l : Line) (out : Bytes) : Prop :=
  isCluster l.text = false ∧ out = l.text ∨
    isCluster l.text = true ∧
      ∃ f : Form, f.Of l.content ∧ f.Fits copies ∧ out = (f.lines l.first).flatten

/-- The end of a line that a decoder remembers behind its second character. -/
def eolBehind (behind : UInt8 → UInt8) (eol : UInt8) (second : Option UInt8) : UInt8 :=
  (second.map behind).getD eol

/-- No empty line is taken for the second character of a line end. -/
def Kept (behind : UInt8 → UInt8) : UInt8 → List Line → Prop
  | _, [] => True
  | eol, l :: lines => (l.content = [] → eol = 0x00 ∨ eol = l.first) ∧
      Kept behind (eolBehind behind l.first l.second) lines

/-- Lines that a decoder with a last line end of `eol` gives as `outs`. -/
structure Suits (copies : Bool) (behind : UInt8 → UInt8) (limit : ℕ) (eol : UInt8)
    (lines : List Line) (outs : List Bytes) : Prop where
  kept : Kept behind eol lines
  short : ∀ l ∈ lines, l.text.length < limit
  outs : List.Forall₂ (Delivers copies) lines outs

/-- The rest of the input: such lines, with a second character of a line end in front of them. -/
structure Awaits (copies : Bool) (behind : UInt8 → UInt8) (limit : ℕ) (eol : UInt8) (rest : Bytes)
    (second : Option UInt8) (lines : List Line) (outs : List Bytes) : Prop where
  rest : rest = second.toList ++ lines.flatMap Line.bytes
  dropped : ∀ c ∈ second, isLineEnd c = true ∧ eol ≠ 0x00 ∧ eol ≠ c
  suits : Suits copies behind limit (eolBehind behind eol second) lines outs

section Awaits

variable {copies : Bool} {behind : UInt8 → UInt8} {limit : ℕ} {eol : UInt8} {rest : Bytes}
  {lines : List Line} {outs : List Bytes} {l : Line} {out : Bytes}

theorem Awaits.drop {c : UInt8} (h : Awaits copies behind limit eol rest (some c) lines outs) :
    Awaits copies behind limit (behind c) (lines.flatMap Line.bytes) none lines outs :=
  ⟨rfl, (fun _ hno => nomatch hno), h.suits⟩

theorem Awaits.rest_cons (h : Awaits copies behind limit eol rest none (l :: lines) outs) :
    rest = l.content ++ l.first :: (l.second.toList ++ lines.flatMap Line.bytes) := by
  rw [h.rest]
  simp [Line.bytes]

theorem Awaits.next (h : Awaits copies behind limit eol rest none (l :: lines) (out :: outs)) :
    Awaits copies behind limit l.first (l.second.toList ++ lines.flatMap Line.bytes) l.second lines
      outs where
  rest := rfl
  dropped c hc := ⟨(l.second_end c hc).1, l.first_ne_zero, (l.second_end c hc).2.symm⟩
  suits := ⟨h.suits.kept.2, fun k hk => h.suits.short k (List.mem_cons_of_mem l hk),
    (List.forall₂_cons.mp h.suits.outs).2⟩

end Awaits

theorem lines_of_count {c : Cluster} (h : c.count = 0) : c.lines = [] := if_pos h

theorem length_text_eq_one {l : Line} : l.text.length = 1 ↔ l.content = [] := by
  simp [Line.text]

section File

/-- What the decoder for files still gives. -/
def FileOwes (s : FileState) (out : Bytes) : Prop :=
  ∃ (second : Option UInt8) (lines : List Line) (outs : List Bytes),
    Awaits false id Protocol.lineBufferSize s.eol s.rest second lines outs ∧ s.cluster.Sound ∧
    out = s.pending ++ s.cluster.lines.flatten ++ outs.flatten

theorem readLine_append {content : Bytes} (h : ∀ c ∈ content, isLineEnd c = false) {c : UInt8}
    (hc : isLineEnd c = true) (rest : Bytes) :
    readLine (content ++ c :: rest) = (content ++ [c], rest) := by
  induction content with
  | nil => rw [List.nil_append, readLine, if_pos hc]; rfl
  | cons b content ih =>
    have hb : ¬ isLineEnd b = true := by
      rw [h b List.mem_cons_self]
      decide
    rw [List.cons_append, readLine, if_neg hb, ih fun d hd => h d (List.mem_cons_of_mem b hd)]
    rfl

/-- A cluster gives its next line. -/
theorem FileState.emit_eq {s : FileState} (hcount : s.cluster.count ≠ 0)
    (hsound : s.cluster.Sound) :
    ∃ line c', s.emit = some { s with pending := line, cluster := c' } ∧
      s.cluster.lines = line :: c'.lines ∧ c'.Sound ∧ line ≠ [] := by
  obtain ⟨line, c', hnext, hlines, hsound', hne⟩ := hsound.nextLine hcount
  exact ⟨line, c', by rw [FileState.emit, hnext], hlines, hsound', hne⟩

/-- A line that is read is not dropped. -/
theorem fileFillBuffer_line {s : FileState} {l : Line} {rest : Bytes} (hcount : s.cluster.count = 0)
    (hrest : s.rest = l.content ++ l.first :: rest)
    (hkept : l.content = [] → s.eol = 0x00 ∨ s.eol = l.first)
    (hlength : l.text.length < Protocol.lineBufferSize) :
    fileFillBuffer s =
      if isCluster l.text then
        match unpack false l.text l.first with
        | none => none
        | some none =>
          some ⟨rest, l.first, [], { s.cluster with count := 0 }⟩
        | some (some cluster) => (FileState.mk rest l.first s.pending cluster).emit
      else some ⟨rest, l.first, l.text, s.cluster⟩ := by
  have hread : readLine s.rest = (l.text, rest) := by
    rw [hrest]
    exact readLine_append l.content_chars l.first_end rest
  have heol : (l.text.getLast?.filter isLineEnd).getD s.eol = l.first := by
    simp [Line.text, Option.filter, l.first_end]
  have hdrop : ¬(l.text.length = 1 ∧ l.text.all isLineEnd ∧ s.eol ≠ 0x00 ∧ s.eol ≠ l.first) := by
    rintro ⟨hone, -, hzero, hne⟩
    exact (hkept (length_text_eq_one.mp hone)).elim hzero hne
  rw [fileFillBuffer, if_pos hcount, hread]
  simp only [if_neg (not_le.mpr hlength), heol]
  exact if_neg hdrop

/-- The buffer is filled with the next line, unless a second line end is dropped or the file is at
its end. -/
theorem fileFillBuffer_owes {s : FileState} {out : Bytes} (h : FileOwes s out)
    (hpending : s.pending = []) : ∃ s', fileFillBuffer s = some s' ∧ FileOwes s' out ∧
      (s'.pending = [] → out ≠ [] → s'.rest.length < s.rest.length) := by
  obtain ⟨second, lines, outs, hawaits, hsound, rfl⟩ := h
  by_cases hcount : s.cluster.count = 0
  · rw [hpending, lines_of_count hcount]
    cases second with
    | some c =>
      obtain ⟨hc, hne0, hne⟩ := hawaits.dropped c rfl
      have hrest : s.rest = [] ++ c :: lines.flatMap Line.bytes := hawaits.rest
      have hread : readLine s.rest = ([c], lines.flatMap Line.bytes) := by
        rw [hrest]
        exact readLine_append (fun _ hd => absurd hd List.not_mem_nil) hc _
      have hfill : fileFillBuffer s = some ⟨lines.flatMap Line.bytes, c, [], s.cluster⟩ := by
        rw [fileFillBuffer, if_pos hcount, hread]
        simp [Protocol.lineBufferSize, Option.filter, hc, hne0, hne]
      refine ⟨_, hfill, ⟨none, lines, outs, hawaits.drop, hsound, ?_⟩, fun _ _ => ?_⟩
      · rw [lines_of_count hcount]
      · rw [hrest]
        exact Nat.lt_succ_self _
    | none =>
      have houts := hawaits.suits.outs
      cases houts with
      | nil =>
        have hnil : s.rest = [] := hawaits.rest
        have hfill : fileFillBuffer s = some s := by
          obtain ⟨rest, eol, pending, cluster⟩ := s
          subst hnil hpending
          rw [fileFillBuffer, if_pos hcount]
          rfl
        refine ⟨s, hfill, ⟨none, [], [], hawaits, hsound, ?_⟩, fun _ hno => absurd rfl hno⟩
        rw [hpending, lines_of_count hcount]
      | @cons l out lines outs hl _ =>
        have hnext : ∀ pending cluster, Cluster.Sound cluster →
            FileOwes ⟨l.second.toList ++ lines.flatMap Line.bytes, l.first, pending, cluster⟩
              (pending ++ cluster.lines.flatten ++ outs.flatten) :=
          fun pending cluster hcluster => ⟨l.second, lines, outs, hawaits.next, hcluster, rfl⟩
        rw [fileFillBuffer_line hcount hawaits.rest_cons hawaits.suits.kept.1
          (hawaits.suits.short l List.mem_cons_self)]
        rcases hl with ⟨hno, rfl⟩ | ⟨hyes, f, hof, hfits, rfl⟩
        · rw [if_neg (by simp [hno])]
          refine ⟨_, rfl, ?_, fun hnil => absurd hnil (by simp [Line.text])⟩
          have howes := hnext l.text s.cluster hsound
          rw [lines_of_count hcount] at howes
          simpa using howes
        · obtain ⟨c, hunpack, hsound', hcount', hlines⟩ := Form.unpack_eq hof hfits l.first_end
          obtain ⟨line, c', hemit, hlines', hsound'', hne⟩ := FileState.emit_eq
            (s := ⟨l.second.toList ++ lines.flatMap Line.bytes, l.first, s.pending, c⟩) hcount' hsound'
          rw [if_pos hyes, show unpack false l.text l.first = _ from hunpack]
          refine ⟨_, hemit, ?_, fun hnil => absurd hnil hne⟩
          have howes := hnext line c' hsound''
          rw [← hlines, hlines']
          simpa using howes
  · obtain ⟨line, c', hemit, hlines, hsound', hne⟩ := FileState.emit_eq hcount hsound
    refine ⟨{ s with pending := line, cluster := c' }, by rw [fileFillBuffer, if_neg hcount, hemit],
      ⟨second, lines, outs, hawaits, hsound', ?_⟩, fun hnil => absurd hnil hne⟩
    simp [hpending, hlines]

/-- Each call gives the next character, or nothing when a second line end is dropped and at the end
of the file. -/
theorem owing_fileDecoder : Transition.Owing fileDecoder FileOwes fun s => s.rest.length where
  step s out h := by
    have hgive : ∀ {s' : FileState} {c : UInt8} {pending : Bytes}, FileOwes s' out →
        s'.pending = c :: pending →
        ∃ out', out = c :: out' ∧ FileOwes { s' with pending := pending } out' := by
      rintro s' c pending ⟨second, lines, outs, hawaits, hsound, rfl⟩ hc
      exact ⟨pending ++ s'.cluster.lines.flatten ++ outs.flatten, by rw [hc]; rfl, second, lines, outs,
        hawaits, hsound, rfl⟩
    by_cases hpending : s.pending = []
    · obtain ⟨s', hfill, howes, hless⟩ := fileFillBuffer_owes h hpending
      cases hc : s'.pending with
      | nil =>
        refine ⟨s', none, out, ?_, rfl, howes, fun _ hne => hless hc hne⟩
        simp only [fileDecoder, if_pos hpending, hfill, hc]
      | cons c pending =>
        obtain ⟨out', rfl, howes'⟩ := hgive howes hc
        refine ⟨{ s' with pending := pending }, some c, out', ?_, rfl, howes', fun hno => nomatch hno⟩
        simp only [fileDecoder, if_pos hpending, hfill, hc]
    · obtain ⟨c, pending, hc⟩ := List.exists_cons_of_ne_nil hpending
      obtain ⟨out', rfl, howes'⟩ := hgive h hc
      refine ⟨{ s with pending := pending }, some c, out', ?_, rfl, howes', fun hno => nomatch hno⟩
      rw [fileDecoder, if_neg hpending]
      simp only [hc]

end File

section Stream

/-- The part of a line that was read. -/
def StreamState.part (s : StreamState) : Bytes :=
  if s.cluster.count = 0 then s.line.getD [] else []

/-- The other decoder between two calls. -/
structure Reading (s : StreamState) (second : Option UInt8) (lines : List Line)
    (outs : List Bytes) : Prop where
  awaits : Awaits true (fun _ => 0x00) (Protocol.lineBufferSize - 1) s.eol
    (s.part ++ s.events.reduceOption) second lines outs
  part : ∀ c ∈ s.part, isLineEnd c = false
  begin : second.isSome → s.part = []
  can : ∀ l ∈ lines, Protocol.asciiCAN ∉ l.content
  sound : s.cluster.Sound
  null : s.line = none → s.cluster.count = 0

/-- What the other decoder still gives. -/
def StreamOwes (s : StreamState) (out : Bytes) : Prop :=
  ∃ (second : Option UInt8) (lines : List Line) (outs : List Bytes),
    Reading s second lines outs ∧ (s.buffering = true → s.pending = []) ∧
    out = s.pending ++ s.cluster.lines.flatten ++ outs.flatten

/-- The next character belongs to the line that was begun, or ends it. -/
theorem cons_cases {part content : Bytes} {c d : UInt8} {rest text : Bytes}
    (hpart : ∀ b ∈ part, isLineEnd b = false) (hd : isLineEnd d = true)
    (h : part ++ c :: rest = content ++ d :: text) :
    c = d ∧ part = content ∧ rest = text ∨
      ∃ behind, content = part ++ c :: behind ∧ rest = behind ++ d :: text := by
  induction part generalizing content with
  | nil =>
    cases content with
    | nil =>
      obtain ⟨rfl, rfl⟩ := List.cons.inj h
      exact .inl ⟨rfl, rfl, rfl⟩
    | cons b content =>
      obtain ⟨rfl, rfl⟩ := List.cons.inj h
      exact .inr ⟨content, rfl, rfl⟩
  | cons a part ih =>
    cases content with
    | nil =>
      obtain ⟨rfl, -⟩ := List.cons.inj h
      rw [hpart a List.mem_cons_self] at hd
      cases hd
    | cons b content =>
      obtain ⟨rfl, htail⟩ := List.cons.inj h
      rcases ih (fun b hb => hpart b (List.mem_cons_of_mem a hb)) htail with
        ⟨hcd, rfl, hrest⟩ | ⟨behind, rfl, hrest⟩
      · exact .inl ⟨hcd, rfl, hrest⟩
      · exact .inr ⟨behind, rfl, hrest⟩

theorem StreamState.emit_eq {s : StreamState} (hcount : s.cluster.count ≠ 0)
    (hsound : s.cluster.Sound) :
    ∃ line c', s.emit = some ({ s with
          pending := line
          cluster := c'
          line := if c'.count = 0 then none else s.line }, .ready) ∧
      s.cluster.lines = line :: c'.lines ∧ c'.Sound ∧ line ≠ [] := by
  obtain ⟨line, c', hnext, hlines, hsound', hne⟩ := hsound.nextLine hcount
  exact ⟨line, c', by rw [StreamState.emit, hnext], hlines, hsound', hne⟩

/-- What a call of `stream_fill_buffer` leaves. -/
def Filled (s : StreamState) (out : Bytes) (s' : StreamState) : Fill → Prop
  | .ready => StreamOwes { s' with buffering := false } out ∧ s'.pending ≠ [] ∧
      s'.events.length ≤ s.events.length
  | .returns c => c = none ∧ StreamOwes s' out ∧ s'.buffering = true ∧
      (out ≠ [] → s'.events.length < s.events.length)

theorem streamFillBuffer_null {s : StreamState} (hline : s.line = none)
    (hcount : s.cluster.count = 0) (hpending : s.pending = []) :
    streamFillBuffer s = streamFillBuffer { s with line := some [] } := by
  obtain ⟨events, eol, pending, cluster, line, buffering⟩ := s
  obtain ⟨head, param, sval, count, next⟩ := cluster
  subst hline hcount hpending
  rfl

theorem streamFillBuffer_char {s : StreamState} {part : Bytes} {c : UInt8}
    {events : List (Option UInt8)} (hline : s.line = some part) (hcount : s.cluster.count = 0)
    (hevents : s.events = some c :: events) (hcan : c ≠ Protocol.asciiCAN)
    (hlength : part.length + 1 < Protocol.lineBufferSize - 1) :
    streamFillBuffer s =
      if isLineEnd c then StreamState.endLine { s with events := events } (part ++ [c]) c
      else some ({ s with events := events, line := some (part ++ [c]) }, .returns none) := by
  rw [streamFillBuffer]
  simp only [hline, hcount, if_true, hevents, if_neg hcan, Option.getD_some, StreamState.readChar,
    if_neg (not_le.mpr hlength)]

/-- A character that belongs to the line, or to its end, is not a cancel character. -/
theorem ne_can {c : UInt8} (h : isLineEnd c = true) : c ≠ Protocol.asciiCAN := by
  rintro rfl
  cases h

/-- The end of a line that is kept. -/
theorem streamEndLine_owes {s : StreamState} {l : Line} {lines : List Line} {out : Bytes}
    {outs : List Bytes} {rest : Bytes}
    (h : Awaits true (fun _ => 0x00) (Protocol.lineBufferSize - 1) s.eol rest none (l :: lines)
      (out :: outs)) (hevents : s.events.reduceOption = l.second.toList ++ lines.flatMap Line.bytes)
    (hcan : ∀ k ∈ lines, Protocol.asciiCAN ∉ k.content) (hsound : s.cluster.Sound)
    (hcount : s.cluster.count = 0) :
    ∃ s', s.endLine l.text l.first = some (s', .ready) ∧
      StreamOwes { s' with buffering := false } (out ++ outs.flatten) ∧ s'.pending ≠ [] ∧
      s'.events = s.events := by
  have hdrop : ¬(l.text.length = 1 ∧ s.eol ≠ 0x00 ∧ s.eol ≠ l.first) := by
    rintro ⟨hone, hzero, hne⟩
    exact (h.suits.kept.1 (length_text_eq_one.mp hone)).elim hzero hne
  have hreading : ∀ (s' : StreamState), s'.part = [] → s'.events = s.events →
      s'.eol = l.first → s'.cluster.Sound → (s'.line = none → s'.cluster.count = 0) →
        Reading s' l.second lines outs := by
    intro s' hpart hevents' heol hsound' hnull
    refine ⟨?_, ?_, fun _ => hpart, hcan, hsound', hnull⟩
    · rw [hpart, hevents', heol, List.nil_append, hevents]
      exact h.next
    · rw [hpart]
      exact fun _ hno => absurd hno List.not_mem_nil
  rw [StreamState.endLine, if_neg hdrop]
  rcases (List.forall₂_cons.mp h.suits.outs).1 with ⟨hno, rfl⟩ | ⟨hyes, f, hof, hfits, rfl⟩
  · rw [if_neg (by simp [hno])]
    refine ⟨_, rfl, ⟨l.second, lines, outs, ?_, (fun hno => nomatch hno), ?_⟩, by simp [Line.text], rfl⟩
    · exact hreading _ (by simp [StreamState.part]) rfl rfl hsound fun _ => hcount
    · simp [lines_of_count hcount]
  · obtain ⟨c, hunpack, hsound', hcount', hlines⟩ := Form.unpack_eq hof hfits l.first_end
    obtain ⟨line, c', hemit, hlines', hsound'', hne⟩ := StreamState.emit_eq
      (s := { s with eol := l.first, cluster := c, line := some l.text }) hcount' hsound'
    rw [if_pos hyes, show unpack true l.text l.first = _ from hunpack]
    refine ⟨_, hemit, ⟨l.second, lines, outs, ?_, (fun hno => nomatch hno), ?_⟩, hne, rfl⟩
    · refine hreading ⟨s.events, l.first, line, c', if c'.count = 0 then none else some l.text,
        false⟩ ?_ rfl rfl hsound'' ?_
      · simp only [StreamState.part]
        split_ifs <;> rfl
      · simp only
        split_ifs with hzero
        · exact fun _ => hzero
        · exact fun hno => nomatch hno
    · rw [← hlines, hlines']
      simp

/-- A call of `stream_fill_buffer` that goes on with a line. -/
structure Begun (s : StreamState) (part : Bytes) : Prop where
  buffering : s.buffering = true
  line : s.line = some part
  count : s.cluster.count = 0
  pending : s.pending = []

section Read

variable {s : StreamState} {part : Bytes} {second : Option UInt8} {lines : List Line}
  {outs : List Bytes} {events : List (Option UInt8)} {c : UInt8}

theorem Begun.part_eq (hs : Begun s part) : s.part = part := by
  rw [StreamState.part, if_pos hs.count, hs.line, Option.getD_some]

theorem Begun.owes (hs : Begun s part) (h : Reading s second lines outs) :
    StreamOwes s outs.flatten := by
  refine ⟨second, lines, outs, h, fun _ => hs.pending, ?_⟩
  rw [hs.pending, lines_of_count hs.count]
  rfl

/-- A call that takes something from the input and gives nothing. -/
theorem Begun.filled {s' : StreamState} (hs : Begun s' part) (second : Option UInt8)
    (lines : List Line) (h : Reading s' second lines outs)
    (hless : s'.events.length < s.events.length) :
    Filled s outs.flatten s' (.returns none) :=
  ⟨rfl, hs.owes h, hs.buffering, fun _ => hless⟩

/-- The input is over. -/
theorem Begun.filled_nil (hs : Begun s part) (h : Reading s second lines outs)
    (hevents : s.events = []) : Filled s outs.flatten s (.returns none) := by
  refine ⟨rfl, hs.owes h, hs.buffering, fun hne => absurd ?_ hne⟩
  have hrest := h.awaits.rest
  have hchars := h.part
  rw [hevents, List.reduceOption_nil, List.append_nil] at hrest
  have houts := h.awaits.suits.outs
  cases houts with
  | nil => rfl
  | @cons l out lines outs _ _ =>
    have hmem : l.first ∈ s.part := by
      rw [hrest]
      simp [Line.bytes]
    have hno := hchars l.first hmem
    rw [l.first_end] at hno
    cases hno

/-- There is no input now. -/
theorem Begun.filled_none (hs : Begun s part) (h : Reading s second lines outs)
    (hevents : s.events = none :: events) :
    Filled s outs.flatten { s with events := events } (.returns none) := by
  have hs' : Begun { s with events := events } part :=
    ⟨hs.buffering, hs.line, hs.count, hs.pending⟩
  refine hs'.filled second lines ⟨?_, h.part, h.begin, h.can, h.sound, h.null⟩
    ?_
  · have hsame := h.awaits
    rw [hevents, List.reduceOption_cons_of_none] at hsame
    exact hsame
  · rw [hevents]
    exact Nat.lt_succ_self _

/-- The second character of a line end is dropped. -/
theorem Begun.filled_second {b : UInt8} (hs : Begun s part) (h : Reading s (some b) lines outs)
    (hevents : s.events = some c :: events) :
    ∃ s', streamFillBuffer s = some (s', .returns none) ∧
      Filled s outs.flatten s' (.returns none) := by
  have hawaits := h.awaits
  obtain ⟨hb, hne0, hne⟩ := hawaits.dropped b rfl
  have hnil := h.begin rfl
  rw [hevents, List.reduceOption_cons_of_some, hnil] at hawaits
  obtain rfl : part = [] := by rw [← hs.part_eq, hnil]
  obtain ⟨rfl, hrest⟩ := List.cons.inj hawaits.rest
  have hs' : Begun { s with events := events, eol := 0x00, line := some [] } [] :=
    ⟨hs.buffering, rfl, hs.count, hs.pending⟩
  refine ⟨_, ?_, hs'.filled none lines ?_ ?_⟩
  · rw [streamFillBuffer_char hs.line hs.count hevents (ne_can hb) (by decide), if_pos hb,
      StreamState.endLine, if_pos ⟨rfl, hne0, hne⟩]
  · refine ⟨?_, ?_, fun _ => hs'.part_eq, h.can, h.sound, fun hno => nomatch hno⟩
    · rw [hs'.part_eq, List.nil_append, hrest]
      exact hawaits.drop
    · rw [hs'.part_eq]
      exact fun _ hno => absurd hno List.not_mem_nil
  · rw [hevents]
    exact Nat.lt_succ_self _

/-- A character is put into the line that was begun. -/
theorem Begun.filled_plain (hs : Begun s part) (h : Reading s none lines outs)
    (hevents : s.events = some c :: events) (hc : isLineEnd c = false)
    (hcan : c ≠ Protocol.asciiCAN) (hlength : part.length + 1 < Protocol.lineBufferSize - 1) :
    ∃ s', streamFillBuffer s = some (s', .returns none) ∧
      Filled s outs.flatten s' (.returns none) := by
  have hawaits := h.awaits
  have hchars := h.part
  rw [hs.part_eq] at hchars
  rw [hevents, List.reduceOption_cons_of_some, hs.part_eq] at hawaits
  have hs' : Begun { s with events := events, line := some (part ++ [c]) } (part ++ [c]) :=
    ⟨hs.buffering, rfl, hs.count, hs.pending⟩
  refine ⟨_, ?_, hs'.filled none lines ?_ ?_⟩
  · rw [streamFillBuffer_char hs.line hs.count hevents hcan hlength, if_neg (by simp [hc])]
  · refine ⟨?_, ?_, (fun hsome => nomatch hsome), h.can, h.sound, fun hnull => nomatch hnull⟩
    · rw [hs'.part_eq, List.append_assoc, List.singleton_append]
      exact hawaits
    · rw [hs'.part_eq]
      intro b hb
      rcases List.mem_append.mp hb with hb | hb
      · exact hchars b hb
      · rw [List.mem_singleton.mp hb]
        exact hc
  · rw [hevents]
    exact Nat.lt_succ_self _

/-- A character is read that begins a line end, or belongs to the line. -/
theorem Begun.filled_char (hs : Begun s part) (h : Reading s none lines outs)
    (hevents : s.events = some c :: events) :
    ∃ s' fill, streamFillBuffer s = some (s', fill) ∧ Filled s outs.flatten s' fill := by
  have hawaits := h.awaits
  have hchars := h.part
  rw [hs.part_eq] at hchars
  rw [hevents, List.reduceOption_cons_of_some, hs.part_eq] at hawaits
  have houts := hawaits.suits.outs
  cases houts with
  | nil => exact absurd hawaits.rest (by simp)
  | @cons l out lines outs _ _ =>
    have hshort := hawaits.suits.short l List.mem_cons_self
    rcases cons_cases hchars l.first_end hawaits.rest_cons with
      ⟨rfl, rfl, hrest⟩ | ⟨behind, hcontent, -⟩
    · have hlength : l.content.length + 1 < Protocol.lineBufferSize - 1 := by
        simpa [Line.text] using hshort
      obtain ⟨s', hend, howes', hne, hevents'⟩ := streamEndLine_owes
        (s := { s with events := events }) hawaits hrest
        (fun k hk => h.can k (List.mem_cons_of_mem l hk)) h.sound hs.count
      refine ⟨s', .ready, ?_, howes', hne, ?_⟩
      · rw [streamFillBuffer_char hs.line hs.count hevents (ne_can l.first_end) hlength,
          if_pos l.first_end]
        exact hend
      · rw [hevents', hevents]
        exact Nat.le_succ _
    · have hmem : c ∈ l.content := by
        rw [hcontent]
        simp
      have hcan : c ≠ Protocol.asciiCAN := by
        rintro rfl
        exact h.can l List.mem_cons_self hmem
      have hlength : part.length + 1 < Protocol.lineBufferSize - 1 := by
        simp only [Line.text, hcontent, List.length_append, List.length_cons,
          List.length_nil] at hshort
        omega
      obtain ⟨s', hfill, hfilled⟩ :=
        hs.filled_plain h hevents (l.content_chars c hmem) hcan hlength
      exact ⟨s', _, hfill, hfilled⟩

/-- A character is read. -/
theorem streamFillBuffer_read (hs : Begun s part) (h : Reading s second lines outs) :
    ∃ s' fill, streamFillBuffer s = some (s', fill) ∧ Filled s outs.flatten s' fill := by
  cases hevents : s.events with
  | nil =>
    refine ⟨_, _, ?_, hs.filled_nil h hevents⟩
    rw [streamFillBuffer]
    simp only [hs.line, hs.count, if_true, hevents]
  | cons e events =>
    cases e with
    | none =>
      refine ⟨_, _, ?_, hs.filled_none h hevents⟩
      rw [streamFillBuffer]
      simp only [hs.line, hs.count, if_true, hevents]
    | some c =>
      cases second with
      | some b =>
        obtain ⟨s', hfill, hfilled⟩ := hs.filled_second h hevents
        exact ⟨s', _, hfill, hfilled⟩
      | none => exact hs.filled_char h hevents

end Read

/-- A character of the input is put into the line, and the line is handed over at its end, unless it
is the second character of a line end. -/
theorem streamFillBuffer_owes {s : StreamState} {out part : Bytes} (h : StreamOwes s out)
    (hbuffering : s.buffering = true) (hline : s.line = some part) :
    ∃ s' fill, streamFillBuffer s = some (s', fill) ∧ Filled s out s' fill := by
  obtain ⟨second, lines, outs, hreading, hpending, rfl⟩ := h
  have hpending := hpending hbuffering
  by_cases hcount : s.cluster.count = 0
  · rw [hpending, lines_of_count hcount]
    exact streamFillBuffer_read ⟨hbuffering, hline, hcount, hpending⟩ hreading
  · obtain ⟨line, c', hemit, hlines', hsound', hne⟩ := StreamState.emit_eq hcount hreading.sound
    have hfill : streamFillBuffer s = s.emit := by
      rw [streamFillBuffer]
      simp only [hline, if_neg hcount]
    have hpart : s.part = [] := if_neg hcount
    let s' : StreamState := ⟨s.events, s.eol, line, c', if c'.count = 0 then none else s.line, false⟩
    have hpart' : s'.part = [] := by
      simp only [StreamState.part, s']
      split_ifs <;> rfl
    have hreading' : Reading s' second lines outs := by
      refine ⟨?_, ?_, fun _ => hpart', hreading.can, hsound', ?_⟩
      · have hawaits := hreading.awaits
        rw [hpart] at hawaits
        rw [hpart']
        exact hawaits
      · rw [hpart']
        exact fun _ hno => absurd hno List.not_mem_nil
      · simp only [s', hline]
        split_ifs with hzero
        · exact fun _ => hzero
        · exact fun hno => nomatch hno
    refine ⟨_, _, hfill.trans hemit, ⟨second, lines, outs, hreading', (fun hno => nomatch hno), ?_⟩,
      hne, le_refl _⟩
    simp [hpending, hlines']

/-- Each call gives the next character, or nothing. -/
theorem owing_streamDecoder : Transition.Owing streamDecoder StreamOwes
    fun s => 2 * s.events.length + if s.buffering then 0 else 1 where
  step s out h := by
    have hgive : ∀ {s' : StreamState}, StreamOwes s' out → s'.buffering = false →
        ∃ s'' r out', s'.give = (s'', r) ∧ out = r.toList ++ out' ∧ StreamOwes s'' out' ∧
          (r = none → s''.events = s'.events ∧ s''.buffering = true ∧ s'.pending = []) := by
      rintro s' ⟨second, lines, outs, hreading, hpending, rfl⟩ hbuffering
      cases hc : s'.pending with
      | nil =>
        refine ⟨{ s' with buffering := true }, none, _, by simp only [StreamState.give, hc], rfl,
          ⟨second, lines, outs, ⟨hreading.awaits, hreading.part, hreading.begin, hreading.can,
            hreading.sound, hreading.null⟩, (fun _ => hc), by simp [hc]⟩,
          fun _ => ⟨rfl, rfl, rfl⟩⟩
      | cons c pending =>
        refine ⟨{ s' with pending := pending }, some c,
          pending ++ s'.cluster.lines.flatten ++ outs.flatten, by simp only [StreamState.give, hc], rfl,
          ⟨second, lines, outs, ⟨hreading.awaits, hreading.part, hreading.begin, hreading.can,
            hreading.sound, hreading.null⟩, ?_, rfl⟩, fun hno => nomatch hno⟩
        intro hyes
        rw [hbuffering] at hyes
        cases hyes
    by_cases hbuffering : s.buffering = true
    · obtain ⟨s₁, howes, hbuffering₁, part, hline, hevents, hfill₁⟩ : ∃ s₁, StreamOwes s₁ out ∧
          s₁.buffering = true ∧ ∃ part, s₁.line = some part ∧ s₁.events = s.events ∧
            streamFillBuffer s = streamFillBuffer s₁ := by
        cases hline : s.line with
        | some part => exact ⟨s, h, hbuffering, part, hline, rfl, rfl⟩
        | none =>
          obtain ⟨second, lines, outs, hreading, hpending, rfl⟩ := h
          have hcount := hreading.null hline
          refine ⟨{ s with line := some [] }, ⟨second, lines, outs, ?_, hpending, rfl⟩, hbuffering, [],
            rfl, rfl, streamFillBuffer_null hline hcount (hpending hbuffering)⟩
          have hpart : StreamState.part { s with line := some [] } = s.part := by
            simp [StreamState.part, hline]
          refine ⟨?_, ?_, ?_, hreading.can, hreading.sound, fun hnull => nomatch hnull⟩
          · rw [hpart]
            exact hreading.awaits
          · rw [hpart]
            exact hreading.part
          · rw [hpart]
            exact hreading.begin
      obtain ⟨s', fill, hfill, hfilled⟩ := streamFillBuffer_owes howes hbuffering₁ hline
      cases fill with
      | ready =>
        obtain ⟨howes', hne, hle⟩ := hfilled
        obtain ⟨s'', r, out', hs'', hr, howes'', hnone⟩ := hgive howes' rfl
        refine ⟨s'', r, out', ?_, hr, howes'', fun hno _ => absurd (hnone hno).2.2 hne⟩
        simp only [streamDecoder, if_pos hbuffering, hfill₁, hfill, hs'']
      | returns c =>
        obtain ⟨rfl, howes', hyes, hless⟩ := hfilled
        refine ⟨s', none, out, ?_, rfl, howes', fun _ hne => ?_⟩
        · simp only [streamDecoder, if_pos hbuffering, hfill₁, hfill]
        · have hlt := hless hne
          rw [hevents] at hlt
          simp only [hyes, hbuffering, if_true]
          omega
    · obtain ⟨s', r, out', hs', hr, howes, hnone⟩ := hgive h (by simpa using hbuffering)
      refine ⟨s', r, out', by rw [streamDecoder, if_neg hbuffering, hs'], hr, howes, ?_⟩
      intro hno _
      obtain ⟨hevents, hyes, -⟩ := hnone hno
      simp [hevents, hyes, hbuffering]

end Stream

end Laser

end Inspector
