import Inspector.Laser.Decoders

/-! # Unpacking whole inputs

An input of lines that are short, and whose clusters fit in the buffers, is given line by line by
both decoders. The decoder for files writes behind its buffer for every line that is too long, and
loses empty lines with a line end of two characters.
-/

namespace Inspector

open Json

namespace Laser

/-- The decoder for files is about to read lines. -/
structure FileState.Before (s : FileState) (lines : List Line) : Prop where
  rest : s.rest = lines.flatMap Line.bytes
  pending : s.pending = []
  count : s.cluster.count = 0

/-- The other decoder is about to read lines, whose characters may come at any time. -/
structure StreamState.Before (s : StreamState) (lines : List Line) : Prop where
  events : s.events.reduceOption = lines.flatMap Line.bytes
  can : ∀ l ∈ lines, Protocol.asciiCAN ∉ l.content
  pending : s.pending = []
  count : s.cluster.count = 0
  line : s.line.getD [] = []

theorem sound_of_count {c : Cluster} (h : c.count = 0) : c.Sound where
  count hno := absurd h hno
  length_lt line hline := by
    rw [lines_of_count h] at hline
    cases hline

theorem fileDecoder_gives {s : FileState} {lines : List Line} {outs : List Bytes}
    (h : s.Before lines) (hsuits : Suits false id Protocol.lineBufferSize s.eol lines outs) :
    Transition.Gives fileDecoder s outs.flatten := by
  apply owing_fileDecoder.gives
  refine ⟨none, lines, outs, ⟨h.rest, (fun _ hno => nomatch hno), hsuits⟩, sound_of_count h.count, ?_⟩
  rw [h.pending, lines_of_count h.count]
  rfl

theorem streamDecoder_gives {s : StreamState} {lines : List Line} {outs : List Bytes}
    (h : s.Before lines)
    (hsuits : Suits true (fun _ => 0x00) (Protocol.lineBufferSize - 1) s.eol lines outs) :
    Transition.Gives streamDecoder s outs.flatten := by
  have hpart : s.part = [] := by
    rw [StreamState.part, if_pos h.count, h.line]
  apply owing_streamDecoder.gives
  refine ⟨none, lines, outs, ⟨⟨?_, by simp, hsuits⟩, ?_, fun _ => hpart, h.can,
    sound_of_count h.count, fun _ => h.count⟩, fun _ => h.pending, ?_⟩
  · rw [hpart, List.nil_append, h.events]
    rfl
  · rw [hpart]
    exact fun _ hno => absurd hno List.not_mem_nil
  · rw [h.pending, lines_of_count h.count]
    rfl

/-- Both decoders give the lines of an input as they should, each line of a cluster with its share
of the distance. The decoder for files goes wrong for every line that is too long. -/
theorem decoders_give (lines : List Line) (outs : List Bytes) :
    (∀ s : FileState, s.Before lines →
      Suits false id Protocol.lineBufferSize s.eol lines outs →
        Transition.Gives fileDecoder s outs.flatten) ∧
    (∀ s : StreamState, s.Before lines →
      Suits true (fun _ => 0x00) (Protocol.lineBufferSize - 1) s.eol lines outs →
        Transition.Gives streamDecoder s outs.flatten) ∧
    (∀ f : Form, ∃ v, Denotes f.share 8 v ∧
      |v - f.distance / f.values.length| ≤ 1 / 2 / 10 ^ 8) ∧
    ∀ s : FileState, s.pending = [] → s.cluster.count = 0 →
      Protocol.lineBufferSize ≤ (readLine s.rest).1.length → fileDecoder s = none := by
  refine ⟨fun s h hsuits => fileDecoder_gives h hsuits,
    fun s h hsuits => streamDecoder_gives h hsuits, Form.exists_denotes_share, ?_⟩
  intro s hpending hcount hlong
  have hfill : fileFillBuffer s = none := by
    rw [fileFillBuffer, if_pos hcount]
    exact if_pos hlong
  simp only [fileDecoder, if_pos hpending, hfill]

/-- Nothing is unpacked. -/
def noCluster : Cluster := ⟨[], [], [], 0, 0⟩

/-- The line `G1 X10 S1:2`. -/
def sampleLine : Line where
  content := [0x47, 0x31, 0x20, 0x58, 0x31, 0x30, 0x20, 0x53, 0x31, 0x3A, 0x32]
  first := 0x0A
  second := none
  content_chars := by simp [isLineEnd]
  first_end := by decide
  second_end := fun _ h => nomatch h

def sampleForm : Form where
  command := [0x47, 0x31, 0x20, 0x58, 0x31, 0x30, 0x20]
  letter := 0x47
  axis := 0x58
  number := [0x31, 0x30]
  distance := 10
  words := []
  values := [[0x31], [0x32]]

theorem sampleForm_of : sampleForm.Of sampleLine.content where
  content := by decide
  command := by decide
  chars := by simp [sampleForm]
  distance := by
    simp [sampleForm, readFloat, sign, scanFloat, isDigit, Scan.floatDigit, Scan.count, digitValue,
      maxIntDigits]
  ends := ends_nil
  two_le := by decide
  values := by simp [sampleForm, isLineEnd]

theorem sampleForm_fits (copies : Bool) : sampleForm.Fits copies := by
  have hnumber : (ftoaText (sampleForm.distance / sampleForm.values.length) 8).length ≤
      coordValueLength := by
    apply length_ftoaText_le
    norm_num [sampleForm, abs_of_pos]
  have hshare : sampleForm.share.length ≤ coordValueLength :=
    (List.rdropWhile_prefix _ _).length_le.trans hnumber
  refine ⟨by decide, by decide, by decide, fun _ => by decide, by decide, hnumber, ?_⟩
  rintro _ ⟨⟩
  simp only [coordValueLength] at hshare
  simp [Form.head, sampleForm, blockSize] at hshare ⊢
  omega

theorem sample_suits (copies : Bool) (behind : UInt8 → UInt8) {limit : ℕ} (h : 12 < limit) :
    Suits copies behind limit 0x00 [sampleLine] [(sampleForm.lines 0x0A).flatten] where
  kept := ⟨(fun hno => nomatch hno), trivial⟩
  short l hl := by
    rw [List.mem_singleton.mp hl]
    exact h
  outs := .cons (.inr ⟨by decide, sampleForm, sampleForm_of, sampleForm_fits copies, rfl⟩) .nil

theorem decoders_give_sample :
    Transition.Gives fileDecoder ⟨sampleLine.bytes, 0x00, [], noCluster⟩
      [(sampleForm.lines 0x0A).flatten].flatten ∧
    Transition.Gives streamDecoder
      ⟨sampleLine.bytes.map some, 0x00, [], noCluster, none, true⟩
      [(sampleForm.lines 0x0A).flatten].flatten := by
  obtain ⟨hfile, hstream, -, -⟩ := decoders_give [sampleLine] [(sampleForm.lines 0x0A).flatten]
  constructor
  · exact hfile _ ⟨rfl, rfl, rfl⟩ (sample_suits false id (by decide))
  · exact hstream _ ⟨rfl, by decide, rfl, rfl, rfl⟩ (sample_suits true _ (by decide))

/-- A value of nine characters does not fit in `sval`, a command of 24 characters does not fit in
`param` for the stream decoder, and the decoder for files loses an empty line that ends with two
characters. -/
theorem not_decoders_give :
    fileDecoder ⟨[0x47, 0x31, 0x58, 0x31, 0x53, 0x31, 0x32, 0x33, 0x34, 0x35, 0x36, 0x37, 0x38, 0x39,
      0x3A, 0x31, 0x0A], 0x00, [], noCluster⟩ = none ∧
    Transition.calls streamDecoder 28 ⟨[0x47, 0x31, 0x58, 0x31, 0x59, 0x31, 0x5A, 0x31, 0x41, 0x31, 0x42,
      0x31, 0x46, 0x31, 0x30, 0x30, 0x30, 0x45, 0x31, 0x32, 0x33, 0x34, 0x35, 0x53, 0x31, 0x3A, 0x32,
      0x0A].map some, 0x00, [], noCluster, none, true⟩ = none ∧
    (Transition.calls fileDecoder 16 ⟨[0x47, 0x30, 0x0D, 0x0A, 0x0D, 0x0A, 0x47, 0x30, 0x0D, 0x0A], 0x00,
      [], noCluster⟩).map Prod.snd = some [0x47, 0x30, 0x0D, 0x47, 0x30, 0x0D] := by
  refine ⟨?_, ?_, ?_⟩
  · decide
  · decide
  · decide

end Laser

end Inspector
