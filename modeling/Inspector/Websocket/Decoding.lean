import Inspector.Transition.Partial
import Inspector.Websocket.Processing

/-! # Frames and the segments they arrive in

The bytes of frames are cut into segments anywhere. When every call of the parser gets what suits
the frame that it works on, it makes progress, and the frames are decoded as they were sent.
-/

namespace Inspector

namespace Websocket

/-- A connection: the segment in hand and those that follow, how many bytes have been taken, and
what has been given to others. -/
structure Conn where
  session : Session
  rx : Rx
  segment : Bytes
  later : List Bytes
  taken : ℕ := 0
  out : List Output := []

/-- What may happen: the parser is called for what is left of the segment, or the next one is taken
when nothing is left, and a character is taken out of the receive buffer. -/
inductive Op
  | call (mpg : Bool)
  | get

namespace Conn

variable (cfg : Config) (x : Conn)

/-- A call of the parser, and how many bytes it takes. -/
def parse (mpg : Bool) : Option (ℕ × Conn) :=
  (msgParse cfg mpg x.session x.rx x.segment).map fun w =>
    (x.segment.length - w.rest.length, { x with
      session := w.session
      rx := w.rx
      segment := w.rest
      taken := x.taken + (x.segment.length - w.rest.length)
      out := x.out ++ w.out })

def nextSegment : Conn := { x with segment := x.later.headD [], later := x.later.tail }

/-- `streamGetC`. -/
def getC : Conn :=
  if x.rx.queue.tail = x.rx.queue.head then x
  else { x with rx := { x.rx with queue := x.rx.queue.drop } }

def step : Op → Option (ℕ × Conn)
  | .call mpg => if x.segment = [] then some (0, x.nextSegment) else x.parse cfg mpg
  | .get => some (0, x.getC)

/-- A new connection. -/
def start (state : WsState) (rx : Rx) (segments : List Bytes) : Conn where
  session := { state := state }
  rx := rx
  segment := []
  later := segments

end Conn

section Places

/-- The frame that a byte is in, and the place of the byte. -/
def locate : List Frame → ℕ → Option (Frame × ℕ)
  | [], _ => none
  | f :: fs, k => if k < f.bytes.length then some (f, k) else locate fs (k - f.bytes.length)

/-- The frames that are complete with a number of bytes. -/
def complete : List Frame → ℕ → List Frame
  | [], _ => []
  | f :: fs, k => if f.bytes.length ≤ k then f :: complete fs (k - f.bytes.length) else []

variable {cfg : Config} {o : ℕ} {h : Header}

/-- A place in the first of some frames, with the header for it. -/
def AtPlace (cfg : Config) (o : ℕ) (h : Header) : List Frame → Prop
  | [] => o = 0
  | f :: _ => o < f.bytes.length ∧ f.Within cfg o h

theorem atPlace_start (cfg : Config) (fs : List Frame) : AtPlace cfg 0 {} fs := by
  cases fs with
  | nil => exact rfl
  | cons f fs =>
    have hpos : 0 < f.header.length := by
      rw [f.length_header]
      split_ifs <;> decide
    refine ⟨by rw [f.length_bytes]; omega, ?_⟩
    rw [Frame.Within, if_pos hpos.le, Frame.headerAt, if_pos hpos]
    rfl

theorem locate_append (done : List Frame) (f : Frame) (fs : List Frame) (ho : o < f.bytes.length) :
    locate (done ++ f :: fs) ((done.flatMap Frame.bytes).length + o) = some (f, o) := by
  induction done with
  | nil =>
    rw [List.flatMap_nil, List.length_nil, Nat.zero_add]
    exact if_pos ho
  | cons g done ih =>
    rw [List.flatMap_cons, List.length_append, Nat.add_assoc, List.cons_append, locate,
      if_neg (by omega), Nat.add_sub_cancel_left]
    exact ih

theorem complete_append (done : List Frame) {fs : List Frame} (hplace : AtPlace cfg o h fs) :
    complete (done ++ fs) ((done.flatMap Frame.bytes).length + o) = done := by
  induction done with
  | nil =>
    rw [List.flatMap_nil, List.length_nil, Nat.zero_add, List.nil_append]
    cases fs with
    | nil => rfl
    | cons f fs => exact if_neg (not_le.mpr hplace.1)
  | cons g done ih =>
    rw [List.flatMap_cons, List.length_append, Nat.add_assoc, List.cons_append, complete,
      if_pos (Nat.le_add_right _ _), Nat.add_sub_cancel_left, ih]

end Places

namespace Conn

variable (cfg : Config) (frames : List Frame) (x : Conn)

/-- What has been given to others is what the frames lead to that are complete. -/
def Decoded : Prop :=
  ∃ outs : List (List Output), x.out = outs.flatten ∧
    List.Forall₂ (fun f out => f.Answered cfg out) (complete frames x.taken) outs

/-- A call with a byte left takes one or pends on a full receive buffer. -/
def Good : Op → ℕ → Conn → Prop
  | .call _, n, x' => (x.segment ≠ [] → 0 < n ∨ x'.rx.overflow = true) ∧ x'.Decoded cfg frames
  | .get, _, x' => x'.Decoded cfg frames

/-- The parser is called for what suits the frame that the next byte is in. -/
def Meets : Op → Prop
  | .call mpg =>
    match locate frames x.taken with
    | some (f, o) => x.segment ≠ [] → f.Suits cfg mpg x.session o x.segment.length
    | none => True
  | .get => True

instance (op : Op) : Decidable (Meets cfg frames x op) :=
  match op with
  | .call mpg =>
    match h : locate frames x.taken with
    | some (f, o) =>
      decidable_of_iff (x.segment ≠ [] → f.Suits cfg mpg x.session o x.segment.length)
        (by rw [Meets, h])
    | none => isTrue (by rw [Meets, h]; trivial)
  | .get => inferInstanceAs (Decidable True)

/-- A run decodes some frames. -/
def Decodes (ops : List Op) : Prop := Transition.Fine (step cfg) (Good cfg frames) x ops

/-- What every operation preserves. -/
structure Track (x : Conn) : Prop where
  clean : Clean x.session
  place : ∃ done fs o outs, frames = done ++ fs ∧
    x.taken = (done.flatMap Frame.bytes).length + o ∧
    x.segment ++ x.later.flatten = (fs.flatMap Frame.bytes).drop o ∧
    AtPlace cfg o x.session.header fs ∧ x.out = outs.flatten ∧
    List.Forall₂ (fun f out => f.Answered cfg out) done outs

variable {cfg frames x}

/-- A call has decoded what is complete. -/
theorem Track.decoded (h : Track cfg frames x) : x.Decoded cfg frames := by
  obtain ⟨done, fs, o, outs, hframes, htaken, -, hplace, hout, hanswer⟩ := h.place
  refine ⟨outs, hout, ?_⟩
  rwa [hframes, htaken, complete_append done hplace]

theorem Track.getC (h : Track cfg frames x) : Track cfg frames x.getC := by
  rw [Conn.getC]
  split_ifs
  · exact h
  · exact ⟨h.clean, h.place⟩

theorem Track.nextSegment (h : Track cfg frames x) (hnil : x.segment = []) :
    Track cfg frames x.nextSegment := by
  obtain ⟨done, fs, o, outs, hframes, htaken, hrest, hplace, hout, hanswer⟩ := h.place
  refine ⟨h.clean, done, fs, o, outs, hframes, htaken, ?_, hplace, hout, hanswer⟩
  rw [← hrest, hnil]
  cases hlater : x.later with
  | nil => simp [Conn.nextSegment, hlater]
  | cons l ls => simp [Conn.nextSegment, hlater]

/-- A call of the parser with a byte left. -/
theorem Track.parse (h : Track cfg frames x) {mpg : Bool} (hne : x.segment ≠ [])
    (hmeets : x.Meets cfg frames (.call mpg)) :
    ∃ n x', x.parse cfg mpg = some (n, x') ∧ (0 < n ∨ x'.rx.overflow = true) ∧
      Track cfg frames x' := by
  obtain ⟨done, fs, o, outs, hframes, htaken, hrest, hplace, hout, hanswer⟩ := h.place
  cases fs with
  | nil =>
    rw [List.flatMap_nil, List.drop_nil] at hrest
    exact absurd (List.append_eq_nil_iff.mp hrest).1 hne
  | cons f fs =>
    obtain ⟨hlt, hwithin⟩ := hplace
    have hlocate : locate frames x.taken = some (f, o) := by
      rw [hframes, htaken, locate_append done f fs hlt]
    rw [Meets, hlocate] at hmeets
    rw [List.flatMap_cons, List.drop_append_of_le_length hlt.le] at hrest
    have hparsed := Frame.parsed x.rx hwithin h.clean hne hlt hrest (hmeets hne)
    rw [Conn.parse]
    generalize msgParse cfg mpg x.session x.rx x.segment = r at hparsed ⊢
    cases hparsed with
    | continues q w hle hlt' hrest' hheader hclean hnil hprogress =>
      have hq : x.segment.length - w.rest.length = q := by
        rw [hrest', List.length_drop]
        omega
      refine ⟨_, _, rfl, hprogress.imp_left fun hpos => hq ▸ hpos, hclean, done, f :: fs, o + q,
        outs, hframes, ?_, ?_, ⟨hlt', hheader⟩, ?_, hanswer⟩
      · rw [hq, htaken, Nat.add_assoc]
      · have hdrop := congrArg (List.drop q) hrest
        rw [List.drop_append_of_le_length hle, List.drop_append_of_le_length (by
          rw [List.length_drop]
          omega), List.drop_drop] at hdrop
        rw [hrest', hdrop, List.flatMap_cons, List.drop_append_of_le_length hlt'.le]
      · rw [hnil, List.append_nil, hout]
    | done w hle hrest' hheader hclean hout' =>
      have hq : x.segment.length - w.rest.length = f.bytes.length - o := by
        rw [hrest', List.length_drop]
        omega
      refine ⟨_, _, rfl, .inl (hq ▸ Nat.sub_pos_of_lt hlt), hclean, done ++ [f], fs, 0,
        outs ++ [w.out], ?_, ?_, ?_, ?_, ?_, ?_⟩
      · rw [hframes, List.append_assoc, List.singleton_append]
      · have hplace : x.taken + (x.segment.length - w.rest.length) =
            (done.flatMap Frame.bytes).length + f.bytes.length := by omega
        rw [List.flatMap_append, List.length_append, List.flatMap_singleton]
        exact hplace
      · have hdrop := congrArg (List.drop (f.bytes.length - o)) hrest
        rw [List.drop_append_of_le_length hle, List.drop_append_of_le_length (by
          rw [List.length_drop]), List.drop_drop, Nat.add_sub_cancel' hlt.le,
          List.drop_length, List.nil_append] at hdrop
        rw [hrest', hdrop, List.drop_zero]
      · rw [hheader]
        exact atPlace_start cfg fs
      · rw [hout, List.flatten_append, List.flatten_singleton]
      · exact List.rel_append hanswer (.cons hout' .nil)

/-- What an operation does when its condition is met. -/
theorem Track.step (h : Track cfg frames x) {op : Op} (hmeets : x.Meets cfg frames op) :
    ∃ n x', x.step cfg op = some (n, x') ∧ x.Good cfg frames op n x' ∧ Track cfg frames x' := by
  cases op with
  | call mpg =>
    by_cases hnil : x.segment = []
    · have hnext := h.nextSegment hnil
      exact ⟨0, _, if_pos hnil, ⟨fun hne => absurd hnil hne, hnext.decoded⟩, hnext⟩
    · obtain ⟨n, x', hparse, hprogress, htrack⟩ := h.parse hnil hmeets
      exact ⟨n, x', (if_neg hnil).trans hparse, ⟨fun _ => hprogress, htrack.decoded⟩, htrack⟩
  | get => exact ⟨0, _, rfl, h.getC.decoded, h.getC⟩

theorem track_start (cfg : Config) (state : WsState) (rx : Rx) {segments : List Bytes}
    (hsegments : segments.flatten = frames.flatMap Frame.bytes) :
    Track cfg frames (start state rx segments) :=
  ⟨⟨rfl, rfl⟩, [], frames, 0, [], rfl, rfl, hsegments, atPlace_start cfg frames, rfl, .nil⟩

/-- A run in which every call suits the frame that it works on decodes the frames. -/
theorem decodes (cfg : Config) (frames : List Frame) (state : WsState) (rx : Rx)
    {segments : List Bytes} (hsegments : segments.flatten = frames.flatMap Frame.bytes)
    {ops : List Op}
    (h : Transition.Guarded (step cfg) (Meets cfg frames) (start state rx segments) ops) :
    (start state rx segments).Decodes cfg frames ops :=
  Transition.fine_of_guarded (fun _ _ htrack hmeets => htrack.step hmeets)
    (track_start cfg state rx hsegments) h

section Texts

/-- A text of two bytes. -/
def twoBytes : Frame := ⟨.text, [1, 2, 3, 4], [0x68, 0x69], rfl, by decide⟩

/-- The text with a handler, in two segments, the first of which ends in the header, and a ping. -/
theorem decodes_twoBytes :
    (start .connected ⟨⟨fun _ => 0, 0, 0⟩, false⟩
      [[0x81, 0x82, 1], [2, 3, 4, 0x69, 0x6B], [0x89, 0x81, 1, 2, 3, 4, 0x60]]).Decodes
      ⟨true, false, true, true, fun _ => false, fun _ => 0⟩
      [twoBytes, ⟨.ping, [1, 2, 3, 4], [0x61], rfl, by decide⟩]
      [.call false, .call false, .get, .call false, .call false, .call true, .call true] := by
  refine decodes _ _ _ _ ?_ ?_
  · rfl
  · decide +kernel

/-- The text in two segments, the second of which has its last byte: the first byte is written to
memory that has no room for it. -/
theorem not_decodes :
    [[0x81, 0x82, 1, 2, 3, 4, 0x69], [0x6B]].flatten = twoBytes.bytes ∧
      ¬(start .connected ⟨⟨fun _ => 0, 0, 0⟩, false⟩
        [[0x81, 0x82, 1, 2, 3, 4, 0x69], [0x6B]]).Decodes
        ⟨true, false, true, true, fun _ => false, fun _ => 0⟩
        [twoBytes] [.call false, .call false] := by
  refine ⟨by decide +kernel, ?_⟩
  rintro ⟨n, x, hnext, -, m, y, hparse, -⟩
  cases hnext
  exact absurd (Option.isSome_of_eq_some hparse) (by decide +kernel)

end Texts

end Conn

end Websocket

end Inspector
