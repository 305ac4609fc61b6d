import Inspector.Websocket.Frames

/-! # The processing of a frame

A call of the parser works on one frame. What it gets of the frame suits the parser if nothing goes
wrong with it: then the part of the frame is taken, and a frame that is complete is answered.
-/

namespace Inspector

namespace Websocket

/-- A session between two calls. -/
structure Clean (s : Session) : Prop where
  payload : s.payload = .null
  fragment : s.fragmentOpcode = opContinuation

namespace Frame

variable (f : Frame)

/-- The frame that answers a ping. -/
def pongBytes : Bytes :=
  0x8A ::
    ((if f.payload.length < 126 then [UInt8.ofNat f.payload.length]
      else [126, UInt8.ofNat (f.payload.length / 256), UInt8.ofNat (f.payload.length % 256)]) ++
    f.payload)

/-- A frame is passed to a handler. -/
def Handled (cfg : Config) : Prop :=
  f.kind = .text ∧ cfg.onTxt = true ∨ f.kind = .binary ∧ cfg.onBin = true

instance (cfg : Config) : Decidable (f.Handled cfg) := inferInstanceAs (Decidable (_ ∨ _))

/-- What a frame is to lead to. What answers a close frame is left open. -/
def Answered (cfg : Config) (out : List Output) : Prop :=
  match f.kind with
  | .text | .binary =>
    out = if f.Handled cfg then [.received (decide (f.kind = .binary)) f.payload] else []
  | .ping => out = [.tcpWrite f.pongBytes]
  | .close => ∃ data, out = [.tcpWrite data]
  | .pong => out = []

/-- What a part of the payload has to be like, from a place on and with a number of bytes. -/
def SuitsPart (cfg : Config) (mpg : Bool) (s : Session) (p n : ℕ) : Prop :=
  match f.kind with
  | .text | .binary =>
    f.payload ≠ [] ∧
      if f.Handled cfg then p = 0 ∧ n = f.payload.length
      else s.collectPayload = false ∧
        if cfg.isStream ∧ cfg.streamConnected then s.state = .connected ∧ mpg = false
        else n ≤ f.payload.length - p
  | .ping => s.state ≠ .closing ∧ p = 0 ∧ f.payload.length ≤ n
  | .close =>
    p = 0 ∧ f.payload.length ≤ n ∨ 2 * min n (f.payload.length - p) ≤ f.payload.length - p + 1
  | .pong => True

/-- What a segment has to be like for the frame that its first byte is in, at a place of the frame
and with a number of bytes: it ends with the header or before it, or what follows suits. -/
def Suits (cfg : Config) (mpg : Bool) (s : Session) (o n : ℕ) : Prop :=
  n < f.header.length - o ∨ n = f.header.length - o ∧ f.payload ≠ [] ∨
    f.SuitsPart cfg mpg s (o - f.header.length) (n - (f.header.length - o))

instance (cfg : Config) (mpg : Bool) (s : Session) (p n : ℕ) :
    ∀ f : Frame, Decidable (f.SuitsPart cfg mpg s p n)
  | ⟨.text, _, _, _, _⟩ => inferInstanceAs (Decidable (_ ∧ _))
  | ⟨.binary, _, _, _, _⟩ => inferInstanceAs (Decidable (_ ∧ _))
  | ⟨.close, _, _, _, _⟩ => inferInstanceAs (Decidable (_ ∨ _))
  | ⟨.ping, _, _, _, _⟩ => inferInstanceAs (Decidable (_ ∧ _))
  | ⟨.pong, _, _, _, _⟩ => inferInstanceAs (Decidable True)

instance (cfg : Config) (mpg : Bool) (s : Session) (o n : ℕ) :
    Decidable (f.Suits cfg mpg s o n) := inferInstanceAs (Decidable (_ ∨ _))

theorem length_bytes : f.bytes.length = f.header.length + f.payload.length := by
  rw [bytes, List.length_append, length_unmask]

/-- The header of a frame of which a part of the payload is taken. -/
structure AtPayload (cfg : Config) (p : ℕ) (h : Header) : Prop where
  eq : h = { f.collected with
    payloadRem := f.payload.length - p, rxIndex := h.rxIndex, frame := h.frame }
  fresh : p = 0 → h.rxIndex = 0 ∧ h.frame = none
  stream : cfg.isStream = true ∧ cfg.streamConnected = true → f.kind = .text ∨ f.kind = .binary →
    h.rxIndex = p
  block : f.kind = .close → 0 < p → ∃ b, h.frame = some b ∧
    b.size = f.payload.length + f.header.length

/-- The header of a frame of which some bytes are taken. -/
def Within (cfg : Config) (o : ℕ) (h : Header) : Prop :=
  if o ≤ f.header.length then h = f.headerAt o else f.AtPayload cfg (o - f.header.length) h

variable {f} {cfg : Config} {o : ℕ} {h : Header}

theorem atPayload_collected (f : Frame) (cfg : Config) : f.AtPayload cfg 0 f.collected :=
  ⟨rfl, fun _ => ⟨rfl, rfl⟩, fun _ _ => rfl, fun _ hp => absurd hp (lt_irrefl 0)⟩

/-- What a segment has of the header. -/
theorem take_header {l more tail : Bytes} (hl : l ++ more = f.bytes.drop o ++ tail) {k : ℕ}
    (hk : k ≤ f.header.length) (ho : o ≤ k) (hlen : k - o ≤ l.length) :
    l.take (k - o) = (f.header.take k).drop o := by
  have hbytes := f.length_bytes
  have htake := congrArg (List.take (k - o)) hl
  rw [List.take_append_of_le_length hlen, List.take_append_of_le_length (by
    rw [List.length_drop]
    omega)] at htake
  rw [htake, List.drop_take, bytes, List.drop_append_of_le_length (by omega),
    List.take_append_of_le_length (by
      rw [List.length_drop]
      omega)]

/-- A segment with nothing behind the header. -/
theorem Within.collect_lt (hw : f.Within cfg o h) {l more tail : Bytes}
    (hl : l ++ more = f.bytes.drop o ++ tail) (hlt : l.length < f.header.length - o) :
    h.collect l = (f.headerAt (o + l.length), []) := by
  rw [Within, if_pos (by omega)] at hw
  have htake := take_header hl (k := o + l.length) (by omega) (by omega) (by omega)
  rw [Nat.add_sub_cancel_left, List.take_length] at htake
  have hcollect := f.collect_take (o := o) (k := o + l.length) (by omega) (by omega) []
  rw [List.append_nil, ← htake] at hcollect
  rw [hw, hcollect, Header.collect]

/-- A segment with the rest of the header. -/
theorem Within.collect_ge (hw : f.Within cfg o h) {l more tail : Bytes}
    (hl : l ++ more = f.bytes.drop o ++ tail) (hge : f.header.length - o ≤ l.length) :
    ∃ h', h.collect l = (h', l.drop (f.header.length - o)) ∧
      f.AtPayload cfg (o - f.header.length) h' := by
  rw [Within] at hw
  split_ifs at hw with ho
  · have htake := take_header hl le_rfl ho hge
    have hcollect := f.collect_take le_rfl ho (l.drop (f.header.length - o))
    rw [← htake, List.take_append_drop, headerAt_length, collect_collected] at hcollect
    refine ⟨f.collected, ?_, ?_⟩
    · rw [hw, hcollect]
    · rw [Nat.sub_eq_zero_of_le ho]
      exact f.atPayload_collected cfg
  · refine ⟨h, ?_, hw⟩
    have hcomplete : h.complete = true := by rw [hw.eq]; rfl
    rw [Nat.sub_eq_zero_of_le (not_le.mp ho).le, List.drop_zero]
    cases l with
    | nil => rfl
    | cons b l => rw [Header.collect, if_pos hcomplete]

/-- A frame is to be processed, of the payload of which a part is taken. -/
structure Ready (f : Frame) (cfg : Config) (p : ℕ) (w : Work) : Prop where
  header : f.AtPayload cfg p w.session.header
  clean : Clean w.session
  out : w.out = []
  frameDone : w.frameDone = false
  place : p < f.payload.length ∧ w.rest ≠ [] ∨ f.payload = [] ∧ p = 0
  rest : ∃ more tail, w.rest ++ more = (unmask f.mask 0 f.payload).drop p ++ tail

/-- What the processing of a frame leads to: a part of the payload is taken, or all of it, and the
frame is answered. -/
inductive Processed (f : Frame) (cfg : Config) (p : ℕ) (w : Work) : Option Work → Prop
  | continues (q : ℕ) (w' : Work) (hle : q ≤ w.rest.length) (hlt : p + q < f.payload.length)
      (hrest : w'.rest = w.rest.drop q) (hheader : f.AtPayload cfg (p + q) w'.session.header)
      (hclean : Clean w'.session) (hout : w'.out = []) (hprogress : 0 < q ∨ w'.rx.overflow = true) :
      Processed f cfg p w (some w')
  | done (w' : Work) (hle : f.payload.length - p ≤ w.rest.length)
      (hrest : w'.rest = w.rest.drop (f.payload.length - p)) (hheader : w'.session.header = {})
      (hclean : Clean w'.session) (hout : f.Answered cfg w'.out) : Processed f cfg p w (some w')

section Process

variable {p q : ℕ} {w : Work} {mpg : Bool}

theorem Ready.payloadLen (h : Ready f cfg p w) : w.header.payloadLen = f.payload.length := by
  rw [Work.header, h.header.eq]
  rfl

theorem Ready.payloadRem (h : Ready f cfg p w) : w.header.payloadRem = f.payload.length - p := by
  rw [Work.header, h.header.eq]

theorem Ready.mask (h : Ready f cfg p w) : w.header.mask = f.mask := by
  rw [Work.header, h.header.eq]
  rfl

theorem Ready.idx (h : Ready f cfg p w) : w.header.idx = f.header.length := by
  rw [Work.header, h.header.eq]
  rfl

/-- The payload that is in the segment. -/
theorem Ready.take_rest (h : Ready f cfg p w) {k : ℕ} (hk : k ≤ w.rest.length)
    (hp : p + k ≤ f.payload.length) :
    w.rest.take k = ((unmask f.mask 0 f.payload).drop p).take k := by
  obtain ⟨more, tail, hrest⟩ := h.rest
  have htake := congrArg (List.take k) hrest
  rwa [List.take_append_of_le_length hk, List.take_append_of_le_length (by
    rw [List.length_drop, length_unmask]
    omega)] at htake

/-- A part of the payload is taken, and the header is changed in what is left only. -/
theorem AtPayload.advance (h : f.AtPayload cfg p w.session.header) (hq : 0 < q)
    (hstream : f.kind = .text ∨ f.kind = .binary →
      ¬(cfg.isStream = true ∧ cfg.streamConnected = true)) (hclose : f.kind ≠ .close)
    {left : ℕ} (hleft : left = f.payload.length - (p + q)) :
    f.AtPayload cfg (p + q) { w.session.header with payloadRem := left } := by
  refine ⟨?_, fun hzero => ?_, fun hs hk => absurd hs (hstream hk), fun hk => absurd hk hclose⟩
  · rw [hleft]
    conv_lhs => rw [h.eq]
  · omega

/-- A frame that is complete is given up. -/
theorem Processed.of_done {w' : Work} (hdone : w'.frameDone = true)
    (hle : f.payload.length - p ≤ w.rest.length)
    (hrest : w'.rest = w.rest.drop (f.payload.length - p)) (hclean : Clean w'.session)
    (hout : f.Answered cfg w'.out) : Processed f cfg p w w'.release := by
  have hrelease : w'.release = some (w'.setHeader {}) := by
    rw [Work.release, if_pos hdone, hclean.payload]
  rw [hrelease]
  exact .done _ hle hrest rfl ⟨hclean.payload, hclean.fragment⟩ hout

/-- A frame that is not complete is kept. -/
theorem Processed.of_continues {w' : Work} (hdone : w'.frameDone = false) (hle : q ≤ w.rest.length)
    (hlt : p + q < f.payload.length) (hrest : w'.rest = w.rest.drop q)
    (hheader : f.AtPayload cfg (p + q) w'.session.header) (hclean : Clean w'.session)
    (hout : w'.out = []) (hprogress : 0 < q ∨ w'.rx.overflow = true) :
    Processed f cfg p w w'.release := by
  have hrelease : w'.release = some w' := by
    rw [Work.release, if_neg (by rw [hdone]; exact Bool.false_ne_true)]
  rw [hrelease]
  exact .continues q w' hle hlt hrest hheader hclean hout hprogress

/-- A frame that needs more than there is of it has not been taken. -/
theorem Ready.lt_of_lt (h : Ready f cfg p w) (hlt : w.rest.length < f.payload.length - p) :
    0 < w.rest.length ∧ p + w.rest.length < f.payload.length := by
  rcases h.place with ⟨-, hne⟩ | ⟨hnil, rfl⟩
  · have hpos := List.length_pos_of_ne_nil hne
    omega
  · rw [hnil] at hlt
    exact absurd hlt (Nat.not_lt_zero _)

/-- A frame that asks for nothing. -/
theorem processed_skip (h : Ready f cfg p w) (hkind : f.kind = .pong) :
    Processed f cfg p w (w.skipFrame.release) := by
  rw [Work.skipFrame, h.payloadRem]
  split_ifs with hle
  · refine .of_done rfl hle rfl h.clean ?_
    rw [Answered, hkind]
    exact h.out
  · obtain ⟨hpos, hlt⟩ := h.lt_of_lt (not_le.mp hle)
    refine .of_continues h.frameDone le_rfl hlt List.drop_length.symm ?_ ⟨h.clean.payload,
      h.clean.fragment⟩ h.out (.inl hpos)
    refine h.header.advance hpos ?_ ?_ (Nat.sub_sub _ _ _)
    · rintro (hk | hk) <;> rw [hkind] at hk <;> cases hk
    · rw [hkind]
      exact Kind.noConfusion

/-- A control frame that is whole is not copied. -/
theorem collectMsgFrame_whole (fresh : ℕ → UInt8) {l : Bytes} (hle : h.payloadRem ≤ l.length)
    (hframe : h.frame = none) :
    h.collectMsgFrame fresh l = some { h with payloadRem := h.payloadRem - l.length } := by
  have hwhole : ¬(l.length < h.payloadRem ∧ h.payloadRem = h.payloadLen) := fun hlt =>
    absurd hlt.1 (not_lt.mpr hle)
  rw [Header.collectMsgFrame]
  simp only [if_neg hwhole, hframe]

/-- The answer to a ping that is whole. -/
theorem pong_eq (hlen : h.payloadLen = f.payload.length) (hmask : h.mask = f.mask)
    (hindex : h.rxIndex = 0) :
    Work.pong 0x89 h (unmask f.mask 0 f.payload) = f.pongBytes := by
  have hle := f.payload_le
  have hlow : f.payload.length >>> 8 = f.payload.length / 256 := Nat.shiftRight_eq_div_pow _ 8
  have hand : ∀ n : ℕ, n &&& 0xFF = n % 256 := fun n => Nat.and_two_pow_sub_one_eq_mod n 8
  have hhigh : f.payload.length / 256 % 256 = f.payload.length / 256 := by omega
  rw [Work.pong, pongBytes, hlen, hmask, hindex, unmask_unmask, hlow, hand, hand, hhigh]
  rfl

/-- A ping that is whole in the segment. -/
theorem processed_ping (h : Ready f cfg 0 w) (hkind : f.kind = .ping)
    (hstate : w.session.state ≠ .closing) (hroom : f.payload.length ≤ w.rest.length) :
    Processed f cfg 0 w ((w.pingFrame cfg 0x89).bind fun w => w.release) := by
  have hrem : w.header.payloadRem = f.payload.length := h.payloadRem
  obtain ⟨hindex, hframe⟩ := h.header.fresh rfl
  have hpart : w.part.length = f.payload.length := by
    rw [Work.part, hrem, List.length_take, min_eq_left hroom]
  have hcollect := collectMsgFrame_whole (h := w.header) cfg.fresh (l := w.part)
    (by rw [hrem, hpart]) hframe
  have hle : w.header.payloadRem ≤ w.rest.length := by rwa [hrem]
  have hframe' : w.header.frame = none := hframe
  rw [Work.pingFrame, if_pos hle, if_neg hstate, hcollect, Option.map_some, Option.bind_some]
  refine .of_done rfl hroom ?_ ⟨h.clean.payload, h.clean.fragment⟩ ?_
  · exact congrArg (List.drop · w.rest) hrem
  · rw [Answered, hkind]
    have htake : w.rest.take f.payload.length = unmask f.mask 0 f.payload := by
      rw [h.take_rest hroom (Nat.zero_add _).le, List.drop_zero, List.take_of_length_le]
      rw [length_unmask]
    have hlen := h.payloadLen
    simp only [hframe', hlen, Option.elim_none, htake]
    exact congrArg (fun data => [Output.tcpWrite data]) (pong_eq rfl h.mask hindex)

theorem write_of_le {b : Block} {i : ℕ} {l : Bytes} (hle : i + l.length ≤ b.size) :
    ∃ b', b.write i l = some b' ∧ b'.size = b.size :=
  ⟨_, if_pos hle, rfl⟩

/-- A part of a control frame is copied, to the place of its last byte. -/
theorem collectMsgFrame_part (fresh : ℕ → UInt8) {l : Bytes} (hidx : 0 < h.idx)
    (hle : l.length ≤ h.payloadRem) (hrem : h.payloadRem ≤ h.payloadLen)
    (hframe : l.length < h.payloadRem ∧ h.payloadRem = h.payloadLen ∨
      ∃ b, h.frame = some b ∧ b.size = h.payloadLen + h.idx)
    (hfits : 2 * l.length ≤ h.payloadRem + 1) :
    ∃ b, b.size = h.payloadLen + h.idx ∧ h.collectMsgFrame fresh l =
      some { h with payloadRem := h.payloadRem - l.length, frame := some b } := by
  -- The block that is there after the allocation.
  obtain ⟨b, hb, hsize⟩ : ∃ b, (if l.length < h.payloadRem ∧ h.payloadRem = h.payloadLen then
      { h with frame := some ⟨h.payloadLen + h.idx, fun k => h.data.getD k (fresh k)⟩ } else h) =
      { h with frame := some b } ∧ b.size = h.payloadLen + h.idx := by
    by_cases hnew : l.length < h.payloadRem ∧ h.payloadRem = h.payloadLen
    · exact ⟨_, if_pos hnew, rfl⟩
    · obtain ⟨b, hb, hsize⟩ := hframe.resolve_left hnew
      refine ⟨b, ?_, hsize⟩
      rw [if_neg hnew, ← hb]
  obtain ⟨b', hwrite, hsize'⟩ := write_of_le (b := b) (l := l)
    (i := h.idx + h.payloadLen - (h.payloadRem - l.length) - 1) (by omega)
  refine ⟨b', hsize'.trans hsize, ?_⟩
  rw [Header.collectMsgFrame]
  simp only [hb]
  exact congrArg (Option.map fun b' : Block =>
    { h with payloadRem := h.payloadRem - l.length, frame := some b' }) hwrite

/-- The copy of a close frame of which a part is taken. -/
theorem Ready.block (h : Ready f cfg p w) (hkind : f.kind = .close) (hp : 0 < p) :
    ∃ b, w.header.frame = some b ∧ b.size = w.header.payloadLen + w.header.idx := by
  rw [h.payloadLen, h.idx]
  exact h.header.block hkind hp

/-- A close frame, which may be split when the copy of it fits. -/
theorem processed_close (h : Ready f cfg p w) (hkind : f.kind = .close)
    (hsuits : p = 0 ∧ f.payload.length ≤ w.rest.length ∨
      2 * min w.rest.length (f.payload.length - p) ≤ f.payload.length - p + 1) :
    Processed f cfg p w ((w.closeFrame cfg).bind fun w => w.release) := by
  have hlen := h.payloadLen
  have hrem := h.payloadRem
  have hremle : w.header.payloadRem ≤ w.header.payloadLen := by omega
  have hpos : 0 < w.header.idx := by
    rw [h.idx, f.length_header]
    split_ifs <;> omega
  rw [Work.closeFrame]
  by_cases hle : w.header.payloadRem ≤ w.rest.length
  · obtain ⟨h', hcollect⟩ : ∃ h', w.header.collectMsgFrame cfg.fresh w.part = some h' := by
      have hpart : w.part.length = w.header.payloadRem := by
        rw [Work.part, List.length_take, min_eq_left hle]
      rcases Nat.eq_zero_or_pos p with rfl | hp
      · exact ⟨_, collectMsgFrame_whole cfg.fresh hpart.ge (h.header.fresh rfl).2⟩
      · have hfits : 2 * w.part.length ≤ w.header.payloadRem + 1 := by omega
        obtain ⟨b, -, hcollect⟩ := collectMsgFrame_part cfg.fresh hpos hpart.le hremle
          (.inr (h.block hkind hp)) hfits
        exact ⟨_, hcollect⟩
    rw [if_pos hle, hcollect, Option.map_some, Option.bind_some]
    refine .of_done rfl (hrem ▸ hle) ?_ ⟨h.clean.payload, h.clean.fragment⟩ ?_
    · exact congrArg (List.drop · w.rest) hrem
    · rw [Answered, hkind]
      exact ⟨_, rfl⟩
  · obtain ⟨hrest, hlt⟩ := h.lt_of_lt (by omega)
    have hfits : 2 * w.rest.length ≤ w.header.payloadRem + 1 := by omega
    have hleft : w.header.payloadRem - w.rest.length = f.payload.length - (p + w.rest.length) := by
      omega
    have hframe : w.rest.length < w.header.payloadRem ∧ w.header.payloadRem = w.header.payloadLen ∨
        ∃ b, w.header.frame = some b ∧ b.size = w.header.payloadLen + w.header.idx := by
      rcases Nat.eq_zero_or_pos p with rfl | hp
      · exact .inl ⟨not_le.mp hle, by omega⟩
      · exact .inr (h.block hkind hp)
    obtain ⟨b, hsize, hcollect⟩ := collectMsgFrame_part cfg.fresh hpos (not_le.mp hle).le hremle
      hframe hfits
    rw [if_neg hle, hcollect, Option.map_some, Option.bind_some, hleft]
    refine .of_continues h.frameDone le_rfl hlt List.drop_length.symm ?_ ⟨h.clean.payload,
      h.clean.fragment⟩ h.out (.inl hrest)
    refine ⟨?_, fun hzero => ?_, fun _ hk => ?_, fun _ _ => ⟨b, rfl, ?_⟩⟩
    · exact congrArg (fun h : Header => { h with
        payloadRem := f.payload.length - (p + w.rest.length), frame := some b }) h.header.eq
    · exact absurd (Nat.add_eq_zero_iff.mp hzero).2 hrest.ne'
    · rcases hk with hk | hk <;> rw [hkind] at hk <;> cases hk
    · rw [hsize, hlen, h.idx]

/-- The only fragment of a data frame. -/
theorem Ready.dataFrame (h : Ready f cfg p w) (mpg : Bool) {isBinary : Bool} {w' : Work}
    (hw' : (if w.header.payloadRem = w.header.payloadLen ∧ Work.handled cfg isBinary then
      w.allocate cfg isBinary else w) = w') :
    w.dataFrame cfg mpg isBinary true =
      if w'.header.payloadRem = 0 then some w'
      else if w'.session.collectPayload then
        if w'.frameDone then w'.deliver isBinary
        else (w'.copyPart isBinary).bind fun w => w.deliver isBinary
      else if cfg.isStream ∧ cfg.streamConnected then some (w'.push cfg mpg)
      else some w'.sink := by
  have hfin : { w with session := { w.session with fragmentOpcode := opContinuation } } = w := by
    conv_lhs => rw [← h.clean.fragment]
  subst hw'
  rw [Work.dataFrame]
  simp only [if_true, hfin]

/-- A frame that is passed to its handler. -/
theorem processed_handled (h : Ready f cfg 0 w) (isBinary : Bool)
    (hkind : f.kind = if isBinary then .binary else .text)
    (hhandled : Work.handled cfg isBinary = true) (hne : f.payload ≠ [])
    (hroom : w.rest.length = f.payload.length) :
    Processed f cfg 0 w ((w.dataFrame cfg mpg isBinary true).bind fun w => w.release) := by
  have hlen := h.payloadLen
  have hrem : w.header.payloadRem = f.payload.length := h.payloadRem
  have hpos : 0 < f.payload.length := List.length_pos_of_ne_nil hne
  have hallocate : w.allocate cfg isBinary = { w with
      frameDone := true
      session := { w.session with collectPayload := true, payload := .segment } } :=
    if_pos (by rw [hlen, hroom])
  have htake : unmask w.header.mask 0 (w.rest.take w.header.payloadLen) = f.payload := by
    rw [hlen, h.mask, h.take_rest hroom.ge (Nat.zero_add _).le, List.drop_zero,
      List.take_of_length_le (by rw [length_unmask]), unmask_unmask]
  have hanswer : f.Answered cfg
      [.received isBinary (unmask w.header.mask 0 (w.rest.take w.header.payloadLen))] := by
    rw [htake]
    cases isBinary <;> simp_all [Answered, Handled, Work.handled]
  have hdata : w.dataFrame cfg mpg isBinary true = Work.deliver { w with
      frameDone := true
      session := { w.session with collectPayload := true, payload := .segment } } isBinary :=
    (h.dataFrame mpg ((if_pos ⟨hrem.trans hlen.symm, hhandled⟩).trans hallocate)).trans <|
      (if_neg (hrem.trans_ne hpos.ne')).trans <| (if_pos rfl).trans <| if_pos rfl
  rw [hdata, Work.deliver, if_pos rfl, Option.bind_some]
  exact .of_done rfl hroom.ge (List.drop_eq_nil_of_le hroom.le).symm ⟨rfl, h.clean.fragment⟩ hanswer

/-- A frame that has no handler leads to nothing. -/
theorem answered_nil {isBinary : Bool} (hkind : f.kind = if isBinary then .binary else .text)
    (hhandled : ¬Work.handled cfg isBinary = true) : f.Answered cfg [] := by
  cases isBinary <;> simp_all [Answered, Handled, Work.handled]

/-- A frame that has no handler is put into the receive buffer, or there is no client. -/
theorem Ready.dataFrame_unhandled (h : Ready f cfg p w) (mpg : Bool) {isBinary : Bool}
    (hhandled : ¬Work.handled cfg isBinary = true) (hlt : p < f.payload.length)
    (hcollect : w.session.collectPayload = false) :
    w.dataFrame cfg mpg isBinary true =
      if cfg.isStream ∧ cfg.streamConnected then some (w.push cfg mpg) else some w.sink := by
  rw [h.dataFrame mpg (if_neg fun hh => hhandled hh.2), h.payloadRem,
    if_neg (Nat.sub_pos_of_lt hlt).ne', hcollect, if_neg Bool.false_ne_true]

/-- A part of a frame is taken that has no handler. -/
theorem Processed.of_taken {w' : Work} (hq : q ≤ w.rest.length) (hle : p + q ≤ f.payload.length)
    (hdone : w'.frameDone = decide (f.payload.length - (p + q) = 0))
    (hrest : w'.rest = w.rest.drop q) (hheader : f.AtPayload cfg (p + q) w'.session.header)
    (hclean : Clean w'.session) (hout : w'.out = []) (hanswer : f.Answered cfg [])
    (hprogress : 0 < q ∨ w'.rx.overflow = true) : Processed f cfg p w w'.release := by
  by_cases hall : f.payload.length - (p + q) = 0
  · have hq' : f.payload.length - p = q := by omega
    refine .of_done (hdone.trans (decide_eq_true hall)) (hq' ▸ hq) (hq' ▸ hrest) hclean ?_
    rwa [hout]
  · exact .of_continues (hdone.trans (decide_eq_false hall)) hq (by omega) hrest hheader hclean hout
      hprogress

/-- A data frame when there is no client. -/
theorem processed_sink (h : Ready f cfg p w) (hlt : p < f.payload.length) (hrest : w.rest ≠ [])
    (hkind : f.kind = .text ∨ f.kind = .binary) (hanswer : f.Answered cfg [])
    (hstream : ¬(cfg.isStream = true ∧ cfg.streamConnected = true))
    (hroom : w.rest.length ≤ f.payload.length - p) : Processed f cfg p w w.sink.release := by
  have hpos := List.length_pos_of_ne_nil hrest
  have hpart : w.part.length = w.rest.length := by
    rw [Work.part, h.payloadRem, List.length_take, min_eq_right hroom]
  have hleft : w.header.payloadRem - w.part.length = f.payload.length - (p + w.rest.length) := by
    rw [h.payloadRem, hpart, Nat.sub_sub]
  refine .of_taken le_rfl (by omega) (congrArg (fun n => decide (n = 0)) hleft)
    List.drop_length.symm ?_ ⟨h.clean.payload, h.clean.fragment⟩ h.out hanswer (.inl hpos)
  refine h.header.advance hpos (fun _ => hstream) ?_ hleft
  rcases hkind with hkind | hkind <;> rw [hkind] <;> exact Kind.noConfusion

section Stream

/-- A character that is not taken is one that the buffer has no room for. -/
theorem rxPutC_connected (cfg : Config) (rx : Rx) (c : UInt8) :
    (rxPutC cfg false .connected rx c).1 = true ∨
      (rxPutC cfg false .connected rx c).2.overflow = true := by
  rw [rxPutC, if_pos ⟨rfl, rfl⟩]
  split_ifs
  · exact .inl rfl
  · exact .inr rfl
  · exact .inl rfl

/-- Characters are put into the buffer until there is no room. -/
theorem pushData_connected (cfg : Config) (mask : Bytes) (i : ℕ) (l : Bytes) (rx : Rx) :
    (pushData (rxPutC cfg false .connected) mask i l rx).1 ≤ l.length ∧
      ((pushData (rxPutC cfg false .connected) mask i l rx).1 = l.length ∨
        (pushData (rxPutC cfg false .connected) mask i l rx).2.overflow = true) := by
  induction l generalizing i rx with
  | nil => exact ⟨le_rfl, .inl rfl⟩
  | cons b l ih =>
    rw [pushData]
    simp only [List.length_cons]
    rcases rxPutC_connected cfg rx (b ^^^ mask.getD (i % 4) 0) with hput | hput
    · obtain ⟨hle, hend⟩ :=
        ih (i + 1) (rxPutC cfg false .connected rx (b ^^^ mask.getD (i % 4) 0)).2
      rw [if_pos hput]
      exact ⟨Nat.succ_le_succ hle, hend.imp_left fun h => congrArg (· + 1) h⟩
    · split_ifs
      · obtain ⟨hle, hend⟩ :=
          ih (i + 1) (rxPutC cfg false .connected rx (b ^^^ mask.getD (i % 4) 0)).2
        exact ⟨Nat.succ_le_succ hle, hend.imp_left fun h => congrArg (· + 1) h⟩
      · exact ⟨Nat.zero_le _, .inr hput⟩

/-- A data frame for the stream. -/
theorem processed_push (h : Ready f cfg p w) (hlt : p < f.payload.length) (hrest : w.rest ≠ [])
    (hkind : f.kind = .text ∨ f.kind = .binary) (hanswer : f.Answered cfg [])
    (hstream : cfg.isStream = true ∧ cfg.streamConnected = true)
    (hstate : w.session.state = .connected) :
    Processed f cfg p w (w.push cfg false).release := by
  have hindex : w.header.rxIndex = p := h.header.stream hstream hkind
  have hlen := h.payloadLen
  have hpart : w.part.length = min (f.payload.length - p) w.rest.length := by
    rw [Work.part, h.payloadRem, List.length_take]
  have hpos := List.length_pos_of_ne_nil hrest
  obtain ⟨hle, hend⟩ := pushData_connected cfg w.header.mask w.header.rxIndex w.part
    { w.rx with overflow := false }
  rw [Work.push, hstate]
  generalize pushData (rxPutC cfg false .connected) w.header.mask w.header.rxIndex w.part
    { w.rx with overflow := false } = r at hle hend ⊢
  have hleft : w.header.payloadLen - (w.header.rxIndex + r.1) = f.payload.length - (p + r.1) := by
    rw [hlen, hindex]
  refine .of_taken (q := r.1) (by omega) (by omega) (congrArg (fun n => decide (n = 0)) hleft) rfl
    ⟨?_, fun hzero => ⟨?_, ?_⟩, fun _ _ => ?_, fun hclose _ => ?_⟩
    ⟨h.clean.payload, h.clean.fragment⟩ h.out hanswer (hend.imp_left fun hall => by omega)
  · refine (congrArg (fun h : Header => { h with
      rxIndex := w.header.rxIndex + r.1
      payloadRem := w.header.payloadLen - (w.header.rxIndex + r.1) }) h.header.eq).trans ?_
    rw [hleft]
    rfl
  · exact (congrArg (· + r.1) hindex).trans hzero
  · exact (h.header.fresh (Nat.add_eq_zero_iff.mp hzero).1).2
  · exact congrArg (· + r.1) hindex
  · rcases hkind with hkind | hkind <;> rw [hkind] at hclose <;> cases hclose

end Stream

/-- The token and the opcode of a frame that is not a fragment. -/
theorem token_and (k : Kind) : (0x80 ||| k.opcode) &&& 0x80 ≠ 0 ∧
    (0x80 ||| k.opcode) &&& 0x0F = k.opcode ∧ k.opcode ≠ opContinuation := by
  cases k <;> decide

/-- A data frame that a part suits. -/
theorem processed_data (h : Ready f cfg p w) (isBinary : Bool)
    (hkind : f.kind = if isBinary then .binary else .text)
    (hsuits : f.SuitsPart cfg mpg w.session p w.rest.length) :
    Processed f cfg p w ((w.dataFrame cfg mpg isBinary true).bind fun w => w.release) := by
  have hkind' : f.kind = .text ∨ f.kind = .binary := by
    rw [hkind]
    cases isBinary
    · exact .inl rfl
    · exact .inr rfl
  have hiff : f.Handled cfg ↔ Work.handled cfg isBinary = true := by
    cases isBinary <;> simp_all [Handled, Work.handled]
  obtain ⟨hne, hpart⟩ : f.payload ≠ [] ∧
      if f.Handled cfg then p = 0 ∧ w.rest.length = f.payload.length
      else w.session.collectPayload = false ∧
        if cfg.isStream ∧ cfg.streamConnected then w.session.state = .connected ∧ mpg = false
        else w.rest.length ≤ f.payload.length - p := by
    rcases hkind' with hk | hk <;> rwa [SuitsPart, hk] at hsuits
  by_cases hhandled : f.Handled cfg
  · rw [if_pos hhandled] at hpart
    obtain ⟨rfl, hroom⟩ := hpart
    exact processed_handled h isBinary hkind (hiff.mp hhandled) hne hroom
  · rw [if_neg hhandled] at hpart
    obtain ⟨hcollect, hpart⟩ := hpart
    obtain ⟨hlt, hrest⟩ := h.place.resolve_right fun hnil => hne hnil.1
    have hunhandled := hiff.not.mp hhandled
    have hanswer := answered_nil hkind hunhandled
    rw [h.dataFrame_unhandled mpg hunhandled hlt hcollect]
    split_ifs at hpart ⊢ with hstream
    · obtain ⟨hstate, rfl⟩ := hpart
      exact processed_push h hlt hrest hkind' hanswer hstream hstate
    · exact processed_sink h hlt hrest hkind' hanswer hstream hpart

/-- A frame that a part suits. -/
theorem processed (h : Ready f cfg p w) (hsuits : f.SuitsPart cfg mpg w.session p w.rest.length) :
    Processed f cfg p w ((w.process cfg mpg).bind fun w => w.release) := by
  have htoken : w.header.byte 0 = 0x80 ||| f.kind.opcode := by
    rw [Work.header, h.header.eq]
    rfl
  obtain ⟨hfin, hlow, hne⟩ := token_and f.kind
  have hkeep : w.keepOpcode (0x80 ||| f.kind.opcode) = w := if_neg fun hk => hfin hk.1
  have hopcode : w.opcode (0x80 ||| f.kind.opcode) = f.kind.opcode := by
    rw [Work.opcode, hlow, if_neg hne]
  rw [Work.process, htoken]
  simp only [hkeep, hopcode, if_neg hne, decide_eq_true hfin]
  cases hkind : f.kind with
  | text => exact processed_data h false hkind hsuits
  | binary => exact processed_data h true hkind hsuits
  | close =>
    refine processed_close h hkind ?_
    rwa [SuitsPart, hkind] at hsuits
  | ping =>
    rw [SuitsPart, hkind] at hsuits
    obtain ⟨hstate, rfl, hroom⟩ := hsuits
    exact processed_ping h hkind hstate hroom
  | pong => exact processed_skip h hkind

end Process

/-- What a call of the parser leads to, for the frame that its first byte is in. -/
inductive Parsed (f : Frame) (cfg : Config) (o : ℕ) (l : Bytes) : Option Work → Prop
  | continues (q : ℕ) (w : Work) (hle : q ≤ l.length) (hlt : o + q < f.bytes.length)
      (hrest : w.rest = l.drop q) (hheader : f.Within cfg (o + q) w.session.header)
      (hclean : Clean w.session) (hout : w.out = []) (hprogress : 0 < q ∨ w.rx.overflow = true) :
      Parsed f cfg o l (some w)
  | done (w : Work) (hle : f.bytes.length - o ≤ l.length)
      (hrest : w.rest = l.drop (f.bytes.length - o)) (hheader : w.session.header = {})
      (hclean : Clean w.session) (hout : f.Answered cfg w.out) : Parsed f cfg o l (some w)

section Parse

variable {s : Session} {l more tail : Bytes} {mpg : Bool}

theorem AtPayload.within {p : ℕ} (h' : f.AtPayload cfg p h) :
    f.Within cfg (f.header.length + p) h := by
  rw [Within]
  split_ifs with hp
  · obtain rfl : p = 0 := by omega
    obtain ⟨hindex, hframe⟩ := h'.fresh rfl
    rw [Nat.add_zero, headerAt_length, h'.eq, hindex, hframe]
    rfl
  · rwa [Nat.add_sub_cancel_left]

/-- What is behind the header in a segment. -/
theorem drop_header (hl : l ++ more = f.bytes.drop o ++ tail)
    (hle : f.header.length - o ≤ l.length) :
    l.drop (f.header.length - o) ++ more =
      (unmask f.mask 0 f.payload).drop (o - f.header.length) ++ tail := by
  have hbytes := f.length_bytes
  have hdrop := congrArg (List.drop (f.header.length - o)) hl
  rw [List.drop_append_of_le_length hle, List.drop_append_of_le_length (by
    rw [List.length_drop]
    omega), List.drop_drop] at hdrop
  have hplace : o + (f.header.length - o) = f.header.length + (o - f.header.length) := by omega
  rw [hdrop, hplace, bytes, List.drop_append]
  simp

/-- What a call processes. -/
theorem Processed.parsed (hlt : o < f.bytes.length) (hle : f.header.length - o ≤ l.length)
    {w : Work} (hrest : w.rest = l.drop (f.header.length - o)) {r : Option Work}
    (h : Processed f cfg (o - f.header.length) w r) : Parsed f cfg o l r := by
  have hbytes := f.length_bytes
  have hlength : w.rest.length = l.length - (f.header.length - o) := by rw [hrest, List.length_drop]
  cases h with
  | continues q w' hle' hlt' hrest' hheader hclean hout hprogress =>
    refine .continues (f.header.length - o + q) w' (by omega) (by omega) ?_ ?_ hclean hout
      (hprogress.imp_left fun hq => by omega)
    · rw [hrest', hrest, List.drop_drop]
    · have hplace : o + (f.header.length - o + q) =
          f.header.length + (o - f.header.length + q) := by omega
      rw [hplace]
      exact hheader.within
  | done w' hle' hrest' hheader hclean hout =>
    refine .done w' (by omega) ?_ hheader hclean hout
    have hplace : f.header.length - o + (f.payload.length - (o - f.header.length)) =
        f.bytes.length - o := by omega
    rw [hrest', hrest, List.drop_drop, hplace]

/-- A call of the parser for what suits the frame. -/
theorem parsed (rx : Rx) (hw : f.Within cfg o s.header) (hs : Clean s) (hne : l ≠ [])
    (ho : o < f.bytes.length) (hl : l ++ more = f.bytes.drop o ++ tail)
    (hsuits : f.Suits cfg mpg s o l.length) : Parsed f cfg o l (msgParse cfg mpg s rx l) := by
  have hbytes := f.length_bytes
  have hpos := List.length_pos_of_ne_nil hne
  rw [msgParse]
  by_cases hheader : l.length < f.header.length - o
  · simp only [hw.collect_lt hl hheader]
    have hwithin : f.Within cfg (o + l.length) (f.headerAt (o + l.length)) := by
      rw [Within, if_pos (by omega)]
    rw [f.headerAt_of_lt (by omega), if_neg fun hc => Bool.false_ne_true hc.1]
    exact .continues l.length _ le_rfl (by omega) List.drop_length.symm hwithin
      ⟨hs.payload, hs.fragment⟩ rfl (.inl hpos)
  · have hge := not_lt.mp hheader
    obtain ⟨h', hcollect, hat⟩ := hw.collect_ge hl hge
    have hcomplete : h'.complete = true := by rw [hat.eq]; rfl
    have hrem : h'.payloadRem = f.payload.length - (o - f.header.length) := by rw [hat.eq]
    simp only [hcollect]
    split_ifs with hprocess
    · have hplace : o - f.header.length < f.payload.length ∧ l.drop (f.header.length - o) ≠ [] ∨
          f.payload = [] ∧ o - f.header.length = 0 := by
        by_cases hnil : f.payload = []
        · have hzero : f.payload.length = 0 := by rw [hnil]; rfl
          exact .inr ⟨hnil, by omega⟩
        · have hlen := List.length_pos_of_ne_nil hnil
          refine .inl ⟨by omega, hprocess.2.resolve_right ?_⟩
          omega
      have hpart : f.SuitsPart cfg mpg s (o - f.header.length)
          (l.drop (f.header.length - o)).length := by
        rw [List.length_drop]
        refine (hsuits.resolve_left hheader).resolve_left ?_
        rintro ⟨hlength, hnil⟩
        have hdrop : l.drop (f.header.length - o) = [] := List.drop_eq_nil_of_le hlength.le
        exact hplace.elim (fun h => h.2 hdrop) fun h => hnil h.1
      exact (processed ⟨hat, ⟨hs.payload, hs.fragment⟩, rfl, rfl, hplace, more, tail,
        drop_header hl hge⟩ hpart).parsed ho hge rfl
    · obtain ⟨hdrop, hleft⟩ : l.drop (f.header.length - o) = [] ∧ h'.payloadRem ≠ 0 := by
        by_contra hcon
        refine hprocess ⟨hcomplete, ?_⟩
        by_cases hdrop : l.drop (f.header.length - o) = []
        · exact .inr (by_contra fun hleft => hcon ⟨hdrop, hleft⟩)
        · exact .inl hdrop
      have hlength := List.drop_eq_nil_iff.mp hdrop
      have hend : o + l.length = f.header.length + (o - f.header.length) := by omega
      refine .continues l.length _ le_rfl (by omega) (hdrop.trans List.drop_length.symm) ?_
        ⟨hs.payload, hs.fragment⟩ rfl (.inl hpos)
      rw [hend]
      exact hat.within

end Parse

end Frame

end Websocket

end Inspector
