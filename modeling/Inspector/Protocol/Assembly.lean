import Inspector.Protocol.Line
import Mathlib.Data.List.Induction
import Mathlib.Data.Nat.Basic

/-! # Assembled lines

The editing rules say what text the characters of a line stand for, whatever its length. The main
loop hands that text over as long as it never exceeds the line buffer. A line that exceeded the
buffer is answered with an overflow exactly when the last character that met a full buffer is not
followed by a deletion.
-/

namespace Inspector

namespace Protocol

/-- Backspace and delete. -/
def Deletes (c : UInt8) : Prop := c = asciiBS ∨ c = asciiDEL

instance (c : UInt8) : Decidable (Deletes c) := inferInstanceAs (Decidable (_ ∨ _))

/-- The characters that end a line or discard it. -/
def Ends (c : UInt8) : Prop := c = asciiCAN ∨ c = asciiLF ∨ c = asciiCR

instance (c : UInt8) : Decidable (Ends c) := inferInstanceAs (Decidable (_ ∨ _))

/-- The characters that are added to a line; a line does not begin with spaces. -/
def Adds (atStart : Prop) (c : UInt8) : Prop := 0x20 ≤ c ∧ ¬ Deletes c ∧ ¬ (atStart ∧ c = 0x20)

instance (p : Prop) [Decidable p] (c : UInt8) : Decidable (Adds p c) :=
  inferInstanceAs (Decidable (_ ∧ _ ∧ ¬ (_ ∧ _)))

/-- The editing rules. -/
def editStep (text : List UInt8) (c : UInt8) : List UInt8 :=
  if Deletes c then text.dropLast else if Adds (text = []) c then text ++ [c] else text

/-- The text that the characters of a line stand for. -/
def edited (cs : List UInt8) : List UInt8 := cs.foldl editStep []

/-- The text was at some point too long for the line buffer. -/
def Exceeds (cs : List UInt8) : Prop := ∃ p, p <+: cs ∧ lineBufferSize - 1 < (edited p).length

def roomStep (room : ℕ) (c : UInt8) : ℕ :=
  if Deletes c then min (lineBufferSize - 1) (room + 1)
  else if Adds (room = lineBufferSize - 1) c then room - 1
  else room

/-- The room that a line leaves in its buffer, where characters that meet a full buffer are lost. -/
def room (cs : List UInt8) : ℕ := cs.foldl roomStep (lineBufferSize - 1)

/-- Some character meets a full buffer, and no deletion follows it. -/
def EndsFull (cs : List UInt8) : Prop :=
  ∃ a c b, cs = a ++ c :: b ∧ room a = 0 ∧ Adds False c ∧ ∀ d ∈ b, ¬ Deletes d

/-- The characters of the line that a stream ends in. -/
def lineOf (stream : List (UInt8 × LineEnv)) : List UInt8 :=
  stream.foldl (fun cs input => if Ends input.1 then [] else cs ++ [input.1]) []

/-- The text that an answer is about. -/
def Answer.text : Answer → Option (List UInt8)
  | .secondary | .empty => some []
  | .systemLine text | .userCommand text | .demarcation text | .locked text | .gcode text
  | .skipped text => some text
  | .overflow | .abort => none

/-- The answer to a line: its edited text is handed over, or else it is an overflow. -/
def Assembled (cs : List UInt8) (answer : Answer) : Prop :=
  (Exceeds cs → answer = .overflow) ∧ (¬ Exceeds cs → answer.text = some (edited cs))

theorem edited_concat (cs : List UInt8) (c : UInt8) :
    edited (cs ++ [c]) = editStep (edited cs) c := by
  simp only [edited, List.foldl_append, List.foldl_cons, List.foldl_nil]

theorem room_concat (cs : List UInt8) (c : UInt8) : room (cs ++ [c]) = roomStep (room cs) c := by
  simp only [room, List.foldl_append, List.foldl_cons, List.foldl_nil]

theorem lineOf_concat (stream : List (UInt8 × LineEnv)) (input : UInt8 × LineEnv) :
    lineOf (stream ++ [input]) = if Ends input.1 then [] else lineOf stream ++ [input.1] := by
  simp only [lineOf, List.foldl_append, List.foldl_cons, List.foldl_nil]

theorem exceeds_concat (cs : List UInt8) (c : UInt8) :
    Exceeds (cs ++ [c]) ↔ Exceeds cs ∨ lineBufferSize - 1 < (edited (cs ++ [c])).length := by
  constructor
  · rintro ⟨p, hp, hlen⟩
    rcases List.prefix_concat_iff.mp hp with rfl | hp
    · exact .inr hlen
    · exact .inl ⟨p, hp, hlen⟩
  · rintro (⟨p, hp, hlen⟩ | hlen)
    · exact ⟨p, hp.trans (List.prefix_append cs [c]), hlen⟩
    · exact ⟨_, List.prefix_refl _, hlen⟩

theorem not_exceeds_nil : ¬ Exceeds [] := by
  rintro ⟨p, hp, hlen⟩
  obtain rfl := List.prefix_nil.mp hp
  exact absurd hlen (by decide)

theorem not_endsFull_nil : ¬ EndsFull [] := by
  rintro ⟨a, c, b, h, -⟩
  exact absurd h (by simp)

theorem concat_eq_append_cons {cs a b : List UInt8} {c d : UInt8} (h : cs ++ [c] = a ++ d :: b) :
    (b = [] ∧ cs = a ∧ c = d) ∨ ∃ b', b = b' ++ [c] ∧ cs = a ++ d :: b' := by
  rcases List.eq_nil_or_concat' b with rfl | ⟨b', e, rfl⟩
  · obtain ⟨rfl, hcd⟩ := List.append_inj' h rfl
    exact .inl ⟨rfl, rfl, List.singleton_inj.mp hcd⟩
  · rw [← List.cons_append, ← List.append_assoc] at h
    obtain ⟨rfl, hce⟩ := List.append_inj' h rfl
    exact .inr ⟨b', by rw [List.singleton_inj.mp hce], rfl⟩

theorem not_endsFull_of_deletes {c : UInt8} (h : Deletes c) (cs : List UInt8) :
    ¬ EndsFull (cs ++ [c]) := by
  rintro ⟨a, d, b, hcs, -, hadd, hb⟩
  rcases concat_eq_append_cons hcs with ⟨-, -, rfl⟩ | ⟨b', rfl, -⟩
  · exact hadd.2.1 h
  · exact hb c (by simp) h

theorem endsFull_concat {c : UInt8} (h : ¬ Deletes c) (cs : List UInt8) :
    EndsFull (cs ++ [c]) ↔ EndsFull cs ∨ room cs = 0 ∧ Adds False c := by
  constructor
  · rintro ⟨a, d, b, hcs, hroom, hadd, hb⟩
    rcases concat_eq_append_cons hcs with ⟨-, rfl, rfl⟩ | ⟨b', rfl, rfl⟩
    · exact .inr ⟨hroom, hadd⟩
    · exact .inl ⟨a, d, b', rfl, hroom, hadd, fun x hx => hb x (by simp [hx])⟩
  · rintro (⟨a, d, b, rfl, hroom, hadd, hb⟩ | ⟨hroom, hadd⟩)
    · refine ⟨a, d, b ++ [c], by simp, hroom, hadd, fun x hx => ?_⟩
      rcases List.mem_append.mp hx with hx | hx
      · exact hb x hx
      · rwa [List.mem_singleton.mp hx]
    · exact ⟨cs, c, [], rfl, hroom, hadd, by simp⟩

@[simp] theorem LineFlags.track_overflow (messages first : Bool) (flags : LineFlags) (c : UInt8) :
    (flags.track messages first c).overflow = flags.overflow := by
  simp only [LineFlags.track]
  split_ifs <;> rfl

@[simp] theorem recheckLine_overflow (messages : Bool) (line : List UInt8) :
    (recheckLine messages line).overflow = false := by
  have hfold : ∀ (line : List UInt8) (flags : LineFlags),
      (line.foldl (LineFlags.track messages false) flags).overflow = flags.overflow := by
    intro line
    induction line with
    | nil => exact fun _ => rfl
    | cons c line ih => exact fun flags => (ih _).trans (LineFlags.track_overflow ..)
  cases line with
  | nil => rfl
  | cons c line => exact (hfold line _).trans (LineFlags.track_overflow ..)

/-- What the main loop keeps of the characters of a line. -/
structure Tracks (cs : List UInt8) (m : MainLoop) : Prop where
  room : room cs = lineBufferSize - 1 - m.line.length
  text : ¬ Exceeds cs → m.line = edited cs
  overflow : m.flags.overflow = true ↔ EndsFull cs
  full : EndsFull cs → m.line.length = lineBufferSize - 1
  exceeds : EndsFull cs → Exceeds cs
  flags : m.line = [] → m.flags = {}

namespace Tracks

variable {cs : List UInt8} {m : MainLoop} {c : UInt8}

theorem nil (m : MainLoop) (hline : m.line = []) (hflags : m.flags = {}) : Tracks [] m where
  room := by rw [hline]; rfl
  text _ := hline
  overflow := by
    rw [hflags]
    exact ⟨fun h => (nomatch h), fun h => absurd h not_endsFull_nil⟩
  full h := absurd h not_endsFull_nil
  exceeds h := absurd h not_endsFull_nil
  flags _ := hflags

theorem room_eq_zero (h : Tracks cs m) :
    Protocol.room cs = 0 ↔ m.line.length = lineBufferSize - 1 := by
  have := m.fits
  rw [h.room]
  omega

theorem room_eq_size (h : Tracks cs m) :
    Protocol.room cs = lineBufferSize - 1 ↔ m.line = [] := by
  have := m.fits
  rw [h.room, ← List.length_eq_zero_iff]
  simp only [lineBufferSize] at *
  omega

theorem adds_room (h : Tracks cs m) (c : UInt8) :
    Adds (Protocol.room cs = lineBufferSize - 1) c ↔ Adds (m.line = []) c := by
  rw [Adds, Adds, h.room_eq_size]

theorem ignored (h : Tracks cs m) (hd : ¬ Deletes c) (ha : ¬ Adds (m.line = []) c) :
    Tracks (cs ++ [c]) m := by
  have hroom : Protocol.room (cs ++ [c]) = Protocol.room cs := by
    rw [room_concat, roomStep, if_neg hd, if_neg (mt (h.adds_room c).mp ha)]
  have hends : EndsFull (cs ++ [c]) ↔ EndsFull cs := by
    rw [endsFull_concat hd]
    refine or_iff_left ?_
    rintro ⟨hr, hadd⟩
    -- a full line is not empty
    rw [h.room_eq_zero] at hr
    exact ha ⟨hadd.1, hadd.2.1, fun hs => by rw [hs.1] at hr; exact absurd hr (by decide)⟩
  have htext : ¬ Exceeds cs → edited (cs ++ [c]) = edited cs := by
    intro hx
    rw [edited_concat, editStep, if_neg hd, ← h.text hx, if_neg ha]
  refine ⟨hroom.trans h.room, fun hx => ?_, h.overflow.trans hends.symm,
    fun he => h.full (hends.mp he), fun he => ?_, h.flags⟩
  · rw [exceeds_concat, not_or] at hx
    exact (h.text hx.1).trans (htext hx.1).symm
  · exact (exceeds_concat cs c).mpr (.inl (h.exceeds (hends.mp he)))

theorem delete (messages : Bool) (h : Tracks cs m) (hd : Deletes c) :
    Tracks (cs ++ [c]) (m.delete messages) := by
  have hends := not_endsFull_of_deletes hd cs
  have htext : ¬ Exceeds (cs ++ [c]) → m.line.dropLast = edited (cs ++ [c]) := by
    intro hx
    rw [exceeds_concat, not_or] at hx
    rw [edited_concat, editStep, if_pos hd, h.text hx.1]
  have hroom : Protocol.room (cs ++ [c]) = lineBufferSize - 1 - m.line.dropLast.length := by
    have := m.fits
    rw [room_concat, roomStep, if_pos hd, h.room, List.length_dropLast]
    omega
  by_cases hl : m.line = []
  · have hm : m.delete messages = m := if_pos hl
    rw [hm]
    rw [hl] at htext hroom
    refine ⟨?_, fun hx => ?_, ⟨fun ho => ?_, fun he => absurd he hends⟩,
      fun he => absurd he hends, fun he => absurd he hends, h.flags⟩
    · rwa [hl]
    · rw [hl]
      exact htext hx
    · rw [h.flags hl] at ho
      cases ho
  · have hm : (m.delete messages).line = m.line.dropLast ∧
        (m.delete messages).flags = recheckLine messages m.line.dropLast := by
      rw [MainLoop.delete, if_neg hl]
      exact ⟨rfl, rfl⟩
    refine ⟨?_, fun hx => ?_, ⟨fun ho => ?_, fun he => absurd he hends⟩,
      fun he => absurd he hends, fun he => absurd he hends, fun hn => ?_⟩
    · rwa [hm.1]
    · rw [hm.1]
      exact htext hx
    · rw [hm.2, recheckLine_overflow] at ho
      cases ho
    · rw [hm.1] at hn
      rw [hm.2, hn]
      rfl

theorem store (messages : Bool) (h : Tracks cs m) (hd : ¬ Deletes c)
    (ha : Adds (m.line = []) c) : Tracks (cs ++ [c]) (m.store messages c) := by
  have hroom : Protocol.room (cs ++ [c]) = Protocol.room cs - 1 := by
    rw [room_concat, roomStep, if_neg hd, if_pos ((h.adds_room c).mpr ha)]
  have htext : ¬ Exceeds cs → edited (cs ++ [c]) = m.line ++ [c] := by
    intro hx
    rw [edited_concat, editStep, if_neg hd, ← h.text hx, if_pos ha]
  have hadd : Adds False c := ⟨ha.1, ha.2.1, fun hs => hs.1⟩
  have hends := endsFull_concat hd cs
  by_cases hl : m.line.length < lineBufferSize - 1
  · have hm : (m.store messages c).line = m.line ++ [c] ∧
        (m.store messages c).flags.overflow = false := by
      rw [MainLoop.store, dif_pos hl]
      exact ⟨rfl, rfl⟩
    have hnot : ¬ EndsFull (cs ++ [c]) := by
      rw [hends, h.room_eq_zero]
      rintro (he | ⟨hr, -⟩)
      · exact Nat.ne_of_lt hl (h.full he)
      · exact Nat.ne_of_lt hl hr
    refine ⟨?_, fun hx => ?_, ?_, fun he => absurd he hnot, fun he => absurd he hnot,
      fun hn => ?_⟩
    · rw [hroom, h.room, hm.1, List.length_append, List.length_singleton]
      omega
    · rw [exceeds_concat, not_or] at hx
      exact hm.1.trans (htext hx.1).symm
    · rw [hm.2]
      exact ⟨fun ho => (nomatch ho), fun he => absurd he hnot⟩
    · rw [hm.1] at hn
      exact absurd hn (by simp)
  · have hfull : m.line.length = lineBufferSize - 1 := by
      have := m.fits
      omega
    have hm : (m.store messages c).line = m.line ∧
        (m.store messages c).flags.overflow = true := by
      rw [MainLoop.store, dif_neg hl]
      exact ⟨rfl, rfl⟩
    have hexc : Exceeds (cs ++ [c]) := by
      rw [exceeds_concat]
      refine or_iff_not_imp_left.mpr fun hx => ?_
      rw [htext hx, List.length_append, List.length_singleton]
      omega
    have hfullEnds : EndsFull (cs ++ [c]) := hends.mpr (.inr ⟨h.room_eq_zero.mpr hfull, hadd⟩)
    refine ⟨?_, fun hx => absurd hexc hx, ?_, fun _ => ?_, fun _ => hexc, fun hn => ?_⟩
    · rw [hroom, h.room, hm.1]
      omega
    · rw [hm.2]
      exact ⟨fun _ => hfullEnds, fun _ => rfl⟩
    · rw [hm.1, hfull]
    · rw [hm.1] at hn
      rw [hn] at hfull
      exact absurd hfull (by decide)

theorem of_le (h : Tracks cs m) (hbs : c ≠ asciiBS)
    (hle : c ≤ if m.line ≠ [] then 0x1F else 0x20) : Tracks (cs ++ [c]) m := by
  have hc : c.toNat ≤ 0x20 ∧ (m.line ≠ [] → c.toNat ≤ 0x1F) := by
    rw [UInt8.le_iff_toNat_le] at hle
    split_ifs at hle with hl
    · exact ⟨Nat.le_succ_of_le hle, fun _ => hle⟩
    · exact ⟨hle, fun hn => absurd hn hl⟩
  apply h.ignored
  · rintro (rfl | rfl)
    · exact hbs rfl
    · exact absurd hc.1 (by decide)
  · rintro ⟨hge, -, hs⟩
    rw [UInt8.le_iff_toNat_le] at hge
    have h20 : c.toNat = 0x20 := le_antisymm hc.1 hge
    refine hs ⟨?_, UInt8.toNat_inj.mp h20⟩
    by_contra hl
    exact absurd (h20 ▸ hc.2 hl) (by decide)

theorem adds_of_not_le (hd : ¬ Deletes c)
    (hle : ¬ (c ≠ asciiBS ∧ c ≤ if m.line ≠ [] then 0x1F else 0x20)) :
    Adds (m.line = []) c := by
  have hlt : ¬ c ≤ if m.line ≠ [] then 0x1F else 0x20 :=
    fun h => hle ⟨fun hbs => hd (.inl hbs), h⟩
  rw [UInt8.le_iff_toNat_le, not_le] at hlt
  refine ⟨?_, hd, ?_⟩
  · rw [UInt8.le_iff_toNat_le]
    split_ifs at hlt
    · exact hlt
    · exact Nat.le_of_lt hlt
  · rintro ⟨hl, rfl⟩
    rw [if_neg (not_not.mpr hl)] at hlt
    exact absurd hlt (lt_irrefl _)

/-- One character that does not end the line. -/
theorem read (messages : Bool) (h : Tracks cs m) (input : UInt8 × LineEnv)
    (hne : ¬ Ends input.1) : Tracks (cs ++ [input.1]) (m.read messages input) := by
  obtain ⟨c, env⟩ := input
  have hcan : c ≠ asciiCAN := fun hc => hne (.inl hc)
  have heol : ¬ (c = asciiLF ∨ c = asciiCR) := fun hc => hne (.inr hc)
  simp only [MainLoop.read]
  rw [if_neg hcan, if_neg heol]
  by_cases heof : c = asciiEOF
  · rw [if_pos heof]
    subst heof
    exact h.ignored (by decide) (fun ha => absurd ha.1 (by decide))
  · rw [if_neg heof]
    by_cases hle : c ≠ asciiBS ∧ c ≤ if m.line ≠ [] then 0x1F else 0x20
    · rw [if_pos hle]
      exact h.of_le hle.1 hle.2
    · rw [if_neg hle]
      by_cases hd : Deletes c
      · have hdel : c = asciiBS ∨ c = asciiDEL := hd
        rw [if_pos hdel]
        exact h.delete messages hd
      · have hdel : ¬ (c = asciiBS ∨ c = asciiDEL) := hd
        rw [if_neg hdel]
        exact h.store messages hd (adds_of_not_le hd hle)

/-- One character that ends the line or discards it. -/
theorem read_ends (messages : Bool) (h : Tracks cs m) (input : UInt8 × LineEnv)
    (he : Ends input.1) : Tracks [] (m.read messages input) := by
  obtain ⟨c, env⟩ := input
  simp only [MainLoop.read]
  by_cases hcan : c = asciiCAN
  · rw [if_pos hcan]
    exact nil _ rfl rfl
  · have heol : c = asciiLF ∨ c = asciiCR := he.resolve_left hcan
    have heof : c ≠ asciiEOF := by
      rcases heol with rfl | rfl <;> decide
    rw [if_neg hcan, if_neg heof, if_pos heol]
    simp only [MainLoop.endLine]
    by_cases hsec : m.line = [] ∧ m.eol ≠ none ∧ m.eol ≠ some c
    · rw [if_pos hsec]
      exact nil _ hsec.1 (h.flags hsec.1)
    · rw [if_neg hsec]
      cases env.realtimeAbort <;> cases env.aborted <;> exact nil _ rfl rfl

end Tracks

theorem tracks_run (messages : Bool) (stream : List (UInt8 × LineEnv)) :
    Tracks (lineOf stream) (MainLoop.run messages stream) := by
  induction stream using List.reverseRecOn with
  | nil => exact Tracks.nil _ rfl rfl
  | append_singleton stream input ih =>
    rw [MainLoop.run, List.foldl_append, lineOf_concat]
    by_cases he : Ends input.1
    · rw [if_pos he]
      exact ih.read_ends messages input he
    · rw [if_neg he]
      exact ih.read messages input he

theorem dispatch_text (env : LineEnv) {m : MainLoop} (h : m.flags.overflow = false) :
    (m.dispatch env).1 ≠ .overflow ∧ (m.dispatch env).1.text = some m.line := by
  simp only [MainLoop.dispatch, h, Bool.false_eq_true, if_false]
  cases hl : m.line with
  | nil => exact ⟨nofun, rfl⟩
  | cons c rest =>
    simp only
    split_ifs <;> exact ⟨nofun, rfl⟩

theorem endLine_answer (env : LineEnv) (m : MainLoop) (c : UInt8)
    (habort : env.realtimeAbort = false) : (m.endLine env c).1 =
      if m.line = [] ∧ m.eol ≠ none ∧ m.eol ≠ some c then .secondary else (m.dispatch env).1 := by
  simp only [MainLoop.endLine, habort, Bool.false_eq_true, if_false]
  split_ifs <;> rfl

/-- The answer to a line whose characters the main loop has tracked. -/
theorem assembled_endLine {cs : List UInt8} {m : MainLoop} (h : Tracks cs m) (env : LineEnv)
    (c : UInt8) (habort : env.realtimeAbort = false) :
    Assembled cs (m.endLine env c).1 ↔ (Exceeds cs → EndsFull cs) := by
  by_cases ho : m.flags.overflow = true
  · have hends := h.overflow.mp ho
    have hl : m.line ≠ [] := fun hn => by
      have := h.full hends
      rw [hn] at this
      exact absurd this (by decide)
    have hans : (m.endLine env c).1 = .overflow := by
      rw [endLine_answer env m c habort, if_neg fun hsec => hl hsec.1, MainLoop.dispatch, if_pos ho]
    rw [hans]
    exact ⟨fun _ _ => hends, fun _ => ⟨fun _ => rfl, fun hx => absurd (h.exceeds hends) hx⟩⟩
  · have hends : ¬ EndsFull cs := mt h.overflow.mpr ho
    obtain ⟨hne, htext⟩ : (m.endLine env c).1 ≠ .overflow ∧
        (m.endLine env c).1.text = some m.line := by
      rw [endLine_answer env m c habort]
      split_ifs with hsec
      · rw [hsec.1]
        exact ⟨nofun, rfl⟩
      · exact dispatch_text env (Bool.eq_false_iff.mpr ho)
    constructor
    · rintro ⟨hx, -⟩ hexc
      exact absurd (hx hexc) hne
    · intro hx
      exact ⟨fun hexc => absurd (hx hexc) hends, fun hn => by rw [htext, h.text hn]⟩

/-- The characters of a line buffer are those that are added to a line. -/
def Typed (line : List UInt8) : Prop := ∀ a c b, line = a ++ c :: b → Adds (a = []) c

theorem typed_nil : Typed [] := fun a c b h => absurd h (by simp)

theorem typed_concat {line : List UInt8} {c : UInt8} :
    Typed (line ++ [c]) ↔ Typed line ∧ Adds (line = []) c := by
  constructor
  · intro h
    exact ⟨fun a d b hl => h a d (b ++ [c]) (by rw [hl]; simp), h line c [] rfl⟩
  · rintro ⟨hl, hc⟩ a d b h
    rcases concat_eq_append_cons h with ⟨-, rfl, rfl⟩ | ⟨b', -, hb⟩
    · exact hc
    · exact hl a d b' hb

theorem typed_dropLast {line : List UInt8} (h : Typed line) : Typed line.dropLast := by
  rcases List.eq_nil_or_concat' line with rfl | ⟨l, c, rfl⟩
  · exact typed_nil
  · rw [List.dropLast_concat]
    exact (typed_concat.mp h).1

theorem typed_read (messages : Bool) {m : MainLoop} (h : Typed m.line)
    (input : UInt8 × LineEnv) : Typed (m.read messages input).line := by
  obtain ⟨c, env⟩ := input
  simp only [MainLoop.read]
  by_cases hcan : c = asciiCAN
  · rw [if_pos hcan]
    exact typed_nil
  rw [if_neg hcan]
  by_cases heof : c = asciiEOF
  · rwa [if_pos heof]
  rw [if_neg heof]
  by_cases heol : c = asciiLF ∨ c = asciiCR
  · rw [if_pos heol]
    simp only [MainLoop.endLine]
    by_cases hsec : m.line = [] ∧ m.eol ≠ none ∧ m.eol ≠ some c
    · rwa [if_pos hsec]
    · rw [if_neg hsec]
      cases env.realtimeAbort <;> cases env.aborted <;> exact typed_nil
  rw [if_neg heol]
  by_cases hle : c ≠ asciiBS ∧ c ≤ if m.line ≠ [] then 0x1F else 0x20
  · rwa [if_pos hle]
  rw [if_neg hle]
  by_cases hdel : c = asciiBS ∨ c = asciiDEL
  · rw [if_pos hdel, MainLoop.delete]
    split_ifs
    · exact h
    · exact typed_dropLast h
  · rw [if_neg hdel, MainLoop.store]
    split_ifs
    · exact typed_concat.mpr ⟨h, Tracks.adds_of_not_le hdel hle⟩
    · exact h

theorem recheckLine_concat (messages : Bool) (line : List UInt8) (c : UInt8) :
    recheckLine messages (line ++ [c]) =
      (recheckLine messages line).track messages (decide (line = [])) c := by
  cases line with
  | nil => rfl
  | cons d line => exact List.foldl_concat ..

theorem read_adds (messages : Bool) {m : MainLoop} {c : UInt8} (h : Adds (m.line = []) c)
    (env : LineEnv) : m.read messages (c, env) = m.store messages c := by
  have hge : 0x20 ≤ c.toNat := UInt8.le_iff_toNat_le.mp h.1
  have hne : ∀ d : UInt8, d.toNat < 0x20 → c ≠ d := by
    rintro d hd rfl
    omega
  have hle : ¬ (c ≠ asciiBS ∧ c ≤ if m.line ≠ [] then 0x1F else 0x20) := by
    rintro ⟨-, hle⟩
    rw [UInt8.le_iff_toNat_le] at hle
    split_ifs at hle with hl
    · exact absurd (Nat.le_trans hge hle) (by decide)
    · exact h.2.2 ⟨not_not.mp hl, UInt8.toNat_inj.mp (Nat.le_antisymm hle hge)⟩
  have hdel : ¬ (c = asciiBS ∨ c = asciiDEL) := h.2.1
  have heol : ¬ (c = asciiLF ∨ c = asciiCR) := by
    rintro (hc | hc)
    · exact hne _ (by decide) hc
    · exact hne _ (by decide) hc
  simp only [MainLoop.read]
  rw [if_neg (hne _ (by decide)), if_neg (hne _ (by decide)), if_neg heol, if_neg hle, if_neg hdel]

/-- Reading the characters of a line buffer from scratch gives the flags that are rechecked. -/
theorem foldl_read_typed (messages : Bool) (env : LineEnv) (line : List UInt8)
    (h : Typed line) (hlen : line.length < lineBufferSize) :
    let m := (line.map (·, env)).foldl (MainLoop.read messages) (.enter .ok)
    m.line = line ∧ m.flags = recheckLine messages line := by
  induction line using List.reverseRecOn with
  | nil => exact ⟨rfl, rfl⟩
  | append_singleton line c ih =>
    rw [List.length_append, List.length_singleton] at hlen
    obtain ⟨hl, hf⟩ := ih (typed_concat.mp h).1 (by omega)
    have hadds := (typed_concat.mp h).2
    simp only [List.map_append, List.map_cons, List.map_nil, List.foldl_append, List.foldl_cons,
      List.foldl_nil]
    generalize (line.map (·, env)).foldl (MainLoop.read messages) (.enter .ok) = m at hl hf ⊢
    subst hl
    rw [read_adds messages hadds, MainLoop.store, dif_pos (by omega)]
    refine ⟨rfl, ?_⟩
    have ho := recheckLine_overflow messages (m.line ++ [c])
    rw [recheckLine_concat, ← hf] at ho ⊢
    generalize m.flags.track messages (decide (m.line = [])) c = flags at ho ⊢
    cases flags
    cases ho
    rfl

/-- For every stream, the line it ends in is answered with its edited text, or with an overflow if
the text ever exceeded the buffer, if and only if in a line that exceeded it the last character to
meet a full buffer is not followed by a deletion. After a deletion the flags are those of reading
the remaining characters from scratch. -/
theorem line_assembled (messages : Bool) (stream : List (UInt8 × LineEnv)) :
    (∀ env c, env.realtimeAbort = false →
      (Assembled (lineOf stream) ((MainLoop.run messages stream).endLine env c).1 ↔
        (Exceeds (lineOf stream) → EndsFull (lineOf stream)))) ∧
    (∀ c env, Deletes c →
      let m := MainLoop.run messages (stream ++ [(c, env)])
      m.flags = ((m.line.map (·, env)).foldl (MainLoop.read messages) (.enter .ok)).flags) := by
  have htyped : ∀ stream, Typed (MainLoop.run messages stream).line := by
    intro stream
    induction stream using List.reverseRecOn with
    | nil => exact typed_nil
    | append_singleton stream input ih =>
      rw [MainLoop.run, List.foldl_append]
      exact typed_read messages ih input
  have htracks := tracks_run messages
  constructor
  · intro env c habort
    exact assembled_endLine (htracks stream) env c habort
  · intro c env hd m
    rw [(foldl_read_typed messages env m.line (htyped _) m.fits).2]
    have hm : m = (MainLoop.run messages stream).delete messages := by
      have hcan : c ≠ asciiCAN := by rcases hd with rfl | rfl <;> decide
      have heof : c ≠ asciiEOF := by rcases hd with rfl | rfl <;> decide
      have heol : ¬ (c = asciiLF ∨ c = asciiCR) := by rcases hd with rfl | rfl <;> decide
      have hle : ∀ b : UInt8, b.toNat ≤ 0x20 → ¬ (c ≠ asciiBS ∧ c ≤ b) := by
        rintro b hb ⟨hbs, hcb⟩
        rcases hd with rfl | rfl
        · exact hbs rfl
        · have := UInt8.le_iff_toNat_le.mp hcb
          exact absurd (Nat.le_trans this hb) (by decide)
      have hdel : c = asciiBS ∨ c = asciiDEL := hd
      simp only [m, MainLoop.run, List.foldl_append, List.foldl_cons, List.foldl_nil,
        MainLoop.read]
      rw [if_neg hcan, if_neg heof, if_neg heol, if_neg (hle _ (by split_ifs <;> decide)),
        if_pos hdel]
    rw [hm, MainLoop.delete]
    split_ifs with hl
    · rw [(htracks stream).flags hl, hl]
      rfl
    · rfl

def idleEnv : LineEnv := ⟨false, false, false, false, false, .ok⟩

/-- A line of 257 characters, the last of them deleted. -/
def overfullLine : List (UInt8 × LineEnv) :=
  List.replicate 257 ('G'.toUInt8, idleEnv) ++ [(asciiBS, idleEnv)]

/-- A line that has lost a character is executed. -/
theorem not_assembled_overfullLine :
    ¬ Assembled (lineOf overfullLine)
      ((MainLoop.run true overfullLine).endLine idleEnv asciiLF).1 := by
  rintro ⟨h, -⟩
  have hlen : (edited (List.replicate 257 'G'.toUInt8)).length = 257 := by decide +kernel
  have hpre : List.replicate 257 'G'.toUInt8 <+: lineOf overfullLine := by decide +kernel
  have hans : ((MainLoop.run true overfullLine).endLine idleEnv asciiLF).1 ≠ .overflow := by
    decide +kernel
  exact hans (h ⟨_, hpre, by rw [hlen]; decide⟩)

/-- Without a deletion the same line is answered with an overflow. -/
theorem line_assembled_overflow :
    let stream := List.replicate 257 ('G'.toUInt8, idleEnv)
    Assembled (lineOf stream) ((MainLoop.run true stream).endLine idleEnv asciiLF).1 := by
  intro stream
  have hends : EndsFull (lineOf stream) :=
    ⟨List.replicate 256 'G'.toUInt8, 'G'.toUInt8, [], by decide +kernel, by decide +kernel,
      by decide, by simp⟩
  exact ((line_assembled true stream).1 idleEnv asciiLF rfl).mpr fun _ => hends

end Protocol

end Inspector
