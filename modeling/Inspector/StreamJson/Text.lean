import Inspector.StreamJson.Writer

/-! # The text of a document

What the calls for a tree write, as a function of the tree and of the number of elements written
before on the same level.
-/

namespace Inspector

namespace StreamJson

open Json (Bytes)

open JsonOut (escaped uitoa)

/-- What is written between two elements, after a number of them. -/
def comma (c : ℕ) : Bytes := if c % 2 ^ 32 = 0 then [] else [0x2C]

/-- A tag and what separates it from its value. -/
def Tag.text (tag : Tag) : Bytes := 0x22 :: (tag.bytes ++ [0x22, 0x3A])

/-- The text of a number. -/
def intText (value : BitVec 32) : Bytes :=
  (if value.toInt < 0 then [0x2D] else []) ++
    uitoa (if value.toInt < 0 then -value else value).toNat

mutual

def Member.text : Member → Bytes
  | .string tag s => tag.text ++ (0x22 :: (escaped s.bytes ++ [0x22]))
  | .int tag value => tag.text ++ intText value
  | .object tag members => tag.text ++ (0x7B :: (members.text 0 ++ [0x7D]))
  | .array tag objects => tag.text ++ (0x5B :: (objects.text 0 ++ [0x5D]))

/-- The text of members that follow a number of others. -/
def Members.text (c : ℕ) : Members → Bytes
  | .nil => []
  | .cons m ms => comma c ++ (m.text ++ ms.text (c + 1))

/-- The text of objects that follow a number of others. -/
def Objects.text (c : ℕ) : Objects → Bytes
  | .nil => []
  | .cons members os => comma c ++ (0x7B :: (members.text 0 ++ 0x7D :: os.text (c + 1)))

end

def Members.length : Members → ℕ
  | .nil => 0
  | .cons _ ms => ms.length + 1

def Objects.length : Objects → ℕ
  | .nil => 0
  | .cons _ os => os.length + 1

/-- A text has been written, and the elements counted on its level. -/
structure Wrote (json json' : JsonOut) (text : Bytes) (c c' : ℕ) : Prop where
  file : json'.file = json.file ++ text
  level : json'.level = json.level
  maxLevel : json'.maxLevel = json.maxLevel
  outer : ∀ j < json.level, json'.elements j = json.elements j
  before : json.elements json.level = c % 2 ^ 32
  after : json'.elements json.level = c' % 2 ^ 32

namespace Wrote

variable {json json' json'' : JsonOut} {text text' : Bytes} {c c' c'' : ℕ} {t : Tag}

theorem refl (h : json.elements json.level = c % 2 ^ 32) : Wrote json json [] c c :=
  ⟨(List.append_nil _).symm, rfl, rfl, fun _ _ => rfl, h, h⟩

theorem trans (h : Wrote json json' text c c') (h' : Wrote json' json'' text' c' c'') :
    Wrote json json'' (text ++ text') c c'' := by
  refine ⟨?_, h'.level.trans h.level, h'.maxLevel.trans h.maxLevel, ?_, h.before, ?_⟩
  · rw [h'.file, h.file, List.append_assoc]
  · intro j hj
    exact (h'.outer j (h.level ▸ hj)).trans (h.outer j hj)
  · exact h.level ▸ h'.after

theorem write (h : json.elements json.level = c % 2 ^ 32) (s : Bytes) :
    Wrote json (json.write s) s c c :=
  ⟨rfl, rfl, rfl, fun _ _ => rfl, h, h⟩

theorem then_write (h : Wrote json json' text c c') (s : Bytes) :
    Wrote json (json'.write s) (text ++ s) c c' :=
  h.trans (write (h.level ▸ h.after) s)

theorem count (h : json.elements json.level = c % 2 ^ 32) : Wrote json json.count [] c (c + 1) := by
  refine ⟨(List.append_nil _).symm, rfl, rfl, ?_, h, ?_⟩
  · intro j hj
    exact Function.update_of_ne hj.ne _ _
  · simp [JsonOut.count, h]

theorem separate (h : json.elements json.level = c % 2 ^ 32) :
    Wrote json json.separate (comma c) c (c + 1) := by
  unfold JsonOut.separate comma
  rw [h]
  by_cases hc : c % 2 ^ 32 = 0
  · rw [if_pos hc, if_neg (not_not_intro hc)]
    exact count h
  · rw [if_neg hc, if_pos hc, ← List.append_nil [0x2C]]
    exact (write h [0x2C]).trans (count h)

/-- What is written on the next level belongs to one element of this one. -/
theorem nested (h : Wrote json json' text c c') (h' : Wrote json'.enter json'' text' 0 c'')
    (s : Bytes) :
    Wrote json { json''.write s with level := json''.level - 1 } (text ++ (text' ++ s)) c c' := by
  have hlevel : json''.level = json.level + 1 := h'.level.trans (congrArg (· + 1) h.level)
  have hkeep : ∀ j ≤ json.level, json''.elements j = json'.elements j := by
    intro j hj
    have houter := h'.outer j (by rw [JsonOut.enter, h.level]; exact Nat.lt_succ_of_le hj)
    rw [houter]
    exact Function.update_of_ne (by rw [h.level]; exact (Nat.lt_succ_of_le hj).ne) _ _
  refine ⟨?_, ?_, h'.maxLevel.trans h.maxLevel, ?_, h.before, ?_⟩
  · change json''.file ++ s = _
    rw [h'.file, JsonOut.enter, h.file, List.append_assoc, List.append_assoc]
  · change json''.level - 1 = _
    rw [hlevel, Nat.add_sub_cancel]
  · intro j hj
    exact (hkeep j hj.le).trans (h.outer j hj)
  · exact (hkeep _ le_rfl).trans h.after

theorem addTag (h : json.elements json.level = c % 2 ^ 32) (hlevel : json.level < json.maxLevel) :
    (json.addTag t).1 = true ∧
      Wrote json (json.addTag t).2 (comma c ++ t.text) c (c + 1) := by
  unfold JsonOut.addTag
  rw [if_pos hlevel]
  refine ⟨rfl, ?_⟩
  have hwrote := (((separate h).then_write [0x22]).then_write t.bytes).then_write [0x22, 0x3A]
  simpa [Tag.text] using hwrote

theorem jsonAddString (h : json.elements json.level = c % 2 ^ 32)
    (hlevel : json.level < json.maxLevel) (s : CString) :
    Wrote json (json.jsonAddString t s).2 (comma c ++ (Member.string t s).text) c (c + 1) := by
  obtain ⟨hok, htag⟩ := addTag (t := t) h hlevel
  unfold JsonOut.jsonAddString
  cases hadd : json.addTag t with
  | mk ok json' =>
    rw [hadd] at hok htag
    obtain rfl : ok = true := hok
    have hwrote := ((htag.then_write [0x22]).then_write (escaped s.bytes)).then_write [0x22]
    simpa [Member.text] using hwrote

theorem jsonAddInt (h : json.elements json.level = c % 2 ^ 32)
    (hlevel : json.level < json.maxLevel) (value : BitVec 32) :
    Wrote json (json.jsonAddInt t value).2 (comma c ++ (Member.int t value).text) c
      (c + 1) := by
  obtain ⟨hok, htag⟩ := addTag (t := t) h hlevel
  unfold JsonOut.jsonAddInt
  cases hadd : json.addTag t with
  | mk ok json' =>
    rw [hadd] at hok htag
    obtain rfl : ok = true := hok
    simp only [Member.text, intText]
    split_ifs with hneg
    · have hwrote := (htag.then_write [0x2D]).then_write (uitoa (-value).toNat)
      simpa using hwrote
    · have hwrote := htag.then_write (uitoa value.toNat)
      simpa using hwrote

end Wrote

mutual

theorem Member.wrote : ∀ (m : Member) {j : JsonOut} {c : ℕ},
    j.elements j.level = c % 2 ^ 32 → j.level + m.depth < j.maxLevel →
    Wrote j (m.write j) (comma c ++ m.text) c (c + 1)
  | .string tag s, _, _, h, hlevel => Wrote.jsonAddString h hlevel s
  | .int tag value, _, _, h, hlevel => Wrote.jsonAddInt h hlevel value
  | .object tag members, json, c, h, hlevel => by
    rw [Member.depth] at hlevel
    obtain ⟨-, htag⟩ := Wrote.addTag (t := tag) h (by omega)
    have hopen := htag.then_write [0x7B]
    have hstart : (json.jsonStartTaggedObject tag).2 =
        ((json.addTag tag).2.write [0x7B]).enter := if_pos (by omega)
    have hinner := Members.wrote members (j := (json.jsonStartTaggedObject tag).2) (c := 0)
      (by rw [hstart]; exact Function.update_self _ _ _) (by
        rw [hstart]
        change (json.addTag tag).2.level + 1 + members.depth < (json.addTag tag).2.maxLevel
        rw [htag.level, htag.maxLevel]
        omega)
    rw [hstart] at hinner
    have hend : (members.write (json.jsonStartTaggedObject tag).2).jsonEndObject.2 =
        { (members.write (json.jsonStartTaggedObject tag).2).write [0x7D] with
          level := (members.write (json.jsonStartTaggedObject tag).2).level - 1 } := by
      apply if_pos
      rw [hstart, hinner.level, hinner.maxLevel]
      change (json.addTag tag).2.level + 1 < (json.addTag tag).2.maxLevel
      rw [htag.level, htag.maxLevel]
      omega
    rw [Member.write, hend, hstart]
    simpa [Member.text] using hopen.nested hinner [0x7D]
  | .array tag objects, json, c, h, hlevel => by
    rw [Member.depth] at hlevel
    obtain ⟨-, htag⟩ := Wrote.addTag (t := tag) h (by omega)
    have hopen := htag.then_write [0x5B]
    have hstart : (json.jsonStartArray tag).2 =
        ((json.addTag tag).2.write [0x5B]).enter := if_pos (by omega)
    have hinner := Objects.wrote objects (j := (json.jsonStartArray tag).2) (c := 0)
      (by rw [hstart]; exact Function.update_self _ _ _) (by
        rw [hstart]
        change (json.addTag tag).2.level + 1 + objects.depth < (json.addTag tag).2.maxLevel
        rw [htag.level, htag.maxLevel]
        omega)
    rw [hstart] at hinner
    have hend : (objects.write (json.jsonStartArray tag).2).jsonEndArray.2 =
        { (objects.write (json.jsonStartArray tag).2).write [0x5D] with
          level := (objects.write (json.jsonStartArray tag).2).level - 1 } := by
      apply if_pos
      rw [hstart, hinner.level]
      exact Nat.succ_ne_zero _
    rw [Member.write, hend, hstart]
    simpa [Member.text] using hopen.nested hinner [0x5D]

theorem Members.wrote : ∀ (ms : Members) {j : JsonOut} {c : ℕ},
    j.elements j.level = c % 2 ^ 32 → j.level + ms.depth < j.maxLevel →
    Wrote j (ms.write j) (ms.text c) c (c + ms.length)
  | .nil, _, _, h, _ => Wrote.refl h
  | .cons m ms, json, c, h, hlevel => by
    rw [Members.depth] at hlevel
    have hm := Member.wrote m h (by omega)
    have hms := Members.wrote ms (j := m.write json) (c := c + 1) (hm.level ▸ hm.after)
      (by rw [hm.level, hm.maxLevel]; omega)
    have hcount : c + (Members.cons m ms).length = c + 1 + ms.length := by
      rw [Members.length]
      omega
    rw [hcount, Members.text, ← List.append_assoc]
    exact hm.trans hms

theorem Objects.wrote : ∀ (os : Objects) {j : JsonOut} {c : ℕ},
    j.elements j.level = c % 2 ^ 32 → j.level + os.depth < j.maxLevel →
    Wrote j (os.write j) (os.text c) c (c + os.length)
  | .nil, _, _, h, _ => Wrote.refl h
  | .cons members os, json, c, h, hlevel => by
    rw [Objects.depth] at hlevel
    have hopen := (Wrote.separate h).then_write [0x7B]
    have hstart : json.jsonStartObject.2 = (json.separate.write [0x7B]).enter :=
      if_pos (by omega)
    have hinner := Members.wrote members (j := json.jsonStartObject.2) (c := 0)
      (by rw [hstart]; exact Function.update_self _ _ _) (by
        rw [hstart]
        change json.separate.level + 1 + members.depth < json.separate.maxLevel
        rw [(Wrote.separate h).level, (Wrote.separate h).maxLevel]
        omega)
    rw [hstart] at hinner
    have hend : (members.write json.jsonStartObject.2).jsonEndObject.2 =
        { (members.write json.jsonStartObject.2).write [0x7D] with
          level := (members.write json.jsonStartObject.2).level - 1 } := by
      apply if_pos
      rw [hstart, hinner.level, hinner.maxLevel]
      change json.separate.level + 1 < json.separate.maxLevel
      rw [(Wrote.separate h).level, (Wrote.separate h).maxLevel]
      omega
    have ho := hopen.nested hinner [0x7D]
    rw [← hstart, ← hend] at ho
    have hos := Objects.wrote os (c := c + 1) (ho.level ▸ ho.after)
      (by rw [ho.level, ho.maxLevel]; omega)
    have hcount : c + (Objects.cons members os).length = c + 1 + os.length := by
      rw [Objects.length]
      omega
    rw [hcount, Objects.write]
    simpa [Objects.text] using ho.trans hos

end

/-- The text of a document, whose members need fewer levels than there are. -/
theorem document_eq {root : Members} {maxLevels : ℕ} (h : root.depth < maxLevels) :
    document maxLevels root = 0x7B :: (root.text 0 ++ [0x7D]) := by
  have hroot := root.wrote (j := JsonOut.jsonStart maxLevels) (c := 0) rfl
    (by rw [JsonOut.jsonStart]; exact (Nat.zero_add _).trans_lt h)
  rw [document, JsonOut.jsonEnd, JsonOut.write, hroot.file]
  simp [JsonOut.jsonStart, JsonOut.write]

end StreamJson

end Inspector
