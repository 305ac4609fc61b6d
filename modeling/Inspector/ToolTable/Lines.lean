import Inspector.ToolTable.Table

/-! # The line of a pocket

A pocket whose numbers fit in its line, and whose name is one that reading its words gives again, is
read from its line as it was.
-/

namespace Inspector

open Json

/-- A character of a number. -/
def IsNumeral (b : UInt8) : Prop := isDigit b = true ∨ b = 0x2E ∨ b = 0x2D

theorem isNumeral_of_mem_decimal {n : ℕ} {b : UInt8} (h : b ∈ decimal n) : IsNumeral b :=
  .inl (isDigit_of_mem_decimal h)

theorem isNumeral_of_mem_fixed3 {v : ℚ} {b : UInt8} (h : b ∈ fixed3 v) : IsNumeral b := by
  have hdigit : ∀ k, IsNumeral (digit (k % 10)) := fun k =>
    .inl (isDigit_digit (Nat.mod_lt _ (by decide)))
  unfold fixed3 at h
  simp only [List.mem_append, List.mem_cons, List.not_mem_nil, or_false] at h
  rcases h with (hsign | hwhole) | rfl | rfl | rfl | rfl
  · split at hsign
    · exact .inr (.inr (List.mem_singleton.mp hsign))
    · cases hsign
  · exact isNumeral_of_mem_decimal hwhole
  · exact .inr (.inl rfl)
  · exact hdigit _
  · exact hdigit _
  · exact hdigit _

theorem IsNumeral.ne {b : UInt8} (h : IsNumeral b) {c : UInt8} (hc : isDigit c = false)
    (hpoint : c ≠ 0x2E) (hminus : c ≠ 0x2D) : b ≠ c := by
  rintro rfl
  rcases h with h | h | h
  · rw [hc] at h
    cases h
  · exact hpoint h
  · exact hminus h

theorem length_fixed3_le {v : ℚ} (h : Milli v) : (fixed3 v).length ≤ 11 := by
  obtain ⟨z, hz, rfl⟩ := h
  have hround := roundEven_milli z
  have hlen : (decimal (z.natAbs / 1000)).length ≤ 6 := by
    apply length_decimal_le (k := 5)
    norm_num [maxIntDigits] at hz ⊢
    omega
  unfold fixed3
  simp only [hround, List.length_append, List.length_cons, List.length_nil]
  split_ifs
  · simp only [List.length_cons, List.length_nil]
    omega
  · simp only [List.length_nil]
    omega

namespace ToolTable

/-- A name that is read from its words as it is. -/
structure Readable (name : Bytes) : Prop where
  chars : ∀ c ∈ name, c ≠ 0x00 ∧ isLineEnd c = false ∧ c ≠ 0x7C
  length_le : name.length ≤ nameSize - 1
  words : (Words.words 0x20 name).foldl appendWord [] = name

/-- A pocket that fits in a line. -/
structure Storable (p : Pocket) : Prop where
  toolId : 0 ≤ p.tool.toolId ∧ p.tool.toolId < 65536
  pocketId : 0 ≤ p.pocketId ∧ p.pocketId < 32768
  offset : ∀ i, Milli (p.tool.offset i)
  diameter : Milli (p.tool.radius * 2)
  name : Readable p.name

variable {p q : Pocket}

theorem toUint16_cast {z : ℤ} (h : 0 ≤ z ∧ z < 65536) : (toUint16 z : ℤ) = z := by
  unfold toUint16
  omega

theorem readWord_tool {z : ℤ} (h : 0 ≤ z ∧ z < 65536) (q : Pocket) :
    readWord 0x54 (decimal (toUint16 z)) q =
      .ok { q with tool := { q.tool with toolId := z } } := by
  have hlt : toUint16 z < 10 ^ maxIntDigits := by
    norm_num [maxIntDigits, toUint16]
    omega
  have hread := readUint_decimal hlt ends_nil
  rw [List.append_nil] at hread
  have hmod : (toUint16 z : ℤ).bmod (2 ^ 32) = z := by
    rw [toUint16_cast h]
    apply Int.bmod_eq_of_le <;> omega
  have hcaps : caps 0x54 = 0x54 := rfl
  simp only [readWord, hcaps, hread, hmod]

theorem readWord_pocket {z : ℤ} (h : 0 ≤ z ∧ z < 32768) (q : Pocket) :
    readWord 0x50 (decimal (toUint16 z)) q = .ok { q with pocketId := z } := by
  have hlt : toUint16 z < 10 ^ maxIntDigits := by
    norm_num [maxIntDigits, toUint16]
    omega
  have hread := readUint_decimal hlt ends_nil
  rw [List.append_nil] at hread
  have hmod : (toUint16 z : ℤ).bmod (2 ^ 16) = z := by
    rw [toUint16_cast ⟨h.1, by omega⟩]
    apply Int.bmod_eq_of_le <;> omega
  have hcaps : caps 0x50 = 0x50 := rfl
  simp only [readWord, hcaps, hread, hmod]

theorem readWord_offset {v : ℚ} (h : Milli v) (i : Axis) (q : Pocket) :
    readWord (axisLetter i) (fixed3 v) q =
      .ok { q with tool := { q.tool with offset := Function.update q.tool.offset i v } } := by
  have hread := readFloat_fixed3 h ends_nil
  rw [List.append_nil] at hread
  have hoffset : readWord (axisLetter i) (fixed3 v) q = readOffset i (fixed3 v) q := by
    cases i <;> rfl
  rw [hoffset, readOffset, hread]

theorem readWord_diameter {r : ℚ} (h : Milli (r * 2)) (q : Pocket) :
    readWord 0x44 (fixed3 (r * 2)) q = .ok { q with tool := { q.tool with radius := r } } := by
  have hread := readFloat_fixed3 h ends_nil
  rw [List.append_nil] at hread
  have hhalf : r * 2 / 2 = r := by ring
  have hcaps : caps 0x44 = 0x44 := rfl
  simp only [readWord, hcaps, hread, hhalf]

/-- The words of the offsets set all the offsets that are not zero. -/
theorem readWords_offsets (h : ∀ i, Milli (p.tool.offset i)) (rest : List Bytes) :
    ∀ (l : List Axis) (q : Pocket), ∃ offset : Axis → ℚ,
      (∀ i, offset i = if i ∈ l ∧ p.tool.offset i ≠ 0 then p.tool.offset i else q.tool.offset i) ∧
      readWords ((l.filter fun i => p.tool.offset i ≠ 0).map
          (fun i => axisLetter i :: fixed3 (p.tool.offset i)) ++ rest) q =
        readWords rest { q with tool := { q.tool with offset := offset } }
  | [], q => ⟨q.tool.offset, fun i => by simp, rfl⟩
  | i :: l, q => by
    by_cases h0 : p.tool.offset i = 0
    · obtain ⟨offset, hoffset, hread⟩ := readWords_offsets h rest l q
      refine ⟨offset, fun k => ?_, ?_⟩
      · rw [hoffset]
        by_cases hk : k = i
        · simp [hk, h0]
        · simp [hk]
      · rw [List.filter_cons_of_neg (by simpa using h0)]
        exact hread
    · obtain ⟨offset, hoffset, hread⟩ := readWords_offsets h rest l
        { q with tool := { q.tool with
            offset := Function.update q.tool.offset i (p.tool.offset i) } }
      refine ⟨offset, fun k => ?_, ?_⟩
      · rw [hoffset]
        by_cases hk : k = i
        · subst hk
          simp [h0]
        · simp [hk]
      · rw [List.filter_cons_of_pos (by simpa using h0), List.map_cons, List.cons_append, readWords,
          if_neg (by cases i <;> decide), readWord_offset (h i)]
        exact hread

/-- The words of a comment with a name. -/
def commentWords (name : Bytes) : List Bytes :=
  if name ≠ [] then [0x3B] :: Words.words 0x20 name else []

theorem readWords_comment (h : Readable p.name) (hq : q.name = []) :
    readWords (commentWords p.name) q = .ok { q with name := p.name } := by
  unfold commentWords
  split_ifs with hname
  · have hbars : p.name.map (fun c => if c = 0x7C then 0x25 else c) = p.name := by
      conv_rhs => rw [← List.map_id p.name]
      apply List.map_congr_left
      intro c hc
      exact if_neg (h.chars c hc).2.2
    have hcomment : commentName [] (Words.words 0x20 p.name) = p.name := by
      rw [commentName, List.take_nil, h.words, hbars]
    rw [readWords, if_pos rfl, hcomment]
  · rw [readWords, not_not.mp hname, ← hq]

/-- The words of a line are read as the pocket. -/
theorem readWords_toolWords (h : Storable p) :
    readWords (toolWords p ++ commentWords p.name) .unset = .ok p := by
  have hradius : ∀ q : Pocket, q.tool.radius = 0 → q.name = [] →
      readWords ((if p.tool.radius ≠ 0 then [0x44 :: fixed3 (p.tool.radius * 2)] else []) ++
        commentWords p.name) q =
      .ok { q with tool := { q.tool with radius := p.tool.radius }, name := p.name } := by
    intro q hq hname
    split_ifs with h0
    · rw [List.singleton_append, readWords, if_neg (by decide), readWord_diameter h.diameter]
      exact readWords_comment h.name hname
    · rw [List.nil_append, readWords_comment h.name hname, not_not.mp h0, ← hq]
  obtain ⟨offset, hoffset, hread⟩ := readWords_offsets (p := p) h.offset
    ((if p.tool.radius ≠ 0 then [0x44 :: fixed3 (p.tool.radius * 2)] else []) ++
      commentWords p.name) axes
    ⟨⟨fun _ => 0, 0, p.tool.toolId⟩, p.pocketId, []⟩
  have heq : offset = p.tool.offset := by
    funext i
    have hmem : i ∈ axes := by cases i <;> decide
    rw [hoffset]
    by_cases h0 : p.tool.offset i = 0
    · simp [h0]
    · simp [hmem, h0]
  rw [hradius _ rfl rfl, heq] at hread
  unfold toolWords
  rw [List.append_assoc, List.append_assoc, List.cons_append, List.singleton_append, readWords,
    if_neg (by decide), readWord_pocket h.pocketId]
  simp only
  rw [readWords, if_neg (by decide), readWord_tool h.toolId]
  exact hread

/-- What no character of the words in front of a name is. -/
def Apart (c : UInt8) : Prop := c ≠ 0x00 ∧ isLineEnd c = false ∧ c ≠ 0x20

instance (c : UInt8) : Decidable (Apart c) := inferInstanceAs (Decidable (_ ∧ _ ∧ _))

theorem apart_of_isNumeral {b : UInt8} (h : IsNumeral b) : Apart b := by
  refine ⟨h.ne rfl (by decide) (by decide), ?_, h.ne rfl (by decide) (by decide)⟩
  have hcr := h.ne (c := 0x0D) rfl (by decide) (by decide)
  have hlf := h.ne (c := 0x0A) rfl (by decide) (by decide)
  simp [isLineEnd, hcr, hlf]

theorem apart_of_mem_toolWords {w : Bytes} (h : w ∈ toolWords p) {c : UInt8} (hc : c ∈ w) :
    Apart c := by
  unfold toolWords at h
  simp only [List.cons_append, List.nil_append, List.mem_cons, List.mem_append, List.mem_map] at h
  have hletter : ∀ {letter : UInt8} {text : Bytes}, Apart letter → (∀ b ∈ text, IsNumeral b) →
      w = letter :: text → Apart c := by
    rintro letter text hl ht rfl
    rcases List.mem_cons.mp hc with rfl | hc
    · exact hl
    · exact apart_of_isNumeral (ht c hc)
  rcases h with rfl | rfl | ⟨i, -, rfl⟩ | h
  · exact hletter (by decide) (fun b hb => isNumeral_of_mem_decimal hb) rfl
  · exact hletter (by decide) (fun b hb => isNumeral_of_mem_decimal hb) rfl
  · exact hletter (by cases i <;> decide) (fun b hb => isNumeral_of_mem_fixed3 hb) rfl
  · split at h
    · exact hletter (by decide) (fun b hb => isNumeral_of_mem_fixed3 hb) (List.mem_singleton.mp h)
    · cases h

theorem isWord_of_mem_toolWords {w : Bytes} (h : w ∈ toolWords p) : Words.IsWord 0x20 w := by
  refine ⟨fun hc => (apart_of_mem_toolWords h hc).2.2 rfl, ?_⟩
  rintro rfl
  unfold toolWords at h
  simp only [List.cons_append, List.nil_append, List.mem_cons, List.mem_append, List.mem_map] at h
  rcases h with h | h | ⟨i, -, h⟩ | h
  · cases h
  · cases h
  · cases h
  · split at h
    · cases List.mem_singleton.mp h
    · cases h

theorem words_toolLine (p : Pocket) :
    Words.words 0x20 (toolLine p) = toolWords p ++ commentWords p.name := by
  unfold toolLine commentWords
  rw [Words.words_flatMap_append fun w hw => isWord_of_mem_toolWords hw]
  split_ifs
  · have hsemicolon : Words.IsWord (0x20 : UInt8) [0x3B] := ⟨by decide, List.cons_ne_nil _ _⟩
    have hsplit := Words.words_append_cons (0x20 : UInt8) [0x3B] p.name
    rw [Words.words_word hsemicolon] at hsplit
    exact congrArg (toolWords p ++ ·) hsplit
  · rw [Words.words_nil]

theorem toolLine_chars (h : Readable p.name) {c : UInt8} (hc : c ∈ toolLine p) :
    c ≠ 0x00 ∧ isLineEnd c = false := by
  unfold toolLine at hc
  rcases List.mem_append.mp hc with hc | hc
  · obtain ⟨w, hw, hc⟩ := List.mem_flatMap.mp hc
    rcases List.mem_append.mp hc with hc | hc
    · have := apart_of_mem_toolWords hw hc
      exact ⟨this.1, this.2.1⟩
    · rw [List.mem_singleton.mp hc]
      decide
  · split at hc
    · simp only [List.cons_append, List.nil_append, List.mem_cons] at hc
      rcases hc with rfl | rfl | hc
      · decide
      · decide
      · exact ⟨(h.chars c hc).1, (h.chars c hc).2.1⟩
    · cases hc

theorem length_toolLine_lt (h : Storable p) : (toolLine p).length < bufSize := by
  have hid : ∀ {z : ℤ}, 0 ≤ z ∧ z < 65536 → (decimal (toUint16 z)).length ≤ 5 := by
    intro z hz
    apply length_decimal_le (k := 4)
    have := toUint16_cast hz
    omega
  have hpocket := hid (z := p.pocketId) ⟨h.pocketId.1, by have := h.pocketId.2; omega⟩
  have htool := hid h.toolId
  have hoffsets : ∀ l : List Axis, (((l.filter fun i => p.tool.offset i ≠ 0).map
      (fun i => axisLetter i :: fixed3 (p.tool.offset i))).flatMap (· ++ [0x20])).length ≤
        13 * l.length := by
    intro l
    induction l with
    | nil => simp
    | cons i l ih =>
      have hlen := length_fixed3_le (h.offset i)
      by_cases h0 : p.tool.offset i = 0
      · rw [List.filter_cons_of_neg (by simpa using h0), List.length_cons]
        omega
      · rw [List.filter_cons_of_pos (by simpa using h0), List.map_cons, List.flatMap_cons,
          List.length_append, List.length_append, List.length_cons, List.length_singleton,
          List.length_cons]
        omega
  have haxes := hoffsets axes
  have hradius : ((if p.tool.radius ≠ 0 then [0x44 :: fixed3 (p.tool.radius * 2)] else []).flatMap
      (· ++ [0x20])).length ≤ 13 := by
    have hlen := length_fixed3_le h.diameter
    split_ifs
    · simp
      omega
    · simp
  have hname : (if p.name ≠ [] then [0x3B, 0x20] ++ p.name else []).length ≤ 102 := by
    have hlen := h.name.length_le
    simp only [nameSize] at hlen
    split_ifs
    · simp only [List.cons_append, List.nil_append, List.length_cons]
      omega
    · simp
  have hids : ([0x50 :: decimal (toUint16 p.pocketId), 0x54 :: decimal (toUint16 p.tool.toolId)
      ].flatMap (· ++ [0x20])).length ≤ 14 := by
    simp only [List.flatMap_cons, List.flatMap_nil, List.length_append, List.length_cons,
      List.length_nil]
    omega
  unfold toolLine toolWords
  rw [List.flatMap_append, List.flatMap_append, List.length_append, List.length_append,
    List.length_append]
  have hsum := Nat.add_le_add (Nat.add_le_add (Nat.add_le_add hids haxes) hradius) hname
  exact lt_of_le_of_lt hsum (by decide)

end ToolTable

end Inspector
