import Inspector.ToolTable.Lines
import Mathlib.Data.List.TakeWhile

/-! # Loading the tool table

The loader stays within its buffers for the files whose lines, the one behind the last line end left
out, are shorter than the buffer. What is in the pockets then was accepted from a line.
-/

namespace Inspector

open Json

namespace ToolTable

/-- Every line that ends is shorter than the buffer, with `n` characters of the first one gone. -/
def LinesShort : ℕ → Bytes → Prop
  | _, [] => True
  | n, c :: file =>
    if isLineEnd c then n < bufSize ∧ LinesShort 0 file else LinesShort (n + 1) file

instance decidableLinesShort : ∀ n file, Decidable (LinesShort n file)
  | _, [] => inferInstanceAs (Decidable True)
  | n, c :: file =>
    have := decidableLinesShort 0 file
    have := decidableLinesShort (n + 1) file
    inferInstanceAs (Decidable (if isLineEnd c then n < bufSize ∧ LinesShort 0 file
      else LinesShort (n + 1) file))

section Words

/-- A bar in a name is replaced. -/
def barless (c : UInt8) : UInt8 := if c = 0x7C then 0x25 else c

theorem barless_eq_iff {c d : UInt8} (hd : d ≠ 0x7C ∧ d ≠ 0x25) : barless c = d ↔ c = d := by
  unfold barless
  split_ifs with h
  · subst h
    exact ⟨fun h => absurd h.symm hd.2, fun h => absurd h.symm hd.1⟩
  · rfl

theorem barless_ne (c : UInt8) : barless c ≠ 0x7C := by
  unfold barless
  split_ifs with h
  · decide
  · exact h

theorem isLineEnd_barless (c : UInt8) : isLineEnd (barless c) = isLineEnd c := by
  simp only [isLineEnd, barless_eq_iff (d := 0x0D) (by decide),
    barless_eq_iff (d := 0x0A) (by decide)]

theorem appendWord_map (name w : Bytes) :
    appendWord (name.map barless) (w.map barless) = (appendWord name w).map barless := by
  have hspace : barless 0x20 = 0x20 := rfl
  unfold appendWord
  simp only [List.length_map, List.map_eq_nil_iff]
  split_ifs
  · rfl
  · rw [List.map_append, List.map_cons, hspace]
  · rfl

theorem foldl_appendWord_map (ws : List Bytes) (name : Bytes) :
    (ws.map (List.map barless)).foldl appendWord (name.map barless) =
      (ws.foldl appendWord name).map barless := by
  induction ws generalizing name with
  | nil => rfl
  | cons w ws ih =>
    rw [List.map_cons, List.foldl_cons, List.foldl_cons, appendWord_map, ih]

theorem isWord_map {w : Bytes} (h : Words.IsWord 0x20 w) :
    Words.IsWord 0x20 (w.map barless) := by
  constructor
  · intro hmem
    obtain ⟨c, hc, heq⟩ := List.mem_map.mp hmem
    rw [barless_eq_iff (by decide)] at heq
    exact h.not_mem (heq ▸ hc)
  · simpa using h.ne_nil

/-- A name made of words that fit. -/
structure Joined (name : Bytes) : Prop where
  length_le : name.length ≤ nameSize - 1
  words : (Words.words 0x20 name).foldl appendWord [] = name

theorem joined_nil : Joined [] := ⟨by decide, by simp⟩

theorem Joined.appendWord {name w : Bytes} (h : Joined name) (hw : Words.IsWord 0x20 w) :
    Joined (appendWord name w) := by
  unfold ToolTable.appendWord
  split_ifs with hfits hnil
  · subst hnil
    simp only [List.length_nil, Nat.zero_add] at hfits
    constructor
    · exact hfits.trans (by decide)
    · rw [Words.words_word hw]
      simp [ToolTable.appendWord, hfits]
  · simp only [nameSize] at hfits
    constructor
    · simp only [List.length_append, List.length_cons, nameSize]
      omega
    · rw [Words.words_append_cons, Words.words_word hw, List.foldl_append, h.words]
      simp [ToolTable.appendWord, nameSize, hfits, hnil]
  · exact h

theorem joined_foldl {ws : List Bytes} (hws : ∀ w ∈ ws, Words.IsWord 0x20 w) {name : Bytes}
    (h : Joined name) : Joined (ws.foldl appendWord name) := by
  induction ws generalizing name with
  | nil => exact h
  | cons w ws ih =>
    exact ih (fun v hv => hws v (List.mem_cons_of_mem w hv)) (h.appendWord (hws w List.mem_cons_self))

/-- Nothing is appended to a name that is full. -/
theorem foldl_appendWord_full (ws : List Bytes) {name : Bytes} (h : name.length = nameSize - 1) :
    ws.foldl appendWord name = name := by
  induction ws with
  | nil => rfl
  | cons w ws ih =>
    have hfull : ¬ name.length + w.length ≤ nameSize - 2 := by
      simp only [nameSize] at h ⊢
      omega
    rw [List.foldl_cons, appendWord, if_neg hfull, ih]

/-- The characters of a name come from its comment. -/
theorem mem_foldl_appendWord {ws : List Bytes} {name : Bytes} {c : UInt8}
    (h : c ∈ ws.foldl appendWord name) : c ∈ name ∨ c = 0x20 ∨ ∃ w ∈ ws, c ∈ w := by
  induction ws generalizing name with
  | nil => exact .inl h
  | cons w ws ih =>
    rcases ih h with hname | hspace | ⟨v, hv, hc⟩
    · unfold appendWord at hname
      split_ifs at hname
      · exact .inr (.inr ⟨w, List.mem_cons_self, hname⟩)
      · simp only [List.mem_append, List.mem_cons] at hname
        rcases hname with hname | hname | hname
        · exact .inl hname
        · exact .inr (.inl hname)
        · exact .inr (.inr ⟨w, List.mem_cons_self, hname⟩)
      · exact .inl hname
    · exact .inr (.inl hspace)
    · exact .inr (.inr ⟨v, List.mem_cons_of_mem w hv, hc⟩)

end Words

/-- A character of a line as the loader splits it. -/
def LineChar (c : UInt8) : Prop := c ≠ 0x00 ∧ isLineEnd c = false

/-- The name that the loader gives a pocket: it is read again as it is, unless it is one word that
fills it. -/
structure Given (name : Bytes) : Prop where
  chars : ∀ c ∈ name, LineChar c ∧ c ≠ 0x7C
  joined : Joined name ∨ name.length = nameSize - 1 ∧ 0x20 ∉ name

theorem Given.readable {name : Bytes} (h : Given name)
    (hfull : name.length = nameSize - 1 → 0x20 ∈ name) : Readable name := by
  have hjoined : Joined name := h.joined.resolve_right fun hno => hno.2 (hfull hno.1)
  constructor
  · intro c hc
    obtain ⟨⟨hzero, hend⟩, hbar⟩ := h.chars c hc
    exact ⟨hzero, hend, hbar⟩
  · exact hjoined.length_le
  · exact hjoined.words

theorem given_commentName {first : Bytes} {rest : List Bytes} (hfirst : 0x20 ∉ first)
    (hrest : ∀ w ∈ rest, Words.IsWord 0x20 w) (hf : ∀ c ∈ first, LineChar c)
    (hr : ∀ w ∈ rest, ∀ c ∈ w, LineChar c) : Given (commentName first rest) := by
  have hname : commentName first rest =
      (rest.foldl appendWord (first.take (nameSize - 1))).map barless := rfl
  have hspace : 0x20 ∉ (first.take (nameSize - 1)).map barless := by
    intro hmem
    obtain ⟨c, hc, heq⟩ := List.mem_map.mp hmem
    rw [barless_eq_iff (by decide)] at heq
    exact hfirst (heq ▸ List.mem_of_mem_take hc)
  constructor
  · intro d hd
    obtain ⟨c, hc, rfl⟩ := List.mem_map.mp (hname ▸ hd)
    have hline : LineChar c := by
      rcases mem_foldl_appendWord hc with hc | rfl | ⟨w, hw, hc⟩
      · exact hf c (List.mem_of_mem_take hc)
      · exact ⟨by decide, by decide⟩
      · exact hr w hw c hc
    refine ⟨⟨?_, ?_⟩, barless_ne c⟩
    · exact fun h => hline.1 ((barless_eq_iff (by decide)).mp h)
    · rw [isLineEnd_barless]
      exact hline.2
  · rw [hname]
    by_cases hlen : (first.take (nameSize - 1)).length = nameSize - 1
    · rw [foldl_appendWord_full rest hlen]
      exact .inr ⟨by rw [List.length_map, hlen], hspace⟩
    · have hle : (first.take (nameSize - 1)).length ≤ nameSize - 2 := by
        have := List.length_take_le (nameSize - 1) first
        simp only [nameSize] at hlen this ⊢
        omega
      have hstart : Joined ((first.take (nameSize - 1)).map barless) := by
        by_cases hnil : first.take (nameSize - 1) = []
        · rw [hnil]
          exact joined_nil
        · have hword : Words.IsWord 0x20 ((first.take (nameSize - 1)).map barless) :=
            ⟨hspace, by simpa using hnil⟩
          have := joined_nil.appendWord hword
          rwa [appendWord, if_pos (by simpa using hle), if_pos rfl] at this
      rw [← foldl_appendWord_map]
      apply Or.inl
      apply joined_foldl _ hstart
      intro w hw
      obtain ⟨v, hv, rfl⟩ := List.mem_map.mp hw
      exact isWord_map (hrest v hv)

/-- What a pocket that was accepted from a line is, and one that is all zeros. -/
structure Accepted (p : Pocket) : Prop where
  toolId : 0 ≤ p.tool.toolId
  pocketId : 0 ≤ p.pocketId ∧ p.pocketId < 32768
  name : Given p.name

theorem given_nil : Given [] := ⟨fun _ h => absurd h List.not_mem_nil, .inl joined_nil⟩

theorem accepted_blank : Accepted .blank := ⟨le_refl _, ⟨le_refl _, by decide⟩, given_nil⟩

theorem bmod_lt (n : ℕ) : (n : ℤ).bmod (2 ^ 16) < 32768 := by
  have h := Int.bmod_lt (x := n) (m := 2 ^ 16) (by norm_num)
  omega

theorem readWord_frame {letter : UInt8} {value : Bytes} {p q : Pocket}
    (h : readWord letter value p = .ok q) (hp : p.pocketId < 32768) :
    q.pocketId < 32768 ∧ q.name = p.name := by
  have hoffset : ∀ {i : Axis}, readOffset i value p = .ok q →
      q.pocketId < 32768 ∧ q.name = p.name := by
    intro i h
    unfold readOffset at h
    split at h
    · cases h
    · cases h
      exact ⟨hp, rfl⟩
  unfold readWord at h
  split at h
  · split at h
    · cases h
    · cases h
      exact ⟨hp, rfl⟩
  · split at h
    · cases h
    · rw [← Except.ok.inj h]
      dsimp only
      exact ⟨bmod_lt _, rfl⟩
  · exact hoffset h
  · exact hoffset h
  · exact hoffset h
  · exact hoffset h
  · exact hoffset h
  · split at h
    · cases h
    · cases h
      exact ⟨hp, rfl⟩
  · cases h
    exact ⟨hp, rfl⟩

theorem readWords_frame {ws : List Bytes} {p q : Pocket} (h : readWords ws p = .ok q)
    (hws : ∀ w ∈ ws, Words.IsWord 0x20 w ∧ ∀ c ∈ w, LineChar c) (hp : p.pocketId < 32768)
    (hname : Given p.name) : q.pocketId < 32768 ∧ Given q.name := by
  induction ws, p using readWords.induct with
  | case1 p =>
    cases h
    exact ⟨hp, hname⟩
  | case2 ws p ih => exact absurd rfl (hws [] List.mem_cons_self).1.ne_nil
  | case3 value ws p =>
    rw [readWords, if_pos rfl] at h
    cases h
    have hfirst := hws _ List.mem_cons_self
    have hrest : ∀ w ∈ ws, Words.IsWord 0x20 w ∧ ∀ c ∈ w, LineChar c := fun w hw =>
      hws w (List.mem_cons_of_mem _ hw)
    refine ⟨hp, given_commentName ?_ (fun w hw => (hrest w hw).1) ?_ fun w hw => (hrest w hw).2⟩
    · exact fun hmem => hfirst.1.not_mem (List.mem_cons_of_mem _ hmem)
    · exact fun c hc => hfirst.2 c (List.mem_cons_of_mem _ hc)
  | case4 letter value ws p hne e herror =>
    rw [readWords, if_neg hne, herror] at h
    cases h
  | case5 letter value ws p hne p' hok ih =>
    rw [readWords, if_neg hne, hok] at h
    obtain ⟨hp', hname'⟩ := readWord_frame hok hp
    exact ih h (fun w hw => hws w (List.mem_cons_of_mem _ hw)) hp' (hname' ▸ hname)

namespace Reader

/-- What holds between two characters. -/
structure Sound (random : Bool) (n : ℕ) (r : Reader) : Prop where
  chars : ∀ c ∈ r.buf, isLineEnd c = false
  length : r.pockets.length = n
  accepted : ∀ p ∈ r.pockets, Accepted p
  placed : random = true → ∀ (k : ℕ) (p : Pocket), r.pockets[k]? = some p → p = .blank ∨ p.pocketId = k
  first : random = false → r.pockets[0]? = some .blank

variable {random : Bool} {n : ℕ} {r r' : Reader}

theorem Sound.put (h : r.Sound random n) {p : Pocket} (hp : Accepted p) {entry : ℕ}
    (hplaced : random = true → p.pocketId = entry) (hfirst : random = false → entry ≠ 0) (m : ℕ) :
    Sound random n { r with entry := entry, nTools := m, pockets := r.pockets.set entry p } where
  chars := h.chars
  length := by simp [h.length]
  accepted q hq := by
    rcases List.mem_or_eq_of_mem_set hq with hq | rfl
    · exact h.accepted q hq
    · exact hp
  placed hrandom k q hq := by
    simp only [List.getElem?_set] at hq
    split_ifs at hq with heq
    · cases hq
      exact .inr (heq ▸ hplaced hrandom)
    · exact h.placed hrandom k q hq
  first hno := by
    simp only [List.getElem?_set, if_neg (hfirst hno)]
    exact h.first hno

theorem Sound.store (h : r.Sound random n) {p : Pocket} (hp : p.pocketId < 32768)
    (hname : Given p.name) : (r.store random p).Sound random n := by
  unfold Reader.store
  by_cases hids : 0 ≤ p.tool.toolId ∧ 0 ≤ p.pocketId
  · have haccepted : Accepted p := ⟨hids.1, ⟨hids.2, hp⟩, hname⟩
    have hskip : ∀ entry, Sound random n { r with entry := entry } := fun entry =>
      ⟨h.chars, h.length, h.accepted, h.placed, h.first⟩
    rw [if_pos hids]
    simp only
    cases random with
    | true =>
      simp only [if_true]
      split_ifs
      · exact h.put haccepted (fun _ => (Int.toNat_of_nonneg hids.2).symm) (fun hno => nomatch hno) _
      · exact hskip _
    | false =>
      simp only [Bool.false_eq_true, if_false]
      split_ifs
      · exact h.put haccepted (fun hyes => nomatch hyes) (fun _ => Nat.succ_ne_zero _) _
      · exact hskip _
  · rw [if_neg hids]
    exact h

@[simp] theorem buf_store (p : Pocket) : (r.store random p).buf = r.buf := by
  unfold Reader.store
  split_ifs
  · simp only
    split_ifs <;> rfl
  · simp only
    split_ifs <;> rfl
  · rfl

@[simp] theorem buf_endLine : (r.endLine random).buf = [] := by
  unfold Reader.endLine
  simp only
  split_ifs
  · rfl
  · split
    · rfl
    · rw [buf_store]

theorem Sound.endLine (h : r.Sound random n) : (r.endLine random).Sound random n := by
  have hclear : ∀ status, Sound random n { r with buf := [], status := status } := fun status =>
    ⟨fun _ hc => absurd hc List.not_mem_nil, h.length, h.accepted, h.placed, h.first⟩
  unfold Reader.endLine
  simp only
  split_ifs
  · exact hclear r.status
  · split
    · exact hclear _
    · rename_i p hread
      have hwords : ∀ w ∈ Words.words 0x20 (r.buf.takeWhile (· ≠ 0x00)),
          Words.IsWord 0x20 w ∧ ∀ c ∈ w, LineChar c := by
        intro w hw
        refine ⟨Words.isWord_of_mem hw, fun c hc => ?_⟩
        have hmem := Words.mem_of_mem_words hw hc
        refine ⟨by simpa using List.mem_takeWhile_imp hmem, ?_⟩
        exact h.chars c (List.takeWhile_prefix _ |>.subset hmem)
      obtain ⟨hp, hname⟩ := readWords_frame hread hwords (by decide) given_nil
      exact (hclear .ok).store hp hname

theorem Sound.readChar (h : r.Sound random n) {c : UInt8} (hr : r.readChar random c = some r') :
    r'.Sound random n := by
  unfold Reader.readChar at hr
  by_cases hend : isLineEnd c = true
  · rw [if_pos hend] at hr
    split_ifs at hr
    cases hr
    exact h.endLine
  · rw [if_neg hend] at hr
    cases hr
    refine ⟨?_, h.length, h.accepted, h.placed, h.first⟩
    intro d hd
    simp only at hd
    split_ifs at hd
    · rcases List.mem_append.mp hd with hd | hd
      · exact h.chars d hd
      · rw [List.mem_singleton.mp hd]
        simpa using hend
    · exact h.chars d hd

theorem Sound.foldlM (h : r.Sound random n) {file : Bytes}
    (hr : file.foldlM (Reader.readChar random) r = some r') : r'.Sound random n := by
  induction file generalizing r with
  | nil =>
    cases hr
    exact h
  | cons c file ih =>
    rw [List.foldlM_cons] at hr
    obtain ⟨r₁, h₁, hrest⟩ := Option.bind_eq_some_iff.mp hr
    exact ih (h.readChar h₁) hrest

/-- The loader reads a file to its end when its lines are short, and only then. -/
theorem isSome_foldlM (file : Bytes) {m : ℕ} (h : r.buf.length = min bufSize m) :
    (file.foldlM (Reader.readChar random) r).isSome ↔ LinesShort m file := by
  induction file generalizing r m with
  | nil => simp [LinesShort]
  | cons c file ih =>
    rw [List.foldlM_cons, LinesShort, Reader.readChar]
    by_cases hend : isLineEnd c = true
    · rw [if_pos hend, if_pos hend]
      by_cases hfits : r.buf.length < bufSize
      · have hm : m < bufSize := by omega
        rw [if_pos hfits]
        simp only [Option.bind_eq_bind, Option.bind_some, hm, true_and]
        exact ih (by simp)
      · have hm : ¬ m < bufSize := by omega
        simp [hfits, hm]
    · rw [if_neg hend, if_neg hend]
      apply ih
      simp only
      split_ifs
      · rw [List.length_append, List.length_singleton]
        omega
      · omega

end Reader

end ToolTable

end Inspector
