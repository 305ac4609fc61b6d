import Inspector.Laser.Clusters

/-! # A cluster is taken apart

A line with several S values becomes a line for each of them, with an equal share of the distance.
The first one has the other words. This takes a command, other words and values that fit in the
buffers.
-/

namespace Inspector

open Json

section Numbers

theorem scanFloat_append {rest : Bytes} (h : Ends rest) :
    ∀ {s s' : Scan} {text : Bytes}, scanFloat s text = (s', []) →
      scanFloat s (text ++ rest) = (s', rest)
  | s, s', [], hscan => by
    obtain ⟨rfl, -⟩ := Prod.mk.inj hscan
    exact scanFloat_ends s h
  | s, s', b :: text, hscan => by
    rw [scanFloat] at hscan
    rw [List.cons_append, scanFloat]
    split_ifs at hscan ⊢
    · exact scanFloat_append h hscan
    · exact scanFloat_append h hscan
    · cases (Prod.mk.inj hscan).2

theorem sign_append {text : Bytes} (h : text ≠ []) (rest : Bytes) :
    sign (text ++ rest) = ((sign text).1, (sign text).2 ++ rest) := by
  obtain ⟨b, l, rfl⟩ := List.exists_cons_of_ne_nil h
  by_cases hminus : b = 0x2D
  · subst hminus
    rfl
  · by_cases hplus : b = 0x2B
    · subst hplus
      rfl
    · simp [sign, hminus, hplus]

/-- What ends a number does not change it. -/
theorem readFloat_append {text rest : Bytes} {v : ℚ} (h : readFloat text = some (v, []))
    (hrest : Ends rest) : readFloat (text ++ rest) = some (v, rest) := by
  have hne : text ≠ [] := by
    rintro rfl
    simp [readFloat, sign, scanFloat] at h
  obtain ⟨s, hscan⟩ : ∃ s, scanFloat {} (sign text).2 = (s, []) := by
    simp only [readFloat] at h
    split_ifs at h with hok
    · exact ⟨_, Prod.ext rfl (Prod.mk.inj (Option.some.inj h)).2⟩
    · exact ⟨_, Prod.ext rfl (Prod.mk.inj (Option.some.inj h)).2⟩
  simp only [readFloat, hscan] at h
  simp only [readFloat, sign_append hne, scanFloat_append hrest hscan]
  split_ifs at h ⊢
  · rw [← (Prod.mk.inj (Option.some.inj h)).1]
  · rw [← (Prod.mk.inj (Option.some.inj h)).1]

end Numbers

namespace Laser

/-- The lines that a cluster still gives. -/
def Cluster.lines (c : Cluster) : List Bytes :=
  if c.count = 0 then []
  else
    match c.sval.drop c.next with
    | [] => []
    | v :: vs => (c.head ++ v ++ c.param) :: vs.map (c.head ++ ·)

/-- The lines of a cluster fit in its block. -/
structure Cluster.Sound (c : Cluster) : Prop where
  count : c.count ≠ 0 → c.count = c.sval.length ∧ c.next < c.count ∧ c.head ≠ []
  length_lt : ∀ line ∈ c.lines, line.length < blockSize

theorem Cluster.Sound.nextLine {c : Cluster} (h : c.Sound) (hcount : c.count ≠ 0) :
    ∃ line c', c.nextLine = some (line, c') ∧ c.lines = line :: c'.lines ∧ c'.Sound ∧
      line ≠ [] := by
  obtain ⟨hlen, hnext, hhead⟩ := h.count hcount
  have hlt : c.next < c.sval.length := hlen ▸ hnext
  have hdrop : c.sval.drop c.next = c.sval[c.next] :: c.sval.drop (c.next + 1) :=
    List.drop_eq_getElem_cons hlt
  have hlines : c.lines = (c.head ++ c.sval[c.next] ++ c.param) ::
      (c.sval.drop (c.next + 1)).map (c.head ++ ·) := by
    simp only [Cluster.lines, if_neg hcount, hdrop]
  have hfits := h.length_lt _ (hlines ▸ List.mem_cons_self)
  have hget : c.sval.getD c.next [] = c.sval[c.next] := by
    simp [List.getElem?_eq_getElem hlt]
  let count := if c.next + 1 = c.count then 0 else c.count
  have hrest : Cluster.lines { c with param := [], next := c.next + 1, count := count } =
      (c.sval.drop (c.next + 1)).map (c.head ++ ·) := by
    unfold Cluster.lines
    simp only [count]
    split_ifs with hlast hzero
    · rw [List.drop_eq_nil_of_le (by omega)]
      rfl
    · contradiction
    · cases c.sval.drop (c.next + 1) with
      | nil => rfl
      | cons v vs => simp
  refine ⟨c.head ++ c.sval[c.next] ++ c.param,
    { c with param := [], next := c.next + 1, count := count }, ?_, ?_, ⟨?_, ?_⟩, ?_⟩
  · simp only [Cluster.nextLine, hget, if_pos hfits, count]
  · rw [hrest, hlines]
  · intro hne
    simp only [count] at hne ⊢
    split_ifs at hne ⊢ with hlast
    · contradiction
    · exact ⟨hlen, by omega, hhead⟩
  · intro line hline
    rw [hrest] at hline
    exact h.length_lt line (hlines ▸ List.mem_cons_of_mem _ hline)
  · simp [hhead]

/-- The parts of a line with S values: the command in front of the first one, made of a `G1`, an
axis with its distance and other words, and the values. -/
structure Form where
  command : Bytes
  letter : UInt8
  axis : UInt8
  number : Bytes
  distance : ℚ
  words : Bytes
  values : List Bytes

namespace Form

/-- A line has these parts. -/
structure Of (f : Form) (content : Bytes) : Prop where
  content : content = f.command ++ 0x53 :: [0x3A].intercalate f.values
  command : f.command.filter (· ≠ 0x20) = f.letter :: 0x31 :: f.axis :: (f.number ++ f.words)
  chars : ∀ c ∈ f.command, c ≠ 0x00 ∧ c ≠ 0x53
  distance : readFloat f.number = some (f.distance, [])
  ends : Ends f.words
  two_le : 2 ≤ f.values.length
  values : ∀ v ∈ f.values, v ≠ [] ∧ ∀ c ∈ v, c ≠ 0x3A ∧ c ≠ 0x00 ∧ isLineEnd c = false

/-- The text of the share of the distance that each line has. -/
def share (f : Form) : Bytes :=
  (ftoaText (f.distance / f.values.length) 8).rdropWhile (· = 0x30)

/-- What all the lines begin with. -/
def head (f : Form) : Bytes := f.letter :: 0x31 :: f.axis :: (f.share ++ [0x53])

/-- The lines for the values. -/
def lines (f : Form) (eol : UInt8) : List Bytes :=
  match f.values with
  | [] => []
  | v :: vs => (f.head ++ v ++ f.words ++ [eol]) :: vs.map fun v => f.head ++ v ++ [eol]

/-- The parts fit in the buffers. -/
structure Fits (f : Form) (copies : Bool) : Prop where
  length_le : f.values.length ≤ clusterSize
  value_lt : ∀ v ∈ f.values, v.length + 1 < svalSize
  block_lt : f.number.length + f.words.length + 4 < blockSize
  copy_lt : copies = true → f.number.length + f.words.length + 4 < paramSize
  param_lt : f.words.length + 1 < paramSize
  number_le : (ftoaText (f.distance / f.values.length) 8).length ≤ coordValueLength
  first_lt : ∀ v ∈ f.values.head?, f.head.length + v.length + f.words.length + 1 < blockSize

variable {f : Form} {content : Bytes} {copies : Bool} {eol : UInt8}

/-- The share is the distance over the number of values, to eight decimals. -/
theorem exists_denotes_share (f : Form) :
    ∃ v, Denotes f.share 8 v ∧ |v - f.distance / f.values.length| ≤ 1 / 2 / 10 ^ 8 := by
  obtain ⟨v, hv, hle⟩ := exists_denotes_ftoaText (f.distance / f.values.length) 8
  exact ⟨v, hv.rdropWhile, hle⟩

theorem splitCommand_append {text : Bytes} :
    ∀ {command : Bytes}, (∀ c ∈ command, c ≠ 0x00 ∧ c ≠ 0x53) →
      splitCommand (command ++ 0x53 :: text) =
        (command.filter (· ≠ 0x20) ++ [0x53], some text)
  | [], _ => rfl
  | c :: command, h => by
    obtain ⟨hzero, hs⟩ := h c List.mem_cons_self
    have hrest : splitCommand (command ++ 0x53 :: text) = _ :=
      splitCommand_append fun d hd => h d (List.mem_cons_of_mem c hd)
    rw [List.cons_append, splitCommand, if_neg hzero, if_neg hs, hrest]
    by_cases hspace : c = 0x20
    · simp [hspace]
    · simp [hspace]

theorem copyValue_eq {v : Bytes} (hlen : v.length < svalSize) (hv : ∀ c ∈ v, c ≠ 0x00) :
    copyValue v = some v := by
  have hcstr : cstr v = v := by
    unfold cstr
    rw [List.takeWhile_eq_self_iff]
    intro c hc
    simpa using hv c hc
  rw [copyValue, hcstr, if_pos hlen]

/-- The rest of a value is collected up to a colon. -/
theorem splitValues_append (eol : UInt8) (count : ℕ) (text : Bytes) :
    ∀ {v : Bytes}, (∀ c ∈ v, c ≠ 0x3A ∧ c ≠ 0x00) → ∀ value : Bytes,
      splitValues eol count value (v ++ text) = splitValues eol count (value ++ v) text
  | [], _, value => by simp
  | c :: v, h, value => by
    obtain ⟨hcolon, hzero⟩ := h c List.mem_cons_self
    have hrest := splitValues_append eol count text (v := v)
      (fun d hd => h d (List.mem_cons_of_mem c hd)) (value ++ [c])
    rw [List.cons_append, splitValues, if_neg hzero, if_neg hcolon, hrest, List.append_assoc,
      List.singleton_append]

theorem intercalate_cons (v : Bytes) (vs : List Bytes) :
    [0x3A].intercalate (v :: vs) = v ++ vs.flatMap (0x3A :: ·) := by
  induction vs generalizing v with
  | nil => simp
  | cons w vs ih => rw [List.intercalate_cons_cons, ih]; simp

/-- The values are the texts between the colons. -/
theorem splitValues_values (heol : eol ≠ 0x3A ∧ eol ≠ 0x00) :
    ∀ (vs : List Bytes) (count : ℕ) (value v : Bytes),
      (∀ w ∈ (value ++ v) :: vs, w ≠ [] ∧ (∀ c ∈ w, c ≠ 0x3A ∧ c ≠ 0x00) ∧
        w.length + 1 < svalSize) → count + (vs.length + 1) ≤ clusterSize →
      splitValues eol count value (v ++ (vs.flatMap (0x3A :: ·) ++ [eol])) =
        some (some (((value ++ v) :: vs).map (· ++ [eol])))
  | vs, count, value, v, h, hcount => by
    obtain ⟨-, hchars, hlen⟩ := h _ List.mem_cons_self
    have hcopy : copyValue (value ++ v ++ [eol]) = some (value ++ v ++ [eol]) := by
      apply copyValue_eq
      · rw [List.length_append, List.length_singleton]
        exact hlen
      · intro c hc
        rcases List.mem_append.mp hc with hc | hc
        · exact (hchars c hc).2
        · rw [List.mem_singleton.mp hc]
          exact heol.2
    rw [splitValues_append eol count _ fun c hc => hchars c (List.mem_append_right _ hc)]
    cases vs with
    | nil =>
      rw [List.flatMap_nil, List.nil_append, splitValues, if_neg heol.2, if_neg heol.1, splitValues,
        hcopy]
      rfl
    | cons w vs =>
      obtain ⟨hne, -, -⟩ := h w (List.mem_cons_of_mem _ List.mem_cons_self)
      obtain ⟨c, w, rfl⟩ := List.exists_cons_of_ne_nil hne
      have hrest := splitValues_values heol vs (count + 1) [c] w
        (fun u hu => h u (List.mem_cons_of_mem _ hu)) (by rw [List.length_cons] at hcount; omega)
      have hfull : ¬ count + 1 = clusterSize := by
        rw [List.length_cons] at hcount
        omega
      rw [List.flatMap_cons, List.cons_append, List.cons_append, splitValues, if_neg (by decide),
        if_pos rfl, hcopy]
      simp only [if_neg hfull, List.append_assoc, List.cons_append, hrest]
      simp

theorem replaceChar_append {c d : UInt8} {text : Bytes} (h : c ∉ text) (rest : Bytes) :
    replaceChar c d (text ++ c :: rest) = some (text ++ d :: rest) := by
  induction text with
  | nil => simp [replaceChar]
  | cons b text ih =>
    simp only [List.mem_cons, not_or] at h
    rw [List.cons_append, replaceChar, if_neg (Ne.symm h.1), ih h.2]
    rfl

/-- The zeros at the end of a number are not in front of it. -/
theorem rdropWhile_ftoaText (l : Bytes) (n : ℚ) (places : ℕ) :
    (l ++ ftoaText n places).rdropWhile (· = 0x30) =
      l ++ (ftoaText n places).rdropWhile (· = 0x30) := by
  rw [ftoaText_eq, rdropWhile_decimals, ← List.append_assoc, rdropWhile_decimals,
    List.append_assoc]

/-- The values and the other words of a cluster. -/
theorem takeParam_eq (h : f.Of content) {v : Bytes} {vs : List Bytes} (hvalues : f.values = v :: vs)
    (hparam : f.words.length + 1 < paramSize) (heol : isLineEnd eol = true) :
    ∃ param w, takeParam (f.words ++ [0x53]) eol ((v :: vs).map (· ++ [eol])) =
        some (param, w :: vs.map (· ++ [eol])) ∧ w ++ param = v ++ f.words ++ [eol] := by
  by_cases hwords : f.words = []
  · refine ⟨[], v ++ [eol], ?_, by simp [hwords]⟩
    simp [takeParam, hwords]
  · have hmem : ∀ c ∈ f.words, c ≠ 0x53 := by
      intro c hc
      have hfilter : c ∈ f.command.filter (· ≠ 0x20) := by
        rw [h.command]
        simp [hc]
      exact (h.chars c (List.mem_of_mem_filter hfilter)).2
    have hv : eol ∉ v := by
      intro hc
      have hno := ((h.values v (hvalues ▸ List.mem_cons_self)).2 eol hc).2.2
      rw [hno] at heol
      cases heol
    have hcstr : cstr (v ++ [0x00]) = v := by
      have hchars : ∀ c ∈ v, decide (c ≠ 0x00) = true := by
        intro c hc
        simpa using ((h.values v (hvalues ▸ List.mem_cons_self)).2 c hc).2.1
      rw [cstr, List.takeWhile_append_of_pos hchars]
      simp
    refine ⟨f.words ++ [eol], v, ?_, by simp⟩
    have hlen : (f.words ++ [0x53]).length ≠ 1 := by
      simp [hwords]
    have hfits : ¬ paramSize ≤ (f.words ++ [0x53]).length := by
      rw [List.length_append, List.length_singleton]
      omega
    have hreplace : replaceChar 0x53 eol (f.words ++ [0x53]) = some (f.words ++ [eol]) :=
      replaceChar_append (fun hc => hmem _ hc rfl) []
    simp only [takeParam, if_neg hlen, if_neg hfits, hreplace, List.map_cons,
      replaceChar_append hv, Option.map_some, hcstr]

/-- A cluster whose parts fit is taken apart into its lines. -/
theorem unpack_eq (h : f.Of content) (hfits : f.Fits copies) (heol : isLineEnd eol = true) :
    ∃ c, unpack copies (content ++ [eol]) eol = some (some c) ∧ c.Sound ∧ c.count ≠ 0 ∧
      c.lines = f.lines eol := by
  have hne : eol ≠ 0x3A ∧ eol ≠ 0x00 := by
    constructor <;>
    · rintro rfl
      cases heol
  obtain ⟨v, vs, hvalues⟩ : ∃ v vs, f.values = v :: vs :=
    List.exists_cons_of_ne_nil (List.ne_nil_of_length_pos (Nat.lt_of_lt_of_le (by decide) h.two_le))
  have hsplit : splitCommand (content ++ [eol]) =
      (f.letter :: 0x31 :: f.axis :: (f.number ++ f.words ++ [0x53]),
        some ([0x3A].intercalate f.values ++ [eol])) := by
    rw [h.content, List.append_assoc, List.cons_append, splitCommand_append h.chars, h.command]
    simp
  have hsval : splitValues eol 0 [] ([0x3A].intercalate f.values ++ [eol]) =
      some (some ((v :: vs).map (· ++ [eol]))) := by
    have hlen := hfits.length_le
    rw [hvalues, List.length_cons] at hlen
    have hvs := splitValues_values hne vs 0 [] v ?_ (by omega)
    · rw [hvalues, intercalate_cons, List.append_assoc]
      exact hvs
    · intro w hw
      rw [List.nil_append, ← hvalues] at hw
      obtain ⟨hw0, hchars⟩ := h.values w hw
      exact ⟨hw0, fun c hc => ⟨(hchars c hc).1, (hchars c hc).2.1⟩, hfits.value_lt w hw⟩
  have hget : getValue (f.number ++ f.words ++ [0x53]) f.values.length =
      some (ftoaText (f.distance / f.values.length) 8, f.words ++ [0x53]) := by
    have hends : Ends (f.words ++ [0x53]) := by
      cases hw : f.words with
      | nil => exact ends_cons (by decide) []
      | cons c words => exact ends_cons (h.ends c (by rw [hw]; rfl)) _
    rw [List.append_assoc, getValue, readFloat_append h.distance hends]
    simp only [ftoa, if_pos hfits.number_le, Option.map_some]
  obtain ⟨param, w, hparam, hw⟩ := takeParam_eq h hvalues hfits.param_lt heol
  have hblock : (f.letter :: 0x31 :: f.axis :: (f.number ++ f.words ++ [0x53])).length =
      f.number.length + f.words.length + 4 := by
    simp
    omega
  have hhead : ([f.letter, 0x31, f.axis] ++ ftoaText (f.distance / f.values.length) 8).rdropWhile
      (· = 0x30) ++ [0x53] = f.head := by
    rw [rdropWhile_ftoaText]
    rfl
  have hnumber := hfits.number_le
  have hshare : f.share.length ≤ coordValueLength :=
    (List.rdropWhile_prefix _ _).length_le.trans hnumber
  have hheadlen : f.head.length = f.share.length + 4 := by
    simp [Form.head]
  have hfirst := hfits.first_lt v (by rw [hvalues]; rfl)
  have hclusters : unpack copies (content ++ [eol]) eol =
      some (some ⟨f.head, param, w :: vs.map (· ++ [eol]), vs.length + 1, 0⟩) := by
    have hblockfits : ¬(blockSize ≤ f.number.length + f.words.length + 4 ∨
        copies = true ∧ paramSize ≤ f.number.length + f.words.length + 4) := by
      rintro (hle | ⟨hcopies, hle⟩)
      · exact absurd hfits.block_lt (not_lt.mpr hle)
      · exact absurd (hfits.copy_lt hcopies) (not_lt.mpr hle)
    have hcount : ((v :: vs).map (· ++ [eol])).length = f.values.length := by
      rw [hvalues, List.length_map]
    have hcmd : ¬(blockSize ≤
        ([f.letter, 0x31, f.axis] ++ ftoaText (f.distance / f.values.length) 8).length ∨
          blockSize ≤ f.head.length) := by
      simp only [coordValueLength] at hnumber hshare
      simp only [hheadlen, List.length_append, List.length_cons, List.length_nil, blockSize]
      omega
    have hthree : (f.letter :: 0x31 :: f.axis :: (f.number ++ f.words ++ [0x53])).take 3 =
        [f.letter, 0x31, f.axis] := rfl
    have hbehind : (f.letter :: 0x31 :: f.axis :: (f.number ++ f.words ++ [0x53])).drop 3 =
        f.number ++ f.words ++ [0x53] := rfl
    simp only [unpack, hsplit, hblock, if_neg hblockfits, hsval, hbehind, hcount, hget, hparam,
      hthree, hhead, if_neg hcmd]
    simp
  have hlines : Cluster.lines ⟨f.head, param, w :: vs.map (· ++ [eol]), vs.length + 1, 0⟩ =
      f.lines eol := by
    have hline : f.head ++ w ++ param = f.head ++ v ++ f.words ++ [eol] := by
      rw [List.append_assoc, hw]
      simp
    simp [Cluster.lines, Form.lines, hvalues, hline]
  refine ⟨_, hclusters, ⟨fun _ => ⟨by simp, Nat.succ_pos _, List.cons_ne_nil _ _⟩, ?_⟩,
    Nat.succ_ne_zero _, hlines⟩
  intro line hline
  rw [hlines] at hline
  simp only [Form.lines, hvalues, List.mem_cons, List.mem_map] at hline
  rcases hline with rfl | ⟨u, hu, rfl⟩
  · simp only [List.length_append, List.length_singleton]
    omega
  · have hlt := hfits.value_lt u (by rw [hvalues]; exact List.mem_cons_of_mem v hu)
    simp only [coordValueLength, svalSize] at hshare hlt
    simp only [List.length_append, List.length_singleton, hheadlen, blockSize]
    omega

end Form

end Laser

end Inspector
