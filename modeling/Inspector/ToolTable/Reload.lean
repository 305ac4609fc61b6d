import Inspector.ToolTable.Load

/-! # Loading what was written

The file of a table whose pockets fit in their lines, and that are in the places the loader puts
them in, is loaded as the table.
-/

namespace Inspector

open Json

namespace ToolTable

/-- The table is one that the loader gives, and its pockets fit in their lines. -/
structure Fits (random : Bool) (pockets : List Pocket) : Prop where
  length : 2 ≤ pockets.length
  first : pockets[0]? = some .blank
  storable : ∀ p ∈ pockets, Storable p
  placed : random = true → ∀ (k : ℕ) (p : Pocket), pockets[k]? = some p →
    p = .blank ∨ p.pocketId = k

variable {random malloc : Bool} {p : Pocket} {table : List Pocket} {r : Reader}

theorem toolLine_eq_cons (p : Pocket) : ∃ l, toolLine p = 0x50 :: l := ⟨_, rfl⟩

theorem fileText_eq (h : Fits random table) :
    fileText table = table.tail.flatMap fun p => toolLine p ++ [0x0A] := by
  unfold fileText
  rw [List.filter_eq_self.mpr]
  intro p hp
  simpa using (h.storable p (List.mem_of_mem_tail hp)).toolId.1

section Count

theorem foldl_countChar_chars {l : Bytes} (hl : ∀ c ∈ l, LineChar c) (hne : l ≠ [])
    (acc : UInt8 × ℕ) : ∃ c, c ≠ 0 ∧ l.foldl countChar acc = (c, acc.2) := by
  induction l generalizing acc with
  | nil => exact absurd rfl hne
  | cons c l ih =>
    obtain ⟨hzero, hend⟩ := hl c List.mem_cons_self
    have hstep : countChar acc c = (c, acc.2) := by
      rw [countChar, hend]
      rfl
    rw [List.foldl_cons, hstep]
    by_cases hnil : l = []
    · subst hnil
      exact ⟨c, hzero, rfl⟩
    · exact ih (fun d hd => hl d (List.mem_cons_of_mem c hd)) hnil (c, acc.2)

theorem foldl_countChar_line {l : Bytes} (hl : ∀ c ∈ l, LineChar c) (hne : l ≠ []) (n : ℕ) :
    (l ++ [0x0A]).foldl countChar (0, n) = (0, n + 1) := by
  obtain ⟨c, hc, hfold⟩ := foldl_countChar_chars hl hne (0, n)
  rw [List.foldl_append, hfold, List.foldl_cons, List.foldl_nil, countChar, if_pos (by decide),
    if_pos hc]

/-- The first pass counts the pockets. -/
theorem countLines_lines {ps : List Pocket} (h : ∀ p ∈ ps, Storable p) :
    countLines (ps.flatMap fun p => toolLine p ++ [0x0A]) = ps.length := by
  have hfold : ∀ n, (ps.flatMap fun p => toolLine p ++ [0x0A]).foldl countChar (0, n) =
      (0, n + ps.length) := by
    induction ps with
    | nil => exact fun n => rfl
    | cons p ps ih =>
      intro n
      obtain ⟨l, hl⟩ := toolLine_eq_cons p
      have hline := foldl_countChar_line
        (fun c hc => toolLine_chars (h p List.mem_cons_self).name hc)
        (by rw [hl]; exact List.cons_ne_nil _ _) n
      rw [List.flatMap_cons, List.foldl_append, hline,
        ih (fun q hq => h q (List.mem_cons_of_mem p hq)), List.length_cons]
      congr 1
      omega
  rw [countLines, hfold]
  exact Nat.zero_add _

end Count

section Read

theorem foldlM_chars {l : Bytes} (hl : ∀ c ∈ l, isLineEnd c = false)
    (hlen : r.buf.length + l.length ≤ bufSize) :
    l.foldlM (Reader.readChar random) r = some { r with buf := r.buf ++ l } := by
  induction l generalizing r with
  | nil => simp
  | cons c l ih =>
    rw [List.length_cons] at hlen
    have hstep : r.readChar random c = some { r with buf := r.buf ++ [c] } := by
      rw [Reader.readChar, hl c List.mem_cons_self]
      simp only [Bool.false_eq_true, if_false, if_pos (show r.buf.length < bufSize by omega)]
    rw [List.foldlM_cons, hstep]
    simp only [Option.bind_eq_bind, Option.bind_some]
    rw [ih (fun d hd => hl d (List.mem_cons_of_mem c hd)) (by simp; omega)]
    simp

/-- The line of a pocket gives the pocket. -/
theorem foldlM_toolLine (h : Storable p) (hbuf : r.buf = []) :
    (toolLine p ++ [0x0A]).foldlM (Reader.readChar random) r =
      some ({ r with status := .ok }.store random p) := by
  have hlt := length_toolLine_lt h
  have hchars := fun c (hc : c ∈ toolLine p) => toolLine_chars h.name hc
  have hline : (toolLine p).takeWhile (· ≠ 0x00) = toolLine p := by
    rw [List.takeWhile_eq_self_iff]
    intro c hc
    simpa using (hchars c hc).1
  obtain ⟨l, hl⟩ := toolLine_eq_cons p
  have hskip : ¬(toolLine p = [] ∨ (toolLine p).head? = some 0x3B) := by
    rw [hl]
    simp
  have hread : readWords (Words.words 0x20 (toolLine p)) .unset = .ok p := by
    rw [words_toolLine, readWords_toolWords h]
  obtain ⟨buf, entry, nTools, pockets, status⟩ := r
  subst hbuf
  rw [List.foldlM_append, foldlM_chars (fun c hc => (hchars c hc).2) (by simpa using hlt.le)]
  simp only [Option.bind_eq_bind, Option.bind_some, List.foldlM_cons, List.foldlM_nil,
    List.nil_append]
  rw [Reader.readChar, if_pos (by decide), if_pos hlt]
  simp only [Reader.endLine, hline, if_neg hskip, hread, Option.bind_some, Option.pure_def]

theorem foldlM_lines {ps : List Pocket} (h : ∀ p ∈ ps, Storable p) (hbuf : r.buf = []) :
    (ps.flatMap fun p => toolLine p ++ [0x0A]).foldlM (Reader.readChar random) r =
      some (ps.foldl (fun r p => { r with status := .ok }.store random p) r) := by
  induction ps generalizing r with
  | nil => rfl
  | cons p ps ih =>
    rw [List.flatMap_cons, List.foldlM_append, foldlM_toolLine (h p List.mem_cons_self) hbuf]
    simp only [Option.bind_eq_bind, Option.bind_some]
    rw [ih (fun q hq => h q (List.mem_cons_of_mem p hq)) (by rw [Reader.buf_store, hbuf]),
      List.foldl_cons]

/-- The first pockets of the table are in their places, and the others are all zeros. -/
structure Filled (random : Bool) (table : List Pocket) (m : ℕ) (r : Reader) : Prop where
  length : r.pockets.length = table.length
  get : ∀ k < table.length, r.pockets[k]? = if k ≤ m then table[k]? else some .blank
  entry : random = false → r.entry = m
  nTools : r.nTools = m

/-- The next pocket takes its place. -/
theorem Filled.store {m : ℕ} (h : Filled random table m r) (htable : Fits random table)
    (hp : table[m + 1]? = some p) :
    Filled random table (m + 1) ({ r with status := .ok }.store random p) := by
  obtain ⟨hm, rfl⟩ := List.getElem?_eq_some_iff.mp hp
  have hstorable := htable.storable _ (List.getElem_mem hm)
  -- a pocket of all zeros goes to the first place when the tool changer is random
  have hplace : ∃ e, (if random = true then table[m + 1].pocketId.toNat else r.entry + 1) = e ∧
      (e = m + 1 ∨ e = 0 ∧ random = true ∧ table[m + 1] = .blank) := by
    refine ⟨_, rfl, ?_⟩
    split_ifs with hrandom
    · rcases htable.placed hrandom (m + 1) _ hp with hblank | hid
      · exact .inr ⟨by rw [hblank]; rfl, hrandom, hblank⟩
      · left
        omega
    · left
      rw [h.entry (by simpa using hrandom)]
  obtain ⟨e, he, hcases⟩ := hplace
  have hlt : e < r.pockets.length := by
    rw [h.length]
    omega
  unfold Reader.store
  rw [if_pos ⟨hstorable.toolId.1, hstorable.pocketId.1⟩]
  simp only [he, if_pos hlt]
  refine ⟨by simp [h.length], fun k hk => ?_, fun hno => ?_, by simp [h.nTools]⟩
  · have hget := h.get k hk
    have hfirst := htable.first
    rcases hcases with rfl | ⟨rfl, -, hblank⟩
    · rw [List.getElem?_set]
      split_ifs with heq hle hle
      · subst heq
        exact hp.symm
      · omega
      · rw [hget, if_pos (by omega)]
      · rw [hget, if_neg (by omega)]
    · rw [List.getElem?_set]
      split_ifs with heq hle hle
      · subst heq
        rw [hblank, hfirst]
      · omega
      · by_cases hnew : k = m + 1
        · subst hnew
          rw [hget, if_neg (by omega), hp, hblank]
        · rw [hget, if_pos (by omega)]
      · rw [hget, if_neg (by omega)]
  · rcases hcases with rfl | ⟨-, hyes, -⟩
    · rfl
    · rw [hno] at hyes
      cases hyes

theorem Filled.foldl (htable : Fits random table) : ∀ (ps : List Pocket) (m : ℕ) (r : Reader),
    table.drop (m + 1) = ps → Filled random table m r →
      Filled random table (m + ps.length)
        (ps.foldl (fun r p => { r with status := .ok }.store random p) r)
  | [], m, r, _, h => h
  | p :: ps, m, r, hdrop, h => by
    have hp : table[m + 1]? = some p := by
      rw [← List.head?_drop, hdrop, List.head?_cons]
    have hrest : table.drop (m + 1 + 1) = ps := by
      rw [← List.tail_drop, hdrop, List.tail_cons]
    have hfold := Filled.foldl htable ps (m + 1) _ hrest (h.store htable hp)
    rw [List.length_cons, Nat.add_comm ps.length 1, ← Nat.add_assoc]
    exact hfold

end Read

namespace Session

/-- The file of a table is loaded as the table, also into pockets that are fewer. -/
theorem loadTools_fileText (h : Fits random table) (t : Session)
    (ht : t.pockets.length = table.length ∨ malloc = true ∧ t.pockets.length ≤ table.length) :
    ∃ s status, t.loadTools random malloc (fileText table) = some (s, status) ∧
      s.pockets = table ∧ s.loaded = true ∧ s.currentTool = t.currentTool := by
  have hlen := h.length
  have htail : ∀ p ∈ table.tail, Storable p := fun p hp => h.storable p (List.mem_of_mem_tail hp)
  have hcount : countLines (fileText table) = table.length - 1 := by
    rw [fileText_eq h, countLines_lines htail, List.length_tail]
  have hn : ∀ pocket0, nPockets malloc (fileText table) { t with pocket0 := pocket0 } =
      table.length := by
    intro pocket0
    unfold nPockets
    simp only [hcount]
    rcases ht with heq | ⟨rfl, hle⟩
    · rw [if_neg (by omega), heq]
    · simp only [if_true]
      split_ifs <;> omega
  let r₀ : Reader := ⟨[], 0, 0, List.replicate table.length .blank, .unusedWords⟩
  have hstart : Filled random table 0 r₀ := by
    refine ⟨by simp [r₀], fun k hk => ?_, fun _ => rfl, rfl⟩
    simp only [r₀, List.getElem?_replicate, if_pos hk]
    split_ifs with h0
    · rw [Nat.le_zero.mp h0, h.first]
    · rfl
  have hdrop : table.drop (0 + 1) = table.tail := List.drop_one
  have hfilled := Filled.foldl h table.tail 0 r₀ hdrop hstart
  have hread : (fileText table).foldlM (Reader.readChar random) r₀ = _ :=
    fileText_eq h ▸ foldlM_lines htail rfl
  rw [List.length_tail, Nat.zero_add] at hfilled
  generalize table.tail.foldl (fun r p => { r with status := .ok }.store random p) r₀ = r
    at hfilled hread
  let pocket0 := if t.pockets.length = 1 then t.pockets.headD t.pocket0 else t.pocket0
  refine ⟨{ t with pocket0 := pocket0, pockets := r.pockets, loaded := decide (0 < r.nTools) },
    r.status, ?_, ?_, ?_, rfl⟩
  · unfold loadTools
    simp only [hn, if_pos (show 1 < table.length by omega)]
    rw [hread, Option.map_some]
  · apply List.ext_getElem?
    intro k
    by_cases hk : k < table.length
    · rw [hfilled.get k hk, if_pos (by omega)]
    · rw [List.getElem?_eq_none (by rw [hfilled.length]; omega), List.getElem?_eq_none (by omega)]
  · simp only [hfilled.nTools, decide_eq_true_eq]
    omega

end Session

end ToolTable

end Inspector
