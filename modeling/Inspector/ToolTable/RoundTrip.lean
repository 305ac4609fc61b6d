import Inspector.ToolTable.Reload
import Inspector.Transition.Run

/-! # The tool table across updates

As long as the updates keep to what a line holds, the file that was written last is the table. A
tool change that swaps pockets leaves the new tool with a pocket number that the loader does not
accept.
-/

namespace Inspector

open Json

namespace ToolTable

/-- What the lines of a table that was loaded do not hold. The first pocket has no line; with a
random tool changer a line can be read into it. -/
structure Plain (random : Bool) (table : List Pocket) : Prop where
  first : random = true → table[0]? = some .blank
  toolId : ∀ p ∈ table, p.tool.toolId < 65536
  offset : ∀ p ∈ table, ∀ i, Milli (p.tool.offset i)
  diameter : ∀ p ∈ table, Milli (p.tool.radius * 2)
  name : ∀ p ∈ table, p.name.length = nameSize - 1 → 0x20 ∈ p.name

variable {random malloc : Bool} {file : Bytes} {s s₀ : Session} {status : LoadStatus}

namespace Session

/-- What the second pass of the loader gives. -/
theorem loadTools_eq (random : Bool) (hn : 1 < s.nPockets malloc file) :
    s.loadTools random malloc file =
      (file.foldlM (Reader.readChar random)
        ⟨[], 0, 0, List.replicate (s.nPockets malloc file) .blank, .unusedWords⟩).map fun r =>
          ({ s with
              pocket0 := if s.pockets.length = 1 then s.pockets.headD s.pocket0 else s.pocket0
              pockets := r.pockets
              loaded := decide (0 < r.nTools) }, r.status) :=
  if_pos hn

/-- Without memory or lines, one pocket is left. -/
theorem loadTools_of_le (random : Bool) (hn : s.nPockets malloc file ≤ 1) :
    s.loadTools random malloc file =
      let pocket0 := if s.pockets.length = 1 then s.pockets.headD s.pocket0 else s.pocket0
      some ({ s with pocket0 := pocket0, pockets := [pocket0], loaded := false }, .unusedWords) :=
  if_neg (not_lt.mpr hn)

/-- The loader stays within its buffers. -/
theorem isSome_loadTools (random malloc : Bool) (file : Bytes) (s : Session) :
    (s.loadTools random malloc file).isSome ↔
      s.nPockets malloc file ≤ 1 ∨ LinesShort 0 file := by
  by_cases hn : 1 < s.nPockets malloc file
  · rw [loadTools_eq random hn, Option.isSome_map, Reader.isSome_foldlM file (m := 0) rfl]
    exact (or_iff_right (not_le.mpr hn)).symm
  · rw [loadTools_of_le random (not_lt.mp hn)]
    exact iff_of_true rfl (.inl (not_lt.mp hn))

/-- A table of more than one pocket holds what was accepted. -/
theorem sound_of_loadTools (h : s₀.loadTools random malloc file = some (s, status)) :
    (s.pockets.length = 1 ∧ s.loaded = false) ∨ (2 ≤ s.pockets.length ∧
      ∃ r : Reader, r.pockets = s.pockets ∧ r.Sound random s.pockets.length) := by
  by_cases hn : 1 < s₀.nPockets malloc file
  · rw [loadTools_eq random hn] at h
    obtain ⟨r, hr, heq⟩ := Option.map_eq_some_iff.mp h
    have hstart : Reader.Sound random (s₀.nPockets malloc file)
        ⟨[], 0, 0, List.replicate (s₀.nPockets malloc file) .blank, .unusedWords⟩ := by
      refine ⟨fun _ hc => absurd hc List.not_mem_nil, List.length_replicate, ?_, ?_, ?_⟩
      · intro p hp
        rw [(List.mem_replicate.mp hp).2]
        exact accepted_blank
      · intro _ k p hp
        exact .inl (List.mem_replicate.mp (List.mem_of_getElem? hp)).2
      · intro _
        rw [List.getElem?_replicate, if_pos (by omega)]
    have hsound := hstart.foldlM hr
    cases heq
    have hlen := hsound.length
    exact .inr ⟨by simp only; omega, r, rfl, hlen ▸ hsound⟩
  · rw [loadTools_of_le random (not_lt.mp hn)] at h
    cases h
    exact .inl ⟨rfl, rfl⟩

theorem fits_of_loadTools (h : s₀.loadTools random malloc file = some (s, status))
    (hloaded : s.loaded = true) (hplain : Plain random s.pockets) : Fits random s.pockets := by
  obtain ⟨hlen, r, hr, hsound⟩ := (sound_of_loadTools h).resolve_left fun hno => by
    rw [hno.2] at hloaded
    cases hloaded
  rw [← hr] at hplain ⊢
  constructor
  · rw [hsound.length]
    exact hlen
  · cases random with
    | true => exact hplain.first rfl
    | false => exact hsound.first rfl
  · intro p hp
    have haccepted := hsound.accepted p hp
    exact ⟨⟨haccepted.toolId, hplain.toolId p hp⟩, haccepted.pocketId, hplain.offset p hp,
      hplain.diameter p hp, haccepted.name.readable (hplain.name p hp)⟩
  · exact hsound.placed

/-- The file is loaded as the table that is in memory, in the same session or after a restart. -/
def Restored (random : Bool) (s : Session) : Prop :=
  ∀ (malloc : Bool) (t : Session), t.pockets.length = s.pockets.length ∨
      malloc = true ∧ t.pockets.length ≤ s.pockets.length →
    ∃ s' status, t.loadTools random malloc s.file = some (s', status) ∧ s'.pockets = s.pockets

/-- The updates that the file holds. -/
def Permitted (random : Bool) (s : Session) : Op → Prop
  | .setTool opens tool => ∀ k ∈ s.getPocket tool.toolId,
      opens = true ∧ k ≠ 0 ∧ (∀ i, Milli (tool.offset i)) ∧ Milli (tool.radius * 2)
  | .select _ _ => True
  | .changed _ toolId => random = true →
      s.getPocket toolId = none ∨ s.getPocket s.currentTool = none

/-- The invariant of permitted runs. -/
structure Good (random : Bool) (s : Session) : Prop where
  fits : Fits random s.pockets
  file : s.written = true → s.file = fileText s.pockets

theorem Good.restored (h : Good random s) (hwritten : s.written = true) : Restored random s := by
  intro malloc t ht
  obtain ⟨s', status, hload, hpockets, -⟩ := loadTools_fileText h.fits t ht
  rw [h.file hwritten]
  exact ⟨s', status, hload, hpockets⟩

/-- The pocket of a tool is the first one with its number. -/
theorem getPocket_eq_some {toolId : ℤ} {k : ℕ} (h : s.getPocket toolId = some k) :
    ∃ hk : k < s.pockets.length, s.pockets[k].tool.toolId = toolId ∧
      ∀ j (hj : j < k), s.pockets[j].tool.toolId ≠ toolId := by
  unfold getPocket at h
  split_ifs at h
  obtain ⟨hk, heq, hfirst⟩ := List.findIdx?_eq_some_iff_getElem.mp h
  exact ⟨hk, by simpa using heq, fun j hj => by simpa using hfirst j hj⟩

/-- A pocket after one was modified. -/
theorem getElem?_modify_cases {table : List Pocket} {f : Pocket → Pocket} {j k : ℕ} {p : Pocket}
    (h : (table.modify k f)[j]? = some p) :
    k ≠ j ∧ table[j]? = some p ∨ k = j ∧ ∃ q, table[k]? = some q ∧ f q = p := by
  rw [List.getElem?_modify] at h
  obtain ⟨q, hq, rfl⟩ := Option.map_eq_some_iff.mp h
  by_cases hkj : k = j
  · subst hkj
    exact .inr ⟨rfl, q, hq, by rw [if_pos rfl]⟩
  · rw [if_neg hkj]
    exact .inl ⟨hkj, hq⟩

/-- A tool that is set keeps its pocket. -/
theorem Good.setTool (h : Good random s) {opens : Bool} {tool : ToolData}
    (hop : Permitted random s (.setTool opens tool)) : Good random (s.writeTools opens tool) := by
  unfold writeTools
  split
  · exact h
  · rename_i k hk
    obtain ⟨rfl, h0, hoffset, hdiameter⟩ := hop k hk
    obtain ⟨hlt, hid, hbefore⟩ := getPocket_eq_some hk
    have hfits := h.fits
    have hold : s.pockets[k]? = some s.pockets[k] := List.getElem?_eq_getElem hlt
    have hstorable := hfits.storable _ (List.getElem_mem hlt)
    simp only [if_true]
    refine ⟨⟨?_, ?_, ?_, ?_⟩, fun _ => rfl⟩
    · rw [List.length_modify]
      exact hfits.length
    · simp only [List.getElem?_modify, if_neg h0]
      rw [hfits.first]
      rfl
    · intro p hp
      obtain ⟨j, hj⟩ := List.mem_iff_getElem?.mp hp
      rcases getElem?_modify_cases hj with ⟨-, hj⟩ | ⟨rfl, q, hq, rfl⟩
      · exact hfits.storable p (List.mem_of_getElem? hj)
      · cases hold.symm.trans hq
        exact ⟨hid ▸ hstorable.toolId, hstorable.pocketId, hoffset, hdiameter, hstorable.name⟩
    · intro hrandom j p hj
      rcases getElem?_modify_cases hj with ⟨-, hj⟩ | ⟨rfl, q, hq, rfl⟩
      · exact hfits.placed hrandom j p hj
      · cases hold.symm.trans hq
        rcases hfits.placed hrandom k _ hold with hblank | hplace
        · -- the first pocket would have been found
          obtain ⟨hlt0, hzero⟩ := List.getElem?_eq_some_iff.mp hfits.first
          have hid0 : s.pockets[0].tool.toolId = tool.toolId := by
            rw [← hid, hblank, hzero]
          exact absurd hid0 (hbefore 0 (Nat.pos_of_ne_zero h0))
        · exact .inr hplace

theorem Good.step (h : Good random s) {op : Op} (hop : Permitted random s op) :
    Good random (exec random s op) := by
  cases op with
  | setTool opens tool => exact h.setTool hop
  | select toolId next =>
    cases next with
    | true => exact h
    | false => exact ⟨h.fits, h.file⟩
  | changed opens toolId =>
    cases random with
    | false => exact ⟨h.fits, h.file⟩
    | true =>
      have hswap : s.swapPockets opens toolId = s := by
        unfold swapPockets
        rcases hop rfl with hnone | hnone
        · rw [hnone]
        · rw [hnone]
          split
          · contradiction
          · rfl
      have hchanged : exec true s (.changed opens toolId) = { s with currentTool := toolId } := by
        simp only [exec, onToolChanged, if_true, hswap]
      rw [hchanged]
      exact ⟨h.fits, h.file⟩

/-- Writing a tool leaves the numbers of the pockets. -/
theorem pocketIds_writeTools (opens : Bool) (tool : ToolData) (s : Session) :
    (s.writeTools opens tool).pockets.map (·.pocketId) = s.pockets.map (·.pocketId) := by
  have hmodify : ∀ k : ℕ, (s.pockets.modify k fun p => { p with tool := tool }).map
      (·.pocketId) = s.pockets.map (·.pocketId) := by
    intro k
    apply List.ext_getElem?
    intro j
    simp only [List.getElem?_map, List.getElem?_modify, Option.map_eq_map, Option.map_map]
    congr 1
    funext p
    simp only [Function.comp_apply]
    split_ifs <;> rfl
  unfold writeTools
  split
  · rfl
  · simp only
    split_ifs
    · exact hmodify _
    · exact hmodify _

/-- A tool change that swaps pockets leaves a pocket that is not in the file. -/
theorem not_restored_of_swap (hlen : 2 ≤ s.pockets.length) {toolId : ℤ} {source target : ℕ}
    (hsource : s.getPocket toolId = some source) (htarget : s.getPocket s.currentTool = some target)
    (opens : Bool) : ¬ Restored true (s.onToolChanged true opens toolId) := by
  intro hrestored
  obtain ⟨hlt, -, -⟩ := getPocket_eq_some hsource
  have hids : (s.onToolChanged true opens toolId).pockets.map (·.pocketId) =
      ((s.pockets.modify target fun p =>
          { p with pocketId := (s.pockets[source]?.getD .blank).pocketId }).modify source
        fun p => { p with pocketId := -1 }).map (·.pocketId) := by
    simp only [onToolChanged, if_true, swapPockets, hsource, htarget]
    exact pocketIds_writeTools _ _ _
  have hlength : (s.onToolChanged true opens toolId).pockets.length = s.pockets.length := by
    have h := congrArg List.length hids
    simpa using h
  have hmem : (-1 : ℤ) ∈ (s.onToolChanged true opens toolId).pockets.map (·.pocketId) := by
    rw [hids]
    apply List.mem_of_getElem? (i := source)
    simp [List.getElem?_modify, List.getElem?_eq_getElem hlt]
  obtain ⟨s', status, hload, hpockets⟩ := hrestored false _ (.inl rfl)
  rcases sound_of_loadTools hload with ⟨hone, -⟩ | ⟨-, r, hr, hsound⟩
  · rw [hpockets, hlength] at hone
    omega
  · rw [← hpockets, ← hr] at hmem
    obtain ⟨p, hp, hneg⟩ := List.mem_map.mp hmem
    have hid := (hsound.accepted p hp).pocketId.1
    omega

/-- The loader stays within its buffers for the files with short lines. From a table whose pockets
fit in their lines, the file is the table after any updates that it holds, and a tool change that
swaps pockets ends that. -/
theorem restored_of_permitted (random malloc : Bool) (file : Bytes) (s₀ : Session) :
    ((s₀.loadTools random malloc file).isSome ↔
      s₀.nPockets malloc file ≤ 1 ∨ LinesShort 0 file) ∧
    ∀ s status, s₀.loadTools random malloc file = some (s, status) → s.loaded = true →
      Plain random s.pockets → ∀ ops,
      Transition.Along (exec random) (Permitted random) { s with written := false } ops →
      ∀ s' ∈ Transition.states (exec random) { s with written := false } ops,
        (s'.written = true → Restored random s') ∧
        ∀ opens toolId, ¬ Permitted random s' (.changed opens toolId) →
          ¬ Restored random (exec random s' (.changed opens toolId)) := by
  refine ⟨isSome_loadTools random malloc file s₀, ?_⟩
  intro s status hload hloaded hplain ops hops s' hs'
  have hfits := fits_of_loadTools hload hloaded hplain
  have hstart : Good random { s with written := false } := ⟨hfits, fun h => nomatch h⟩
  have hgood : Good random s' :=
    Transition.forall_states (I := Good random) (fun _ _ hop h => h.step hop) hstart hops s' hs'
  refine ⟨hgood.restored, ?_⟩
  intro opens toolId hop
  obtain ⟨rfl, hfound⟩ := Classical.not_imp.mp hop
  obtain ⟨hsource, htarget⟩ := not_or.mp hfound
  obtain ⟨source, hsource⟩ := Option.ne_none_iff_exists'.mp hsource
  obtain ⟨target, htarget⟩ := Option.ne_none_iff_exists'.mp htarget
  exact not_restored_of_swap hgood.fits.length hsource htarget opens

/-- The state after a reset. -/
def start : Session := ⟨[.blank], .blank, false, 0, [], false⟩

/-- A table with tool 5 in pocket 1. -/
def onePocket : List Pocket := [.blank, ⟨⟨fun _ => 0, 0, 5⟩, 1, []⟩]

theorem fits_onePocket (random : Bool) : Fits random onePocket := by
  have hmilli : Milli 0 := ⟨0, by norm_num, by norm_num⟩
  have hreadable : Readable [] := given_nil.readable fun h => by simp [nameSize] at h
  refine ⟨by decide, rfl, ?_, ?_⟩
  · intro p hp
    simp only [onePocket, List.mem_cons, List.not_mem_nil, or_false] at hp
    rcases hp with rfl | rfl
    · exact ⟨by decide, by decide, fun _ => hmilli, by simpa [Pocket.blank] using hmilli, hreadable⟩
    · exact ⟨by decide, by decide, fun _ => hmilli, by simpa [Pocket.blank] using hmilli, hreadable⟩
  · intro _ k p hp
    obtain ⟨hk, rfl⟩ := List.getElem?_eq_some_iff.mp hp
    have hlt : k < 2 := hk
    interval_cases k
    · exact .inl rfl
    · exact .inr rfl

theorem plain_onePocket (random : Bool) : Plain random onePocket := by
  have h := (fits_onePocket random).storable
  refine ⟨fun _ => rfl, fun p hp => (h p hp).toolId.2, fun p hp => (h p hp).offset,
    fun p hp => (h p hp).diameter, ?_⟩
  intro p hp hlen
  simp only [onePocket, List.mem_cons, List.not_mem_nil, or_false] at hp
  rcases hp with rfl | rfl <;> cases hlen

theorem loadTools_onePocket (random : Bool) :
    ∃ s status, start.loadTools random true (fileText onePocket) = some (s, status) ∧
      s.pockets = onePocket ∧ s.loaded = true ∧ s.currentTool = 0 :=
  loadTools_fileText (fits_onePocket random) start (.inr ⟨rfl, by decide⟩)

theorem restored_of_permitted_setTool :
    ∃ s status, start.loadTools false true (fileText onePocket) = some (s, status) ∧
      Restored false (exec false { s with written := false }
        (.setTool true ⟨fun _ => 1 / 2, 3, 5⟩)) := by
  obtain ⟨s, status, hload, hpockets, hloaded, -⟩ := loadTools_onePocket false
  have hget : getPocket 5 { s with written := false } = some 1 := by
    simp only [getPocket, hpockets]
    rfl
  have hpermitted : Permitted false { s with written := false }
      (.setTool true ⟨fun _ => 1 / 2, 3, 5⟩) := by
    intro k hk
    cases hget.symm.trans hk
    exact ⟨rfl, by decide, fun _ => ⟨500, by norm_num [maxIntDigits], by norm_num⟩,
      ⟨6000, by norm_num [maxIntDigits], by norm_num⟩⟩
  refine ⟨s, status, hload, ?_⟩
  apply ((restored_of_permitted false true (fileText onePocket) start).2 s status hload hloaded
    (hpockets ▸ plain_onePocket false) [.setTool true ⟨fun _ => 1 / 2, 3, 5⟩] ⟨hpermitted, trivial⟩ _
    (List.mem_cons_of_mem _ (List.mem_singleton_self _))).1
  simp only [exec, writeTools, hget, if_true]

theorem linesShort_replicate {c : UInt8} (hc : isLineEnd c = false) :
    ∀ m n, LinesShort n (List.replicate m c ++ [0x0A]) → n + m < bufSize
  | 0, n, h => h.1
  | m + 1, n, h => by
    rw [List.replicate_succ, List.cons_append, LinesShort, hc] at h
    have := linesShort_replicate hc m (n + 1) h
    omega

/-- A line that fills the buffer is terminated behind it. -/
theorem loadTools_long (random : Bool) {m : ℕ} (hm : bufSize ≤ m) :
    start.loadTools random true (List.replicate m 0x20 ++ [0x0A]) = none := by
  have hchars : ∀ c ∈ List.replicate m (0x20 : UInt8), LineChar c := by
    intro c hc
    rw [(List.mem_replicate.mp hc).2]
    exact ⟨by decide, by decide⟩
  have hpos : 0 < m := lt_of_lt_of_le (by decide) hm
  have hcount : countLines (List.replicate m 0x20 ++ [0x0A]) = 1 := by
    rw [countLines, foldl_countChar_line hchars (by simpa using hpos.ne') 0]
  have hn : start.nPockets true (List.replicate m 0x20 ++ [0x0A]) = 2 := by
    simp only [nPockets, hcount]
    rfl
  by_contra hsome
  rcases (isSome_loadTools random true _ start).mp (Option.isSome_iff_ne_none.mpr hsome) with h | h
  · omega
  · have hlt := linesShort_replicate (by decide) m 0 h
    omega

/-- A change to tool 5 with a random tool changer loses the tool, and a line of 300 characters is
terminated behind the buffer. -/
theorem not_restored_of_permitted :
    (fileText onePocket = [0x50, 0x31, 0x20, 0x54, 0x35, 0x20, 0x0A] ∧
      ∃ s status, start.loadTools true true (fileText onePocket) = some (s, status) ∧
        s.loaded = true ∧ s.pockets = onePocket ∧
        ¬ Restored true (exec true s (.changed true 5))) ∧
    start.loadTools true true (List.replicate 300 0x20 ++ [0x0A]) = none := by
  refine ⟨⟨?_, ?_⟩, ?_⟩
  · simp [fileText, onePocket, toolLine, toolWords, axes, toUint16, decimal_of_lt]
    decide
  · obtain ⟨s, status, hload, hpockets, hloaded, hcurrent⟩ := loadTools_onePocket true
    refine ⟨s, status, hload, hloaded, hpockets, ?_⟩
    have hsource : s.getPocket 5 = some 1 := by
      simp only [getPocket, hpockets]
      rfl
    have htarget : s.getPocket s.currentTool = some 0 := by
      rw [hcurrent]
      simp only [getPocket, hpockets]
      rfl
    exact not_restored_of_swap (by rw [hpockets]; decide) hsource htarget true
  · exact loadTools_long true (m := 300) (by decide)

end Session

end ToolTable

end Inspector
