import Mathlib.Data.List.Induction
import Inspector.Nvs.Buffer
import Inspector.Transition.Run

/-! # Write-back of settings

A region that differs from physical storage stays marked as long as no mark is taken from it that
a failing write still needs, and no byte is written under the mark of another region.
-/

namespace Inspector

namespace Nvs

open Memory

theorem getLsbD_bit {w : ℕ} (i j : ℕ) :
    (1#w <<< j).getLsbD i = (decide (i < w) && decide (i = j)) := by
  rw [BitVec.getLsbD_shiftLeft, BitVec.getLsbD_one]
  grind

theorem getLsbD_clear {w : ℕ} (x : BitVec w) (i j : ℕ) :
    (x &&& ~~~(1#w <<< j)).getLsbD i = (x.getLsbD i && !decide (i = j)) := by
  rw [BitVec.getLsbD_and, BitVec.getLsbD_not, getLsbD_bit]
  by_cases hi : i < w
  · simp [hi]
  · simp [BitVec.getLsbD_of_ge x i (Nat.le_of_not_lt hi)]

theorem getLsbD_mark {w : ℕ} (x : BitVec w) (i j : ℕ) :
    (x ||| 1#w <<< j).getLsbD i = (x.getLsbD i || decide (i < w) && decide (i = j)) := by
  rw [BitVec.getLsbD_or, getLsbD_bit]

namespace SettingsDirty

variable {d : SettingsDirty} {L : Layout} {r r' : Region}

theorem marked_clear : (d.clear r).marked r' = (d.marked r' && !decide (r' = r)) := by
  cases r <;> cases r'
  case startup.startup i j | coord.coord i j | tool.tool i j =>
    simp only [clear, marked, getLsbD_clear, Region.startup.injEq, Region.coord.injEq,
      Region.tool.injEq]
  all_goals simp [clear, marked]

theorem marked_mark_self (hr : L.Valid r) : (d.mark r).marked r = true := by
  have hn := L.nTools_le
  cases r
  case startup i | coord i | tool i =>
    simp only [Layout.Valid, nStartupLine, nCoordinateSystems] at hr
    simp only [mark, marked, getLsbD_mark]
    simp
    omega
  all_goals rfl

theorem marked_mark_of_marked (h : d.marked r' = true) : (d.mark r).marked r' = true := by
  cases r <;> cases r'
  case startup.startup i j | coord.coord i j | tool.tool i j =>
    simp only [marked] at h
    simp only [mark, marked, getLsbD_mark, h, Bool.true_or]
  all_goals simp_all [mark, marked]

theorem ne_zero_of_getLsbD {w i : ℕ} {x : BitVec w} (h : x.getLsbD i = true) : x ≠ 0#w := by
  rintro rfl
  simp at h

end SettingsDirty

namespace NvsBuffer

variable {L : Layout} {s s' s'' : NvsBuffer} {t : Region → Transfer} {r r' : Region}

/-- What writes to RAM do to the other parts of the buffer. -/
structure Puts (s s' : NvsBuffer) : Prop where
  physical : s'.physical = s.physical
  isDirty : s'.settingsDirty.isDirty = s.settingsDirty.isDirty
  marked : ∀ r, s.settingsDirty.marked r = true → s'.settingsDirty.marked r = true
  dirty : s.dirty = true → s'.dirty = true
  ram : s'.ram = s.ram ∨ s'.dirty = true
  version : s'.ram 0 = s.ram 0 ∨ s'.settingsDirty.version = true

theorem Puts.refl (s : NvsBuffer) : Puts s s :=
  ⟨rfl, rfl, fun _ h => h, fun h => h, .inl rfl, .inl rfl⟩

theorem Puts.trans (h : Puts s s') (h' : Puts s' s'') : Puts s s'' := by
  constructor
  · exact h'.physical.trans h.physical
  · exact h'.isDirty.trans h.isDirty
  · exact fun r hr => h'.marked r (h.marked r hr)
  · exact fun hd => h'.dirty (h.dirty hd)
  · rcases h'.ram with hr' | hd
    · rcases h.ram with hr | hd
      · exact .inl (hr'.trans hr)
      · exact .inr (h'.dirty hd)
    · exact .inr hd
  · rcases h'.version with hr' | hv
    · rcases h.version with hr | hv
      · exact .inl (hr'.trans hr)
      · exact .inr (h'.marked .version hv)
    · exact .inr hv

theorem puts_ramPutByte (offset : ℕ) (newValue : UInt8) (s : NvsBuffer) :
    Puts s (s.ramPutByte offset newValue) := by
  constructor
  · rfl
  · rfl
  · intro r hr
    cases r
    case version => exact Bool.or_eq_true_iff.mpr (.inl hr)
    all_goals exact hr
  · intro hd
    simp [ramPutByte, hd]
  · by_cases h : s.ram offset = newValue
    · exact .inl (h ▸ Function.update_eq_self offset s.ram)
    · exact .inr (by simp [ramPutByte, h])
  · by_cases h : offset = 0
    · exact .inr (by simp [ramPutByte, h])
    · exact .inl (Function.update_of_ne (Ne.symm h) _ _)

theorem puts_ramPutBytes (dest : ℕ) (bytes : List UInt8) (s : NvsBuffer) :
    Puts s (ramPutBytes dest bytes s) := by
  induction bytes generalizing dest s with
  | nil => exact .refl s
  | cons byte bytes ih => exact (puts_ramPutByte dest byte s).trans (ih _ _)

theorem ramPutBytes_ram (dest : ℕ) (bytes : List UInt8) (s : NvsBuffer) :
    (ramPutBytes dest bytes s).ram = Memory.write dest bytes s.ram := by
  induction bytes generalizing dest s with
  | nil => rfl
  | cons byte bytes ih => exact ih _ _

/-- A region that differs from physical storage is marked. -/
def Covered (L : Layout) (s : NvsBuffer) : Prop :=
  ∀ r, L.Valid r → ¬ (L.range r).Agree s.ram s.physical → s.settingsDirty.marked r = true

/-- A region that differs from physical storage is marked and `is_dirty` is set. -/
def Kept (L : Layout) (s : NvsBuffer) : Prop :=
  ∀ r, L.Valid r → ¬ (L.range r).Agree s.ram s.physical →
    s.settingsDirty.marked r = true ∧ s.settingsDirty.isDirty = true

/-- The mark of a region is taken away when it is written back. -/
def clears (L : Layout) (t : Region → Transfer) (r : Region) : Bool :=
  match r with
  | .startup _ => true
  | .driver => (t r).isOk || L.driverSize = 0
  | _ => (t r).isOk

theorem syncMarked_ram (L : Layout) (t : Region → Transfer) (s : NvsBuffer) (r : Region) :
    (syncMarked L t s r).ram = s.ram := by
  cases r <;> simp only [syncMarked, syncRegion, physicalWrite] <;> split_ifs <;> rfl

theorem syncMarked_physical (L : Layout) (t : Region → Transfer) (s : NvsBuffer) (r : Region) :
    (syncMarked L t s r).physical =
      if s.settingsDirty.marked r = true then
        (L.range r).copy ((t r).contents s.ram) s.physical
      else s.physical := by
  have hdriver : ¬ 0 < L.driverSize →
      (L.range .driver).copy ((t .driver).contents s.ram) s.physical = s.physical :=
    fun h => Range.copy_of_size_zero (Nat.eq_zero_of_not_pos h)
  cases r <;> simp only [syncMarked, syncRegion, physicalWrite] <;> split_ifs <;>
    first | rfl | exact (hdriver ‹_›).symm

theorem syncMarked_marked (L : Layout) (t : Region → Transfer) (s : NvsBuffer) (r r' : Region) :
    (syncMarked L t s r).settingsDirty.marked r' =
      (s.settingsDirty.marked r' && !(decide (r' = r) && clears L t r)) := by
  by_cases hm : s.settingsDirty.marked r = true
  · cases r
    case driver =>
      simp only [syncMarked, syncRegion, physicalWrite, hm, clears]
      split_ifs
      all_goals simp_all [SettingsDirty.marked_clear]
      rintro -
      exact .inr (by omega)
    all_goals
      simp only [syncMarked, syncRegion, physicalWrite, hm, clears]
      split_ifs <;> simp_all [SettingsDirty.marked_clear]
  · simp only [syncMarked, if_neg hm]
    by_cases hr : r' = r
    · simp_all
    · simp [hr]

/-- The outcome leaves the contents of RAM in the region. -/
def Stores (L : Layout) (s : NvsBuffer) (t : Transfer) (r : Region) : Prop :=
  (L.range r).Agree s.ram (t.contents s.ram)

theorem stores_of_isOk {t : Transfer} (h : t.isOk = true) : Stores L s t r := by
  cases t with
  | ok => exact fun _ _ => rfl
  | failed left => cases h

/-- Writing one region back keeps all regions covered. -/
theorem covered_syncMarked (h : Covered L s) (hr : r ∈ L.syncOrder)
    (hstart : ∀ i, r = .startup i → s.settingsDirty.marked r = true → Stores L s (t r) r) :
    Covered L (syncMarked L t s r) := by
  intro r' hr' hdiff
  rw [syncMarked_ram, syncMarked_physical] at hdiff
  rw [syncMarked_marked]
  by_cases hne : r' = r
  · subst hne
    split_ifs at hdiff with hm
    · rw [Range.agree_copy_self_iff] at hdiff
      have hok : (t r').isOk ≠ true := fun hok => hdiff (stores_of_isOk hok)
      have hclears : clears L t r' = false := by
        cases r' with
        | startup i => exact absurd (hstart i rfl hm) hdiff
        | driver =>
          have hsize : L.driverSize ≠ 0 := fun hz => hdiff (Range.agree_of_size_zero hz)
          simp [clears, hok, hsize]
        | version | global | build | coord i | tool i => exact eq_false_of_ne_true hok
      rw [hm, hclears]
      simp
    · exact absurd (h r' hr' hdiff) hm
  · have hmarked : s.settingsDirty.marked r' = true := by
      apply h r' hr'
      split_ifs at hdiff with hm
      · rwa [Range.agree_copy_iff (Layout.disjoint hr' hr hne)] at hdiff
      · exact hdiff
    simp [hmarked, hne]

/-- A region agrees with physical storage when its contents have been written, and stays so. -/
theorem agree_syncMarked (hr' : L.Valid r') (hr : r ∈ L.syncOrder) (hs : Stores L s (t r') r')
    (h : (L.range r').Agree s.ram s.physical ∨ r' = r ∧ s.settingsDirty.marked r = true) :
    (L.range r').Agree (syncMarked L t s r).ram (syncMarked L t s r).physical := by
  rw [syncMarked_ram, syncMarked_physical]
  by_cases hne : r' = r
  · subst hne
    split_ifs with hm
    · exact Range.agree_copy_self_iff.mpr hs
    · exact h.resolve_right fun h => hm h.2
  · have h := h.resolve_right fun h => hne h.1
    split_ifs with hm
    · exact (Range.agree_copy_iff (Layout.disjoint hr' hr hne)).mpr h
    · exact h

/-- What writing regions back one after the other leaves of the marks and of RAM. -/
structure Synced (L : Layout) (t : Region → Transfer) (rs : List Region) (s s' : NvsBuffer) :
    Prop where
  ram : s'.ram = s.ram
  marked : ∀ r, s'.settingsDirty.marked r = true → s.settingsDirty.marked r = true
  failed : ∀ r, clears L t r = false → s.settingsDirty.marked r = true →
    s'.settingsDirty.marked r = true
  covered : Covered L s → Covered L s'
  agree : ∀ r, L.Valid r → Stores L s (t r) r → (L.range r).Agree s.ram s.physical →
    (L.range r).Agree s'.ram s'.physical
  stored : Covered L s → ∀ r ∈ rs, L.Valid r → Stores L s (t r) r →
    (L.range r).Agree s'.ram s'.physical

theorem synced_foldl {rs : List Region} (hrs : ∀ r ∈ rs, r ∈ L.syncOrder)
    (hstart : ∀ i, s.settingsDirty.marked (.startup i) = true →
      Stores L s (t (.startup i)) (.startup i)) :
    Synced L t rs s (rs.foldl (syncMarked L t) s) := by
  induction rs generalizing s with
  | nil => exact ⟨rfl, fun _ h => h, fun _ _ h => h, fun h => h, fun _ _ _ h => h,
      fun _ _ h => absurd h List.not_mem_nil⟩
  | cons r rs ih =>
    have hr := hrs r List.mem_cons_self
    have hram := syncMarked_ram L t s r
    have hmarked : ∀ r', (syncMarked L t s r).settingsDirty.marked r' = true →
        s.settingsDirty.marked r' = true := by
      intro r' hr'
      rw [syncMarked_marked, Bool.and_eq_true] at hr'
      exact hr'.1
    have hcov : Covered L s → Covered L (syncMarked L t s r) := by
      intro h
      apply covered_syncMarked h hr
      rintro i rfl
      exact hstart i
    have hih : Synced L t rs (syncMarked L t s r)
        (rs.foldl (syncMarked L t) (syncMarked L t s r)) := by
      apply ih fun r' hr' => hrs r' (List.mem_cons_of_mem r hr')
      intro i hi
      rw [Stores, hram]
      exact hstart i (hmarked _ hi)
    constructor
    · exact hih.ram.trans hram
    · exact fun r' hr' => hmarked r' (hih.marked r' hr')
    · intro r' hc hr'
      apply hih.failed r' hc
      rw [syncMarked_marked, hr']
      by_cases hne : r' = r
      · simp [← hne, hc]
      · simp [hne]
    · exact fun h => hih.covered (hcov h)
    · intro r' hr' hs h
      apply hih.agree r' hr'
      · rwa [Stores, hram]
      · exact agree_syncMarked hr' hr hs (.inl h)
    · intro h r' hmem hr' hs
      rcases List.mem_cons.mp hmem with rfl | hmem
      · apply hih.agree r' hr'
        · rwa [Stores, hram]
        · apply agree_syncMarked hr' hr hs
          by_cases hold : (L.range r').Agree s.ram s.physical
          · exact .inl hold
          · exact .inr ⟨rfl, h r' hr' hold⟩
      · apply hih.stored (hcov h) r' hmem hr'
        rwa [Stores, hram]

/-- A region other than the version byte that is still marked makes the storage dirty. -/
theorem stillDirty_of_marked {d : SettingsDirty} (hr : L.Valid r) (hne : r ≠ .version)
    (h : d.marked r = true) : stillDirty L d = true := by
  cases r with
  | version => exact absurd rfl hne
  | global | build | driver =>
    simp only [SettingsDirty.marked] at h
    simp [stillDirty, h]
  | startup i | coord i =>
    have hbits := SettingsDirty.ne_zero_of_getLsbD h
    simp [stillDirty, hbits]
  | tool i =>
    have hbits := SettingsDirty.ne_zero_of_getLsbD h
    have hn : L.nTools ≠ 0 := Nat.ne_zero_of_lt hr
    simp [stillDirty, hbits, hn]

/-- What has to hold where an operation is executed. A byte put without a block write, and a byte
of a block write, changes no region but a marked one, the version byte or the one that the write is
taken for. No write of a marked startup line fails, the version byte fails only together with
another region, and flash is written within the tries. -/
def Keeps (L : Layout) (s : NvsBuffer) : NvsOp → Prop
  | .putByte offset newValue => s.ram offset = newValue ∨
    ∀ r, L.Valid r → (L.range r).Contains offset →
      s.settingsDirty.isDirty = true ∧ (s.settingsDirty.marked r = true ∨ r = .version)
  | .memcpy destination source withChecksum _ _ => L.Beyond destination ∨
    ∀ r, L.Valid r →
      ¬ (L.range r).Agree (Memory.write destination (image source withChecksum) s.ram) s.ram →
      s.settingsDirty.marked r = true ∨ r = .version ∨ L.regionOf destination = some r
  | .sync t => s.settingsDirty.isDirty = true →
    match L.physicalNvs with
    | .none => True
    | .nvs =>
      (∀ i, s.settingsDirty.marked (.startup i) = true →
        Stores L s (t.region (.startup i)) (.startup i)) ∧
      (s.settingsDirty.version = true → Stores L s (t.region .version) .version ∨
        ∃ r, L.Valid r ∧ r ≠ .version ∧ s.settingsDirty.marked r = true ∧
          clears L t.region r = false)
    | .flash => (∃ k < 4, (t.flash k).isOk = true) ∨
      ∀ r, L.Valid r → Stores L s (t.flash 3) r

theorem kept_ramPutByte {offset : ℕ} {newValue : UInt8} (h : Kept L s)
    (hk : Keeps L s (.putByte offset newValue)) : Kept L (s.ramPutByte offset newValue) := by
  have hputs := puts_ramPutByte offset newValue s
  intro r hr hdiff
  by_cases hold : (L.range r).Agree s.ram s.physical
  · have hmem : (L.range r).Contains offset := by
      by_contra hmem
      apply hdiff
      intro a ha
      have hne : a ≠ offset := by
        rintro rfl
        exact hmem ha
      exact (Function.update_of_ne hne newValue s.ram).trans (hold a ha)
    have hne : s.ram offset ≠ newValue := by
      intro heq
      apply hdiff
      intro a ha
      exact (congrFun (heq ▸ Function.update_eq_self offset s.ram) a).trans (hold a ha)
    obtain ⟨hd, hm⟩ := (hk.resolve_left hne) r hr hmem
    refine ⟨?_, hputs.isDirty.trans hd⟩
    rcases hm with hm | rfl
    · exact hputs.marked r hm
    · obtain ⟨-, hlt⟩ := hmem
      simp only [Layout.range] at hlt
      have h0 : offset = 0 := by omega
      simp [ramPutByte, SettingsDirty.marked, h0]
  · obtain ⟨hm, hd⟩ := h r hr hold
    exact ⟨hputs.marked r hm, hputs.isDirty.trans hd⟩

theorem kept_memcpy_beyond {destination size : ℕ} {src : ℕ → UInt8} {t : Transfer} (h : Kept L s)
    (hb : L.Beyond destination) : Kept L (s.physicalWrite ⟨destination, size⟩ src t) := by
  obtain ⟨hd, hlt⟩ := hb
  have htools : addrToolTable + L.nTools * (L.sizeofToolData + nvsCrcBytes) ≤ destination := by
    rcases L.driver_after with ⟨h0, -⟩ | hle
    · exact absurd h0 hd
    · omega
  intro r hr hdiff
  have hle := Layout.range_le hr htools (Nat.le_of_lt hlt)
  apply h r hr
  rwa [physicalWrite, Range.agree_copy_iff (Range.disjoint_of_le (.inl hle))] at hdiff

/-- The marks only grow, and a change marks the region that the write is taken for. -/
structure Marks (L : Layout) (destination : ℕ) (s s' : NvsBuffer) : Prop where
  ram : s'.ram = s.ram
  physical : s'.physical = s.physical
  isDirty : s.settingsDirty.isDirty = true → s'.settingsDirty.isDirty = true
  marked : ∀ r, s.settingsDirty.marked r = true → s'.settingsDirty.marked r = true
  dirty : s.dirty = true → L.physicalNvs ≠ .none → s'.settingsDirty.isDirty = true ∧
    ∀ r, L.Valid r → L.regionOf destination = some r → s'.settingsDirty.marked r = true

theorem isDirty_mark (d : SettingsDirty) (r : Region) : (d.mark r).isDirty = d.isDirty := by
  cases r <;> rfl

/-- Set `is_dirty` and mark a region if there is one. -/
theorem marks_set {destination : ℕ} (hs : s'.settingsDirty = ((L.regionOf destination).map
      { s.settingsDirty with isDirty := true }.mark).getD { s.settingsDirty with isDirty := true })
    (hram : s'.ram = s.ram) (hphysical : s'.physical = s.physical) :
    Marks L destination s s' := by
  have hdirty : s'.settingsDirty.isDirty = true := by
    rw [hs]
    cases L.regionOf destination with
    | none => rfl
    | some r => exact isDirty_mark _ r
  have hmarked : ∀ r, s.settingsDirty.marked r = true →
      { s.settingsDirty with isDirty := true }.marked r = true := by
    intro r hr
    cases r <;> exact hr
  constructor
  · exact hram
  · exact hphysical
  · exact fun _ => hdirty
  · intro r hr
    rw [hs]
    cases L.regionOf destination with
    | none => exact hmarked r hr
    | some r' => exact SettingsDirty.marked_mark_of_marked (hmarked r hr)
  · intro _ _
    refine ⟨hdirty, ?_⟩
    intro r hr hregion
    rw [hs, hregion]
    exact SettingsDirty.marked_mark_self hr

theorem marks_markWritten (L : Layout) (destination : ℕ) (atArea : Bool) (s : NvsBuffer) :
    Marks L destination s (s.markWritten L destination atArea) := by
  unfold markWritten
  dsimp only
  split_ifs with h₁ h₂ h₂
  · exact marks_set rfl rfl rfl
  · refine ⟨rfl, rfl, fun h => h, fun _ h => h, ?_⟩
    intro _ hp
    exact absurd (by simpa using hp) h₂
  · exact marks_set rfl rfl rfl
  · refine ⟨rfl, rfl, fun h => h, fun _ h => h, ?_⟩
    intro hd hp
    exact absurd (by simp [hd, hp]) h₂

theorem kept_memcpyToRam {destination : ℕ} {source : List UInt8} {withChecksum atArea : Bool}
    {t : Transfer} (hp : L.physicalNvs ≠ .none) (h : Kept L s)
    (hk : Keeps L s (.memcpy destination source withChecksum atArea t)) :
    Kept L (s.memcpyToRam L destination source withChecksum atArea t) := by
  by_cases hb : L.Beyond destination
  · simp only [memcpyToRam, if_pos hb]
    exact kept_memcpy_beyond h hb
  simp only [memcpyToRam, if_neg hb]
  have hputs := puts_ramPutBytes destination (image source withChecksum) { s with dirty := false }
  have hram := ramPutBytes_ram destination (image source withChecksum) { s with dirty := false }
  set s₁ := ramPutBytes destination (image source withChecksum) { s with dirty := false }
  have hmarks := marks_markWritten L destination atArea s₁
  intro r hr hdiff
  rw [hmarks.ram, hmarks.physical, hputs.physical] at hdiff
  by_cases hsame : (L.range r).Agree s₁.ram s.ram
  · have hold : ¬ (L.range r).Agree s.ram s.physical := by
      intro hold
      exact hdiff fun a ha => (hsame a ha).trans (hold a ha)
    obtain ⟨hm, hd⟩ := h r hr hold
    exact ⟨hmarks.marked r (hputs.marked r hm), hmarks.isDirty (hputs.isDirty.trans hd)⟩
  · have hdirty : s₁.dirty = true := by
      apply hputs.ram.resolve_left
      intro heq
      exact hsame fun a _ => congrFun heq a
    obtain ⟨hd, hregion⟩ := hmarks.dirty hdirty hp
    refine ⟨?_, hd⟩
    rw [hram] at hsame
    rcases hk.resolve_left hb r hr hsame with hm | rfl | hm
    · exact hmarks.marked r (hputs.marked r hm)
    · apply hmarks.marked .version
      apply hputs.version.resolve_left
      intro heq
      apply hsame
      rintro a ⟨-, ha⟩
      simp only [Layout.range] at ha
      have h0 : a = 0 := by omega
      rw [h0, ← hram]
      exact heq
    · exact hregion r hr hm

theorem flashTries_ram (L : Layout) (t : ℕ → Transfer) (retries k : ℕ) (s : NvsBuffer) :
    (flashTries L t retries k s).ram = s.ram := by
  induction retries generalizing k s with
  | zero => rfl
  | succ retries ih =>
    rw [flashTries]
    split_ifs
    · rfl
    · exact ih _ _

/-- The tries leave what was to be written if one of them succeeds or the last one leaves it. -/
theorem agree_flashTries {t : ℕ → Transfer} {retries k : ℕ} (hr : L.Valid r)
    (h : (∃ j < retries, (t (k + j)).isOk = true) ∨
      0 < retries ∧ Stores L s (t (k + retries - 1)) r) :
    (L.range r).Agree s.ram (flashTries L t retries k s).physical := by
  have hfit : ∀ a, (L.range r).Contains a → (⟨0, L.nvsSize⟩ : Range).Contains a := by
    rintro a ⟨-, ha⟩
    have hle := Layout.range_le hr L.tools_fit L.driver_fit
    exact ⟨Nat.zero_le a, by simp only; omega⟩
  induction retries generalizing k s with
  | zero =>
    rcases h with ⟨j, hj, -⟩ | ⟨h0, -⟩
    · exact absurd hj (Nat.not_lt_zero j)
    · exact absurd h0 (Nat.lt_irrefl 0)
  | succ retries ih =>
    rw [flashTries]
    split_ifs with hok
    · exact Range.Agree.copy_of_le (stores_of_isOk hok) hfit
    · by_cases hz : retries = 0
      · subst hz
        rcases h with ⟨j, hj, hjok⟩ | ⟨-, hlast⟩
        · obtain rfl : j = 0 := by omega
          exact absurd hjok hok
        · exact Range.Agree.copy_of_le hlast hfit
      · have hrest : (∃ j < retries, (t (k + 1 + j)).isOk = true) ∨
            0 < retries ∧ Stores L s (t (k + 1 + retries - 1)) r := by
          rcases h with ⟨j, hj, hjok⟩ | ⟨-, hlast⟩
          · cases j with
            | zero => exact absurd hjok hok
            | succ j => exact .inl ⟨j, by omega, by rwa [Nat.add_assoc, Nat.add_comm 1 j]⟩
          · refine .inr ⟨by omega, ?_⟩
            rwa [show k + 1 + retries - 1 = k + (retries + 1) - 1 by omega]
        exact ih (s := s.physicalWrite ⟨0, L.nvsSize⟩ s.ram (t k)) hrest

theorem kept_syncPhysical {t : Outcomes} (h : Kept L s) (hk : Keeps L s (.sync t)) :
    Kept L (s.syncPhysical L t) := by
  unfold syncPhysical
  split_ifs with hd
  · have hk := hk hd
    cases hp : L.physicalNvs with
    | none => exact h
    | nvs =>
      simp only [hp] at hk
      have hsync : Synced L t.region L.syncOrder s (L.syncOrder.foldl (syncMarked L t.region) s) :=
        synced_foldl (fun _ hr => hr) hk.1
      set s₁ := L.syncOrder.foldl (syncMarked L t.region) s
      have hcov₀ : Covered L s := fun r hr hdiff => (h r hr hdiff).1
      have hcov := hsync.covered hcov₀
      intro r hr hdiff
      have hm := hcov r hr hdiff
      refine ⟨hm, ?_⟩
      by_cases hv : r = .version
      · subst hv
        rcases hk.2 (hsync.marked .version hm) with hstores | ⟨r, hr', hne, hmarked, hfails⟩
        · apply absurd _ hdiff
          exact hsync.stored hcov₀ .version (Layout.mem_syncOrder_of_valid hr) hr hstores
        · exact stillDirty_of_marked hr' hne (hsync.failed r hfails hmarked)
      · exact stillDirty_of_marked hr hv hm
    | flash =>
      simp only [hp] at hk
      intro r hr hdiff
      apply absurd _ hdiff
      rw [flashTries_ram]
      apply agree_flashTries hr
      rcases hk with ⟨k, hk, hok⟩ | hlast
      · exact .inl ⟨k, hk, by rwa [Nat.zero_add]⟩
      · exact .inr ⟨by decide, hlast r hr⟩
  · exact h

theorem kept_exec (hp : L.physicalNvs ≠ .none) {op : NvsOp} (hk : Keeps L s op)
    (h : Kept L s) : Kept L (s.exec L op) := by
  cases op with
  | putByte offset newValue => exact kept_ramPutByte h hk
  | memcpy destination source withChecksum atArea t => exact kept_memcpyToRam hp h hk
  | sync t => exact kept_syncPhysical h hk

/-- All writes of a call succeed, flash within its tries. -/
def Succeeds (t : Outcomes) : Prop :=
  (∀ r, (t.region r).isOk = true) ∧ ∃ k < 4, (t.flash k).isOk = true

theorem agree_syncPhysical {t : Outcomes} (hp : L.physicalNvs ≠ .none) (h : Kept L s)
    (ht : Succeeds t) (hr : L.Valid r) :
    (L.range r).Agree (s.syncPhysical L t).ram (s.syncPhysical L t).physical := by
  unfold syncPhysical
  split_ifs with hd
  · cases hcase : L.physicalNvs with
    | none => exact absurd hcase hp
    | nvs =>
      have hsync : Synced L t.region L.syncOrder s (L.syncOrder.foldl (syncMarked L t.region) s) :=
        synced_foldl (fun _ hr => hr) fun i _ => stores_of_isOk (ht.1 _)
      exact hsync.stored (fun r hr hdiff => (h r hr hdiff).1) r (Layout.mem_syncOrder_of_valid hr) hr
        (stores_of_isOk (ht.1 r))
    | flash =>
      rw [flashTries_ram]
      obtain ⟨k, hk, hok⟩ := ht.2
      exact agree_flashTries hr (.inl ⟨k, hk, by rwa [Nat.zero_add]⟩)
  · by_contra hdiff
    exact hd (h r hr hdiff).2

/-- The buffer when it has been loaded from physical storage. -/
structure Loaded (L : Layout) (s : NvsBuffer) : Prop where
  agree : ∀ r, L.Valid r → (L.range r).Agree s.ram s.physical
  clean : s.settingsDirty = {}

/-- In a run that keeps to the condition a region that differs from physical storage is marked and
`is_dirty` is set, and a write-back that succeeds makes physical storage equal to the RAM copy. -/
theorem updates_kept (L : Layout) (hp : L.physicalNvs ≠ .none) (s₀ : NvsBuffer)
    (h₀ : Loaded L s₀) (ops : List NvsOp)
    (hops : Transition.Along (exec L) (Keeps L) s₀ ops) :
    ∀ s ∈ Transition.states (exec L) s₀ ops,
      (∀ r, L.Valid r → ¬ (L.range r).Agree s.ram s.physical →
        s.settingsDirty.marked r = true ∧ s.settingsDirty.isDirty = true) ∧
      ∀ t, Succeeds t → ∀ r, L.Valid r →
        (L.range r).Agree (s.syncPhysical L t).ram (s.syncPhysical L t).physical := by
  have hinit : Kept L s₀ := fun r hr hdiff => absurd (h₀.agree r hr) hdiff
  have hkept := Transition.forall_states (fun s op hk h => kept_exec hp hk h) hinit hops
  intro s hs
  refine ⟨hkept s hs, ?_⟩
  intro t ht r hr
  exact agree_syncPhysical hp (hkept s hs) ht hr

/-- A block write within the region that it is taken for keeps to the condition. -/
theorem keeps_memcpy {destination : ℕ} {source : List UInt8} {withChecksum atArea : Bool}
    {t : Transfer} (hr : L.Valid r) (hregion : L.regionOf destination = some r)
    (hle : (L.range r).start ≤ destination)
    (hfit : destination + (image source withChecksum).length ≤
      (L.range r).start + (L.range r).size) :
    Keeps L s (.memcpy destination source withChecksum atArea t) := by
  right
  intro r' hr' hdiff
  by_cases hne : r' = r
  · exact .inr (.inr (hne ▸ hregion))
  · have hd := Layout.disjoint hr' (Layout.mem_syncOrder_of_valid hr) hne
    exact absurd (Memory.agree_write s.ram hd hle hfit) hdiff

/-- A byte-wise written storage without tools and with a small driver area. -/
def eepromLayout : Layout where
  physicalNvs := .nvs
  sizeofSettings := 400
  nTools := 0
  sizeofToolData := 28
  driverAddress := 1024
  driverSize := 16
  nvsSize := 1044
  settings_fit := by decide
  nTools_le := by decide
  driver_after := by decide
  driver_fit := by decide
  tools_fit := by decide

/-- Erased storage. -/
def erased : NvsBuffer := { ram := fun _ => 0xFF, physical := fun _ => 0xFF }

/-- `settings_write_startup_line` for the first line. -/
def writeStartupLine : NvsOp :=
  .memcpy (Layout.startlineAddr 0) (List.replicate 70 0x41) true false .ok

/-- A startup line and the driver area are written, and the first write-back of the driver area
fails. -/
theorem updates_kept_driver :
    let fails : Outcomes := ⟨fun r => if r = .driver then .failed fun _ => 0 else .ok, fun _ => .ok⟩
    let ops := [writeStartupLine, .memcpy 1024 [1, 2, 3, 4] true false .ok, .sync fails]
    ∀ s ∈ Transition.states (exec eepromLayout) erased ops,
      (∀ r, eepromLayout.Valid r → ¬ (eepromLayout.range r).Agree s.ram s.physical →
        s.settingsDirty.marked r = true ∧ s.settingsDirty.isDirty = true) ∧
      ∀ t, Succeeds t → ∀ r, eepromLayout.Valid r →
        (eepromLayout.range r).Agree (s.syncPhysical eepromLayout t).ram
          (s.syncPhysical eepromLayout t).physical := by
  intro fails ops
  apply updates_kept eepromLayout (by decide) erased ⟨fun _ _ _ _ => rfl, rfl⟩
  refine ⟨?_, ?_, ?_, trivial⟩
  · exact keeps_memcpy (r := .startup 0) Nat.two_pos (by decide) (by decide) (by decide)
  · exact keeps_memcpy (r := .driver) trivial (by decide) (by decide) (by decide)
  · intro _
    refine ⟨fun i _ => stores_of_isOk rfl, fun _ => .inl (stores_of_isOk rfl)⟩

/-- The write of a startup line fails: the line is not marked any more, and the next write-back
does not store it. -/
theorem not_kept_startupLine :
    let fails : Outcomes := ⟨fun _ => .failed fun _ => 0xFF, fun _ => .ok⟩
    let succeeds : Outcomes := ⟨fun _ => .ok, fun _ => .ok⟩
    let s := [writeStartupLine, .sync fails].foldl (exec eepromLayout) erased
    let s' := s.syncPhysical eepromLayout succeeds
    (¬ (eepromLayout.range (.startup 0)).Agree s.ram s.physical ∧
      s.settingsDirty.marked (.startup 0) = false ∧ s.settingsDirty.isDirty = false) ∧
    ¬ (eepromLayout.range (.startup 0)).Agree s'.ram s'.physical := by
  intro fails succeeds s s'
  have hmem : (eepromLayout.range (.startup 0)).Contains 806 := by decide
  refine ⟨⟨?_, by decide +kernel, by decide +kernel⟩, ?_⟩
  · intro h
    exact absurd (h 806 hmem) (by decide +kernel)
  · intro h
    exact absurd (h 806 hmem) (by decide +kernel)

end NvsBuffer

end Nvs

end Inspector
