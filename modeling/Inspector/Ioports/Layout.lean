import Inspector.Ioports.Registry
import Inspector.Nvs.WriteBack

/-! # The layout of the port map

The map holds the ports that are not claimed in ascending order at the lowest numbers and the
claimed ones from the highest number down. Registrations and claims keep it so.
-/

namespace Inspector

namespace Ioports

open Slots

/-- The first `n` physical ports without those that are claimed. -/
def unclaimed (n : ℕ) (claimed : List ℕ) : List ℕ := (List.range n).filter (· ∉ claimed)

section Unclaimed

variable {n p : ℕ} {claimed : List ℕ}

theorem mem_unclaimed : p ∈ unclaimed n claimed ↔ p < n ∧ p ∉ claimed := by
  simp [unclaimed]

theorem nodup_unclaimed : (unclaimed n claimed).Nodup := List.nodup_range.filter _

theorem perm_unclaimed (hnodup : claimed.Nodup) (hlt : ∀ p ∈ claimed, p < n) :
    (unclaimed n claimed ++ claimed).Perm (List.range n) := by
  apply (List.perm_ext_iff_of_nodup _ List.nodup_range).mpr
  · intro p
    rw [List.mem_append, mem_unclaimed, List.mem_range]
    constructor
    · rintro (h | h)
      · exact h.1
      · exact hlt p h
    · intro h
      by_cases hp : p ∈ claimed
      · exact .inr hp
      · exact .inl ⟨h, hp⟩
  · refine List.nodup_append'.mpr ⟨nodup_unclaimed, hnodup, fun p hp => ?_⟩
    exact (mem_unclaimed.mp hp).2

theorem length_unclaimed (hnodup : claimed.Nodup) (hlt : ∀ p ∈ claimed, p < n) :
    (unclaimed n claimed).length + claimed.length = n := by
  simpa using (perm_unclaimed hnodup hlt).length_eq

theorem unclaimed_claim (hp : p ∉ claimed) :
    unclaimed n (claimed ++ [p]) = (unclaimed n claimed).eraseIdx ((unclaimed n claimed).idxOf p) := by
  rw [List.eraseIdx_idxOf_eq_erase, nodup_unclaimed.erase_eq_filter, unclaimed, unclaimed,
    List.filter_filter]
  apply List.filter_congr
  intro q _
  by_cases hq : q = p <;> simp [hq, hp]

theorem unclaimed_add (hlt : ∀ p ∈ claimed, p < n) (m : ℕ) :
    unclaimed (n + m) claimed = unclaimed n claimed ++ List.range' n m := by
  rw [unclaimed, List.range_add, List.filter_append, ← unclaimed, ← List.range'_eq_map_range]
  congr 1
  apply List.filter_eq_self.mpr
  intro q hq
  have hge : n ≤ q := (List.mem_range'_1.mp hq).1
  simpa using fun h => absurd (hlt q h) (Nat.not_lt_of_le hge)

end Unclaimed

/-- The data of a type and direction for `n` ports of which some are claimed, in this order. -/
structure Layout (cfg : Private) (t : PortType) (n : ℕ) (claimed : List ℕ) : Prop where
  nPorts : cfg.nPorts = n
  ports : cfg.ports = decide (0 < n)
  le : n ≤ nMax t
  nodup : claimed.Nodup
  lt : ∀ p ∈ claimed, p < n
  last : claimed.length < nMax t → cfg.lastClaimed + 1 + claimed.length = nMax t
  mask : ∀ k, cfg.claimed.getLsbD k = decide (k ∈ claimed)
  free : ∀ f ∈ cfg.free, f = (unclaimed n claimed).length
  laid : cfg.pnum = true → TwoEnded cfg.map (nMax t) 255 (unclaimed n claimed) claimed
  beyond : cfg.pnum = true → ∀ i, nMax t ≤ i → i < MAX_PORTS → cfg.map i = 255
  known : 0 < n → cfg.pnum = true

theorem nMax_le (t : PortType) : nMax t ≤ MAX_PORTS := by
  cases t <;> decide

theorem maxPorts_le : MAX_PORTS ≤ 32 := by decide

/-- The bits of a mask that are in a bit of it. -/
theorem mask_and_bit (mask : BitVec 32) {k : ℕ} (hk : k < 32) :
    mask &&& 1#32 <<< k = 0 ↔ mask.getLsbD k = false := by
  constructor
  · intro h
    have hbit := congrArg (BitVec.getLsbD · k) h
    simpa [BitVec.getLsbD_and, Nvs.getLsbD_bit, hk] using hbit
  · intro h
    apply BitVec.eq_of_getLsbD_eq
    intro i hi
    rw [BitVec.getLsbD_and, Nvs.getLsbD_bit]
    by_cases hik : i = k
    · subst hik
      simp [h]
    · simp [hik]

/-- A bit that is assigned to a flag of one bit is lost unless it is the lowest one. -/
theorem lowest_of_bit (mask : BitVec 32) (k : ℕ) :
    (mask &&& 1#32 <<< k).getLsbD 0 = (decide (k = 0) && mask.getLsbD 0) := by
  rw [BitVec.getLsbD_and, Nvs.getLsbD_bit, Bool.and_comm]
  by_cases hk : k = 0
  · simp [hk]
  · simp [hk, Ne.symm hk]

namespace Layout

variable {cfg : Private} {t : PortType} {n p : ℕ} {claimed : List ℕ}

theorem init (t : PortType) : Layout { lastClaimed := nMax t - 1 } t 0 [] where
  nPorts := rfl
  ports := rfl
  le := Nat.zero_le _
  nodup := List.nodup_nil
  lt p hp := absurd hp List.not_mem_nil
  last h := by
    rw [List.length_nil] at h
    change nMax t - 1 + 1 + 0 = nMax t
    omega
  mask k := by simp
  free f hf := by cases hf
  laid h := by cases h
  beyond h := by cases h
  known h := absurd h (Nat.lt_irrefl 0)

theorem length_claimed_lt (h : Layout cfg t n claimed) (hp : p < n) (hnew : p ∉ claimed) :
    claimed.length < nMax t := by
  have hlen := length_unclaimed h.nodup h.lt
  have hpos := List.length_pos_of_mem (mem_unclaimed.mpr ⟨hp, hnew⟩)
  have hle := h.le
  omega

theorem append_nodup (h : Layout cfg t n claimed) : (unclaimed n claimed ++ claimed).Nodup :=
  (perm_unclaimed h.nodup h.lt).nodup_iff.mpr List.nodup_range

theorem blank_not_mem (h : Layout cfg t n claimed) : 255 ∉ unclaimed n claimed ++ claimed := by
  rw [(perm_unclaimed h.nodup h.lt).mem_iff, List.mem_range]
  have := h.le
  have := nMax_le t
  have := maxPorts_le
  omega

/-- A claim of a port that is not claimed gives it the last number that is not taken. -/
theorem claim (h : Layout cfg t n claimed) (hp : p < n) (hnew : p ∉ claimed) :
    ∃ cfg', cfg.claim p = some (cfg', cfg.lastClaimed) ∧
      cfg.lastClaimed + 1 + claimed.length = nMax t ∧ cfg'.pnum = cfg.pnum ∧
      Layout { cfg' with free := none } t n (claimed ++ [p]) := by
  have hroom := h.length_claimed_lt hp hnew
  have hlast := h.last hroom
  have hmem : p ∈ unclaimed n claimed := mem_unclaimed.mpr ⟨hp, hnew⟩
  have hidx := List.idxOf_lt_length_of_mem hmem
  have hlaid := h.laid (h.known (Nat.zero_lt_of_lt hp))
  have hmax := nMax_le t
  have hsearch : cfg.search p = some ((unclaimed n claimed).idxOf p) := by
    have hfind := hlaid.find_low nodup_unclaimed hidx hmax
    rwa [List.getElem_idxOf] at hfind
  have hmove := hlaid.move hidx hlast
  rw [List.getElem_idxOf, ← unclaimed_claim hnew] at hmove
  have hp32 : p < 32 := by
    have := h.le
    have := maxPorts_le
    omega
  refine ⟨{ cfg with
      claimed := cfg.claimed ||| 1#32 <<< p
      map := Function.update (shiftDown cfg.map ((unclaimed n claimed).idxOf p)
        (cfg.lastClaimed - (unclaimed n claimed).idxOf p)) cfg.lastClaimed p
      lastClaimed := (cfg.lastClaimed + 255) % 256 }, ?_, hlast, rfl, ?_⟩
  · rw [Private.claim, hsearch]
    exact if_pos (by omega)
  · constructor
    · exact h.nPorts
    · exact h.ports
    · exact h.le
    · exact h.nodup.append (List.nodup_singleton p) (by simpa using hnew)
    · intro q hq
      rcases List.mem_append.mp hq with hq | hq
      · exact h.lt q hq
      · rwa [List.mem_singleton.mp hq]
    · intro hlt
      rw [List.length_append, List.length_singleton] at hlt ⊢
      have := maxPorts_le
      change (cfg.lastClaimed + 255) % 256 + 1 + (claimed.length + 1) = nMax t
      omega
    · intro k
      change (cfg.claimed ||| 1#32 <<< p).getLsbD k = _
      rw [Nvs.getLsbD_mark, h.mask]
      by_cases hk : k = p
      · simp [hk, hp32]
      · simp [hk]
    · intro f hf
      cases hf
    · exact fun _ => hmove
    · intro hknown i hi himax
      change Function.update (shiftDown cfg.map _ _) cfg.lastClaimed p i = 255
      rw [Function.update_of_ne (by omega), shiftDown_apply, if_neg (by omega)]
      exact h.beyond hknown i hi himax
    · exact h.known

end Layout

/-- The places that a table gets are those of its detail. -/
def Detail.holds (detail : Detail) (i : ℕ) : Bool :=
  detail.nPorts ≠ 0 ∧ detail.nStart ≤ i ∧ i ≤ detail.idxLast

theorem enter_eq (detail : Detail) (is : List ℕ) (map : ℕ → ℕ) (idx : ℕ)
    (h : idx + (is.filter detail.holds).length ≤ MAX_PORTS) :
    Private.enter detail is map idx = some (writes map idx (is.filter detail.holds)) := by
  induction is generalizing map idx with
  | nil => rfl
  | cons i is ih =>
    by_cases hi : detail.holds i = true
    · rw [List.filter_cons_of_pos hi, List.length_cons] at h
      rw [List.filter_cons_of_pos hi, Private.enter, if_pos (by simpa [Detail.holds] using hi),
        if_pos (by omega), writes]
      exact ih _ _ (by omega)
    · rw [List.filter_cons_of_neg hi] at h ⊢
      rw [Private.enter, if_neg (by simpa [Detail.holds] using hi)]
      exact ih _ _ h

theorem filter_between {a m b : ℕ} (h : a + m ≤ b) :
    (List.range b).filter (fun i => decide (a ≤ i ∧ i < a + m)) = List.range' a m := by
  obtain ⟨r, rfl⟩ := Nat.exists_eq_add_of_le h
  rw [List.range_add, List.range_add, ← List.range'_eq_map_range, ← List.range'_eq_map_range,
    List.filter_append, List.filter_append]
  have hlow : (List.range a).filter (fun i => decide (a ≤ i ∧ i < a + m)) = [] := by
    apply List.filter_eq_nil_iff.mpr
    intro i hi
    have := List.mem_range.mp hi
    simp only [decide_eq_true_eq]
    omega
  have hmid : (List.range' a m).filter (fun i => decide (a ≤ i ∧ i < a + m)) = List.range' a m := by
    apply List.filter_eq_self.mpr
    intro i hi
    exact decide_eq_true (List.mem_range'_1.mp hi)
  have hhigh : (List.range' (a + m) r).filter (fun i => decide (a ≤ i ∧ i < a + m)) = [] := by
    apply List.filter_eq_nil_iff.mpr
    intro i hi
    have := (List.mem_range'_1.mp hi).1
    simp only [decide_eq_true_eq]
    omega
  rw [hlow, hmid, hhigh, List.nil_append, List.append_nil]

/-- What `add_ports` stores in a table for which there is room. -/
theorem addPorts_eq (cfg : Private) (t : PortType) {m : ℕ} (h : cfg.nPorts + m ≤ nMax t) :
    cfg.addPorts t m = ({ cfg with ports := cfg.ports || decide (m ≠ 0), nPorts := cfg.nPorts + m },
      if m ≠ 0 then ⟨m, cfg.nPorts, cfg.nPorts + m - 1⟩ else ⟨0, 255, 0⟩) := by
  by_cases hm : m = 0
  · subst hm
    simp [Private.addPorts]
  · simp [Private.addPorts, hm, Nat.not_lt.mpr h]

theorem filter_holds {n m b : ℕ} (h : n + m ≤ b) :
    (List.range b).filter (if m ≠ 0 then ⟨m, n, n + m - 1⟩ else ⟨0, 255, 0⟩ : Detail).holds =
      List.range' n m := by
  by_cases hm : m = 0
  · subst hm
    apply List.filter_eq_nil_iff.mpr
    simp [Detail.holds]
  · rw [← filter_between h, if_pos hm]
    apply List.filter_congr
    intro i _
    simp only [Detail.holds, decide_eq_decide]
    omega

namespace Layout

variable {cfg : Private} {t : PortType} {n m : ℕ} {claimed : List ℕ}

theorem search_blank (h : Layout cfg t n claimed) (hknown : cfg.pnum = true) (hroom : n < MAX_PORTS) :
    ∃ idx, cfg.search 255 = some idx ∧ (n < nMax t → idx = (unclaimed n claimed).length) := by
  have hlen := length_unclaimed h.nodup h.lt
  rcases Nat.lt_or_ge n (nMax t) with hlt | hge
  · have hblank : 255 ∉ unclaimed n claimed := fun hm => h.blank_not_mem (List.mem_append_left _ hm)
    exact ⟨_, (h.laid hknown).find_blank hblank (by omega) (nMax_le t), fun _ => rfl⟩
  · have hsome : ((List.range MAX_PORTS).find? fun idx => cfg.map idx = 255).isSome := by
      apply List.find?_isSome.mpr
      exact ⟨n, List.mem_range.mpr hroom, decide_eq_true (h.beyond hknown n hge hroom)⟩
    obtain ⟨idx, hidx⟩ := Option.isSome_iff_exists.mp hsome
    exact ⟨idx, hidx, fun hlt => absurd hlt (Nat.not_lt_of_le hge)⟩

/-- The ports of a table are entered behind those that are not claimed. -/
theorem add (h : Layout cfg t n claimed) (hfits : n + m ≤ nMax t) (hfree : m ≠ 0 → cfg.free = none)
    (hroom : cfg.pnum = true → n < MAX_PORTS) {b : ℕ} (hb : n + m ≤ b) :
    ∃ cfg', (cfg.addPorts t m).1.place cfg.pnum (cfg.addPorts t m).2 b = some cfg' ∧
      cfg'.pnum = true ∧ Layout cfg' t (n + m) claimed := by
  have hmax := nMax_le t
  have hlen := length_unclaimed h.nodup h.lt
  have hfilter := filter_holds (Nat.le_succ_of_le hb)
  have hlaid : ∃ map idx, cfg.firstFree cfg.pnum = some (map, idx) ∧ idx + m ≤ MAX_PORTS ∧
      TwoEnded (writes map idx (List.range' n m)) (nMax t) 255 (unclaimed (n + m) claimed) claimed ∧
      ∀ i, nMax t ≤ i → i < MAX_PORTS → writes map idx (List.range' n m) i = 255 := by
    cases hknown : cfg.pnum with
    | true =>
      obtain ⟨idx, hsearch, hidx⟩ := h.search_blank hknown (hroom hknown)
      have hlow := h.laid hknown
      refine ⟨cfg.map, idx, by simp [Private.firstFree, hsearch], ?_⟩
      by_cases hm : m = 0
      · subst hm
        have hlt : idx < MAX_PORTS := List.mem_range.mp (List.mem_of_find?_eq_some hsearch)
        exact ⟨by omega, hlow, h.beyond hknown⟩
      · obtain rfl := hidx (by omega)
        rw [unclaimed_add h.lt]
        refine ⟨by omega, hlow.append (by rw [List.length_range']; omega), fun i hi himax => ?_⟩
        rw [writes_of_ge _ _ _ (by rw [List.length_range']; omega)]
        exact h.beyond hknown i hi himax
    | false =>
      have hn : n = 0 := by
        by_contra hne
        have := h.known (Nat.pos_of_ne_zero hne)
        simp [hknown] at this
      subst hn
      have hclaimed : claimed = [] := List.length_eq_zero_iff.mp (by omega)
      subst hclaimed
      have hlow : TwoEnded (fun i => if i < MAX_PORTS then 255 else cfg.map i) (nMax t) 255 [] [] :=
        TwoEnded.nil fun i hi => if_pos (by omega)
      refine ⟨_, 0, if_neg Bool.false_ne_true, by omega, ?_, fun i hi himax => ?_⟩
      · rw [unclaimed_add (by simp)]
        exact hlow.append (by simp only [List.length_nil, List.length_range']; omega)
      · rw [writes_of_ge _ _ _ (by rw [List.length_range']; omega)]
        exact if_pos himax
  obtain ⟨map, idx, hstart, hidx, htwo, hbeyond⟩ := hlaid
  have hle : cfg.nPorts + m ≤ nMax t := by rwa [h.nPorts]
  refine ⟨{ (cfg.addPorts t m).1 with map := writes map idx (List.range' n m), pnum := true },
    ?_, rfl, ?_⟩
  · have hfirst : (cfg.addPorts t m).1.firstFree cfg.pnum = cfg.firstFree cfg.pnum := by
      rw [addPorts_eq cfg t hle]
      rfl
    have hdetail : (cfg.addPorts t m).2 = if m ≠ 0 then ⟨m, n, n + m - 1⟩ else ⟨0, 255, 0⟩ := by
      rw [addPorts_eq cfg t hle, h.nPorts]
    have henter := enter_eq (cfg.addPorts t m).2 (List.range (b + 1)) map idx
    rw [hdetail, hfilter, List.length_range', ← hdetail] at henter
    rw [Private.place, hfirst, hstart]
    simp only [Option.bind_eq_bind, Option.bind_some, henter hidx, Option.pure_def]
  · rw [addPorts_eq cfg t hle]
    constructor
    · exact congrArg (· + m) h.nPorts
    · change (cfg.ports || decide (m ≠ 0)) = decide (0 < n + m)
      rw [h.ports, ← Bool.decide_or, decide_eq_decide]
      omega
    · exact hfits
    · exact h.nodup
    · exact fun q hq => Nat.lt_add_right m (h.lt q hq)
    · exact h.last
    · exact h.mask
    · intro f hf
      by_cases hm : m = 0
      · subst hm
        exact h.free f hf
      · have hnone : cfg.free = none := hfree hm
        change f ∈ cfg.free at hf
        rw [hnone] at hf
        cases hf
    · exact fun _ => htwo
    · exact fun _ => hbeyond
    · exact fun _ => rfl

end Layout

end Ioports

end Inspector
