import Inspector.Numerals
import Inspector.Stepper.Tracked

/-! # From the planner to the motors

The main program plans motions and cuts their blocks into segments while the interrupt executes the
segments, in any order. As long as the segment buffer does not run empty within a block, the motors
stand at the planner position whenever nothing is left to do, and have made exactly the steps of all
blocks.
-/

namespace Inspector

open Stepper

variable {K : Type*} [Field K] [LinearOrder K]

/-- The Bresenham data of the block at a place, empty beyond the last one. -/
def Prep.block (x : Prep K) (k : ℕ) : StBlock K :=
  x.stBlocks.getD k ⟨fun _ => 0, 0, fun _ => false, 0, 0, 0⟩

/-- The main program and the interrupt. -/
structure Pipeline (K : Type*) [Field K] [LinearOrder K] where
  prep : Prep K
  stepper : Stepper K

namespace Pipeline

variable [IsStrictOrderedRing K] [FloorRing K]

/-- A step of the main program, which hands its new segments over, or an interrupt. The segment
buffer is empty at an interrupt only if nothing is left of the last block. -/
inductive Step (m : ExactMath K) (s : Settings K) (cfg : StepperConfig K) :
    Pipeline K → Pipeline K → Prop
  | main {x : Pipeline K} {p : Prep K} (h : Prep.Step m s cfg x.prep p)
      (hplain : ∀ b ∈ p.planner.queue, b.Plain) :
      Step m s cfg x ⟨p, x.stepper.queueAll (p.segments.drop x.prep.segments.length)⟩
  | interrupt {x : Pipeline K} (h : x.stepper.segments ≠ [] ∨ x.prep.stepsRemaining = 0) :
      Step m s cfg x ⟨x.prep, x.stepper.interrupt x.prep.block⟩

end Pipeline

namespace Stepper

variable {K : Type*} {x y x₀ : Stepper K} {b : StBlock K} {k : ℕ} {ls : List ℕ}
  {here new : List (Segment K)} {e : Axis → ℕ} {blocks : ℕ → StBlock K}

/-- Where the interrupt is in block `k`, of which the segments `here` are done: before its first
segment, between two of its segments, or within one. -/
inductive Phase (b : StBlock K) (k : ℕ) (x₀ : Stepper K) (here : List (Segment K))
    (x : Stepper K) : Prop
  | boundary (hx : x = x₀) (hnil : here = []) (h : x.Between) (hk : x.execBlock ≠ some k)
  | between (hne : here ≠ []) (h : x.pulseStart.execSegment = none)
      (hp : Progress b k x₀ (levels here) x.emitted x)
  | within (g : Segment K) (gs : List (Segment K)) (j : ℕ) (hj : j < g.nStep) (hg : g.execBlock = k)
      (h : Within b k x₀ (levels here) g gs j x)

theorem pulseStart_queueAll : (x.queueAll new).pulseStart = x.pulseStart.queueAll new := by
  unfold pulseStart queueAll
  split_ifs <;> rfl

theorem Progress.queueAll (h : Progress b k x₀ ls e x) :
    Progress b k (x₀.queueAll new) ls e (x.queueAll new) :=
  ⟨h.execBlock, h.dirOut, h.stepEventCount, h.counter, h.free, h.sysPosition, h.emitted⟩

/-- Segments that are queued do not change where the interrupt is. -/
theorem Phase.queueAll (h : Phase b k x₀ here x) :
    Phase b k (x₀.queueAll new) here (x.queueAll new) := by
  cases h with
  | boundary hx hnil h hk => exact .boundary (hx ▸ rfl) hnil h hk
  | between hne h hp => exact .between hne (pulseStart_queueAll ▸ h) hp.queueAll
  | within g gs j hj hg h =>
    refine .within g (gs ++ new) j hj hg
      ⟨h.execSegment, h.stepCount, ?_, h.steps, h.progress.queueAll⟩
    change x.segments ++ new = _
    rw [h.segments, if_neg hj.ne, if_neg hj.ne, List.cons_append]

/-- An interrupt on the empty buffer. -/
theorem interrupt_of_nil (h : x.pulseStart.execSegment = none) (hs : x.segments = []) :
    x.interrupt blocks = x.pulseStart.goIdle := by
  have hsegs : x.pulseStart.segments = [] := by
    obtain ⟨n, s, heq⟩ := pulseStart_eq x
    rw [heq, hs]
  unfold interrupt fetch
  rw [h, hsegs]

theorem goIdle_pulseStart (h : x.pulseStart.execSegment = none) :
    x.pulseStart.goIdle.Between ∧ x.pulseStart.goIdle.execBlock = none ∧
      x.pulseStart.goIdle.segments = x.segments ∧
      x.pulseStart.goIdle.sysPosition = x.sysPosition ∧
      x.pulseStart.goIdle.emitted = x.emitted ∧ x.pulseStart.goIdle.free = x.free := by
  obtain ⟨n, s, heq⟩ := pulseStart_eq x
  refine ⟨.inl h, rfl, ?_, ?_, ?_, ?_⟩
  · rw [heq]
    rfl
  · rw [heq]
    rfl
  · rw [heq]
    rfl
  · rw [heq]
    rfl

theorem Progress.between (hp : Progress b k x₀ ls e x) (h : x.pulseStart.execSegment = none) :
    x.Between := by
  by_cases hc : x.stepCount = 0
  · exact .inr ⟨by rw [hp.execBlock]; rfl, hc⟩
  · refine .inl ?_
    rw [Stepper.pulseStart, if_pos (by rw [hp.execBlock]; rfl)] at h
    exact (if_neg hc).symm.trans h

/-- The interrupts of the segments of a block take them from the buffer. -/
theorem Start.drain {ls : List ℕ} {gs rest : List (Segment K)} (hb : blocks k = b)
    (hE : b.stepEventCount < 2 ^ 32) (hmax : ∀ i, b.steps i ≤ b.stepEventCount)
    (h : Start b k x₀ ls x) (hx : x.segments = gs ++ rest) (hgs : ∀ g ∈ gs, Proper k g) :
    ((interrupt blocks)^[(levels gs).length] x).segments = rest := by
  induction gs generalizing ls x with
  | nil => exact hx
  | cons g gs ih =>
    obtain ⟨hg, hgs⟩ := List.forall_mem_cons.mp hgs
    have hlast := (h.segment hb hE hmax hx hg (Nat.sub_lt hg.pos Nat.one_pos)).2
    rw [Nat.sub_add_cancel hg.pos] at hlast
    obtain ⟨hstart, hrest⟩ := hlast.start
    have hlevels : (levels (g :: gs)).length = (levels gs).length + g.nStep := by
      simp [levels, Nat.add_comm]
    rw [hlevels, Function.iterate_add_apply]
    exact ih hstart hrest hgs

/-- The event of a segment that was fetched. -/
theorem Fetched.phase {g : Segment K} {gs : List (Segment K)} {j : ℕ}
    (h : Fetched blocks b k x₀ (levels here) g gs j x y) (hj : j < g.nStep)
    (hmax : ∀ i, b.steps i ≤ b.stepEventCount) (hg : g.execBlock = k) :
    (Phase b k x₀ here (x.interrupt blocks) ∧ (x.interrupt blocks).segments = g :: gs) ∨
      Phase b k x₀ (here ++ [g]) (x.interrupt blocks) ∧ (x.interrupt blocks).segments = gs := by
  have hw := h.within hj hmax
  rcases Nat.lt_or_ge (j + 1) g.nStep with hlt | hge
  · refine .inl ⟨.within g gs (j + 1) hlt hg hw, ?_⟩
    rw [hw.segments, if_neg hlt.ne]
  · have hn : j + 1 = g.nStep := le_antisymm hj hge
    rw [hn] at hw
    obtain ⟨hstart, hsegs⟩ := hw.start
    have hlevels : levels (here ++ [g]) =
        levels here ++ List.replicate g.nStep g.amassLevel := by
      simp [levels]
    refine .inr ⟨.between (List.append_ne_nil_of_right_ne_nil _ (List.cons_ne_nil _ _))
      hstart.execSegment ?_, hsegs⟩
    rw [hlevels]
    exact hw.progress

/-- The step events of block `k` in a list of segments. -/
def events (k : ℕ) (gs : List (Segment K)) : ℕ :=
  ((gs.filter (·.execBlock = k)).map (·.stepEvents)).sum

variable {gs hs : List (Segment K)}

theorem events_append : events k (gs ++ hs) = events k gs + events k hs := by
  simp [events]

theorem events_eq_zero (h : ∀ g ∈ gs, g.execBlock ≠ k) : events k gs = 0 := by
  have hnil : gs.filter (·.execBlock = k) = [] := by
    rw [List.filter_eq_nil_iff]
    intro g hg
    simpa using h g hg
  simp [events, hnil]

theorem events_of_forall (h : ∀ g ∈ gs, g.execBlock = k) :
    events k gs = (gs.map (·.stepEvents)).sum := by
  rw [events, List.filter_eq_self.mpr]
  intro g hg
  simpa using h g hg

theorem events_pos {g : Segment K} (hg : g ∈ gs) (hpos : 0 < g.stepEvents) :
    0 < events g.execBlock gs := by
  have hmem : g ∈ gs.filter (·.execBlock = g.execBlock) := by simpa using hg
  exact hpos.trans_le (List.le_sum_of_mem (List.mem_map_of_mem hmem))

end Stepper

namespace Pipeline

open Prep

variable {x y : Pipeline K} {p₀ : Axis → ℤ} {k : ℕ} {s₀ x₀ : Stepper K}
  {before here : List (Segment K)}

/-- The interrupt has executed the blocks before the `k`-th since `s₀`, and the segments `here` of
the `k`-th one since `x₀`. -/
structure At (s₀ : Stepper K) (k : ℕ) (x₀ : Stepper K) (before here : List (Segment K))
    (x : Pipeline K) : Prop where
  split : x.prep.segments = before ++ (here ++ x.stepper.segments)
  before_lt : ∀ g ∈ before, g.execBlock < k
  here_eq : ∀ g ∈ here, g.execBlock = k
  rest_ge : ∀ g ∈ x.stepper.segments, k ≤ g.execBlock
  le_length : k ≤ x.prep.stBlocks.length
  done : ∀ j < k, events j before <<< maxAmassLevel = (x.prep.block j).stepEventCount
  free : ∀ i, x₀.free i = s₀.free i
  sysPosition : ∀ i, x₀.sysPosition i =
    s₀.sysPosition i + ((x.prep.stBlocks.take k).map (·.signedSteps i)).sum
  emitted : ∀ i, x₀.emitted i = s₀.emitted i + if s₀.free i then
    ((x.prep.stBlocks.take k).map (·.steps i >>> maxAmassLevel)).sum else 0
  phase : Phase (x.prep.block k) k x₀ here x.stepper

theorem block_eq_of_isPrefix {p : Prep K} (h : x.prep.stBlocks <+: p.stBlocks)
    (hk : k < x.prep.stBlocks.length) : p.block k = x.prep.block k := by
  obtain ⟨l, hl⟩ := h
  simp [Prep.block, ← hl, List.getElem?_append_left hk]

theorem getElem?_block {p : Prep K} (hk : k < p.stBlocks.length) :
    p.stBlocks[k]? = some (p.block k) := by
  simp [Prep.block, hk]

theorem take_succ_block {p : Prep K} (hk : k < p.stBlocks.length) :
    p.stBlocks.take (k + 1) = p.stBlocks.take k ++ [p.block k] := by
  rw [List.take_add_one, getElem?_block hk]
  rfl

theorem executable_pos {c : StBlock K} (h : Executable c) : 0 < c.stepEventCount := by
  obtain ⟨b, rfl, hpos, -⟩ := h
  simpa [PlanBlock.stBlock, Nat.shiftLeft_eq] using hpos

theorem executable_bounds {c : StBlock K} (h : Executable c) :
    c.stepEventCount < 2 ^ 32 ∧ ∀ i, c.steps i ≤ c.stepEventCount := by
  obtain ⟨b, rfl, -, hle, hmax⟩ := h
  simp only [PlanBlock.stBlock, maxAmassLevel, Nat.shiftLeft_eq]
  exact ⟨by omega, fun i => Nat.mul_le_mul_right _ (hmax i)⟩

variable [FloorRing K]

/-- The segments and the steps left of a block make up the block. -/
theorem counts_block {p : Prep K} (h : p.Tracked p₀) (hk : k < p.stBlocks.length) :
    (events k p.segments + p.left k) <<< maxAmassLevel = (p.block k).stepEventCount :=
  h.inv.counts.sum k _ (getElem?_block hk)

theorem executable_block {p : Prep K} (h : p.Tracked p₀) (hk : k < p.stBlocks.length) :
    Executable (p.block k) :=
  h.loaded _ (List.mem_of_getElem? (getElem?_block hk))

/-- While a block is not complete, its next segment comes first. -/
theorem At.next {g : Segment K} {gs : List (Segment K)} (h : At s₀ k x₀ before here x)
    (ht : x.prep.Tracked p₀) (hs : x.stepper.segments = g :: gs)
    (hlt : events k here <<< maxAmassLevel < (x.prep.block k).stepEventCount) :
    g.execBlock = k := by
  have hmem : g ∈ x.prep.segments := by simp [h.split, hs]
  have hge : k ≤ g.execBlock := h.rest_ge g (by simp [hs])
  have hlen := ht.inv.counts.execBlock_lt g hmem
  by_contra hne
  have hleft : x.prep.left k = 0 := if_neg (by omega)
  have hsorted := ht.sorted
  rw [h.split, hs, List.pairwise_append, List.pairwise_append, List.pairwise_cons] at hsorted
  have hrest : ∀ a ∈ g :: gs, a.execBlock ≠ k := by
    intro a ha
    rcases List.mem_cons.mp ha with rfl | ha
    · exact hne
    · have := hsorted.2.1.2.1.1 a ha
      omega
  have hsum := counts_block ht (hge.trans_lt hlen)
  rw [h.split, hs, events_append, events_append, events_eq_zero hrest, hleft,
    events_eq_zero fun a ha => (h.before_lt a ha).ne] at hsum
  simp only [Nat.zero_add, Nat.add_zero] at hsum
  omega

theorem At.lt_length (h : At s₀ k x₀ before here x) (ht : x.prep.Tracked p₀)
    (hne : here ++ x.stepper.segments ≠ []) : k < x.prep.stBlocks.length := by
  obtain ⟨g, hg⟩ := List.exists_mem_of_ne_nil _ hne
  have hge : k ≤ g.execBlock := by
    rcases List.mem_append.mp hg with hg | hg
    · exact (h.here_eq g hg).ge
    · exact h.rest_ge g hg
  refine hge.trans_lt (ht.inv.counts.execBlock_lt g ?_)
  rw [h.split]
  exact List.mem_append_right _ hg

/-- The steps of a block are done, in the buffer or left. -/
theorem At.counts (h : At s₀ k x₀ before here x) (ht : x.prep.Tracked p₀)
    (hlen : k < x.prep.stBlocks.length) :
    (events k here + (events k x.stepper.segments + x.prep.left k)) <<< maxAmassLevel =
      (x.prep.block k).stepEventCount := by
  rw [← counts_block ht hlen, h.split, events_append, events_append,
    events_eq_zero fun a ha => (h.before_lt a ha).ne, Nat.zero_add, Nat.add_assoc]

theorem At.complete (h : At s₀ k x₀ before here x) (ht : x.prep.Tracked p₀)
    (hlen : k < x.prep.stBlocks.length) (hs : x.stepper.segments = [])
    (h0 : x.prep.stepsRemaining = 0) :
    events k here <<< maxAmassLevel = (x.prep.block k).stepEventCount := by
  have hleft : x.prep.left k = 0 := by rw [Prep.left, h0, ite_self]
  have hnil : events k x.stepper.segments = 0 := events_eq_zero (by simp [hs])
  rw [← h.counts ht hlen, hleft, hnil]
  rfl

/-- The blocks before the `k`-th have no step left. -/
theorem At.ne_of_done {p : Prep K} {new : List (Segment K)} (h : At s₀ k x₀ before here x)
    (hp : p.Tracked p₀) (hsegs : p.segments = x.prep.segments ++ new)
    (hblocks : x.prep.stBlocks <+: p.stBlocks) : ∀ g ∈ new, k ≤ g.execBlock := by
  intro g hg
  by_contra hlt
  rw [not_le] at hlt
  have hlen := hlt.trans_le h.le_length
  have hpos := events_pos hg (hp.inv.counts.pos g (hsegs ▸ List.mem_append_right _ hg))
  have hsum := counts_block hp (hlen.trans_le hblocks.length_le)
  have hdone := h.done _ hlt
  rw [hsegs, h.split, events_append, events_append, block_eq_of_isPrefix hblocks hlen,
    ← hdone] at hsum
  simp only [maxAmassLevel, Nat.shiftLeft_eq] at hsum
  omega

/-- A step of the main program. -/
theorem At.main {p : Prep K} {new : List (Segment K)} (h : At s₀ k x₀ before here x)
    (ht : x.prep.Tracked p₀) (hp : p.Tracked p₀) (hsegs : p.segments = x.prep.segments ++ new)
    (hblocks : x.prep.stBlocks <+: p.stBlocks) :
    At s₀ k (x₀.queueAll new) before here ⟨p, x.stepper.queueAll new⟩ := by
  have htake : p.stBlocks.take k = x.prep.stBlocks.take k := by
    obtain ⟨l, hl⟩ := hblocks
    rw [← hl, List.take_append_of_le_length h.le_length]
  constructor
  · rw [hsegs, h.split]
    simp [Stepper.queueAll]
  · exact h.before_lt
  · exact h.here_eq
  · intro g hg
    rcases List.mem_append.mp hg with hg | hg
    · exact h.rest_ge g hg
    · exact h.ne_of_done hp hsegs hblocks g hg
  · exact h.le_length.trans hblocks.length_le
  · intro j hj
    rw [h.done j hj, block_eq_of_isPrefix hblocks (hj.trans_le h.le_length)]
  · exact h.free
  · intro i
    rw [htake]
    exact h.sysPosition i
  · intro i
    rw [htake]
    exact h.emitted i
  · have hphase : Phase (p.block k) k x₀ here x.stepper := by
      by_cases hne : here ++ x.stepper.segments = []
      · obtain ⟨rfl, hnil⟩ := List.append_eq_nil_iff.mp hne
        cases h.phase with
        | boundary hx hhere hb hk => exact .boundary hx hhere hb hk
        | between hcon => exact absurd rfl hcon
        | within g gs j hj hg hw => simp [hw.segments, hj.ne] at hnil
      · rw [block_eq_of_isPrefix hblocks (h.lt_length ht hne)]
        exact h.phase
    exact hphase.queueAll

/-- The block has been executed when its last segment has. -/
theorem At.finish (h : At s₀ k x₀ before here x) (ht : x.prep.Tracked p₀) (hne : here ≠ [])
    (hstart : x.stepper.pulseStart.execSegment = none)
    (hp : Progress (x.prep.block k) k x₀ (levels here) x.stepper.emitted x.stepper)
    (hsum : events k here <<< maxAmassLevel = (x.prep.block k).stepEventCount) :
    At s₀ (k + 1) x.stepper (before ++ here) [] x := by
  have hlen := h.lt_length ht (List.append_ne_nil_of_left_ne_nil hne _)
  have hcount := h.counts ht hlen
  rw [← hsum] at hcount
  obtain ⟨b, hb, -, hle, hmax⟩ := executable_block ht hlen
  have hwhole : ∀ g ∈ here, WholeSteps k g := by
    intro g hg
    have hmem : g ∈ x.prep.segments := by simp [h.split, hg]
    exact h.here_eq g hg ▸ ht.wholeSteps hmem
  have hcb : (here.map (·.stepEvents)).sum = b.stepEventCount := by
    rw [events_of_forall h.here_eq, hb] at hsum
    simp only [maxAmassLevel, PlanBlock.stBlock, Nat.shiftLeft_eq] at hsum
    omega
  have hsteps : ∀ i, (axisTrace b.stBlock i (levels here)).2 = b.steps i := fun i =>
    axisTrace_levels (hmax i) hwhole hcb (fits_increments hle (hmax i) hwhole)
  have htake : x.prep.stBlocks.take (k + 1) = x.prep.stBlocks.take k ++ [b.stBlock] := by
    rw [take_succ_block hlen, hb]
  rw [hb] at hp
  constructor
  · rw [h.split]
    simp
  · intro g hg
    rcases List.mem_append.mp hg with hg | hg
    · exact Nat.lt_succ_of_lt (h.before_lt g hg)
    · exact Nat.lt_succ_of_le (h.here_eq g hg).le
  · simp
  · intro g hg
    refine Nat.lt_of_le_of_ne (h.rest_ge g hg) fun heq => ?_
    have hmem : g ∈ x.prep.segments := by simp [h.split, hg]
    have hpos := events_pos hg (ht.inv.counts.pos g hmem)
    rw [← heq] at hpos
    simp only [maxAmassLevel, Nat.shiftLeft_eq] at hcount
    omega
  · exact hlen
  · intro j hj
    rcases (Nat.lt_succ_iff_lt_or_eq.mp hj) with hj | rfl
    · have hzero : events j here = 0 :=
        events_eq_zero fun g hg => (h.here_eq g hg).trans_ne hj.ne'
      rw [events_append, hzero, Nat.add_zero, h.done j hj]
    · rw [events_append, events_eq_zero fun a ha => (h.before_lt a ha).ne, Nat.zero_add, hsum]
  · exact fun i => (hp.free i).trans (h.free i)
  · intro i
    have hsigned : (if b.stBlock.direction i then -1 else 1) * (b.steps i : ℤ) =
        b.signedSteps i := by
      change (if b.direction i then -1 else 1) * (b.steps i : ℤ) = if b.direction i then _ else _
      split_ifs <;> simp
    rw [hp.sysPosition i, h.sysPosition i, hsteps, hsigned, htake, List.map_append, List.sum_append,
      List.map_singleton, List.sum_singleton, PlanBlock.signedSteps_stBlock, add_assoc]
  · intro i
    rw [hp.emitted i, h.emitted i, hsteps, htake, List.map_append, List.sum_append, h.free]
    have hshift : (b.stBlock.steps i >>> maxAmassLevel) = b.steps i := by
      simp [PlanBlock.stBlock]
    split_ifs <;> simp [hshift, Nat.add_assoc]
  · refine .boundary rfl rfl (hp.between hstart) ?_
    rw [hp.execBlock]
    simp

/-- A segment in the buffer fits into the words of the interrupt. -/
theorem proper_of_mem {p : Prep K} {g : Segment K} (h : p.Tracked p₀) (hg : g ∈ p.segments) :
    Proper g.execBlock g := by
  have hlen := h.inv.counts.execBlock_lt g hg
  obtain ⟨b, hb, -, hle, -⟩ := executable_block h hlen
  have hcount := counts_block h hlen
  have hmem : g ∈ p.segments.filter (·.execBlock = g.execBlock) := by simpa using hg
  have hevents : g.stepEvents ≤ events g.execBlock p.segments :=
    List.le_sum_of_mem (List.mem_map_of_mem hmem)
  refine (h.wholeSteps hg).proper ?_
  rw [hb] at hcount
  simp only [PlanBlock.stBlock, maxAmassLevel, Nat.shiftLeft_eq] at hcount
  omega

/-- An interrupt that executes an event of a segment of block `k`. -/
theorem At.event {g : Segment K} {gs : List (Segment K)} {j : ℕ} {s : Stepper K}
    (h : At s₀ k x₀ before here x) (ht : x.prep.Tracked p₀) (hs : x.stepper.segments = g :: gs)
    (hg : g.execBlock = k) (hj : j < g.nStep)
    (hf : Fetched x.prep.block (x.prep.block k) k x₀ (levels here) g gs j x.stepper s) :
    ∃ here', At s₀ k x₀ before here' ⟨x.prep, x.stepper.interrupt x.prep.block⟩ := by
  have hlen : k < x.prep.stBlocks.length := h.lt_length ht (by simp [hs])
  have hmax := (executable_bounds (executable_block ht hlen)).2
  rcases hf.phase hj hmax hg with ⟨hphase, hsegs⟩ | ⟨hphase, hsegs⟩
  · refine ⟨here, { h with split := ?_, rest_ge := ?_, phase := hphase }⟩
    · exact hsegs ▸ hs ▸ h.split
    · exact hsegs ▸ hs ▸ h.rest_ge
  · refine ⟨here ++ [g], { h with split := ?_, here_eq := ?_, rest_ge := ?_, phase := hphase }⟩
    · change _ = before ++ (here ++ [g] ++ (x.stepper.interrupt x.prep.block).segments)
      rw [hsegs, h.split, hs]
      simp
    · intro a ha
      rcases List.mem_append.mp ha with ha | ha
      · exact h.here_eq a ha
      · exact List.mem_singleton.mp ha ▸ hg
    · intro a ha
      change a ∈ (x.stepper.interrupt x.prep.block).segments at ha
      exact h.rest_ge a (by simp [hs, ← hsegs, ha])

/-- An interrupt before the first segment of a block. -/
theorem At.interrupt_boundary (h : At s₀ k x₀ before [] x) (ht : x.prep.Tracked p₀)
    (hx : x.stepper = x₀) (hb : x.stepper.Between) (hk : x.stepper.execBlock ≠ some k) :
    ∃ x₁ here', At s₀ k x₁ before here' ⟨x.prep, x.stepper.interrupt x.prep.block⟩ := by
  subst hx
  have hstart := hb.start hk (x.prep.block k)
  cases hs : x.stepper.segments with
  | nil =>
    obtain ⟨hb', hnone, hsegs, hpos, hem, hfree⟩ := goIdle_pulseStart hstart.execSegment
    rw [interrupt_of_nil hstart.execSegment hs]
    refine ⟨x.stepper.pulseStart.goIdle, [], ?_⟩
    constructor
    · exact hsegs ▸ h.split
    · exact h.before_lt
    · exact h.here_eq
    · exact hsegs ▸ h.rest_ge
    · exact h.le_length
    · exact h.done
    · exact hfree ▸ h.free
    · exact hpos ▸ h.sysPosition
    · exact hem ▸ h.emitted
    · exact .boundary rfl rfl hb' (by simp [hnone])
  | cons g gs =>
    have hmem : g ∈ x.prep.segments := by simp [h.split, hs]
    have hlen : k < x.prep.stBlocks.length := h.lt_length ht (by simp [hs])
    obtain ⟨hE, hmax⟩ := executable_bounds (executable_block ht hlen)
    have hg : g.execBlock = k := by
      refine h.next ht hs ?_
      simpa [events] using executable_pos (executable_block ht hlen)
    have hproper := proper_of_mem ht hmem
    have hf := hstart.fetched rfl hg hs hproper.lt hproper.amassLevel hE hmax
    obtain ⟨here', hat⟩ := h.event ht hs hg hproper.pos hf
    exact ⟨x.stepper, here', hat⟩

/-- An interrupt, wherever the last one left off. -/
theorem At.interrupt (h : At s₀ k x₀ before here x) (ht : x.prep.Tracked p₀)
    (hne : x.stepper.segments ≠ [] ∨ x.prep.stepsRemaining = 0) :
    ∃ k' x₁ before' here',
      At s₀ k' x₁ before' here' ⟨x.prep, x.stepper.interrupt x.prep.block⟩ := by
  cases h.phase with
  | boundary hx hhere hb hk =>
    subst hhere
    obtain ⟨x₁, here', hat⟩ := h.interrupt_boundary ht hx hb hk
    exact ⟨k, x₁, before, here', hat⟩
  | within g gs j hj hg hw =>
    have hs : x.stepper.segments = g :: gs := hw.segments.trans (if_neg hj.ne)
    obtain ⟨here', hat⟩ := h.event ht hs hg hj (hw.fetched x.prep.block hj)
    exact ⟨k, x₀, before, here', hat⟩
  | between hhere hstart hp =>
    have hlen := h.lt_length ht (List.append_ne_nil_of_left_ne_nil hhere _)
    by_cases hsum : events k here <<< maxAmassLevel = (x.prep.block k).stepEventCount
    · have hat := h.finish ht hhere hstart hp hsum
      obtain ⟨x₁, here', hat'⟩ := hat.interrupt_boundary ht rfl (hp.between hstart)
        (by simp [hp.execBlock])
      exact ⟨k + 1, x₁, before ++ here, here', hat'⟩
    · cases hs : x.stepper.segments with
      | nil => exact absurd (h.complete ht hlen hs (hne.resolve_left (· hs))) hsum
      | cons g gs =>
        have hmem : g ∈ x.prep.segments := by simp [h.split, hs]
        obtain ⟨hE, hmax⟩ := executable_bounds (executable_block ht hlen)
        have hlt : events k here <<< maxAmassLevel < (x.prep.block k).stepEventCount := by
          refine Nat.lt_of_le_of_ne ?_ hsum
          rw [← h.counts ht hlen]
          simp only [maxAmassLevel, Nat.shiftLeft_eq]
          omega
        have hg : g.execBlock = k := h.next ht hs hlt
        have hproper := proper_of_mem ht hmem
        have hf := Start.fetched ⟨hstart, .inl hp⟩ rfl hg hs hproper.lt hproper.amassLevel hE hmax
        obtain ⟨here', hat⟩ := h.event ht hs hg hproper.pos hf
        exact ⟨k, x₀, before, here', hat⟩

/-- Where the interrupt is when it has done all there is. -/
theorem At.sysPosition_eq (h : At s₀ k x₀ before here x) (ht : x.prep.Tracked p₀)
    (hs : x.stepper.segments = []) (h0 : x.prep.stepsRemaining = 0) :
    (∀ i, x.stepper.sysPosition i =
      s₀.sysPosition i + (x.prep.stBlocks.map (·.signedSteps i)).sum) ∧
    ∀ i, x.stepper.emitted i = s₀.emitted i + if s₀.free i then
      (x.prep.stBlocks.map (·.steps i >>> maxAmassLevel)).sum else 0 := by
  -- between two segments the block is complete, and the next one is at its boundary
  have hboundary : ∃ k' before', At s₀ k' x.stepper before' [] x := by
    cases h.phase with
    | boundary hx hhere hb hk =>
      subst hhere hx
      exact ⟨k, before, h⟩
    | within g gs j hj hg hw => simp [hw.segments, hj.ne] at hs
    | between hhere hstart hp =>
      have hlen := h.lt_length ht (List.append_ne_nil_of_left_ne_nil hhere _)
      exact ⟨k + 1, _, h.finish ht hhere hstart hp (h.complete ht hlen hs h0)⟩
  obtain ⟨k', before', hat⟩ := hboundary
  have hlen : k' = x.prep.stBlocks.length := by
    refine le_antisymm hat.le_length (not_lt.mp fun hlt => ?_)
    have hpos := executable_pos (executable_block ht hlt)
    rw [← hat.complete ht hlt hs h0] at hpos
    simp [events] at hpos
  have htake : x.prep.stBlocks.take k' = x.prep.stBlocks := hlen ▸ List.take_length
  exact ⟨fun i => htake ▸ hat.sysPosition i, fun i => htake ▸ hat.emitted i⟩

/-- What holds at every point of a run. -/
def Inv (p₀ : Axis → ℤ) (s₀ : Stepper K) (x : Pipeline K) : Prop :=
  x.prep.Tracked p₀ ∧ ∃ k x₀ before here, At s₀ k x₀ before here x

/-- A reset with blocks in the planner and nothing in the segment buffer. -/
theorem inv_stReset {planner : Planner K} (hplain : ∀ b ∈ planner.queue, b.Plain)
    (hle : ∀ b ∈ planner.queue, ∀ i, b.steps i ≤ b.stepEventCount) (hs : s₀.segments = [])
    (hb : s₀.Between) (hnone : s₀.execBlock = none) :
    Inv (fun i => planner.position i - (planner.queue.map (·.signedSteps i)).sum) s₀
      ⟨Prep.stReset planner false, s₀⟩ := by
  refine ⟨?_, 0, s₀, [], [], ?_⟩
  · constructor
    · exact Prep.inv_stReset planner false
    · rfl
    · exact List.Pairwise.nil
    · intro b hb
      exact absurd hb List.not_mem_nil
    · intro b hb
      exact absurd hb List.not_mem_nil
    · exact hle
    · exact hplain
    · intro i
      simp [Prep.stReset, Planner.pending, Planner.Taken]
  · constructor
    · simp [Prep.stReset, hs]
    · exact fun g hg => absurd hg List.not_mem_nil
    · exact fun g hg => absurd hg List.not_mem_nil
    · simp [hs]
    · exact Nat.zero_le _
    · exact fun j hj => absurd hj (Nat.not_lt_zero j)
    · exact fun i => rfl
    · simp
    · simp
    · exact .boundary rfl rfl hb (by simp [hnone])

section Run

variable [IsStrictOrderedRing K] {m : ExactMath K} {s : Settings K} {cfg : StepperConfig K}

theorem inv_step (h : Inv p₀ s₀ x) (hs : Step m s cfg x y) : Inv p₀ s₀ y := by
  obtain ⟨ht, k, x₀, before, here, hat⟩ := h
  cases hs with
  | main hstep hplain =>
    have hp := ht.step hstep hplain
    obtain ⟨⟨new, hnew⟩, hblocks⟩ := ht.prefix_step hstep
    rw [← hnew, List.drop_left]
    exact ⟨hp, k, x₀.queueAll new, before, here, hat.main ht hp hnew.symm hblocks⟩
  | interrupt hne => exact ⟨ht, hat.interrupt ht hne⟩

theorem inv_steps (h : Inv p₀ s₀ x) (hs : Relation.ReflTransGen (Step m s cfg) x y) :
    Inv p₀ s₀ y := by
  induction hs with
  | refl => exact h
  | tail _ hstep ih => exact inv_step ih hstep

end Run

end Pipeline

namespace Prep

/-- A block of ten steps and half a millimetre, accelerated fast enough for a single segment. -/
noncomputable def fastSteps : PlanBlock ℝ :=
  { tenSteps with
    acceleration := 1600000000
    millimeters := 1 / 2
    acceleration_nonneg := by norm_num
    millimeters_nonneg := by norm_num }

noncomputable def fastPlanner : Planner ℝ :=
  { tenStepsPlanner with
    position := fun i => if i = .x then 10 else 0
    queue := [fastSteps] }

def fastConfig : StepperConfig ℝ := ⟨3000000000, 4000, 2000, 1000, false⟩

noncomputable def fastProfile : Profile ℝ where
  acceleration := 1600000000
  millimeters := 1 / 2
  accelerateUntil := 99 / (2 * 100)
  decelerateAfter := 1 / (2 * 100)
  maximumSpeed := 4 * 1000
  exitSpeed := 0
  mmComplete := 0

theorem loop_fastProfile (minimumMm : ℝ) :
    ∃ r, Transition.loop (Ramp.pass fastProfile minimumMm) 3 (Ramp.start fastProfile 0 .accel) =
      some r ∧ r.mmRemaining = 0 := by
  have haccel : Ramp.pass fastProfile minimumMm (Ramp.start fastProfile 0 .accel) =
      .inl ⟨99 / 200, 197 / 1200000, 1 / 400000, 1 / 6000, 4000, .cruise⟩ := by
    norm_num [Ramp.pass, Ramp.start, Ramp.switch, Ramp.accelStep, fastProfile, dtSegment]
  have hcruise : Ramp.pass fastProfile minimumMm
      ⟨99 / 200, 197 / 1200000, 1 / 400000, 1 / 6000, 4000, .cruise⟩ =
      .inl ⟨1 / 200, 1 / 24000, 1 / 8000, 1 / 6000, 4000, .decel⟩ := by
    norm_num [Ramp.pass, Ramp.switch, Ramp.cruiseStep, fastProfile, dtSegment]
  have hdecel : Ramp.pass fastProfile minimumMm
      ⟨1 / 200, 1 / 24000, 1 / 8000, 1 / 6000, 4000, .decel⟩ =
      .inr ⟨0, 47 / 1200000, 51 / 400000, 1 / 6000, 0, .decel⟩ := by
    norm_num [Ramp.pass, Ramp.switch, Ramp.decelStep, fastProfile, dtSegment]
  refine ⟨⟨0, 47 / 1200000, 51 / 400000, 1 / 6000, 0, .decel⟩, ?_, rfl⟩
  rw [Transition.loop, haccel]
  dsimp only
  rw [Transition.loop, hcruise]
  dsimp only
  rw [Transition.loop, hdecel]

theorem nominalSpeed_fast (x : Prep ℝ) (h : x.planner.overrideFeedRate = 100)
    (h' : x.planner.overrideRapidRate = 100) : x.nominalSpeed 0 fastSteps = 4000 := by
  norm_num [nominalSpeed, planComputeProfileNominalSpeed, fastSteps, tenSteps, h, h',
    minimumFeedRate]

theorem normalProfile_fast {x : Prep ℝ} (he : x.exitSpeedSqr = 0)
    (hc : x.control.executeSysMotion = false) :
    (x.normalProfile realMath.toFloatMath 4000 fastSteps).profile fastSteps = fastProfile ∧
      (x.normalProfile realMath.toFloatMath 4000 fastSteps).rampType = .accel := by
  have ha : fastSteps.acceleration = 1600000000 := rfl
  have hmm : fastSteps.millimeters = 1 / 2 := rfl
  have hv : fastSteps.entrySpeedSqr = 0 := rfl
  have hsqrt : realMath.sqrtf 0 = 0 := Real.sqrt_zero
  constructor <;> norm_num [normalProfile, profile, fastProfile, he, hc, ha, hmm, hv, hsqrt]

theorem queueSegment_last (cfg : StepperConfig ℝ) {x : Prep ℝ} {r : Ramp ℝ} {b : PlanBlock ℝ}
    (hq : x.planner.queue = [b]) (hc : x.control = {}) (hmm : x.mmComplete = 0)
    (hr : r.mmRemaining = 0) : ∃ y, x.queueSegment cfg .tail r = (y, true) ∧
      y.planner.queue = [] ∧ y.planner.plBlock = none ∧
      y.planner.velocityProfile = x.planner.velocityProfile ∧
      y.planner.position = x.planner.position ∧ y.stBlocks = x.stBlocks := by
  have hexit : x.queueSegment cfg .tail r = ({ (x.setRamp r).pushSegment cfg .tail r with
      planner := { ((x.setRamp r).pushSegment cfg .tail r).planner with
        plBlock := none }.planDiscardCurrentBlock }, true) := by
    simp [queueSegment, checkExit, pushSegment, setRamp, hr, hmm, hc]
  refine ⟨_, hexit, ?_⟩
  simp [pushSegment, setRamp, Planner.planDiscardCurrentBlock, Planner.updateBlock, hq]

/-- One pass cuts the whole block. -/
theorem prepSegment_fast : ∃ x,
    (stReset fastPlanner false).prepSegment realMath.toFloatMath fastConfig 0 3 = some (x, true) ∧
      x.planner.queue = [] ∧ x.planner.plBlock = none ∧ x.planner.velocityProfile = false ∧
      x.planner.position = fastPlanner.position ∧ x.stBlocks = [fastSteps.stBlock] := by
  obtain ⟨y, hy⟩ : ∃ y, y = (stReset fastPlanner false).enterBlock realMath.toFloatMath fastSteps :=
    ⟨_, rfl⟩
  have hplanner : y.planner = { fastPlanner with
      plBlock := some .tail, currentSpeed := 0, velocityProfile := false } := by
    simp [hy, enterBlock, stReset, enterSpeed, initBlock, fastPlanner, tenStepsPlanner, target]
    exact Real.sqrt_zero
  obtain ⟨-, hcontrol, -, -, -, hblocks⟩ := enterBlock_frame realMath.toFloatMath fastSteps
    (stReset fastPlanner false)
  rw [← hy] at hcontrol hblocks
  change y.control = {} at hcontrol
  have hload : (stReset fastPlanner false).loadProfile realMath.toFloatMath 0 =
      some (y.normalProfile realMath.toFloatMath 4000 fastSteps) := by
    rw [← nominalSpeed_fast y]
    · rw [hy]
      rfl
    · rw [hplanner]
      rfl
    · rw [hplanner]
      rfl
  have hexit : y.exitSpeedSqr = 0 := by
    simp [exitSpeedSqr, hplanner, hcontrol, Planner.execBlockExitSpeedSqr, fastPlanner]
  obtain ⟨hprofile, hramp⟩ := normalProfile_fast hexit (by rw [hcontrol])
  have hwork : y.SameWork (y.normalProfile realMath.toFloatMath 4000 fastSteps) :=
    sameWork_normalProfile
  generalize y.normalProfile realMath.toFloatMath 4000 fastSteps = z at *
  obtain ⟨r, hloop, hr⟩ := loop_fastProfile (z.minimumMm fastSteps)
  have hgen : z.generate fastConfig 3 .tail = some (z.queueSegment fastConfig .tail r) := by
    have hb : z.planner.block? .tail = some fastSteps := by
      rw [hwork.planner_eq, hplanner]
      rfl
    have hv : z.planner.currentSpeed = 0 := by rw [hwork.planner_eq, hplanner]
    unfold generate
    rw [hb]
    dsimp only
    rw [hprofile, hramp, hv, hloop]
  have htarget : z.target = .tail := by simp [target, hwork.control_eq, hcontrol]
  have hmm : z.mmComplete = 0 := congrArg Profile.mmComplete hprofile
  have hqueue : z.planner.queue = [fastSteps] := by
    rw [hwork.planner_eq, hplanner]
    rfl
  obtain ⟨w, hw, hempty, hpl, hvp, hpos, hst⟩ := queueSegment_last fastConfig hqueue
    (hwork.control_eq.trans hcontrol) hmm hr
  refine ⟨w, ?_, hempty, hpl, hvp.trans ?_, hpos.trans ?_,
    hst.trans (hwork.stBlocks_eq.trans hblocks)⟩
  · have hnone : (stReset fastPlanner false).planner.plBlock = none := rfl
    rw [prepSegment, hnone]
    dsimp only
    rw [hload]
    dsimp only
    rw [htarget, hgen, hw]
  · rw [hwork.planner_eq, hplanner]
  · rw [hwork.planner_eq, hplanner]

end Prep

namespace Pipeline

/-- The motors at rest. -/
def rest : Stepper ℝ where
  newBlock := false
  dirChanged _ := false
  stepOut _ := false
  dirOut _ := false
  amassLevel := 0
  stepCount := 0
  stepEventCount := 0
  steps _ := 0
  counter _ := 0
  execBlock := none
  execSegment := none
  cyclesPerTick := 0
  segments := []
  sysPosition _ := 7
  isHoming := false
  homingAxisLock _ := false
  pulses _ := 0

theorem steps_interrupt {m : ExactMath ℝ} {s : Settings ℝ} {cfg : StepperConfig ℝ} {p : Prep ℝ}
    (h0 : p.stepsRemaining = 0) (n : ℕ) (z : Stepper ℝ) :
    Relation.ReflTransGen (Step m s cfg) ⟨p, z⟩ ⟨p, (Stepper.interrupt p.block)^[n] z⟩ := by
  induction n with
  | zero => exact .refl
  | succ n ih =>
    rw [Function.iterate_succ_apply']
    exact ih.tail (.interrupt (.inr h0))

end Pipeline

end Inspector
