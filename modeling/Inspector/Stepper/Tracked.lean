import Inspector.Planner.Steps
import Inspector.Stepper.Conservation
import Inspector.Stepper.Exactness

/-! # Steps from the planner to the segments

No step of a motion is lost on the way from the planner to the segment buffer: the planner position
is always where the blocks that are loaded and those that are pending lead to. The segments lie in
the buffer in the order of their blocks, and a block that is loaded keeps its place.
-/

namespace Inspector

variable {K : Type*} [Field K] [LinearOrder K]

/-- The displacement of an axis by the Bresenham data of a block. -/
def StBlock.signedSteps (c : StBlock K) (i : Axis) : ℤ :=
  if c.direction i then -((c.steps i >>> maxAmassLevel : ℕ) : ℤ)
  else ((c.steps i >>> maxAmassLevel : ℕ) : ℤ)

namespace PlanBlock

/-- What replanning keeps of a block. -/
def course (b : PlanBlock K) : (Axis → ℕ) × (Axis → Bool) × ℕ × Bool :=
  (b.steps, b.direction, b.stepEventCount, b.condition.backlashMotion)

/-- A block that moves the planner position and does not overflow the counters of the interrupt. -/
structure Plain (b : PlanBlock K) : Prop where
  stepEventCount_le : b.stepEventCount ≤ 2 ^ 28
  ordinary : b.condition.backlashMotion = false

variable {l l' : List (PlanBlock K)} {i : Axis}

@[simp] theorem course_setEntry (b : PlanBlock K) (v : K) : (b.setEntry v).course = b.course := rfl

@[simp] theorem course_setMillimeters (b : PlanBlock K) (mm : K) :
    (b.setMillimeters mm).course = b.course := by
  unfold setMillimeters
  split <;> rfl

@[simp] theorem signedSteps_stBlock (b : PlanBlock K) :
    b.stBlock.signedSteps i = b.signedSteps i := by
  simp only [StBlock.signedSteps, stBlock, Nat.shiftLeft_shiftRight]
  rfl

theorem sum_signedSteps_congr (h : l'.map course = l.map course) :
    (l'.map (·.signedSteps i)).sum = (l.map (·.signedSteps i)).sum := by
  let f : (Axis → ℕ) × (Axis → Bool) × ℕ × Bool → ℤ :=
    fun q => if q.2.1 i then -(q.1 i : ℤ) else q.1 i
  have hf : (fun b : PlanBlock K => b.signedSteps i) = f ∘ course := rfl
  rw [hf, ← List.map_map, h, List.map_map]

theorem steps_le_congr (h : l'.map course = l.map course)
    (hl : ∀ b ∈ l, ∀ i, b.steps i ≤ b.stepEventCount) :
    ∀ b ∈ l', ∀ i, b.steps i ≤ b.stepEventCount := by
  intro b' hb' i
  have hm : b'.course ∈ l.map course := h ▸ List.mem_map_of_mem hb'
  obtain ⟨b, hb, heq⟩ := List.mem_map.mp hm
  have hsteps : b.steps = b'.steps := congrArg Prod.fst heq
  have hcount : b.stepEventCount = b'.stepEventCount := congrArg (·.2.2.1) heq
  rw [← hsteps, ← hcount]
  exact hl b hb i

theorem plain_congr (h : l'.map course = l.map course) (hl : ∀ b ∈ l, b.Plain) :
    ∀ b ∈ l', b.Plain := by
  intro b' hb'
  have hm : b'.course ∈ l.map course := h ▸ List.mem_map_of_mem hb'
  obtain ⟨b, hb, heq⟩ := List.mem_map.mp hm
  obtain ⟨hle, hord⟩ := hl b hb
  have hcount : b.stepEventCount = b'.stepEventCount := congrArg (·.2.2.1) heq
  have hback : b.condition.backlashMotion = b'.condition.backlashMotion := congrArg (·.2.2.2) heq
  exact ⟨hcount ▸ hle, hback ▸ hord⟩

end PlanBlock

namespace Planner

open PlanBlock

/-- The generator has taken up the block at the tail. -/
def Taken (p : Planner K) : Bool := p.plBlock.isSome || p.velocityProfile

/-- The blocks that the generator has not taken up. -/
def pending (p : Planner K) : List (PlanBlock K) := if p.Taken then p.queue.tail else p.queue

variable {p q : Planner K}

theorem Retimed.taken_eq {t : PrepTarget} (h : p.Retimed t q) : q.Taken = p.Taken := by
  unfold Taken
  rcases h.2 with ⟨hpl, hvp, -⟩ | ⟨hpl, hnone, hvp, -⟩
  · rw [hpl, hvp]
  · obtain ⟨u, hu⟩ := Option.ne_none_iff_exists'.mp hpl
    rw [hvp, hu, Bool.or_true]
    rfl

theorem pending_map (ht : q.Taken = p.Taken) (hq : q.queue.map course = p.queue.map course) :
    q.pending.map course = p.pending.map course := by
  unfold pending
  rw [ht]
  split_ifs
  · rw [List.map_tail, List.map_tail, hq]
  · exact hq

theorem planCycleReinitialize_map :
    p.planCycleReinitialize.queue.map course = p.queue.map course := by
  unfold planCycleReinitialize
  dsimp only
  split_ifs
  · rw [plannerRecalculate_map course_setEntry]
    exact stUpdate_map course_setEntry
  · exact stUpdate_map course_setEntry

theorem planCycleReinitialize_position : p.planCycleReinitialize.position = p.position := by
  unfold planCycleReinitialize
  dsimp only
  split_ifs
  · rw [plannerRecalculate_position]
    exact stUpdate_position
  · exact stUpdate_position

theorem updateBlock_map {t : PrepTarget} {f : PlanBlock K → PlanBlock K}
    (hf : ∀ b, (f b).course = b.course) :
    (p.updateBlock t f).queue.map course = p.queue.map course ∧
      (p.updateBlock t f).position = p.position := by
  cases t with
  | tail =>
    refine ⟨?_, rfl⟩
    simp only [updateBlock]
    cases p.queue with
    | nil => rfl
    | cons b bs => simp [hf]
  | systemMotion => exact ⟨rfl, rfl⟩

theorem planDiscardCurrentBlock_frame :
    p.planDiscardCurrentBlock.queue = p.queue.tail ∧
      p.planDiscardCurrentBlock.position = p.position ∧
      p.planDiscardCurrentBlock.Taken = p.Taken := by
  unfold planDiscardCurrentBlock
  cases hq : p.queue with
  | nil => exact ⟨hq, rfl, rfl⟩
  | cons b bs => exact ⟨rfl, rfl, rfl⟩

section Overrides

variable [IsStrictOrderedRing K] {rpm : PlanBlock K → K} {fr rr : ℕ}

theorem updateProfile_map (prev : K) (bs : List (PlanBlock K)) :
    (PlanBlock.updateProfile fr rr rpm prev bs).1.map course = bs.map course := by
  induction bs generalizing prev with
  | nil => rfl
  | cons b bs ih =>
    simp only [PlanBlock.updateProfile, List.map_cons, ih]
    rfl

theorem setOverrides_queue :
    (p.setOverrides rpm fr rr).queue.map course = p.queue.map course ∧
      (p.setOverrides rpm fr rr).position = p.position := by
  unfold setOverrides planUpdateVelocityProfileParameters
  dsimp only
  split_ifs
  · exact ⟨rfl, rfl⟩
  · exact ⟨updateProfile_map _ _, rfl⟩

theorem planFeedOverrideRates_queue :
    (p.planFeedOverrideRates rpm fr rr).queue.map course = p.queue.map course ∧
      (p.planFeedOverrideRates rpm fr rr).position = p.position := by
  obtain ⟨hmap, hpos⟩ : (p.setOverrides rpm fr rr).queue.map course = p.queue.map course ∧ _ = _ :=
    setOverrides_queue
  unfold planFeedOverrideRates
  dsimp only
  split_ifs
  · exact ⟨planCycleReinitialize_map.trans hmap, planCycleReinitialize_position.trans hpos⟩
  · exact ⟨hmap, hpos⟩
  · exact ⟨rfl, rfl⟩

end Overrides

section Line

variable [IsStrictOrderedRing K] [FloorRing K] {m : FloatMath K} {s : Settings K} {rpm : K}
  {target : Axis → K} {plData : PlanLineData K}

theorem steps_makeBlock_le (i : Axis) :
    (makeBlock m s rpm target plData p).1.steps i ≤
      (makeBlock m s rpm target plData p).1.stepEventCount := by
  have hle : (deltaSteps s target plData p i).natAbs ≤ stepEventCount s target plData p := by
    simp only [stepEventCount, Axis.down, List.foldl_cons, List.foldl_nil]
    cases i <;> simp
  unfold makeBlock
  dsimp only
  split <;> exact hle

theorem condition_makeBlock :
    (makeBlock m s rpm target plData p).1.condition = plData.condition := by
  unfold makeBlock
  dsimp only
  split <;> rfl

/-- A call appends nothing, or a block that leads from the planner position to the target. -/
theorem planBufferLine_queue
    (h : ∀ b ∈ (planBufferLine m s rpm target plData p).2.2.queue, b.Plain) :
    ((planBufferLine m s rpm target plData p).2.2.queue = p.queue ∧
        (planBufferLine m s rpm target plData p).2.2.position = p.position) ∨
      ∃ b, (planBufferLine m s rpm target plData p).2.2.queue.map course =
          (p.queue ++ [b]).map course ∧ (∀ i, b.steps i ≤ b.stepEventCount) ∧
        ∀ i, (planBufferLine m s rpm target plData p).2.2.position i =
          p.position i + b.signedSteps i := by
  rcases planBufferLine_cases m s rpm target plData p with ⟨hq, -, hpos, -⟩ | ⟨-, hsys, heq⟩
  · exact .inl ⟨hq, hpos⟩
  · have hmap : (planBufferLine m s rpm target plData p).2.2.queue.map course =
        (p.queue ++ [(makeBlock m s rpm target plData p).1]).map course := by
      rw [heq, plannerRecalculate_map course_setEntry]
      rfl
    have hlast : (makeBlock m s rpm target plData p).1.Plain :=
      plain_congr hmap.symm h _ (List.mem_append_right _ (List.mem_singleton.mpr rfl))
    have hback : plData.condition.backlashMotion = false := by
      rw [← condition_makeBlock]
      exact hlast.ordinary
    refine .inr ⟨_, hmap, steps_makeBlock_le, fun i => ?_⟩
    have hdelta : deltaSteps s target plData p i = targetSteps s target i - p.position i := by
      simp [deltaSteps, positionSteps, hsys]
    rw [heq, plannerRecalculate_position, signedSteps_makeBlock, hdelta]
    simp [pushBlock, hback]

end Line

end Planner

namespace Prep

open PlanBlock

variable {x y : Prep K} {p₀ : Axis → ℤ}

theorem amassLevel_le {K : Type*} (cfg : StepperConfig K) (cycles : ℕ) :
    amassLevel cfg cycles ≤ maxAmassLevel := by
  unfold amassLevel
  split_ifs
  · exact Nat.zero_le _
  · exact Nat.le_of_ble_eq_true rfl
  · exact Nat.le_of_ble_eq_true rfl
  · exact le_rfl

/-- Taking up a block changes only what the block is entered with. -/
theorem enterBlock_frame (m : FloatMath K) (b : PlanBlock K) (x : Prep K) :
    (x.enterBlock m b).segments = x.segments ∧ (x.enterBlock m b).control = x.control ∧
      (x.enterBlock m b).planner.position = x.planner.position ∧
      (x.enterBlock m b).planner.queue.map course = x.planner.queue.map course ∧
      (x.enterBlock m b).planner.Taken = true ∧
      (x.enterBlock m b).stBlocks =
        if x.planner.velocityProfile then x.stBlocks else x.stBlocks ++ [b.stBlock] := by
  unfold enterBlock
  split_ifs with hvp
  · exact ⟨rfl, rfl, rfl, rfl, rfl, rfl⟩
  · unfold enterSpeed
    split_ifs
    · obtain ⟨hmap, hpos⟩ := Planner.updateBlock_map (p := x.planner) (t := x.target)
        (f := (·.setEntry (x.exitSpeed * x.exitSpeed))) fun _ => course_setEntry _ _
      exact ⟨rfl, rfl, hpos, hmap, rfl, rfl⟩
    · exact ⟨rfl, rfl, rfl, rfl, rfl, rfl⟩

theorem loadProfile_prefix {m : FloatMath K} {rpm : K}
    (hy : x.loadProfile m rpm = some y) :
    y.segments = x.segments ∧ x.stBlocks <+: y.stBlocks := by
  unfold loadProfile at hy
  split at hy
  · cases hy
  · rename_i b hb
    obtain ⟨hsegs, -, -, -, -, hblocks⟩ := enterBlock_frame m b x
    have hwork : (x.enterBlock m b).SameWork y := by
      dsimp only at hy
      split_ifs at hy
      · cases hy
        exact sameWork_holdProfile
      · cases hy
        exact sameWork_normalProfile
    rw [hwork.segments_eq, hwork.stBlocks_eq, hblocks]
    refine ⟨hsegs, ?_⟩
    split_ifs
    · exact List.prefix_rfl
    · exact List.prefix_append _ _

/-- What a segment that is queued changes: a block that is complete leaves the buffer. -/
structure Fills (x y : Prep K) : Prop where
  executeSysMotion : y.control.executeSysMotion = x.control.executeSysMotion
  stBlocks : y.stBlocks = x.stBlocks
  position : y.planner.position = x.planner.position
  segments : y.segments = x.segments ∨ ∃ g : Segment K, y.segments = x.segments ++ [g] ∧
    g.execBlock = x.stBlocks.length - 1 ∧ g.amassLevel ≤ maxAmassLevel ∧
      g.nStep = g.stepEvents <<< g.amassLevel
  queue : y.planner.queue.map course = x.planner.queue.map course ∧ y.planner.Taken = true ∨
    y.planner.queue.map course = x.planner.queue.tail.map course ∧ y.planner.Taken = false

theorem Fills.segments_prefix (h : x.Fills y) : x.segments <+: y.segments := by
  rcases h.segments with hs | ⟨g, hs, -⟩
  · exact hs ▸ List.prefix_rfl
  · exact hs ▸ List.prefix_append _ _

/-- Bresenham data of a block with steps whose counters do not overflow. -/
def Executable (c : StBlock K) : Prop :=
  ∃ b : PlanBlock K, c = b.stBlock ∧ 0 < b.stepEventCount ∧ b.stepEventCount ≤ 2 ^ 28 ∧
    ∀ i, b.steps i ≤ b.stepEventCount

/-- The steps of all motions since the planner position was `p₀` are in the blocks that are loaded
or pending, and the segments lie in the order of their blocks. -/
structure Tracked [FloorRing K] (p₀ : Axis → ℤ) (x : Prep K) : Prop where
  inv : x.Inv
  normal : x.control.executeSysMotion = false
  sorted : x.segments.Pairwise (·.execBlock ≤ ·.execBlock)
  whole : ∀ g ∈ x.segments, g.amassLevel ≤ maxAmassLevel ∧ g.nStep = g.stepEvents <<< g.amassLevel
  loaded : ∀ c ∈ x.stBlocks, Executable c
  steps_le : ∀ b ∈ x.planner.queue, ∀ i, b.steps i ≤ b.stepEventCount
  plain : ∀ b ∈ x.planner.queue, b.Plain
  position : ∀ i, x.planner.position i = p₀ i + (x.stBlocks.map (·.signedSteps i)).sum +
    (x.planner.pending.map (·.signedSteps i)).sum

variable [FloorRing K]

theorem Tracked.target (h : x.Tracked p₀) : x.target = .tail := by
  simp [Prep.target, h.normal]

theorem Tracked.wholeSteps {g : Segment K} (h : x.Tracked p₀) (hg : g ∈ x.segments) :
    Stepper.WholeSteps g.execBlock g :=
  ⟨rfl, (h.whole g hg).1, h.inv.counts.pos g hg, (h.whole g hg).2⟩

/-- A change of plan that moves nothing. -/
theorem Tracked.replan {q : Planner K} (h : x.Tracked p₀) (hr : x.planner.Retimed x.target q)
    (hq : q.queue.map course = x.planner.queue.map course)
    (hpos : q.position = x.planner.position) :
    ({ x with planner := q } : Prep K).Tracked p₀ := by
  constructor
  · exact h.inv.replan hr
  · exact h.normal
  · exact h.sorted
  · exact h.whole
  · exact h.loaded
  · exact steps_le_congr hq h.steps_le
  · exact plain_congr hq h.plain
  · intro i
    rw [hpos, h.position i,
      sum_signedSteps_congr (Planner.pending_map hr.taken_eq hq)]

/-- The control flags of a hold make no difference to what is left to do. -/
theorem Tracked.setControl {c : StepControl} (h : x.Tracked p₀) (hpl : x.planner.plBlock = none)
    (hc : c.executeSysMotion = false) : ({ x with control := c } : Prep K).Tracked p₀ := by
  refine { h with inv := ?_, normal := hc }
  refine h.inv.setControl hpl (hc.trans h.normal.symm) fun _ hd => ?_
  exact absurd hd.1 (by simp [h.normal])

/-- While the generator has a block, the buffer is not empty. -/
theorem Tracked.exists_block (h : x.Tracked p₀) (ht : x.planner.Taken = true) :
    ∃ b bs, x.planner.queue = b :: bs := by
  have hhead : ∃ b, x.planner.block? x.target = some b := by
    cases hpl : x.planner.plBlock with
    | some t =>
      obtain ⟨rfl, -, b, hb, -⟩ := h.inv.inWork t hpl
      exact ⟨b, hb⟩
    | none =>
      have hvp : x.planner.velocityProfile = true := by simpa [Planner.Taken, hpl] using ht
      obtain ⟨b, hb, -⟩ := h.inv.waiting hpl hvp
      exact ⟨b, hb⟩
  obtain ⟨b, hb⟩ := hhead
  rw [h.target] at hb
  obtain ⟨bs, hq⟩ := List.head?_eq_some_iff.mp hb
  exact ⟨b, bs, hq⟩

theorem fills_queueSegment {cfg : StepperConfig K} {t : PrepTarget} {r : Ramp K}
    (h : x.control.executeSysMotion = false)
    (ht : x.planner.plBlock = some t) (hvp : x.planner.velocityProfile = false) :
    x.Fills (x.queueSegment cfg t r).1 := by
  have htaken : x.planner.Taken = true := by simp [Planner.Taken, ht]
  obtain ⟨hmap, hpos⟩ := Planner.updateBlock_map (p := (x.setRamp r).planner) (t := t)
    (f := (·.setMillimeters r.mmRemaining)) fun b => course_setMillimeters b _
  unfold queueSegment
  dsimp only
  split_ifs
  · exact ⟨rfl, rfl, rfl, .inl rfl, .inl ⟨rfl, htaken⟩⟩
  · have hsegs : ∃ g : Segment K, ((x.setRamp r).pushSegment cfg t r).segments = x.segments ++ [g] ∧
        g.execBlock = x.stBlocks.length - 1 ∧ g.amassLevel ≤ maxAmassLevel ∧
          g.nStep = g.stepEvents <<< g.amassLevel := by
      refine ⟨_, rfl, rfl, amassLevel_le cfg _, ?_⟩
      rw [Segment.stepEvents, Nat.shiftLeft_shiftRight]
    have htk : ((x.setRamp r).pushSegment cfg t r).planner.Taken = true := by
      simp [Planner.Taken, pushSegment, setRamp, ht]
    unfold checkExit
    split_ifs with h1 h2 h3
    · exact ⟨rfl, rfl, hpos, .inr hsegs, .inl ⟨hmap, htk⟩⟩
    · exact absurd h3 (by simp [pushSegment, setRamp, h])
    · obtain ⟨hqueue, hpos', htk'⟩ := Planner.planDiscardCurrentBlock_frame
        (p := { ((x.setRamp r).pushSegment cfg t r).planner with plBlock := none })
      refine ⟨rfl, rfl, hpos'.trans hpos, .inr hsegs, .inr ⟨?_, htk'.trans ?_⟩⟩
      · have htail := congrArg List.tail hmap
        rw [← List.map_tail, ← List.map_tail] at htail
        exact (congrArg (List.map course) hqueue).trans htail
      · simp [Planner.Taken, pushSegment, setRamp, hvp]
    · exact ⟨rfl, rfl, hpos, .inr hsegs, .inl ⟨hmap, htk⟩⟩

theorem Tracked.fills_generate {cfg : StepperConfig K} {t : PrepTarget} {fuel : ℕ} {c : Bool}
    (h : x.Tracked p₀) (ht : x.planner.plBlock = some t)
    (hy : x.generate cfg fuel t = some (y, c)) : x.Fills y := by
  obtain ⟨-, hvp, b, hb, -⟩ := h.inv.inWork t ht
  unfold generate at hy
  rw [hb] at hy
  dsimp only at hy
  split at hy
  · cases hy
  · rename_i r _
    have hfst : (x.queueSegment cfg t r).1 = y := congrArg Prod.fst (Option.some.inj hy)
    rw [← hfst]
    exact fills_queueSegment h.normal ht hvp

section Steps

variable [IsStrictOrderedRing K] {m : ExactMath K} {s : Settings K} {cfg : StepperConfig K}
  {rpm : K}

theorem Tracked.line {target : Axis → K} {plData : PlanLineData K} (h : x.Tracked p₀)
    (hplain : ∀ b ∈ (Planner.planBufferLine m.toFloatMath s rpm target plData x.planner).2.2.queue,
      b.Plain) :
    ({ x with planner :=
      (Planner.planBufferLine m.toFloatMath s rpm target plData x.planner).2.2 } :
        Prep K).Tracked p₀ := by
  have hr := Planner.retimed_planBufferLine (p := x.planner) m.toFloatMath s rpm target plData
  rcases Planner.planBufferLine_queue hplain with ⟨hq, hpos⟩ | ⟨b, hmap, hle, hpos⟩
  · exact h.replan (h.target ▸ hr) (congrArg (List.map course) hq) hpos
  · generalize (Planner.planBufferLine m.toFloatMath s rpm target plData x.planner).2.2 = q at *
    have hpend : q.pending.map course = (x.planner.pending ++ [b]).map course := by
      unfold Planner.pending
      rw [hr.taken_eq]
      split_ifs with ht
      · obtain ⟨c, cs, hc⟩ := h.exists_block ht
        rw [List.map_tail, hmap, hc]
        rfl
      · exact hmap
    constructor
    · exact h.inv.replan (h.target ▸ hr)
    · exact h.normal
    · exact h.sorted
    · exact h.whole
    · exact h.loaded
    · refine steps_le_congr hmap fun c hc => ?_
      rcases List.mem_append.mp hc with hc | hc
      · exact h.steps_le c hc
      · obtain rfl := List.mem_singleton.mp hc
        exact hle
    · exact hplain
    · intro i
      rw [hpos, h.position i, sum_signedSteps_congr hpend, List.map_append, List.sum_append,
        List.map_singleton, List.sum_singleton]
      exact add_assoc _ _ _

/-- A block is taken up: it moves from the pending blocks to the loaded ones. -/
theorem Tracked.load (h : x.Tracked p₀) (hpl : x.planner.plBlock = none)
    (he : x.control.endMotion = false) (hf : x.Feasible rpm)
    (hy : x.loadProfile m.toFloatMath rpm = some y) : y.Tracked p₀ := by
  obtain ⟨hinv, hplb, -⟩ := inv_loadProfile h.inv hpl he hf hy
  unfold loadProfile at hy
  split at hy
  · cases hy
  · rename_i b hb
    have hwork : (x.enterBlock m.toFloatMath b).SameWork y := by
      dsimp only at hy
      split_ifs at hy
      · cases hy
        exact sameWork_holdProfile
      · cases hy
        exact sameWork_normalProfile
    obtain ⟨hsegs, hctl, hpos, hmap, htaken, hblocks⟩ := enterBlock_frame m.toFloatMath b x
    rw [← hwork.segments_eq] at hsegs
    rw [← hwork.control_eq] at hctl
    rw [← hwork.planner_eq] at hpos hmap htaken
    rw [← hwork.stBlocks_eq] at hblocks
    rw [h.target] at hb
    obtain ⟨bs, hq⟩ := List.head?_eq_some_iff.mp hb
    have hmem : b ∈ x.planner.queue := hq ▸ List.mem_cons_self
    have hpend : y.planner.pending.map course = bs.map course := by
      rw [Planner.pending, htaken, if_pos rfl, List.map_tail, hmap, hq]
      rfl
    constructor
    · exact hinv
    · rw [hctl]
      exact h.normal
    · rw [hsegs]
      exact h.sorted
    · rw [hsegs]
      exact h.whole
    · intro c hc
      rw [hblocks] at hc
      split_ifs at hc
      · exact h.loaded c hc
      · rcases List.mem_append.mp hc with hc | hc
        · exact h.loaded c hc
        · obtain rfl := List.mem_singleton.mp hc
          exact ⟨b, rfl, (hf b (h.target ▸ hb)).2.2.1, (h.plain b hmem).stepEventCount_le,
            h.steps_le b hmem⟩
    · exact steps_le_congr hmap h.steps_le
    · exact plain_congr hmap h.plain
    · intro i
      rw [hpos, h.position i, hblocks, sum_signedSteps_congr hpend, Planner.pending, hq]
      have htk : x.planner.Taken = x.planner.velocityProfile := by simp [Planner.Taken, hpl]
      rw [htk]
      split_ifs
      · rfl
      · rw [List.map_append, List.sum_append, List.map_singleton, List.sum_singleton,
          signedSteps_stBlock, List.map_cons, List.sum_cons]
        omega

theorem Tracked.generate {t : PrepTarget} {fuel : ℕ} {c : Bool} (h : x.Tracked p₀)
    (ht : x.planner.plBlock = some t) (he : x.control.endMotion = false)
    (hy : x.generate cfg fuel t = some (y, c)) : y.Tracked p₀ := by
  have hinv := inv_generate h.inv ht he hy
  have hfills := h.fills_generate ht hy
  have htaken : x.planner.Taken = true := by simp [Planner.Taken, ht]
  have hpend : y.planner.pending.map course = x.planner.pending.map course := by
    rw [Planner.pending, Planner.pending, htaken, if_pos rfl]
    rcases hfills.queue with ⟨hq, htk⟩ | ⟨hq, htk⟩
    · rw [htk, if_pos rfl, List.map_tail, hq, List.map_tail]
    · rw [htk, if_neg (by decide), hq]
  have hqueue : ∃ l : List (PlanBlock K), y.planner.queue.map course = l.map course ∧
      ∀ b ∈ l, b ∈ x.planner.queue := by
    rcases hfills.queue with ⟨hq, -⟩ | ⟨hq, -⟩
    · exact ⟨_, hq, fun _ hb => hb⟩
    · exact ⟨_, hq, fun _ hb => List.mem_of_mem_tail hb⟩
  obtain ⟨l, hl, hsub⟩ := hqueue
  constructor
  · exact hinv
  · exact hfills.executeSysMotion.trans h.normal
  · rcases hfills.segments with hs | ⟨g, hs, hg, -⟩
    · exact hs ▸ h.sorted
    · rw [hs, List.pairwise_append]
      refine ⟨h.sorted, List.pairwise_singleton _ _, fun a ha b hb => ?_⟩
      rw [List.mem_singleton.mp hb, hg]
      exact Nat.le_sub_one_of_lt (h.inv.counts.execBlock_lt a ha)
  · rcases hfills.segments with hs | ⟨g, hs, -, hlevel, hn⟩
    · exact hs ▸ h.whole
    · intro a ha
      rw [hs] at ha
      rcases List.mem_append.mp ha with ha | ha
      · exact h.whole a ha
      · obtain rfl := List.mem_singleton.mp ha
        exact ⟨hlevel, hn⟩
  · exact hfills.stBlocks ▸ h.loaded
  · exact steps_le_congr hl fun b hb => h.steps_le b (hsub b hb)
  · exact plain_congr hl fun b hb => h.plain b (hsub b hb)
  · intro i
    rw [hfills.position, h.position i, hfills.stBlocks, sum_signedSteps_congr hpend]

/-- Every step of the system keeps track of the steps, as long as the buffer holds plain blocks. -/
theorem Tracked.step (h : x.Tracked p₀) (hs : Step m s cfg x y)
    (hplain : ∀ b ∈ y.planner.queue, b.Plain) : y.Tracked p₀ := by
  cases hs with
  | line rpm goal plData hsys => exact h.line hplain
  | replan =>
    exact h.replan Planner.retimed_planCycleReinitialize Planner.planCycleReinitialize_map
      Planner.planCycleReinitialize_position
  | override rate fr rr =>
    obtain ⟨hmap, hpos⟩ :
        (x.planner.planFeedOverrideRates rate fr rr).queue.map course =
            x.planner.queue.map course ∧ _ = _ := Planner.planFeedOverrideRates_queue
    exact h.replan Planner.retimed_planFeedOverrideRates hmap hpos
  | hold =>
    have hr := h.replan Planner.retimed_stUpdate (Planner.stUpdate_map course_setEntry)
      Planner.stUpdate_position
    exact hr.setControl Planner.stUpdate_plBlock h.normal
  | resume hsys =>
    have hr := h.replan Planner.retimed_planCycleReinitialize Planner.planCycleReinitialize_map
      Planner.planCycleReinitialize_position
    exact hr.setControl Planner.planCycleReinitialize_plBlock rfl
  | prep rpm fuel c he hf hy =>
    unfold prepSegment at hy
    split at hy
    · rename_i t ht
      exact h.generate ht he hy
    · rename_i hpl
      split at hy
      · cases hy
        exact h
      · rename_i z hz
        obtain ⟨-, ht, hez⟩ := inv_loadProfile h.inv hpl he (hf hpl) hz
        exact (h.load hpl he (hf hpl) hz).generate ht hez hy

/-- A step loads blocks and queues segments behind the others. -/
theorem Tracked.prefix_step (h : x.Tracked p₀) (hs : Step m s cfg x y) :
    x.segments <+: y.segments ∧ x.stBlocks <+: y.stBlocks := by
  cases hs with
  | prep rpm fuel c he hf hy =>
    unfold prepSegment at hy
    split at hy
    · rename_i t ht
      have hfills := h.fills_generate ht hy
      exact ⟨hfills.segments_prefix, hfills.stBlocks ▸ List.prefix_rfl⟩
    · rename_i hpl
      split at hy
      · cases hy
        exact ⟨List.prefix_rfl, List.prefix_rfl⟩
      · rename_i z hz
        obtain ⟨-, ht, -⟩ := inv_loadProfile h.inv hpl he (hf hpl) hz
        have hfills := (h.load hpl he (hf hpl) hz).fills_generate ht hy
        obtain ⟨hsegs, hblocks⟩ := loadProfile_prefix hz
        exact ⟨hsegs ▸ hfills.segments_prefix, hfills.stBlocks ▸ hblocks⟩
  | _ => exact ⟨List.prefix_rfl, List.prefix_rfl⟩

end Steps

end Prep

end Inspector
