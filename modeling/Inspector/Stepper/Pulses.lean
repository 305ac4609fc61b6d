import Inspector.Bresenham.Counter
import Inspector.Stepper.Interrupt

/-! # Pulse exactness of the stepper interrupt

The interrupts over the segments of a block trace one Bresenham counter for each axis, whatever the
counts are. The axes then make exactly the steps of the block exactly when no counter overflows,
and none does in a block of at most `2 ^ 28` step events.
-/

namespace Inspector

open Bresenham

variable {K : Type*}

namespace Stepper

variable {blocks : ℕ → StBlock K} {x y : Stepper K} {i : Axis} {g : Segment K}

/-- Homing does not hold the axis back. -/
def free (x : Stepper K) (i : Axis) : Bool := !x.isHoming || x.homingAxisLock i

/-- The counter of an axis is a Bresenham counter, the test of the Z axis included. -/
theorem axisEvent_toNat (h : (x.counter i).toNat ≤ x.stepEventCount.toNat) :
    ((x.axisEvent i).1.toNat, (x.axisEvent i).2.toNat) =
      bump (2 ^ 32) x.stepEventCount.toNat (x.counter i).toNat (x.steps i).toNat := by
  have hlt := (x.counter i).toNat_lt
  unfold axisEvent bump
  by_cases hz : i = .z ∧ x.steps .z = 0
  · obtain ⟨rfl, hz0⟩ := hz
    rw [if_pos ⟨rfl, hz0⟩, hz0, UInt32.toNat_zero, Nat.add_zero, Nat.mod_eq_of_lt hlt,
      if_neg (by omega)]
    rfl
  · rw [if_neg hz, ← UInt32.toNat_add]
    by_cases hgt : x.stepEventCount < x.counter i + x.steps i
    · have hle : x.stepEventCount ≤ x.counter i + x.steps i := UInt32.le_of_lt hgt
      simp only [gt_iff_lt, if_pos hgt, if_pos (UInt32.lt_iff_toNat_lt.mp hgt),
        UInt32.toNat_sub_of_le _ _ hle]
      rfl
    · simp only [gt_iff_lt, if_neg hgt, if_neg (mt UInt32.lt_iff_toNat_lt.mpr hgt)]
      rfl

variable {x₀ : Stepper K} {b : StBlock K} {k l : ℕ} {ls : List ℕ} {e : Axis → ℕ}

/-- The increments of an axis over events of the given smoothing levels. -/
def increments (b : StBlock K) (i : Axis) (ls : List ℕ) : List ℕ := ls.map (b.steps i >>> ·)

/-- The Bresenham counter of an axis and its pulses after events of the given levels. -/
def axisTrace (b : StBlock K) (i : Axis) (ls : List ℕ) : ℕ × ℕ :=
  trace (2 ^ 32) b.stepEventCount (b.stepEventCount >>> 1) (increments b i ls)

/-- Events of the given levels of block `k` were executed since `x₀`, giving `e` pulses in all. -/
structure Progress (b : StBlock K) (k : ℕ) (x₀ : Stepper K) (ls : List ℕ) (e : Axis → ℕ)
    (x : Stepper K) : Prop where
  execBlock : x.execBlock = some k
  dirOut : x.dirOut = b.direction
  stepEventCount : x.stepEventCount.toNat = b.stepEventCount
  counter : ∀ i, (x.counter i).toNat = (axisTrace b i ls).1
  free : ∀ i, x.free i = x₀.free i
  sysPosition : ∀ i, x.sysPosition i =
    x₀.sysPosition i + (if b.direction i then -1 else 1) * ((axisTrace b i ls).2 : ℤ)
  emitted : ∀ i, e i = x₀.emitted i + if x₀.free i then (axisTrace b i ls).2 else 0

theorem increments_le (h : b.steps i ≤ b.stepEventCount) :
    ∀ s ∈ increments b i ls, s ≤ b.stepEventCount := by
  intro s hs
  obtain ⟨l, -, rfl⟩ := List.mem_map.mp hs
  exact (Nat.shiftRight_le _ _).trans h

theorem axisTrace_le (h : b.steps i ≤ b.stepEventCount) :
    (axisTrace b i ls).1 ≤ b.stepEventCount :=
  trace_le (Nat.shiftRight_le _ _) (increments_le h)

theorem axisTrace_concat (b : StBlock K) (i : Axis) (ls : List ℕ) (l : ℕ) :
    axisTrace b i (ls ++ [l]) =
      ((bump (2 ^ 32) b.stepEventCount (axisTrace b i ls).1 (b.steps i >>> l)).1,
        (axisTrace b i ls).2 +
          (bump (2 ^ 32) b.stepEventCount (axisTrace b i ls).1 (b.steps i >>> l)).2) := by
  simp [axisTrace, increments, trace_append, trace]

/-- One event of the interrupt is one event of each counter. -/
theorem Progress.traceEvent (h : Progress b k x₀ ls x.pulses x)
    (hmax : ∀ i, b.steps i ≤ b.stepEventCount)
    (hs : ∀ i, (x.steps i).toNat = b.steps i >>> l) :
    Progress b k x₀ (ls ++ [l]) x.traceEvent.countEvent.emitted x.traceEvent.countEvent := by
  have hev : ∀ i, ((x.axisEvent i).1.toNat, (x.axisEvent i).2.toNat) =
      bump (2 ^ 32) b.stepEventCount (axisTrace b i ls).1 (b.steps i >>> l) := by
    intro i
    rw [axisEvent_toNat, h.stepEventCount, h.counter, hs]
    rw [h.stepEventCount, h.counter]
    exact axisTrace_le (hmax i)
  obtain ⟨n, gs, hc⟩ := countEvent_eq x.traceEvent
  rw [hc]
  constructor
  · exact h.execBlock
  · exact h.dirOut
  · exact h.stepEventCount
  · intro i
    rw [axisTrace_concat, ← hev i]
    rfl
  · exact h.free
  · intro i
    rw [axisTrace_concat, ← hev i]
    have hp := h.sysPosition i
    simp only [Stepper.traceEvent, h.dirOut, hp]
    cases b.direction i <;> cases (x.axisEvent i).2 <;> simp <;> ring
  · intro i
    rw [axisTrace_concat, ← hev i]
    have he := h.emitted i
    have hf : (!x.isHoming || x.homingAxisLock i) = x₀.free i := h.free i
    simp only [Stepper.emitted, Stepper.traceEvent, h.execBlock, he, hf]
    cases x₀.free i <;> cases (x.axisEvent i).2 <;> simp [Nat.add_assoc]

/-- The block before its first event. -/
theorem progress_startBlock (hE : b.stepEventCount < 2 ^ 32) (x : Stepper K) :
    Progress b k x [] x.emitted (x.startBlock b k) := by
  constructor
  · rfl
  · rfl
  · exact Nat.mod_eq_of_lt hE
  · intro i
    change (UInt32.ofNat b.stepEventCount >>> 1).toNat = b.stepEventCount >>> 1
    rw [UInt32.toNat_shiftRight, UInt32.toNat_ofNat_of_lt' hE]
    rfl
  · exact fun i => rfl
  · intro i
    simp [axisTrace, increments, startBlock]
  · intro i
    simp [axisTrace, increments]

/-- The next interrupt executes an event of level `l` of block `k` after those of `ls`. -/
def Traces (blocks : ℕ → StBlock K) (b : StBlock K) (k : ℕ) (x₀ : Stepper K) (ls : List ℕ) (l : ℕ)
    (x : Stepper K) : Prop :=
  ∃ y, x.pulseStart.fetch blocks = some y ∧ Progress b k x₀ ls y.pulses y ∧
    ∀ i, (y.steps i).toNat = b.steps i >>> l

/-- The next interrupt starts a segment, of block `k` when one was started since `x₀`. -/
structure Start (b : StBlock K) (k : ℕ) (x₀ : Stepper K) (ls : List ℕ) (x : Stepper K) : Prop where
  execSegment : x.pulseStart.execSegment = none
  progress : Progress b k x₀ ls x.emitted x ∨ x = x₀ ∧ x.execBlock ≠ some k ∧ ls = []

/-- The next interrupt is within a segment of which `j` events are done. -/
structure Within (b : StBlock K) (k : ℕ) (x₀ : Stepper K) (ls : List ℕ) (g : Segment K)
    (gs : List (Segment K)) (j : ℕ) (x : Stepper K) : Prop where
  execSegment : x.execSegment = some g
  stepCount : x.stepCount.toNat = g.nStep - j
  segments : x.segments = if j = g.nStep then gs else g :: gs
  steps : ∀ i, (x.steps i).toNat = b.steps i >>> g.amassLevel
  progress : Progress b k x₀ (ls ++ List.replicate j g.amassLevel) x.emitted x

theorem Progress.congr (h : Progress b k x₀ ls e x) (hb : y.execBlock = x.execBlock)
    (hd : y.dirOut = x.dirOut) (hE : y.stepEventCount = x.stepEventCount)
    (hc : y.counter = x.counter) (hf : y.free = x.free) (hp : y.sysPosition = x.sysPosition) :
    Progress b k x₀ ls e y := by
  constructor
  · exact hb ▸ h.execBlock
  · exact hd ▸ h.dirOut
  · exact hE ▸ h.stepEventCount
  · exact hc ▸ h.counter
  · exact hf ▸ h.free
  · exact hp ▸ h.sysPosition
  · exact h.emitted

theorem Progress.pulseStart (h : Progress b k x₀ ls x.emitted x) :
    Progress b k x₀ ls x.pulseStart.pulses x.pulseStart := by
  obtain ⟨n, s, hs⟩ := pulseStart_eq x
  rw [hs]
  exact h.congr rfl rfl rfl rfl rfl rfl

/-- A segment is loaded: nothing of the block is lost, and a new block is started. -/
theorem Start.loadSegment (h : Start b k x₀ ls x) (hb : blocks k = b) (hk : g.execBlock = k)
    (hE : b.stepEventCount < 2 ^ 32) :
    Progress b k x₀ ls (x.pulseStart.loadSegment blocks g).pulses
      (x.pulseStart.loadSegment blocks g) := by
  subst hk
  obtain ⟨n, s, hs⟩ := pulseStart_eq x
  unfold Stepper.loadSegment
  rcases h.progress with hp | ⟨rfl, hne, rfl⟩
  · simp only [hs, hp.execBlock, ne_eq, not_true_eq_false, if_false]
    exact hp.congr hp.execBlock.symm rfl rfl rfl rfl rfl
  · simp only [hs, ne_eq, hne, not_false_eq_true, if_true, hb]
    exact (progress_startBlock hE x).congr rfl rfl rfl rfl rfl rfl

theorem toNat_steps (hs : b.steps i < 2 ^ 32) (hl : l < 32) :
    (UInt32.ofNat (b.steps i) >>> UInt32.ofNat l).toNat = b.steps i >>> l := by
  have hl' : l < UInt32.size := hl.trans (by decide)
  rw [UInt32.toNat_shiftRight, UInt32.toNat_ofNat_of_lt' hs, UInt32.toNat_ofNat_of_lt' hl',
    Nat.mod_eq_of_lt hl]

/-- The event that follows `j` events of a segment, once the segment is fetched. -/
structure Fetched (blocks : ℕ → StBlock K) (b : StBlock K) (k : ℕ) (x₀ : Stepper K) (ls : List ℕ)
    (g : Segment K) (gs : List (Segment K)) (j : ℕ) (x y : Stepper K) : Prop where
  fetch : x.pulseStart.fetch blocks = some y
  execSegment : y.execSegment = some g
  stepCount : y.stepCount.toNat = g.nStep - j
  segments : y.segments = g :: gs
  steps : ∀ i, (y.steps i).toNat = b.steps i >>> g.amassLevel
  progress : Progress b k x₀ (ls ++ List.replicate j g.amassLevel) y.pulses y

variable {gs : List (Segment K)} {j : ℕ}

theorem Start.fetched (h : Start b k x₀ ls x) (hb : blocks k = b) (hk : g.execBlock = k)
    (hx : x.segments = g :: gs) (hn : g.nStep < 2 ^ 32) (hl : g.amassLevel < 32)
    (hE : b.stepEventCount < 2 ^ 32) (hmax : ∀ i, b.steps i ≤ b.stepEventCount) :
    Fetched blocks b k x₀ ls g gs 0 x (x.pulseStart.loadSegment blocks g) := by
  obtain ⟨hexec, hcount, hsegs⟩ := loadSegment_eq blocks g x.pulseStart
  have hps : x.pulseStart.segments = g :: gs := by
    obtain ⟨n, s, hs⟩ := pulseStart_eq x
    rw [hs, hx]
  constructor
  · unfold Stepper.fetch
    rw [h.execSegment, hps]
  · exact hexec
  · rw [hcount]
    exact UInt32.toNat_ofNat_of_lt' hn
  · rw [hsegs, hps]
  · intro i
    change (UInt32.ofNat ((blocks g.execBlock).steps i) >>> UInt32.ofNat g.amassLevel).toNat = _
    rw [hk, hb]
    exact toNat_steps ((hmax i).trans_lt hE) hl
  · simpa using h.loadSegment hb hk hE

theorem Within.fetched (h : Within b k x₀ ls g gs j x) (blocks : ℕ → StBlock K)
    (hj : j < g.nStep) : Fetched blocks b k x₀ ls g gs j x x.pulseStart := by
  have hexec : x.pulseStart.execSegment = some g := by
    have hc : x.stepCount ≠ 0 := by
      intro h0
      have := h.stepCount
      rw [h0, UInt32.toNat_zero] at this
      omega
    simp [Stepper.pulseStart, h.progress.execBlock, hc, h.execSegment]
  have hp := h.progress.pulseStart
  obtain ⟨n, s, hs⟩ := pulseStart_eq x
  constructor
  · unfold Stepper.fetch
    rw [hexec]
  · exact hexec
  · rw [hs]
    exact h.stepCount
  · rw [hs]
    exact h.segments.trans (if_neg hj.ne)
  · rw [hs]
    exact h.steps
  · exact hp

/-- The interrupt does the event of the segment that was fetched. -/
theorem Fetched.within (h : Fetched blocks b k x₀ ls g gs j x y) (hj : j < g.nStep)
    (hmax : ∀ i, b.steps i ≤ b.stepEventCount) :
    Within b k x₀ ls g gs (j + 1) (x.interrupt blocks) := by
  have hi : x.interrupt blocks = y.traceEvent.countEvent := by
    unfold interrupt
    rw [h.fetch]
  have hcount : y.traceEvent.stepCount.toNat = g.nStep - j := h.stepCount
  obtain ⟨hc, hs⟩ := stepCount_countEvent (x := y.traceEvent) (by omega)
  have hp := h.progress.traceEvent hmax h.steps
  obtain ⟨n, gs', he⟩ := countEvent_eq y.traceEvent
  rw [hi]
  constructor
  · rw [he]
    exact h.execSegment
  · rw [hc, hcount]
    omega
  · rw [hs, hcount, show y.traceEvent.segments = g :: gs from h.segments]
    split_ifs <;> first | rfl | omega
  · rw [he]
    exact h.steps
  · rwa [List.replicate_succ', ← List.append_assoc]

/-- The last event of a segment leaves the interrupt before the next one. -/
theorem Within.start (h : Within b k x₀ ls g gs g.nStep x) :
    Start b k x₀ (ls ++ List.replicate g.nStep g.amassLevel) x ∧ x.segments = gs := by
  have hc : x.stepCount = 0 := by
    rw [← UInt32.toNat_inj, h.stepCount]
    simp
  refine ⟨⟨?_, .inl h.progress⟩, h.segments.trans (if_pos rfl)⟩
  simp [Stepper.pulseStart, h.progress.execBlock, hc]

/-- No interrupt is within a segment. -/
def Between (x : Stepper K) : Prop :=
  x.execSegment = none ∨ x.execBlock.isSome ∧ x.stepCount = 0

theorem Between.start (h : x.Between) (hk : x.execBlock ≠ some k) (c : StBlock K) :
    Start c k x [] x := by
  refine ⟨?_, .inr ⟨rfl, hk, rfl⟩⟩
  unfold pulseStart
  rcases h with h | ⟨hb, hc⟩
  · split_ifs <;> simp [h]
  · simp [hb, hc]

theorem Start.sysPosition (h : Start b k x₀ ls x) (i : Axis) : x.sysPosition i =
    x₀.sysPosition i + (if b.direction i then -1 else 1) * ((axisTrace b i ls).2 : ℤ) := by
  rcases h.progress with hp | ⟨rfl, -, rfl⟩
  · exact hp.sysPosition i
  · simp [axisTrace, increments]

theorem Start.emitted (h : Start b k x₀ ls x) (i : Axis) :
    x.emitted i = x₀.emitted i + if x₀.free i then (axisTrace b i ls).2 else 0 := by
  rcases h.progress with hp | ⟨rfl, -, rfl⟩
  · exact hp.emitted i
  · simp [axisTrace, increments]

/-- The smoothing levels of the events of a list of segments. -/
def levels (gs : List (Segment K)) : List ℕ :=
  gs.flatMap fun g => List.replicate g.nStep g.amassLevel

theorem length_levels (gs : List (Segment K)) :
    (levels gs).length = (gs.map (·.nStep)).sum := by
  simp [levels, List.length_flatMap]

/-- A segment of block `k` that has a step event and fits into the words of the interrupt. -/
structure Proper (k : ℕ) (g : Segment K) : Prop where
  execBlock : g.execBlock = k
  pos : 0 < g.nStep
  lt : g.nStep < 2 ^ 32
  amassLevel : g.amassLevel < 32

section Block

variable (hb : blocks k = b) (hE : b.stepEventCount < 2 ^ 32)
  (hmax : ∀ i, b.steps i ≤ b.stepEventCount)

include hb hE hmax

/-- The interrupts of a segment. -/
theorem Start.segment (h : Start b k x₀ ls x) (hx : x.segments = g :: gs) (hg : Proper k g)
    (hj : j < g.nStep) :
    (∃ y, Fetched blocks b k x₀ ls g gs j ((interrupt blocks)^[j] x) y) ∧
      Within b k x₀ ls g gs (j + 1) ((interrupt blocks)^[j + 1] x) := by
  induction j with
  | zero =>
    have hf := h.fetched hb hg.execBlock hx hg.lt hg.amassLevel hE hmax
    exact ⟨⟨_, hf⟩, hf.within hj hmax⟩
  | succ j ih =>
    have hw := (ih (by omega)).2
    have hf := hw.fetched blocks hj
    refine ⟨⟨_, hf⟩, ?_⟩
    rw [Function.iterate_succ_apply']
    exact hf.within hj hmax

/-- The interrupts of the segments of a block execute the events of these segments in order. -/
theorem Start.block {rest : List (Segment K)} (h : Start b k x₀ ls x)
    (hx : x.segments = gs ++ rest) (hgs : ∀ g ∈ gs, Proper k g) :
    (∀ j l, (levels gs)[j]? = some l → Traces blocks b k x₀ (ls ++ (levels gs).take j) l
        ((interrupt blocks)^[j] x)) ∧
      Start b k x₀ (ls ++ levels gs) ((interrupt blocks)^[(levels gs).length] x) := by
  induction gs generalizing ls x with
  | nil =>
    refine ⟨fun j l hl => ?_, ?_⟩
    · simp [levels] at hl
    · simpa [levels] using h
  | cons g gs ih =>
    obtain ⟨hg, hgs⟩ := List.forall_mem_cons.mp hgs
    have hlevels : levels (g :: gs) = List.replicate g.nStep g.amassLevel ++ levels gs := rfl
    have hseg : ∀ j < g.nStep, _ := fun j => h.segment hb hE hmax hx hg (j := j)
    have hlast := (hseg (g.nStep - 1) (Nat.sub_lt hg.pos Nat.one_pos)).2
    rw [Nat.sub_add_cancel hg.pos] at hlast
    obtain ⟨hstart, hrest⟩ := hlast.start
    obtain ⟨htr, hend⟩ := ih hstart hrest hgs
    rw [hlevels]
    constructor
    · intro j l hl
      rw [List.getElem?_append, List.length_replicate] at hl
      split_ifs at hl with hlt
      · rw [List.getElem?_replicate, if_pos hlt] at hl
        cases hl
        obtain ⟨y, hy⟩ := (hseg j hlt).1
        refine ⟨y, hy.fetch, ?_, hy.steps⟩
        simpa [List.take_append, Nat.sub_eq_zero_of_le hlt.le, hlt.le] using hy.progress
      · have := htr (j - g.nStep) l hl
        rw [← Function.iterate_add_apply, Nat.sub_add_cancel (by omega)] at this
        simpa [List.take_append, Nat.min_eq_right (Nat.le_of_not_lt hlt)] using this
    · rw [← Function.iterate_add_apply] at hend
      simpa [Nat.add_comm] using hend

end Block

end Stepper

end Inspector
