import Inspector.Stepper.Arrivals
import Inspector.Stepper.Pulses
import Mathlib.Algebra.Order.BigOperators.Group.List

/-! # Exactness of the step pulses

The segments of a block take its step events in whole steps, each at its own smoothing level. In a
block of at most `2 ^ 28` step events no counter overflows then, so every axis makes exactly its
steps. One step event more, and a counter overflows and loses steps.
-/

namespace Inspector

open Bresenham

variable {K : Type*}

/-- The step events of the block that a segment takes. -/
def Segment.stepEvents (g : Segment K) : ℕ := g.nStep >>> g.amassLevel

namespace Stepper

/-- A segment of block `k` that takes at least one step event, and only whole ones. -/
structure WholeSteps (k : ℕ) (g : Segment K) : Prop where
  execBlock : g.execBlock = k
  amassLevel : g.amassLevel ≤ maxAmassLevel
  pos : 0 < g.stepEvents
  nStep : g.nStep = g.stepEvents <<< g.amassLevel

variable {k : ℕ} {g : Segment K} {gs : List (Segment K)}

theorem WholeSteps.proper (h : WholeSteps k g) (hlt : g.stepEvents < 2 ^ 29) : Proper k g := by
  have hle : 2 ^ g.amassLevel ≤ 2 ^ 3 := Nat.pow_le_pow_right Nat.two_pos h.amassLevel
  have hpos := h.pos
  have hn := h.nStep
  rw [Nat.shiftLeft_eq] at hn
  constructor
  · exact h.execBlock
  · rw [hn]
    exact Nat.mul_pos hpos (Nat.two_pow_pos _)
  · have := Nat.mul_le_mul_left g.stepEvents hle
    omega
  · exact h.amassLevel.trans_lt (by decide)

variable [Field K] [LinearOrder K] {b : PlanBlock K} {i : Axis}

theorem shiftLeft_mul_shiftRight (m a : ℕ) {l : ℕ} (hl : l ≤ maxAmassLevel) :
    m <<< l * (a <<< maxAmassLevel) >>> l = m * a <<< maxAmassLevel := by
  have h : 2 ^ l * (a <<< maxAmassLevel) >>> l = a <<< maxAmassLevel := by
    rw [Nat.shiftRight_eq_div_pow, Nat.shiftLeft_eq]
    exact Nat.mul_div_cancel' ((pow_dvd_pow 2 hl).mul_left a)
  rw [Nat.shiftLeft_eq, mul_assoc, h]

theorem increments_levels_cons : increments b.stBlock i (levels (g :: gs)) =
    List.replicate g.nStep ((b.steps i <<< maxAmassLevel) >>> g.amassLevel) ++
      increments b.stBlock i (levels gs) := by
  simp [increments, levels, PlanBlock.stBlock]

theorem sum_increments (hgs : ∀ g ∈ gs, WholeSteps k g) :
    (increments b.stBlock i (levels gs)).sum =
      (gs.map (·.stepEvents)).sum * b.steps i <<< maxAmassLevel := by
  induction gs with
  | nil => simp [increments, levels]
  | cons g gs ih =>
    obtain ⟨hg, hgs⟩ := List.forall_mem_cons.mp hgs
    rw [increments_levels_cons, List.sum_append, ih hgs, List.sum_replicate, smul_eq_mul, hg.nStep,
      shiftLeft_mul_shiftRight _ _ hg.amassLevel, List.map_cons, List.sum_cons, add_mul]

theorem fits_segment {E n l : ℕ} (h1 : 1 < E) (hE : E ≤ 2 ^ 31) :
    Fits (2 ^ 32) E (E >>> 1) (List.replicate n (E >>> l)) := by
  have hhalf : E >>> 1 = E / 2 := Nat.shiftRight_eq_div_pow E 1
  rcases Nat.eq_zero_or_pos l with rfl | hl
  · exact fits_replicate (by omega) (by omega)
  · apply fits_of_le (B := E >>> 1) (Nat.shiftRight_le _ _)
    · intro s hs
      rw [List.eq_of_mem_replicate hs, Nat.shiftRight_eq_div_pow, Nat.shiftRight_eq_div_pow]
      exact Nat.div_le_div_left (Nat.pow_le_pow_right Nat.two_pos hl) (Nat.two_pow_pos 1)
    · exact Nat.shiftRight_le _ _
    · omega

/-- The counter of the axis with the most steps is at one half between the segments. -/
theorem fits_dominant (hE : b.stepEventCount ≤ 2 ^ 28) (hi : b.steps i = b.stepEventCount)
    (hgs : ∀ g ∈ gs, WholeSteps k g) :
    Fits (2 ^ 32) (b.stepEventCount <<< maxAmassLevel)
      ((b.stepEventCount <<< maxAmassLevel) >>> 1) (increments b.stBlock i (levels gs)) := by
  have hshift : b.stepEventCount <<< maxAmassLevel = b.stepEventCount * 8 := Nat.shiftLeft_eq _ _
  rcases Nat.eq_zero_or_pos b.stepEventCount with h0 | hpos
  · apply fits_of_le (B := 0) (Nat.shiftRight_le _ _) _ (Nat.zero_le _) (by omega)
    intro s hs
    obtain ⟨l, -, rfl⟩ := List.mem_map.mp hs
    simp [PlanBlock.stBlock, hi, h0]
  · induction gs with
    | nil => trivial
    | cons g gs ih =>
      obtain ⟨hg, hgs⟩ := List.forall_mem_cons.mp hgs
      have hfit := fits_segment (E := b.stepEventCount <<< maxAmassLevel) (n := g.nStep)
        (l := g.amassLevel) (by omega) (by omega)
      rw [increments_levels_cons, hi, fits_append]
      refine ⟨hfit, ?_⟩
      rw [trace_eq (n := g.stepEvents) _ (Nat.shiftRight_le _ _) _ hfit]
      · exact ih hgs
      · rw [List.sum_replicate, smul_eq_mul]
        nth_rewrite 1 [hg.nStep]
        rw [shiftLeft_mul_shiftRight _ _ hg.amassLevel, mul_comm]
      · rw [Nat.shiftRight_eq_div_pow]
        omega
      · intro s hs
        rw [List.eq_of_mem_replicate hs]
        exact Nat.shiftRight_le _ _

/-- A block of at most `2 ^ 28` step events does not overflow the counter of any axis. -/
theorem fits_increments (hE : b.stepEventCount ≤ 2 ^ 28) (hmax : b.steps i ≤ b.stepEventCount)
    (hgs : ∀ g ∈ gs, WholeSteps k g) :
    Fits (2 ^ 32) (b.stepEventCount <<< maxAmassLevel)
      ((b.stepEventCount <<< maxAmassLevel) >>> 1) (increments b.stBlock i (levels gs)) := by
  rcases hmax.eq_or_lt with hi | hlt
  · exact fits_dominant hE hi hgs
  · apply fits_of_le (B := b.steps i <<< maxAmassLevel) (Nat.shiftRight_le _ _)
    · intro s hs
      obtain ⟨l, -, rfl⟩ := List.mem_map.mp hs
      exact Nat.shiftRight_le _ _
    · simp only [maxAmassLevel, Nat.shiftLeft_eq]
      omega
    · simp only [maxAmassLevel, Nat.shiftLeft_eq]
      omega

theorem axisTrace_levels (hmax : b.steps i ≤ b.stepEventCount) (hgs : ∀ g ∈ gs, WholeSteps k g)
    (hsum : (gs.map (·.stepEvents)).sum = b.stepEventCount)
    (hfit : Fits (2 ^ 32) (b.stepEventCount <<< maxAmassLevel)
      ((b.stepEventCount <<< maxAmassLevel) >>> 1) (increments b.stBlock i (levels gs))) :
    (axisTrace b.stBlock i (levels gs)).2 = b.steps i := by
  rcases Nat.eq_zero_or_pos b.stepEventCount with h0 | hpos
  · cases gs with
    | nil =>
      have : b.steps i = 0 := by omega
      rw [this]
      rfl
    | cons g gs =>
      have := (hgs g List.mem_cons_self).pos
      rw [List.map_cons, List.sum_cons] at hsum
      omega
  · have hshift : b.stepEventCount <<< maxAmassLevel = b.stepEventCount * 8 := Nat.shiftLeft_eq _ _
    have hsum' : (increments b.stBlock i (levels gs)).sum =
        b.stepEventCount <<< maxAmassLevel * b.steps i := by
      rw [sum_increments hgs, hsum]
      simp only [Nat.shiftLeft_eq]
      ring
    refine congrArg Prod.snd (trace_eq ?_ (Nat.shiftRight_le _ _) (increments_le ?_) hfit hsum')
    · change 0 < (b.stepEventCount <<< maxAmassLevel) >>> 1
      rw [Nat.shiftRight_eq_div_pow]
      omega
    · simp only [PlanBlock.stBlock, Nat.shiftLeft_eq]
      exact Nat.mul_le_mul_right _ hmax

/-- The interrupts over the segments of a block of at most `2 ^ 28` step events, queued before or
between them, move every axis by exactly its steps of the block, and send out exactly as many
pulses unless homing holds the axis back. No counter overflows. -/
theorem steps_exact (b : PlanBlock K) (hmax : ∀ i, b.steps i ≤ b.stepEventCount)
    (hE : b.stepEventCount ≤ 2 ^ 28) (blocks : ℕ → StBlock K) (k : ℕ) (hb : blocks k = b.stBlock)
    (gs rest : List (Segment K)) (hgs : ∀ g ∈ gs, WholeSteps k g)
    (hsum : (gs.map (·.stepEvents)).sum = b.stepEventCount)
    (x : Stepper K) (es : List (Event K)) (hx : x.Between) (hk : x.execBlock ≠ some k)
    (hq : x.segments ++ queued es = gs ++ rest)
    (hn : interrupts es = (gs.map (·.nStep)).sum)
    (hes : Transition.Along (exec blocks) Served x es) :
    (∀ i, (es.foldl (exec blocks) x).sysPosition i =
      x.sysPosition i + if b.direction i then -(b.steps i : ℤ) else b.steps i) ∧
    (∀ i, ((es.foldl (exec blocks) x).interrupt blocks).pulses i =
      (x.interrupt blocks).pulses i + if x.free i then b.steps i else 0) ∧
    Transition.Along (exec blocks) (fun y e => e = .interrupt → y.NoOverflow blocks) x es := by
  have hproper : ∀ g ∈ gs, Proper k g := by
    intro g hg
    have hle : g.stepEvents ≤ (gs.map (·.stepEvents)).sum :=
      List.le_sum_of_mem (List.mem_map_of_mem hg)
    exact (hgs g hg).proper (by omega)
  have hfit := fun i => fits_increments hE (hmax i) hgs
  have hsteps := fun i => axisTrace_levels (hmax i) hgs hsum (hfit i)
  have hbetween : (x.queueAll (queued es)).Between := hx
  have hshift : b.stepEventCount <<< maxAmassLevel = b.stepEventCount * 8 := Nat.shiftLeft_eq _ _
  have hE32 : b.stBlock.stepEventCount < 2 ^ 32 := by
    change b.stepEventCount <<< maxAmassLevel < 2 ^ 32
    omega
  have hmax' : ∀ i, b.stBlock.steps i ≤ b.stBlock.stepEventCount := by
    intro i
    simp only [PlanBlock.stBlock, Nat.shiftLeft_eq]
    exact Nat.mul_le_mul_right _ (hmax i)
  obtain ⟨htr, hend⟩ := (hbetween.start hk b.stBlock).block hb hE32 hmax' hq hproper
  rw [← length_levels] at hn
  refine ⟨fun i => ?_, fun i => ?_, noOverflow_along hes fun j hj y hy i => ?_⟩
  · rw [foldl_exec hes, hn, hend.sysPosition, List.nil_append, hsteps]
    change x.sysPosition i + (if b.direction i then -1 else 1) * (b.steps i : ℤ) = _
    split_ifs <;> simp
  · rw [pulses_interrupt, pulses_interrupt, foldl_exec hes, hn, hend.emitted, List.nil_append,
      hsteps]
    rfl
  · obtain ⟨l, hl⟩ : ∃ l, (levels gs)[j]? = some l := ⟨_, List.getElem?_eq_getElem (hn ▸ hj)⟩
    obtain ⟨y', hy', hp, hs⟩ := htr j l hl
    obtain rfl : y = y' := Option.some.inj (hy.symm.trans hy')
    have hlt := (hfit i).lt (j := j) (s := b.stBlock.steps i >>> l) (by simp [increments, hl])
    rw [hp.counter, hs, axisTrace, List.nil_append, increments, List.map_take]
    exact hlt

/-- A speed of 0 is not negative. -/
theorem rest_nonneg : (0 : ℚ) ≤ 0 := le_rfl

/-- A block of `e` step events, `n` of them backwards in Y. -/
def slope (e n : ℕ) : PlanBlock ℚ where
  steps
    | .x => e
    | .y => n
    | _ => 0
  stepEventCount := e
  direction i := i = .y
  condition := {}
  lineNumber := 0
  targetMm _ := 0
  entrySpeedSqr := 0
  maxEntrySpeedSqr := 0
  acceleration := 36000
  millimeters := 1
  maxJunctionSpeedSqr := 0
  rapidRate := 500
  programmedRate := 500
  rateMultiplier := 1
  spindle := ⟨0, false, none⟩
  message := none
  outputCommands := []
  maxEntrySpeedSqr_nonneg := rest_nonneg
  acceleration_nonneg := by decide
  millimeters_nonneg := zero_le_one
  maxJunctionSpeedSqr_nonneg := rest_nonneg

def slopeBlocks (e n : ℕ) : ℕ → StBlock ℚ := fun _ => (slope e n).stBlock

/-- The interrupt when the machine is idle. -/
def idle : Stepper ℚ where
  newBlock := false
  dirChanged _ := false
  stepOut _ := false
  dirOut _ := false
  amassLevel := 0
  stepCount := 0
  stepEventCount := 0
  steps _ := 0
  counter _ := 0
  execBlock := none
  execSegment := none
  cyclesPerTick := 0
  segments := []
  sysPosition _ := 0
  isHoming := false
  homingAxisLock _ := false
  pulses _ := 0

/-- Two steps without smoothing, then three at level 2 that are queued during the first ones. -/
def slopeRun : List (Event ℚ) :=
  [.queue ⟨0, 2, 0, 0, 0, .cruise⟩, .interrupt, .queue ⟨0, 12, 2, 0, 0, .cruise⟩] ++
    List.replicate 13 .interrupt

theorem steps_exact_slope :
    (slopeRun.foldl (exec (slopeBlocks 5 3)) idle).sysPosition .y = -3 ∧
    ((slopeRun.foldl (exec (slopeBlocks 5 3)) idle).interrupt (slopeBlocks 5 3)).pulses .y = 3 := by
  have hmax : ∀ i, (slope 5 3).steps i ≤ (slope 5 3).stepEventCount := fun i => by
    cases i <;> decide
  have h := steps_exact (slope 5 3) hmax (by decide) (slopeBlocks 5 3) 0 rfl
    [⟨0, 2, 0, 0, 0, .cruise⟩, ⟨0, 12, 2, 0, 0, .cruise⟩] []
    (by
      intro g hg
      simp only [List.mem_cons, List.not_mem_nil, or_false] at hg
      rcases hg with rfl | rfl <;> exact ⟨rfl, by decide, by decide, rfl⟩)
    rfl idle slopeRun (.inl rfl) nofun rfl rfl (by decide)
  exact ⟨h.1 .y, h.2.1 .y⟩

theorem not_fits_replicate {M E c s : ℕ} (hM : M = 2 ^ 32) (hE : E = 2 ^ 31 + 8)
    (hc : c = 2 ^ 30 + 4) (hs : s = 2 ^ 31) (n : ℕ) :
    ¬ Fits M E c (List.replicate (2 ^ 27 + 1 + (n + 1)) s) := by
  intro h
  rw [List.replicate_add, fits_append] at h
  obtain ⟨h, hlt, -⟩ := h
  have hle : (trace M E c (List.replicate (2 ^ 27 + 1) s)).1 ≤ E := by
    apply trace_le (by omega)
    intro s' hs'
    rw [List.eq_of_mem_replicate hs']
    omega
  have hcon := trace_conserve h
  have hpos := trace_pos (by omega) h
  rw [List.sum_replicate, smul_eq_mul] at hcon
  generalize trace M E c (List.replicate (2 ^ 27 + 1) s) = r at *
  rw [hE, hs] at hcon
  omega

theorem pulses_ne {e n : ℕ} (he : e = 2 ^ 28 + 1) (hn : n = 2 ^ 28) :
    (trace (2 ^ 32) (e <<< maxAmassLevel) ((e <<< maxAmassLevel) >>> 1)
      (List.replicate e (n <<< maxAmassLevel))).2 ≠ n := by
  have he8 : e <<< maxAmassLevel = e * 8 := Nat.shiftLeft_eq _ _
  have hn8 : n <<< maxAmassLevel = n * 8 := Nat.shiftLeft_eq _ _
  have hc : (e <<< maxAmassLevel) >>> 1 = e * 4 := by
    rw [Nat.shiftRight_eq_div_pow]
    omega
  intro h
  rw [pulses_eq_iff (by omega) (by omega) (by omega)] at h
  · have hlen : List.replicate e (n <<< maxAmassLevel) =
        List.replicate (2 ^ 27 + 1 + ((2 ^ 27 - 1) + 1)) (n <<< maxAmassLevel) :=
      congrArg (List.replicate · _) (by omega)
    rw [hlen] at h
    revert h
    apply not_fits_replicate rfl <;> omega
  · intro s hs
    rw [List.eq_of_mem_replicate hs]
    omega
  · rw [List.sum_replicate, smul_eq_mul, he8, hn8]
    ring

/-- The position after a block in one segment, whether or not a counter overflows. -/
theorem sysPosition_slope {e n : ℕ} (he : 0 < e) (hE : e < 2 ^ 29) (hn : n ≤ e) :
    ((interrupt (slopeBlocks e n))^[e]
        (idle.queueAll [⟨0, e, 0, 0, 0, .cruise⟩])).sysPosition .y =
      -((trace (2 ^ 32) (e <<< maxAmassLevel) ((e <<< maxAmassLevel) >>> 1)
        (List.replicate e (n <<< maxAmassLevel))).2 : ℤ) := by
  have hbetween : (idle.queueAll [⟨0, e, 0, 0, 0, .cruise⟩]).Between := .inl rfl
  have hshift : e <<< maxAmassLevel = e * 8 := Nat.shiftLeft_eq _ _
  have hmax : ∀ i, (slope e n).stBlock.steps i ≤ (slope e n).stBlock.stepEventCount := by
    intro i
    simp only [PlanBlock.stBlock, Nat.shiftLeft_eq]
    apply Nat.mul_le_mul_right
    cases i <;> simp [slope, hn]
  have hgs : ∀ g ∈ [(⟨0, e, 0, 0, 0, .cruise⟩ : Segment ℚ)], Proper 0 g := by
    intro g hg
    obtain rfl := List.mem_singleton.mp hg
    exact ⟨rfl, he, by dsimp only; omega, Nat.succ_pos 31⟩
  have hE32 : (slope e n).stBlock.stepEventCount < 2 ^ 32 := by
    change e <<< maxAmassLevel < 2 ^ 32
    omega
  have hsegs : (idle.queueAll [⟨0, e, 0, 0, 0, .cruise⟩]).segments =
    [⟨0, e, 0, 0, 0, .cruise⟩] ++ [] := rfl
  have hstart := hbetween.start (k := 0) (Option.some_ne_none 0).symm (slope e n).stBlock
  have hblock : slopeBlocks e n 0 = (slope e n).stBlock := rfl
  have hpos := (hstart.block hblock hE32 hmax hsegs hgs).2.sysPosition .y
  have hl : levels [(⟨0, e, 0, 0, 0, .cruise⟩ : Segment ℚ)] = List.replicate e 0 := by
    simp [levels]
  have hinc : increments (slope e n).stBlock .y (List.replicate e 0) =
      List.replicate e (n <<< maxAmassLevel) := by
    simp [increments, PlanBlock.stBlock, slope]
  rw [hl, List.length_replicate, List.nil_append, axisTrace, hinc] at hpos
  rw [hpos]
  simp [slope, idle, queueAll, PlanBlock.stBlock]

/-- A block of `2 ^ 28 + 1` step events loses steps of an axis with `2 ^ 28` steps. -/
theorem steps_lost_slope :
    ((interrupt (slopeBlocks (2 ^ 28 + 1) (2 ^ 28)))^[2 ^ 28 + 1]
      (idle.queueAll [⟨0, 2 ^ 28 + 1, 0, 0, 0, .cruise⟩])).sysPosition .y ≠ -2 ^ 28 := by
  intro h
  rw [sysPosition_slope (by omega) (by omega) (by omega), neg_inj] at h
  exact pulses_ne rfl rfl (by exact_mod_cast h)

end Stepper

end Inspector
