import Inspector.Stepper.Prep

/-! # Step counts of segments

The segments of a block are those that carry its place among the loaded blocks. Loading a block
starts a new count, and queueing a segment moves steps from those left to those queued.
-/

namespace Inspector

variable {K : Type*} [Field K] [LinearOrder K]

namespace PlanBlock

variable {b : PlanBlock K} {mm : K}

theorem setMillimeters_millimeters (h : 0 ≤ mm) : (b.setMillimeters mm).millimeters = mm := by
  rw [setMillimeters, dif_pos h]

@[simp] theorem setMillimeters_acceleration :
    (b.setMillimeters mm).acceleration = b.acceleration := by
  unfold setMillimeters
  split <;> rfl

end PlanBlock

theorem Planner.block?_congr {p q : Planner K} {t : PrepTarget} (hq : q.queue = p.queue)
    (hs : q.systemBlock = p.systemBlock) : q.block? t = p.block? t := by
  cases t with
  | systemMotion => exact hs
  | tail => exact congrArg List.head? hq

theorem Planner.execBlockExitSpeedSqr_updateBlock {p : Planner K} {t : PrepTarget}
    {f : PlanBlock K → PlanBlock K} :
    (p.updateBlock t f).execBlockExitSpeedSqr = p.execBlockExitSpeedSqr := by
  cases t with
  | systemMotion => rfl
  | tail =>
    unfold execBlockExitSpeedSqr
    simp only [updateBlock]
    cases p.queue <;> rfl

section UpdateBlock

variable {p : Planner K} {t : PrepTarget} {f : PlanBlock K → PlanBlock K}

@[simp] theorem Planner.updateBlock_plBlock : (p.updateBlock t f).plBlock = p.plBlock := by
  cases t <;> rfl

@[simp] theorem Planner.updateBlock_currentSpeed :
    (p.updateBlock t f).currentSpeed = p.currentSpeed := by
  cases t <;> rfl

@[simp] theorem Planner.updateBlock_velocityProfile :
    (p.updateBlock t f).velocityProfile = p.velocityProfile := by
  cases t <;> rfl

@[simp] theorem Planner.updateBlock_overrides :
    (p.updateBlock t f).overrideFeedRate = p.overrideFeedRate ∧
      (p.updateBlock t f).overrideRapidRate = p.overrideRapidRate := by
  cases t <;> exact ⟨rfl, rfl⟩

end UpdateBlock

theorem Planner.block?_updateBlock {p : Planner K} {t : PrepTarget}
    {f : PlanBlock K → PlanBlock K} : (p.updateBlock t f).block? t = (p.block? t).map f := by
  cases t with
  | systemMotion => rfl
  | tail =>
    simp only [block?, updateBlock]
    cases p.queue <;> rfl

namespace Prep

/-- The steps of the segments queued for the `k`-th block, without the smoothing. -/
def queued (x : Prep K) (k : ℕ) : ℕ :=
  ((x.segments.filter (·.execBlock = k)).map fun s => s.nStep >>> s.amassLevel).sum

/-- The steps of the `k`-th block that are not queued yet. -/
def left (x : Prep K) (k : ℕ) : ℕ := if k + 1 = x.stBlocks.length then x.stepsRemaining else 0

/-- Queued steps and steps left make up every block, and no segment is empty. -/
structure Counts (x : Prep K) : Prop where
  pos : ∀ s ∈ x.segments, 0 < s.nStep >>> s.amassLevel
  execBlock_lt : ∀ s ∈ x.segments, s.execBlock < x.stBlocks.length
  sum : ∀ k b, x.stBlocks[k]? = some b →
    (x.queued k + x.left k) <<< maxAmassLevel = b.stepEventCount

variable {x y : Prep K} {b : PlanBlock K}

theorem Counts.congr (h : x.Counts) (hs : y.segments = x.segments)
    (hb : y.stBlocks = x.stBlocks) (hr : y.stepsRemaining = x.stepsRemaining) : y.Counts := by
  obtain ⟨hpos, hlt, hsum⟩ := h
  refine ⟨?_, ?_, ?_⟩
  · rwa [hs]
  · rwa [hs, hb]
  · unfold queued left at *
    rwa [hs, hb, hr]

/-- A block is loaded when nothing is left of the one before. -/
theorem Counts.load {sb : StBlock K} (h : x.Counts) (h0 : x.stepsRemaining = 0)
    (hs : y.segments = x.segments) (hb : y.stBlocks = x.stBlocks ++ [sb])
    (hc : sb.stepEventCount = y.stepsRemaining <<< maxAmassLevel) : y.Counts := by
  obtain ⟨hpos, hlt, hsum⟩ := h
  have hlen : y.stBlocks.length = x.stBlocks.length + 1 := by simp [hb]
  refine ⟨hs ▸ hpos, fun s hm => ?_, fun k b hk => ?_⟩
  · rw [hlen]
    exact (hlt s (hs ▸ hm)).trans (Nat.lt_succ_self _)
  · have hq : y.queued k = x.queued k := by
      unfold queued
      rw [hs]
    rw [hb, List.getElem?_append] at hk
    rw [hq, left, hlen]
    split_ifs at hk with hlt'
    · rw [if_neg (by omega), ← hsum k b hk, left]
      split_ifs <;> simp [h0]
    · obtain ⟨hk0, rfl⟩ : k - x.stBlocks.length = 0 ∧ sb = b := by
        rw [List.getElem?_singleton] at hk
        split_ifs at hk with h0
        exact ⟨h0, Option.some.inj hk⟩
      have hempty : x.queued k = 0 := by
        unfold queued
        rw [List.filter_eq_nil_iff.mpr]
        · rfl
        · intro s hm
          have := hlt s hm
          simp only [decide_eq_true_eq]
          omega
      rw [if_pos (by omega), hempty, zero_add, hc]

theorem counts_initBlock (h : x.Counts) (h0 : x.stepsRemaining = 0) : (x.initBlock b).Counts :=
  h.load h0 rfl rfl rfl

/-- A segment takes its steps from those left of the last block. -/
theorem Counts.queue {g : Segment K} (h : x.Counts) (hne : x.stBlocks ≠ [])
    (hs : y.segments = x.segments ++ [g]) (hb : y.stBlocks = x.stBlocks)
    (hg : g.execBlock = x.stBlocks.length - 1) (hpos : 0 < g.nStep >>> g.amassLevel)
    (hr : g.nStep >>> g.amassLevel + y.stepsRemaining = x.stepsRemaining) : y.Counts := by
  obtain ⟨hp, hlt, hsum⟩ := h
  have hlen := List.length_pos_iff.mpr hne
  refine ⟨fun s hm => ?_, fun s hm => ?_, fun k b hk => ?_⟩
  · rw [hs, List.mem_append, List.mem_singleton] at hm
    rcases hm with hm | rfl
    · exact hp s hm
    · exact hpos
  · rw [hs, List.mem_append, List.mem_singleton] at hm
    rw [hb]
    rcases hm with hm | rfl
    · exact hlt s hm
    · omega
  · rw [hb] at hk
    rw [← hsum k b hk]
    have hklt := (List.getElem?_eq_some_iff.mp hk).1
    have hq : y.queued k + y.left k = x.queued k + x.left k := by
      unfold queued left
      rw [hs, hb, List.filter_append, List.map_append, List.sum_append]
      by_cases hk1 : k + 1 = x.stBlocks.length
      · have : g.execBlock = k := by omega
        simp only [if_pos hk1, List.filter_singleton, this, decide_true, cond_true, List.map_cons,
          List.map_nil, List.sum_cons, List.sum_nil]
        omega
      · have : ¬ g.execBlock = k := by omega
        simp [if_neg hk1, this]
    rw [hq]

end Prep

end Inspector
