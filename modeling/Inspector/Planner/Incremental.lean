import Inspector.Planner.Passes
import Inspector.Planner.Run

/-! # Incremental replanning

`planner_recalculate` replans only the blocks behind `planned`. The whole buffer nevertheless
always carries the speeds of its full plan from the tail: the speeds up to `planned` are settled,
so neither an appended block nor the loss of the tail changes them.
-/

namespace Inspector

namespace PlanBlock

open TwoPass

variable {K : Type*} [Field K] [LinearOrder K] {b t : PlanBlock K} {bs xs ys : List (PlanBlock K)}
  {g r : K} {k : ℕ}

/-- One step of a reverse pass that leaves no block alone. -/
def plainStep (current next : PlanBlock K) : PlanBlock K :=
  current.setEntry (min current.maxEntrySpeedSqr
    (next.entrySpeedSqr + 2 * current.acceleration * current.millimeters))

/-- A reverse pass that leaves no block alone. -/
def plainReverse (bs : List (PlanBlock K)) : List (PlanBlock K) :=
  bs.foldr (fun current acc =>
    match acc with
    | [] => [current.reverseLast]
    | next :: _ => current.plainStep next :: acc) []

/-- Both passes over the whole buffer from its tail. -/
def fullReplan : List (PlanBlock K) → List (PlanBlock K)
  | [] => []
  | t :: bs => t :: (forwardPass t 1 0 (plainReverse bs)).1

theorem withEntries_append (vs ws : List K) (h : xs.length = vs.length) :
    withEntries (xs ++ ys) (vs ++ ws) = withEntries xs vs ++ withEntries ys ws :=
  List.zipWith_append h

theorem withEntries_withEntries {vs ws : List K} (h : bs.length = vs.length) :
    withEntries (withEntries bs vs) ws = withEntries bs ws := by
  induction bs generalizing vs ws with
  | nil => rfl
  | cons b bs ih =>
    obtain _ | ⟨v, vs⟩ := vs
    · simp at h
    · obtain _ | ⟨w, ws⟩ := ws
      · rfl
      · rw [withEntries_cons, withEntries_cons, withEntries_cons, ih (by simpa using h)]
        rfl

variable [IsStrictOrderedRing K]

theorem plainReverse_eq : plainReverse bs = withEntries bs ((rules K).revs 0 bs) := by
  induction bs with
  | nil => rfl
  | cons b bs ih =>
    have hr : plainReverse (b :: bs) =
        match plainReverse bs with
        | [] => [b.reverseLast]
        | next :: rest => b.plainStep next :: next :: rest := by
      unfold plainReverse
      rw [List.foldr_cons]
      split <;> simp_all
    rw [hr, ih]
    cases bs with
    | nil => rw [reverseLast_eq]; rfl
    | cons c bs => rfl

theorem fullReplan_cons : fullReplan (t :: bs) =
    t :: withEntries bs ((rules K).plan 0 (t.reach t.entrySpeedSqr) bs) := by
  rw [fullReplan, plainReverse_eq, forwardPass_eq]

/-- Blocks that carry the speeds planned from their limits. -/
def Planned (r g : K) (bs : List (PlanBlock K)) : Prop :=
  bs = withEntries bs ((rules K).plan r g bs)

theorem Planned.nil : Planned r g ([] : List (PlanBlock K)) := rfl

theorem planned_withEntries : Planned r g (withEntries bs ((rules K).plan r g bs)) := by
  have hl : bs.length = ((rules K).plan r g bs).length := Rules.length_plan.symm
  unfold Planned
  rw [Rules.plan_congr (alike_withEntries hl), withEntries_withEntries hl]

theorem Planned.map_entry (h : Planned r g bs) :
    bs.map entrySpeedSqr = (rules K).plan r g bs := by
  conv_lhs => rw [h]
  exact map_entry_withEntries Rules.length_plan.symm

theorem planned_cons : Planned r g (b :: bs) ↔
    b.entrySpeedSqr = min ((rules K).rev r (b :: bs)) g ∧
      Planned r (b.reach b.entrySpeedSqr) bs := by
  unfold Planned
  rw [Rules.plan_cons, withEntries_cons, List.cons.injEq]
  constructor
  · rintro ⟨hb, hs⟩
    have he : b.entrySpeedSqr = min ((rules K).rev r (b :: bs)) g := congrArg entrySpeedSqr hb
    rw [← he] at hs
    exact ⟨he, hs⟩
  · rintro ⟨he, hs⟩
    rw [← he]
    exact ⟨rfl, hs⟩

theorem planned_append : Planned r g (xs ++ ys) ↔
    Planned ((rules K).rev r ys) g xs ∧
      Planned r ((rules K).out ((rules K).rev r ys) g xs) ys := by
  unfold Planned
  have hl : xs.length = ((rules K).plan ((rules K).rev r ys) g xs).length :=
    Rules.length_plan.symm
  rw [Rules.plan_append, withEntries_append _ _ hl]
  exact List.append_eq_append_iff_of_size_eq_left (by simp [withEntries])

/-- The reach of the last of some planned blocks is the speed at the end of their plan. -/
theorem reach_getLastD (h : Planned r (t.reach t.entrySpeedSqr) xs) :
    (xs.getLastD t).reach (xs.getLastD t).entrySpeedSqr =
      (rules K).out r (t.reach t.entrySpeedSqr) xs := by
  induction xs generalizing t with
  | nil => rfl
  | cons b xs ih =>
    obtain ⟨he, hs⟩ := planned_cons.mp h
    rw [List.getLastD_cons, Rules.out_cons, ← he]
    exact ih hs

/-- A buffer whose blocks carry their full plan, settled up to block `k` behind the tail. -/
def Optimal : List (PlanBlock K) → ℕ → Prop
  | [], k => k = 0
  | t :: bs, k =>
    Planned 0 (t.reach t.entrySpeedSqr) bs ∧ SettledAt (t.reach t.entrySpeedSqr) bs k

theorem Optimal.nil : Optimal ([] : List (PlanBlock K)) 0 := Eq.refl 0

theorem Optimal.eq_fullReplan (h : Optimal bs k) : bs = fullReplan bs := by
  cases bs with
  | nil => rfl
  | cons t bs =>
    rw [fullReplan_cons]
    exact congrArg (t :: ·) h.1

theorem SettledAt.congr {cs : List (PlanBlock K)} (h : List.Forall₂ (rules K).Alike bs cs)
    (hs : SettledAt g cs k) : SettledAt g bs k := by
  obtain ⟨hk, hs⟩ := hs
  refine ⟨h.length_eq ▸ hk, fun r' hr => ?_⟩
  have ht : List.Forall₂ (rules K).Alike (bs.take k) (cs.take k) := List.forall₂_take k h
  have hd : List.Forall₂ (rules K).Alike (bs.drop k) (cs.drop k) := List.forall₂_drop k h
  rw [Rules.rev_congr hd] at hr ⊢
  rw [Rules.plan_congr ht, Rules.plan_congr ht]
  exact hs r' hr

/-- The tail leaves the buffer. -/
theorem Optimal.tail (h : Optimal (t :: bs) k) : Optimal bs (k - 1) := by
  obtain ⟨hp, hk, hs⟩ := h
  cases bs with
  | nil =>
    have hk : k ≤ 0 := hk
    exact Nat.sub_eq_zero_of_le (hk.trans (Nat.zero_le 1))
  | cons b bs =>
    obtain ⟨he, hb⟩ := planned_cons.mp hp
    refine ⟨hb, ?_⟩
    cases k with
    | zero => exact SettledAt.zero
    | succ k =>
      refine ⟨by simpa using hk, ?_⟩
      rw [List.take_succ_cons, List.drop_succ_cons] at hs
      have ht := hs.tail
      have hr : (rules K).rev ((rules K).rev 0 (bs.drop k)) (b :: bs.take k) =
          (rules K).rev 0 (b :: bs) := by
        rw [← Rules.rev_append, List.cons_append, List.take_append_drop]
      rw [hr, ← he] at ht
      exact ht

/-- Later appends find the reverse pass skipping rightly. -/
theorem Optimal.skipSafe (h : Optimal (t :: bs) k) (c : PlanBlock K) : SkipSafe (bs ++ [c]) := by
  apply SkipSafe.append_of_feasible
  · rw [h.1.map_entry]
    exact Rules.feasible_plan
  · exact ⟨fun h => absurd rfl h, trivial⟩

/-- A block appended to the buffer leaves the blocks up to the planned one as they are. -/
theorem Optimal.concat (h : Optimal (t :: bs) k) (c : PlanBlock K) :
    Planned ((rules K).rev 0 ((bs ++ [c]).drop k)) (t.reach t.entrySpeedSqr)
      ((bs ++ [c]).take k) ∧ SettledAt (t.reach t.entrySpeedSqr) (bs ++ [c]) k := by
  obtain ⟨hp, hk, hs⟩ := h
  have ht : (bs ++ [c]).take k = bs.take k := List.take_append_of_le_length hk
  have hd : (bs ++ [c]).drop k = bs.drop k ++ [c] := List.drop_append_of_le_length hk
  have hr : (rules K).rev 0 (bs.drop k) ≤ (rules K).rev 0 (bs.drop k ++ [c]) :=
    Rules.rev_le_rev_append
  have hx : Planned ((rules K).rev 0 (bs.drop k)) (t.reach t.entrySpeedSqr) (bs.take k) := by
    rw [← List.take_append_drop k bs] at hp
    exact (planned_append.mp hp).1
  unfold SettledAt
  rw [ht, hd]
  refine ⟨?_, by simp; omega, hs.mono hr⟩
  unfold Planned
  rw [hs _ hr]
  exact hx

end PlanBlock

namespace Planner

open PlanBlock TwoPass

variable {K : Type*} [Field K] [LinearOrder K] [IsStrictOrderedRing K] {p : Planner K}
  {t : PlanBlock K} {bs : List (PlanBlock K)}

/-- Replanning behind a planned and settled prefix gives the full plan. -/
theorem optimal_plannerRecalculate (hq : p.queue = t :: bs) (hk : p.planned < bs.length)
    (hs : SkipSafe (bs.drop p.planned))
    (hx : Planned ((rules K).rev 0 (bs.drop p.planned)) (t.reach t.entrySpeedSqr)
      (bs.take p.planned))
    (hset : SettledAt (t.reach t.entrySpeedSqr) bs p.planned) :
    Optimal p.plannerRecalculate.queue p.plannerRecalculate.planned := by
  obtain ⟨v, -, hv, hqueue, hplanned⟩ := plannerRecalculate_cons hq hk hs
  -- the tail may get another speed, but only where nothing in front of the passes depends on it
  have hx' : Planned ((rules K).rev 0 (bs.drop p.planned)) (t.reach v) (bs.take p.planned) := by
    by_cases h0 : p.planned = 0
    · rw [h0, List.take_zero]
      exact Planned.nil
    · rwa [hv h0]
  have hset' : SettledAt (t.reach v) bs p.planned := by
    by_cases h0 : p.planned = 0
    · rw [h0]
      exact SettledAt.zero
    · rwa [hv h0]
  have hc := reach_getLastD (t := t.setEntry v) hx'
  have hfull : bs.take p.planned ++ withEntries (bs.drop p.planned) ((rules K).plan 0
      ((rules K).out ((rules K).rev 0 (bs.drop p.planned)) (t.reach v) (bs.take p.planned))
        (bs.drop p.planned)) = withEntries bs ((rules K).plan 0 (t.reach v) bs) := by
    have hl : (bs.take p.planned).length = ((rules K).plan
        ((rules K).rev 0 (bs.drop p.planned)) (t.reach v) (bs.take p.planned)).length :=
      Rules.length_plan.symm
    conv_rhs => rw [← List.take_append_drop p.planned bs, Rules.plan_append,
      withEntries_append _ _ hl]
    exact congrArg (· ++ _) hx'
  have hlen : (bs.take p.planned).length = p.planned := List.length_take_of_le hk.le
  have hfwd := settledAt_forwardPass p.planned hc
    (by rwa [List.take_append_drop])
  rw [List.take_append_drop, hlen] at hfwd
  rw [hqueue, hplanned, hc, setEntry_entry, setEntry_reach, hfull]
  exact ⟨planned_withEntries, hfwd.congr (alike_withEntries Rules.length_plan.symm)⟩

theorem optimal_discard (h : Optimal p.queue p.planned) :
    Optimal p.planDiscardCurrentBlock.queue p.planDiscardCurrentBlock.planned := by
  unfold planDiscardCurrentBlock
  split
  · exact h
  · rename_i hq
    rw [hq] at h
    exact h.tail

variable [FloorRing K] {m : FloatMath K} {s : Settings K} {rpm : K} {target : Axis → K}
  {plData : PlanLineData K}

theorem optimal_pushBlock (h : Optimal p.queue p.planned) :
    Optimal (pushBlock m s rpm target plData p).plannerRecalculate.queue
      (pushBlock m s rpm target plData p).plannerRecalculate.planned := by
  obtain ⟨c, hqueue, hplanned⟩ : ∃ c, (pushBlock m s rpm target plData p).queue =
      p.queue ++ [c] ∧ (pushBlock m s rpm target plData p).planned = p.planned := ⟨_, rfl, rfl⟩
  cases hq : p.queue with
  | nil =>
    rw [hq] at h hqueue
    have hk : (pushBlock m s rpm target plData p).planned = ([] : List (PlanBlock K)).length :=
      hplanned.trans h
    rw [plannerRecalculate_of_last hqueue hk, hqueue, hk]
    exact ⟨Planned.nil, SettledAt.zero⟩
  | cons t bs =>
    rw [hq] at h hqueue
    rw [List.cons_append] at hqueue
    obtain ⟨hx, hset⟩ := h.concat c
    have hk : p.planned ≤ bs.length := h.2.1
    rw [← hplanned] at hx hset
    apply optimal_plannerRecalculate hqueue
    · rw [hplanned, List.length_append]
      exact Nat.lt_succ_of_le hk
    · exact (h.skipSafe c).drop _
    · exact hx
    · exact hset

theorem optimal_exec (h : Optimal p.queue p.planned) (op : BufferOp K) :
    Optimal (exec m s p op).queue (exec m s p op).planned := by
  cases op with
  | line rpm target plData =>
    rcases planBufferLine_cases m s rpm target plData p with ⟨hq, hk, -⟩ | ⟨-, -, he⟩
    · simpa only [exec, hq, hk] using h
    · simpa only [exec, he] using optimal_pushBlock h
  | discard => exact optimal_discard h
  | report => exact h

theorem optimal_run (h : Optimal p.queue p.planned) (ops : List (BufferOp K)) :
    Optimal (run m s p ops).queue (run m s p ops).planned :=
  Transition.foldl_of_step (I := fun q : Planner K => Optimal q.queue q.planned)
    (fun _ op hq => optimal_exec hq op) h

/-- In every run from the empty buffer the incrementally replanned blocks are those of a full
replan from the tail. -/
theorem queue_eq_fullReplan (m : FloatMath K) (s : Settings K) (p : Planner K)
    (overrideFeedRate overrideRapidRate : ℕ) (ops : List (BufferOp K)) :
    (run m s (planReset overrideFeedRate overrideRapidRate p) ops).queue =
      fullReplan (run m s (planReset overrideFeedRate overrideRapidRate p) ops).queue :=
  (optimal_run Optimal.nil ops).eq_fullReplan

theorem queue_eq_fullReplan_rational :
    (run ratMath ratSettings (planReset 100 100 restPlanner)
      [lineX true 10 0, lineX false 22 400, .discard]).queue =
      fullReplan (run ratMath ratSettings (planReset 100 100 restPlanner)
        [lineX true 10 0, lineX false 22 400, .discard]).queue :=
  queue_eq_fullReplan ratMath ratSettings restPlanner 100 100
    [lineX true 10 0, lineX false 22 400, .discard]

end Planner

end Inspector
