import Inspector.Planner.Passes
import Inspector.Planner.Run

/-! # Step conservation

Replanning changes entry speeds only, so the blocks of the buffer keep their step counts. Over
any sequence of motions the counts of the blocks accepted for ordinary motions add up to the
distance between the first and the last planner position.
-/

namespace Inspector

namespace Planner

open PlanBlock

variable {K : Type*} [Field K] [LinearOrder K]

section Position

variable [FloorRing K] {m : FloatMath K} {s : Settings K} {rpm : K}
  {target : Axis → K} {plData : PlanLineData K} {p : Planner K}

theorem stepEventCount_eq_zero :
    stepEventCount s target plData p = 0 ↔ ∀ i, deltaSteps s target plData p i = 0 := by
  simp only [stepEventCount, Axis.down, List.foldl_cons, List.foldl_nil, Nat.max_eq_zero_iff,
    Int.natAbs_eq_zero]
  constructor
  · rintro ⟨⟨⟨⟨⟨-, hb⟩, ha⟩, hz⟩, hy⟩, hx⟩ (_ | _ | _ | _ | _) <;> assumption
  · intro h
    exact ⟨⟨⟨⟨⟨trivial, h _⟩, h _⟩, h _⟩, h _⟩, h _⟩

variable [IsStrictOrderedRing K]

/-- The direction bits and step counts of a block make up the displacement they come from. -/
theorem signedSteps_makeBlock (i : Axis) :
    (makeBlock m s rpm target plData p).1.signedSteps i = deltaSteps s target plData p i := by
  have hb : (makeBlock m s rpm target plData p).1.signedSteps i =
      if directionBits s target plData p i then -((deltaSteps s target plData p i).natAbs : ℤ)
      else (deltaSteps s target plData p i).natAbs := by
    unfold makeBlock
    dsimp only
    split <;> rfl
  rw [hb]
  unfold directionBits
  dsimp only
  by_cases h0 : deltaSteps s target plData p i = 0
  · rw [h0]
    simp
  · rw [if_pos h0]
    split_ifs with hd
    · have := of_decide_eq_true hd
      omega
    · have := of_decide_eq_false (Bool.eq_false_iff.mpr hd)
      omega

/-- The block that a call appends displaces the machine from the planner position to the target. -/
theorem added_line (i : Axis) {a : (Axis → K) × PlanBlock K}
    (h : added m s p (.line rpm target plData) = some a) :
    a.1 = target ∧ a.2.signedSteps i = targetSteps s target i - p.position i ∧
      (planBufferLine m s rpm target plData p).2.2.position = targetSteps s target := by
  simp only [added] at h
  split_ifs at h with hc
  obtain ⟨hr, hsys, hback⟩ := hc
  rcases planBufferLine_cases m s rpm target plData p with ⟨-, -, -, hf | hs⟩ | ⟨-, -, he⟩
  · rw [hf] at hr
    cases hr
  · rw [hs] at hsys
    cases hsys
  · have hl : (pushBlock m s rpm target plData p).plannerRecalculate.queue.getLast?.map
        (signedSteps · i) = some (deltaSteps s target plData p i) := by
      rw [plannerRecalculate_getLast? (fun b v => rfl)]
      simp [pushBlock, signedSteps_makeBlock]
    rw [he] at h ⊢
    obtain ⟨b, hb, rfl⟩ := Option.map_eq_some_iff.mp h
    rw [hb] at hl
    refine ⟨rfl, ?_, ?_⟩
    · have hd : deltaSteps s target plData p i = targetSteps s target i - p.position i := by
        simp [deltaSteps, positionSteps, hsys]
      exact (Option.some.inj hl).trans hd
    · rw [plannerRecalculate_position]
      simp [pushBlock, hback]

/-- A call that adds no ordinary block leaves the planner position. -/
theorem position_planBufferLine (h : stepEventCount s target plData p = 0 ∨ ¬ plData.Ordinary) :
    (planBufferLine m s rpm target plData p).2.2.position = p.position := by
  unfold planBufferLine
  dsimp only
  split_ifs with h0 hs
  · rfl
  · rfl
  · have hback : plData.condition.backlashMotion = true := by
      rcases h with h | h
      · exact absurd h h0
      · simpa [PlanLineData.Ordinary, hs] using h
    rw [plannerRecalculate_position]
    simp [pushBlock, hback]

theorem exec_position_of_not_added {op : BufferOp K} (h : added m s p op = none) :
    (exec m s p op).position = p.position := by
  cases op with
  | discard =>
    simp only [exec, planDiscardCurrentBlock]
    split <;> rfl
  | report => rfl
  | line rpm target plData =>
    apply position_planBufferLine
    by_contra hc
    obtain ⟨h0, ho⟩ := not_or.mp hc
    have ho := not_not.mp ho
    have he : (planBufferLine m s rpm target plData p).1 = true ∧
        (planBufferLine m s rpm target plData p).2.2 =
          (pushBlock m s rpm target plData p).plannerRecalculate := by
      unfold planBufferLine
      simp [h0, ho.1]
    have hl : (pushBlock m s rpm target plData p).plannerRecalculate.queue.getLast? = none := by
      rw [added, if_pos ⟨he.1, ho⟩, he.2] at h
      exact Option.map_eq_none_iff.mp h
    have := plannerRecalculate_getLast? (f := fun _ => ())
      (p := pushBlock m s rpm target plData p) fun _ _ => rfl
    rw [hl] at this
    simp [pushBlock] at this

/-- One operation adds the displacement between the positions before and after it. -/
theorem position_exec (op : BufferOp K) (i : Axis) :
    (exec m s p op).position i =
      p.position i + ((added m s p op).toList.map (·.2.signedSteps i)).sum := by
  cases ha : added m s p op with
  | none => simp [exec_position_of_not_added ha]
  | some a =>
    cases op with
    | discard => cases ha
    | report => cases ha
    | line rpm target plData =>
      obtain ⟨-, hsteps, hpos⟩ := added_line i ha
      simp only [exec, hpos, Option.toList_some, List.map_cons, List.map_nil, List.sum_cons,
        List.sum_nil, hsteps]
      omega

theorem position_run (ops : List (BufferOp K)) (i : Axis) :
    (run m s p ops).position i =
      p.position i + ((accepted m s p ops).map (·.2.signedSteps i)).sum := by
  induction ops generalizing p with
  | nil => simp [run, accepted]
  | cons op ops ih =>
    have hr : run m s p (op :: ops) = run m s (exec m s p op) ops := rfl
    rw [hr, ih, position_exec, accepted, List.map_append, List.sum_append]
    omega

/-- The planner position is the last accepted target. -/
theorem position_run_eq_target (ops : List (BufferOp K)) :
    (run m s p ops).position =
      (accepted m s p ops).getLast?.elim p.position fun a => targetSteps s a.1 := by
  induction ops generalizing p with
  | nil => rfl
  | cons op ops ih =>
    have hr : run m s p (op :: ops) = run m s (exec m s p op) ops := rfl
    rw [hr, ih, accepted, List.getLast?_append]
    cases hl : (accepted m s (exec m s p op) ops).getLast? with
    | some a => simp
    | none =>
      cases ha : added m s p op with
      | none => simp [exec_position_of_not_added ha]
      | some a =>
        cases op with
        | discard => cases ha
        | report => cases ha
        | line rpm target plData =>
          obtain ⟨rfl, -, hpos⟩ := added_line .x ha
          simpa [exec] using hpos

/-- In every run the signed step counts of the accepted ordinary blocks add up to the distance
from the first position to the last accepted target, and motions that are empty or system motions
leave the planner position. -/
theorem steps_conserved (m : FloatMath K) (s : Settings K) (p : Planner K)
    (ops : List (BufferOp K)) :
    (∀ i, ((accepted m s p ops).map (·.2.signedSteps i)).sum =
      ((accepted m s p ops).getLast?.elim p.position fun a => targetSteps s a.1) i -
        p.position i) ∧
    ∀ rpm target plData,
      (∀ i, deltaSteps s target plData (run m s p ops) i = 0) ∨
        plData.condition.systemMotion = true →
      (planBufferLine m s rpm target plData (run m s p ops)).2.2.position =
        (run m s p ops).position := by
  constructor
  · intro i
    rw [← position_run_eq_target, position_run]
    omega
  · intro rpm target plData h
    apply position_planBufferLine
    rcases h with h | h
    · exact .inl (stepEventCount_eq_zero.mpr h)
    · exact .inr fun ho => absurd ho.1 (by simp [h])

theorem steps_conserved_rational :
    (∀ i, ((accepted ratMath ratSettings restPlanner [lineX true 10 0]).map
        (·.2.signedSteps i)).sum =
      ((accepted ratMath ratSettings restPlanner [lineX true 10 0]).getLast?.elim
        restPlanner.position fun a => targetSteps ratSettings a.1) i - restPlanner.position i) ∧
    ∀ rpm target plData,
      (∀ i, deltaSteps ratSettings target plData
        (run ratMath ratSettings restPlanner [lineX true 10 0]) i = 0) ∨
        plData.condition.systemMotion = true →
      (planBufferLine ratMath ratSettings rpm target plData
        (run ratMath ratSettings restPlanner [lineX true 10 0])).2.2.position =
        (run ratMath ratSettings restPlanner [lineX true 10 0]).position :=
  steps_conserved ratMath ratSettings restPlanner [lineX true 10 0]

end Position

end Planner

end Inspector
