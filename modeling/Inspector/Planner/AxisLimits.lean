import Inspector.Planner.Override

/-! # Limits of the axes

`plan_buffer_line` folds the limits of all axes into one rate and one acceleration of the block. The
nominal speed of the block is clamped to that rate, whatever the overrides are, but for a rapid
motion, whose programmed rate it is. No caller synchronises a rapid motion with the spindle.
-/

namespace Inspector

variable {K : Type*} [Field K] [LinearOrder K]

/-- The speeds and the acceleration of a block along a unit vector keep to the limits of all axes,
under all overrides. -/
structure PlanBlock.KeepsLimits (s : Settings K) (unitVec : Axis → K) (b : PlanBlock K) :
    Prop where
  speed : ∀ feedRate rapidRate rpm, minFeedRateOverride ≤ feedRate →
    feedRate ≤ maxFeedRateOverride → 5 ≤ rapidRate → rapidRate ≤ defaultRapidOverride → ∀ i,
      planComputeProfileNominalSpeed feedRate rapidRate rpm b = minimumFeedRate ∨
        planComputeProfileNominalSpeed feedRate rapidRate rpm b * |unitVec i| ≤
          (s.axis i).maxRate
  acceleration : ∀ i, b.acceleration * |unitVec i| ≤ (s.axis i).acceleration

/-- The block that a motion has left in the buffer. -/
def Planner.newest (systemMotion : Bool) (p : Planner K) : Option (PlanBlock K) :=
  if systemMotion then p.systemBlock else p.queue.getLast?

theorem foldl_limit_le (axisMaximum unitVec : Axis → K) (l : List Axis) (acc : K) :
    let limit := l.foldl
      (fun acc i => if unitVec i ≠ 0 then min acc |axisMaximum i / unitVec i| else acc) acc
    limit ≤ acc ∧ ∀ i ∈ l, unitVec i ≠ 0 → limit ≤ |axisMaximum i / unitVec i| := by
  induction l generalizing acc with
  | nil => exact ⟨le_rfl, List.forall_mem_nil _⟩
  | cons j l ih =>
    obtain ⟨hacc, hmem⟩ :=
      ih (if unitVec j ≠ 0 then min acc |axisMaximum j / unitVec j| else acc)
    refine ⟨hacc.trans ?_, fun i hi hne => ?_⟩
    · split_ifs
      · exact min_le_left _ _
      · exact le_rfl
    · rcases List.mem_cons.mp hi with rfl | hi
      · rw [if_pos hne] at hacc
        rw [List.foldl_cons, if_pos hne]
        exact hacc.trans (min_le_right _ _)
      · exact hmem i hi hne

section Limits

variable [IsStrictOrderedRing K]

/-- The limit of a block is one for each axis. -/
theorem limitByAxisMaximum_mul_le (axisMaximum unitVec : Axis → K) (i : Axis)
    (h : 0 ≤ axisMaximum i) :
    limitByAxisMaximum axisMaximum unitVec * |unitVec i| ≤ axisMaximum i := by
  by_cases hne : unitVec i = 0
  · rw [hne, abs_zero, mul_zero]
    exact h
  · have hle := (foldl_limit_le axisMaximum unitVec Axis.down someLargeValue).2 i (Axis.mem_down i)
      hne
    calc limitByAxisMaximum axisMaximum unitVec * |unitVec i|
        ≤ |axisMaximum i / unitVec i| * |unitVec i| :=
          mul_le_mul_of_nonneg_right hle (abs_nonneg _)
      _ = |axisMaximum i| := by rw [← abs_mul, div_mul_cancel₀ _ hne]
      _ = axisMaximum i := abs_of_nonneg h

/-- The nominal speed is the slowest one, or not above the rate of the block. -/
theorem nominalSpeed_le {b : PlanBlock K} {rapidRate : ℕ} (feedRate : ℕ) (rpm : K)
    (hrate : 0 ≤ b.rapidRate) (hoverride : rapidRate ≤ defaultRapidOverride)
    (hrapid : b.condition.rapidMotion = true → b.programmedRate = b.rapidRate)
    (hsync : b.condition.rapidMotion = true →
      b.condition.unitsPerRev = false ∧ b.spindle.synchronized = false) :
    planComputeProfileNominalSpeed feedRate rapidRate rpm b = minimumFeedRate ∨
      planComputeProfileNominalSpeed feedRate rapidRate rpm b ≤ b.rapidRate := by
  unfold planComputeProfileNominalSpeed
  dsimp only
  by_cases hmotion : b.condition.rapidMotion = true
  · have hnone : ¬ (b.condition.unitsPerRev = true ∨ b.spindle.synchronized = true) := by
      simp [hsync hmotion]
    have hfraction : (rapidRate : K) / 100 ≤ 1 := by
      rw [div_le_one (by norm_num)]
      exact_mod_cast hoverride
    have hle : b.rapidRate * ((rapidRate : K) / 100) ≤ b.rapidRate :=
      mul_le_of_le_one_right hrate hfraction
    rw [if_pos hmotion, if_neg hnone, hrapid hmotion]
    split_ifs
    · exact .inr hle
    · exact .inl rfl
  · rw [if_neg hmotion]
    generalize (if b.condition.unitsPerRev = true ∨ b.spindle.synchronized = true then
      b.programmedRate * rpm else b.programmedRate) = nominalSpeed
    generalize (if feedRate ≠ 100 ∧ ¬ b.condition.noFeedOverride = true then _ else nominalSpeed) =
      overridden
    have hle : (if overridden > b.rapidRate then b.rapidRate else overridden) ≤ b.rapidRate := by
      split_ifs with hover
      · exact le_rfl
      · exact not_lt.mp hover
    split_ifs at hle ⊢
    all_goals first | exact .inl rfl | exact .inr hle

end Limits

section Line

open Planner

variable [IsStrictOrderedRing K] [FloorRing K] {m : FloatMath K} {s : Settings K} {rpm : K}
  {target : Axis → K} {plData : PlanLineData K} {p : Planner K}

omit [IsStrictOrderedRing K] [FloorRing K] in
theorem cssSpindle_synchronized (start : Axis → K) (spindle : Spindle K) :
    (cssSpindle m start target spindle).synchronized = spindle.synchronized := by
  unfold cssSpindle
  split <;> rfl

/-- What the limits of a new block rest on. -/
structure MadeFrom (s : Settings K) (plData : PlanLineData K) (unitVec : Axis → K)
    (b : PlanBlock K) : Prop where
  acceleration : b.acceleration = limitAccelerationByAxisMaximum s unitVec
  rapidRate : b.rapidRate = limitMaxRateByAxisMaximum s unitVec
  programmedRate : plData.condition.rapidMotion = true → b.programmedRate = b.rapidRate
  condition : b.condition = plData.condition
  synchronized : b.spindle.synchronized = plData.spindle.synchronized

theorem madeFrom_makeBlock (m : FloatMath K) (s : Settings K) (rpm : K) (target : Axis → K)
    (plData : PlanLineData K) (p : Planner K) :
    MadeFrom s plData (makeBlock m s rpm target plData p).2 (makeBlock m s rpm target plData p).1 := by
  unfold makeBlock
  dsimp only
  split
  · exact ⟨rfl, rfl, fun h => if_pos h, rfl, cssSpindle_synchronized _ _⟩
  · exact ⟨rfl, rfl, fun h => if_pos h, rfl, cssSpindle_synchronized _ _⟩

omit [IsStrictOrderedRing K] [FloorRing K] in
theorem madeFrom_setEntry {unitVec : Axis → K} {b : PlanBlock K} {v : K} :
    MadeFrom s plData unitVec (b.setEntry v) ↔ MadeFrom s plData unitVec b :=
  ⟨fun h => ⟨h.1, h.2, h.3, h.4, h.5⟩, fun h => ⟨h.1, h.2, h.3, h.4, h.5⟩⟩

omit [FloorRing K] in
theorem MadeFrom.keepsLimits {unitVec : Axis → K} {b : PlanBlock K}
    (h : MadeFrom s plData unitVec b)
    (hs : ∀ i, 0 ≤ (s.axis i).maxRate ∧ 0 ≤ (s.axis i).acceleration)
    (hsync : plData.condition.rapidMotion = true →
      plData.condition.unitsPerRev = false ∧ plData.spindle.synchronized = false) :
    b.KeepsLimits s unitVec := by
  have hrate : 0 ≤ b.rapidRate := by
    rw [h.rapidRate]
    exact limitByAxisMaximum_nonneg _ _
  refine ⟨fun feedRate rapidRate rpm _ _ _ hoverride i => ?_, fun i => ?_⟩
  · have hspeed := nominalSpeed_le feedRate rpm hrate hoverride
      (fun hrapid => h.programmedRate (h.condition ▸ hrapid))
      (fun hrapid => by
        rw [h.condition, h.synchronized]
        exact hsync (h.condition ▸ hrapid))
    refine hspeed.imp_right fun hle => ?_
    calc _ ≤ b.rapidRate * |unitVec i| := mul_le_mul_of_nonneg_right hle (abs_nonneg _)
      _ ≤ (s.axis i).maxRate := by
        rw [h.rapidRate]
        exact limitByAxisMaximum_mul_le (fun i => (s.axis i).maxRate) unitVec i (hs i).1
  · rw [h.acceleration]
    exact limitByAxisMaximum_mul_le (fun i => (s.axis i).acceleration) unitVec i (hs i).2

/-- The block of an accepted line, as replanning leaves it. -/
theorem newest_planBufferLine (h : (planBufferLine m s rpm target plData p).1 = true) :
    ∃ b, (planBufferLine m s rpm target plData p).2.2.newest plData.condition.systemMotion =
      some b ∧ MadeFrom s plData (makeBlock m s rpm target plData p).2 b := by
  have hmade := madeFrom_makeBlock m s rpm target plData p
  unfold planBufferLine at h ⊢
  dsimp only at h ⊢
  split_ifs at h ⊢ with hzero hsystem
  · exact ⟨_, by rw [newest, if_pos hsystem], hmade⟩
  · have hlast := plannerRecalculate_getLast? (f := fun b => b.setEntry 0)
      (p := pushBlock m s rpm target plData p) fun _ _ => rfl
    rw [pushBlock_queue, List.getLast?_concat, Option.map_some] at hlast
    obtain ⟨b, hb, heq⟩ := Option.map_eq_some_iff.mp hlast
    refine ⟨b, by rw [newest, if_neg hsystem, hb], ?_⟩
    rw [← madeFrom_setEntry (v := 0), heq, madeFrom_setEntry]
    exact hmade

/-- The block of an accepted line keeps to the limits of all axes, unless it is a rapid motion that
is synchronised with the spindle. -/
theorem planBufferLine_keepsLimits
    (hs : ∀ i, 0 ≤ (s.axis i).maxRate ∧ 0 ≤ (s.axis i).acceleration)
    (hsync : plData.condition.rapidMotion = true →
      plData.condition.unitsPerRev = false ∧ plData.spindle.synchronized = false)
    (h : (planBufferLine m s rpm target plData p).1 = true) :
    ∃ b, (planBufferLine m s rpm target plData p).2.2.newest plData.condition.systemMotion = some b ∧
      b.KeepsLimits s (makeBlock m s rpm target plData p).2 := by
  obtain ⟨b, hb, hmade⟩ := newest_planBufferLine h
  exact ⟨b, hb, hmade.keepsLimits hs hsync⟩

end Line

section Synchronized

open Planner

/-- A rapid motion of 1 mm along the first axis, as a block at a given spindle speed. -/
def rapidLine (synchronized : Bool) : PlanLineData ℚ :=
  ⟨100, 1, ⟨0, synchronized, none⟩, { rapidMotion := true }, 0, none, []⟩

def oneMillimetre : Axis → ℚ := fun i => if i = .x then 1 else 0

/-- The planner behind that motion. -/
def afterRapid (rpm : ℚ) (synchronized : Bool) : Bool × PlanLineData ℚ × Planner ℚ :=
  planBufferLine ratMath ratSettings rpm oneMillimetre (rapidLine synchronized) restPlanner

theorem keepsLimits_afterRapid :
    ∃ b, (afterRapid 0 false).2.2.newest (rapidLine false).condition.systemMotion = some b ∧
      b.KeepsLimits ratSettings
        (makeBlock ratMath ratSettings 0 oneMillimetre (rapidLine false) restPlanner).2 :=
  planBufferLine_keepsLimits (fun _ => ⟨by norm_num [ratSettings], by norm_num [ratSettings]⟩)
    (fun _ => ⟨rfl, rfl⟩) (by decide +kernel)

/-- At two revolutions a minute the axis is twice as fast as it may be. -/
theorem not_keepsLimits_afterRapid :
    (afterRapid 2 true).1 = true ∧
    ∀ b, (afterRapid 2 true).2.2.newest (rapidLine true).condition.systemMotion = some b →
      ¬ b.KeepsLimits ratSettings
        (makeBlock ratMath ratSettings 2 oneMillimetre (rapidLine true) restPlanner).2 := by
  refine ⟨by decide +kernel, fun b hb h => ?_⟩
  have hnominal : ((afterRapid 2 true).2.2.newest
      (rapidLine true).condition.systemMotion).map (planComputeProfileNominalSpeed 100 100 2) =
        some 1000 := by decide +kernel
  have hunit : (makeBlock ratMath ratSettings 2 oneMillimetre (rapidLine true) restPlanner).2 .x =
      1 := by decide +kernel
  rw [hb, Option.map_some, Option.some_inj] at hnominal
  have hspeed := h.speed 100 100 2 (by decide) (by decide) (by decide) (by decide) .x
  rw [hnominal, hunit] at hspeed
  norm_num [minimumFeedRate, ratSettings] at hspeed

end Synchronized

end Inspector
