import Inspector.MotionControl.Queued

/-! # The joints of an M100

`M100` reads the joints that it does not name from the planner position. The rail and the wrist
share two motors, so they are unmixed, mixed again and rounded for each motor; the joints named are
reached within half a step of each motor, and the others are kept.
-/

namespace Inspector

open Arm Joints Kinematics

namespace MotionControl

/-- The planner position decodes to the joints that are named. -/
structure Reaches (s : Settings ℝ) (words : JointWords ℝ) (position : Axis → ℝ) : Prop where
  base : ∀ v, words.p = some v →
    |(decode position).q1 - v| ≤ 1 / 2 / (s.axis .a).stepsPerMm
  lift : ∀ v, words.q = some v →
    |(decode position).q2 - v| ≤ 1 / 2 / (s.axis .z).stepsPerMm
  rail : ∀ v, words.r = some v →
    |(decode position).q3 - v| ≤ 1 / 2 / (s.axis .x).stepsPerMm
  wrist : ∀ v, words.d = some v →
    |(decode position).q4 - v * deg2rad| ≤ 1 / 2 / (s.axis .x).stepsPerMm * yScale * deg2rad

/-- The motors of the joints that are not named are kept, or their sum or difference is. -/
structure Keeps (words : JointWords ℝ) (before after : Axis → ℤ) : Prop where
  base : words.p = none → after .a = before .a
  lift : words.q = none → after .z = before .z
  belts : words.r = none → words.d = none → after .x = before .x ∧ after .y = before .y
  wrist : words.r ≠ none → words.d = none →
    |(after .y - after .x) - (before .y - before .x)| ≤ 1
  rail : words.r = none → words.d ≠ none →
    |(after .x + after .y) - (before .x + before .y)| ≤ 1

variable {s : Settings ℝ} {words : JointWords ℝ} {p : Planner ℝ}

/-- Rounding moves a motor by at most half a step. -/
theorem abs_motor_sub_le {i : Axis} (hs : 0 < (s.axis i).stepsPerMm) (target : Axis → ℝ) :
    |Planner.targetSteps s target i / (s.axis i).stepsPerMm - target i| ≤
      1 / 2 / (s.axis i).stepsPerMm := by
  have hround := abs_lroundf_sub_le (target i * (s.axis i).stepsPerMm)
  have hsplit : (Planner.targetSteps s target i : ℝ) / (s.axis i).stepsPerMm - target i =
      (lroundf (target i * (s.axis i).stepsPerMm) - target i * (s.axis i).stepsPerMm) /
        (s.axis i).stepsPerMm := by
    rw [Planner.targetSteps]
    field_simp
  rw [hsplit, abs_div, abs_of_pos hs]
  exact div_le_div_of_nonneg_right hround hs.le

theorem yScale_ne_zero : (yScale : ℝ) ≠ 0 := by norm_num [yScale]

/-- The mixed motors add up to the rail. -/
theorem motorTarget_add (s : Settings ℝ) (words : JointWords ℝ) (p : Planner ℝ) :
    motorTarget s words p .x + motorTarget s words p .y = -2 * jointTarget s words p .x := by
  simp only [motorTarget, mix]
  ring

/-- Their difference is the wrist. -/
theorem motorTarget_sub (s : Settings ℝ) (words : JointWords ℝ) (p : Planner ℝ) :
    motorTarget s words p .y - motorTarget s words p .x =
      2 * (jointTarget s words p .y / yScale) := by
  simp only [motorTarget, mix]
  ring

/-- The joint words are reached when every motor is within half a step of its target. -/
theorem reaches_of_motors {position : Axis → ℝ}
    (hxy : (s.axis .x).stepsPerMm = (s.axis .y).stepsPerMm)
    (h : ∀ i, |position i - motorTarget s words p i| ≤ 1 / 2 / (s.axis i).stepsPerMm) :
    Reaches s words position := by
  have hx := abs_le.mp (h .x)
  have hy := abs_le.mp (hxy ▸ h .y)
  have hadd := motorTarget_add s words p
  have hsub := motorTarget_sub s words p
  constructor
  · intro v hv
    have hq : motorTarget s words p .a = v := by simp [motorTarget, jointTarget, hv]
    exact hq ▸ h .a
  · intro v hv
    have hq : motorTarget s words p .z = v := by simp [motorTarget, jointTarget, hv]
    exact hq ▸ h .z
  · intro v hv
    have hq : jointTarget s words p .x = v := by simp [jointTarget, hv]
    rw [hq] at hadd
    apply abs_le.mpr
    simp only [decode]
    constructor <;> linarith [hx.1, hx.2, hy.1, hy.2]
  · intro v hv
    have hq : jointTarget s words p .y = v := by simp [jointTarget, hv]
    rw [hq] at hsub
    have hdiff : |(position .y - position .x) * (1 / 2) - v / yScale| ≤
        1 / 2 / (s.axis .x).stepsPerMm := by
      apply abs_le.mpr
      constructor <;> linarith [hx.1, hx.2, hy.1, hy.2]
    have hscale : (0 : ℝ) ≤ yScale * deg2rad := by norm_num [yScale, deg2rad, pi]
    have hq4 : (decode position).q4 - v * deg2rad =
        ((position .y - position .x) * (1 / 2) - v / yScale) * (yScale * deg2rad) := by
      have hy := yScale_ne_zero
      simp only [decode]
      field_simp
    rw [hq4, abs_mul, abs_of_nonneg hscale, mul_assoc]
    exact mul_le_mul_of_nonneg_right hdiff hscale

/-- The motors that follow a joint that is not named are where they were. -/
theorem motorTarget_mul {i : Axis} {n : ℤ} (hs : 0 < (s.axis i).stepsPerMm)
    (h : motorTarget s words p i = n / (s.axis i).stepsPerMm) :
    Planner.targetSteps s (motorTarget s words p) i = n := by
  apply Planner.targetSteps_of_eq
  rw [h, div_mul_cancel₀ _ hs.ne']

theorem keeps_motorTarget (words : JointWords ℝ) (p : Planner ℝ) (hs : ∀ i, 0 < (s.axis i).stepsPerMm)
    (hxy : (s.axis .x).stepsPerMm = (s.axis .y).stepsPerMm) :
    Keeps words p.position (Planner.targetSteps s (motorTarget s words p)) := by
  have hadd := motorTarget_add s words p
  have hsub := motorTarget_sub s words p
  have hscale := yScale_ne_zero
  have hx := (hs .x).ne'
  -- The unmixed joints mix to the motors they come from.
  have hrail : words.r = none → motorTarget s words p .x * (s.axis .x).stepsPerMm +
      motorTarget s words p .y * (s.axis .y).stepsPerMm =
        ((p.position .x + p.position .y : ℤ) : ℝ) := by
    intro hr
    rw [← hxy, ← add_mul, hadd]
    simp only [jointTarget, hr, Option.getD_none, Planner.planGetPosition, ← hxy]
    push_cast
    field_simp
  have hwrist : words.d = none → motorTarget s words p .y * (s.axis .y).stepsPerMm -
      motorTarget s words p .x * (s.axis .x).stepsPerMm =
        ((p.position .y - p.position .x : ℤ) : ℝ) := by
    intro hd
    rw [← hxy, ← sub_mul, hsub]
    simp only [jointTarget, hd, Option.getD_none, Planner.planGetPosition, ← hxy]
    push_cast
    field_simp
  constructor
  · intro hp
    apply motorTarget_mul (hs .a)
    simp [motorTarget, jointTarget, hp, Planner.planGetPosition]
  · intro hq
    apply motorTarget_mul (hs .z)
    simp [motorTarget, jointTarget, hq, Planner.planGetPosition]
  · intro hr hd
    have hr := hrail hr
    have hd := hwrist hd
    push_cast at hr hd
    constructor
    · apply Planner.targetSteps_of_eq
      linarith
    · apply Planner.targetSteps_of_eq
      linarith
  · intro _ hd
    exact abs_lroundf_sub_lroundf_le (hwrist hd)
  · intro hr _
    exact abs_lroundf_add_lroundf_le (hrail hr)

/-- A queued `M100` reaches the joints it names within the rounding of the motors, and keeps the
others: the base and the lift exactly, the belts exactly when neither of their joints is named,
and the difference or the sum of the belts within one step when only the other one is. -/
theorem mcodeExecute_joints (m : FloatMath ℝ) (s : Settings ℝ) (rt : Realtime ℝ)
    (words : JointWords ℝ) (x : MotionControl ℝ) (hs : ∀ i, 0 < (s.axis i).stepsPerMm)
    (hxy : (s.axis .x).stepsPerMm = (s.axis .y).stepsPerMm)
    (hq : (x.mcodeExecute m exactTrig s rt words).handed ≠ x.handed) :
    let after := (x.mcodeExecute m exactTrig s rt words).planner
    Reaches s words (after.planGetPosition s) ∧
      Keeps words x.planner.position after.position := by
  intro after
  obtain ⟨hpass, -⟩ := mcodeExecute_planner m s rt words x
  obtain ⟨-, hpos⟩ := hpass ((queues_iff m s rt words x).mp hq)
  have hafter : after.position = Planner.targetSteps s (motorTarget s words x.planner) := hpos
  constructor
  · apply reaches_of_motors (p := x.planner) hxy
    intro i
    simp only [Planner.planGetPosition, hafter]
    exact abs_motor_sub_le (hs i) _
  · rw [hafter]
    exact keeps_motorTarget words x.planner hs hxy

/-- `M100 R90` from the origin. -/
theorem mcodeExecute_joints_ready :
    let after := (ready.mcodeExecute realFloat exactTrig millimetres calm
      ⟨none, none, some 90, none⟩).planner
    Reaches millimetres ⟨none, none, some 90, none⟩ (after.planGetPosition millimetres) ∧
      Keeps ⟨none, none, some 90, none⟩ ready.planner.position after.position := by
  apply mcodeExecute_joints
  · intro i
    norm_num [millimetres]
  · rfl
  · apply (queues_iff _ _ _ _ _).mpr
    exact ⟨fun _ => rfl, rfl, rfl, rfl, rfl⟩

end MotionControl

end Inspector
