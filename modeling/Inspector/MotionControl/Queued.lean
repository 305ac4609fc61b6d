import Inspector.MotionControl.JointLimits
import Inspector.Planner.Rounding

/-! # What a line leaves in the planner

The segmenter gives the motor target once after its first call, so a line that nothing stops comes
to the planner once. For `M100` that target is the one of the joints it names and of the joints
that the planner position decodes to.
-/

namespace Inspector

open Arm Joints Kinematics

namespace MotionControl

variable {target : Axis → ℝ} {x : MotionControl ℝ}

/-- Nothing stops a line on its way to the planner. -/
structure Clear (rt : Realtime ℝ) (x : MotionControl ℝ) : Prop where
  checkMode : rt.checkMode = false
  aborted : x.aborted = false
  abort : rt.abort = false
  waitAbort : rt.waitAbort 1 = false

theorem queueSegments_once (m : FloatMath ℝ) (s : Settings ℝ) (rt : Realtime ℝ)
    (target : Axis → ℝ) (feedRate : ℝ) (plData : PlanLineData ℝ)
    (hiter : x.kinematics.iterations = 1)
    (haborted : x.aborted = false) :
    let y := queueSegments m exactTrig s rt target feedRate 2 plData x
    (rt.waitAbort 1 = false → y.handed = x.handed ++ [⟨x.kinematics.jointMode, target⟩] ∧
      y.planner = (Planner.planBufferLine m s rt.rpm target plData x.planner).2.2) ∧
    (rt.waitAbort 1 = true → y.handed = x.handed ∧ y.planner = x.planner) := by
  intro y
  constructor
  · intro hwait
    simp [y, queueSegments, segmentLine, protocolExecuteRealtime, hiter, haborted, hwait]
  · intro hwait
    simp [y, queueSegments, segmentLine, protocolExecuteRealtime, hiter, haborted, hwait]

/-- A line either comes to the planner once, or leaves the planner alone. -/
theorem queueLine_planner (m : FloatMath ℝ) (s : Settings ℝ) (rt : Realtime ℝ)
    (target : Axis → ℝ) (feedRate : ℝ) (plData : PlanLineData ℝ)
    (hiter : x.kinematics.iterations = 1) :
    let y := queueLine m exactTrig s rt target feedRate plData x
    (Clear rt x → y.handed = x.handed ++ [⟨x.kinematics.jointMode, target⟩] ∧
      y.planner = (Planner.planBufferLine m s rt.rpm target plData x.planner).2.2) ∧
    (¬ Clear rt x → y.handed = x.handed ∧ y.planner = x.planner) := by
  intro y
  by_cases hc : rt.checkMode = true
  · have hy : y = x := if_pos hc
    exact ⟨fun h => absurd (hc.symm.trans h.checkMode) (by simp), fun _ => by simp [hy]⟩
  · by_cases hok : (x.aborted || rt.abort) = true
    · have hy : y = { x with aborted := true } := by
        simp only [y, queueLine, protocolExecuteRealtime, hok]
        exact if_neg hc
      refine ⟨fun h => absurd hok (by simp [h.aborted, h.abort]), fun _ => by simp [hy]⟩
    · rw [Bool.not_eq_true, Bool.or_eq_false_iff] at hok
      have hy : y = queueSegments m exactTrig s rt target feedRate 2 plData
          { x with aborted := false } := by
        simp only [y, queueLine, protocolExecuteRealtime, hok.1, hok.2, hiter]
        exact if_neg hc
      obtain ⟨hpass, hstop⟩ := queueSegments_once m s rt target feedRate plData
        (x := { x with aborted := false }) hiter rfl
      rw [hy]
      constructor
      · intro h
        exact hpass h.waitAbort
      · intro h
        apply hstop
        by_contra hwait
        exact h ⟨Bool.not_eq_true _ ▸ hc, hok.1, hok.2, Bool.not_eq_true _ ▸ hwait⟩

/-- A call of `mc_line` that comes to the planner has a valid target that is queued once. -/
theorem mcLine_planner {trsf : Axis → ℝ} {condition : PlannerCond} {k : Kinematics ℝ}
    (m : FloatMath ℝ) (s : Settings ℝ) (rt : Realtime ℝ) (plData : PlanLineData ℝ)
    (hseg : segmentLine exactTrig target plData.condition true x.kinematics =
      (some trsf, condition, k)) (hiter : k.iterations = 1) :
    let y := x.mcLine m exactTrig s rt target plData
    ((condition.targetValidated = true ∧ condition.targetValid = true) ∧ Clear rt x →
      y.handed = x.handed ++ [⟨k.jointMode, trsf⟩] ∧
      y.planner = (Planner.planBufferLine m s rt.rpm trsf
        { plData with rateMultiplier := 1, condition := condition } x.planner).2.2) ∧
    (¬ ((condition.targetValidated = true ∧ condition.targetValid = true) ∧ Clear rt x) →
      y.handed = x.handed ∧ y.planner = x.planner) := by
  intro y
  by_cases hv : condition.targetValidated = true ∧ condition.targetValid = true
  · have hy : y = queueLine m exactTrig s rt trsf plData.feedRate
        { plData with rateMultiplier := 1, condition := condition } { x with kinematics := k } := by
      simp only [y, mcLine]
      rw [hseg]
      simp [hv.1, hv.2]
    obtain ⟨hpass, hstop⟩ := queueLine_planner m s rt trsf plData.feedRate
      { plData with rateMultiplier := 1, condition := condition }
      (x := { x with kinematics := k }) hiter
    rw [hy]
    constructor
    · rintro ⟨-, h⟩
      exact hpass ⟨h.checkMode, h.aborted, h.abort, h.waitAbort⟩
    · intro h
      apply hstop
      intro hclear
      exact h ⟨hv, hclear.checkMode, hclear.aborted, hclear.abort, hclear.waitAbort⟩
  · have hy : y = queueLine m exactTrig s rt trsf plData.feedRate
        { plData with rateMultiplier := 1, condition := condition }
        (({ x with kinematics := k } : MotionControl ℝ).limitsSoftCheck rt trsf condition) := by
      simp only [y, mcLine]
      rw [hseg]
      simp only [Option.getD_some, Bool.and_eq_true, if_neg hv]
    obtain ⟨-, hhanded, haborted, -⟩ :=
      limitsSoftCheck_spec { x with kinematics := k } rt trsf condition hv
    have hplanner : (({ x with kinematics := k } : MotionControl ℝ).limitsSoftCheck rt trsf
        condition).planner = x.planner := by
      unfold limitsSoftCheck
      dsimp only
      split_ifs <;> rfl
    have hkin : (({ x with kinematics := k } : MotionControl ℝ).limitsSoftCheck rt trsf
        condition).kinematics.iterations = 1 := by
      rw [← hiter]
      unfold limitsSoftCheck
      dsimp only
      split_ifs <;> rfl
    obtain ⟨-, hstop⟩ := queueLine_planner m s rt trsf plData.feedRate
      { plData with rateMultiplier := 1, condition := condition }
      (x := ({ x with kinematics := k } : MotionControl ℝ).limitsSoftCheck rt trsf condition) hkin
    refine ⟨fun h => absurd h.1 hv, fun _ => ?_⟩
    rw [hy]
    have hnot : ¬ Clear rt (({ x with kinematics := k } : MotionControl ℝ).limitsSoftCheck rt trsf
        condition) := fun h => absurd (haborted.symm.trans h.aborted) (by simp)
    obtain ⟨hh, hp⟩ := hstop hnot
    exact ⟨hh.trans hhanded, hp.trans hplanner⟩

/-- The joints that `M100` goes to: those it names, and the present ones. -/
noncomputable def jointTarget (s : Settings ℝ) (words : JointWords ℝ) (p : Planner ℝ) :
    Axis → ℝ
  | .x => words.r.getD (-(p.planGetPosition s .x + p.planGetPosition s .y) * (1 / 2))
  | .y => words.d.getD
      ((p.planGetPosition s .y - p.planGetPosition s .x) * (1 / 2) * Arm.yScale)
  | .z => words.q.getD (p.planGetPosition s .z)
  | .a => words.p.getD (p.planGetPosition s .a)
  | .b => 0

/-- The motor target of `M100`. -/
noncomputable def motorTarget (s : Settings ℝ) (words : JointWords ℝ) (p : Planner ℝ) :
    Axis → ℝ
  | .x => (mix (jointTarget s words p .x) (jointTarget s words p .y)).1
  | .y => (mix (jointTarget s words p .x) (jointTarget s words p .y)).2
  | i => jointTarget s words p i

theorem transformFromCartesian_jointTarget (s : Settings ℝ) (words : JointWords ℝ)
    (p : Planner ℝ) {k : Kinematics ℝ} (hk : k.jointMode = true) (target : Axis → ℝ) :
    transformFromCartesian exactTrig k target (jointTarget s words p) =
      (motorTarget s words p, { k with jointLimitViolation := false }) := by
  unfold transformFromCartesian
  rw [hk]
  apply Prod.ext
  · ext i
    cases i <;> rfl
  · rfl

theorem segmentLine_jointTarget (s : Settings ℝ) (words : JointWords ℝ) (p : Planner ℝ)
    {k : Kinematics ℝ} (hk : k.jointMode = true) (condition : PlannerCond) :
    segmentLine exactTrig (jointTarget s words p) condition true k =
      (some (motorTarget s words p), condition,
        { k with
          jointLimitViolation := false
          iterations := 1
          trsf := motorTarget s words p }) := by
  have htrsf := transformFromCartesian_jointTarget s words p
    (k := { k with iterations := 2 }) hk k.trsf
  simp [segmentLine, htrsf]

/-- `M100` is queued. -/
def Queues (rt : Realtime ℝ) (x : MotionControl ℝ) : Prop := Disabled x ∧ Clear rt x

/-- What `M100` does to the planner. -/
theorem mcodeExecute_planner (m : FloatMath ℝ) (s : Settings ℝ) (rt : Realtime ℝ)
    (words : JointWords ℝ) (x : MotionControl ℝ) :
    let y := x.mcodeExecute m exactTrig s rt words
    (Queues rt x → y.handed = x.handed ++ [⟨true, motorTarget s words x.planner⟩] ∧
      y.planner.position = Planner.targetSteps s (motorTarget s words x.planner)) ∧
    (¬ Queues rt x → y.handed = x.handed ∧ y.planner = x.planner) := by
  intro y
  let x' : MotionControl ℝ := { x with kinematics := { x.kinematics with jointMode := true } }
  let condition := x.validated { rapidMotion := decide (¬ 0 < x.feedRate) }
  let plData : PlanLineData ℝ :=
    { feedRate := if 0 < x.feedRate then x.feedRate else 0
      rateMultiplier := 0, spindle := ⟨0, false, none⟩, condition := condition
      lineNumber := 0, message := none, outputCommands := [] }
  have hseg := segmentLine_jointTarget s words x.planner (k := x'.kinematics) rfl condition
  have hy : y.handed = (x'.mcLine m exactTrig s rt (jointTarget s words x.planner) plData).handed ∧
      y.planner = (x'.mcLine m exactTrig s rt (jointTarget s words x.planner) plData).planner := by
    have htarget : jointTarget s words x.planner = fun
        | .x => words.r.getD
            (-(x.planner.planGetPosition s .x + x.planner.planGetPosition s .y) * (1 / 2))
        | .y => words.d.getD ((x.planner.planGetPosition s .y - x.planner.planGetPosition s .x) *
            (1 / 2) * Arm.yScale)
        | .z => words.q.getD (x.planner.planGetPosition s .z)
        | .a => words.p.getD (x.planner.planGetPosition s .a)
        | .b => 0 := by
      ext i
      cases i <;> rfl
    rw [htarget]
    exact ⟨rfl, rfl⟩
  obtain ⟨hpass, hstop⟩ := mcLine_planner m s rt plData (x := x') hseg rfl
  have hclear : Clear rt x' ↔ Clear rt x :=
    ⟨fun h => ⟨h.checkMode, h.aborted, h.abort, h.waitAbort⟩,
      fun h => ⟨h.checkMode, h.aborted, h.abort, h.waitAbort⟩⟩
  have hvalid : (condition.targetValidated = true ∧ condition.targetValid = true) ↔
      Disabled x := by
    by_cases hd : Disabled x
    · simp [condition, validated_of_disabled hd, hd]
    · simp [condition, validated_of_not_disabled hd, hd]
  rw [hy.1, hy.2]
  constructor
  · rintro ⟨hd, hc⟩
    obtain ⟨hhanded, hplanner⟩ := hpass ⟨hvalid.mpr hd, hclear.mpr hc⟩
    refine ⟨hhanded, ?_⟩
    rw [hplanner]
    exact Planner.planBufferLine_position ⟨rfl, rfl⟩
  · intro h
    exact hstop fun hq => h ⟨hvalid.mp hq.1, hclear.mp hq.2⟩

/-- `M100` is queued exactly when it hands over a target. -/
theorem queues_iff (m : FloatMath ℝ) (s : Settings ℝ) (rt : Realtime ℝ) (words : JointWords ℝ)
    (x : MotionControl ℝ) :
    (x.mcodeExecute m exactTrig s rt words).handed ≠ x.handed ↔ Queues rt x := by
  obtain ⟨hpass, hstop⟩ := mcodeExecute_planner m s rt words x
  constructor
  · intro h
    by_contra hq
    exact h (hstop hq).1
  · intro hq h
    have hlength := congrArg List.length ((hpass hq).1.symm.trans h)
    simp at hlength

end MotionControl

end Inspector
