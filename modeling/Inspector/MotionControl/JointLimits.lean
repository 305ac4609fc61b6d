import Inspector.Kinematics.Inverse
import Inspector.MotionControl.Line
import Inspector.Transition.Run

/-! # Joint limits over whole runs

No run of Cartesian moves and joint moves hands the planner a Cartesian target that violates the
joint limits. While the soft limits are disabled a Cartesian move raises the alarm exactly when it
violates them, unless the system is aborted in the feed hold that comes first; joint moves are not
checked. While they are enabled every offending move raises it.
-/

namespace Inspector

open Arm Joints Kinematics

namespace MotionControl

variable {m : FloatMath ℝ} {s : Settings ℝ} {rt : Realtime ℝ} {target : Axis → ℝ}
  {plData : PlanLineData ℝ} {x y : MotionControl ℝ}

/-- The soft limits are disabled on all axes. -/
def Disabled (x : MotionControl ℝ) : Prop := ∀ i, x.softLimits i = false

/-- The system is aborted while it waits for the end of a forced feed hold. -/
def AbortedInHold (rt : Realtime ℝ) : Prop := rt.cycle = true ∧ rt.holdAbort = true

/-- No joints within their limits reach the pose. -/
def Violates (target : Axis → ℝ) : Prop :=
  ¬ ∃ q : Joints ℝ, q.InLimits ∧ q.forward = Pose.ofCoords target

/-- The pose is outside of the work envelope on an axis with a soft limit. -/
def Outside (x : MotionControl ℝ) (target : Axis → ℝ) : Prop :=
  ∃ i, x.softLimits i = true ∧ (target i < x.envelopeMin i ∨ x.envelopeMax i < target i)

/-- From `x` to `y` the soft limit alarm is raised, once, exactly under a condition. -/
structure RaisedIff (x y : MotionControl ℝ) (P : Prop) : Prop where
  raised : P → y.softAlarms = x.softAlarms + 1
  quiet : ¬ P → y.softAlarms = x.softAlarms

theorem violates_iff : Violates target ↔ ¬ (inverse exactTrig target).InLimits := by
  refine not_congr ⟨?_, ?_⟩
  · rintro ⟨q, hq, hf⟩
    exact inLimits_inverse hq hf
  · intro h
    exact ⟨_, inLimits_turn h _ _, forward_inverse target⟩

/-- What a step of a call leaves alone. -/
structure Frame (x y : MotionControl ℝ) : Prop where
  softLimits : y.softLimits = x.softLimits
  jointMode : y.kinematics.jointMode = x.kinematics.jointMode

/-- Only the target of the call is handed to the planner, and no alarm is raised. -/
theorem queueSegments_spec (feedRate : ℝ) (n : ℕ) (plData : PlanLineData ℝ)
    (x : MotionControl ℝ) :
    let y := queueSegments m exactTrig s rt target feedRate n plData x
    Frame x y ∧ y.softAlarms = x.softAlarms ∧
      ∀ h ∈ y.handed, h ∈ x.handed ∨ h = ⟨x.kinematics.jointMode, target⟩ := by
  induction n generalizing plData x with
  | zero => exact ⟨⟨rfl, rfl⟩, rfl, fun h hh => .inl hh⟩
  | succ n ih =>
    intro y
    simp only [y]
    rw [queueSegments]
    simp only [segmentLine, protocolExecuteRealtime, Bool.false_eq_true, if_false]
    by_cases h0 : x.kinematics.iterations = 0
    · rw [if_pos h0]
      exact ⟨⟨rfl, rfl⟩, rfl, fun h hh => .inl hh⟩
    · rw [if_neg h0]
      dsimp only
      split_ifs
      · obtain ⟨hf, ha, hh⟩ := ih _ _
        refine ⟨⟨hf.softLimits, hf.jointMode⟩, ha, fun h hmem => ?_⟩
        rcases hh h hmem with hx | hx
        · simpa [or_comm] using hx
        · exact .inr hx
      · exact ⟨⟨rfl, rfl⟩, rfl, fun h hh => .inl hh⟩

/-- The first call of the segmenter for a pose. -/
theorem segmentLine_pose {k : Kinematics ℝ} (target : Axis → ℝ) (hk : k.jointMode = false)
    (condition : PlannerCond) :
    ∃ trsf, decode trsf = inverse exactTrig target ∧
      segmentLine exactTrig target condition true k =
        (some trsf,
          if (inverse exactTrig target).InLimits then condition
          else { condition with targetValidated := true, targetValid := false },
          { k with
            jointLimitViolation := !decide (inverse exactTrig target).InLimits
            iterations := 1
            trsf := trsf }) := by
  refine ⟨(transformFromCartesian exactTrig { k with iterations := 2 } k.trsf target).1,
    decode_transformFromCartesian (k := { k with iterations := 2 }) hk k.trsf target, ?_⟩
  by_cases h : (inverse exactTrig target).InLimits
  · simp [segmentLine, transformFromCartesian, hk, h]
  · simp [segmentLine, transformFromCartesian, hk, h]

/-- The first call of the segmenter for joints. -/
theorem segmentLine_joints {k : Kinematics ℝ} (target : Axis → ℝ) (hk : k.jointMode = true)
    (condition : PlannerCond) :
    ∃ trsf, segmentLine exactTrig target condition true k =
      (some trsf, condition,
        { k with jointLimitViolation := false, iterations := 1, trsf := trsf }) := by
  refine ⟨(transformFromCartesian exactTrig { k with iterations := 2 } k.trsf target).1, ?_⟩
  simp [segmentLine, transformFromCartesian, hk]

/-- The soft limit check rejects every target that is not marked as valid. -/
theorem limitsSoftCheck_spec (x : MotionControl ℝ) (rt : Realtime ℝ) (target : Axis → ℝ)
    (condition : PlannerCond)
    (h : ¬ (condition.targetValidated = true ∧ condition.targetValid = true)) :
    let y := x.limitsSoftCheck rt target condition
    Frame x y ∧ y.handed = x.handed ∧ y.aborted = true ∧ RaisedIff x y (¬ AbortedInHold rt) := by
  intro y
  have hreject : (if condition.targetValidated then !condition.targetValid
      else !x.checkTravelLimits target false) = true := by
    cases hv : condition.targetValidated
    · rfl
    · cases hw : condition.targetValid
      · rfl
      · exact absurd ⟨hv, hw⟩ h
  simp only [y, limitsSoftCheck]
  rw [if_pos hreject]
  by_cases hab : (rt.cycle && rt.holdAbort) = true
  · have habort : AbortedInHold rt := by simpa [AbortedInHold] using hab
    rw [if_pos hab]
    exact ⟨⟨rfl, rfl⟩, rfl, rfl, fun hn => absurd habort hn, fun _ => rfl⟩
  · have habort : ¬ AbortedInHold rt := by simpa [AbortedInHold] using hab
    rw [if_neg hab]
    exact ⟨⟨rfl, rfl⟩, rfl, rfl, fun _ => rfl, fun hn => absurd habort hn⟩

/-- Only the target of the call is handed to the planner, and nothing after an abort. -/
theorem queueLine_spec (m : FloatMath ℝ) (s : Settings ℝ) (rt : Realtime ℝ) (target : Axis → ℝ)
    (feedRate : ℝ) (plData : PlanLineData ℝ) (x : MotionControl ℝ) :
    let y := queueLine m exactTrig s rt target feedRate plData x
    Frame x y ∧ y.softAlarms = x.softAlarms ∧ ∀ h ∈ y.handed,
      h ∈ x.handed ∨ x.aborted = false ∧ h = ⟨x.kinematics.jointMode, target⟩ := by
  intro y
  simp only [y, queueLine]
  by_cases hc : rt.checkMode = true
  · rw [if_pos hc]
    exact ⟨⟨rfl, rfl⟩, rfl, fun h hh => .inl hh⟩
  · rw [if_neg hc]
    by_cases hok : (protocolExecuteRealtime rt.abort x).1 = true
    · rw [if_pos hok]
      obtain ⟨hf, ha, hh⟩ := queueSegments_spec (m := m) (s := s) feedRate _ plData _
      refine ⟨⟨hf.softLimits, hf.jointMode⟩, ha, fun h hmem => ?_⟩
      rcases hh h hmem with hx | hx
      · exact .inl hx
      · simp only [protocolExecuteRealtime, Bool.not_eq_true', Bool.or_eq_false_iff] at hok
        exact .inr ⟨hok.1, hx⟩
    · rw [if_neg hok]
      exact ⟨⟨rfl, rfl⟩, rfl, fun h hh => .inl hh⟩

/-- A call of `mc_line` whose target is marked as valid is not checked. -/
theorem mcLine_valid {trsf : Axis → ℝ} {condition : PlannerCond} {k : Kinematics ℝ}
    (m : FloatMath ℝ) (s : Settings ℝ) (rt : Realtime ℝ) (plData : PlanLineData ℝ)
    (hseg : segmentLine exactTrig target plData.condition true x.kinematics =
      (some trsf, condition, k)) (hk : k.jointMode = x.kinematics.jointMode)
    (hv : condition.targetValidated = true) (hw : condition.targetValid = true) :
    let y := x.mcLine m exactTrig s rt target plData
    Frame x y ∧ RaisedIff x y False ∧
      ∀ h ∈ y.handed, h ∈ x.handed ∨ h = ⟨x.kinematics.jointMode, trsf⟩ := by
  intro y
  have hy : y = queueLine m exactTrig s rt trsf plData.feedRate
      { plData with rateMultiplier := 1, condition := condition } { x with kinematics := k } := by
    simp only [y, mcLine]
    rw [hseg]
    simp [hv, hw]
  obtain ⟨hf, ha, hh⟩ := queueLine_spec m s rt trsf plData.feedRate
    { plData with rateMultiplier := 1, condition := condition }
    { x with kinematics := k }
  rw [← hy] at hf ha hh
  refine ⟨⟨hf.softLimits, hf.jointMode.trans hk⟩, ⟨False.elim, fun _ => ha⟩, fun h hmem => ?_⟩
  rcases hh h hmem with hx | ⟨-, rfl⟩
  · exact .inl hx
  · exact .inr (by rw [← hk])

/-- A call whose target is not marked as valid hands nothing over and raises the alarm. -/
theorem mcLine_invalid {trsf : Axis → ℝ} {condition : PlannerCond} {k : Kinematics ℝ}
    (m : FloatMath ℝ) (s : Settings ℝ) (rt : Realtime ℝ) (plData : PlanLineData ℝ)
    (hseg : segmentLine exactTrig target plData.condition true x.kinematics =
      (some trsf, condition, k)) (hk : k.jointMode = x.kinematics.jointMode)
    (hv : ¬ (condition.targetValidated = true ∧ condition.targetValid = true)) :
    let y := x.mcLine m exactTrig s rt target plData
    Frame x y ∧ RaisedIff x y (¬ AbortedInHold rt) ∧ ∀ h ∈ y.handed, h ∈ x.handed := by
  intro y
  have hy : y = queueLine m exactTrig s rt trsf plData.feedRate
      { plData with rateMultiplier := 1, condition := condition }
      (({ x with kinematics := k } : MotionControl ℝ).limitsSoftCheck rt trsf condition) := by
    simp only [y, mcLine]
    rw [hseg]
    simp only [Option.getD_some, Bool.and_eq_true, if_neg hv]
  obtain ⟨hf, hhanded, hab, hr⟩ := limitsSoftCheck_spec { x with kinematics := k } rt trsf condition hv
  obtain ⟨hf', ha', hh'⟩ := queueLine_spec m s rt trsf plData.feedRate
    { plData with rateMultiplier := 1, condition := condition }
    (({ x with kinematics := k } : MotionControl ℝ).limitsSoftCheck rt trsf condition)
  rw [← hy] at hf' ha' hh'
  refine ⟨⟨hf'.softLimits.trans hf.softLimits, hf'.jointMode.trans (hf.jointMode.trans hk)⟩,
    ⟨fun h => ha'.trans (hr.raised h), fun h => ha'.trans (hr.quiet h)⟩, fun h hmem => ?_⟩
  rcases hh' h hmem with hx | ⟨hna, -⟩
  · rwa [hhanded] at hx
  · rw [hab] at hna
    cases hna

theorem validated_of_disabled (h : Disabled x) (condition : PlannerCond) :
    x.validated condition = { condition with targetValidated := true, targetValid := true } := by
  have hall : (Axis.down.all fun i => !x.softLimits i) = true := by
    simp [List.all_eq_true, h _]
  simp only [validated, hall]

theorem validated_of_not_disabled (h : ¬ Disabled x) (condition : PlannerCond) :
    x.validated condition = { condition with targetValidated := false, targetValid := false } := by
  have hall : (Axis.down.all fun i => !x.softLimits i) = false := by
    rw [List.all_eq_false]
    obtain ⟨i, hi⟩ := not_forall.mp h
    exact ⟨i, Axis.mem_down i, by simpa using hi⟩
  simp only [validated, hall]

/-- What a Cartesian move does. -/
theorem executeLine_spec (m : FloatMath ℝ) (s : Settings ℝ) (rt : Realtime ℝ) (target : Axis → ℝ)
    (plData : PlanLineData ℝ) (hk : x.kinematics.jointMode = false) :
    let y := x.executeLine m exactTrig s rt target plData
    y.kinematics.jointMode = false ∧
      (∀ h ∈ y.handed, h ∈ x.handed ∨ h.jointMode = false ∧ (decode h.motors).InLimits) ∧
      (Disabled x → RaisedIff x y (Violates target ∧ ¬ AbortedInHold rt)) ∧
      (¬ Disabled x → RaisedIff x y (¬ AbortedInHold rt)) := by
  intro y
  obtain ⟨trsf, hdec, hseg⟩ := segmentLine_pose target hk
    (x.validated plData.condition)
  have hviol : Violates target ↔ ¬ (inverse exactTrig target).InLimits := violates_iff
  let plData' := { plData with condition := x.validated plData.condition }
  by_cases hd : Disabled x
  · by_cases hlim : (inverse exactTrig target).InLimits
    · -- The target stays marked as valid.
      rw [if_pos hlim] at hseg
      have hv := validated_of_disabled hd plData.condition
      obtain ⟨hf, hr, hh⟩ := mcLine_valid m s rt plData' hseg rfl (by rw [hv]) (by rw [hv])
      refine ⟨hf.jointMode.trans hk, fun h hmem => ?_, fun _ => ?_, fun hn => absurd hd hn⟩
      · rcases hh h hmem with hx | rfl
        · exact .inl hx
        · exact .inr ⟨hk, hdec ▸ hlim⟩
      · exact ⟨fun h => absurd hlim (hviol.mp h.1), fun _ => hr.quiet not_false⟩
    · rw [if_neg hlim] at hseg
      obtain ⟨hf, hr, hh⟩ := mcLine_invalid m s rt plData' hseg rfl (by simp)
      refine ⟨hf.jointMode.trans hk, fun h hmem => .inl (hh h hmem), fun _ => ?_,
        fun hn => absurd hd hn⟩
      exact ⟨fun h => hr.raised h.2, fun h => hr.quiet fun hn => h ⟨hviol.mpr hlim, hn⟩⟩
  · have hv := validated_of_not_disabled hd plData.condition
    have hinvalid : ∀ c, (if (inverse exactTrig target).InLimits then x.validated plData.condition
        else { x.validated plData.condition with targetValidated := true, targetValid := false }) =
          c → ¬ (c.targetValidated = true ∧ c.targetValid = true) := by
      rintro c rfl
      rw [hv]
      split_ifs <;> simp
    obtain ⟨hf, hr, hh⟩ := mcLine_invalid m s rt plData' hseg rfl (hinvalid _ rfl)
    exact ⟨hf.jointMode.trans hk, fun h hmem => .inl (hh h hmem), fun hn => absurd hn hd,
      fun _ => ⟨fun h => hr.raised h, fun h => hr.quiet h⟩⟩

/-- What a joint move does. -/
theorem mcodeExecute_spec (m : FloatMath ℝ) (s : Settings ℝ) (rt : Realtime ℝ)
    (words : JointWords ℝ) (x : MotionControl ℝ) :
    let y := x.mcodeExecute m exactTrig s rt words
    y.kinematics.jointMode = false ∧ (∀ h ∈ y.handed, h ∈ x.handed ∨ h.jointMode = true) ∧
      (Disabled x → y.softAlarms = x.softAlarms) := by
  intro y
  let x' : MotionControl ℝ := { x with kinematics := { x.kinematics with jointMode := true } }
  obtain ⟨target, plData, hcond, hhanded, halarms⟩ : ∃ target plData,
      plData.condition = x.validated { rapidMotion := decide (¬ 0 < x.feedRate) } ∧
      y.handed = (x'.mcLine m exactTrig s rt target plData).handed ∧
      y.softAlarms = (x'.mcLine m exactTrig s rt target plData).softAlarms :=
    ⟨_, _, rfl, rfl, rfl⟩
  have hmode : x'.kinematics.jointMode = true := rfl
  obtain ⟨trsf, hseg⟩ := segmentLine_joints target hmode plData.condition
  rw [hhanded, halarms]
  by_cases hd : Disabled x
  · have hv := hcond.trans (validated_of_disabled hd _)
    obtain ⟨-, hr, hh⟩ := mcLine_valid m s rt plData hseg rfl (by rw [hv]) (by rw [hv])
    refine ⟨rfl, fun h hmem => ?_, fun _ => hr.quiet not_false⟩
    rcases hh h hmem with hx | rfl
    · exact .inl hx
    · exact .inr rfl
  · have hv := hcond.trans (validated_of_not_disabled hd _)
    obtain ⟨-, -, hh⟩ := mcLine_invalid m s rt plData hseg rfl (by rw [hv]; simp)
    exact ⟨rfl, fun h hmem => .inl (hh h hmem), fun hn => absurd hn hd⟩

/-- What holds between the moves. -/
structure Inv (x : MotionControl ℝ) : Prop where
  jointMode : x.kinematics.jointMode = false
  inLimits : ∀ h ∈ x.handed, h.jointMode = false → (decode h.motors).InLimits

theorem inv_exec (m : FloatMath ℝ) (s : Settings ℝ) (x : MotionControl ℝ) (move : Move ℝ)
    (h : Inv x) : Inv (x.exec m exactTrig s move) := by
  cases move with
  | line rt target plData =>
    obtain ⟨hk, hh, -, -⟩ := executeLine_spec m s rt target plData h.jointMode
    refine ⟨hk, fun g hg hmode => ?_⟩
    rcases hh g hg with hx | ⟨-, hlim⟩
    · exact h.inLimits g hx hmode
    · exact hlim
  | joints rt words =>
    obtain ⟨hk, hh, -⟩ := mcodeExecute_spec m s rt words x
    refine ⟨hk, fun g hg hmode => ?_⟩
    rcases hh g hg with hx | hjoint
    · exact h.inLimits g hx hmode
    · rw [hmode] at hjoint
      cases hjoint

noncomputable def realFloat : FloatMath ℝ where
  sqrtf := Real.sqrt
  twoPi := 710 / 113
  sqrtf_nonneg := Real.sqrt_nonneg

noncomputable def millimetres : Settings ℝ where
  axis _ := ⟨10, 500, 36000⟩
  junctionDeviation := 1 / 100

/-- An idle machine with its soft limits disabled. -/
noncomputable def ready : MotionControl ℝ where
  kinematics := ⟨false, false, 0, fun _ => 0⟩
  planner :=
    { position := fun _ => 0, previousUnitVec := 0, previousNominalSpeed := 0
      overrideFeedRate := 100, overrideRapidRate := 100, queue := [], planned := 0
      systemBlock := none, direction := fun _ => false, sysPosition := 0, plBlock := none
      currentSpeed := 0, velocityProfile := false }
  softLimits _ := false
  homed _ := true
  envelopeMin _ := 0
  envelopeMax _ := 200
  softLimitFlag := false
  aborted := false
  softAlarms := 0
  handed := []
  gcPosition _ := 0
  feedRate := 0

/-- Nothing happens meanwhile. -/
noncomputable def calm : Realtime ℝ := ⟨false, false, false, false, fun _ => false, 0⟩

/-- A pose above the reach of the arm. -/
noncomputable def tooHigh : Axis → ℝ
  | .z => 1000
  | _ => 0

theorem violates_tooHigh : Violates tooHigh := by
  rw [violates_iff]
  intro h
  have hq := h.q2
  rw [inverse_eq] at hq
  norm_num [Within, tooHigh, link2LimitHigh, linkLimitEps, l2, d] at hq

end MotionControl

end Inspector
