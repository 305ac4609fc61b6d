import Inspector.MotionControl.Queued

/-! # The feed rate of a line

The planner runs a block at its programmed rate along the motors, which are not as long as the line
of the tool. The segmenter does not rescale the feed rate, so the tool moves at the programmed
speed exactly when the two lengths agree.
-/

namespace Inspector

open Arm Joints Kinematics

/-- `get_distance`, over all axes. -/
noncomputable def getDistance (p₀ p₁ : Axis → ℝ) : ℝ :=
  √((p₀ .x - p₁ .x) ^ 2 + (p₀ .y - p₁ .y) ^ 2 + (p₀ .z - p₁ .z) ^ 2 + (p₀ .a - p₁ .a) ^ 2 +
    (p₀ .b - p₁ .b) ^ 2)

/-- The length of the line of the tool. -/
noncomputable def pathLength (start target : Axis → ℝ) : ℝ :=
  √((target .x - start .x) ^ 2 + (target .y - start .y) ^ 2 + (target .z - start .z) ^ 2)

namespace Kinematics

/-- The motors at a pose. -/
noncomputable def motors (k : Kinematics ℝ) (pose : Axis → ℝ) : Axis → ℝ :=
  (transformFromCartesian exactTrig k k.trsf pose).1

/-- The angle of the base for a pose. -/
noncomputable def base (pose : Axis → ℝ) : ℝ :=
  if radius pose < singularRadius then 0 else baseAngle pose

/-- The lift for a pose, up to a constant, in millimetres. -/
noncomputable def lift (pose : Axis → ℝ) : ℝ :=
  pose .z + 1000 * (d * Real.sin (pose .a * deg2rad))

/-- The rail for a pose, up to a constant and its sign, in millimetres. -/
noncomputable def rail (pose : Axis → ℝ) : ℝ :=
  1000 * (radius pose + d * Real.cos (pose .a * deg2rad))

/-- The motors and the tool move by the same length. The two belts both move with the rail and,
apart from each other, with the wrist. -/
def LengthsAgree (start target : Axis → ℝ) : Prop :=
  2 * (rail target - rail start) ^ 2 + 2 * ((target .a - start .a) / yScale) ^ 2 +
      (lift target - lift start) ^ 2 + (base target - base start) ^ 2 =
    (target .x - start .x) ^ 2 + (target .y - start .y) ^ 2 + (target .z - start .z) ^ 2

/-- The motors at a pose, in terms of the pose. -/
theorem motors_eq {k : Kinematics ℝ} (hk : k.jointMode = false) (pose : Axis → ℝ) :
    motors k pose .x = rail pose - 1000 * (l1 - l3) - pose .a / yScale ∧
      motors k pose .y = rail pose - 1000 * (l1 - l3) + pose .a / yScale ∧
      motors k pose .z = lift pose - 1000 * l2 ∧ motors k pose .a = base pose ∧
      motors k pose .b = k.trsf .b := by
  have hpitch : pose .a * deg2rad * rad2deg = pose .a := by
    rw [mul_assoc, deg2rad_mul_rad2deg, mul_one]
  have hq1 : (inverse exactTrig pose).q1 = base pose := q1_inverse pose
  have hq3 : (inverse exactTrig pose).q3 = 1000 * (l1 - l3) - rail pose := by
    rw [inverse_eq]
    simp only [backwards, branch, exactTrig, rail]
    ring
  have hq2 : (inverse exactTrig pose).q2 = lift pose - 1000 * l2 := by
    rw [inverse_eq]
    simp only [lift]
    ring
  have hq4 : (inverse exactTrig pose).q4 * rad2deg = pose .a := hpitch
  simp only [motors, transformFromCartesian, hk, Bool.false_eq_true, if_false, mix, hq1, hq2, hq3,
    hq4]
  refine ⟨?_, ?_, trivial, trivial, trivial⟩ <;> ring

/-- The first call of the segmenter gives the motors at the target. -/
theorem segmentLine_motors {k : Kinematics ℝ} (hk : k.jointMode = false) (target : Axis → ℝ)
    (condition : PlannerCond) :
    ∃ k', segmentLine exactTrig target condition true k =
      (some (motors k target), if (inverse exactTrig target).InLimits then condition
        else { condition with targetValidated := true, targetValid := false }, k') ∧
      k'.iterations = 1 := by
  have htrsf : transformFromCartesian exactTrig { k with iterations := 2 } k.trsf target =
      (motors k target, { k with
        jointLimitViolation := !decide (inverse exactTrig target).InLimits
        iterations := 2 }) := by
    simp [motors, transformFromCartesian, hk]
  by_cases hlim : (inverse exactTrig target).InLimits
  · simp [segmentLine, htrsf, hlim]
  · simp [segmentLine, htrsf, hlim]

theorem getDistance_motors {k : Kinematics ℝ} (hk : k.jointMode = false)
    (start target : Axis → ℝ) :
    getDistance (motors k target) (motors k start) = pathLength start target ↔
      LengthsAgree start target := by
  obtain ⟨hx, hy, hz, ha, hb⟩ := motors_eq hk start
  obtain ⟨hx', hy', hz', ha', hb'⟩ := motors_eq hk target
  have hsum : (motors k target .x - motors k start .x) ^ 2 +
      (motors k target .y - motors k start .y) ^ 2 + (motors k target .z - motors k start .z) ^ 2 +
      (motors k target .a - motors k start .a) ^ 2 + (motors k target .b - motors k start .b) ^ 2 =
      2 * (rail target - rail start) ^ 2 + 2 * ((target .a - start .a) / yScale) ^ 2 +
        (lift target - lift start) ^ 2 + (base target - base start) ^ 2 := by
    rw [hx, hy, hz, ha, hb, hx', hy', hz', ha', hb']
    ring
  unfold getDistance pathLength LengthsAgree
  rw [Real.sqrt_inj (by positivity) (by positivity), hsum]

end Kinematics

namespace MotionControl

variable {m : FloatMath ℝ} {s : Settings ℝ} {rt : Realtime ℝ} {target : Axis → ℝ}
  {plData : PlanLineData ℝ} {x y : MotionControl ℝ}

/-- A call adds a block to the planner. -/
structure Adds (x y : MotionControl ℝ) (block : PlanBlock ℝ) : Prop where
  length : y.planner.queue.length = x.planner.queue.length + 1
  last : y.planner.queue.getLast? = some block

/-- A line whose target is valid and that nothing stops adds a block, unless it is empty. -/
theorem exists_adds (hk : x.kinematics.jointMode = false)
    (hlim : (inverse exactTrig target).InLimits)
    (hvalid : plData.condition.targetValidated = true ∧ plData.condition.targetValid = true)
    (hsys : plData.condition.systemMotion = false) (hclear : Clear rt x) {i : Axis}
    (hi : Planner.targetSteps s (motors x.kinematics target) i ≠ x.planner.position i) :
    ∃ block, Adds x (x.mcLine m exactTrig s rt target plData) block := by
  obtain ⟨k, hseg, hiter⟩ := segmentLine_motors hk target plData.condition
  rw [if_pos hlim] at hseg
  obtain ⟨hpass, -⟩ := mcLine_planner m s rt plData (x := x) hseg hiter
  have hplanner := (hpass ⟨hvalid, hclear⟩).2
  have hempty : Planner.stepEventCount s (motors x.kinematics target)
      { plData with rateMultiplier := 1 } x.planner ≠ 0 := by
    intro h0
    have h0 := Planner.stepEventCount_eq_zero.mp h0 i
    simp only [Planner.deltaSteps, Planner.positionSteps, hsys, Bool.false_eq_true, if_false] at h0
    exact hi (sub_eq_zero.mp h0)
  have he : (x.mcLine m exactTrig s rt target plData).planner = (Planner.pushBlock m s rt.rpm
      (motors x.kinematics target) { plData with rateMultiplier := 1 }
      x.planner).plannerRecalculate := by
    rw [hplanner]
    unfold Planner.planBufferLine
    simp [hempty, hsys]
  have hmap := Planner.plannerRecalculate_map (f := fun _ => ()) (p := Planner.pushBlock m s rt.rpm
    (motors x.kinematics target) { plData with rateMultiplier := 1 } x.planner) fun _ _ => rfl
  rw [← he] at hmap
  have hlength := congrArg List.length hmap
  simp only [List.length_map, Planner.pushBlock, List.length_append, List.length_singleton]
    at hlength
  refine ⟨(x.mcLine m exactTrig s rt target plData).planner.queue.getLast
    (List.ne_nil_of_length_pos (by omega)), hlength, List.getLast?_eq_some_getLast _⟩

/-- A block that a line adds is the one that the planner makes of the motors at its target. -/
theorem map_of_adds {α : Type*} {f : PlanBlock ℝ → α} {block : PlanBlock ℝ}
    (hf : ∀ (b : PlanBlock ℝ) v, f (b.setEntry v) = f b) (hk : x.kinematics.jointMode = false)
    (h : Adds x (x.mcLine m exactTrig s rt target plData) block) :
    f block = f (Planner.makeBlock m s rt.rpm (motors x.kinematics target)
      { plData with rateMultiplier := 1 } x.planner).1 := by
  obtain ⟨k, hseg, hiter⟩ := segmentLine_motors hk target plData.condition
  obtain ⟨hpass, hstop⟩ := mcLine_planner m s rt plData (x := x) hseg hiter
  have hlength := h.length
  have hlast := h.last
  split_ifs at hpass hstop with hlim
  · by_cases hq : (plData.condition.targetValidated = true ∧
        plData.condition.targetValid = true) ∧ Clear rt x
    · rw [(hpass hq).2] at hlength hlast
      rcases Planner.planBufferLine_cases m s rt.rpm (motors x.kinematics target)
        { plData with rateMultiplier := 1 } x.planner with ⟨hqueue, -⟩ | ⟨-, -, he⟩
      · rw [hqueue] at hlength
        omega
      · have hmap := Planner.plannerRecalculate_getLast? (p := Planner.pushBlock m s rt.rpm
          (motors x.kinematics target) { plData with rateMultiplier := 1 } x.planner) hf
        rw [← he, hlast] at hmap
        simpa [Planner.pushBlock] using hmap
    · rw [(hstop hq).2] at hlength
      omega
  · rw [(hstop (by simp)).2] at hlength
    omega

theorem programmedRate_makeBlock (m : FloatMath ℝ) (s : Settings ℝ) (rpm : ℝ)
    (target : Axis → ℝ) (plData : PlanLineData ℝ) (p : Planner ℝ)
    (hrapid : plData.condition.rapidMotion = false)
    (hinverse : plData.condition.inverseTime = false) :
    (Planner.makeBlock m s rpm target plData p).1.programmedRate = plData.feedRate := by
  unfold Planner.makeBlock
  dsimp only
  split <;> simp [planComputeProfileParameters, hrapid, hinverse]

/-- The length of a block is the distance of its ends, rounded to steps. -/
theorem millimeters_makeBlock (m : FloatMath ℝ) (s : Settings ℝ) (rpm : ℝ)
    (target : Axis → ℝ) (plData : PlanLineData ℝ) (p : Planner ℝ) (hm : ∀ v, m.sqrtf v = √v)
    (hsys : plData.condition.systemMotion = false) :
    (Planner.makeBlock m s rpm target plData p).1.millimeters =
      getDistance (fun i => Planner.targetSteps s target i / (s.axis i).stepsPerMm)
        (p.planGetPosition s) := by
  have hmm : (Planner.makeBlock m s rpm target plData p).1.millimeters =
      (convertDeltaVectorToUnitVector m fun i => if Planner.deltaSteps s target plData p i ≠ 0 then
        (Planner.deltaSteps s target plData p i : ℝ) / (s.axis i).stepsPerMm else 0).1 := by
    unfold Planner.makeBlock
    dsimp only
    split <;> rfl
  have hdelta : ∀ i, (if Planner.deltaSteps s target plData p i ≠ 0 then
      (Planner.deltaSteps s target plData p i : ℝ) / (s.axis i).stepsPerMm else 0) =
      Planner.targetSteps s target i / (s.axis i).stepsPerMm - p.planGetPosition s i := by
    intro i
    have hsplit : (Planner.deltaSteps s target plData p i : ℝ) =
        Planner.targetSteps s target i - p.position i := by
      simp [Planner.deltaSteps, Planner.positionSteps, hsys]
    rw [Planner.planGetPosition, ← sub_div, ← hsplit]
    split_ifs with h0
    · rfl
    · rw [not_not.mp h0]
      simp
  have hsquare : ∀ acc v : ℝ, (if v ≠ 0 then acc + v * v else acc) = acc + v ^ 2 := by
    intro acc v
    split_ifs with h0
    · rw [sq]
    · rw [not_not.mp h0]
      simp
  rw [hmm]
  simp only [convertDeltaVectorToUnitVector, hdelta, hsquare, hm, getDistance, Axis.down,
    List.foldl_cons, List.foldl_nil]
  congr 1
  ring

/-- The planner measures a block along the motors, between positions rounded to steps. -/
theorem millimeters_of_adds {block : PlanBlock ℝ} (hm : ∀ v, m.sqrtf v = √v)
    (hk : x.kinematics.jointMode = false) (hsys : plData.condition.systemMotion = false)
    (h : Adds x (x.mcLine m exactTrig s rt target plData) block) :
    block.millimeters = getDistance
      (fun i => Planner.targetSteps s (motors x.kinematics target) i / (s.axis i).stepsPerMm)
      (x.planner.planGetPosition s) := by
  rw [map_of_adds (f := PlanBlock.millimeters) (fun _ _ => rfl) hk h]
  exact millimeters_makeBlock m s rt.rpm (motors x.kinematics target)
    { plData with rateMultiplier := 1 } x.planner hm hsys

/-- A controlled line, in units per minute, between two poses that the arm reaches. -/
structure Controlled (s : Settings ℝ) (start target : Axis → ℝ) (plData : PlanLineData ℝ)
    (x : MotionControl ℝ) : Prop where
  jointMode : x.kinematics.jointMode = false
  atStart : x.planner.position = Planner.targetSteps s (motors x.kinematics start)
  distinct : start ≠ target
  reachable : (inverse exactTrig start).InLimits ∧ (inverse exactTrig target).InLimits
  rapidMotion : plData.condition.rapidMotion = false
  inverseTime : plData.condition.inverseTime = false
  unitsPerRev : plData.condition.unitsPerRev = false
  feedRate : 0 < plData.feedRate

/-- The motors take as long for the block as the tool for the line at its feed rate exactly when
the two move by the same length. -/
theorem programmedRate_iff (m : FloatMath ℝ) (s : Settings ℝ) (rt : Realtime ℝ)
    (start target : Axis → ℝ) (plData : PlanLineData ℝ) (x : MotionControl ℝ)
    (block : PlanBlock ℝ) (h : Controlled s start target plData x)
    (hb : Adds x (x.mcLine m exactTrig s rt target plData) block) :
    getDistance (motors x.kinematics target) (motors x.kinematics start) / block.programmedRate =
      pathLength start target / plData.feedRate ↔ LengthsAgree start target := by
  have hrate : block.programmedRate = plData.feedRate := by
    rw [map_of_adds (f := PlanBlock.programmedRate) (fun _ _ => rfl) h.jointMode hb]
    exact programmedRate_makeBlock m s rt.rpm (motors x.kinematics target)
      { plData with rateMultiplier := 1 } x.planner h.rapidMotion h.inverseTime
  rw [hrate, div_left_inj' h.feedRate.ne', getDistance_motors h.jointMode]

/-- A vertical line at one pitch is such a line. -/
theorem lengthsAgree_vertical {start target : Axis → ℝ} (hx : target .x = start .x)
    (hy : target .y = start .y) (ha : target .a = start .a) : LengthsAgree start target := by
  have hradius : radius target = radius start := by simp [radius, hx, hy]
  have hrail : rail target = rail start := by simp [rail, hradius, ha]
  have hbase : base target = base start := by simp [base, baseAngle, hradius, hx, hy]
  have hlift : lift target - lift start = target .z - start .z := by simp [lift, ha]
  simp [LengthsAgree, hrail, hbase, hlift, hx, hy, ha]

/-- The tool on the negative X axis, at a radius and a height. -/
noncomputable def reachingBack (r z : ℝ) : Axis → ℝ
  | .x => -r
  | .z => z
  | _ => 0

theorem radius_reachingBack {r : ℝ} (hr : 0 ≤ r) (z : ℝ) :
    radius (reachingBack r z) = r / 1000 := by
  have hsq : reachingBack r z .x / 1000 * (reachingBack r z .x / 1000) +
      reachingBack r z .y / 1000 * (reachingBack r z .y / 1000) = r / 1000 * (r / 1000) := by
    simp only [reachingBack]
    ring
  rw [radius, hsq, Real.sqrt_mul_self (by positivity)]

theorem rail_reachingBack {r : ℝ} (hr : 0 ≤ r) (z : ℝ) : rail (reachingBack r z) = r + 50 := by
  rw [rail, radius_reachingBack hr]
  norm_num [reachingBack, d]
  ring

theorem base_reachingBack {r : ℝ} (hr : 1 ≤ r) (z : ℝ) : base (reachingBack r z) = 0 := by
  have hx : reachingBack r z .x / 1000 / -radius (reachingBack r z) = 1 := by
    rw [radius_reachingBack (by linarith)]
    simp only [reachingBack]
    field_simp
  have hy : reachingBack r z .y / 1000 / -radius (reachingBack r z) = 0 := by
    simp [reachingBack]
  unfold base baseAngle
  rw [hx, hy]
  split_ifs
  · rfl
  · exact Complex.arg_one

theorem inLimits_reachingBack {r z : ℝ} (hr : 0 ≤ r) (hr' : r ≤ 90) (hz : 60 ≤ z) (hz' : z ≤ 240) :
    (inverse exactTrig (reachingBack r z)).InLimits := by
  constructor
  · rw [inverse_eq]
    exact within_branch _ _ (reachingBack r z .a * deg2rad) _ _
  · rw [inverse_eq]
    norm_num [Within, reachingBack, link2LimitLow, link2LimitHigh, linkLimitEps, l2, d]
    constructor <;> linarith
  · rw [inverse_eq]
    norm_num [Within, backwards, branch, exactTrig, radius_reachingBack hr, link3LimitLow,
      link3LimitHigh, linkLimitEps, l1, l3, d, reachingBack]
    constructor <;> linarith
  · rw [inverse_eq]
    norm_num [Within, reachingBack, link4LimitAngleLow, link4LimitAngleHigh, linkLimitEps]

/-- A machine that waits at a pose. -/
noncomputable def readyAt (pose : Axis → ℝ) : MotionControl ℝ :=
  { ready with planner := { ready.planner with
      position := Planner.targetSteps millimetres (motors ready.kinematics pose) } }

/-- A valid line at 600 mm/min. -/
noncomputable def controlledLine : PlanLineData ℝ :=
  ⟨600, 0, ⟨0, false, none⟩, { targetValidated := true, targetValid := true }, 0, none, []⟩

theorem controlled_readyAt {start target : Axis → ℝ} (hne : start ≠ target)
    (h : (inverse exactTrig start).InLimits) (h' : (inverse exactTrig target).InLimits) :
    Controlled millimetres start target controlledLine (readyAt start) :=
  ⟨rfl, rfl, hne, ⟨h, h'⟩, rfl, rfl, rfl, by norm_num [controlledLine]⟩

theorem exists_adds_readyAt (start : Axis → ℝ) {target : Axis → ℝ} {i : Axis}
    (h : (inverse exactTrig target).InLimits)
    (hi : Planner.targetSteps millimetres (motors ready.kinematics target) i ≠
      Planner.targetSteps millimetres (motors ready.kinematics start) i) :
    ∃ block, Adds (readyAt start)
      ((readyAt start).mcLine realFloat exactTrig millimetres calm target controlledLine) block :=
  exists_adds rfl h ⟨rfl, rfl⟩ rfl ⟨rfl, rfl, rfl, rfl⟩ hi

/-- A lift by 50 mm is done at the programmed speed. -/
theorem programmedRate_lift : ∃ block, Adds (readyAt (reachingBack 80 60))
      ((readyAt (reachingBack 80 60)).mcLine realFloat exactTrig millimetres calm
        (reachingBack 80 110) controlledLine) block ∧
    getDistance (motors ready.kinematics (reachingBack 80 110))
        (motors ready.kinematics (reachingBack 80 60)) / block.programmedRate =
      pathLength (reachingBack 80 60) (reachingBack 80 110) / 600 := by
  have hstart : (inverse exactTrig (reachingBack 80 60)).InLimits := by
    apply inLimits_reachingBack <;> norm_num
  have htarget : (inverse exactTrig (reachingBack 80 110)).InLimits := by
    apply inLimits_reachingBack <;> norm_num
  obtain ⟨block, hb⟩ := exists_adds_readyAt (reachingBack 80 60) (i := .z) htarget (by
    obtain ⟨-, -, hz, -⟩ := motors_eq (k := ready.kinematics) rfl (reachingBack 80 60)
    obtain ⟨-, -, hz', -⟩ := motors_eq (k := ready.kinematics) rfl (reachingBack 80 110)
    rw [Planner.targetSteps_of_eq (n := 500), Planner.targetSteps_of_eq (n := 0)]
    · decide
    · rw [hz]
      norm_num [lift, reachingBack, l2, millimetres]
    · rw [hz']
      norm_num [lift, reachingBack, l2, millimetres])
  refine ⟨block, hb, ?_⟩
  have hne : reachingBack 80 60 ≠ reachingBack 80 110 := by
    intro h
    have hz := congrFun h .z
    norm_num [reachingBack] at hz
  exact (programmedRate_iff realFloat millimetres calm _ _ controlledLine _ block
    (controlled_readyAt hne hstart htarget) hb).mpr (lengthsAgree_vertical rfl rfl rfl)

/-- A line of 40 mm towards the base is done faster by a factor of √2 than programmed: both belts
move by 40 mm. -/
theorem not_programmedRate : ¬ ∀ (start target : Axis → ℝ) (plData : PlanLineData ℝ)
    (x : MotionControl ℝ) (block : PlanBlock ℝ), Controlled millimetres start target plData x →
    Adds x (x.mcLine realFloat exactTrig millimetres calm target plData) block →
    getDistance (motors x.kinematics target) (motors x.kinematics start) / block.programmedRate =
      pathLength start target / plData.feedRate := by
  intro h
  have hstart : (inverse exactTrig (reachingBack 80 60)).InLimits := by
    apply inLimits_reachingBack <;> norm_num
  have htarget : (inverse exactTrig (reachingBack 40 60)).InLimits := by
    apply inLimits_reachingBack <;> norm_num
  obtain ⟨block, hb⟩ := exists_adds_readyAt (reachingBack 80 60) (i := .x) htarget (by
    obtain ⟨hx, -⟩ := motors_eq (k := ready.kinematics) rfl (reachingBack 80 60)
    obtain ⟨hx', -⟩ := motors_eq (k := ready.kinematics) rfl (reachingBack 40 60)
    rw [Planner.targetSteps_of_eq (n := -500), Planner.targetSteps_of_eq (n := -100)]
    · decide
    · rw [hx, rail_reachingBack (by norm_num)]
      norm_num [reachingBack, l1, l3, millimetres]
    · rw [hx', rail_reachingBack (by norm_num)]
      norm_num [reachingBack, l1, l3, millimetres])
  have hne : reachingBack 80 60 ≠ reachingBack 40 60 := by
    intro hne
    have hx := congrFun hne .x
    norm_num [reachingBack] at hx
  have hc := controlled_readyAt hne hstart htarget
  have hagree := (programmedRate_iff realFloat millimetres calm _ _ controlledLine _ block hc
    hb).mp (h _ _ _ _ _ hc hb)
  unfold LengthsAgree at hagree
  rw [rail_reachingBack (by norm_num), rail_reachingBack (by norm_num),
    base_reachingBack (by norm_num), base_reachingBack (by norm_num)] at hagree
  norm_num [reachingBack, lift] at hagree

end MotionControl

end Inspector
