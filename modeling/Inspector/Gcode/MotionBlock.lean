import Inspector.MotionControl.NamedJoints

/-! # A block with M100 and a motion

`gc_execute_block` fills in the target of a `G0` or `G1` while it checks the block, runs `M100`
afterwards and the motion last. An axis without a word so gets the position before the `M100`, and
keeps its place exactly when the `M100` does not move it. The offset of an axis and the line data
of the motion are inputs; rotation and scaling are not enabled.
-/

namespace Inspector

open Arm Joints Kinematics

/-- `MM_PER_INCH`. -/
def mmPerInch {K : Type*} [Field K] : K := 254 / 10

/-- The parts of `parser_block_t` that a `G0` or `G1` with an `M100` uses. The offset is the one of
`gc_get_block_offset`. -/
structure MotionBlock (K : Type*) where
  axisWords : Axis → Option K
  userMcode : Option (MotionControl.JointWords K)
  seek : Bool
  distanceIncremental : Bool
  absoluteOverride : Bool
  offset : Axis → K
  plData : PlanLineData K

namespace MotionBlock

variable {K : Type*} [Field K] [LinearOrder K]

/-- The target of the motion, from the parser position while the block is checked. -/
def target (block : MotionBlock K) (position : Axis → K) (i : Axis) : K :=
  match block.axisWords i with
  | none => position i
  | some value =>
    if block.absoluteOverride then value
    else if block.distanceIncremental then value + position i
    else value + block.offset i

/-- A motion without axis words is not executed. -/
def moves (block : MotionBlock K) : Bool := Axis.down.any fun i => (block.axisWords i).isSome

/-- The line data of the motion. -/
def planData (block : MotionBlock K) : PlanLineData K :=
  { block.plData with
    condition := { block.plData.condition with
      rapidMotion := block.seek || block.plData.condition.rapidMotion } }

end MotionBlock

namespace MotionControl

section Execute

variable {K : Type*} [Field K] [LinearOrder K] [IsStrictOrderedRing K] [FloorRing K]

/-- Step 9a of `gc_execute_block`: the user M-code, which is not run in check mode. -/
def executeUserMcode (m : FloatMath K) (trig : TrigMath K) (s : Settings K) (rt : Realtime K)
    (block : MotionBlock K) (x : MotionControl K) : MotionControl K :=
  match block.userMcode with
  | some words => if rt.checkMode then x else x.mcodeExecute m trig s rt words
  | none => x

/-- `gc_execute_block` for such a block; `rt` and `rt'` are what happens around the two moves. -/
def executeBlock (m : FloatMath K) (trig : TrigMath K) (s : Settings K) (rt rt' : Realtime K)
    (block : MotionBlock K) (x : MotionControl K) : MotionControl K :=
  let target := block.target x.gcPosition
  let x := x.executeUserMcode m trig s rt block
  if block.moves then x.executeLine m trig s rt' target block.planData else x

end Execute

/-- The axes without a word stay where the `M100` leaves them. -/
def KeepsPlace (m : FloatMath ℝ) (s : Settings ℝ) (rt rt' : Realtime ℝ) (block : MotionBlock ℝ)
    (x : MotionControl ℝ) : Prop :=
  ∀ i, block.axisWords i = none →
    (x.executeBlock m exactTrig s rt rt' block).gcPosition i =
      (x.executeUserMcode m exactTrig s rt block).gcPosition i

/-- The motors, in millimetres, after an `M100`. -/
noncomputable def motorsAfter (s : Settings ℝ) (rt : Realtime ℝ) (words : JointWords ℝ)
    (x : MotionControl ℝ) (i : Axis) : ℝ :=
  open Classical in
  (if Queues rt x then Planner.targetSteps s (motorTarget s words x.planner) i
    else x.planner.position i) / (s.axis i).stepsPerMm

/-- An `M100` does not move the tool along an axis. -/
def Leaves (s : Settings ℝ) (rt : Realtime ℝ) (words : JointWords ℝ) (x : MotionControl ℝ)
    (i : Axis) : Prop :=
  rt.checkMode = true ∨ transformToCartesian exactTrig (motorsAfter s rt words x) i = x.gcPosition i

variable {m : FloatMath ℝ} {s : Settings ℝ} {rt rt' : Realtime ℝ} {block : MotionBlock ℝ}
  {words : JointWords ℝ} {x : MotionControl ℝ}

theorem target_of_none {i : Axis} (hi : block.axisWords i = none) (position : Axis → ℝ) :
    block.target position i = position i := by
  simp [MotionBlock.target, hi]

theorem gcPosition_executeBlock (hmoves : block.moves = true) :
    (x.executeBlock m exactTrig s rt rt' block).gcPosition = block.target x.gcPosition := by
  simp only [executeBlock, hmoves, if_true]
  rfl

/-- The parser position after an `M100` is the pose of the motors then. -/
theorem gcPosition_mcodeExecute : (x.mcodeExecute m exactTrig s rt words).gcPosition =
    transformToCartesian exactTrig (motorsAfter s rt words x) := by
  obtain ⟨hpass, hstop⟩ := mcodeExecute_planner m s rt words x
  have hmotors : (x.mcodeExecute m exactTrig s rt words).planner.planGetPosition s =
      motorsAfter s rt words x := by
    ext i
    by_cases hq : Queues rt x
    · simp only [Planner.planGetPosition, (hpass hq).2, motorsAfter, if_pos hq]
    · simp only [Planner.planGetPosition, (hstop hq).2, motorsAfter, if_neg hq]
  rw [← hmotors]
  rfl

/-- In a block with an `M100` and a motion, the axes without a word stay where the `M100` moved
them to exactly when it does not move them. -/
theorem keepsPlace_iff (m : FloatMath ℝ) (s : Settings ℝ) (rt rt' : Realtime ℝ)
    (block : MotionBlock ℝ) (words : JointWords ℝ) (x : MotionControl ℝ)
    (hmcode : block.userMcode = some words) (hmoves : block.moves = true) :
    KeepsPlace m s rt rt' block x ↔ ∀ i, block.axisWords i = none → Leaves s rt words x i := by
  apply forall_congr'
  intro i
  apply imp_congr_right
  intro hi
  rw [gcPosition_executeBlock hmoves, target_of_none hi, executeUserMcode, hmcode]
  by_cases hcheck : rt.checkMode = true
  · simp [hcheck, Leaves]
  · simp [hcheck, Leaves, gcPosition_mcodeExecute, eq_comm]

/-- The parser is in step with the planner. -/
def Synced (s : Settings ℝ) (x : MotionControl ℝ) : Prop :=
  x.gcPosition = transformToCartesian exactTrig (x.planner.planGetPosition s)

/-- Only the height of the pose depends on the lift. -/
theorem transformToCartesian_congr {u v : Axis → ℝ} (hx : u .x = v .x) (hy : u .y = v .y)
    (ha : u .a = v .a) {i : Axis} (hi : i ≠ .z) :
    transformToCartesian exactTrig u i = transformToCartesian exactTrig v i := by
  cases i with
  | z => exact absurd rfl hi
  | _ => simp only [transformToCartesian, hx, hy, ha]

/-- An `M100` that names the lift alone leaves every axis but the vertical one. -/
theorem leaves_lift (hs : ∀ i, 0 < (s.axis i).stepsPerMm)
    (hxy : (s.axis .x).stepsPerMm = (s.axis .y).stepsPerMm) (hx : Synced s x)
    (hp : words.p = none) (hr : words.r = none) (hd : words.d = none) {i : Axis} (hi : i ≠ .z) :
    Leaves s rt words x i := by
  apply Or.inr
  rw [hx]
  by_cases hq : Queues rt x
  · have hkept := keeps_motorTarget words x.planner hs hxy
    obtain ⟨hbx, hby⟩ := hkept.belts hr hd
    apply transformToCartesian_congr _ _ _ hi
    · simp only [motorsAfter, if_pos hq, hbx, Planner.planGetPosition]
    · simp only [motorsAfter, if_pos hq, hby, Planner.planGetPosition]
    · simp only [motorsAfter, if_pos hq, hkept.base hp, Planner.planGetPosition]
  · have hmotors : motorsAfter s rt words x = x.planner.planGetPosition s := by
      ext i
      simp only [motorsAfter, if_neg hq, Planner.planGetPosition]
    rw [hmotors]

/-- An idle machine whose parser is in step with the planner. -/
noncomputable def readySynced : MotionControl ℝ :=
  { ready with
    gcPosition := transformToCartesian exactTrig (ready.planner.planGetPosition millimetres) }

/-- `M100 Q10` with a rapid motion along one axis to 20 mm. -/
noncomputable def liftAndMove (axis : Axis) : MotionBlock ℝ where
  axisWords i := if i = axis then some 20 else none
  userMcode := some ⟨none, some 10, none, none⟩
  seek := true
  distanceIncremental := false
  absoluteOverride := false
  offset _ := 0
  plData := ⟨0, 0, ⟨0, false, none⟩, {}, 0, none, []⟩

/-- With a word for the vertical axis the others stay in place. -/
theorem keepsPlace_liftAndMove :
    KeepsPlace realFloat millimetres calm calm (liftAndMove .z) readySynced := by
  apply (keepsPlace_iff realFloat millimetres calm calm (liftAndMove .z) _ readySynced rfl rfl).mpr
  intro i hi
  apply leaves_lift (s := millimetres) (x := readySynced) _ rfl rfl rfl rfl rfl
  · rintro rfl
    simp [liftAndMove] at hi
  · intro i
    norm_num [millimetres]

/-- `M100 Q10` with a motion along the first axis: the motion takes the lift back. -/
theorem not_keepsPlace : ¬ ∀ (block : MotionBlock ℝ) (x : MotionControl ℝ),
    block.userMcode.isSome = true → block.moves = true → Synced millimetres x →
    KeepsPlace realFloat millimetres calm calm block x := by
  intro h
  have hkeeps := h (liftAndMove .x) readySynced rfl rfl rfl
  have hleaves := (keepsPlace_iff realFloat millimetres calm calm (liftAndMove .x) _ readySynced
    rfl rfl).mp hkeeps .z (by simp [liftAndMove])
  have hq : Queues calm readySynced := ⟨fun _ => rfl, rfl, rfl, rfl, rfl⟩
  rcases hleaves with hcheck | hz
  · simp [calm] at hcheck
  · have hsteps : Planner.targetSteps millimetres
        (motorTarget millimetres ⟨none, some 10, none, none⟩ readySynced.planner) .z = 100 := by
      apply Planner.targetSteps_of_eq
      norm_num [motorTarget, jointTarget, millimetres]
    have hbelts := (keeps_motorTarget (s := millimetres) ⟨none, some 10, none, none⟩
      readySynced.planner (fun i => by norm_num [millimetres]) rfl).belts rfl rfl
    simp only [transformToCartesian, motorsAfter, if_pos hq, hsteps, hbelts.1, hbelts.2] at hz
    norm_num [readySynced, ready, Planner.planGetPosition, transformToCartesian, exactTrig,
      millimetres] at hz

end MotionControl

end Inspector
