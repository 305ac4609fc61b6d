import Inspector.Numerals
import Inspector.Planner.Rounding

/-! # CoreXY

Both motors of a CoreXY machine move both of its axes. `corexy.c` halves the sum and the difference
of the motors' steps as integers, also where the position is a floating-point number, while its
transformation of coordinates halves them without a rest. Floats are exact. A sum of steps that does
not fit in an `int32_t` has no result.
-/

namespace Inspector

namespace CoreXY

variable {K : Type*} [Field K] [LinearOrder K] [FloorRing K]

/-- The numbers of an `int32_t`. -/
def InRange (n : ℤ) : Prop := -2 ^ 31 ≤ n ∧ n < 2 ^ 31

instance : DecidablePred InRange := fun _ => inferInstanceAs (Decidable (_ ∧ _))

def int32 (n : ℤ) : Option ℤ := if InRange n then some n else none

/-- The settings that are read, with one number of steps per mm for both axes; `pulloff` is what
`limits_homing_pulloff` points to. -/
structure Settings (K : Type*) [Field K] [LinearOrder K] where
  stepsPerMm : Axis → K
  maxTravel : Axis → K
  homingDirMask : Axis → Bool
  forceSetOrigin : Bool
  pulloff : Axis → K
  stepsPerMm_pos : ∀ i, 0 < stepsPerMm i
  stepsPerMm_eq : stepsPerMm .y = stepsPerMm .x

/-- `corexy_convert_to_a_motor_steps`. -/
def convertToAMotorSteps (steps : Axis → ℤ) : Option ℤ :=
  (int32 (steps .x + steps .y)).map (· / 2)

/-- `corexy_convert_to_b_motor_steps`. -/
def convertToBMotorSteps (steps : Axis → ℤ) : Option ℤ :=
  (int32 (steps .x - steps .y)).map (· / 2)

/-- `corexy_convert_array_steps_to_mpos`. -/
def convertArrayStepsToMpos (s : Settings K) (steps : Axis → ℤ) : Axis → Option K
  | .x => (convertToAMotorSteps steps).map fun n : ℤ => (n : K) / s.stepsPerMm .x
  | .y => (convertToBMotorSteps steps).map fun n : ℤ => (n : K) / s.stepsPerMm .y
  | idx => some (steps idx / s.stepsPerMm idx)

/-- `transform_from_cartesian`. -/
def transformFromCartesian (position : Axis → K) : Axis → K
  | .x => position .x + position .y
  | .y => position .x - position .y
  | idx => position idx

/-- The position of an axis at its limit switch. -/
def setAxisPosition (s : Settings K) (idx : Axis) : ℤ :=
  if s.homingDirMask idx then
    lroundf ((s.maxTravel idx + s.pulloff idx) * s.stepsPerMm idx)
  else lroundf (-s.pulloff idx * s.stepsPerMm idx)

/-- The steps of both motors. -/
def setMotors (position : Axis → ℤ) (a b : ℤ) : Axis → ℤ
  | .x => a
  | .y => b
  | idx => position idx

/-- One axis in `corexy_limits_set_machine_positions`. -/
def setPosition (s : Settings K) (position : Axis → ℤ) (idx : Axis) : Option (Axis → ℤ) :=
  if s.forceSetOrigin then
    match idx with
    | .x => do
      let a ← convertToBMotorSteps position
      let b ← int32 (-a)
      some (setMotors position a b)
    | .y => do
      let a ← convertToAMotorSteps position
      some (setMotors position a a)
    | idx => some (Function.update position idx 0)
  else do
    let setPos ← int32 (setAxisPosition s idx)
    match idx with
    | .x => do
      let off ← convertToBMotorSteps position
      let a ← int32 (setPos + off)
      let b ← int32 (setPos - off)
      some (setMotors position a b)
    | .y => do
      let off ← convertToAMotorSteps position
      let a ← int32 (off + setPos)
      let b ← int32 (off - setPos)
      some (setMotors position a b)
    | idx => some (Function.update position idx setPos)

/-- The axes of a cycle, one after the other. -/
def homeAxes (s : Settings K) (cycle : Axis → Bool) (axes : List Axis) (position : Axis → ℤ) :
    Option (Axis → ℤ) :=
  axes.foldlM (fun position idx => if cycle idx then setPosition s position idx else some position)
    position

/-- `corexy_limits_set_machine_positions`. -/
def setMachinePositions (s : Settings K) (cycle : Axis → Bool) (position : Axis → ℤ) :
    Option (Axis → ℤ) :=
  homeAxes s cycle Axis.down position

/-- The steps come back from the position that they are converted to. -/
def Lossless (s : Settings K) (steps : Axis → ℤ) : Prop :=
  ∃ mpos : Axis → K, (∀ i, convertArrayStepsToMpos s steps i = some (mpos i)) ∧
    ∀ i, lroundf (transformFromCartesian mpos i * s.stepsPerMm i) = steps i

/-- A cycle with one of the two axes, and any others. -/
def homes (y : Bool) (rest : Axis → Bool) : Axis → Bool
  | .x => !y
  | .y => y
  | idx => rest idx

/-- The one of the two axes that is not homed. -/
def other (y : Bool) : Axis := if y then .x else .y

/-- The axis that is not homed stays where it is. -/
def KeepsOther (s : Settings K) (y : Bool) (rest : Axis → Bool) (steps : Axis → ℤ) : Prop :=
  ∃ steps' v, setMachinePositions s (homes y rest) steps = some steps' ∧
    convertArrayStepsToMpos s steps (other y) = some v ∧
    convertArrayStepsToMpos s steps' (other y) = some v

theorem int32_eq_some_iff {n m : ℤ} : int32 n = some m ↔ InRange n ∧ n = m := by
  unfold int32
  split_ifs with h
  · rw [Option.some.injEq, and_iff_right h]
  · constructor
    · intro hnone
      cases hnone
    · rintro ⟨hin, -⟩
      exact absurd hin h

/-- Half of a number, where the number fits. -/
theorem map_half_eq_some_iff {n m : ℤ} :
    (int32 n).map (· / 2) = some m ↔ InRange n ∧ n / 2 = m := by
  simp only [Option.map_eq_some_iff, int32_eq_some_iff]
  constructor
  · rintro ⟨_, ⟨hin, rfl⟩, hhalf⟩
    exact ⟨hin, hhalf⟩
  · rintro ⟨hin, hhalf⟩
    exact ⟨n, ⟨hin, rfl⟩, hhalf⟩

/-- The double of a half has the half that it is made of. -/
theorem map_half_double {n m : ℤ} (h : InRange n) (hm : m = 2 * (n / 2)) :
    (int32 m).map (· / 2) = (int32 n).map (· / 2) := by
  have hin : InRange m := by
    unfold InRange at h ⊢
    omega
  rw [map_half_eq_some_iff.mpr ⟨h, rfl⟩, map_half_eq_some_iff]
  exact ⟨hin, by omega⟩

theorem convertToAMotorSteps_eq_some_iff {steps : Axis → ℤ} {n : ℤ} :
    convertToAMotorSteps steps = some n ↔
      InRange (steps .x + steps .y) ∧ (steps .x + steps .y) / 2 = n :=
  map_half_eq_some_iff

theorem convertToBMotorSteps_eq_some_iff {steps : Axis → ℤ} {n : ℤ} :
    convertToBMotorSteps steps = some n ↔
      InRange (steps .x - steps .y) ∧ (steps .x - steps .y) / 2 = n :=
  map_half_eq_some_iff

variable {s : Settings K} {steps steps' : Axis → ℤ} {a b : ℤ} {mpos : Axis → K}

omit [FloorRing K] in
theorem isSome_mpos (h : ∀ i, convertArrayStepsToMpos s steps i = some (mpos i)) :
    InRange (steps .x + steps .y) ∧ InRange (steps .x - steps .y) := by
  obtain ⟨n, hn, -⟩ := Option.map_eq_some_iff.mp (h .x)
  obtain ⟨m, hm, -⟩ := Option.map_eq_some_iff.mp (h .y)
  exact ⟨(convertToAMotorSteps_eq_some_iff.mp hn).1, (convertToBMotorSteps_eq_some_iff.mp hm).1⟩

omit [FloorRing K] in
/-- The position that the steps are converted to. -/
theorem mpos_eq (hsum : InRange (steps .x + steps .y)) (hdiff : InRange (steps .x - steps .y)) :
    (convertArrayStepsToMpos s steps .x =
      some ((((steps .x + steps .y) / 2 : ℤ) : K) / s.stepsPerMm .x)) ∧
    convertArrayStepsToMpos s steps .y =
      some ((((steps .x - steps .y) / 2 : ℤ) : K) / s.stepsPerMm .x) := by
  constructor
  · rw [convertArrayStepsToMpos, convertToAMotorSteps_eq_some_iff.mpr ⟨hsum, rfl⟩, Option.map_some]
  · rw [convertArrayStepsToMpos, convertToBMotorSteps_eq_some_iff.mpr ⟨hdiff, rfl⟩, Option.map_some,
      s.stepsPerMm_eq]

variable [IsStrictOrderedRing K]

/-- Half of the sum and half of the difference, each without its rest, are mixed again. -/
theorem lround_mixed (n m : ℤ) :
    lroundf (((n : K) / s.stepsPerMm .x + (m : K) / s.stepsPerMm .x) * s.stepsPerMm .x) = n + m ∧
      lroundf (((n : K) / s.stepsPerMm .x - (m : K) / s.stepsPerMm .x) * s.stepsPerMm .x) =
        n - m := by
  have hne := (s.stepsPerMm_pos .x).ne'
  constructor
  · rw [← add_div, div_mul_cancel₀ _ hne, ← Int.cast_add, lroundf_intCast]
  · rw [← sub_div, div_mul_cancel₀ _ hne, ← Int.cast_sub, lroundf_intCast]

/-- An axis that has a motor of its own. -/
theorem lround_axis (s : Settings K) (steps : Axis → ℤ) (i : Axis) :
    lroundf ((steps i : K) / s.stepsPerMm i * s.stepsPerMm i) = steps i := by
  rw [div_mul_cancel₀ _ (s.stepsPerMm_pos i).ne', lroundf_intCast]

theorem lossless_iff : Lossless s steps ↔
    InRange (steps .x + steps .y) ∧ InRange (steps .x - steps .y) ∧ 2 ∣ steps .x + steps .y := by
  constructor
  · rintro ⟨mpos, hmpos, hround⟩
    obtain ⟨hsum, hdiff⟩ := isSome_mpos hmpos
    obtain ⟨hx, hy⟩ := mpos_eq (s := s) hsum hdiff
    have hback := hround .x
    rw [transformFromCartesian, Option.some.inj ((hmpos .x).symm.trans hx),
      Option.some.inj ((hmpos .y).symm.trans hy), (lround_mixed _ _).1] at hback
    exact ⟨hsum, hdiff, by omega⟩
  · rintro ⟨hsum, hdiff, hparity⟩
    obtain ⟨hx, hy⟩ := mpos_eq (s := s) hsum hdiff
    let mpos : Axis → K := fun i => (convertArrayStepsToMpos s steps i).getD 0
    have hmx : mpos .x = _ := congrArg (Option.getD · 0) hx
    have hmy : mpos .y = _ := congrArg (Option.getD · 0) hy
    refine ⟨mpos, fun i => ?_, fun i => ?_⟩
    · cases i with
      | x => rw [hx, hmx, Option.getD_some]
      | y => rw [hy, hmy, Option.getD_some]
      | z => rfl
      | a => rfl
      | b => rfl
    · cases i with
      | x =>
        rw [transformFromCartesian, hmx, hmy]
        exact (lround_mixed _ _).1.trans (by omega)
      | y =>
        rw [transformFromCartesian, hmx, hmy, s.stepsPerMm_eq]
        exact (lround_mixed _ _).2.trans (by omega)
      | z => exact lround_axis s steps .z
      | a => exact lround_axis s steps .a
      | b => exact lround_axis s steps .b

section Homing

omit [IsStrictOrderedRing K]

/-- Half of the sum or the difference that the homing of the one axis keeps for the other one. -/
def offAxisPosition (y : Bool) (steps : Axis → ℤ) : ℤ :=
  if y then (steps .x + steps .y) / 2 else (steps .x - steps .y) / 2

/-- The sums that are formed by a homing cycle with one of the two axes. -/
structure Fits (s : Settings K) (y : Bool) (rest : Axis → Bool) (steps : Axis → ℤ) : Prop where
  off : InRange (if y then steps .x + steps .y else steps .x - steps .y)
  axes : s.forceSetOrigin = false → ∀ i, homes y rest i = true → InRange (setAxisPosition s i)
  a : s.forceSetOrigin = false →
    InRange (setAxisPosition s (if y then .y else .x) + offAxisPosition y steps)
  b : s.forceSetOrigin = false →
    InRange (if y then offAxisPosition y steps - setAxisPosition s .y
      else setAxisPosition s .x - offAxisPosition y steps)

/-- The half of a sum that fits, turned around. -/
theorem inRange_neg_half {n : ℤ} (h : InRange n) : InRange (-(n / 2)) := by
  unfold InRange at h ⊢
  omega

/-- The homing of the x-axis. -/
theorem setPosition_x_iff : setPosition s steps .x = some steps' ↔
    InRange (steps .x - steps .y) ∧
      if s.forceSetOrigin then
        steps' = setMotors steps (offAxisPosition false steps) (-offAxisPosition false steps)
      else InRange (setAxisPosition s .x) ∧
        InRange (setAxisPosition s .x + offAxisPosition false steps) ∧
        InRange (setAxisPosition s .x - offAxisPosition false steps) ∧
        steps' = setMotors steps (setAxisPosition s .x + offAxisPosition false steps)
          (setAxisPosition s .x - offAxisPosition false steps) := by
  unfold setPosition
  split_ifs with hforce <;>
    simp only [Option.bind_eq_bind, Option.bind_eq_some_iff, convertToBMotorSteps_eq_some_iff,
      int32_eq_some_iff, Option.some.injEq]
  · constructor
    · rintro ⟨_, ⟨hdiff, rfl⟩, _, ⟨-, rfl⟩, rfl⟩
      exact ⟨hdiff, rfl⟩
    · rintro ⟨hdiff, rfl⟩
      exact ⟨_, ⟨hdiff, rfl⟩, _, ⟨inRange_neg_half hdiff, rfl⟩, rfl⟩
  · constructor
    · rintro ⟨_, ⟨hset, rfl⟩, _, ⟨hdiff, rfl⟩, _, ⟨ha, rfl⟩, _, ⟨hb, rfl⟩, rfl⟩
      exact ⟨hdiff, hset, ha, hb, rfl⟩
    · rintro ⟨hdiff, hset, ha, hb, rfl⟩
      exact ⟨_, ⟨hset, rfl⟩, _, ⟨hdiff, rfl⟩, _, ⟨ha, rfl⟩, _, ⟨hb, rfl⟩, rfl⟩

/-- The homing of the y-axis. -/
theorem setPosition_y_iff : setPosition s steps .y = some steps' ↔
    InRange (steps .x + steps .y) ∧
      if s.forceSetOrigin then
        steps' = setMotors steps (offAxisPosition true steps) (offAxisPosition true steps)
      else InRange (setAxisPosition s .y) ∧
        InRange (offAxisPosition true steps + setAxisPosition s .y) ∧
        InRange (offAxisPosition true steps - setAxisPosition s .y) ∧
        steps' = setMotors steps (offAxisPosition true steps + setAxisPosition s .y)
          (offAxisPosition true steps - setAxisPosition s .y) := by
  unfold setPosition
  split_ifs with hforce <;>
    simp only [Option.bind_eq_bind, Option.bind_eq_some_iff, convertToAMotorSteps_eq_some_iff,
      int32_eq_some_iff, Option.some.injEq]
  · constructor
    · rintro ⟨_, ⟨hsum, rfl⟩, rfl⟩
      exact ⟨hsum, rfl⟩
    · rintro ⟨hsum, rfl⟩
      exact ⟨_, ⟨hsum, rfl⟩, rfl⟩
  · constructor
    · rintro ⟨_, ⟨hset, rfl⟩, _, ⟨hsum, rfl⟩, _, ⟨ha, rfl⟩, _, ⟨hb, rfl⟩, rfl⟩
      exact ⟨hsum, hset, ha, hb, rfl⟩
    · rintro ⟨hsum, hset, ha, hb, rfl⟩
      exact ⟨_, ⟨hset, rfl⟩, _, ⟨hsum, rfl⟩, _, ⟨ha, rfl⟩, _, ⟨hb, rfl⟩, rfl⟩

/-- An axis with a motor of its own. -/
theorem setPosition_rest_iff {i : Axis} (hx : i ≠ .x) (hy : i ≠ .y) :
    setPosition s steps i = some steps' ↔
      if s.forceSetOrigin then steps' = Function.update steps i 0
      else InRange (setAxisPosition s i) ∧
        steps' = Function.update steps i (setAxisPosition s i) := by
  unfold setPosition
  cases i with
  | x => exact absurd rfl hx
  | y => exact absurd rfl hy
  | z | a | b =>
    split_ifs with hforce
    · rw [Option.some.injEq, eq_comm]
    · simp only [Option.bind_eq_bind, Option.bind_eq_some_iff, int32_eq_some_iff,
        Option.some.injEq]
      constructor
      · rintro ⟨_, ⟨hset, rfl⟩, rfl⟩
        exact ⟨hset, rfl⟩
      · rintro ⟨hset, rfl⟩
        exact ⟨_, ⟨hset, rfl⟩, rfl⟩

/-- The axis that is not homed, behind the homing of the other one. -/
theorem keeps_off {y : Bool} (h : setPosition s steps (if y then .y else .x) = some steps') :
    InRange (if y then steps .x + steps .y else steps .x - steps .y) ∧
      convertArrayStepsToMpos s steps' (other y) = convertArrayStepsToMpos s steps (other y) := by
  cases y with
  | false =>
    obtain ⟨hdiff, hsteps⟩ := setPosition_x_iff.mp h
    have hdouble : steps' .x - steps' .y = 2 * ((steps .x - steps .y) / 2) := by
      split_ifs at hsteps
      · rw [hsteps]
        simp only [setMotors, offAxisPosition, Bool.false_eq_true, if_false]
        omega
      · rw [hsteps.2.2.2]
        simp only [setMotors, offAxisPosition, Bool.false_eq_true, if_false]
        omega
    have hhalf : convertToBMotorSteps steps' = convertToBMotorSteps steps :=
      map_half_double hdiff hdouble
    refine ⟨hdiff, ?_⟩
    change (convertToBMotorSteps steps').map _ = (convertToBMotorSteps steps).map _
    rw [hhalf]
  | true =>
    obtain ⟨hsum, hsteps⟩ := setPosition_y_iff.mp h
    have hdouble : steps' .x + steps' .y = 2 * ((steps .x + steps .y) / 2) := by
      split_ifs at hsteps
      · rw [hsteps]
        simp only [setMotors, offAxisPosition, if_true]
        omega
      · rw [hsteps.2.2.2]
        simp only [setMotors, offAxisPosition, if_true]
        omega
    have hhalf : convertToAMotorSteps steps' = convertToAMotorSteps steps :=
      map_half_double hsum hdouble
    refine ⟨hsum, ?_⟩
    change (convertToAMotorSteps steps').map _ = (convertToAMotorSteps steps).map _
    rw [hhalf]

theorem homeAxes_cons {cycle : Axis → Bool} {i : Axis} {l : List Axis} :
    homeAxes s cycle (i :: l) steps =
      (if cycle i then setPosition s steps i else some steps).bind (homeAxes s cycle l) := by
  rw [homeAxes, List.foldlM_cons]
  rfl

theorem homeAxes_append {cycle : Axis → Bool} {l l' : List Axis} :
    homeAxes s cycle (l ++ l') steps = (homeAxes s cycle l steps).bind (homeAxes s cycle l') := by
  unfold homeAxes
  rw [List.foldlM_append]
  rfl

theorem homeAxes_cons_of_pos {cycle : Axis → Bool} {i : Axis} {l : List Axis}
    (h : cycle i = true) :
    homeAxes s cycle (i :: l) steps = (setPosition s steps i).bind (homeAxes s cycle l) := by
  rw [homeAxes_cons, if_pos h]

theorem homeAxes_cons_of_neg {cycle : Axis → Bool} {i : Axis} {l : List Axis}
    (h : cycle i = false) :
    homeAxes s cycle (i :: l) steps = homeAxes s cycle l steps := by
  rw [homeAxes_cons, if_neg (Bool.eq_false_iff.mp h), Option.bind_some]

/-- Axes with motors of their own are set when their positions fit. -/
theorem homeAxes_rest {cycle : Axis → Bool} {l : List Axis} (hl : ∀ i ∈ l, i ≠ .x ∧ i ≠ .y) :
    (∃ steps', homeAxes s cycle l steps = some steps') ↔
      (s.forceSetOrigin = false → ∀ i ∈ l, cycle i = true → InRange (setAxisPosition s i)) := by
  induction l generalizing steps with
  | nil => exact iff_of_true ⟨steps, rfl⟩ fun _ i hi => absurd hi List.not_mem_nil
  | cons i l ih =>
    obtain ⟨hx, hy⟩ := hl i List.mem_cons_self
    have hl' : ∀ j ∈ l, j ≠ .x ∧ j ≠ .y := fun j hj => hl j (List.mem_cons_of_mem i hj)
    rw [homeAxes_cons]
    constructor
    · rintro ⟨steps', h⟩ hforce j hj hcycle
      obtain ⟨steps₁, hfirst, hrest⟩ := Option.bind_eq_some_iff.mp h
      rcases List.mem_cons.mp hj with rfl | hj
      · rw [if_pos hcycle] at hfirst
        have hset := (setPosition_rest_iff hx hy).mp hfirst
        rw [if_neg (Bool.eq_false_iff.mp hforce)] at hset
        exact hset.1
      · exact (ih hl').mp ⟨steps', hrest⟩ hforce j hj hcycle
    · intro h
      obtain ⟨steps₁, hfirst⟩ : ∃ steps₁,
          (if cycle i then setPosition s steps i else some steps) = some steps₁ := by
        split_ifs with hcycle
        · by_cases hforce : s.forceSetOrigin = true
          · exact ⟨_, (setPosition_rest_iff hx hy).mpr (by rw [if_pos hforce])⟩
          · refine ⟨Function.update steps i (setAxisPosition s i),
              (setPosition_rest_iff hx hy).mpr ?_⟩
            rw [if_neg hforce]
            exact ⟨h (Bool.eq_false_iff.mpr hforce) i List.mem_cons_self hcycle, rfl⟩
        · exact ⟨steps, rfl⟩
      obtain ⟨steps', hrest⟩ : ∃ steps', homeAxes s cycle l steps₁ = some steps' :=
        (ih hl').mpr fun hforce j hj => h hforce j (List.mem_cons_of_mem i hj)
      exact ⟨steps', by rw [hfirst]; exact hrest⟩

/-- They leave the two motors where they are. -/
theorem homeAxes_motors {cycle : Axis → Bool} {l : List Axis} (hl : ∀ i ∈ l, i ≠ .x ∧ i ≠ .y)
    (h : homeAxes s cycle l steps = some steps') : steps' .x = steps .x ∧ steps' .y = steps .y := by
  induction l generalizing steps with
  | nil =>
    cases h
    exact ⟨rfl, rfl⟩
  | cons i l ih =>
    obtain ⟨hx, hy⟩ := hl i List.mem_cons_self
    rw [homeAxes_cons] at h
    obtain ⟨steps₁, hfirst, hrest⟩ := Option.bind_eq_some_iff.mp h
    have hkept : steps₁ .x = steps .x ∧ steps₁ .y = steps .y := by
      split_ifs at hfirst with hcycle
      · have hset := (setPosition_rest_iff hx hy).mp hfirst
        split_ifs at hset
        · rw [hset, Function.update_of_ne hx.symm, Function.update_of_ne hy.symm]
          exact ⟨rfl, rfl⟩
        · rw [hset.2, Function.update_of_ne hx.symm, Function.update_of_ne hy.symm]
          exact ⟨rfl, rfl⟩
      · cases hfirst
        exact ⟨rfl, rfl⟩
    obtain ⟨hx', hy'⟩ := ih (fun j hj => hl j (List.mem_cons_of_mem i hj)) hrest
    exact ⟨hx'.trans hkept.1, hy'.trans hkept.2⟩

/-- The homing of the one of the two axes has a result when its sums fit. -/
theorem exists_setPosition_iff {y : Bool} :
    (∃ steps', setPosition s steps (if y then .y else .x) = some steps') ↔
      InRange (if y then steps .x + steps .y else steps .x - steps .y) ∧
        (s.forceSetOrigin = false → InRange (setAxisPosition s (if y then .y else .x)) ∧
          InRange (setAxisPosition s (if y then .y else .x) + offAxisPosition y steps) ∧
          InRange (if y then offAxisPosition y steps - setAxisPosition s .y
            else setAxisPosition s .x - offAxisPosition y steps)) := by
  cases y with
  | false =>
    simp only [Bool.false_eq_true, if_false, setPosition_x_iff]
    by_cases hforce : s.forceSetOrigin = true
    · simp [hforce]
    · simp [hforce]
  | true =>
    simp only [if_true, setPosition_y_iff, Int.add_comm (setAxisPosition s .y)]
    by_cases hforce : s.forceSetOrigin = true
    · simp [hforce]
    · simp [hforce]

/-- The axes that are homed in front of the two. -/
def ownMotors : List Axis := [.b, .a, .z]

theorem ne_of_mem_ownMotors : ∀ i ∈ ownMotors, i ≠ .x ∧ i ≠ .y := by
  decide

/-- A cycle homes the axes with motors of their own, and then the one of the two. -/
theorem setMachinePositions_eq (y : Bool) (rest : Axis → Bool) :
    setMachinePositions s (homes y rest) steps =
      (homeAxes s (homes y rest) ownMotors steps).bind fun steps =>
        setPosition s steps (if y then .y else .x) := by
  have hdown : Axis.down = ownMotors ++ [.y, .x] := rfl
  rw [setMachinePositions, hdown, homeAxes_append]
  congr 1
  funext steps
  cases y with
  | false =>
    rw [homeAxes_cons_of_neg rfl, homeAxes_cons_of_pos rfl]
    exact Option.bind_fun_some _
  | true =>
    rw [homeAxes_cons_of_pos rfl]
    refine (congrArg (Option.bind _) (funext fun steps => ?_)).trans (Option.bind_fun_some _)
    exact homeAxes_cons_of_neg rfl

omit [FloorRing K] in
theorem exists_mpos_other {y : Bool}
    (h : InRange (if y then steps .x + steps .y else steps .x - steps .y)) :
    ∃ v, convertArrayStepsToMpos s steps (other y) = some v := by
  cases y with
  | false =>
    exact ⟨_, congrArg (Option.map _) (convertToBMotorSteps_eq_some_iff.mpr ⟨h, rfl⟩)⟩
  | true =>
    exact ⟨_, congrArg (Option.map _) (convertToAMotorSteps_eq_some_iff.mpr ⟨h, rfl⟩)⟩

omit [FloorRing K] in
/-- Only the two motors move the two axes. -/
theorem mpos_congr {y : Bool} (hx : steps' .x = steps .x) (hy : steps' .y = steps .y) :
    convertArrayStepsToMpos s steps' (other y) = convertArrayStepsToMpos s steps (other y) := by
  cases y <;>
    simp only [other, Bool.false_eq_true, if_false, if_true, convertArrayStepsToMpos,
      convertToAMotorSteps, convertToBMotorSteps, hx, hy]

theorem keepsOther_iff {y : Bool} {rest : Axis → Bool} :
    KeepsOther s y rest steps ↔ Fits s y rest steps := by
  unfold KeepsOther
  rw [setMachinePositions_eq]
  constructor
  · rintro ⟨steps', v, hset, -⟩
    obtain ⟨steps₁, hrest, hxy⟩ := Option.bind_eq_some_iff.mp hset
    obtain ⟨hx, hy⟩ := homeAxes_motors ne_of_mem_ownMotors hrest
    have haxes := (homeAxes_rest ne_of_mem_ownMotors).mp ⟨steps₁, hrest⟩
    obtain ⟨hoff, hmotors⟩ := exists_setPosition_iff.mp ⟨steps', hxy⟩
    simp only [offAxisPosition, hx, hy] at hoff hmotors
    refine ⟨hoff, fun hforce i hi => ?_, fun hforce => (hmotors hforce).2.1,
      fun hforce => (hmotors hforce).2.2⟩
    by_cases hown : i ∈ ownMotors
    · exact haxes hforce i hown hi
    · have hone : i = if y then .y else .x := by
        cases i <;> cases y <;> first | rfl | cases hi | exact absurd (by decide) hown
      rw [hone]
      exact (hmotors hforce).1
  · intro h
    obtain ⟨steps₁, hrest⟩ : ∃ steps₁, homeAxes s (homes y rest) ownMotors steps = some steps₁ :=
      (homeAxes_rest ne_of_mem_ownMotors).mpr fun hforce i _ => h.axes hforce i
    obtain ⟨hx, hy⟩ := homeAxes_motors ne_of_mem_ownMotors hrest
    have hhomed : homes y rest (if y then .y else .x) = true := by
      cases y <;> rfl
    obtain ⟨steps', hset⟩ :
        ∃ steps', setPosition s steps₁ (if y then .y else .x) = some steps' := by
      rw [exists_setPosition_iff]
      simp only [offAxisPosition, hx, hy]
      exact ⟨h.off, fun hforce => ⟨h.axes hforce _ hhomed, h.a hforce, h.b hforce⟩⟩
    obtain ⟨-, hkeeps⟩ := keeps_off hset
    obtain ⟨v, hv⟩ := exists_mpos_other (s := s) h.off
    refine ⟨steps', v, by rw [hrest, Option.bind_some, hset], hv, ?_⟩
    rw [hkeeps, mpos_congr hx hy, hv]

end Homing

/-- The steps come back when the motors are at an even sum, and an axis stays where it is while the
other one is homed, as far as the sums fit. -/
theorem resync_iff (s : Settings K) (steps : Axis → ℤ) (y : Bool) (rest : Axis → Bool) :
    (Lossless s steps ↔ InRange (steps .x + steps .y) ∧ InRange (steps .x - steps .y) ∧
      2 ∣ steps .x + steps .y) ∧
    (KeepsOther s y rest steps ↔ Fits s y rest steps) :=
  ⟨lossless_iff, keepsOther_iff⟩

/-- A machine with 80 steps per mm. -/
def machine80 : Settings ℚ where
  stepsPerMm _ := 80
  maxTravel _ := -300
  homingDirMask _ := false
  forceSetOrigin := false
  pulloff _ := 1
  stepsPerMm_pos _ := by norm_num
  stepsPerMm_eq := rfl

theorem resync_iff_machine80 :
    Lossless machine80 (setMotors 0 3 1) ∧
      KeepsOther machine80 false (fun _ => false) (setMotors 0 3 1) :=
  ⟨(resync_iff machine80 (setMotors 0 3 1) false fun _ => false).1.mpr (by decide),
    (resync_iff machine80 (setMotors 0 3 1) false fun _ => false).2.mpr
      ⟨by decide, fun _ i => by cases i <;> decide +kernel, by decide +kernel, by decide +kernel⟩⟩

/-- One step of the one motor is lost. -/
theorem not_lossless : ¬Lossless machine80 (setMotors 0 1 0) := by
  intro h
  exact absurd (lossless_iff.mp h).2.2 (by decide)

end CoreXY

end Inspector
