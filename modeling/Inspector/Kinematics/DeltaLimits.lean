import Inspector.Kinematics.Delta

/-! # The travel limits of a delta robot

`delta_check_travel_limits` accepts a target in the cuboid, or one whose angles are in range. The
test whether a position has angles is the wrong way round: outside of the cuboid a position is
accepted only if it has none. Quotients by zero are infinite or not numbers, and comparisons with
what is not a number fail.
-/

namespace Inspector

open Spheres

/-- What a quotient of floating point numbers may be. An infinite one is kept without its sign. -/
inductive FloatNumber (K : Type*)
  | number (v : K)
  | infinite
  | notANumber
  deriving DecidableEq

namespace FloatNumber

variable {K : Type*}

/-- `isnan`. -/
def isnan : FloatNumber K → Bool
  | notANumber => true
  | _ => false

def toOption : FloatNumber K → Option K
  | number v => some v
  | _ => none

theorem eq_of_toOption {r : FloatNumber K} {v : K} (h : r.toOption = some v) : r = number v := by
  cases r with
  | number w =>
    cases h
    rfl
  | infinite => cases h
  | notANumber => cases h

section Order

variable [LinearOrder K]

/-- The comparison `r < low || r > high`. -/
def outside (low high : K) : FloatNumber K → Bool
  | number v => decide (v < low) || decide (v > high)
  | infinite => true
  | notANumber => false

/-- A number within bounds. -/
def Within (low high : K) (r : FloatNumber K) : Prop := ∃ v, r = number v ∧ low ≤ v ∧ v ≤ high

variable {low high v : K}

theorem outside_number : (number v).outside low high = false ↔ low ≤ v ∧ v ≤ high := by
  simp [outside]

theorem within_number : (number v).Within low high ↔ low ≤ v ∧ v ≤ high := by
  constructor
  · rintro ⟨_, ⟨⟩, h⟩
    exact h
  · exact fun h => ⟨v, rfl, h⟩

theorem Within.outside_eq {r : FloatNumber K} (h : r.Within low high) :
    r.outside low high = false := by
  obtain ⟨v, rfl, hv⟩ := h
  exact outside_number.mpr hv

end Order

section Field

variable [Field K] [DecidableEq K]

/-- A quotient, whose denominator may be zero. -/
def quotient (n d : K) : FloatNumber K :=
  if d = 0 then if n = 0 then notANumber else infinite else number (n / d)

end Field

end FloatNumber

namespace DeltaProperties

variable {K : Type*} [Field K] [LinearOrder K] (F : DeltaMath K) (m : DeltaProperties K)

/-- `delta_calcAngleYZ` for every position. At height zero the discriminant is not a number, and an
arm without a length has no angle. -/
def calcAngle (x0 y0 z0 : K) : Bool × FloatNumber K :=
  if z0 = 0 then (true, .notANumber)
  else
    let r := calcAngleYZ F m x0 y0 z0 0
    (r.1, if r.1 = true ∧ m.cfg.rf = 0 then .notANumber else .number r.2)

/-- `delta_calcInverse` for every position, with the angles of the three motors. -/
def angles (pos : Point K) : Bool × (Fin 3 → FloatNumber K) :=
  let a := calcAngle F m pos.x pos.y pos.z
  let b := calcAngle F m (pos.x * cos120 + pos.y * F.sin120) (pos.y * cos120 - pos.x * F.sin120)
    pos.z
  let c := calcAngle F m (pos.x * cos120 - pos.y * F.sin120) (pos.y * cos120 + pos.x * F.sin120)
    pos.z
  if a.1 = false then (false, ![a.2, .number 0, .number 0])
  else if b.1 = false then (false, ![a.2, b.2, .number 0])
  else (c.1, ![a.2, b.2, c.2])

/-- `transform_to_cartesian`, which tells infinite coordinates from those that are not numbers. -/
def position (q : Fin 3 → K) : Fin 3 → FloatNumber K :=
  let ⟨⟨_, y1, z1⟩, ⟨x2, y2, z2⟩, ⟨x3, y3, z3⟩⟩ := m.elbows F ⟨q 0, q 1, q 2⟩
  let dnm := (y2 - y1) * x3 - (y3 - y1) * x2
  let w1 := y1 * y1 + z1 * z1
  let w2 := x2 * x2 + y2 * y2 + z2 * z2
  let w3 := x3 * x3 + y3 * y3 + z3 * z3
  let a1 := (z2 - z1) * (y3 - y1) - (z3 - z1) * (y2 - y1)
  let b1 := -((w2 - w1) * (y3 - y1) - (w3 - w1) * (y2 - y1)) / 2
  let a2 := -(z2 - z1) * x3 + (z3 - z1) * x2
  let b2 := ((w2 - w1) * x3 - (w3 - w1) * x2) / 2
  let a := a1 * a1 + a2 * a2 + dnm * dnm
  let b := 2 * (a1 * b1 + a2 * (b2 - y1 * dnm) - z1 * dnm * dnm)
  let c := (b2 - y1 * dnm) * (b2 - y1 * dnm) + b1 * b1 + dnm * dnm * (z1 * z1 - m.reSqr)
  let d := b * b - 4 * a * c
  if d < 0 then fun _ => .notANumber
  else
    match FloatNumber.quotient (-(1 / 2) * (b + F.sqrtf d)) a with
    | .number z => ![.quotient (a1 * z + b1) dnm, .quotient (a2 * z + b2) dnm, .number z]
    | z => ![.notANumber, .notANumber, z]

variable {F m}

theorem calcAngle_eq {x0 y0 z0 : K} (hz : z0 ≠ 0) (hrf : m.cfg.rf ≠ 0) :
    calcAngle F m x0 y0 z0 =
      ((calcAngleYZ F m x0 y0 z0 0).1, .number (calcAngleYZ F m x0 y0 z0 0).2) := by
  rw [calcAngle, if_neg hz]
  dsimp only
  rw [if_neg fun h => hrf h.2]

/-- Off height zero the angles are those of the inverse kinematics. -/
theorem angles_eq {pos : Point K} (hz : pos.z ≠ 0) (hrf : m.cfg.rf ≠ 0) :
    angles F m pos = ((calcInverse F m pos).1, ![.number (calcInverse F m pos).2.a,
      .number (calcInverse F m pos).2.b, .number (calcInverse F m pos).2.c]) := by
  unfold angles calcInverse
  dsimp only
  rw [calcAngle_eq hz hrf, calcAngle_eq hz hrf, calcAngle_eq hz hrf]
  split_ifs <;> rfl

/-- At height zero the angles of all motors are not numbers, and none of them is missed. -/
theorem angles_of_zero {pos : Point K} (hz : pos.z = 0) :
    angles F m pos = (true, fun _ => .notANumber) := by
  unfold angles
  dsimp only
  rw [hz, calcAngle, if_pos rfl, calcAngle, if_pos rfl, calcAngle, if_pos rfl]
  refine Prod.ext rfl (funext fun i => ?_)
  fin_cases i <;> rfl

/-- The numbers among the coordinates are those of the forward kinematics. -/
theorem position_toOption (q : Fin 3 → K) :
    (⟨(position F m q 0).toOption, (position F m q 1).toOption, (position F m q 2).toOption⟩ :
      Target K) = transformToCartesian F m ⟨q 0, q 1, q 2⟩ := by
  have hquotient : ∀ n d : K, (FloatNumber.quotient n d).toOption = quotient n d := by
    intro n d
    unfold FloatNumber.quotient quotient
    split_ifs <;> rfl
  unfold position transformToCartesian
  generalize m.elbows F ⟨q 0, q 1, q 2⟩ = T
  obtain ⟨⟨x1, y1, z1⟩, ⟨x2, y2, z2⟩, ⟨x3, y3, z3⟩⟩ := T
  dsimp only
  split_ifs
  · rfl
  · rw [← hquotient]
    cases FloatNumber.quotient (-(1 / 2) * (_ + F.sqrtf _)) _ with
    | number z =>
      simp only [Matrix.cons_val_zero, Matrix.cons_val_one, Matrix.cons_val, hquotient]
      rfl
    | infinite => rfl
    | notANumber => rfl

end DeltaProperties

/-- What the limits of a delta robot are checked with: `machine`, the homed axes, the travels that
are set and `sys.work_envelope`, for three axes. -/
structure DeltaLimits (K : Type*) where
  machine : DeltaProperties K
  minAngle : Fin 3 → K
  maxAngle : Fin 3 → K
  limitToCuboid : Bool
  homed : Fin 3 → Bool
  maxTravel : Fin 3 → K
  envelopeMin : Fin 3 → K
  envelopeMax : Fin 3 → K

namespace DeltaLimits

open DeltaProperties

variable {K : Type*} [Field K] [LinearOrder K] (F : DeltaMath K) (s : DeltaLimits K)

/-- The axes as the loops come to them. -/
def axes : List (Fin 3) := [2, 1, 0]

/-- An axis that is homed and that has a travel. -/
def limits (i : Fin 3) : Bool := s.homed i && decide (s.maxTravel i < 0)

/-- `is_target_inside_cuboid` for a position. -/
def isTargetInsideCuboid (target : Fin 3 → FloatNumber K) : Bool :=
  axes.all fun i => !(s.limits i && (target i).outside (s.envelopeMin i) (s.envelopeMax i))

/-- `pos_ok`, which holds the third motor to the upper bound of the second. -/
def posOk (pos : Fin 3 → FloatNumber K) : Bool :=
  !((pos 0).outside (s.minAngle 0) (s.maxAngle 0) ||
    (pos 1).outside (s.minAngle 1) (s.maxAngle 1) ||
    (pos 2).outside (s.minAngle 2) (s.maxAngle 1))

/-- The last loop of `delta_check_travel_limits`. -/
def anglesInRange (pos : Fin 3 → FloatNumber K) : Bool :=
  axes.all fun i => !(s.limits i && (pos i).outside (s.minAngle i) (s.maxAngle i))

def point (p : Fin 3 → K) : Point K := ⟨p 0, p 1, p 2⟩

/-- `delta_check_travel_limits`. -/
def checkTravelLimits (target : Fin 3 → K) (isCartesian : Bool) : Bool :=
  if isCartesian then
    let pos := s.machine.angles F (point target)
    if s.isTargetInsideCuboid fun i => .number (target i) then true
    else if s.limitToCuboid then false
    else if pos.1 || !s.posOk pos.2 then false
    else s.anglesInRange pos.2
  else
    let pos := s.machine.position F target
    if (pos 0).isnan then false
    else if s.isTargetInsideCuboid pos then true
    else if s.limitToCuboid then false
    else s.anglesInRange fun i => .number (target i)

/-- The axes have been homed, they all have a travel, and the cuboid is not all there is. -/
structure Homed (s : DeltaLimits K) : Prop where
  homed : ∀ i, s.homed i = true
  travel : ∀ i, s.maxTravel i < 0
  cuboid : s.limitToCuboid = false

def InRange (r : Fin 3 → FloatNumber K) : Prop := ∀ i, (r i).Within (s.minAngle i) (s.maxAngle i)

/-- A position is accepted if it is in the cuboid or has angles in range, and its angles are
answered as it is. -/
structure Answers (p : Fin 3 → K) : Prop where
  cartesian : s.checkTravelLimits F p true = true ↔
    s.isTargetInsideCuboid (fun i => .number (p i)) = true ∨
      (s.machine.angles F (point p)).1 = true ∧ s.InRange (s.machine.angles F (point p)).2
  motors : ∀ q : Fin 3 → K, s.machine.angles F (point p) = (true, fun i => .number (q i)) →
    s.checkTravelLimits F q false = s.checkTravelLimits F p true

/-- The angles of a position in the cuboid have a position in the cuboid or are in range; those of
another position are not in range and have no position in the cuboid; and what is left behind for a
position without angles is not in range. -/
def Consistent (p : Fin 3 → K) : Prop :=
  let r := s.machine.angles F (point p)
  if s.isTargetInsideCuboid fun i => .number (p i) then
    ∀ q : Fin 3 → K, r = (true, fun i => .number (q i)) →
      (s.machine.position F q 0).isnan = false ∧
        (s.isTargetInsideCuboid (s.machine.position F q) = true ∨ s.InRange r.2)
  else if r.1 then
    ¬s.InRange r.2 ∧ ∀ q : Fin 3 → K, r = (true, fun i => .number (q i)) →
      (s.machine.position F q 0).isnan = true ∨
        s.isTargetInsideCuboid (s.machine.position F q) = false
  else s.posOk r.2 = false ∨ s.anglesInRange r.2 = false

variable {F s} {p q : Fin 3 → K}

theorem Homed.limits (h : s.Homed) (i : Fin 3) : s.limits i = true := by
  rw [DeltaLimits.limits, h.homed i, decide_eq_true (h.travel i)]
  rfl

theorem Homed.anglesInRange_iff (h : s.Homed) (q : Fin 3 → K) :
    s.anglesInRange (fun i => .number (q i)) = true ↔ s.InRange fun i => .number (q i) := by
  simp only [anglesInRange, h.limits, Bool.true_and, axes, List.all_cons, List.all_nil,
    Bool.and_true, Bool.and_eq_true, Bool.not_eq_true', FloatNumber.outside_number, InRange,
    FloatNumber.within_number, Fin.forall_fin_succ, Fin.forall_fin_zero]
  exact ⟨fun ⟨h2, h1, h0⟩ => ⟨h0, h1, h2, trivial⟩, fun ⟨h0, h1, h2, _⟩ => ⟨h2, h1, h0⟩⟩

theorem check_of_inside (h : s.isTargetInsideCuboid (fun i => .number (p i)) = true) :
    s.checkTravelLimits F p true = true := by
  rw [checkTravelLimits, if_pos rfl]
  dsimp only
  rw [if_pos h]

/-- Outside of the cuboid, a position is accepted by what is left behind when it has no angles. -/
theorem Homed.check_of_outside (h : s.Homed)
    (hout : s.isTargetInsideCuboid (fun i => .number (p i)) = false) :
    s.checkTravelLimits F p true = (!(s.machine.angles F (point p)).1 &&
      (s.posOk (s.machine.angles F (point p)).2 &&
        s.anglesInRange (s.machine.angles F (point p)).2)) := by
  rw [checkTravelLimits, if_pos rfl]
  dsimp only
  rw [if_neg (Bool.eq_false_iff.mp hout), if_neg (Bool.eq_false_iff.mp h.cuboid)]
  cases (s.machine.angles F (point p)).1 <;>
    cases s.posOk (s.machine.angles F (point p)).2 <;> rfl

theorem Homed.check_motors (h : s.Homed) (q : Fin 3 → K) :
    s.checkTravelLimits F q false = true ↔ (s.machine.position F q 0).isnan = false ∧
      (s.isTargetInsideCuboid (s.machine.position F q) = true ∨
        s.InRange fun i => .number (q i)) := by
  rw [← h.anglesInRange_iff q, checkTravelLimits, if_neg Bool.false_ne_true]
  dsimp only
  rw [if_neg (Bool.eq_false_iff.mp h.cuboid)]
  cases (s.machine.position F q 0).isnan <;>
    cases s.isTargetInsideCuboid (s.machine.position F q) <;> simp

theorem Homed.answers_of_inside (h : s.Homed)
    (hin : s.isTargetInsideCuboid (fun i => .number (p i)) = true) :
    s.Answers F p ↔ s.Consistent F p := by
  have hcheck := check_of_inside (F := F) hin
  unfold Consistent
  dsimp only
  rw [if_pos hin]
  constructor
  · intro hanswers q hq
    have hmotors := (hanswers.motors q hq).trans hcheck
    rw [hq]
    exact (h.check_motors q).mp hmotors
  · intro hconsistent
    refine ⟨iff_of_true hcheck (.inl hin), fun q hq => ?_⟩
    have hmotors := hconsistent q hq
    rw [hq] at hmotors
    rw [hcheck]
    exact (h.check_motors q).mpr hmotors

/-- Where the forward kinematics leads back to a position in the cuboid, the answers are right. -/
theorem Homed.answers_of_again (h : s.Homed)
    (hin : s.isTargetInsideCuboid (fun i => .number (p i)) = true)
    (hagain : ∀ q : Fin 3 → K, s.machine.angles F (point p) = (true, fun i => .number (q i)) →
      s.machine.position F q = fun i => .number (p i)) : s.Answers F p := by
  rw [h.answers_of_inside hin]
  unfold Consistent
  dsimp only
  rw [if_pos hin]
  intro q hq
  rw [hagain q hq]
  exact ⟨rfl, .inl hin⟩

theorem Homed.answers_of_found (h : s.Homed)
    (hout : s.isTargetInsideCuboid (fun i => .number (p i)) = false)
    (hfound : (s.machine.angles F (point p)).1 = true) : s.Answers F p ↔ s.Consistent F p := by
  have hcheck : s.checkTravelLimits F p true = false := by
    rw [h.check_of_outside hout, hfound]
    rfl
  unfold Consistent
  dsimp only
  rw [if_neg (Bool.eq_false_iff.mp hout), if_pos hfound]
  have hcartesian : (s.checkTravelLimits F p true = true ↔
      s.isTargetInsideCuboid (fun i => .number (p i)) = true ∨
        (s.machine.angles F (point p)).1 = true ∧ s.InRange (s.machine.angles F (point p)).2) ↔
      ¬s.InRange (s.machine.angles F (point p)).2 := by
    simp [hcheck, hout, hfound]
  have hmotors : ∀ q : Fin 3 → K,
      s.machine.angles F (point p) = (true, fun i => .number (q i)) →
      ¬s.InRange (s.machine.angles F (point p)).2 →
      (s.checkTravelLimits F q false = s.checkTravelLimits F p true ↔
        (s.machine.position F q 0).isnan = true ∨
          s.isTargetInsideCuboid (s.machine.position F q) = false) := by
    intro q hq hrange
    rw [hq] at hrange
    rw [hcheck, ← Bool.not_eq_true, h.check_motors q, or_iff_left hrange]
    simp [imp_iff_not_or]
  constructor
  · intro hanswers
    have hrange := hcartesian.mp hanswers.cartesian
    exact ⟨hrange, fun q hq => (hmotors q hq hrange).mp (hanswers.motors q hq)⟩
  · rintro ⟨hrange, hconsistent⟩
    exact ⟨hcartesian.mpr hrange, fun q hq => (hmotors q hq hrange).mpr (hconsistent q hq)⟩

theorem Homed.answers_of_lost (h : s.Homed)
    (hout : s.isTargetInsideCuboid (fun i => .number (p i)) = false)
    (hlost : (s.machine.angles F (point p)).1 = false) : s.Answers F p ↔ s.Consistent F p := by
  have hcheck := h.check_of_outside (F := F) hout
  rw [hlost] at hcheck
  unfold Consistent
  dsimp only
  rw [if_neg (Bool.eq_false_iff.mp hout), if_neg (Bool.eq_false_iff.mp hlost),
    ← Bool.and_eq_false_iff]
  constructor
  · intro hanswers
    have hcartesian := hanswers.cartesian
    rw [hcheck] at hcartesian
    simpa [hout, hlost] using hcartesian
  · intro hconsistent
    refine ⟨?_, fun q hq => ?_⟩
    · rw [hcheck, hconsistent]
      simp [hout, hlost]
    · rw [hq] at hlost
      cases hlost

/-- The check answers for a position and for its angles as it should exactly if they are
consistent. -/
theorem checksTravel_iff (h : s.Homed) (p : Fin 3 → K) : s.Answers F p ↔ s.Consistent F p := by
  cases hin : s.isTargetInsideCuboid fun i => .number (p i) with
  | true => exact h.answers_of_inside hin
  | false =>
    cases hfound : (s.machine.angles F (point p)).1 with
    | true => exact h.answers_of_found hin hfound
    | false => exact h.answers_of_lost hin hfound

section Home

/-- A robot that is homed with level arms. The cuboid begins below the home position. -/
noncomputable def levelRobot : DeltaLimits ℝ where
  machine := settingsChanged exactDelta straight
  minAngle := fun _ => 0
  maxAngle := fun _ => 1
  limitToCuboid := false
  homed := fun _ => true
  maxTravel := ![-2, -2, -1]
  envelopeMin := ![-1, -1, -6]
  envelopeMax := ![1, 1, -5]

theorem homed_levelRobot : levelRobot.Homed := by
  refine ⟨fun _ => rfl, fun i => ?_, rfl⟩
  fin_cases i <;> simp [levelRobot]

/-- The position of the end effector after homing. -/
def home : Fin 3 → ℝ := ![0, 0, -4]

/-- The angle of each arm when the end effector hangs straight below the base. -/
theorem calcAngleYZ_below {z a : ℝ} (ha : a = (z * z - 16) / (2 * z)) (hlt : a * a < 9) :
    calcAngleYZ exactDelta levelRobot.machine 0 0 z 0 =
      (true, Real.arctan (-a / √(9 - a * a))) := by
  obtain ⟨m, hmachine⟩ : ∃ m, m = settingsChanged exactDelta straight := ⟨_, rfl⟩
  have hm : m.Sized := hmachine ▸ sized_settingsChanged straight
  have hcfg : m.cfg = straight := by rw [hmachine]; rfl
  have hfe : m.fe = -m.y1 := by
    rw [hmachine]
    simp only [settingsChanged, straight]
    ring
  change calcAngleYZ exactDelta (settingsChanged exactDelta straight) 0 0 z 0 = _
  rw [← hmachine]
  have ha' : (0 * 0 + (0 - m.fe) * (0 - m.fe) + z * z + m.rfSqr - m.reSqr - m.y1Sqr) /
      (2 * z) = a := by
    rw [hm.rfSqr, hm.reSqr, hm.y1Sqr, hcfg, hfe, straight, ha]
    ring
  have hb : (m.y1 - (0 - m.fe)) / z = 0 := by
    rw [hfe]
    ring
  have hd : -(a + 0 * m.y1) * (a + 0 * m.y1) + m.cfg.rf * (0 * 0 * m.cfg.rf + m.cfg.rf) =
      9 - a * a := by
    rw [hcfg, straight]
    ring
  have hroot : 0 < √(9 - a * a) := Real.sqrt_pos.mpr (by linarith)
  have hyj : (m.y1 - a * 0 - exactDelta.sqrtf (9 - a * a)) / (0 * 0 + 1) =
      m.y1 - √(9 - a * a) := by
    change (m.y1 - a * 0 - √(9 - a * a)) / (0 * 0 + 1) = _
    ring
  unfold calcAngleYZ
  dsimp only
  rw [ha', hb, hd, hyj, if_neg (by linarith), if_neg (by linarith), add_zero, zero_mul, add_zero,
    sub_sub_cancel, atanQuotient, if_neg hroot.ne']
  rfl

theorem angles_below {z a : ℝ} (hz : z ≠ 0) (ha : a = (z * z - 16) / (2 * z))
    (hlt : a * a < 9) : levelRobot.machine.angles exactDelta (point ![0, 0, z]) =
      (true, fun _ => .number (Real.arctan (-a / √(9 - a * a)))) := by
  have hrf : levelRobot.machine.cfg.rf ≠ 0 := by
    change (3 : ℝ) ≠ 0
    norm_num
  have hinverse : calcInverse exactDelta levelRobot.machine ⟨0, 0, z⟩ =
      (true, ⟨Real.arctan (-a / √(9 - a * a)), Real.arctan (-a / √(9 - a * a)),
        Real.arctan (-a / √(9 - a * a))⟩) := by
    unfold calcInverse
    dsimp only
    simp only [zero_mul, add_zero, sub_zero, calcAngleYZ_below ha hlt, Bool.true_eq_false,
      if_false]
  change levelRobot.machine.angles exactDelta ⟨0, 0, z⟩ = _
  rw [angles_eq hz hrf, hinverse]
  refine Prod.ext rfl (funext fun i => ?_)
  fin_cases i <;> rfl

theorem angles_home :
    levelRobot.machine.angles exactDelta (point home) = (true, fun _ => .number 0) := by
  rw [home, angles_below (a := 0) (by norm_num) (by norm_num) (by norm_num)]
  simp

theorem home_outside :
    levelRobot.isTargetInsideCuboid (fun i => .number (home i)) = false := by
  rw [isTargetInsideCuboid, axes, List.all_cons, homed_levelRobot.limits, Bool.true_and]
  have hout : (FloatNumber.number (home 2)).outside (levelRobot.envelopeMin 2)
      (levelRobot.envelopeMax 2) = true := by
    change (decide ((-4 : ℝ) < -6) || decide ((-4 : ℝ) > -5)) = true
    norm_num
  rw [hout]
  rfl

/-- The home position is refused, although its angles are in range. -/
theorem not_answers_home : levelRobot.Homed ∧ ¬levelRobot.Answers exactDelta home := by
  refine ⟨homed_levelRobot, fun h => ?_⟩
  have hfound := angles_home
  have hcheck := homed_levelRobot.check_of_outside (F := exactDelta) home_outside
  rw [hfound] at hcheck
  have haccept := h.cartesian.mpr (.inr ⟨by rw [hfound], fun i => ?_⟩)
  · rw [haccept] at hcheck
    cases hcheck
  · rw [hfound]
    exact ⟨0, rfl, le_rfl, zero_le_one⟩

theorem checksTravel_iff_home :
    levelRobot.Answers exactDelta home ↔ levelRobot.Consistent exactDelta home :=
  checksTravel_iff homed_levelRobot home

end Home

section Reach

variable {s : DeltaLimits ℝ} {p : Fin 3 → ℝ}

/-- A position in the cuboid is answered as it should if it is the lower one of its angles and the
elbows, seen from above, are not on a line. -/
theorem Homed.answers_of_lower (h : s.Homed) (hm : s.machine.Sized) (hrf : s.machine.cfg.rf ≠ 0)
    (hz : p 2 ≠ 0) (hin : s.isTargetInsideCuboid (fun i => .number (p i)) = true)
    (hlow : (s.machine.elbows exactDelta (calcInverse exactDelta s.machine (point p)).2).IsLower
      (s.machine.cfg.re ^ 2) (point p))
    (hdet : (s.machine.elbows exactDelta
      (calcInverse exactDelta s.machine (point p)).2).det ≠ 0) :
    s.Answers exactDelta p := by
  refine h.answers_of_again hin fun q hq => ?_
  rw [angles_eq hz hrf, Prod.mk.injEq] at hq
  have hq' : (⟨q 0, q 1, q 2⟩ : MotorAngles ℝ) =
      (calcInverse exactDelta s.machine (point p)).2 := by
    have h0 := FloatNumber.number.inj (congrFun hq.2 0)
    have h1 := FloatNumber.number.inj (congrFun hq.2 1)
    have h2 := FloatNumber.number.inj (congrFun hq.2 2)
    rw [← h0, ← h1, ← h2]
  have hagain := position_toOption (F := exactDelta) (m := s.machine) q
  rw [hq', transformToCartesian_of_det hm hdet hlow] at hagain
  simp only [Target.ofPoint, Target.mk.injEq, point] at hagain
  refine funext fun i => ?_
  fin_cases i
  · exact FloatNumber.eq_of_toOption hagain.1
  · exact FloatNumber.eq_of_toOption hagain.2.1
  · exact FloatNumber.eq_of_toOption hagain.2.2

end Reach

end DeltaLimits

end Inspector
