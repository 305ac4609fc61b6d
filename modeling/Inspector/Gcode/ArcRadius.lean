import Inspector.Gcode.MotionBlock
import Inspector.Geometry.Chord
import Inspector.MotionControl.Arc

/-! # Arcs in radius format

`gc_execute_block` computes the centre of a `G2` or `G3` with an `R` word from the current position
and the target. The block is refused if no axis at all is to move, so that the two points may be
one in the plane; then the centre is a quotient by zero. Otherwise the centre is right, and
`mc_arc` goes the short way around it for a positive radius and the long way for a negative one,
unless the short way is so short that it is taken for a full circle.
-/

namespace Inspector

namespace ArcRadius

/-- The errors of a block in radius format. -/
inductive Status
  | gcodeNoAxisWords
  | gcodeNoAxisWordsInPlane
  | gcodeInvalidTarget
  | gcodeArcRadiusError
  deriving DecidableEq

/-- A `G2` or `G3` with an `R` word and without a `P` word. The target is the one that the axis
words give. -/
structure Block (K : Type*) where
  position : Axis → K
  target : Axis → K
  axisWords : Axis → Bool
  plane : Plane
  r : K
  clockwise : Bool
  unitsImperial : Bool

variable {K : Type*} [Field K] [LinearOrder K]

/-- A quotient of floats, unless it is infinite or no number. -/
def quotient (a b : K) : Option K := if b = 0 then none else some (a / b)

/-- `hypot_f`. -/
def hypot (m : TrigMath K) (x y : K) : K := m.sqrtf (x * x + y * y)

namespace Block

variable (b : Block K)

/-- The delta along the first axis of the plane. -/
def x : K := b.target b.plane.axis0 - b.position b.plane.axis0

/-- The delta along the second axis of the plane. -/
def y : K := b.target b.plane.axis1 - b.position b.plane.axis1

/-- The `R` word in millimetres. -/
def radius : K := if b.unitsImperial then b.r * mmPerInch else b.r

/-- The offset of the centre; none if it is no number. -/
def offset (m : TrigMath K) : Option (K × K) :=
  let h := quotient (-m.sqrtf (4 * b.radius * b.radius - b.x * b.x - b.y * b.y))
    (hypot m b.x b.y)
  let h := if b.clockwise then h else h.map (-·)
  let h := if b.radius < 0 then h.map (-·) else h
  h.map fun h => (1 / 2 * (b.x - b.y * h), 1 / 2 * (b.y + b.x * h))

/-- `gc_execute_block`: the offset of the centre and the radius for `mc_arc`. -/
def check (m : TrigMath K) : Except Status (Option (K × K) × K) :=
  if ∀ i ∈ Axis.down, b.axisWords i = false then .error .gcodeNoAxisWords
  else if b.axisWords b.plane.axis0 = false ∧ b.axisWords b.plane.axis1 = false then
    .error .gcodeNoAxisWordsInPlane
  else if ∀ i ∈ Axis.down, b.position i = b.target i then .error .gcodeInvalidTarget
  else if 4 * b.radius * b.radius - b.x * b.x - b.y * b.y < 0 then .error .gcodeArcRadiusError
  else .ok (b.offset m, if b.radius < 0 then -b.radius else b.radius)

/-- The call of `mc_arc`. -/
def call (offset : K × K) (radius : K) : Arc.Call K where
  target := b.target
  position := b.position
  offset i := if i = b.plane.axis0 then offset.1 else if i = b.plane.axis1 then offset.2 else 0
  radius := radius
  plane := b.plane
  turns := if b.clockwise then -1 else 1

end Block

/-- The arc that is meant: the centre has the distance of the radius from both ends, and the way
around it is the short one for a positive radius and the long one for a negative one. -/
def RadiusLaw (b : Block ℝ) (result : Option (ℝ × ℝ) × ℝ) : Prop :=
  ∃ offset, result.1 = some offset ∧
    Real.sqrt (offset.1 ^ 2 + offset.2 ^ 2) = |b.radius| ∧
    Real.sqrt ((b.x - offset.1) ^ 2 + (b.y - offset.2) ^ 2) = |b.radius| ∧
    (0 < b.radius → |(b.call offset result.2).angularTravel exactArc| ≤ Real.pi) ∧
    (b.radius < 0 → Real.pi ≤ |(b.call offset result.2).angularTravel exactArc|)

/-- The distance of the target in the plane. -/
noncomputable def Block.distance (b : Block ℝ) : ℝ := Real.sqrt (b.x ^ 2 + b.y ^ 2)

/-- The target is another point of the plane, for a positive radius farther away than the angle
that is taken for a full circle. -/
def Regular (b : Block ℝ) : Prop :=
  0 < b.distance ∧
    (0 < b.radius → 2 * b.radius * Real.sin (Arc.angularTravelEpsilon / 2) < b.distance)

variable {b : Block ℝ} {result : Option (ℝ × ℝ) × ℝ}

theorem check_ok (h : b.check exactTrig = .ok result) :
    b.x ^ 2 + b.y ^ 2 ≤ 4 * b.radius ^ 2 ∧ result = (b.offset exactTrig, |b.radius|) := by
  unfold Block.check at h
  split_ifs at h with hwords hplane htarget hradius hneg
  · obtain rfl := by simpa using h
    exact ⟨by linarith, by rw [abs_of_neg hneg]⟩
  · obtain rfl := by simpa using h
    exact ⟨by linarith, by rw [abs_of_nonneg (not_lt.mp hneg)]⟩

/-- The centre lies on the left of the chord if the turn is to the left and short, or to the right
and long. -/
noncomputable def Block.side (b : Block ℝ) : ℝ :=
  let h := Real.sqrt (4 * b.radius ^ 2 - (b.x ^ 2 + b.y ^ 2)) / b.distance
  if b.clockwise = decide (b.radius < 0) then h else -h

theorem distance_sq (b : Block ℝ) : b.distance ^ 2 = b.x ^ 2 + b.y ^ 2 :=
  Real.sq_sqrt (by positivity)

theorem offset_of_distance_pos (hd : 0 < b.distance) :
    b.offset exactTrig = some (Chord.center b.x b.y b.side) := by
  have hhypot : hypot exactTrig b.x b.y = b.distance := by
    simp [hypot, exactTrig, Block.distance, sq]
  have hroot : 4 * b.radius * b.radius - b.x * b.x - b.y * b.y =
      4 * b.radius ^ 2 - (b.x ^ 2 + b.y ^ 2) := by ring
  rw [Block.offset, hhypot, hroot, quotient, if_neg hd.ne']
  by_cases hcw : b.clockwise <;> by_cases hneg : b.radius < 0 <;>
    simp [Block.side, Chord.center, exactTrig, hcw, hneg, neg_div]

theorem offset_of_distance_eq_zero (hd : b.distance = 0) : b.offset exactTrig = none := by
  have hhypot : hypot exactTrig b.x b.y = 0 := by
    rw [← hd]
    simp [hypot, exactTrig, Block.distance, sq]
  simp [Block.offset, quotient, hhypot]

theorem spans_side (hd : 0 < b.distance) (hr : b.x ^ 2 + b.y ^ 2 ≤ 4 * b.radius ^ 2) :
    Chord.Spans b.x b.y b.side b.radius := by
  have hside : b.side ^ 2 = (4 * b.radius ^ 2 - (b.x ^ 2 + b.y ^ 2)) / b.distance ^ 2 := by
    unfold Block.side
    dsimp only
    split_ifs
    · rw [div_pow, Real.sq_sqrt (sub_nonneg.mpr hr)]
    · rw [neg_sq, div_pow, Real.sq_sqrt (sub_nonneg.mpr hr)]
  have hd2 : b.distance ^ 2 ≠ 0 := pow_ne_zero 2 hd.ne'
  rw [Chord.Spans, ← distance_sq, hside, distance_sq] at *
  field_simp
  ring

/-- The angle that `mc_arc` computes. -/
theorem angularTravel_call (b : Block ℝ) (h radius : ℝ) :
    (b.call (Chord.center b.x b.y h) radius).angularTravel exactArc =
      if b.clockwise then
        if Chord.angle b.x b.y h ≥ -Arc.angularTravelEpsilon then
          Chord.angle b.x b.y h - 2 * Real.pi
        else Chord.angle b.x b.y h
      else if Chord.angle b.x b.y h ≤ Arc.angularTravelEpsilon then
        Chord.angle b.x b.y h + 2 * Real.pi
      else Chord.angle b.x b.y h := by
  have hne : b.plane.axis1 ≠ b.plane.axis0 := b.plane.ne.symm
  have hrt : ∀ p t c : ℝ, t - (p - -c) = t - p - c := fun p t c => by ring
  have hangle : exactArc.atan2f
      ((b.call (Chord.center b.x b.y h) radius).rv.1 *
          (b.call (Chord.center b.x b.y h) radius).rt.2 -
        (b.call (Chord.center b.x b.y h) radius).rv.2 *
          (b.call (Chord.center b.x b.y h) radius).rt.1)
      ((b.call (Chord.center b.x b.y h) radius).rv.1 *
          (b.call (Chord.center b.x b.y h) radius).rt.1 +
        (b.call (Chord.center b.x b.y h) radius).rv.2 *
          (b.call (Chord.center b.x b.y h) radius).rt.2) = Chord.angle b.x b.y h := by
    rw [← Chord.angle_eq]
    simp only [Arc.Call.rt, Arc.Call.center, Arc.Call.rv, Block.call, if_true, if_neg hne, hrt]
    rfl
  rw [Arc.Call.angularTravel, hangle]
  cases hcw : b.clockwise <;> simp [Block.call, hcw, exactArc]

theorem epsilon_pos : (0 : ℝ) < Arc.angularTravelEpsilon := by norm_num [Arc.angularTravelEpsilon]

theorem epsilon_lt_pi : (Arc.angularTravelEpsilon : ℝ) < Real.pi := by
  have hε : (Arc.angularTravelEpsilon : ℝ) < 3 := by norm_num [Arc.angularTravelEpsilon]
  exact hε.trans Real.pi_gt_three

theorem side_nonneg (h : b.clockwise = decide (b.radius < 0)) : 0 ≤ b.side := by
  rw [Block.side, if_pos h]
  exact div_nonneg (Real.sqrt_nonneg _) (Real.sqrt_nonneg _)

theorem side_nonpos (h : b.clockwise ≠ decide (b.radius < 0)) : b.side ≤ 0 := by
  rw [Block.side, if_neg h]
  exact neg_nonpos.mpr (div_nonneg (Real.sqrt_nonneg _) (Real.sqrt_nonneg _))

/-- The angle of a centre on the left is positive. -/
theorem angle_nonneg (hd : 0 < b.x ^ 2 + b.y ^ 2) (h : 0 ≤ b.side) :
    0 ≤ Chord.angle b.x b.y b.side :=
  not_lt.mp fun hneg => absurd ((Chord.angle_neg_iff hd).mp hneg) (not_lt.mpr h)

/-- That of a centre on the right is negative, but over a diameter. -/
theorem angle_neg_or (hd : 0 < b.x ^ 2 + b.y ^ 2) (h : b.side ≤ 0) :
    Chord.angle b.x b.y b.side < 0 ∨ Chord.angle b.x b.y b.side = Real.pi := by
  rcases h.lt_or_eq with hneg | hzero
  · exact .inl ((Chord.angle_neg_iff hd).mpr hneg)
  · exact .inr (by rw [hzero, Chord.angle_zero hd])

/-- The way around for a positive radius is short unless it is taken for a full circle. -/
theorem abs_angularTravel_le_iff (hd : 0 < b.x ^ 2 + b.y ^ 2) (hr : 0 < b.radius) (radius : ℝ) :
    |(b.call (Chord.center b.x b.y b.side) radius).angularTravel exactArc| ≤ Real.pi ↔
      Arc.angularTravelEpsilon < |Chord.angle b.x b.y b.side| := by
  have hε := epsilon_pos
  have hεπ := epsilon_lt_pi
  obtain ⟨hlo, hhi⟩ := abs_le.mp (Polar.abs_angle_le_pi ((b.x ^ 2 + b.y ^ 2) / 2 * b.side)
    ((b.x ^ 2 + b.y ^ 2) / 4 * (b.side ^ 2 - 1)))
  change -Real.pi ≤ Chord.angle b.x b.y b.side at hlo
  change Chord.angle b.x b.y b.side ≤ Real.pi at hhi
  rw [angularTravel_call]
  cases hcw : b.clockwise with
  | false =>
    have hangle := angle_nonneg hd (side_nonneg (by simp [hcw, hr.le]))
    simp only [Bool.false_eq_true, if_false, abs_of_nonneg hangle]
    split_ifs with hle
    · rw [abs_of_nonneg (by linarith)]
      constructor <;> intro h <;> linarith
    · rw [abs_of_nonneg hangle]
      exact ⟨fun _ => not_le.mp hle, fun _ => hhi⟩
  | true =>
    simp only [if_true]
    rcases angle_neg_or hd (side_nonpos (by simp [hcw, hr.le])) with hangle | hangle
    · rw [abs_of_neg hangle]
      split_ifs with hge
      · rw [abs_of_neg (by linarith)]
        constructor <;> intro h <;> linarith
      · rw [abs_of_neg hangle]
        constructor <;> intro h <;> linarith
    · rw [hangle, if_pos (by linarith), abs_of_pos Real.pi_pos, abs_of_neg (by linarith)]
      constructor <;> intro h <;> linarith

/-- The way around for a negative radius is long. -/
theorem le_abs_angularTravel (hd : 0 < b.x ^ 2 + b.y ^ 2) (hr : b.radius < 0) (radius : ℝ) :
    Real.pi ≤ |(b.call (Chord.center b.x b.y b.side) radius).angularTravel exactArc| := by
  have hε := epsilon_pos
  have hεπ := epsilon_lt_pi
  have hpi := Real.pi_pos
  obtain ⟨hlo, hhi⟩ := abs_le.mp (Polar.abs_angle_le_pi ((b.x ^ 2 + b.y ^ 2) / 2 * b.side)
    ((b.x ^ 2 + b.y ^ 2) / 4 * (b.side ^ 2 - 1)))
  change -Real.pi ≤ Chord.angle b.x b.y b.side at hlo
  change Chord.angle b.x b.y b.side ≤ Real.pi at hhi
  rw [angularTravel_call]
  cases hcw : b.clockwise with
  | false =>
    simp only [Bool.false_eq_true, if_false]
    rcases angle_neg_or hd (side_nonpos (by simp [hcw, hr])) with hangle | hangle
    · rw [if_pos (by linarith), abs_of_nonneg (by linarith)]
      linarith
    · rw [hangle, if_neg (by linarith), abs_of_pos hpi]
  | true =>
    have hangle := angle_nonneg hd (side_nonneg (by simp [hcw, hr]))
    simp only [if_true]
    rw [if_pos (by linarith), abs_of_nonpos (by linarith)]
    linarith

/-- An accepted block describes the arc that is meant exactly if the target is another point of the
plane and the way to it is not taken for a full circle. -/
theorem radiusLaw_iff (h : b.check exactTrig = .ok result) : RadiusLaw b result ↔ Regular b := by
  obtain ⟨hr, rfl⟩ := check_ok h
  rcases (Real.sqrt_nonneg _ : 0 ≤ b.distance).eq_or_lt' with hd | hd
  · have hnone := offset_of_distance_eq_zero hd
    constructor
    · rintro ⟨offset, hsome, -⟩
      simp [hnone] at hsome
    · rintro ⟨hpos, -⟩
      exact absurd hd hpos.ne'
  · have hsome := offset_of_distance_pos hd
    have hspans := spans_side hd hr
    have hd2 : 0 < b.x ^ 2 + b.y ^ 2 := distance_sq b ▸ pow_pos hd 2
    have hlong := Chord.lt_abs_angle_iff hd2 hspans epsilon_pos.le epsilon_lt_pi.le
    constructor
    · rintro ⟨offset, hoffset, -, -, hpos, -⟩
      obtain rfl : Chord.center b.x b.y b.side = offset := by simpa [hsome] using hoffset
      refine ⟨hd, fun hr => ?_⟩
      have hlt := hlong.mp ((abs_angularTravel_le_iff hd2 hr _).mp (hpos hr))
      rwa [abs_of_pos hr] at hlt
    · rintro ⟨-, hpos⟩
      refine ⟨Chord.center b.x b.y b.side, hsome, ?_, ?_, fun hr => ?_, fun hr => ?_⟩
      · rw [Chord.center_start hspans, Real.sqrt_sq_eq_abs]
      · rw [Chord.center_end hspans, Real.sqrt_sq_eq_abs]
      · rw [abs_angularTravel_le_iff hd2 hr, hlong, abs_of_pos hr]
        exact hpos hr
      · exact le_abs_angularTravel hd2 hr _

/-- `G17 G2 X R1` from the origin, by a millimetre along one axis. -/
noncomputable def toward (i : Axis) : Block ℝ where
  position _ := 0
  target j := if j = i then 1 else 0
  axisWords j := j = .x || j = i
  plane := .xy
  r := 1
  clockwise := true
  unitsImperial := false

theorem check_toward (i : Axis) :
    (toward i).check exactTrig = .ok ((toward i).offset exactTrig, 1) := by
  have hwords : ¬ ∀ j ∈ Axis.down, (toward i).axisWords j = false :=
    fun h => by simpa [toward] using h .x (Axis.mem_down .x)
  have htarget : ¬ ∀ j ∈ Axis.down, (toward i).position j = (toward i).target j :=
    fun h => by simpa [toward] using h i (Axis.mem_down i)
  have hradius : ¬ 4 * (toward i).radius * (toward i).radius - (toward i).x * (toward i).x -
      (toward i).y * (toward i).y < 0 := by
    cases i <;> simp [toward, Block.radius, Block.x, Block.y, Plane.xy]
  rw [Block.check, if_neg hwords, if_neg (by simp [toward, Plane.xy]), if_neg htarget,
    if_neg hradius]
  norm_num [toward, Block.radius]

theorem radiusLaw_toward_x : RadiusLaw (toward .x) ((toward .x).offset exactTrig, 1) := by
  have hdistance : (toward .x).distance = 1 := by
    simp [Block.distance, toward, Block.x, Block.y, Plane.xy]
  have hsin : Real.sin (Arc.angularTravelEpsilon / 2) ≤ Arc.angularTravelEpsilon / 2 :=
    Real.sin_le (by norm_num [Arc.angularTravelEpsilon])
  refine (radiusLaw_iff (check_toward .x)).mpr ⟨by norm_num [hdistance], fun _ => ?_⟩
  rw [hdistance]
  norm_num [Arc.angularTravelEpsilon, toward, Block.radius] at hsin ⊢
  linarith

/-- `G17 G2 X0 Z1 R1` from the origin is accepted and has no centre. -/
theorem not_radiusLaw_toward_z : ∃ result, (toward .z).check exactTrig = .ok result ∧
    ¬ RadiusLaw (toward .z) result := by
  have hdistance : (toward .z).distance = 0 := by
    simp [Block.distance, toward, Block.x, Block.y, Plane.xy]
  refine ⟨_, check_toward .z, ?_⟩
  rintro ⟨offset, hsome, -⟩
  rw [offset_of_distance_eq_zero hdistance] at hsome
  cases hsome

end ArcRadius

end Inspector
