import Inspector.Geometry.Spheres
import Mathlib.Analysis.Normed.Group.AddTorsor
import Mathlib.Analysis.SpecialFunctions.Trigonometric.Arctan
import Mathlib.LinearAlgebra.AffineSpace.FiniteDimensional

/-! # The kinematics of a delta robot

`delta.c` takes a position of the end effector to the angles of three arms and back. The forearms
have one length, so that the end effector is where three spheres around the elbows meet, and it is
the lower of the two points. It is not found when the elbows are on a line seen from above.
-/

namespace Inspector

open Spheres

/-- The library functions and the constants that the kinematics uses. -/
structure DeltaMath (K : Type*) where
  sqrtf : K → K
  atanf : K → K
  cosf : K → K
  sinf : K → K
  pi : K
  sin120 : K
  tan60 : K
  tan30 : K

/-- The dimensions in `delta_settings_t`. -/
structure DeltaSettings (K : Type*) where
  rf : K
  re : K
  f : K
  e : K

/-- What `delta_properties_t` has of the dimensions. -/
structure DeltaProperties (K : Type*) where
  t : K
  y1 : K
  y1Sqr : K
  fe : K
  rfSqr : K
  reSqr : K
  cfg : DeltaSettings K

/-- The angles of the motors. -/
structure MotorAngles (K : Type*) where
  a : K
  b : K
  c : K

/-- A position some of whose coordinates may not be numbers. -/
structure Target (K : Type*) where
  x : Option K
  y : Option K
  z : Option K

def Target.ofPoint {K : Type*} (p : Point K) : Target K := ⟨some p.x, some p.y, some p.z⟩

namespace DeltaProperties

variable {K : Type*} [Field K] [LinearOrder K] (F : DeltaMath K)

/-- What `delta_settings_changed` computes of the dimensions. -/
def settingsChanged (cfg : DeltaSettings K) : DeltaProperties K :=
  let y1 := -(1 / 2) * F.tan30 * cfg.f
  { t := (cfg.f - cfg.e) * (F.tan30 / 2)
    y1 := y1
    y1Sqr := y1 * y1
    fe := 1 / 2 * F.tan30 * cfg.e
    rfSqr := cfg.rf * cfg.rf
    reSqr := cfg.re * cfg.re
    cfg := cfg }

/-- `atanf` of a quotient; a quotient by zero is infinite. -/
def atanQuotient (n d : K) : K :=
  if d = 0 then (if n < 0 then -(F.pi / 2) else F.pi / 2) else F.atanf (n / d)

variable (m : DeltaProperties K)

/-- `delta_calcAngleYZ`; the angle is left as it is when the point does not exist. -/
def calcAngleYZ (x0 y0 z0 theta : K) : Bool × K :=
  let y0 := y0 - m.fe
  let a := (x0 * x0 + y0 * y0 + z0 * z0 + m.rfSqr - m.reSqr - m.y1Sqr) / (2 * z0)
  let b := (m.y1 - y0) / z0
  let d := -(a + b * m.y1) * (a + b * m.y1) + m.cfg.rf * (b * b * m.cfg.rf + m.cfg.rf)
  if d < 0 then (false, theta)
  else
    let yj := (m.y1 - a * b - F.sqrtf d) / (b * b + 1)
    let zj := a + b * yj
    (true, atanQuotient F (-zj) (m.y1 - yj) + if m.y1 < yj then F.pi else 0)

/-- `COS120`. -/
def cos120 : K := -(1 / 2)

/-- `delta_calcInverse`. -/
def calcInverse (pos : Point K) : Bool × MotorAngles K :=
  let a := calcAngleYZ F m pos.x pos.y pos.z 0
  let b := calcAngleYZ F m (pos.x * cos120 + pos.y * F.sin120) (pos.y * cos120 - pos.x * F.sin120)
    pos.z 0
  let c := calcAngleYZ F m (pos.x * cos120 - pos.y * F.sin120) (pos.y * cos120 + pos.x * F.sin120)
    pos.z 0
  if a.1 = false then (false, ⟨a.2, 0, 0⟩)
  else if b.1 = false then (false, ⟨a.2, b.2, 0⟩)
  else (c.1, ⟨a.2, b.2, c.2⟩)

/-- The distance of an elbow from the axis of the robot. -/
def reach (angle : K) : K := m.t + m.cfg.rf * F.cosf angle

/-- The elbows in `transform_to_cartesian`. -/
def elbows (q : MotorAngles K) : Triangle K :=
  let y1 := -m.reach F q.a
  let y2 := m.reach F q.b * (1 / 2)
  let y3 := m.reach F q.c * (1 / 2)
  { c₁ := ⟨0, y1, -m.cfg.rf * F.sinf q.a⟩
    c₂ := ⟨y2 * F.tan60, y2, -m.cfg.rf * F.sinf q.b⟩
    c₃ := ⟨-y3 * F.tan60, y3, -m.cfg.rf * F.sinf q.c⟩ }

/-- A quotient, which is not a number or infinite when the denominator is zero. -/
def quotient (n d : K) : Option K := if d = 0 then none else some (n / d)

/-- `transform_to_cartesian`. -/
def transformToCartesian (q : MotorAngles K) : Target K :=
  let ⟨⟨_, y1, z1⟩, ⟨x2, y2, z2⟩, ⟨x3, y3, z3⟩⟩ := m.elbows F q
  let dnm := (y2 - y1) * x3 - (y3 - y1) * x2
  let w1 := y1 * y1 + z1 * z1
  let w2 := x2 * x2 + y2 * y2 + z2 * z2
  let w3 := x3 * x3 + y3 * y3 + z3 * z3
  let a1 := (z2 - z1) * (y3 - y1) - (z3 - z1) * (y2 - y1)
  let b1 := -((w2 - w1) * (y3 - y1) - (w3 - w1) * (y2 - y1)) / 2
  let a2 := -(z2 - z1) * x3 + (z3 - z1) * x2
  let b2 := ((w2 - w1) * x3 - (w3 - w1) * x2) / 2
  let a := a1 * a1 + a2 * a2 + dnm * dnm
  let b := 2 * (a1 * b1 + a2 * (b2 - y1 * dnm) - z1 * dnm * dnm)
  let c := (b2 - y1 * dnm) * (b2 - y1 * dnm) + b1 * b1 + dnm * dnm * (z1 * z1 - m.reSqr)
  let d := b * b - 4 * a * c
  if d < 0 then ⟨none, none, none⟩
  else
    let z := quotient (-(1 / 2) * (b + F.sqrtf d)) a
    { x := z.bind fun z => quotient (a1 * z + b1) dnm
      y := z.bind fun z => quotient (a2 * z + b2) dnm
      z := z }

end DeltaProperties

/-- The functions and the constants in exact arithmetic. -/
noncomputable def exactDelta : DeltaMath ℝ where
  sqrtf := Real.sqrt
  atanf := Real.arctan
  cosf := Real.cos
  sinf := Real.sin
  pi := Real.pi
  sin120 := √3 / 2
  tan60 := √3
  tan30 := 1 / √3

namespace DeltaProperties

section Arm

variable {r q s : ℝ}

theorem sqrt_one_add_div_sq (hr : 0 < r) (h : q ^ 2 + s ^ 2 = r ^ 2) (hq : q ≠ 0) :
    √(1 + (s / q) ^ 2) = r / |q| := by
  have hsq : 1 + (s / q) ^ 2 = (r / |q|) ^ 2 := by
    rw [div_pow, div_pow, sq_abs, ← h]
    field_simp
  rw [hsq, Real.sqrt_sq (div_nonneg hr.le (abs_nonneg q))]

/-- The angle of an arm is that of its end. -/
theorem polar_atanQuotient (hr : 0 < r) (h : q ^ 2 + s ^ 2 = r ^ 2) :
    r * Real.cos (atanQuotient exactDelta s q + if q < 0 then Real.pi else 0) = q ∧
      r * Real.sin (atanQuotient exactDelta s q + if q < 0 then Real.pi else 0) = s := by
  rcases eq_or_ne q 0 with rfl | hq
  · have hs : s = r ∨ s = -r := by
      apply sq_eq_sq_iff_eq_or_eq_neg.mp
      linarith
    rw [atanQuotient, if_pos rfl, if_neg (lt_irrefl 0), add_zero]
    rcases hs with rfl | rfl
    · rw [if_neg hr.not_gt]
      simp [exactDelta]
    · rw [if_pos (neg_lt_zero.mpr hr)]
      simp [exactDelta]
  · have hsqrt := sqrt_one_add_div_sq hr h hq
    have hcos : Real.cos (atanQuotient exactDelta s q) = |q| / r := by
      rw [atanQuotient, if_neg hq]
      change Real.cos (Real.arctan (s / q)) = _
      rw [Real.cos_arctan, hsqrt, one_div_div]
    have hsin : Real.sin (atanQuotient exactDelta s q) = s / q * (|q| / r) := by
      rw [atanQuotient, if_neg hq]
      change Real.sin (Real.arctan (s / q)) = _
      rw [Real.sin_arctan, hsqrt, div_div_eq_mul_div, mul_div_assoc]
    have hr' := hr.ne'
    split_ifs with hneg
    · rw [Real.cos_add_pi, Real.sin_add_pi, hcos, hsin, abs_of_neg hneg]
      constructor <;> field_simp
    · have hpos : 0 < q := lt_of_le_of_ne (not_lt.mp hneg) hq.symm
      rw [add_zero, hcos, hsin, abs_of_pos hpos]
      constructor <;> field_simp

end Arm

section Inverse

variable {m : DeltaProperties ℝ} {x0 y0 z0 theta : ℝ}

/-- What the dimensions of a machine have to do with each other. -/
structure Sized (m : DeltaProperties ℝ) : Prop where
  y1Sqr : m.y1Sqr = m.y1 * m.y1
  rfSqr : m.rfSqr = m.cfg.rf * m.cfg.rf
  reSqr : m.reSqr = m.cfg.re * m.cfg.re
  t : m.t = -m.y1 - m.fe

theorem sized_settingsChanged (cfg : DeltaSettings ℝ) : Sized (settingsChanged exactDelta cfg) := by
  refine ⟨rfl, rfl, rfl, ?_⟩
  simp only [settingsChanged]
  ring

/-- A root of the quadratic equation gives a point of the circle of an elbow. -/
theorem circle_eq {y1 a b rf d y : ℝ} (hd : 0 ≤ d)
    (heq : d = -(a + b * y1) * (a + b * y1) + rf * (b * b * rf + rf))
    (hy : y = (y1 - a * b - √d) / (b * b + 1)) : (y1 - y) ^ 2 + (-(a + b * y)) ^ 2 = rf ^ 2 := by
  have hpos : 0 < b * b + 1 := by
    have := mul_self_nonneg b
    linarith
  have hlin : y * (b * b + 1) = y1 - a * b - √d := (eq_div_iff hpos.ne').mp hy
  have hsq : √d * √d = d := Real.mul_self_sqrt hd
  apply mul_left_cancel₀ hpos.ne'
  linear_combination (y * (b * b + 1) - (y1 - a * b) - √d) * hlin + hsq + heq

/-- A point of the circle on a plane is at the distance that the plane is made for. -/
theorem plane_eq {x y z y1 rf re a b yj : ℝ} (hz : z ≠ 0)
    (ha : a = (x * x + y * y + z * z + rf * rf - re * re - y1 * y1) / (2 * z))
    (hb : b = (y1 - y) / z) (hcircle : (y1 - yj) ^ 2 + (-(a + b * yj)) ^ 2 = rf ^ 2) :
    x ^ 2 + (y - yj) ^ 2 + (z - (a + b * yj)) ^ 2 = re ^ 2 := by
  have ha' : a * (2 * z) = x * x + y * y + z * z + rf * rf - re * re - y1 * y1 :=
    (eq_div_iff (mul_ne_zero two_ne_zero hz)).mp ha
  have hb' : b * z = y1 - y := (eq_div_iff hz).mp hb
  linear_combination hcircle - ha' - 2 * yj * hb'

/-- The angle of an arm, from the place of its elbow. -/
theorem calcAngleYZ_polar {a b d yj : ℝ} (hrf : 0 < m.cfg.rf)
    (ha : a = (x0 * x0 + (y0 - m.fe) * (y0 - m.fe) + z0 * z0 + m.rfSqr - m.reSqr - m.y1Sqr) /
      (2 * z0))
    (hb : b = (m.y1 - (y0 - m.fe)) / z0)
    (hd : d = -(a + b * m.y1) * (a + b * m.y1) + m.cfg.rf * (b * b * m.cfg.rf + m.cfg.rf))
    (hy : yj = (m.y1 - a * b - √d) / (b * b + 1)) (hpos : 0 ≤ d) :
    (calcAngleYZ exactDelta m x0 y0 z0 theta).1 = true ∧
      m.cfg.rf * Real.cos (calcAngleYZ exactDelta m x0 y0 z0 theta).2 = m.y1 - yj ∧
      m.cfg.rf * Real.sin (calcAngleYZ exactDelta m x0 y0 z0 theta).2 = -(a + b * yj) := by
  have hcircle := circle_eq hpos hd hy
  have hpolar := polar_atanQuotient hrf hcircle
  simp only [sub_neg] at hpolar
  unfold calcAngleYZ
  dsimp only
  rw [← ha, ← hb, ← hd, if_neg hpos.not_gt]
  have hy' : (m.y1 - a * b - exactDelta.sqrtf d) / (b * b + 1) = yj := hy.symm
  rw [hy']
  exact ⟨rfl, hpolar⟩

/-- The elbow of an arm is as far from the end effector as the forearm is long. -/
theorem calcAngleYZ_spec (hm : m.Sized) (hrf : 0 < m.cfg.rf) (hz : z0 ≠ 0)
    (h : (calcAngleYZ exactDelta m x0 y0 z0 theta).1 = true) :
    x0 ^ 2 + (y0 + m.reach exactDelta (calcAngleYZ exactDelta m x0 y0 z0 theta).2) ^ 2 +
      (z0 + m.cfg.rf * Real.sin (calcAngleYZ exactDelta m x0 y0 z0 theta).2) ^ 2 = m.reSqr := by
  obtain ⟨a, ha⟩ : ∃ a, a = (x0 * x0 + (y0 - m.fe) * (y0 - m.fe) + z0 * z0 + m.rfSqr - m.reSqr -
    m.y1Sqr) / (2 * z0) := ⟨_, rfl⟩
  obtain ⟨b, hb⟩ : ∃ b, b = (m.y1 - (y0 - m.fe)) / z0 := ⟨_, rfl⟩
  obtain ⟨d, hd⟩ : ∃ d, d = -(a + b * m.y1) * (a + b * m.y1) +
    m.cfg.rf * (b * b * m.cfg.rf + m.cfg.rf) := ⟨_, rfl⟩
  have hpos : 0 ≤ d := by
    by_contra hneg
    unfold calcAngleYZ at h
    dsimp only at h
    rw [← ha, ← hb, ← hd, if_pos (not_le.mp hneg)] at h
    exact Bool.false_ne_true h
  obtain ⟨-, hcos, hsin⟩ := calcAngleYZ_polar hrf ha hb hd rfl hpos
  have hcircle := circle_eq hpos hd rfl
  rw [hm.rfSqr, hm.reSqr, hm.y1Sqr] at ha
  have hplane := plane_eq hz ha hb hcircle
  rw [hm.reSqr, hsin, reach, hm.t]
  change x0 ^ 2 + (y0 + (-m.y1 - m.fe + m.cfg.rf * Real.cos _)) ^ 2 + _ = _
  rw [hcos]
  linear_combination hplane

end Inverse

section RoundTrip

variable {m : DeltaProperties ℝ} {p : Point ℝ}

/-- The elbows as the arms see them, each of which a third of a turn brings in front. -/
theorem sqDist_elbows (m : DeltaProperties ℝ) (q : MotorAngles ℝ) (p : Point ℝ) :
    sqDist (m.elbows exactDelta q).c₁ p =
      p.x ^ 2 + (p.y + m.reach exactDelta q.a) ^ 2 + (p.z + m.cfg.rf * Real.sin q.a) ^ 2 ∧
    sqDist (m.elbows exactDelta q).c₂ p =
      (p.x * cos120 + p.y * exactDelta.sin120) ^ 2 +
        (p.y * cos120 - p.x * exactDelta.sin120 + m.reach exactDelta q.b) ^ 2 +
        (p.z + m.cfg.rf * Real.sin q.b) ^ 2 ∧
    sqDist (m.elbows exactDelta q).c₃ p =
      (p.x * cos120 - p.y * exactDelta.sin120) ^ 2 +
        (p.y * cos120 + p.x * exactDelta.sin120 + m.reach exactDelta q.c) ^ 2 +
        (p.z + m.cfg.rf * Real.sin q.c) ^ 2 := by
  have hsq : √3 * √3 = (3 : ℝ) := Real.mul_self_sqrt (by norm_num)
  simp only [sqDist, elbows, cos120]
  generalize m.reach exactDelta q.a = a
  generalize m.reach exactDelta q.b = b
  generalize m.reach exactDelta q.c = c
  simp only [exactDelta]
  refine ⟨by ring, ?_, ?_⟩
  · linear_combination (b ^ 2 / 4 - (p.x ^ 2 + p.y ^ 2) / 4) * hsq
  · linear_combination (c ^ 2 / 4 - (p.x ^ 2 + p.y ^ 2) / 4) * hsq

/-- The angles of the inverse put all elbows at the distance of the forearms. -/
theorem shares_calcInverse (hm : m.Sized) (hrf : 0 < m.cfg.rf) (hz : p.z < 0)
    (h : (calcInverse exactDelta m p).1 = true) :
    (m.elbows exactDelta (calcInverse exactDelta m p).2).Shares (m.cfg.re ^ 2) p := by
  have hre : m.reSqr = m.cfg.re ^ 2 := by
    rw [hm.reSqr]
    ring
  unfold calcInverse at h ⊢
  dsimp only at h ⊢
  split_ifs at h ⊢ with ha hb
  rw [← hre]
  refine ⟨?_, ?_, ?_⟩
  · rw [(sqDist_elbows m _ p).1]
    exact calcAngleYZ_spec hm hrf hz.ne ((Bool.not_eq_false _).mp ha)
  · rw [(sqDist_elbows m _ p).2.1]
    exact calcAngleYZ_spec hm hrf hz.ne ((Bool.not_eq_false _).mp hb)
  · rw [(sqDist_elbows m _ p).2.2]
    exact calcAngleYZ_spec hm hrf hz.ne h

/-- The forward kinematics finds where the spheres around the elbows meet. -/
theorem transformToCartesian_eq (hm : m.Sized) (q : MotorAngles ℝ) :
    transformToCartesian exactDelta m q =
      let T := m.elbows exactDelta q
      let d := discrim T.qa T.qb (T.qc (m.cfg.re ^ 2))
      let z := quotient (-(1 / 2) * (T.qb + √d)) T.qa
      if d < 0 then ⟨none, none, none⟩
      else
        ⟨z.bind fun z => quotient (T.xSlope * z + T.xStart) T.det,
          z.bind fun z => quotient (T.ySlope * z + T.yStart) T.det, z⟩ := by
  have hfirst : (m.elbows exactDelta q).c₁.x = 0 := rfl
  unfold transformToCartesian
  generalize m.elbows exactDelta q = T at hfirst ⊢
  obtain ⟨⟨x1, y1, z1⟩, ⟨x2, y2, z2⟩, ⟨x3, y3, z3⟩⟩ := T
  obtain rfl : x1 = 0 := hfirst
  dsimp only
  obtain ⟨T, hT⟩ : ∃ T : Triangle ℝ, T = ⟨⟨0, y1, z1⟩, ⟨x2, y2, z2⟩, ⟨x3, y3, z3⟩⟩ := ⟨_, rfl⟩
  have hdet : (y2 - y1) * x3 - (y3 - y1) * x2 = T.det := by
    simp only [hT, Triangle.det, sub_zero]
  have hxSlope : (z2 - z1) * (y3 - y1) - (z3 - z1) * (y2 - y1) = T.xSlope := by
    simp only [hT, Triangle.xSlope]
  have hySlope : -(z2 - z1) * x3 + (z3 - z1) * x2 = T.ySlope := by
    simp only [hT, Triangle.ySlope, sub_zero]
  have hxStart : -((x2 * x2 + y2 * y2 + z2 * z2 - (y1 * y1 + z1 * z1)) * (y3 - y1) -
      (x3 * x3 + y3 * y3 + z3 * z3 - (y1 * y1 + z1 * z1)) * (y2 - y1)) / 2 = T.xStart := by
    simp only [hT, Triangle.xStart, Triangle.sqNorm]
    ring
  have hyStart : ((x2 * x2 + y2 * y2 + z2 * z2 - (y1 * y1 + z1 * z1)) * x3 -
      (x3 * x3 + y3 * y3 + z3 * z3 - (y1 * y1 + z1 * z1)) * x2) / 2 = T.yStart := by
    simp only [hT, Triangle.yStart, Triangle.sqNorm]
    ring
  have hx : T.c₁.x = 0 := by rw [hT]
  have hy : T.c₁.y = y1 := by rw [hT]
  have hz : T.c₁.z = z1 := by rw [hT]
  rw [← hT, hdet, hxSlope, hySlope, hxStart, hyStart]
  have ha : T.xSlope * T.xSlope + T.ySlope * T.ySlope + T.det * T.det = T.qa := by
    rw [Triangle.qa]
    ring
  have hb : 2 * (T.xSlope * T.xStart + T.ySlope * (T.yStart - y1 * T.det) - z1 * T.det * T.det) =
      T.qb := by
    rw [Triangle.qb, hx, hy, hz]
    ring
  have hc : (T.yStart - y1 * T.det) * (T.yStart - y1 * T.det) + T.xStart * T.xStart +
      T.det * T.det * (z1 * z1 - m.reSqr) = T.qc (m.cfg.re ^ 2) := by
    rw [Triangle.qc, hx, hy, hz, hm.reSqr]
    ring
  have hd : T.qb * T.qb - 4 * T.qa * T.qc (m.cfg.re ^ 2) =
      discrim T.qa T.qb (T.qc (m.cfg.re ^ 2)) := by
    rw [discrim]
    ring
  rw [ha, hb, hc, hd]
  rfl

/-- The angles of a position put the elbows at the distance of the forearms from it, and it is found
again when it is the lower one of the two. -/
def RoundTrips (m : DeltaProperties ℝ) (p : Point ℝ) : Prop :=
  (m.elbows exactDelta (calcInverse exactDelta m p).2).Shares (m.cfg.re ^ 2) p ∧
  ((m.elbows exactDelta (calcInverse exactDelta m p).2).IsLower (m.cfg.re ^ 2) p →
    transformToCartesian exactDelta m (calcInverse exactDelta m p).2 = Target.ofPoint p)

theorem transformToCartesian_of_det (hm : m.Sized) {q : MotorAngles ℝ}
    (hdet : (m.elbows exactDelta q).det ≠ 0)
    (hlow : (m.elbows exactDelta q).IsLower (m.cfg.re ^ 2) p) :
    transformToCartesian exactDelta m q = Target.ofPoint p := by
  obtain ⟨hdiscrim, hp⟩ := hlow.eq hdet
  have hqa := Triangle.qa_pos hdet
  rw [transformToCartesian_eq hm q]
  generalize m.elbows exactDelta q = T at hdet hp hdiscrim hqa
  dsimp only
  have hroot : (-T.qb - √(discrim T.qa T.qb (T.qc (m.cfg.re ^ 2)))) / (2 * T.qa) =
      -(1 / 2) * (T.qb + √(discrim T.qa T.qb (T.qc (m.cfg.re ^ 2)))) / T.qa := by
    field_simp
    ring
  rw [if_neg hdiscrim.not_gt, quotient, if_neg hqa.ne', hp, hroot]
  simp only [Target.ofPoint, Triangle.at', quotient, if_neg hdet, Option.bind_some]

theorem transformToCartesian_of_flat (hm : m.Sized) {q : MotorAngles ℝ}
    (hdet : (m.elbows exactDelta q).det = 0) :
    transformToCartesian exactDelta m q ≠ Target.ofPoint p := by
  intro h
  have hx := congrArg Target.x h
  rw [transformToCartesian_eq hm q] at hx
  dsimp only at hx
  simp only [quotient, if_pos hdet] at hx
  split_ifs at hx <;> simp [Target.ofPoint] at hx

/-- A position is found again exactly if it is not the lower one or the elbows, seen from above, are
not on a line. -/
theorem roundTrips_iff {cfg : DeltaSettings ℝ} (hrf : 0 < cfg.rf) (hz : p.z < 0)
    (h : (calcInverse exactDelta (settingsChanged exactDelta cfg) p).1 = true) :
    RoundTrips (settingsChanged exactDelta cfg) p ↔
      (((settingsChanged exactDelta cfg).elbows exactDelta
        (calcInverse exactDelta (settingsChanged exactDelta cfg) p).2).IsLower (cfg.re ^ 2) p →
      ((settingsChanged exactDelta cfg).elbows exactDelta
        (calcInverse exactDelta (settingsChanged exactDelta cfg) p).2).det ≠ 0) := by
  have hm := sized_settingsChanged cfg
  constructor
  · intro hround hlow hdet
    exact transformToCartesian_of_flat hm hdet (hround.2 hlow)
  · intro hdet
    exact ⟨shares_calcInverse hm hrf hz h, fun hlow =>
      transformToCartesian_of_det hm (hdet hlow) hlow⟩

end RoundTrip

section Straight

/-- A robot whose arms are level when the end effector hangs straight below. -/
def straight : DeltaSettings ℝ := ⟨3, 5, 1, 1⟩

theorem calcAngleYZ_straight :
    (calcAngleYZ exactDelta (settingsChanged exactDelta straight) 0 0 (-4) 0).1 = true := by
  obtain ⟨m, hmachine⟩ : ∃ m, m = settingsChanged exactDelta straight := ⟨_, rfl⟩
  have hm : m.Sized := hmachine ▸ sized_settingsChanged straight
  have hcfg : m.cfg = straight := by rw [hmachine]; rfl
  have hfe : m.fe = -m.y1 := by
    rw [hmachine]
    simp only [settingsChanged, straight]
    ring
  have ha : (0 : ℝ) = (0 * 0 + (0 - m.fe) * (0 - m.fe) + -4 * -4 + m.rfSqr - m.reSqr - m.y1Sqr) /
      (2 * -4) := by
    rw [hm.rfSqr, hm.reSqr, hm.y1Sqr, hcfg, hfe, straight]
    ring
  have hb : (0 : ℝ) = (m.y1 - (0 - m.fe)) / -4 := by
    rw [hfe]
    ring
  have hd : (9 : ℝ) = -(0 + 0 * m.y1) * (0 + 0 * m.y1) +
      m.cfg.rf * (0 * 0 * m.cfg.rf + m.cfg.rf) := by
    rw [hcfg, straight]
    norm_num
  rw [← hmachine]
  exact (calcAngleYZ_polar (by rw [hcfg, straight]; norm_num) ha hb hd rfl (by norm_num)).1

theorem roundTrips_iff_straight :
    RoundTrips (settingsChanged exactDelta straight) ⟨0, 0, -4⟩ ↔
      (((settingsChanged exactDelta straight).elbows exactDelta
        (calcInverse exactDelta (settingsChanged exactDelta straight) ⟨0, 0, -4⟩).2).IsLower
          (straight.re ^ 2) ⟨0, 0, -4⟩ →
      ((settingsChanged exactDelta straight).elbows exactDelta
        (calcInverse exactDelta (settingsChanged exactDelta straight) ⟨0, 0, -4⟩).2).det ≠ 0) := by
  refine roundTrips_iff (by norm_num [straight]) (by norm_num) ?_
  have hfound := calcAngleYZ_straight
  simp only [calcInverse, zero_mul, add_zero, sub_zero, hfound, Bool.true_eq_false, if_false]

end Straight

section Singular

/-- An end effector that is wider than the base. -/
noncomputable def wideEffector : DeltaSettings ℝ := ⟨50, 36, 24 * √3, 32 * √3⟩

/-- A position straight above the elbow of an arm. -/
noncomputable def aboveElbow : Point ℝ := ⟨9 * √3, -9, -12⟩

noncomputable def wideMachine : DeltaProperties ℝ where
  t := -4
  y1 := -12
  y1Sqr := 144
  fe := 16
  rfSqr := 2500
  reSqr := 1296
  cfg := wideEffector

theorem settingsChanged_wideEffector : settingsChanged exactDelta wideEffector = wideMachine := by
  have hne : (√3 : ℝ) ≠ 0 := by positivity
  simp only [settingsChanged, exactDelta, wideEffector, wideMachine, DeltaProperties.mk.injEq,
    and_true]
  refine ⟨?_, ?_, ?_, ?_, ?_, ?_⟩ <;> field_simp <;> norm_num

/-- Two arms reach out to the sides. -/
theorem wide_side {x0 : ℝ} (hx : x0 * x0 = 243) :
    (calcAngleYZ exactDelta wideMachine x0 (-9) (-12) 0).1 = true ∧
      50 * Real.cos (calcAngleYZ exactDelta wideMachine x0 (-9) (-12) 0).2 = 40 ∧
      50 * Real.sin (calcAngleYZ exactDelta wideMachine x0 (-9) (-12) 0).2 = 30 := by
  have hrf : 0 < wideMachine.cfg.rf := by norm_num [wideMachine, wideEffector]
  have ha : (-259 / 3 : ℝ) = (x0 * x0 + (-9 - wideMachine.fe) * (-9 - wideMachine.fe) + -12 * -12 +
      wideMachine.rfSqr - wideMachine.reSqr - wideMachine.y1Sqr) / (2 * -12) := by
    rw [hx]
    norm_num [wideMachine]
  have hb : (-13 / 12 : ℝ) = (wideMachine.y1 - (-9 - wideMachine.fe)) / -12 := by
    norm_num [wideMachine]
  have hd : (15 / 2 : ℝ) ^ 2 = -(-259 / 3 + -13 / 12 * wideMachine.y1) *
      (-259 / 3 + -13 / 12 * wideMachine.y1) + wideMachine.cfg.rf *
        (-13 / 12 * (-13 / 12) * wideMachine.cfg.rf + wideMachine.cfg.rf) := by
    norm_num [wideMachine, wideEffector]
  have hy : (-52 : ℝ) = (wideMachine.y1 - -259 / 3 * (-13 / 12) - √((15 / 2) ^ 2)) /
      (-13 / 12 * (-13 / 12) + 1) := by
    rw [Real.sqrt_sq (by norm_num)]
    norm_num [wideMachine]
  obtain ⟨hfound, hcos, hsin⟩ := calcAngleYZ_polar hrf ha hb hd hy (by norm_num)
  refine ⟨hfound, hcos.trans ?_, hsin.trans ?_⟩
  · norm_num [wideMachine]
  · norm_num

/-- The third arm reaches back beyond the axis. -/
theorem wide_back : (calcAngleYZ exactDelta wideMachine 0 18 (-12) 0).1 = true ∧
    50 * Real.cos (calcAngleYZ exactDelta wideMachine 0 18 (-12) 0).2 = -14 ∧
    50 * Real.sin (calcAngleYZ exactDelta wideMachine 0 18 (-12) 0).2 = 48 := by
  have hrf : 0 < wideMachine.cfg.rf := by norm_num [wideMachine, wideEffector]
  have ha : (-151 / 3 : ℝ) = (0 * 0 + (18 - wideMachine.fe) * (18 - wideMachine.fe) + -12 * -12 +
      wideMachine.rfSqr - wideMachine.reSqr - wideMachine.y1Sqr) / (2 * -12) := by
    norm_num [wideMachine]
  have hb : (7 / 6 : ℝ) = (wideMachine.y1 - (18 - wideMachine.fe)) / -12 := by
    norm_num [wideMachine]
  have hd : (42 : ℝ) ^ 2 = -(-151 / 3 + 7 / 6 * wideMachine.y1) *
      (-151 / 3 + 7 / 6 * wideMachine.y1) + wideMachine.cfg.rf *
        (7 / 6 * (7 / 6) * wideMachine.cfg.rf + wideMachine.cfg.rf) := by
    norm_num [wideMachine, wideEffector]
  have hy : (2 : ℝ) = (wideMachine.y1 - -151 / 3 * (7 / 6) - √(42 ^ 2)) /
      (7 / 6 * (7 / 6) + 1) := by
    rw [Real.sqrt_sq (by norm_num)]
    norm_num [wideMachine]
  obtain ⟨hfound, hcos, hsin⟩ := calcAngleYZ_polar hrf ha hb hd hy (by norm_num)
  refine ⟨hfound, hcos.trans ?_, hsin.trans ?_⟩
  · norm_num [wideMachine]
  · norm_num

/-- The elbows, two of which are at one height. -/
noncomputable def wideElbows : Triangle ℝ :=
  ⟨⟨0, -36, -30⟩, ⟨18 * √3, 18, -30⟩, ⟨9 * √3, -9, -48⟩⟩

theorem calcInverse_wide : (calcInverse exactDelta wideMachine aboveElbow).1 = true ∧
    wideMachine.elbows exactDelta (calcInverse exactDelta wideMachine aboveElbow).2 =
      wideElbows := by
  have hsq : √3 * √3 = (3 : ℝ) := Real.mul_self_sqrt (by norm_num)
  obtain ⟨hfront, hcosa, hsina⟩ := wide_side (show 9 * √3 * (9 * √3) = 243 by
    linear_combination 81 * hsq)
  obtain ⟨hside, hcosb, hsinb⟩ := wide_side (show -9 * √3 * (-9 * √3) = 243 by
    linear_combination 81 * hsq)
  obtain ⟨hback, hcosc, hsinc⟩ := wide_back
  have hb : aboveElbow.x * cos120 + aboveElbow.y * exactDelta.sin120 = -9 * √3 ∧
      aboveElbow.y * cos120 - aboveElbow.x * exactDelta.sin120 = -9 := by
    simp only [aboveElbow, cos120, exactDelta]
    constructor
    · ring
    · linear_combination -(9 / 2) * hsq
  have hc : aboveElbow.x * cos120 - aboveElbow.y * exactDelta.sin120 = 0 ∧
      aboveElbow.y * cos120 + aboveElbow.x * exactDelta.sin120 = 18 := by
    simp only [aboveElbow, cos120, exactDelta]
    constructor
    · ring
    · linear_combination (9 / 2) * hsq
  have hinverse : calcInverse exactDelta wideMachine aboveElbow =
      (true, ⟨(calcAngleYZ exactDelta wideMachine (9 * √3) (-9) (-12) 0).2,
        (calcAngleYZ exactDelta wideMachine (-9 * √3) (-9) (-12) 0).2,
        (calcAngleYZ exactDelta wideMachine 0 18 (-12) 0).2⟩) := by
    unfold calcInverse
    dsimp only
    rw [hb.1, hb.2, hc.1, hc.2]
    simp only [aboveElbow, hfront, hside, hback, Bool.true_eq_false, if_false]
  have hreach : ∀ θ c, 50 * Real.cos θ = c → wideMachine.reach exactDelta θ = -4 + c := by
    rintro θ c rfl
    rfl
  have hheight : ∀ θ s, 50 * Real.sin θ = s → -wideMachine.cfg.rf * exactDelta.sinf θ = -s := by
    rintro θ s rfl
    exact neg_mul _ _
  rw [hinverse]
  refine ⟨rfl, ?_⟩
  simp only [elbows, wideElbows, hreach _ _ hcosa, hreach _ _ hcosb, hreach _ _ hcosc,
    hheight _ _ hsina, hheight _ _ hsinb, hheight _ _ hsinc, Triangle.mk.injEq, Point.mk.injEq]
  simp only [exactDelta]
  norm_num

theorem isLower_aboveElbow : wideElbows.IsLower (wideEffector.re ^ 2) aboveElbow := by
  have hsq : √3 * √3 = (3 : ℝ) := Real.mul_self_sqrt (by norm_num)
  constructor
  · simp only [Triangle.Shares, sqDist, wideElbows, wideEffector, aboveElbow]
    refine ⟨?_, ?_, ?_⟩
    · linear_combination 81 * hsq
    · linear_combination 81 * hsq
    · norm_num
  · rintro q ⟨h1, h2, h3⟩
    simp only [sqDist, wideElbows] at h1 h2 h3
    have hz : q.z = -12 := by
      linear_combination (h1 - h2) / 72 - (h1 - h3) / 36 + 9 / 4 * hsq
    exact hz.ge

theorem not_collinear_wideElbows :
    ¬Collinear ℝ {wideElbows.c₁.coords, wideElbows.c₂.coords, wideElbows.c₃.coords} := by
  intro h
  obtain ⟨v, hv⟩ := (collinear_iff_of_mem (Set.mem_insert _ _)).mp h
  obtain ⟨r, hr⟩ := hv wideElbows.c₂.coords (by simp)
  obtain ⟨s, hs⟩ := hv wideElbows.c₃.coords (by simp)
  simp only [Point.coords, wideElbows, vadd_eq_add, Prod.ext_iff, Prod.fst_add, Prod.snd_add,
    Prod.smul_fst, Prod.smul_snd, smul_eq_mul] at hr hs
  obtain ⟨-, hr2, hr3⟩ := hr
  obtain ⟨-, hs2, hs3⟩ := hs
  have hrv : r * v.2.2 = 0 := by linarith
  rcases mul_eq_zero.mp hrv with hzero | hzero
  · rw [hzero] at hr2
    linarith
  · rw [hzero] at hs3
    linarith

/-- A position that is the only one with its angles, and that is not found again. -/
theorem not_roundTrips : 0 < wideEffector.rf ∧ 0 < wideEffector.re ∧ aboveElbow.z < 0 ∧
    (calcInverse exactDelta (settingsChanged exactDelta wideEffector) aboveElbow).1 = true ∧
    (let T := (settingsChanged exactDelta wideEffector).elbows exactDelta
      (calcInverse exactDelta (settingsChanged exactDelta wideEffector) aboveElbow).2
    ¬Collinear ℝ {T.c₁.coords, T.c₂.coords, T.c₃.coords}) ∧
    ¬RoundTrips (settingsChanged exactDelta wideEffector) aboveElbow := by
  have hm := sized_settingsChanged wideEffector
  obtain ⟨hfound, helbows⟩ := calcInverse_wide
  refine ⟨by norm_num [wideEffector], by norm_num [wideEffector], by norm_num [aboveElbow], ?_⟩
  rw [settingsChanged_wideEffector] at hm ⊢
  rw [helbows]
  refine ⟨hfound, not_collinear_wideElbows, fun hround => ?_⟩
  have hdet : wideElbows.det = 0 := by
    simp only [Triangle.det, wideElbows]
    ring
  refine transformToCartesian_of_flat hm (helbows ▸ hdet) (hround.2 ?_)
  rw [helbows]
  exact isLower_aboveElbow

end Singular

end DeltaProperties

end Inspector
