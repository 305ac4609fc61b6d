import Inspector.Stepper.Profile
import Inspector.Stepper.Conservation

/-! # The shapes of a velocity profile

Outside of a feed hold a block whose entry and exit speeds are feasible gets a profile that is
continuous in whatever shape it has: a trapezoid, a triangle, a ramp over the whole block or a
deceleration to an override. No square root of a negative number is taken for it.
-/

namespace Inspector

variable {K : Type*} [Field K] [LinearOrder K]

namespace Prep

/-- The distance to go at which the profile decelerates. One that accelerates up to its end leaves
`decelerate_after` as it was. -/
def braking (y : Prep K) : K := if y.accelerateUntil = 0 then 0 else y.decelerateAfter

/-- The profile changes speed with a given acceleration, cruises, and decelerates to the exit
speed. -/
structure Cruises (y : Prep K) (b : PlanBlock K) (nominal acceleration : K) : Prop where
  braking_nonneg : 0 ≤ y.braking
  braking_le : y.braking ≤ y.accelerateUntil
  accelerateUntil_le : y.accelerateUntil ≤ b.millimeters
  top : y.maximumSpeed ^ 2 =
    b.entrySpeedSqr + 2 * acceleration * (b.millimeters - y.accelerateUntil)
  exit : y.exitSpeed ^ 2 = y.maximumSpeed ^ 2 - 2 * b.acceleration * y.braking
  maximumSpeed_le : y.maximumSpeed ≤ nominal

/-- The profile decelerates over the whole block; when it is entered above the nominal speed it is
not left below it. -/
structure Brakes (y : Prep K) (b : PlanBlock K) (nominal : K) : Prop where
  exit : y.exitSpeed ^ 2 = b.entrySpeedSqr - 2 * b.acceleration * b.millimeters
  exit_nonneg : 0 ≤ y.exitSpeed
  nominal_le : nominal * nominal < b.entrySpeedSqr → nominal ≤ y.exitSpeed

/-- A continuous motion in the shape of the ramp that the profile begins with. -/
def Continuous (y : Prep K) (b : PlanBlock K) (nominal : K) : Prop :=
  match y.rampType with
  | .accel | .cruise => y.Cruises b nominal b.acceleration
  | .decelOverride => y.Cruises b nominal (-b.acceleration)
  | .decel => y.Brakes b nominal

/-- Entry and exit speeds, as squares, that a block can be run with. -/
structure FeasibleSpeeds (b : PlanBlock K) (exitSpeedSqr nominal : K) : Prop where
  millimeters : 0 < b.millimeters
  acceleration : 0 < b.acceleration
  entry : 0 ≤ b.entrySpeedSqr
  exit : 0 ≤ exitSpeedSqr
  reach : |b.entrySpeedSqr - exitSpeedSqr| ≤ 2 * b.acceleration * b.millimeters
  exit_le : exitSpeedSqr ≤ nominal * nominal

variable {x y : Prep K} {b : PlanBlock K} {rpm nominal : K}

/-- Where the profile decelerates at a distance of its own, that is where it does. -/
theorem braking_eq (h0 : 0 ≤ y.decelerateAfter) (h : y.decelerateAfter ≤ y.accelerateUntil) :
    y.braking = y.decelerateAfter := by
  unfold braking
  split_ifs with hzero
  · exact le_antisymm h0 (hzero ▸ h)
  · rfl

theorem cruises_of {acceleration : K} (h0 : 0 ≤ y.decelerateAfter)
    (h : y.decelerateAfter ≤ y.accelerateUntil) (hle : y.accelerateUntil ≤ b.millimeters)
    (htop : y.maximumSpeed ^ 2 =
      b.entrySpeedSqr + 2 * acceleration * (b.millimeters - y.accelerateUntil))
    (hexit : y.exitSpeed ^ 2 = y.maximumSpeed ^ 2 - 2 * b.acceleration * y.decelerateAfter)
    (hmax : y.maximumSpeed ≤ nominal) : y.Cruises b nominal acceleration := by
  have hb := braking_eq h0 h
  exact ⟨hb ▸ h0, hb ▸ h, hle, htop, hb ▸ hexit, hmax⟩

variable [IsStrictOrderedRing K]

/-- A block that does not slow down to the nominal speed is left above it. -/
theorem le_root (ha : 0 < b.acceleration) {n : K}
    (h : b.millimeters - 1 / 2 / b.acceleration * (b.entrySpeedSqr - n) ≤ 0) :
    n ≤ b.entrySpeedSqr - 2 * b.acceleration * b.millimeters := by
  have hle := mul_le_mul_of_nonneg_left (sub_nonpos.mp h) (mul_pos two_pos ha).le
  have hia : 2 * b.acceleration * (1 / 2 / b.acceleration * (b.entrySpeedSqr - n)) =
      b.entrySpeedSqr - n := by
    field_simp
  rw [hia] at hle
  linarith

/-- The profile of a block with feasible speeds is continuous, whatever its shape. -/
theorem continuous_normalProfile (m : ExactMath K) (hn : 0 < nominal)
    (h : FeasibleSpeeds b x.exitSpeedSqr nominal) :
    (x.normalProfile m.toFloatMath nominal b).Continuous b nominal := by
  have ha := h.acceleration
  have hmm := h.millimeters
  have he := h.exit
  have hxn := h.exit_le
  obtain ⟨hlo, hhi⟩ := abs_le.mp h.reach
  unfold normalProfile
  extract_lets i e ex n d y acc z
  have hi : 0 < i := by positivity
  have hia : ∀ w, 2 * b.acceleration * (i * w) = w := by
    intro w
    simp only [i]
    field_simp
  have hex : ex ^ 2 = e := by
    simp only [ex, e, exitSpeedSqr]
    split_ifs
    · ring
    · rw [sq, m.sqrtf_mul_self]
      simpa [e, exitSpeedSqr, *] using he
  have hex0 : 0 ≤ ex := by
    simp only [ex]
    split_ifs
    · exact le_rfl
    · exact m.sqrtf_nonneg _
  have hd : 2 * b.acceleration * d = b.acceleration * b.millimeters +
      (b.entrySpeedSqr - e) / 2 := by
    have hd2 : 2 * b.acceleration * d =
        1 / 2 * (2 * b.acceleration * b.millimeters +
          2 * b.acceleration * (i * (b.entrySpeedSqr - e))) := by
      simp only [d]
      ring
    rw [hd2, hia]
    ring
  have hdec : 0 ≤ i * (n - e) := mul_nonneg hi.le (sub_nonneg.mpr hxn)
  have hcancel : ∀ {v w : K}, 2 * b.acceleration * v ≤ 2 * b.acceleration * w → v ≤ w :=
    fun hvw => le_of_mul_le_mul_left hvw (mul_pos two_pos ha)
  split_ifs with h1 h2 h3 h4 h5 h6
  · -- Decelerate to an override that the block does not reach.
    have hroot := le_root ha h2
    have hsq := m.sqrtf_mul_self _ ((mul_self_nonneg nominal).trans hroot)
    refine ⟨(sq _).trans hsq, m.sqrtf_nonneg _, fun _ => ?_⟩
    exact (mul_self_le_mul_self_iff hn.le (m.sqrtf_nonneg _)).mpr (hroot.trans hsq.ge)
  · -- Decelerate to an override, and cruise.
    apply cruises_of hdec _ _ _ _ le_rfl
    · apply hcancel
      change 2 * b.acceleration * (i * (n - e)) ≤
        2 * b.acceleration * (b.millimeters - i * (b.entrySpeedSqr - n))
      rw [hia, mul_sub, hia]
      linarith
    · exact sub_le_self _ (mul_nonneg hi.le (sub_nonneg.mpr (le_of_lt h1)))
    · change nominal ^ 2 = b.entrySpeedSqr + 2 * -b.acceleration *
        (b.millimeters - (b.millimeters - i * (b.entrySpeedSqr - n)))
      rw [sub_sub_cancel, mul_neg, neg_mul, hia]
      ring
    · change ex ^ 2 = nominal ^ 2 - 2 * b.acceleration * (i * (n - e))
      rw [hia, hex]
      ring
  · -- Cruise from the start.
    apply cruises_of hdec _ le_rfl _ _ le_rfl
    · exact (h5.trans h4).le
    · change nominal ^ 2 = b.entrySpeedSqr + 2 * b.acceleration * (b.millimeters - b.millimeters)
      rw [h6, sub_self, mul_zero, add_zero, sq]
    · change ex ^ 2 = nominal ^ 2 - 2 * b.acceleration * (i * (n - e))
      rw [hia, hex]
      ring
  · -- A trapezoid.
    apply cruises_of hdec _ _ _ _ le_rfl
    · apply hcancel
      have hbelow := mul_lt_mul_of_pos_left h5 (mul_pos two_pos ha)
      change 2 * b.acceleration * (i * (n - e)) < 2 * b.acceleration * d at hbelow
      change 2 * b.acceleration * (i * (n - e)) ≤
        2 * b.acceleration * (b.millimeters - i * (n - b.entrySpeedSqr))
      rw [hia, hd] at hbelow
      rw [hia, mul_sub, hia]
      linarith
    · exact sub_le_self _ (mul_nonneg hi.le (sub_nonneg.mpr (not_lt.mp h1)))
    · change nominal ^ 2 = b.entrySpeedSqr + 2 * b.acceleration *
        (b.millimeters - (b.millimeters - i * (n - b.entrySpeedSqr)))
      rw [sub_sub_cancel, hia]
      ring
    · change ex ^ 2 = nominal ^ 2 - 2 * b.acceleration * (i * (n - e))
      rw [hia, hex]
      ring
  · -- A triangle, with its top where the two ramps intersect.
    have hroot : 0 ≤ 2 * b.acceleration * d + e := add_nonneg (by positivity) he
    have hsq := m.sqrtf_mul_self _ hroot
    apply cruises_of h3.le le_rfl h4.le
    · change m.sqrtf (2 * b.acceleration * d + e) ^ 2 =
        b.entrySpeedSqr + 2 * b.acceleration * (b.millimeters - d)
      rw [sq, hsq, mul_sub, hd]
      ring
    · change ex ^ 2 = m.sqrtf (2 * b.acceleration * d + e) ^ 2 - 2 * b.acceleration * d
      rw [hex, sq, hsq]
      ring
    · have hbelow := mul_le_mul_of_nonneg_left (not_lt.mp h5) (mul_pos two_pos ha).le
      change 2 * b.acceleration * d ≤ 2 * b.acceleration * (i * (n - e)) at hbelow
      rw [hia] at hbelow
      change m.sqrtf (2 * b.acceleration * d + e) ≤ nominal
      apply (mul_self_le_mul_self_iff (m.sqrtf_nonneg _) hn.le).mpr
      rw [hsq]
      linarith
  · -- Decelerate over the block: the speeds are as far apart as the block allows.
    have hfar := mul_le_mul_of_nonneg_left (not_lt.mp h4) (mul_pos two_pos ha).le
    rw [hd] at hfar
    refine ⟨?_, hex0, fun hover => absurd hover h1⟩
    change ex ^ 2 = _
    rw [hex]
    linarith
  · -- Accelerate over the block.
    have hfar := mul_le_mul_of_nonneg_left (not_lt.mp h3) (mul_pos two_pos ha).le
    rw [hd] at hfar
    have hbraking : braking { y with accelerateUntil := 0, maximumSpeed := ex } = 0 := if_pos rfl
    refine ⟨hbraking.ge, hbraking.le, hmm.le, ?_, ?_, ?_⟩
    · change ex ^ 2 = b.entrySpeedSqr + 2 * b.acceleration * (b.millimeters - 0)
      rw [hex]
      linarith
    · rw [hbraking]
      change ex ^ 2 = ex ^ 2 - 2 * b.acceleration * 0
      ring
    · apply (mul_self_le_mul_self_iff hex0 hn.le).mpr
      rw [← sq, hex]
      exact hxn

/-- Nothing but square roots of nonnegative numbers is taken for the profile. -/
theorem normalProfile_congr {m m' : FloatMath K} (hm : ∀ v, 0 ≤ v → m'.sqrtf v = m.sqrtf v)
    (h : FeasibleSpeeds b x.exitSpeedSqr nominal) :
    x.normalProfile m' nominal b = x.normalProfile m nominal b := by
  have ha := h.acceleration
  dsimp only [normalProfile]
  rw [hm _ h.exit]
  generalize (if x.control.executeSysMotion = true then (0 : K) else m.sqrtf x.exitSpeedSqr) = ex
  split_ifs with h1 h2 h3 h4 h5 h6
  · have hroot := (mul_self_nonneg nominal).trans (le_root h.acceleration h2)
    rw [hm _ hroot]
  · rfl
  · rfl
  · rfl
  · have hroot := mul_nonneg (mul_pos two_pos h.acceleration).le h3.le
    rw [hm _ (add_nonneg hroot h.exit)]
  · rfl
  · rfl

section Load

omit [IsStrictOrderedRing K]

theorem enterBlock_congr {m m' : FloatMath K} (hm : ∀ v, 0 ≤ v → m'.sqrtf v = m.sqrtf v)
    (h : 0 ≤ b.entrySpeedSqr) : x.enterBlock m' b = x.enterBlock m b := by
  unfold enterBlock enterSpeed
  rw [hm _ h]

theorem control_enterBlock {m : FloatMath K} : (x.enterBlock m b).control = x.control := by
  unfold enterBlock enterSpeed initBlock
  dsimp only
  split_ifs <;> rfl

theorem sameWork_loadProfile {m : FloatMath K} {b₀ : PlanBlock K}
    (hload : x.loadProfile m rpm = some y) (hhold : x.control.executeHold = false)
    (hb₀ : x.planner.block? x.target = some b₀) : (x.enterBlock m b₀).SameWork y := by
  have hhold' : (x.enterBlock m b₀).control.executeHold = false := by
    rw [control_enterBlock, hhold]
  rw [loadProfile, hb₀] at hload
  dsimp only at hload
  rw [hhold', if_neg Bool.false_ne_true] at hload
  exact Option.some.inj hload ▸ sameWork_normalProfile

theorem SameWork.target_eq (h : x.SameWork y) : y.target = x.target := by
  unfold target
  rw [h.control_eq]

/-- The profile that is loaded is the one of the block that is entered. -/
theorem loadProfile_eq {m : FloatMath K} {b₀ : PlanBlock K}
    (hload : x.loadProfile m rpm = some y) (hhold : x.control.executeHold = false)
    (hb₀ : x.planner.block? x.target = some b₀) (hb : y.planner.block? y.target = some b) :
    ∃ z, z = x.enterBlock m b₀ ∧ z.planner.block? z.target = some b ∧
      y = z.normalProfile m (z.nominalSpeed rpm b) b ∧ y.nominalSpeed rpm b = z.nominalSpeed rpm b ∧
      y.exitSpeedSqr = z.exitSpeedSqr := by
  have hw := sameWork_loadProfile hload hhold hb₀
  have hhold' : (x.enterBlock m b₀).control.executeHold = false := by
    rw [control_enterBlock, hhold]
  rw [hw.planner_eq, hw.target_eq] at hb
  rw [loadProfile, hb₀] at hload
  dsimp only at hload
  rw [hhold', if_neg Bool.false_ne_true, hb, Option.getD_some] at hload
  refine ⟨_, rfl, hb, (Option.some.inj hload).symm, ?_, ?_⟩
  · unfold nominalSpeed
    rw [hw.planner_eq]
  · unfold exitSpeedSqr
    rw [hw.planner_eq, hw.control_eq]

end Load

/-- Outside of a feed hold, the profile that is loaded for a block with feasible speeds is
continuous, and no square root of a negative number is taken: whatever its value would be, the
profile is the same. -/
theorem continuous_loadProfile (m : ExactMath K) (rpm : K) (x y : Prep K) (b₀ b : PlanBlock K)
    (hload : x.loadProfile m.toFloatMath rpm = some y) (hhold : x.control.executeHold = false)
    (hb₀ : x.planner.block? x.target = some b₀) (hentry : 0 ≤ b₀.entrySpeedSqr)
    (hb : y.planner.block? y.target = some b)
    (h : FeasibleSpeeds b y.exitSpeedSqr (y.nominalSpeed rpm b)) :
    y.Continuous b (y.nominalSpeed rpm b) ∧
      ∀ m' : FloatMath K, (∀ v, 0 ≤ v → m'.sqrtf v = m.sqrtf v) →
        x.loadProfile m' rpm = some y := by
  obtain ⟨z, hz, hbz, hy, hnominal, hexit⟩ := loadProfile_eq hload hhold hb₀ hb
  rw [hnominal, hexit] at h
  constructor
  · rw [hnominal, hy]
    exact continuous_normalProfile m nominalSpeed_pos h
  · intro m' hm
    have henter : x.enterBlock m' b₀ = z := (enterBlock_congr hm hentry).trans hz.symm
    have hhold' : z.control.executeHold = false := by
      rw [hz, control_enterBlock, hhold]
    rw [loadProfile, hb₀]
    dsimp only
    rw [henter, hbz, hhold', if_neg Bool.false_ne_true, Option.getD_some,
      normalProfile_congr hm h, ← hy]

/-- A block of ten steps between two stops. -/
theorem continuous_loadProfile_tenSteps : ∃ y,
    (stReset tenStepsPlanner false).loadProfile realMath.toFloatMath 0 = some y ∧
      y.Continuous tenSteps (y.nominalSpeed 0 tenSteps) := by
  obtain ⟨y, hy⟩ : ∃ y, (stReset tenStepsPlanner false).loadProfile realMath.toFloatMath 0 =
    some y := ⟨_, rfl⟩
  have hw : ((stReset tenStepsPlanner false).enterBlock realMath.toFloatMath
      tenSteps).SameWork y := sameWork_loadProfile hy rfl rfl
  refine ⟨y, hy, (continuous_loadProfile realMath 0 (stReset tenStepsPlanner false) y tenSteps
    tenSteps hy rfl rfl le_rfl ?_ ?_).1⟩
  · rw [hw.planner_eq, hw.target_eq]
    rfl
  · have hexit : y.exitSpeedSqr = 0 := by
      unfold exitSpeedSqr
      rw [hw.planner_eq, hw.control_eq]
      rfl
    rw [hexit]
    refine ⟨zero_lt_one, ?_, le_rfl, le_rfl, ?_, mul_self_nonneg _⟩
    · norm_num [tenSteps]
    · norm_num [tenSteps]

end Prep

end Inspector
