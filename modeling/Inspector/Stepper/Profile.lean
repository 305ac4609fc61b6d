import Inspector.Stepper.Prep
import Mathlib.Tactic.FieldSimp

/-! # Velocity profiles

The profile that the segment generator computes for a block is one that its ramp loop can follow,
for a feed hold as well as for the plan, provided the block's exit speed is not above its nominal
speed.
-/

namespace Inspector

variable {K : Type*} [Field K] [LinearOrder K]

theorem ExactMath.sqrtf_pos (m : ExactMath K) {x : K} (hx : 0 < x) : 0 < m.sqrtf x := by
  refine (m.sqrtf_nonneg x).lt_of_ne fun h => ?_
  have := m.sqrtf_mul_self x hx.le
  rw [← h, mul_zero] at this
  exact hx.ne this

namespace Prep

/-- The ramp loop can follow the profile from the speed of the generator; a profile that ends
before the block does belongs to a hold. -/
structure OnProfile (x : Prep K) (b : PlanBlock K) : Prop where
  valid : (x.profile b).Valid
  inv : (Ramp.start (x.profile b) x.planner.currentSpeed x.rampType).Inv (x.profile b)
  hold : 0 < x.mmComplete → x.control.executeHold = true
  mmComplete_le : x.mmComplete ≤ b.millimeters

variable {x : Prep K} {b : PlanBlock K} {rpm nominal : K}

/-- A profile changes nothing about the block or its steps. -/
structure SameWork (x y : Prep K) : Prop where
  planner_eq : y.planner = x.planner
  control_eq : y.control = x.control
  stBlocks_eq : y.stBlocks = x.stBlocks
  segments_eq : y.segments = x.segments
  stepsPerMm_eq : y.stepsPerMm = x.stepsPerMm
  reqMmIncrement_eq : y.reqMmIncrement = x.reqMmIncrement
  stepsRemaining_eq : y.stepsRemaining = x.stepsRemaining

theorem sameWork_holdProfile {m : FloatMath K} : x.SameWork (x.holdProfile m b) := by
  unfold holdProfile
  dsimp only
  split_ifs <;> exact ⟨rfl, rfl, rfl, rfl, rfl, rfl, rfl⟩

theorem sameWork_normalProfile {m : FloatMath K} :
    x.SameWork (x.normalProfile m nominal b) := by
  unfold normalProfile
  dsimp only
  split_ifs <;> exact ⟨rfl, rfl, rfl, rfl, rfl, rfl, rfl⟩

variable [IsStrictOrderedRing K]

theorem nominalSpeed_pos : 0 < x.nominalSpeed rpm b := by
  have h1 : (0 : K) < minimumFeedRate := zero_lt_one
  unfold nominalSpeed planComputeProfileNominalSpeed
  extract_lets n1 n2
  split_ifs with h
  · exact h1.trans h
  · exact h1

theorem onProfile_holdProfile (m : ExactMath K) (ha : 0 < b.acceleration)
    (hv : 0 ≤ x.planner.currentSpeed) (hd : 0 ≤ x.decelerateAfter)
    (he : 0 ≤ b.entrySpeedSqr) (hh : x.control.executeHold = true) :
    (x.holdProfile m.toFloatMath b).OnProfile b := by
  have hmm := b.millimeters_nonneg
  unfold holdProfile
  extract_lets i d y
  split_ifs with h1 h2
  · exact ⟨⟨ha, hd, le_rfl, m.sqrtf_nonneg _⟩, ⟨hmm, hv, trivial⟩, fun _ => hh, hmm⟩
  · exact ⟨⟨ha, hd, le_rfl, le_rfl⟩, ⟨hmm, hv, trivial⟩, fun _ => hh, hmm⟩
  · have hd0 : 0 ≤ d := (show (0 : K) ≤ 1 / 10000 by norm_num).trans (not_lt.mp h2)
    have hdm : d ≤ b.millimeters := by
      refine sub_le_self _ (mul_nonneg ?_ he)
      exact div_nonneg (by norm_num) ha.le
    exact ⟨⟨ha, hd, hd0, le_rfl⟩, ⟨hmm, hv, trivial⟩, fun _ => hh, hdm⟩

theorem onProfile_normalProfile (m : ExactMath K) (ha : 0 < b.acceleration)
    (hmm : 0 < b.millimeters) (hv : 0 ≤ x.planner.currentSpeed) (hd : 0 ≤ x.decelerateAfter)
    (he : b.entrySpeedSqr = x.planner.currentSpeed * x.planner.currentSpeed)
    (hn : 0 < nominal) (hx0 : 0 ≤ x.exitSpeedSqr) (hxn : x.exitSpeedSqr ≤ nominal * nominal) :
    (x.normalProfile m.toFloatMath nominal b).OnProfile b := by
  have he0 : 0 ≤ b.entrySpeedSqr := he ▸ mul_self_nonneg _
  have hh : (0 : K) < 0 → x.control.executeHold = true := fun h => absurd h (lt_irrefl _)
  unfold normalProfile
  extract_lets i e ex n d y acc z
  have hi : 0 < i := by positivity
  have hia : ∀ w, 2 * b.acceleration * (i * w) = w := by
    intro w
    simp only [i]
    field_simp
  have hex : 0 ≤ ex := by
    simp only [ex]
    split_ifs
    · exact le_rfl
    · exact m.sqrtf_nonneg _
  have hdec : 0 ≤ i * (n - e) := mul_nonneg hi.le (sub_nonneg.mpr hxn)
  split_ifs with h1 h2 h3 h4 h5 h6
  · exact ⟨⟨ha, hd, le_rfl, m.sqrtf_nonneg _⟩, ⟨hmm.le, hv, trivial⟩, hh, hmm.le⟩
  · refine ⟨⟨ha, hdec, le_rfl, hex⟩, ⟨hmm.le, hv, rfl, hn, (not_le.mp h2).le, ?_⟩,
      hh, hmm.le⟩
    change x.planner.currentSpeed ^ 2 - nominal ^ 2 = 2 * b.acceleration *
      (b.millimeters - (b.millimeters - i * (b.entrySpeedSqr - nominal * nominal)))
    rw [sub_sub_cancel, hia, he]
    ring
  · exact ⟨⟨ha, hdec, le_rfl, hex⟩, ⟨hmm.le, hv, rfl, hn⟩, hh, hmm.le⟩
  · refine ⟨⟨ha, hdec, le_rfl, hex⟩, ⟨hmm.le, hv, rfl, hn, ?_⟩, hh, hmm.le⟩
    -- the acceleration ends before the deceleration begins
    change i * (n - e) < d at h5
    change 0 ≤ b.millimeters - i * (n - b.entrySpeedSqr)
    have hd2 : 2 * d = b.millimeters + i * (b.entrySpeedSqr - e) := by
      simp only [d]
      ring
    linarith only [h5, hd2, hdec]
  · refine ⟨⟨ha, h3.le, le_rfl, hex⟩, ⟨hmm.le, hv, rfl, ?_, h3.le⟩,
      hh, hmm.le⟩
    exact m.sqrtf_pos (add_pos_of_pos_of_nonneg (mul_pos (mul_pos two_pos ha) h3) hx0)
  · exact ⟨⟨ha, hd, le_rfl, hex⟩, ⟨hmm.le, hv, trivial⟩, hh, hmm.le⟩
  · refine ⟨⟨ha, hd, le_rfl, hex⟩, ⟨hmm.le, hv, rfl, ?_, le_rfl⟩, hh, hmm.le⟩
    have hd2 : 2 * d = b.millimeters + i * b.entrySpeedSqr - i * e := by
      simp only [d]
      ring
    have hie := mul_nonneg hi.le he0
    have he' : 0 < e := by
      refine (mul_pos_iff_of_pos_left hi).mp ?_
      linarith only [hd2, hie, hmm, not_lt.mp h3]
    change 0 < ex
    simp only [ex]
    split_ifs with hs
    · have he0 : e = 0 := by simp [e, exitSpeedSqr, hs]
      exact absurd he0 he'.ne'
    · exact m.sqrtf_pos he'

end Prep

end Inspector
