import Inspector.Planner.Passes
import Inspector.Stepper.Prep

/-! # Replans seen by the segment generator

Whatever the planner does while a block is in work, the block keeps its length, acceleration and
step counts. Either its entry speed stays too, or the planner has taken the generator off the
block and set its entry speed to the generator's speed.
-/

namespace Inspector

variable {K : Type*} [Field K] [LinearOrder K]

/-- Two blocks that differ in their speeds only. -/
def PlanBlock.SameMotion (b b' : PlanBlock K) : Prop :=
  b'.millimeters = b.millimeters ∧ b'.acceleration = b.acceleration ∧
    b'.stepEventCount = b.stepEventCount

namespace Planner

open PlanBlock

variable {p q r : Planner K} {t : PrepTarget}

/-- The block in work keeps its motion and has a given entry speed. -/
def KeepsBlock (p q : Planner K) (t : PrepTarget) (entry : PlanBlock K → K) : Prop :=
  ∀ b, p.block? t = some b → ∃ b', q.block? t = some b' ∧ b.SameMotion b' ∧
    b'.entrySpeedSqr = entry b

/-- What replanning may do to the block in work. -/
def Retimed (t : PrepTarget) (p q : Planner K) : Prop :=
  q.currentSpeed = p.currentSpeed ∧
    (q.plBlock = p.plBlock ∧ q.velocityProfile = p.velocityProfile ∧
        p.KeepsBlock q t entrySpeedSqr ∨
      p.plBlock ≠ none ∧ q.plBlock = none ∧ q.velocityProfile = true ∧
        (p.plBlock = some t → p.KeepsBlock q t fun _ => p.currentSpeed * p.currentSpeed))

theorem KeepsBlock.trans {e f : PlanBlock K → K} (hpq : p.KeepsBlock q t e)
    (hqr : q.KeepsBlock r t f) : ∀ b, p.block? t = some b → ∃ b' b'', q.block? t = some b' ∧
      r.block? t = some b'' ∧ b.SameMotion b'' ∧ b'.entrySpeedSqr = e b ∧
        b''.entrySpeedSqr = f b' := by
  intro b hb
  obtain ⟨b', hb', ⟨hm, ha, hc⟩, he⟩ := hpq b hb
  obtain ⟨b'', hb'', ⟨hm', ha', hc'⟩, he'⟩ := hqr b' hb'
  exact ⟨b', b'', hb', hb'', ⟨hm'.trans hm, ha'.trans ha, hc'.trans hc⟩, he, he'⟩

theorem Retimed.trans (hpq : p.Retimed t q) (hqr : q.Retimed t r) : p.Retimed t r := by
  obtain ⟨hv, hpq⟩ := hpq
  obtain ⟨hv', hqr⟩ := hqr
  refine ⟨hv'.trans hv, ?_⟩
  rcases hpq with ⟨hpl, hvp, hk⟩ | ⟨hpl, hnone, hvp, hk⟩
  · rcases hqr with ⟨hpl', hvp', hk'⟩ | ⟨hpl', hnone', hvp', hk'⟩
    · refine .inl ⟨hpl'.trans hpl, hvp'.trans hvp, fun b hb => ?_⟩
      obtain ⟨b', b'', hb', hb'', hm, he, he'⟩ := hk.trans hk' b hb
      exact ⟨b'', hb'', hm, he'.trans he⟩
    · refine .inr ⟨hpl ▸ hpl', hnone', hvp', fun ht b hb => ?_⟩
      obtain ⟨b', b'', hb', hb'', hm, he, he'⟩ := hk.trans (hk' (hpl.trans ht)) b hb
      exact ⟨b'', hb'', hm, he'.trans (by rw [hv])⟩
  · rcases hqr with ⟨hpl', hvp', hk'⟩ | ⟨hpl', -⟩
    · refine .inr ⟨hpl, hpl'.trans hnone, hvp'.trans hvp, fun ht b hb => ?_⟩
      obtain ⟨b', b'', hb', hb'', hm, he, he'⟩ := (hk ht).trans hk' b hb
      exact ⟨b'', hb'', hm, he'.trans he⟩
    · exact absurd hnone hpl'

theorem KeepsBlock.refl : p.KeepsBlock p t entrySpeedSqr :=
  fun b hb => ⟨b, hb, ⟨rfl, rfl, rfl⟩, rfl⟩

theorem Retimed.refl : p.Retimed t p := ⟨rfl, .inl ⟨rfl, rfl, .refl⟩⟩

/-- Changes behind the head of the buffer are of no concern. -/
theorem Retimed.of_head? {queue : List (PlanBlock K)} {planned : ℕ}
    (h : queue.head? = p.queue.head?) :
    p.Retimed t { p with queue := queue, planned := planned } := by
  refine ⟨rfl, .inl ⟨rfl, rfl, ?_⟩⟩
  intro b hb
  cases t with
  | tail => exact ⟨b, h.trans hb, ⟨rfl, rfl, rfl⟩, rfl⟩
  | systemMotion => exact ⟨b, hb, ⟨rfl, rfl, rfl⟩, rfl⟩

theorem retimed_stUpdate : p.Retimed t p.stUpdatePlanBlockParameters := by
  unfold stUpdatePlanBlockParameters
  split
  · exact Retimed.refl
  · rename_i hp
    refine ⟨rfl, .inr ⟨by simp [hp], rfl, rfl, fun ht b hb => ?_⟩⟩
    obtain rfl : PrepTarget.tail = t := Option.some.inj (hp.symm.trans ht)
    refine ⟨b.setEntry (p.currentSpeed * p.currentSpeed), ?_, ⟨rfl, rfl, rfl⟩, rfl⟩
    simp only [block?] at hb ⊢
    obtain ⟨bs, hq⟩ := List.head?_eq_some_iff.mp hb
    simp [hq]
  · rename_i hp
    refine ⟨rfl, .inr ⟨by simp [hp], rfl, rfl, fun ht b hb => ?_⟩⟩
    obtain rfl : PrepTarget.systemMotion = t := Option.some.inj (hp.symm.trans ht)
    refine ⟨b.setEntry (p.currentSpeed * p.currentSpeed), ?_, ⟨rfl, rfl, rfl⟩, rfl⟩
    simp only [block?] at hb ⊢
    simp [hb]

theorem stUpdate_plBlock : p.stUpdatePlanBlockParameters.plBlock = none := by
  unfold stUpdatePlanBlockParameters
  split
  · assumption
  · rfl
  · rfl

/-- The passes of a replan leave the head of the buffer to the stepper's update. -/
theorem retimed_plannerRecalculate : p.Retimed t p.plannerRecalculate := by
  unfold plannerRecalculate
  split
  · exact Retimed.refl
  · exact Retimed.refl
  · dsimp only
    have hst : p.Retimed t (if p.planned = 0 then p.stUpdatePlanBlockParameters else p) := by
      split
      · exact retimed_stUpdate
      · exact Retimed.refl
    generalize (if p.planned = 0 then p.stUpdatePlanBlockParameters else p) = q at hst ⊢
    split
    · exact hst
    · rename_i c tl hc
      refine hst.trans (Retimed.of_head? ?_)
      conv_rhs => rw [← List.take_append_drop q.planned q.queue, hc]
      cases q.queue.take q.planned <;> rfl

theorem retimed_planCycleReinitialize : p.Retimed t p.planCycleReinitialize := by
  unfold planCycleReinitialize
  dsimp only
  have hz : p.Retimed t { p.stUpdatePlanBlockParameters with planned := 0 } :=
    retimed_stUpdate.trans (Retimed.of_head? rfl)
  split_ifs
  · exact hz.trans retimed_plannerRecalculate
  · exact hz

theorem planCycleReinitialize_plBlock : p.planCycleReinitialize.plBlock = none := by
  unfold planCycleReinitialize
  dsimp only
  split_ifs
  · have hr := retimed_plannerRecalculate (t := .tail)
      (p := { p.stUpdatePlanBlockParameters with planned := 0 })
    rcases hr.2 with ⟨hpl, -⟩ | ⟨-, hpl, -⟩
    · exact hpl.trans stUpdate_plBlock
    · exact hpl
  · exact stUpdate_plBlock

variable [IsStrictOrderedRing K]

theorem retimed_setOverrides {rpm : PlanBlock K → K} {fr rr : ℕ} :
    p.Retimed t (p.setOverrides rpm fr rr) := by
  unfold setOverrides planUpdateVelocityProfileParameters
  dsimp only
  split_ifs
  · exact ⟨rfl, .inl ⟨rfl, rfl, .refl⟩⟩
  · refine ⟨rfl, .inl ⟨rfl, rfl, fun b hb => ?_⟩⟩
    cases t with
    | systemMotion => exact ⟨b, hb, ⟨rfl, rfl, rfl⟩, rfl⟩
    | tail =>
      obtain ⟨bs, hq⟩ := List.head?_eq_some_iff.mp hb
      simp only [block?, hq, updateProfile, List.head?_cons]
      exact ⟨_, rfl, ⟨rfl, rfl, rfl⟩, rfl⟩

theorem retimed_planFeedOverrideRates {rpm : PlanBlock K → K} {fr rr : ℕ} :
    p.Retimed t (p.planFeedOverrideRates rpm fr rr) := by
  unfold planFeedOverrideRates
  dsimp only
  split_ifs
  · exact retimed_setOverrides.trans retimed_planCycleReinitialize
  · exact retimed_setOverrides
  · exact Retimed.refl

variable [FloorRing K]

/-- An appended block is behind the one in work; a system motion only fills the unused slot. -/
theorem retimed_planBufferLine (m : FloatMath K) (s : Settings K) (rpm : K) (target : Axis → K)
    (plData : PlanLineData K) :
    p.Retimed .tail (planBufferLine m s rpm target plData p).2.2 := by
  unfold planBufferLine
  dsimp only
  split_ifs
  · exact ⟨rfl, .inl ⟨rfl, rfl, .refl⟩⟩
  · exact ⟨rfl, .inl ⟨rfl, rfl, .refl⟩⟩
  · have hpush : p.Retimed .tail (pushBlock m s rpm target plData p) := by
      refine ⟨rfl, .inl ⟨rfl, rfl, fun b hb => ⟨b, ?_, ⟨rfl, rfl, rfl⟩, rfl⟩⟩⟩
      obtain ⟨bs, hq⟩ := List.head?_eq_some_iff.mp hb
      simp [block?, pushBlock, hq]
    exact hpush.trans retimed_plannerRecalculate

end Planner

end Inspector
