import Inspector.Stepper.Counts
import Inspector.Stepper.Profile
import Inspector.Stepper.Replan
import Inspector.Stepper.Run
import Mathlib.Analysis.Real.Sqrt
import Mathlib.Algebra.Order.Archimedean.Real.Basic

/-! # Step conservation of the segment generator

The steps left to a block are always those of its distance to go, rounded up, and every segment
takes at least one of them. So the segments of a block carry exactly its step event count, across
feed holds, resumes and replans in any order.
-/

namespace Inspector

variable {K : Type*} [Field K] [LinearOrder K]

namespace Prep

variable {x y : Prep K} {b : PlanBlock K}

/-- The distance to go in the block in work, zero when there is none. -/
def toGo (x : Prep K) : K :=
  if x.planner.plBlock = none ∧ x.planner.velocityProfile = false then 0
  else (x.planner.block? x.target).elim 0 (·.millimeters)

/-- A system motion that has ended; nothing is generated any more. -/
def Dead (x : Prep K) : Prop := x.control.executeSysMotion = true ∧ x.control.endMotion = true

theorem target_eq (h : y.control.executeSysMotion = x.control.executeSysMotion) :
    y.target = x.target := by
  unfold target
  rw [h]

theorem exitSpeedSqr_congr (hc : y.control.executeSysMotion = x.control.executeSysMotion)
    (hp : y.planner.execBlockExitSpeedSqr = x.planner.execBlockExitSpeedSqr) :
    y.exitSpeedSqr = x.exitSpeedSqr := by
  unfold exitSpeedSqr
  rw [hc, hp]

variable [FloorRing K]

/-- The step counts of a loaded block. -/
structure Way (x : Prep K) (b : PlanBlock K) : Prop where
  stBlocks_ne : x.stBlocks ≠ []
  acceleration_pos : 0 < b.acceleration
  stepsPerMm_pos : 0 < x.stepsPerMm
  reqMmIncrement_eq : x.reqMmIncrement = reqMmIncrementScalar / x.stepsPerMm
  stepsRemaining_eq : x.stepsRemaining = ⌈x.stepsPerMm * b.millimeters⌉₊

theorem Way.congr {b' : PlanBlock K} (h : x.Way b) (hm : b.SameMotion b')
    (hb : y.stBlocks = x.stBlocks) (hs : y.stepsPerMm = x.stepsPerMm)
    (hq : y.reqMmIncrement = x.reqMmIncrement) (hr : y.stepsRemaining = x.stepsRemaining) :
    y.Way b' := by
  obtain ⟨hmm, ha, -⟩ := hm
  constructor
  · exact hb ▸ h.stBlocks_ne
  · exact ha ▸ h.acceleration_pos
  · exact hs ▸ h.stepsPerMm_pos
  · rw [hq, hs, h.reqMmIncrement_eq]
  · rw [hr, hs, hmm, h.stepsRemaining_eq]

/-- What holds of the generator between two passes. -/
structure Inv (x : Prep K) : Prop where
  counts : x.Counts
  exitSpeed_nonneg : 0 ≤ x.exitSpeed
  currentSpeed_nonneg : 0 ≤ x.planner.currentSpeed
  decelerateAfter_nonneg : 0 ≤ x.decelerateAfter
  inWork : ∀ t, x.planner.plBlock = some t → t = x.target ∧
    x.planner.velocityProfile = false ∧ ∃ b, x.planner.block? t = some b ∧ x.Way b ∧
      (¬ x.Dead → 0 < b.millimeters) ∧ (x.control.endMotion = false → x.OnProfile b)
  waiting : x.planner.plBlock = none → x.planner.velocityProfile = true →
    ∃ b, x.planner.block? x.target = some b ∧ x.Way b ∧ (¬ x.Dead → 0 < b.millimeters) ∧
      b.entrySpeedSqr = x.planner.currentSpeed * x.planner.currentSpeed
  idle : x.planner.plBlock = none → x.planner.velocityProfile = false → x.stepsRemaining = 0

/-- The end of a motion leaves its block as it is. -/
theorem inv_of_endMotion {t : PrepTarget} (hc : x.Counts) (hx : 0 ≤ x.exitSpeed)
    (hv : 0 ≤ x.planner.currentSpeed) (hd : 0 ≤ x.decelerateAfter)
    (ht : x.planner.plBlock = some t) (htt : t = x.target)
    (hvp : x.planner.velocityProfile = false) (hb : x.planner.block? t = some b) (hw : x.Way b)
    (hmm : ¬ x.Dead → 0 < b.millimeters) (he : x.control.endMotion = true) : x.Inv where
  counts := hc
  exitSpeed_nonneg := hx
  currentSpeed_nonneg := hv
  decelerateAfter_nonneg := hd
  inWork t' ht' := by
    obtain rfl : t = t' := Option.some.inj (ht.symm.trans ht')
    exact ⟨htt, hvp, b, hb, hw, hmm, fun hf => by simp [he] at hf⟩
  waiting hn := by simp [ht] at hn
  idle hn := by simp [ht] at hn

/-- Replanning keeps the invariant. -/
theorem Inv.replan {q : Planner K} (h : x.Inv) (hq : x.planner.Retimed x.target q) :
    ({ x with planner := q } : Prep K).Inv := by
  obtain ⟨hv, hq⟩ := hq
  have hcounts : ({ x with planner := q } : Prep K).Counts := h.counts.congr rfl rfl rfl
  have hspeed : 0 ≤ q.currentSpeed := hv ▸ h.currentSpeed_nonneg
  rcases hq with ⟨hpl, hvp, hk⟩ | ⟨hpl, hnone, hvp, hk⟩
  · constructor
    · exact hcounts
    · exact h.exitSpeed_nonneg
    · exact hspeed
    · exact h.decelerateAfter_nonneg
    · intro t ht
      obtain ⟨rfl, hvf, b, hb, hw, hmm, hp⟩ := h.inWork t (hpl ▸ ht)
      obtain ⟨b', hb', hs, he⟩ := hk b hb
      refine ⟨rfl, hvp.trans hvf, b', hb', hw.congr hs rfl rfl rfl rfl, hs.1 ▸ hmm, fun hf => ?_⟩
      have hprofile : ({ x with planner := q } : Prep K).profile b' = x.profile b := by
        simp only [profile, hs.1, hs.2.1]
      obtain ⟨hvalid, hinv, hhold, hle⟩ := hp hf
      refine ⟨hprofile ▸ hvalid, ?_, hhold, hs.1 ▸ hle⟩
      rw [hprofile]
      exact hv ▸ hinv
    · intro hn hvt
      obtain ⟨b, hb, hw, hmm, he⟩ := h.waiting (hpl ▸ hn) (hvp ▸ hvt)
      obtain ⟨b', hb', hs, he'⟩ := hk b hb
      refine ⟨b', hb', hw.congr hs rfl rfl rfl rfl, hs.1 ▸ hmm, ?_⟩
      rw [he', he, hv]
    · exact fun hn hvf => h.idle (hpl ▸ hn) (hvp ▸ hvf)
  · obtain ⟨t, ht⟩ := Option.ne_none_iff_exists'.mp hpl
    obtain ⟨rfl, -, b, hb, hw, hmm, -⟩ := h.inWork t ht
    obtain ⟨b', hb', hs, he⟩ := hk ht b hb
    constructor
    · exact hcounts
    · exact h.exitSpeed_nonneg
    · exact hspeed
    · exact h.decelerateAfter_nonneg
    · intro t ht
      simp [hnone] at ht
    · intro _ _
      refine ⟨b', hb', hw.congr hs rfl rfl rfl rfl, hs.1 ▸ hmm, ?_⟩
      rw [he, hv]
    · intro _ hvf
      simp [hvp] at hvf

/-- The control flags matter only to a profile; changing them needs a planner that has taken the
generator off its block. -/
theorem Inv.setControl {c : StepControl} (h : x.Inv) (hpl : x.planner.plBlock = none)
    (hs : c.executeSysMotion = x.control.executeSysMotion)
    (hd : ¬ ({ x with control := c } : Prep K).Dead → ¬ x.Dead) :
    ({ x with control := c } : Prep K).Inv := by
  have ht : ({ x with control := c } : Prep K).target = x.target := target_eq hs
  constructor
  · exact h.counts.congr rfl rfl rfl
  · exact h.exitSpeed_nonneg
  · exact h.currentSpeed_nonneg
  · exact h.decelerateAfter_nonneg
  · intro t ht
    simp [hpl] at ht
  · intro hn hvt
    obtain ⟨b, hb, hw, hmm, he⟩ := h.waiting hn hvt
    exact ⟨b, ht ▸ hb, hw.congr ⟨rfl, rfl, rfl⟩ rfl rfl rfl rfl, fun hc => hmm (hd hc), he⟩
  · exact h.idle

theorem inv_stReset (planner : Planner K) (executeSysMotion : Bool) :
    (stReset planner executeSysMotion).Inv := by
  constructor
  · constructor <;> simp [stReset]
  · exact le_rfl
  · exact le_rfl
  · exact le_rfl
  · intro t ht
    cases ht
  · intro _ hvt
    cases hvt
  · intro _ _
    rfl

section Queue

variable {cfg : StepperConfig K} {t : PrepTarget} {r : Ramp K}

theorem way_pushSegment (h : x.Way b) (hr : 0 ≤ r.mmRemaining) :
    (x.pushSegment cfg t r).Way (b.setMillimeters r.mmRemaining) := by
  constructor
  · exact h.stBlocks_ne
  · rw [PlanBlock.setMillimeters_acceleration]
    exact h.acceleration_pos
  · exact h.stepsPerMm_pos
  · exact h.reqMmIncrement_eq
  · rw [PlanBlock.setMillimeters_millimeters hr]
    rfl

theorem counts_pushSegment (h : x.Counts) (hne : x.stBlocks ≠ [])
    (hlt : ⌈x.stepsPerMm * r.mmRemaining⌉₊ < x.stepsRemaining) :
    (x.pushSegment cfg t r).Counts := by
  refine h.queue hne rfl rfl rfl ?_ ?_
  · rw [Nat.shiftLeft_shiftRight]
    exact Nat.sub_pos_of_lt hlt
  · rw [Nat.shiftLeft_shiftRight]
    exact Nat.sub_add_cancel hlt.le

variable [IsStrictOrderedRing K]

/-- A segment leaves no more steps than there were, and takes one unless a hold ends. -/
theorem Way.ceil_lt (h : x.Way b) (hp : x.OnProfile b) (hmm : 0 < b.millimeters)
    (hr : 0 ≤ r.mmRemaining)
    (hend : r.mmRemaining ≤ (x.profile b).mmComplete ∨ r.mmRemaining ≤ x.minimumMm b) :
    ⌈x.stepsPerMm * r.mmRemaining⌉₊ ≤ x.stepsRemaining ∧
      (x.control.executeHold = false → ⌈x.stepsPerMm * r.mmRemaining⌉₊ < x.stepsRemaining) := by
  have hs := h.stepsPerMm_pos
  rw [h.stepsRemaining_eq]
  have hzero : r.mmRemaining ≤ 0 →
      ⌈x.stepsPerMm * r.mmRemaining⌉₊ < ⌈x.stepsPerMm * b.millimeters⌉₊ := by
    intro h0
    rw [le_antisymm h0 hr, mul_zero, Nat.ceil_zero]
    exact Nat.ceil_pos.mpr (mul_pos hs hmm)
  have hmin : r.mmRemaining ≤ x.minimumMm b →
      ⌈x.stepsPerMm * r.mmRemaining⌉₊ < ⌈x.stepsPerMm * b.millimeters⌉₊ := by
    intro hle
    unfold minimumMm at hle
    split_ifs at hle with hneg
    · exact hzero hle
    · have hstep : x.stepsPerMm * r.mmRemaining + 1 ≤ x.stepsPerMm * b.millimeters := by
        have hmul := mul_le_mul_of_nonneg_left hle hs.le
        have hreq : x.stepsPerMm * x.reqMmIncrement = 5 / 4 := by
          rw [h.reqMmIncrement_eq, mul_div_cancel₀ _ hs.ne']
          rfl
        rw [mul_sub, hreq] at hmul
        linarith only [hmul]
      rw [Nat.lt_iff_add_one_le, ← Nat.ceil_add_one (mul_nonneg hs.le hr)]
      exact Nat.ceil_mono hstep
  rcases hend with hle | hle
  · refine ⟨Nat.ceil_mono (mul_le_mul_of_nonneg_left (hle.trans hp.mmComplete_le) hs.le),
      fun hh => hzero (hle.trans (not_lt.mp fun hpos => ?_))⟩
    exact absurd (hp.hold hpos) (by simp [hh])
  · exact ⟨(hmin hle).le, fun _ => hmin hle⟩

/-- A segment that leaves its block at its new distance to go keeps the invariant. -/
theorem inv_checkExit (hc : x.Counts) (hx : 0 ≤ x.exitSpeed)
    (hv : 0 ≤ x.planner.currentSpeed) (hd : 0 ≤ x.decelerateAfter)
    (ht : x.planner.plBlock = some t) (htt : t = x.target)
    (hvp : x.planner.velocityProfile = false) (hb : x.planner.block? t = some b) (hw : x.Way b)
    (hr : b.millimeters = r.mmRemaining) (hr0 : 0 ≤ r.mmRemaining) (hmc : 0 ≤ x.mmComplete)
    (hp : x.mmComplete < r.mmRemaining → x.OnProfile b) : (x.checkExit cfg r).1.Inv := by
  unfold checkExit
  split_ifs with h1 h2 h3
  · refine inv_of_endMotion (t := t) (hc.congr rfl rfl rfl) hx hv hd ht ?_ hvp hb
      (hw.congr ⟨rfl, rfl, rfl⟩ rfl rfl rfl rfl) (fun _ => hr ▸ h2) rfl
    exact htt
  · refine inv_of_endMotion (t := t) (hc.congr rfl rfl rfl) hx hv hd ht ?_ hvp hb
      (hw.congr ⟨rfl, rfl, rfl⟩ rfl rfl rfl rfl) (fun hdead => absurd ⟨h3, rfl⟩ hdead) rfl
    exact htt
  · -- the block is complete
    have hzero : r.mmRemaining = 0 := le_antisymm (not_lt.mp h2) hr0
    have hsteps : x.stepsRemaining = 0 := by
      rw [hw.stepsRemaining_eq, hr, hzero, mul_zero, Nat.ceil_zero]
    have hpl : ({ x.planner with plBlock := none } : Planner K).planDiscardCurrentBlock.plBlock =
          none ∧
        ({ x.planner with plBlock := none } : Planner K).planDiscardCurrentBlock.velocityProfile =
          false ∧
        ({ x.planner with plBlock := none } : Planner K).planDiscardCurrentBlock.currentSpeed =
          x.planner.currentSpeed := by
      unfold Planner.planDiscardCurrentBlock
      split <;> exact ⟨rfl, hvp, rfl⟩
    obtain ⟨hpl, hvp', hspeed⟩ := hpl
    constructor
    · exact hc.congr rfl rfl rfl
    · exact hx
    · exact hspeed ▸ hv
    · exact hd
    · intro t' ht'
      simp [hpl] at ht'
    · intro _ hvt
      simp [hvp'] at hvt
    · exact fun _ _ => hsteps
  · have hlt := not_le.mp h1
    constructor
    · exact hc
    · exact hx
    · exact hv
    · exact hd
    · intro t' ht'
      obtain rfl : t = t' := Option.some.inj (ht.symm.trans ht')
      exact ⟨htt, hvp, b, hb, hw, fun _ => hr ▸ hmc.trans_lt hlt, fun _ => hp hlt⟩
    · intro hn
      simp [ht] at hn
    · intro hn
      simp [ht] at hn

/-- Queueing a segment keeps the invariant. -/
theorem inv_queueSegment (h : x.Inv) (ht : x.planner.plBlock = some t)
    (hb : x.planner.block? t = some b)
    (hw : x.Way b) (hmm : 0 < b.millimeters) (hp : x.OnProfile b) (hr : r.Inv (x.profile b))
    (hend : r.mmRemaining ≤ (x.profile b).mmComplete ∨ r.mmRemaining ≤ x.minimumMm b) :
    (x.queueSegment cfg t r).1.Inv := by
  obtain ⟨htt, hvp, -⟩ := h.inWork t ht
  have ⟨hr0, hrv, hrs⟩ := hr
  obtain ⟨hle, hlt⟩ := hw.ceil_lt hp hmm hr0 hend
  have hset := PlanBlock.setMillimeters_millimeters (b := b) hr0
  have hwy : (x.setRamp r).Way b := hw.congr ⟨rfl, rfl, rfl⟩ rfl rfl rfl rfl
  have hcy : (x.setRamp r).Counts := h.counts.congr rfl rfl rfl
  have hby : (x.setRamp r).planner.block? t = some b := by
    rw [← hb]
    cases t <;> rfl
  unfold queueSegment
  dsimp only
  split_ifs with hbail
  · -- the hold ends with less than a step
    refine inv_of_endMotion (t := t) (hcy.congr rfl rfl rfl) h.exitSpeed_nonneg hrv
      h.decelerateAfter_nonneg ht ?_ hvp hby (hwy.congr ⟨rfl, rfl, rfl⟩ rfl rfl rfl rfl)
      (fun _ => hmm) rfl
    exact htt
  · have hlt' : ⌈x.stepsPerMm * r.mmRemaining⌉₊ < x.stepsRemaining := by
      rcases not_and_or.mp hbail with hn | hh
      · exact Nat.lt_of_sub_pos (Nat.pos_of_ne_zero hn)
      · exact hlt (by simpa [setRamp] using hh)
    have hbz : ((x.setRamp r).pushSegment cfg t r).planner.block? t =
        some (b.setMillimeters r.mmRemaining) := by
      simp only [pushSegment, Planner.block?_updateBlock, hby, Option.map_some]
    have hspeed : ((x.setRamp r).pushSegment cfg t r).planner.currentSpeed = r.currentSpeed :=
      Planner.updateBlock_currentSpeed
    refine inv_checkExit (t := t) (counts_pushSegment hcy hwy.stBlocks_ne hlt')
      h.exitSpeed_nonneg ?_ h.decelerateAfter_nonneg ?_ htt ?_ hbz (way_pushSegment hwy hr0) hset hr0
      hp.valid.mmComplete_nonneg fun hgo => ?_
    · rw [hspeed]
      exact hrv
    · exact Planner.updateBlock_plBlock.trans ht
    · exact Planner.updateBlock_velocityProfile.trans hvp
    · have hprofile : ((x.setRamp r).pushSegment cfg t r).profile (b.setMillimeters r.mmRemaining) =
          { x.profile b with millimeters := r.mmRemaining } := by
        simp only [profile, hset, PlanBlock.setMillimeters_acceleration]
        rfl
      refine ⟨?_, ?_, hp.hold, hgo.le.trans hset.ge⟩
      · rw [hprofile]
        exact ⟨hp.valid.acceleration_pos, hp.valid.decelerateAfter_nonneg,
          hp.valid.mmComplete_nonneg, hp.valid.exitSpeed_nonneg⟩
      · rw [hprofile, hspeed]
        exact ⟨hr0, hrv, hrs⟩

end Queue

/-- A block taken up with the speed of the generator as its entry speed. -/
structure Entered (x y : Prep K) (b : PlanBlock K) : Prop where
  counts : y.Counts
  exitSpeed_nonneg : 0 ≤ y.exitSpeed
  currentSpeed_nonneg : 0 ≤ y.planner.currentSpeed
  decelerateAfter_nonneg : 0 ≤ y.decelerateAfter
  plBlock_eq : y.planner.plBlock = some y.target
  velocityProfile_eq : y.planner.velocityProfile = false
  block_eq : y.planner.block? y.target = some b
  way : y.Way b
  entry_eq : b.entrySpeedSqr = y.planner.currentSpeed * y.planner.currentSpeed
  control_eq : y.control = x.control
  exitSpeedSqr_eq : y.exitSpeedSqr = x.exitSpeedSqr
  overrides_eq : y.planner.overrideFeedRate = x.planner.overrideFeedRate ∧
    y.planner.overrideRapidRate = x.planner.overrideRapidRate

/-- A block taken up, with a profile for it. -/
theorem Entered.inv {z : Prep K} (h : x.Entered y b) (hs : y.SameWork z) (hp : z.OnProfile b)
    (hmm : 0 < b.millimeters) (he : x.control.endMotion = false) :
    z.Inv ∧ z.planner.plBlock = some z.target ∧ z.control.endMotion = false := by
  have ht : z.target = y.target := target_eq (by rw [hs.control_eq])
  have hpl : z.planner.plBlock = some z.target := by
    rw [hs.planner_eq, ht]
    exact h.plBlock_eq
  refine ⟨?_, hpl, by rw [hs.control_eq, h.control_eq, he]⟩
  constructor
  · exact h.counts.congr hs.segments_eq hs.stBlocks_eq hs.stepsRemaining_eq
  · exact hp.valid.exitSpeed_nonneg
  · exact hs.planner_eq ▸ h.currentSpeed_nonneg
  · exact hp.valid.decelerateAfter_nonneg
  · intro t ht'
    obtain rfl : z.target = t := Option.some.inj (hpl.symm.trans ht')
    refine ⟨rfl, hs.planner_eq ▸ h.velocityProfile_eq, b, ?_, ?_, fun _ => hmm, fun _ => hp⟩
    · rw [hs.planner_eq, ht]
      exact h.block_eq
    · exact h.way.congr ⟨rfl, rfl, rfl⟩ hs.stBlocks_eq hs.stepsPerMm_eq hs.reqMmIncrement_eq
        hs.stepsRemaining_eq
  · intro hn
    simp [hpl] at hn
  · intro hn
    simp [hpl] at hn

variable [IsStrictOrderedRing K]

theorem way_initBlock (ha : 0 < b.acceleration) (hmm : 0 < b.millimeters)
    (hc : 0 < b.stepEventCount) : (x.initBlock b).Way b := by
  have hspm : (0 : K) < b.stepEventCount / b.millimeters := div_pos (Nat.cast_pos.mpr hc) hmm
  refine ⟨by simp [initBlock], ha, hspm, rfl, ?_⟩
  change b.stepEventCount = ⌈(b.stepEventCount : K) / b.millimeters * b.millimeters⌉₊
  rw [div_mul_cancel₀ _ hmm.ne', Nat.ceil_natCast]

/-- A block is taken up at the speed of the generator. -/
theorem entered_enterBlock {m : ExactMath K} {rpm : K} (h : x.Inv)
    (hpl : x.planner.plBlock = none) (hf : x.Feasible rpm)
    (hb : x.planner.block? x.target = some b) :
    ∃ v, Entered x (x.enterBlock m.toFloatMath b) (b.setEntry v) := by
  obtain ⟨ha, hmm, hc, he0, -⟩ := hf b hb
  unfold enterBlock
  by_cases hvp : x.planner.velocityProfile = true
  · obtain ⟨b0, hb0, hw, -, hentry⟩ := h.waiting hpl hvp
    obtain rfl : b = b0 := Option.some.inj (hb.symm.trans hb0)
    refine ⟨b.entrySpeedSqr, ?_⟩
    simp only [hvp, if_true]
    constructor
    · exact h.counts.congr rfl rfl rfl
    · exact h.exitSpeed_nonneg
    · exact h.currentSpeed_nonneg
    · exact h.decelerateAfter_nonneg
    · rfl
    · rfl
    · exact (Planner.block?_congr rfl rfl).trans hb
    · exact hw.congr ⟨rfl, rfl, rfl⟩ rfl rfl rfl rfl
    · exact hentry
    · rfl
    · rfl
    · exact ⟨rfl, rfl⟩
  · have hvf : x.planner.velocityProfile = false := by simpa using hvp
    have hcounts := counts_initBlock (b := b) h.counts (h.idle hpl hvf)
    have hway := way_initBlock (x := x) ha hmm hc
    have hby : (x.initBlock b).planner.block? (x.initBlock b).target = some b := hb
    have hframe : (x.initBlock b).control = x.control ∧ (x.initBlock b).planner = x.planner ∧
      (x.initBlock b).exitSpeed = x.exitSpeed ∧
      (x.initBlock b).decelerateAfter = x.decelerateAfter := ⟨rfl, rfl, rfl, rfl⟩
    obtain ⟨hctl, hplan, hexit, hdec⟩ := hframe
    simp only [hvf, Bool.false_eq_true, if_false]
    generalize x.initBlock b = y at hcounts hway hby hctl hplan hexit hdec ⊢
    have hxs : y.planner.execBlockExitSpeedSqr = x.planner.execBlockExitSpeedSqr := by rw [hplan]
    unfold enterSpeed
    split_ifs with hh
    · -- loaded in a deceleration, the block is entered at the exit speed of the last one
      refine ⟨y.exitSpeed * y.exitSpeed, ?_⟩
      constructor
      · exact hcounts.congr rfl rfl rfl
      · exact hexit ▸ h.exitSpeed_nonneg
      · exact hexit ▸ h.exitSpeed_nonneg
      · exact hdec ▸ h.decelerateAfter_nonneg
      · rfl
      · exact Planner.updateBlock_velocityProfile.trans (hplan ▸ hvf)
      · refine (Planner.block?_congr rfl rfl).trans (Planner.block?_updateBlock.trans ?_)
        exact congrArg (Option.map _) hby
      · exact hway.congr ⟨rfl, rfl, rfl⟩ rfl rfl rfl rfl
      · rfl
      · exact hctl
      · exact exitSpeedSqr_congr (congrArg _ hctl)
          (Planner.execBlockExitSpeedSqr_updateBlock.trans hxs)
      · exact hplan ▸ Planner.updateBlock_overrides
    · refine ⟨b.entrySpeedSqr, ?_⟩
      constructor
      · exact hcounts.congr rfl rfl rfl
      · exact hexit ▸ h.exitSpeed_nonneg
      · exact m.sqrtf_nonneg _
      · exact hdec ▸ h.decelerateAfter_nonneg
      · rfl
      · exact hplan ▸ hvf
      · exact (Planner.block?_congr rfl rfl).trans hby
      · exact hway.congr ⟨rfl, rfl, rfl⟩ rfl rfl rfl rfl
      · exact (m.sqrtf_mul_self _ he0).symm
      · exact hctl
      · exact exitSpeedSqr_congr (congrArg _ hctl) hxs
      · exact hplan ▸ ⟨rfl, rfl⟩

/-- Loading a feasible block, or its new plan, keeps the invariant. -/
theorem inv_loadProfile {m : ExactMath K} {rpm : K} (h : x.Inv)
    (hpl : x.planner.plBlock = none) (he : x.control.endMotion = false) (hf : x.Feasible rpm)
    (hy : x.loadProfile m.toFloatMath rpm = some y) :
    y.Inv ∧ y.planner.plBlock = some y.target ∧ y.control.endMotion = false := by
  unfold loadProfile at hy
  split at hy
  · cases hy
  · rename_i b hb
    obtain ⟨ha, hmm, hc, he0, hx0, hxn⟩ := hf b hb
    obtain ⟨v, hen⟩ := entered_enterBlock (m := m) h hpl hf hb
    dsimp only at hy
    rw [hen.block_eq, Option.getD_some] at hy
    split_ifs at hy with hh
    · cases hy
      refine hen.inv sameWork_holdProfile ?_ hmm he
      exact onProfile_holdProfile m ha hen.currentSpeed_nonneg hen.decelerateAfter_nonneg
        (hen.entry_eq ▸ mul_self_nonneg _) hh
    · cases hy
      refine hen.inv sameWork_normalProfile ?_ hmm he
      have hn : (x.enterBlock m.toFloatMath b).nominalSpeed rpm (b.setEntry v) =
          x.nominalSpeed rpm b := by
        unfold nominalSpeed
        rw [hen.overrides_eq.1, hen.overrides_eq.2]
        rfl
      exact onProfile_normalProfile m ha hmm hen.currentSpeed_nonneg hen.decelerateAfter_nonneg
        hen.entry_eq nominalSpeed_pos (hen.exitSpeedSqr_eq ▸ hx0)
        (by rw [hen.exitSpeedSqr_eq, hn]; exact hxn)

/-- Filling a segment keeps the invariant. -/
theorem inv_generate {cfg : StepperConfig K} {fuel : ℕ} {t : PrepTarget} {c : Bool} (h : x.Inv)
    (ht : x.planner.plBlock = some t) (he : x.control.endMotion = false)
    (hy : x.generate cfg fuel t = some (y, c)) : y.Inv := by
  obtain ⟨-, -, b, hb, hw, hmm, hp⟩ := h.inWork t ht
  have hp := hp he
  have hmm := hmm fun hd => by simp [hd.2] at he
  unfold generate at hy
  rw [hb] at hy
  dsimp only at hy
  split at hy
  · cases hy
  · rename_i r hr
    obtain ⟨hri, hend⟩ := Ramp.inv_of_loop hp.valid hp.inv ⟨(sub_zero _).symm, rfl⟩ hr
    have hq : (x.queueSegment cfg t r).1.Inv := inv_queueSegment h ht hb hw hmm hp hri hend
    rwa [Option.some.inj hy] at hq

/-- A segment is filled after finitely many passes of the ramp loop. -/
theorem exists_generate {cfg : StepperConfig K} {t : PrepTarget} (h : x.Inv)
    (ht : x.planner.plBlock = some t) (he : x.control.endMotion = false) :
    ∃ n, ∀ fuel ≥ n, (x.generate cfg fuel t).isSome := by
  obtain ⟨-, -, b, hb, -, -, hp⟩ := h.inWork t ht
  obtain ⟨n, r, hr⟩ : Transition.Returns (Ramp.pass (x.profile b) (x.minimumMm b))
      (Ramp.start (x.profile b) x.planner.currentSpeed x.rampType) :=
    Ramp.returns_start (hp he).valid (hp he).inv
  refine ⟨n, fun fuel hn => ?_⟩
  simp only [generate, hb, Transition.loop_mono hr hn, Option.isSome_some]

theorem inv_prepSegment {m : ExactMath K} {cfg : StepperConfig K} {rpm : K} {fuel : ℕ} {c : Bool}
    (h : x.Inv) (he : x.control.endMotion = false)
    (hf : x.planner.plBlock = none → x.Feasible rpm)
    (hy : x.prepSegment m.toFloatMath cfg rpm fuel = some (y, c)) : y.Inv := by
  unfold prepSegment at hy
  split at hy
  · rename_i t ht
    exact inv_generate h ht he hy
  · rename_i hpl
    split at hy
    · cases hy
      exact h
    · rename_i z hz
      obtain ⟨hi, ht, hez⟩ := inv_loadProfile h hpl he (hf hpl) hz
      exact inv_generate hi ht hez hy

theorem exists_prepSegment {m : ExactMath K} {cfg : StepperConfig K} {rpm : K}
    (h : x.Inv) (he : x.control.endMotion = false)
    (hf : x.planner.plBlock = none → x.Feasible rpm) :
    ∃ n, ∀ fuel ≥ n, (x.prepSegment m.toFloatMath cfg rpm fuel).isSome := by
  unfold prepSegment
  split
  · rename_i t ht
    exact exists_generate h ht he
  · rename_i hpl
    split
    · exact ⟨0, fun _ _ => rfl⟩
    · rename_i z hz
      obtain ⟨hi, ht, hez⟩ := inv_loadProfile h hpl he (hf hpl) hz
      exact exists_generate hi ht hez

/-- Nothing is left of a block whose way is done. -/
theorem Inv.stepsRemaining_eq_zero (h : x.Inv) (h0 : x.toGo = 0) : x.stepsRemaining = 0 := by
  have hblock : ∀ b, x.planner.block? x.target = some b → x.Way b →
      ¬ (x.planner.plBlock = none ∧ x.planner.velocityProfile = false) →
      x.stepsRemaining = 0 := by
    intro b hb hw hwork
    rw [toGo, if_neg hwork, hb] at h0
    rw [hw.stepsRemaining_eq, show b.millimeters = 0 from h0, mul_zero, Nat.ceil_zero]
  cases hpl : x.planner.plBlock with
  | some t =>
    obtain ⟨rfl, -, b, hb, hw, -⟩ := h.inWork t hpl
    exact hblock b hb hw (by simp [hpl])
  | none =>
    cases hvp : x.planner.velocityProfile with
    | false => exact h.idle hpl hvp
    | true =>
      obtain ⟨b, hb, hw, -⟩ := h.waiting hpl hvp
      exact hblock b hb hw (by simp [hvp])

section Run

variable {m : ExactMath K} {s : Settings K} {cfg : StepperConfig K}

theorem inv_step (h : x.Inv) (hs : Step m s cfg x y) : y.Inv := by
  cases hs with
  | line rpm goal plData hsys =>
    apply h.replan
    have ht : x.target = .tail := by simp [target, hsys]
    rw [ht]
    exact Planner.retimed_planBufferLine _ _ _ _ _
  | replan => exact h.replan Planner.retimed_planCycleReinitialize
  | override => exact h.replan Planner.retimed_planFeedOverrideRates
  | hold =>
    exact (h.replan Planner.retimed_stUpdate).setControl Planner.stUpdate_plBlock rfl id
  | resume hsys =>
    refine (h.replan Planner.retimed_planCycleReinitialize).setControl
      Planner.planCycleReinitialize_plBlock hsys.symm fun _ hd => ?_
    exact absurd hd.1 (by simp [hsys])
  | prep rpm fuel c he hf hy => exact inv_prepSegment h he hf hy

theorem inv_steps (h : x.Inv) (hs : Relation.ReflTransGen (Step m s cfg) x y) : y.Inv := by
  induction hs with
  | refl => exact h
  | tail _ hstep ih => exact inv_step ih hstep

/-- The arithmetic of the reals. -/
noncomputable def realMath : ExactMath ℝ where
  sqrtf := Real.sqrt
  twoPi := 710 / 113
  sqrtf_nonneg := Real.sqrt_nonneg
  sqrtf_mul_self _ := Real.mul_self_sqrt

/-- A block of ten steps and one millimetre. -/
def tenSteps : PlanBlock ℝ where
  steps i := if i = .x then 10 else 0
  stepEventCount := 10
  direction _ := false
  condition := {}
  lineNumber := 0
  targetMm i := if i = .x then 1 else 0
  entrySpeedSqr := 0
  maxEntrySpeedSqr := 0
  acceleration := 18000000
  millimeters := 1
  maxJunctionSpeedSqr := 0
  rapidRate := 4000
  programmedRate := 4000
  rateMultiplier := 1
  spindle := ⟨0, false, none⟩
  message := none
  outputCommands := []
  maxEntrySpeedSqr_nonneg := le_rfl
  acceleration_nonneg := by norm_num
  millimeters_nonneg := zero_le_one
  maxJunctionSpeedSqr_nonneg := le_rfl

def tenStepsPlanner : Planner ℝ where
  position := 0
  previousUnitVec := 0
  previousNominalSpeed := 4000
  overrideFeedRate := 100
  overrideRapidRate := 100
  queue := [tenSteps]
  planned := 0
  systemBlock := none
  direction _ := false
  sysPosition := 0
  plBlock := none
  currentSpeed := 0
  velocityProfile := false

theorem feasible_tenSteps : (stReset tenStepsPlanner false).Feasible 0 := by
  intro b hb
  obtain rfl : tenSteps = b := Option.some.inj hb
  refine ⟨?_, zero_lt_one, Nat.succ_pos _, le_rfl, le_rfl, mul_self_nonneg _⟩
  norm_num [tenSteps]

end Run

end Prep

end Inspector
