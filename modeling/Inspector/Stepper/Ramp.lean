import Inspector.Numerals
import Inspector.Transition.Loop
import Mathlib.Algebra.Order.Archimedean.Basic
import Mathlib.Tactic.LinearCombination
import Mathlib.Tactic.Linarith
import Mathlib.Tactic.Ring

/-! # The ramp loop of the segment generator

A segment is filled by the `do`-`while` loop of `st_prep_buffer`, which walks down the velocity
profile of the block in steps of time. A ramp junction may give the next step any time, also a
negative one, but only once for each ramp, and every other step takes a whole segment time. So the
loop terminates, and it never leaves the block at its far end.
-/

namespace Inspector

variable {K : Type*} [Field K] [LinearOrder K]

/-- `ramp_type_t`. -/
inductive RampType | accel | cruise | decel | decelOverride
  deriving DecidableEq, Repr

/-- `DT_SEGMENT`, in minutes. -/
def dtSegment : K := 1 / 6000

/-- What the loop reads: the block, its distance to go before the segment, and its profile. -/
structure Profile (K : Type*) where
  acceleration : K
  millimeters : K
  accelerateUntil : K
  decelerateAfter : K
  maximumSpeed : K
  exitSpeed : K
  mmComplete : K

/-- What the loop changes. -/
structure Ramp (K : Type*) where
  mmRemaining : K
  timeVar : K
  dt : K
  dtMax : K
  currentSpeed : K
  rampType : RampType

namespace Ramp

section Switch

variable (c : Profile K) (s : Ramp K)

/-- `case Ramp_DecelOverride`. -/
def decelOverrideStep : Ramp K :=
  let speedVar := c.acceleration * s.timeVar
  if s.currentSpeed - c.maximumSpeed ≤ speedVar then
    { s with
      mmRemaining := c.accelerateUntil
      timeVar := 2 * (c.millimeters - c.accelerateUntil) / (s.currentSpeed + c.maximumSpeed)
      rampType := .cruise
      currentSpeed := c.maximumSpeed }
  else
    { s with
      mmRemaining := s.mmRemaining - s.timeVar * (s.currentSpeed - 1 / 2 * speedVar)
      currentSpeed := s.currentSpeed - speedVar }

/-- `case Ramp_Accel`; jerk acceleration is not configured. -/
def accelStep : Ramp K :=
  let speedVar := c.acceleration * s.timeVar
  let mmRemaining := s.mmRemaining - s.timeVar * (s.currentSpeed + 1 / 2 * speedVar)
  if mmRemaining < c.accelerateUntil then
    { s with
      mmRemaining := c.accelerateUntil
      timeVar := 2 * (c.millimeters - c.accelerateUntil) / (s.currentSpeed + c.maximumSpeed)
      rampType := if c.accelerateUntil = c.decelerateAfter then .decel else .cruise
      currentSpeed := c.maximumSpeed }
  else { s with mmRemaining := mmRemaining, currentSpeed := s.currentSpeed + speedVar }

/-- `case Ramp_Cruise`. -/
def cruiseStep : Ramp K :=
  let mmVar := s.mmRemaining - c.maximumSpeed * s.timeVar
  if mmVar < c.decelerateAfter then
    { s with
      timeVar := (s.mmRemaining - c.decelerateAfter) / c.maximumSpeed
      mmRemaining := c.decelerateAfter
      rampType := .decel }
  else { s with mmRemaining := mmVar }

/-- `case Ramp_Decel`. -/
def decelStep : Ramp K :=
  let speedVar := c.acceleration * s.timeVar
  let mmVar := s.mmRemaining - s.timeVar * (s.currentSpeed - 1 / 2 * speedVar)
  if s.currentSpeed > speedVar ∧ mmVar > c.mmComplete then
    { s with mmRemaining := mmVar, currentSpeed := s.currentSpeed - speedVar }
  else
    { s with
      timeVar := 2 * (s.mmRemaining - c.mmComplete) / (s.currentSpeed + c.exitSpeed)
      mmRemaining := c.mmComplete
      currentSpeed := c.exitSpeed }

/-- The `switch` over the ramp types. -/
def switch : Ramp K :=
  match s.rampType with
  | .decelOverride => s.decelOverrideStep c
  | .accel => s.accelStep c
  | .cruise => s.cruiseStep c
  | .decel => s.decelStep c

end Switch

/-- One pass through the loop. -/
def pass (c : Profile K) (minimumMm : K) (s : Ramp K) : Ramp K ⊕ Ramp K :=
  let s := s.switch c
  let s := { s with dt := s.dt + s.timeVar }
  let continue' := fun s : Ramp K => if s.mmRemaining > c.mmComplete then .inl s else .inr s
  if s.dt < s.dtMax then continue' { s with timeVar := s.dtMax - s.dt }
  else if s.mmRemaining > minimumMm then
    continue' { s with dtMax := s.dtMax + dtSegment, timeVar := s.dtMax + dtSegment - s.dt }
  else .inr s

/-- The state in which the loop is entered. -/
def start (c : Profile K) (currentSpeed : K) (rampType : RampType) : Ramp K where
  mmRemaining := c.millimeters
  timeVar := dtSegment
  dt := 0
  dtMax := dtSegment
  currentSpeed := currentSpeed
  rampType := rampType

/-- The next step takes the time left to the end of the segment. -/
def OnTime (s : Ramp K) : Prop := s.timeVar = s.dtMax - s.dt

variable {c : Profile K} {minimumMm : K} {s s' r : Ramp K}

/-- A pass that stays in the loop keeps what the `switch` has computed and sets the next time. -/
theorem pass_inl (h : s.pass c minimumMm = .inl s') :
    (s'.mmRemaining = (s.switch c).mmRemaining ∧
      s'.currentSpeed = (s.switch c).currentSpeed ∧ s'.rampType = (s.switch c).rampType) ∧
    c.mmComplete < s'.mmRemaining ∧ s'.OnTime ∧
    ((s.switch c).timeVar = s.timeVar → (s.switch c).dt = s.dt → (s.switch c).dtMax = s.dtMax →
      s.OnTime → s'.timeVar = dtSegment) := by
  unfold pass at h
  dsimp only at h
  split_ifs at h with hdt hmc hmin hmc
  · cases h
    refine ⟨⟨rfl, rfl, rfl⟩, hmc, rfl, fun ht hd hm hs => ?_⟩
    rw [ht, hd, hm, show s.timeVar = s.dtMax - s.dt from hs] at hdt
    exact absurd hdt (by simp)
  · cases h
    refine ⟨⟨rfl, rfl, rfl⟩, hmc, rfl, fun ht hd hm hs => ?_⟩
    dsimp only
    rw [ht, hd, hm, show s.timeVar = s.dtMax - s.dt from hs]
    ring

/-- The loop is left at the end of the profile, or with the way of one step behind it. -/
theorem pass_inr (h : s.pass c minimumMm = .inr r) :
    (r.mmRemaining = (s.switch c).mmRemaining ∧
      r.currentSpeed = (s.switch c).currentSpeed ∧ r.rampType = (s.switch c).rampType) ∧
    (r.mmRemaining ≤ c.mmComplete ∨ r.mmRemaining ≤ minimumMm) := by
  unfold pass at h
  dsimp only at h
  split_ifs at h with hdt hmc hmin hmc
  · cases h
    exact ⟨⟨rfl, rfl, rfl⟩, .inl (not_lt.mp hmc)⟩
  · cases h
    exact ⟨⟨rfl, rfl, rfl⟩, .inl (not_lt.mp hmc)⟩
  · cases h
    exact ⟨⟨rfl, rfl, rfl⟩, .inr (not_lt.mp hmin)⟩

end Ramp

/-- A profile over a block that can be accelerated, with its marks on the way to the end. -/
structure Profile.Valid (c : Profile K) : Prop where
  acceleration_pos : 0 < c.acceleration
  decelerateAfter_nonneg : 0 ≤ c.decelerateAfter
  mmComplete_nonneg : 0 ≤ c.mmComplete
  exitSpeed_nonneg : 0 ≤ c.exitSpeed

namespace Ramp

variable {c : Profile K} {minimumMm : K} {s s' r : Ramp K}

/-- What holds of the speed on each ramp. -/
def SpeedInv (c : Profile K) (s : Ramp K) : Prop :=
  match s.rampType with
  | .decelOverride => c.mmComplete = 0 ∧ 0 < c.maximumSpeed ∧ 0 ≤ c.accelerateUntil ∧
      s.currentSpeed ^ 2 - c.maximumSpeed ^ 2 =
        2 * c.acceleration * (s.mmRemaining - c.accelerateUntil)
  | .accel => c.mmComplete = 0 ∧ 0 < c.maximumSpeed ∧ 0 ≤ c.accelerateUntil
  | .cruise => c.mmComplete = 0 ∧ 0 < c.maximumSpeed
  | .decel => True

/-- A block on its way: neither its distance to go nor its speed is negative. -/
def Inv (c : Profile K) (s : Ramp K) : Prop :=
  0 ≤ s.mmRemaining ∧ 0 ≤ s.currentSpeed ∧ s.SpeedInv c

theorem Inv.congr (h : s.Inv c) (hmm : s'.mmRemaining = s.mmRemaining)
    (hv : s'.currentSpeed = s.currentSpeed) (hr : s'.rampType = s.rampType) : s'.Inv c := by
  unfold Inv SpeedInv at h ⊢
  rwa [hmm, hv, hr]

/-- A step that takes the time it was given is followed by one of a whole segment time. -/
def Steady (s : Ramp K) : Prop := s.OnTime ∧ s.timeVar = dtSegment

theorem steady_of_pass (hs : s.OnTime) (h : s.pass c minimumMm = .inl s')
    (hk : (s.switch c).timeVar = s.timeVar ∧ (s.switch c).dt = s.dt ∧
      (s.switch c).dtMax = s.dtMax) : s'.Steady := by
  obtain ⟨-, -, hon, hdt⟩ := pass_inl h
  exact ⟨hon, hdt hk.1 hk.2.1 hk.2.2 hs⟩

/-- Still on the acceleration ramp, the step took the time it was given. -/
theorem switch_times (h : (s.switch c).rampType = .accel) :
    (s.switch c).timeVar = s.timeVar ∧ (s.switch c).dt = s.dt ∧
      (s.switch c).dtMax = s.dtMax := by
  cases hr : s.rampType with
  | decelOverride =>
    simp only [switch, hr, decelOverrideStep] at h
    split_ifs at h
  | accel =>
    simp only [switch, hr, accelStep] at h ⊢
    split_ifs at h ⊢
    exact ⟨rfl, rfl, rfl⟩
  | cruise =>
    simp only [switch, hr, cruiseStep] at h
    split_ifs at h
  | decel =>
    simp only [switch, hr, decelStep] at h
    split_ifs at h

variable [IsStrictOrderedRing K]

theorem dtSegment_pos : (0 : K) < dtSegment := by
  unfold dtSegment
  positivity

theorem inv_switch (hc : c.Valid) (h : s.Inv c) (ht : s.rampType = .accel → 0 ≤ s.timeVar) :
    (s.switch c).Inv c := by
  obtain ⟨hmm, hv, hs⟩ := h
  unfold SpeedInv at hs
  unfold switch Inv SpeedInv
  cases hr : s.rampType with
  | decelOverride =>
    rw [hr] at hs
    obtain ⟨hmc, hmax, hacc, henergy⟩ := hs
    unfold decelOverrideStep
    dsimp only
    split_ifs with hj
    · exact ⟨hacc, hmax.le, hmc, hmax⟩
    · -- the speed stays above the maximum, so the junction is not yet reached
      have hv' : c.maximumSpeed < s.currentSpeed - c.acceleration * s.timeVar := by
        linarith only [not_le.mp hj]
      have henergy' : (s.currentSpeed - c.acceleration * s.timeVar) ^ 2 - c.maximumSpeed ^ 2 =
          2 * c.acceleration * (s.mmRemaining - s.timeVar *
            (s.currentSpeed - 1 / 2 * (c.acceleration * s.timeVar)) - c.accelerateUntil) := by
        linear_combination henergy
      rw [hr]
      refine ⟨?_, (hmax.trans hv').le, hmc, hmax, hacc, henergy'⟩
      have hpos := sub_pos.mpr (pow_lt_pow_left₀ hv' hmax.le two_ne_zero)
      rw [henergy'] at hpos
      have hgo := (pos_iff_pos_of_mul_pos hpos).mp (mul_pos two_pos hc.acceleration_pos)
      linarith only [hgo, hacc]
  | accel =>
    rw [hr] at hs
    unfold accelStep
    dsimp only
    split_ifs with hj hd
    · exact ⟨hs.2.2, hs.2.1.le, trivial⟩
    · exact ⟨hs.2.2, hs.2.1.le, hs.1, hs.2.1⟩
    · rw [hr]
      refine ⟨hs.2.2.trans (not_lt.mp hj), add_nonneg hv ?_, hs⟩
      exact mul_nonneg hc.acceleration_pos.le (ht hr)
  | cruise =>
    rw [hr] at hs
    unfold cruiseStep
    dsimp only
    split_ifs with hj
    · exact ⟨hc.decelerateAfter_nonneg, hv, trivial⟩
    · rw [hr]
      exact ⟨hc.decelerateAfter_nonneg.trans (not_lt.mp hj), hv, hs⟩
  | decel =>
    unfold decelStep
    dsimp only
    split_ifs with hj
    · rw [hr]
      exact ⟨hc.mmComplete_nonneg.trans hj.2.le, (sub_pos.mpr hj.1).le, trivial⟩
    · rw [hr]
      exact ⟨hc.mmComplete_nonneg, hc.exitSpeed_nonneg, trivial⟩

/-- What holds when the loop is left. -/
theorem inv_of_loop {n : ℕ} (hc : c.Valid) (h : s.Inv c) (hs : s.Steady)
    (hl : Transition.loop (pass c minimumMm) n s = some r) :
    r.Inv c ∧ (r.mmRemaining ≤ c.mmComplete ∨ r.mmRemaining ≤ minimumMm) := by
  have hnonneg : ∀ s : Ramp K, (s.rampType = .accel → s.Steady) →
      s.rampType = .accel → 0 ≤ s.timeVar := fun s hs hr => (hs hr).2.ge.trans' dtSegment_pos.le
  refine Transition.loop_post
    (I := fun s => s.Inv c ∧ s.OnTime ∧ (s.rampType = .accel → s.Steady))
    (Q := fun r => r.Inv c ∧ (r.mmRemaining ≤ c.mmComplete ∨ r.mmRemaining ≤ minimumMm))
    ?_ ?_ ⟨h, hs.1, fun _ => hs⟩ hl
  · rintro s s' ⟨hi, hon, hs⟩ hb
    obtain ⟨⟨hmm, hv, hr⟩, -, hon', -⟩ := pass_inl hb
    refine ⟨(inv_switch hc hi (hnonneg s hs)).congr hmm hv hr, hon', fun ha => ?_⟩
    exact steady_of_pass hon hb (switch_times (hr.symm.trans ha))
  · rintro s r ⟨hi, -, hs⟩ hb
    obtain ⟨⟨hmm, hv, hr⟩, hend⟩ := pass_inr hb
    exact ⟨(inv_switch hc hi (hnonneg s hs)).congr hmm hv hr, hend⟩

section Termination

open Transition

variable [Archimedean K]

/-- The loop returns if each pass ends a ramp for good or, being one of a whole segment time,
lowers a quantity that is positive on the ramp. -/
theorem returns_of_descent {I : Ramp K → Prop} {f : Ramp K → K} {δ : K} (hδ : 0 < δ)
    (hpass : ∀ s s', I s → s.OnTime → s.pass c minimumMm = .inl s' →
      Returns (pass c minimumMm) s' ∨
        s'.Steady ∧ I s' ∧ (s.timeVar = dtSegment → 0 < f s ∧ f s' + δ ≤ f s))
    (hI : I s) (hs : s.OnTime) : Returns (pass c minimumMm) s := by
  have hsteady : ∀ s, s.Steady → I s → Returns (pass c minimumMm) s := by
    intro s hs hI
    obtain ⟨n, hn⟩ := Archimedean.arch (f s) hδ
    apply Returns.of_rank (n := n) (P := fun n s => s.Steady ∧ I s ∧ f s ≤ n • δ) ?_ ⟨hs, hI, hn⟩
    rintro n s s' ⟨hs, hI, hn⟩ hb
    rcases hpass s s' hI hs.1 hb with hr | ⟨hs', hI', hf⟩
    · exact .inl hr
    · obtain ⟨hpos, hle⟩ := hf hs.2
      cases n with
      | zero =>
        rw [zero_nsmul] at hn
        exact absurd hpos hn.not_gt
      | succ n =>
        refine .inr ⟨n, n.lt_succ_self, hs', hI', ?_⟩
        rw [succ_nsmul] at hn
        exact le_of_add_le_add_right (hle.trans hn)
  apply Returns.of_pass
  intro s' hb
  rcases hpass s s' hI hs hb with hr | ⟨hs', hI', -⟩
  · exact hr
  · exact hsteady s' hs' hI'

theorem returns_decel (hc : c.Valid) (hs : s.OnTime) (hr : s.rampType = .decel) :
    Returns (pass c minimumMm) s := by
  have hδ : 0 < c.acceleration * dtSegment := mul_pos hc.acceleration_pos dtSegment_pos
  refine returns_of_descent (I := fun s => s.rampType = .decel) (f := currentSpeed) hδ ?_ hr hs
  intro s s' hr hs hb
  obtain ⟨⟨hmm, hv, hr'⟩, hgo, -⟩ := pass_inl hb
  have hst := steady_of_pass hs hb
  simp only [switch, hr, decelStep] at hmm hv hr' hst
  split_ifs at hmm hv hr' hst with hj
  · refine .inr ⟨hst ⟨rfl, rfl, rfl⟩, hr', fun ht => ?_⟩
    have hlt := hj.1
    rw [ht] at hlt hv
    exact ⟨hδ.trans hlt, by rw [hv]; simp⟩
  · exact absurd hgo (by rw [hmm]; exact lt_irrefl _)

theorem returns_cruise (hc : c.Valid) (hmax : 0 < c.maximumSpeed) (hs : s.OnTime)
    (hr : s.rampType = .cruise) : Returns (pass c minimumMm) s := by
  have hδ : 0 < c.maximumSpeed * dtSegment := mul_pos hmax dtSegment_pos
  refine returns_of_descent (I := fun s => s.rampType = .cruise)
    (f := fun s => s.mmRemaining - c.decelerateAfter) hδ ?_ hr hs
  intro s s' hr hs hb
  obtain ⟨⟨hmm, hv, hr'⟩, -, hon, -⟩ := pass_inl hb
  have hst := steady_of_pass hs hb
  simp only [switch, hr, cruiseStep] at hmm hr' hst
  split_ifs at hmm hr' hst with hj
  · exact .inl (returns_decel hc hon hr')
  · refine .inr ⟨hst ⟨rfl, rfl, rfl⟩, hr', fun ht => ?_⟩
    rw [ht] at hj hmm
    dsimp only at hmm ⊢
    constructor
    · linarith only [hj, hδ]
    · linarith only [hmm]

theorem returns_accel (hc : c.Valid) (hmax : 0 < c.maximumSpeed) (hs : s.Steady)
    (hv0 : 0 ≤ s.currentSpeed) (hr : s.rampType = .accel) : Returns (pass c minimumMm) s := by
  have hδ : 0 < dtSegment * (1 / 2 * (c.acceleration * dtSegment)) :=
    mul_pos dtSegment_pos (mul_pos (by norm_num) (mul_pos hc.acceleration_pos dtSegment_pos))
  refine returns_of_descent
    (I := fun s => s.rampType = .accel ∧ 0 ≤ s.currentSpeed ∧ s.timeVar = dtSegment)
    (f := fun s => s.mmRemaining - c.accelerateUntil) hδ ?_ ⟨hr, hv0, hs.2⟩ hs.1
  rintro s s' ⟨hr, hv0, ht⟩ hs hb
  obtain ⟨⟨hmm, hv, hr'⟩, -, hon, -⟩ := pass_inl hb
  have hst := steady_of_pass hs hb
  simp only [switch, hr, accelStep] at hmm hv hr' hst
  split_ifs at hmm hv hr' hst with hj hd
  · exact .inl (returns_decel hc hon hr')
  · exact .inl (returns_cruise hc hmax hon hr')
  · have hst := hst ⟨rfl, rfl, rfl⟩
    have hmul : 0 ≤ (dtSegment : K) * s.currentSpeed := mul_nonneg dtSegment_pos.le hv0
    rw [ht] at hj hmm hv
    refine .inr ⟨hst, ⟨hr', ?_, hst.2⟩, fun _ => ?_⟩
    · rw [hv]
      exact add_nonneg hv0 (mul_nonneg hc.acceleration_pos.le dtSegment_pos.le)
    · dsimp only at hmm ⊢
      constructor
      · linarith only [hj, hδ, hmul]
      · linarith only [hmm, hmul]

theorem returns_decelOverride (hc : c.Valid) (hmax : 0 < c.maximumSpeed) (hs : s.OnTime)
    (hr : s.rampType = .decelOverride) : Returns (pass c minimumMm) s := by
  have hδ : 0 < c.acceleration * dtSegment := mul_pos hc.acceleration_pos dtSegment_pos
  refine returns_of_descent (I := fun s => s.rampType = .decelOverride)
    (f := fun s => s.currentSpeed - c.maximumSpeed) hδ ?_ hr hs
  intro s s' hr hs hb
  obtain ⟨⟨hmm, hv, hr'⟩, -, hon, -⟩ := pass_inl hb
  have hst := steady_of_pass hs hb
  simp only [switch, hr, decelOverrideStep] at hmm hv hr' hst
  split_ifs at hmm hv hr' hst with hj
  · exact .inl (returns_cruise hc hmax hon hr')
  · refine .inr ⟨hst ⟨rfl, rfl, rfl⟩, hr', fun ht => ?_⟩
    rw [ht] at hj hv
    dsimp only at hv ⊢
    constructor
    · linarith only [hj, hδ]
    · linarith only [hv]

/-- The loop terminates for every segment of a block. -/
theorem returns_start {currentSpeed : K} {rampType : RampType} (hc : c.Valid)
    (h : (start c currentSpeed rampType).Inv c) :
    Returns (pass c minimumMm) (start c currentSpeed rampType) := by
  have hs : (start c currentSpeed rampType).Steady := ⟨(sub_zero _).symm, rfl⟩
  obtain ⟨-, hv, hsp⟩ := h
  cases rampType with
  | decelOverride => exact returns_decelOverride hc hsp.2.1 hs.1 rfl
  | accel => exact returns_accel hc hsp.2.1 hs hv rfl
  | cruise => exact returns_cruise hc hsp.2 hs.1 rfl
  | decel => exact returns_decel hc hs.1 rfl

end Termination

end Ramp

end Inspector
