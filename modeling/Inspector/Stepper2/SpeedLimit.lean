import Inspector.Stepper2.Delays
import Inspector.Transition.Partial

/-! # The speed limit of the secondary stepper motor

The delay in front of a step is to be at least the one that belongs to the speed in effect. While
the speed goes down, this is the speed that it comes from.
-/

namespace Inspector

namespace Stepper2

variable {K : Type*}

/-- A motor, and the speed that is in effect. -/
structure Driven (K : Type*) where
  motor : Motor K
  inEffect : K

/-- What is called; all speeds are positive. -/
inductive Command (K : Type*) [Zero K] [LT K]
  | move (distance speed : K) (pos : 0 < speed) (type : PositionType) (now : ℕ)
  | setSpeed (speed : K) (pos : 0 < speed)
  | call (c : Call)

namespace Motor

/-- A call makes a step. -/
def Due (m : Motor K) : Call → Prop
  | .irq => m.timer.isSome = true
  | .poll now => m.polling = true ∧ m.state ≠ .idle ∧ m.delay ≤ subWord 64 now m.nextStep

instance (m : Motor K) : ∀ c, Decidable (m.Due c)
  | .irq => inferInstanceAs (Decidable (_ = _))
  | .poll _ => inferInstanceAs (Decidable (_ ∧ _))

theorem due_moving {m : Motor K} {c : Call} (ht : m.Timed) (h : m.Due c) : m.state ≠ .idle := by
  cases c with
  | irq => exact (ht h).2
  | poll now => exact h.2.1

theorem call_of_not_due [Zero K] {m : Motor K} {c : Call} (h : ¬m.Due c) :
    m.call c = some (m, []) := by
  cases c with
  | irq => exact if_neg h
  | poll now => exact if_neg h

theorem call_of_due [Zero K] {m s : Motor K} {c : Call} (ht : m.Timed) (h : m.Due c)
    (hs : m.advance = some s) : ∃ m' out, m.call c = some (m', out) ∧ m.Steps m' out := by
  have hrun : m.motorRun = some (s.outputStep, [s.pulse]) := by
    rw [motorRun, hs]
    rfl
  obtain ⟨m', out, hcall, hout⟩ : ∃ m' out, m.call c = some (m', out) ∧ out ≠ [] := by
    cases c with
    | irq =>
      have htimer : m.timer.isSome = true := h
      rw [call, if_pos htimer, motorIrq, hrun]
      exact ⟨_, _, rfl, List.cons_ne_nil _ _⟩
    | poll now =>
      have hpoll : m.polling = true ∧ m.state ≠ .idle ∧ m.delay ≤ subWord 64 now m.nextStep := h
      rw [call, st2MotorRun, if_pos hpoll, hrun]
      exact ⟨_, _, rfl, List.cons_ne_nil _ _⟩
  exact ⟨m', out, hcall, (steps_of_call ht hcall).resolve_left fun hnone => hout hnone.2⟩

theorem setRamps_eq (m : Motor K) : ∃ a b, m.setRamps = { m with stepRun := a, stepDown := b } := by
  rw [setRamps]
  split_ifs
  · exact ⟨_, _, rfl⟩
  · exact ⟨_, _, rfl⟩

/-- A motor with its move. -/
def aim [Field K] [LinearOrder K] [FloorRing K] (m : Motor K) (distance : K)
    (type : PositionType) : Motor K :=
  { m with
    ptype := type
    dir := if distance < 0 then m.axis else 0
    move := m.moveSteps distance type }

/-- What a move does when its speed has been set. -/
theorem move_cases [Field K] [LinearOrder K] [FloorRing K] {m m' : Motor K} {distance speed : K}
    {type : PositionType} (hspeed : 0 < speed) (now : ℕ)
    (hm : ((m.aim distance type).st2MotorSetSpeed speed).2 = m') :
    m'.state = .idle ∧ m.st2MotorMove distance speed type now =
        (true, [m'.pulse], { m' with position := m'.stepped }) ∨
      m.st2MotorMove distance speed type now = (false, [], m') ∨
      m.st2MotorMove distance speed type now = (true, [], m'.setRamps.begin now) := by
  have hmove : m.st2MotorMove distance speed type now =
      if m'.move = 1 ∧ type = .steps then
        if m'.state = .idle then (true, [m'.pulse], { m' with position := m'.stepped })
        else (false, [], m')
      else if type ≠ .infiniteSteps ∧ m'.move = 0 then (false, [], m')
      else (true, [], m'.setRamps.begin now) := by
    subst hm
    exact if_neg hspeed.ne'
  rw [hmove]
  split_ifs with hsingle hidle hnone
  · exact .inl ⟨hidle, rfl⟩
  · exact .inr (.inl rfl)
  · exact .inr (.inl rfl)
  · exact .inr (.inr rfl)

end Motor

namespace Driven

variable [Field K] [LinearOrder K] [FloorRing K]

/-- A command; a lower speed comes into effect with the first step that is not one of a ramp down,
or when a move begins. -/
def exec (x : Driven K) : Command K → Option (List Pulse × Driven K)
  | .move distance speed _ type now =>
    let r := x.motor.st2MotorMove distance speed type now
    some (r.2.1, ⟨r.2.2, if r.1 then r.2.2.speed else max x.inEffect r.2.2.speed⟩)
  | .setSpeed speed _ =>
    let m := (x.motor.st2MotorSetSpeed speed).2
    some ([], ⟨m, max x.inEffect m.speed⟩)
  | .call c =>
    (x.motor.call c).map fun r =>
      (r.2, ⟨r.1, if r.2 = [] ∨ r.1.state = .decel ∨ r.1.state = .decelTo then x.inEffect
        else r.1.speed⟩)

/-- The motor keeps to the limit, the delay is not zero, and what is computed is what there is in
numbers without bounds. -/
structure Good (x : Driven K) (c : Command K) (out : List Pulse) (x' : Driven K) : Prop where
  limit : x'.motor.state ≠ .idle → Motor.limit x'.inEffect ≤ x'.motor.delay
  pos : x'.motor.state ≠ .idle → 0 < x'.motor.delay
  exact : match c with
    | .move .. | .setSpeed .. =>
      0 < x'.motor.speed ∧ x'.motor.minDelay = Motor.limit x'.motor.speed
    | .call _ => out ≠ [] → Motor.Exact x.motor x'.motor

/-- Every command of a run keeps to the limit. -/
def KeepsLimit (x : Driven K) (cs : List (Command K)) : Prop :=
  Transition.Fine exec Good x cs

/-- A speed or a step that the delays are made for. -/
def Meets (x : Driven K) : Command K → Prop
  | .move _ speed _ _ _ | .setSpeed speed _ => x.motor.SuitsSpeed speed
  | .call c => x.motor.Due c → x.motor.SuitsStep (Motor.limit x.inEffect)

instance (x : Driven K) : ∀ c, Decidable (Meets x c)
  | .move .. => inferInstanceAs (Decidable (Motor.SuitsSpeed _ _))
  | .setSpeed .. => inferInstanceAs (Decidable (Motor.SuitsSpeed _ _))
  | .call _ => inferInstanceAs (Decidable (_ → _))

/-- What every command keeps. -/
structure Tracks (x : Driven K) : Prop where
  timed : x.motor.Timed
  limited : x.motor.prevSpeed ≠ 0 ∨ x.motor.state ≠ .idle → Motor.Limited x.motor
  moving : x.motor.state ≠ .idle → Motor.Moving (Motor.limit x.inEffect) x.motor
  inEffect : x.motor.state ≠ .idle → 0 < x.inEffect ∧ 1 ≤ Motor.limit x.inEffect

variable {x : Driven K}

/-- A motor that keeps to the limit keeps to it when its speed is set. -/
theorem Tracks.speedSet [IsStrictOrderedRing K] (h : Tracks x) {m : Motor K}
    (hset : Motor.SpeedSet x.motor m) : Tracks ⟨m, max x.inEffect m.speed⟩ := by
  have hl := hset.limited
  have hle : x.motor.state ≠ .idle →
      Motor.limit (max x.inEffect m.speed) ≤ Motor.limit x.inEffect :=
    fun hmoves => Motor.limit_le_limit (h.inEffect hmoves).1 (le_max_left _ _)
  refine ⟨fun htimer => ?_, fun _ => hl, fun hmoves => ?_, fun hmoves => ?_⟩
  · rw [hset.timer] at htimer
    obtain ⟨hpolling, hmoves⟩ := h.timed htimer
    exact ⟨hset.polling.trans hpolling, fun hidle => hmoves (hset.idle.mp hidle)⟩
  · have hmoves' : x.motor.state ≠ .idle := fun hidle => hmoves (hset.idle.mpr hidle)
    have hm := h.moving hmoves'
    refine ⟨hmoves, ?_, ?_, fun hrun => ?_⟩
    · rw [hset.denom]
      exact hm.denom
    · rw [hset.delay]
      exact (hle hmoves').trans hm.delay
    · have hsame := hset.cruise hrun
      subst hsame
      exact hm.cruise hrun
  · have hmoves' : x.motor.state ≠ .idle := fun hidle => hmoves (hset.idle.mpr hidle)
    obtain ⟨hpos, hone⟩ := h.inEffect hmoves'
    refine ⟨lt_max_of_lt_left hpos, ?_⟩
    change 1 ≤ Motor.limit (max x.inEffect m.speed)
    rcases max_choice x.inEffect m.speed with hmax | hmax <;> rw [hmax]
    · exact hone
    · exact hl.minDelay ▸ hl.one_le

theorem Tracks.good (h : Tracks x) (hmoves : x.motor.state ≠ .idle) :
    Motor.limit x.inEffect ≤ x.motor.delay ∧ 0 < x.motor.delay :=
  ⟨(h.moving hmoves).delay, (h.inEffect hmoves).2.trans (h.moving hmoves).delay⟩

/-- A step is made. -/
theorem Tracks.step (h : Tracks x) {m : Motor K} {out : List Pulse} (hrun : x.motor.Steps m out)
    (hsuits : x.motor.SuitsStep (Motor.limit x.inEffect)) :
    Tracks ⟨m, if out = [] ∨ m.state = .decel ∨ m.state = .decelTo then x.inEffect else m.speed⟩ ∧
      Motor.Exact x.motor m := by
  have hmoves := hrun.moves
  have hl := h.limited (.inr hmoves)
  obtain ⟨s, hs, hstep⟩ := (h.moving hmoves).advance hsuits
  obtain ⟨s', t, now, hs', rfl, rfl⟩ := hrun.run
  obtain rfl := Option.some.inj (hs.symm.trans hs')
  obtain ⟨e, he, hdown, hother⟩ : ∃ e, (if [s.pulse] = [] ∨ s.state = .decel ∨ s.state = .decelTo
      then x.inEffect else s.speed) = e ∧ (s.state = .decel ∨ s.state = .decelTo → e = x.inEffect) ∧
      (¬(s.state = .decel ∨ s.state = .decelTo) → e = s.speed) := by
    refine ⟨_, rfl, fun hdown => if_pos (.inr hdown), fun hother => if_neg ?_⟩
    exact not_or.mpr ⟨List.cons_ne_nil _ _, hother⟩
  have heffect : s.state ≠ .idle → Motor.limit e ≤ s.delay ∧ 0 < e ∧ 1 ≤ Motor.limit e := by
    intro hmoves'
    obtain ⟨-, hspeed, hmin, -⟩ := hstep.kept hmoves'
    by_cases hd : s.state = .decel ∨ s.state = .decelTo
    · rw [hdown hd]
      exact ⟨hstep.down hd, h.inEffect hmoves⟩
    · rw [hother hd, hspeed, ← hl.minDelay]
      exact ⟨hstep.other hd hmoves', hl.pos, hl.one_le⟩
  refine ⟨⟨hrun.timed, fun hprev => ?_, fun hmoves' => ?_, fun hmoves' => ?_⟩, hstep.exact⟩
  · have hmoves' : s.state ≠ .idle := by
      rcases hprev with hprev | hidle
      · exact fun hidle => hprev (hstep.stopped hidle)
      · exact hidle
    obtain ⟨hprevSpeed, hspeed, hmin, hfirst⟩ := hstep.kept hmoves'
    exact ⟨(hprevSpeed.trans hl.prevSpeed).trans hspeed.symm, hspeed ▸ hl.pos,
      (hmin.trans hl.minDelay).trans (congrArg Motor.limit hspeed.symm), hmin ▸ hl.one_le,
      hmin ▸ hfirst ▸ hl.firstDelay⟩
  · refine ⟨hmoves', hstep.denom hmoves', ?_, fun hcruise => ?_⟩
    · exact he ▸ (heffect hmoves').1
    · have hnot : ¬(s.state = .decel ∨ s.state = .decelTo) := by
        rcases hcruise with hcruise | hcruise <;> rintro (hd | hd) <;>
          exact absurd (hcruise.symm.trans hd) (by decide)
      exact (hstep.kept hmoves').2.2.1 ▸ hstep.other hnot hmoves'
  · exact he ▸ (heffect hmoves').2

/-- A call keeps to the limit. -/
theorem Tracks.call (h : Tracks x) {c : Call} (hmeets : x.Meets (.call c)) :
    ∃ out x', x.exec (.call c) = some (out, x') ∧ Good x (.call c) out x' ∧ Tracks x' := by
  rw [exec]
  by_cases hdue : x.motor.Due c
  · obtain ⟨s, hs, -⟩ := (h.moving (Motor.due_moving h.timed hdue)).advance (hmeets hdue)
    obtain ⟨m, out, hcall, hrun⟩ := Motor.call_of_due h.timed hdue hs
    obtain ⟨htracks, hexact⟩ := h.step hrun (hmeets hdue)
    rw [hcall]
    exact ⟨_, _, rfl, ⟨fun hmoves => (htracks.good hmoves).1, fun hmoves => (htracks.good hmoves).2,
      fun _ => hexact⟩, htracks⟩
  · rw [Motor.call_of_not_due hdue]
    refine ⟨[], x, ?_, ⟨fun hmoves => (h.good hmoves).1, fun hmoves => (h.good hmoves).2,
      fun hout => absurd rfl hout⟩, h⟩
    rw [Option.map_some, if_pos (.inl rfl)]

/-- A move begins with the first delay. -/
theorem tracks_begin {m : Motor K} (hl : Motor.Limited m) (ht : m.Timed) (now : ℕ) :
    Tracks ⟨m.setRamps.begin now, m.speed⟩ := by
  obtain ⟨a, b, heq⟩ := Motor.setRamps_eq m
  rw [heq, Motor.begin]
  have hdenom : (1 : ℤ) ≤ 1 ∧ (1 : ℤ) % 4 = 1 ∧ (1 : ℤ) < 2 ^ 31 := by decide
  refine ⟨fun htimer => ⟨?_, MotorState.noConfusion⟩, fun _ => ?_, fun _ => ?_, fun _ => ?_⟩
  · by_contra hpolling
    dsimp only at htimer hpolling
    rw [if_pos (Bool.not_eq_false _ ▸ hpolling)] at htimer
    exact hpolling (ht htimer).1
  · exact ⟨hl.prevSpeed, hl.pos, hl.minDelay, hl.one_le, hl.firstDelay⟩
  · refine ⟨MotorState.noConfusion, hdenom, ?_, fun hrun => ?_⟩
    · exact hl.minDelay ▸ hl.firstDelay
    · rcases hrun with hrun | hrun <;> cases hrun
  · exact ⟨hl.pos, hl.minDelay ▸ hl.one_le⟩

theorem Tracks.aim (h : Tracks x) (distance : K) (type : PositionType) :
    Tracks ⟨x.motor.aim distance type, x.inEffect⟩ := by
  refine ⟨h.timed, fun hprev => ?_, fun hmoves => ?_, h.inEffect⟩
  · have hl := h.limited hprev
    exact ⟨hl.prevSpeed, hl.pos, hl.minDelay, hl.one_le, hl.firstDelay⟩
  · have hmoving := h.moving hmoves
    exact ⟨hmoves, hmoving.denom, hmoving.delay, hmoving.cruise⟩

/-- A command keeps to the limit. -/
theorem Tracks.exec [IsStrictOrderedRing K] (h : Tracks x) {c : Command K} (hmeets : x.Meets c) :
    ∃ out x', x.exec c = some (out, x') ∧ Good x c out x' ∧ Tracks x' := by
  cases c with
  | call c => exact h.call hmeets
  | setSpeed speed pos =>
    have hset := Motor.speedSet pos hmeets h.limited fun hmoves => (h.moving hmoves).denom
    have htracks := h.speedSet hset
    exact ⟨_, _, rfl, ⟨fun hmoves => (htracks.good hmoves).1, fun hmoves => (htracks.good hmoves).2,
      hset.limited.pos, hset.limited.minDelay⟩, htracks⟩
  | move distance speed pos type now =>
    have haim := h.aim distance type
    have hsuits : (x.motor.aim distance type).SuitsSpeed speed := hmeets
    have hset := Motor.speedSet pos hsuits haim.limited fun hmoves => (haim.moving hmoves).denom
    have htracks := haim.speedSet hset
    generalize hm : ((x.motor.aim distance type).st2MotorSetSpeed speed).2 = m at hset htracks
    have hl := hset.limited
    rw [Driven.exec]
    rcases Motor.move_cases pos now hm with ⟨hidle, hmove⟩ | hmove | hmove <;> rw [hmove]
    · refine ⟨_, _, rfl, ⟨fun hmoves => absurd hidle hmoves, fun hmoves => absurd hidle hmoves,
        hl.pos, hl.minDelay⟩, htracks.timed, fun _ => ?_, fun hmoves => absurd hidle hmoves,
        fun hmoves => absurd hidle hmoves⟩
      exact ⟨hl.prevSpeed, hl.pos, hl.minDelay, hl.one_le, hl.firstDelay⟩
    · exact ⟨_, _, rfl, ⟨fun hmoves => (htracks.good hmoves).1,
        fun hmoves => (htracks.good hmoves).2, hl.pos, hl.minDelay⟩, htracks⟩
    · have hbegin := tracks_begin hl htracks.timed now
      obtain ⟨a, b, heq⟩ := Motor.setRamps_eq m
      have hspeed : (m.setRamps.begin now).speed = m.speed ∧
          (m.setRamps.begin now).minDelay = m.minDelay := by
        rw [heq]
        exact ⟨rfl, rfl⟩
      dsimp only
      rw [if_pos rfl, hspeed.1]
      exact ⟨_, _, rfl, ⟨fun hmoves => (hbegin.good hmoves).1, fun hmoves => (hbegin.good hmoves).2,
        hspeed.1 ▸ hl.pos, (hspeed.2.trans hl.minDelay).trans (congrArg Motor.limit hspeed.1.symm)⟩,
        hbegin⟩

/-- A motor that is idle and has no speed. -/
theorem tracks_rests (hrests : x.motor.Rests) (hprev : x.motor.prevSpeed = 0) : Tracks x := by
  obtain ⟨hidle, htimer⟩ := hrests
  refine ⟨fun hrun => ?_, fun hprev' => ?_, fun hmoves => absurd hidle hmoves,
    fun hmoves => absurd hidle hmoves⟩
  · rw [htimer] at hrun
    exact absurd hrun Bool.false_ne_true
  · exact absurd hidle (hprev'.resolve_left fun hne => hne hprev)

end Driven

end Stepper2

end Inspector
