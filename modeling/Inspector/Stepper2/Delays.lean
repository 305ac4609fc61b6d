import Inspector.Stepper2.Moves

/-! # The delays of the secondary stepper motor

A ramp is computed from the count that it has led to, which is not the delay that it was cut off at,
so what a step down leads to depends on the count and on the place on the ramp.
-/

namespace Inspector

namespace Stepper2

namespace Motor

variable {K : Type*}

section Ramps

variable {c d x : ℕ}

theorem rampTerm_eq (hc : c < 2 ^ 63) (hd : 0 < d) (hlt : d < 2 ^ 31) :
    rampTerm c d = some (2 * c / d) := by
  have hdivisor : divisor d = d := by
    rw [divisor]
    omega
  have hdouble : c * 2 % 2 ^ 64 = 2 * c := by omega
  rw [rampTerm, if_neg (by omega), hdivisor, hdouble]

theorem tdiv_eq (c d : ℕ) : (2 * c : ℤ).tdiv d = ((2 * c / d : ℕ) : ℤ) := by
  rw [Int.natCast_div, Int.tdiv_eq_ediv_of_nonneg (by omega)]
  rfl

/-- What a step of a ramp down comes to. -/
theorem le_ramp_iff (hd : 0 < d) : x ≤ c + 2 * c / d ↔ x * d ≤ c * (d + 2) := by
  rcases Nat.le_total x c with hle | hle
  · refine iff_of_true (hle.trans (Nat.le_add_right _ _)) ?_
    exact Nat.mul_le_mul hle (Nat.le_add_right _ _)
  · obtain ⟨k, rfl⟩ := Nat.exists_eq_add_of_le hle
    have hsum : (c + k) * d ≤ c * (d + 2) ↔ k * d ≤ 2 * c := by
      rw [Nat.add_mul, Nat.mul_add, Nat.add_le_add_iff_left, Nat.mul_comm c 2]
    rw [hsum, Nat.add_le_add_iff_left, Nat.le_div_iff_mul_le hd]

theorem ramp_lt_iff (hd : 0 < d) : c + 2 * c / d < x ↔ c * (d + 2) < x * d := by
  rw [← not_le, le_ramp_iff hd, not_le]

end Ramps

section Steps

/-- A step that the ramp is made for, when the delay is not to be less than a limit. -/
def SuitsStep (m : Motor K) (low : ℕ) : Prop :=
  match m.state with
  | .accel => m.stepNo ≠ m.stepRun → m.denom + 4 < 2 ^ 31 ∧ m.c64 < 2 ^ 63
  | .decel => 2 ≤ m.denom →
    m.c64 < 2 ^ 63 ∧ (low * 2 ^ 16 + 2 ^ 15) * m.denom ≤ m.c64 * (m.denom + 2)
  | .decelTo => m.stepNo ≠ m.stepRun →
    5 ≤ m.denom ∧ m.c64 < 2 ^ 63 ∧
      low * 2 ^ 16 * (m.denom - 4) ≤ m.c64 * (m.denom - 2) + 2 ^ 15 * (m.denom - 4) ∧
      m.c64 * (m.denom - 2) + 2 ^ 15 * (m.denom - 4) < 2 ^ 64 * (m.denom - 4)
  | .idle | .run | .runInfinite => True

instance (m : Motor K) (low : ℕ) : Decidable (m.SuitsStep low) :=
  match hstate : m.state with
  | .accel =>
    decidable_of_iff (m.stepNo ≠ m.stepRun → m.denom + 4 < 2 ^ 31 ∧ m.c64 < 2 ^ 63)
      (by rw [SuitsStep, hstate])
  | .decel =>
    decidable_of_iff (2 ≤ m.denom →
      m.c64 < 2 ^ 63 ∧ (low * 2 ^ 16 + 2 ^ 15) * m.denom ≤ m.c64 * (m.denom + 2))
      (by rw [SuitsStep, hstate])
  | .decelTo =>
    decidable_of_iff (m.stepNo ≠ m.stepRun →
      5 ≤ m.denom ∧ m.c64 < 2 ^ 63 ∧
        low * 2 ^ 16 * (m.denom - 4) ≤ m.c64 * (m.denom - 2) + 2 ^ 15 * (m.denom - 4) ∧
        m.c64 * (m.denom - 2) + 2 ^ 15 * (m.denom - 4) < 2 ^ 64 * (m.denom - 4))
      (by rw [SuitsStep, hstate])
  | .idle | .run | .runInfinite => isTrue (by rw [SuitsStep, hstate]; trivial)

/-- What a step computes, in numbers without bounds. -/
def Exact (m m' : Motor K) : Prop :=
  match m.state with
  | .accel => m.stepNo ≠ m.stepRun →
    (m'.c64 : ℤ) = m.c64 - (2 * m.c64 : ℤ).tdiv (m.denom + 4) ∧
      (m'.delay : ℤ) = max (m.minDelay : ℤ) ((m'.c64 + 32768) / 65536)
  | .decel => 2 ≤ m.denom →
    (m'.c64 : ℤ) = m.c64 + (2 * m.c64 : ℤ).tdiv m.denom ∧
      (m'.delay : ℤ) = (m'.c64 - 32768) / 65536
  | .decelTo => m.stepNo ≠ m.stepRun →
    (m'.c64 : ℤ) = m.c64 + (2 * m.c64 : ℤ).tdiv (m.denom - 4) ∧
      (m'.delay : ℤ) = (m'.c64 + 32768) / 65536
  | .idle | .run | .runInfinite => True

/-- A motor that moves, with a limit for its delay. -/
structure Moving (low : ℕ) (m : Motor K) : Prop where
  moving : m.state ≠ .idle
  denom : 1 ≤ m.denom ∧ m.denom % 4 = 1 ∧ m.denom < 2 ^ 31
  delay : low ≤ m.delay
  cruise : m.state = .run ∨ m.state = .runInfinite → m.minDelay ≤ m.delay

/-- What a step leads to. -/
structure Stepped [Zero K] (low : ℕ) (m s : Motor K) : Prop where
  stopped : s.state = .idle → s.prevSpeed = 0
  kept : s.state ≠ .idle → s.prevSpeed = m.prevSpeed ∧ s.speed = m.speed ∧
    s.minDelay = m.minDelay ∧ s.firstDelay = m.firstDelay
  denom : s.state ≠ .idle → 1 ≤ s.denom ∧ s.denom % 4 = 1 ∧ s.denom < 2 ^ 31
  down : s.state = .decel ∨ s.state = .decelTo → low ≤ s.delay
  other : ¬(s.state = .decel ∨ s.state = .decelTo) → s.state ≠ .idle → m.minDelay ≤ s.delay
  exact : Exact m s

variable [Zero K] {m : Motor K} {low : ℕ}

omit [Zero K] in
theorem cruise_ne (m : Motor K) : m.cruise ≠ .idle ∧ m.cruise ≠ .decel ∧ m.cruise ≠ .decelTo := by
  rw [cruise]
  split_ifs <;> decide

/-- A step of the ramp up. -/
theorem Moving.rampUp (h : Moving low m) (hstate : m.state = .accel) (hdenom : m.denom + 4 < 2 ^ 31)
    (hc : m.c64 < 2 ^ 63) : ∃ s, m.rampUp = some s ∧ Stepped low m s := by
  obtain ⟨hpos, hmod, hlt⟩ := h.denom
  obtain ⟨d, hd⟩ : ∃ d : ℕ, m.denom + 4 = d := ⟨(m.denom + 4).toNat, by omega⟩
  have hterm := rampTerm_eq (d := d) hc (by omega) (by omega)
  have hexact := tdiv_eq m.c64 d
  have hle : 2 * m.c64 / d ≤ m.c64 := by
    refine Nat.div_le_of_le_mul ?_
    exact Nat.mul_le_mul_right _ (by omega)
  generalize 2 * m.c64 / d = term at hterm hexact hle
  have hsub : subWord 64 m.c64 term = m.c64 - term := by
    rw [subWord]
    omega
  have hround : (m.c64 - term + 32768) % 2 ^ 64 / 2 ^ 16 = (m.c64 - term + 32768) / 65536 := by
    omega
  rw [Motor.rampUp, if_pos ⟨by omega, hdenom⟩, hd, hterm, Option.map_some, hsub]
  dsimp only
  rw [hround]
  refine ⟨_, rfl, ?_⟩
  have hcount : ((m.c64 - term : ℕ) : ℤ) = m.c64 - term := Int.ofNat_sub hle
  have hdenom' : 1 ≤ (d : ℤ) ∧ (d : ℤ) % 4 = 1 ∧ (d : ℤ) < 2 ^ 31 := by omega
  split_ifs with hcut
  · refine ⟨fun hidle => ?_, fun _ => ⟨rfl, rfl, rfl, rfl⟩, fun _ => hdenom', fun hdown => ?_,
      fun _ _ => le_rfl, ?_⟩
    · exact absurd hidle (cruise_ne m).1
    · exact absurd hdown (not_or.mpr (cruise_ne m).2)
    · simp only [Exact, hstate, hd, hexact]
      exact fun _ => ⟨hcount, by omega⟩
  · refine ⟨fun hidle => ?_, fun _ => ⟨rfl, rfl, rfl, rfl⟩, fun _ => hdenom', fun hdown => ?_,
      fun _ _ => not_lt.mp hcut, ?_⟩
    · exact absurd hidle h.moving
    · dsimp only at hdown
      rw [hstate] at hdown
      rcases hdown with hdown | hdown <;> cases hdown
    · simp only [Exact, hstate, hd, hexact]
      exact fun _ => ⟨hcount, by omega⟩

/-- A step while the speed goes up. -/
theorem Moving.accelerate (h : Moving low m) (hstate : m.state = .accel)
    (hsuits : m.SuitsStep low) : ∃ s, m.accelerate = some s ∧ Stepped low m s := by
  rw [SuitsStep, hstate] at hsuits
  rw [Motor.accelerate]
  split_ifs with hne heq
  · exact h.rampUp hstate (hsuits hne).1 (hsuits hne).2
  · refine ⟨_, rfl, fun hidle => ?_, fun _ => ⟨rfl, rfl, rfl, rfl⟩, fun _ => h.denom,
      fun _ => h.delay, fun hother => absurd (.inl rfl) hother, ?_⟩
    · cases hidle
    · simp only [Exact, hstate]
      exact fun hne' => absurd hne' hne
  · refine ⟨_, rfl, fun hidle => ?_, fun _ => ⟨rfl, rfl, rfl, rfl⟩, fun _ => h.denom,
      fun hdown => ?_, fun _ _ => le_rfl, ?_⟩
    · exact absurd hidle (cruise_ne m).1
    · exact absurd hdown (not_or.mpr (cruise_ne m).2)
    · simp only [Exact, hstate]
      exact fun hne' => absurd hne' hne

/-- A step while the speed is kept. -/
theorem Moving.keepSpeed (h : Moving low m) (hstate : m.state = .run) :
    Stepped low m m.keepSpeed := by
  have hexact : ∀ s, Exact m s := by
    intro s
    rw [Exact, hstate]
    trivial
  unfold Motor.keepSpeed
  split_ifs
  · refine ⟨fun hidle => ?_, fun _ => ⟨rfl, rfl, rfl, rfl⟩, fun _ => h.denom, fun _ => h.delay,
      fun hother => absurd (.inl rfl) hother, hexact _⟩
    cases hidle
  · exact ⟨fun hidle => absurd hidle h.moving, fun _ => ⟨rfl, rfl, rfl, rfl⟩, fun _ => h.denom,
      fun _ => h.delay, fun _ _ => h.cruise (.inl hstate), hexact _⟩

/-- A step while the speed goes down to nothing. -/
theorem Moving.decelerate (h : Moving low m) (hstate : m.state = .decel)
    (hsuits : m.SuitsStep low) : ∃ s, m.decelerate = some s ∧ Stepped low m s := by
  rw [SuitsStep, hstate] at hsuits
  rw [Motor.decelerate]
  split_ifs with hlt
  · refine ⟨_, rfl, fun _ => rfl, fun hidle => absurd rfl hidle, fun hidle => absurd rfl hidle,
      fun hdown => ?_, fun _ hidle => absurd rfl hidle, ?_⟩
    · rcases hdown with hdown | hdown <;> cases hdown
    · simp only [Exact, hstate]
      intro hle
      omega
  · obtain ⟨hc, hlow⟩ := hsuits (not_lt.mp hlt)
    obtain ⟨hpos, hmod, hbound⟩ := h.denom
    obtain ⟨d, hd⟩ : ∃ d : ℕ, m.denom = d := ⟨m.denom.toNat, by omega⟩
    have hterm := rampTerm_eq (d := d) hc (by omega) (by omega)
    have hexact := tdiv_eq m.c64 d
    rw [hd] at hlow
    have hcount : low * 2 ^ 16 + 2 ^ 15 ≤ m.c64 + 2 * m.c64 / d := by
      rw [le_ramp_iff (by omega)]
      exact_mod_cast hlow
    have hhigh : 2 * m.c64 / d ≤ 2 * m.c64 / 5 := Nat.div_le_div_left (by omega) (by decide)
    generalize 2 * m.c64 / d = term at hterm hexact hcount hhigh
    have hsum : (m.c64 + term) % 2 ^ 64 = m.c64 + term := by omega
    have hsub : subWord 64 (m.c64 + term) 32768 = m.c64 + term - 32768 := by
      rw [subWord]
      omega
    rw [hd, hterm, Option.map_some]
    dsimp only
    rw [hsum, hsub]
    refine ⟨_, rfl, fun hidle => absurd hidle h.moving, fun _ => ⟨rfl, rfl, rfl, rfl⟩, fun _ => ?_,
      fun _ => ?_, fun hother => absurd (.inl hstate) hother, ?_⟩
    · dsimp only
      omega
    · dsimp only
      omega
    · simp only [Exact, hstate, hd, hexact]
      exact fun _ => ⟨by push_cast; rfl, by omega⟩

/-- A step while the speed goes down to another one. -/
theorem Moving.decelerateTo (h : Moving low m) (hstate : m.state = .decelTo)
    (hsuits : m.SuitsStep low) : ∃ s, m.decelerateTo = some s ∧ Stepped low m s := by
  rw [SuitsStep, hstate] at hsuits
  rw [Motor.decelerateTo]
  split_ifs with hne hint
  · obtain ⟨hle, hc, hlow, hhigh⟩ := hsuits hne
    obtain ⟨hpos, hmod, hbound⟩ := h.denom
    obtain ⟨d, hd⟩ : ∃ d : ℕ, m.denom - 4 = d := ⟨(m.denom - 4).toNat, by omega⟩
    have hd' : m.denom - 2 = d + 2 := by omega
    have hterm := rampTerm_eq (d := d) hc (by omega) (by omega)
    have hexact := tdiv_eq m.c64 d
    rw [hd, hd'] at hlow hhigh
    have hcount : low * 2 ^ 16 - 2 ^ 15 ≤ m.c64 + 2 * m.c64 / d := by
      rw [le_ramp_iff (by omega), Nat.sub_mul, Nat.sub_le_iff_le_add]
      exact_mod_cast hlow
    have hfits : m.c64 + 2 * m.c64 / d < 2 ^ 64 - 2 ^ 15 := by
      rw [ramp_lt_iff (by omega), Nat.sub_mul, Nat.lt_sub_iff_add_lt]
      exact_mod_cast hhigh
    generalize 2 * m.c64 / d = term at hterm hexact hcount hfits
    have hsum : (m.c64 + term) % 2 ^ 64 = m.c64 + term := by omega
    have hround : (m.c64 + term + 32768) % 2 ^ 64 / 2 ^ 16 = (m.c64 + term + 32768) / 65536 := by
      omega
    rw [hd, hterm, Option.map_some]
    dsimp only
    rw [hsum, hround]
    refine ⟨_, rfl, fun hidle => absurd hidle h.moving, fun _ => ⟨rfl, rfl, rfl, rfl⟩, fun _ => ?_,
      fun _ => ?_, fun hother => absurd (.inr hstate) hother, ?_⟩
    · dsimp only
      omega
    · dsimp only
      omega
    · simp only [Exact, hstate, hd, hexact]
      exact fun _ => ⟨by push_cast; rfl, by omega⟩
  · obtain ⟨hle, -⟩ := hsuits hne
    exact absurd ⟨by omega, by have := h.denom; omega⟩ hint
  · refine ⟨_, rfl, fun hidle => ?_, fun _ => ⟨rfl, rfl, rfl, rfl⟩, fun _ => h.denom,
      fun hdown => ?_, fun _ _ => le_rfl, ?_⟩
    · exact absurd hidle (cruise_ne m).1
    · exact absurd hdown (not_or.mpr (cruise_ne m).2)
    · simp only [Exact, hstate]
      exact fun hne' => absurd hne' hne

/-- A step that the ramp is made for. -/
theorem Moving.advance (h : Moving low m) (hsuits : m.SuitsStep low) :
    ∃ s, m.advance = some s ∧ Stepped low m s := by
  unfold Motor.advance
  cases hstate : m.state with
  | idle => exact absurd hstate h.moving
  | accel => exact h.accelerate hstate hsuits
  | run => exact ⟨_, rfl, h.keepSpeed hstate⟩
  | runInfinite =>
    refine ⟨m, rfl, fun hidle => absurd hidle h.moving, fun _ => ⟨rfl, rfl, rfl, rfl⟩,
      fun _ => h.denom, fun _ => h.delay, fun _ _ => h.cruise (.inr hstate), ?_⟩
    rw [Exact, hstate]
    trivial
  | decelTo => exact h.decelerateTo hstate hsuits
  | decel => exact h.decelerate hstate hsuits

end Steps

section Speeds

variable [Field K] [LinearOrder K] [FloorRing K]

/-- The delay that belongs to a speed. -/
def limit (speed : K) : ℕ := ⌊1000000 / speed⌋₊

/-- The steps of the ramp to a speed. -/
def rampLength (m : Motor K) (speed : K) : ℕ :=
  let n := toUint32 (speed * speed / (2 * m.acceleration))
  if n = 0 then 1 else n

/-- A speed that the delays are made for: it is the one that has been set, or its delay fits and the
motor is not where the ramp to it ends. -/
def SuitsSpeed (m : Motor K) (speed : K) : Prop :=
  0 < m.stepSpeed speed ∧
    (m.stepSpeed speed = m.prevSpeed ∨
      1 ≤ limit (m.stepSpeed speed) ∧ limit (m.stepSpeed speed) < 2 ^ 16 ∧
        (m.state = .idle ∨ m.denom ≠ 4 * m.rampLength (m.stepSpeed speed) + 1))

instance (m : Motor K) (speed : K) : Decidable (m.SuitsSpeed speed) :=
  inferInstanceAs (Decidable (_ ∧ _))

/-- A motor whose speed is in effect, with the delays for it. -/
structure Limited (m : Motor K) : Prop where
  prevSpeed : m.prevSpeed = m.speed
  pos : 0 < m.speed
  minDelay : m.minDelay = limit m.speed
  one_le : 1 ≤ m.minDelay
  firstDelay : m.minDelay ≤ m.firstDelay

variable {m : Motor K} {speed v w : K}

theorem limit_le_limit [IsStrictOrderedRing K] (hv : 0 < v) (hle : v ≤ w) : limit w ≤ limit v :=
  Nat.floor_mono (div_le_div_of_nonneg_left (by norm_num) hv hle)

omit [FloorRing K] in
/-- The ramp of a motor that runs. -/
theorem setRamp_eq (m : Motor K) : ∃ a b, m.setRamp = { m with stepRun := a, state := b } ∧
    (b = .accel ∨ b = .decel ∨ b = .decelTo) := by
  rw [setRamp]
  split_ifs with hfaster haccel hstop
  · exact ⟨_, _, rfl, .inl haccel⟩
  · exact ⟨_, _, rfl, .inl rfl⟩
  · exact ⟨_, _, rfl, .inr (.inl rfl)⟩
  · exact ⟨_, _, rfl, .inr (.inr rfl)⟩

theorem rampLength_lt (m : Motor K) (speed : K) : m.rampLength speed < 2 ^ 32 := by
  unfold rampLength
  have hlt := toUint32_lt (speed * speed / (2 * m.acceleration))
  dsimp only
  split_ifs <;> omega

omit [Field K] [LinearOrder K] [FloorRing K] in
/-- A motor that is not where its ramp ends. -/
theorem rampLeft_ne (hdenom : 1 ≤ m.denom ∧ m.denom % 4 = 1 ∧ m.denom < 2 ^ 31)
    (hlt : m.n < 2 ^ 32) (hne : m.denom ≠ 4 * m.n + 1) : m.rampLeft ≠ 0 := by
  rw [rampLeft]
  intro hzero
  have hdvd := Int.dvd_of_bmod_eq_zero hzero
  omega

/-- What a new speed leaves alone. -/
structure SpeedSet (m m' : Motor K) : Prop where
  limited : Limited m'
  idle : m'.state = .idle ↔ m.state = .idle
  delay : m'.delay = m.delay
  denom : m'.denom = m.denom
  timer : m'.timer = m.timer
  polling : m'.polling = m.polling
  cruise : m'.state = .run ∨ m'.state = .runInfinite → m' = m

/-- The ramp of a motor that runs is changed for a speed. -/
theorem speedSet_ramp {m' : Motor K} (hsame : m'.delay = m.delay ∧ m'.denom = m.denom ∧
      m'.timer = m.timer ∧ m'.polling = m.polling) (hidle : m.state ≠ .idle)
    (hpos : 0 < m'.speed) (hmin : m'.minDelay = limit m'.speed) (hone : 1 ≤ m'.minDelay) :
    SpeedSet m m'.setRamp.commit := by
  obtain ⟨hdelay, hdenom, htimer, hpolling⟩ := hsame
  obtain ⟨a, b, heq, hb⟩ := setRamp_eq m'
  rw [heq, commit]
  refine ⟨⟨rfl, hpos, hmin, hone, le_max_right _ _⟩, ?_, hdelay, hdenom, htimer, hpolling,
    fun hrun => ?_⟩
  · refine iff_of_false (fun hb' => ?_) hidle
    rcases hb with rfl | rfl | rfl <;> cases hb'
  · rcases hb with rfl | rfl | rfl <;> rcases hrun with hrun | hrun <;> cases hrun

/-- A speed that the delays are made for. -/
theorem speedSet (hspeed : 0 < speed) (hsuits : m.SuitsSpeed speed)
    (hlimited : m.prevSpeed ≠ 0 ∨ m.state ≠ .idle → Limited m)
    (hdenom : m.state ≠ .idle → 1 ≤ m.denom ∧ m.denom % 4 = 1 ∧ m.denom < 2 ^ 31) :
    SpeedSet m (m.st2MotorSetSpeed speed).2 := by
  obtain ⟨hpos, hsuits⟩ := hsuits
  rw [st2MotorSetSpeed, if_neg hspeed.ne']
  dsimp only
  by_cases hsame : m.stepSpeed speed = m.prevSpeed
  · rw [if_pos hsame]
    have hl := hlimited (.inl (hsame ▸ hpos.ne'))
    have heq : { m with speed := m.stepSpeed speed } = m := by
      rw [hsame.trans hl.prevSpeed]
    dsimp only
    rw [heq]
    exact ⟨hl, Iff.rfl, rfl, rfl, rfl, rfl, fun _ => rfl⟩
  · rw [if_neg hsame]
    obtain ⟨hone, hfits, hramp⟩ := hsuits.resolve_left hsame
    have hmin : toUint32 (1000000 / m.stepSpeed speed) % 2 ^ 16 = limit (m.stepSpeed speed) := by
      rw [limit] at hfits ⊢
      rw [toUint32]
      omega
    dsimp only
    rw [changeSpeed, setLimits]
    dsimp only
    rw [hmin]
    by_cases hidle : m.state = .idle
    · rw [if_pos hidle, commit]
      refine ⟨⟨rfl, hpos, rfl, hone, le_max_right _ _⟩, Iff.rfl, rfl, rfl, rfl, rfl, fun hrun => ?_⟩
      dsimp only at hrun
      rw [hidle] at hrun
      rcases hrun with hrun | hrun <;> cases hrun
    · rw [if_neg hidle, if_neg]
      · exact speedSet_ramp ⟨rfl, rfl, rfl, rfl⟩ hidle hpos rfl hone
      · exact rampLeft_ne (hdenom hidle) (rampLength_lt m (m.stepSpeed speed))
          (hramp.resolve_left hidle)

end Speeds

end Motor

end Stepper2

end Inspector
