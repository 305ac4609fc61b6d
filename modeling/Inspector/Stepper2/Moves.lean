import Inspector.Numerals
import Inspector.Stepper2.Motor
import Mathlib.Data.Rat.Floor
import Mathlib.Tactic.NormNum

/-! # Finite moves of the secondary stepper motor

The step that ends a phase of a move is put out by the call that begins the next one, and so is a
step when the motor has come to its end. A move that is started takes two steps more than it was to
take, or three when the ramp ends because the delay is short enough.
-/

namespace Inspector

namespace Stepper2

/-- The interrupt, or a call in the foreground. -/
inductive Call
  | irq
  | poll (now : ℕ)

namespace Motor

variable {K : Type*}

section Calls

variable [Zero K] {m m' : Motor K} {out : List Pulse}

/-- What a call does; the interrupt comes as long as its timer runs. -/
def call (m : Motor K) : Call → Option (Motor K × List Pulse)
  | .irq => if m.timer.isSome then m.motorIrq else some (m, [])
  | .poll now => m.st2MotorRun now

/-- A number of calls, and what they put out. -/
def calls : Motor K → List Call → Option (Motor K × List Pulse)
  | m, [] => some (m, [])
  | m, c :: cs => (m.call c).bind fun r => (calls r.1 cs).map fun r' => (r'.1, r.2 ++ r'.2)

/-- The timer of a motor runs only when there is something to do. -/
def Timed (m : Motor K) : Prop :=
  m.timer.isSome = true → m.polling = false ∧ m.state ≠ .idle

/-- A step of a motor that has not come to its end. -/
structure Steps (m m' : Motor K) (out : List Pulse) : Prop where
  timed : m'.Timed
  moves : m.state ≠ .idle
  run : ∃ s t now, m.advance = some s ∧ out = [s.pulse] ∧
    m' = { s.outputStep with timer := t, nextStep := now }

/-- What a step leaves alone. -/
structure Frame (m m' : Motor K) : Prop where
  polling : m'.polling = m.polling
  timer : m'.timer = m.timer
  position : m'.position = m.position
  dir : m'.dir = m.dir

omit [Zero K] in
theorem frame_rampUp (h : m.rampUp = some m') : Frame m m' := by
  unfold rampUp at h
  split_ifs at h
  obtain ⟨term, -, rfl⟩ := Option.map_eq_some_iff.mp h
  generalize subWord 64 m.c64 term = c64
  dsimp only
  split_ifs
  · exact ⟨rfl, rfl, rfl, rfl⟩
  · exact ⟨rfl, rfl, rfl, rfl⟩

theorem frame_advance (h : m.advance = some m') : Frame m m' := by
  unfold advance at h
  cases hstate : m.state <;> simp only [hstate] at h
  case accel =>
    unfold accelerate at h
    split_ifs at h
    · exact frame_rampUp h
    · obtain rfl := Option.some.inj h
      exact ⟨rfl, rfl, rfl, rfl⟩
    · obtain rfl := Option.some.inj h
      exact ⟨rfl, rfl, rfl, rfl⟩
  case run =>
    obtain rfl := Option.some.inj h
    unfold keepSpeed
    split_ifs <;> exact ⟨rfl, rfl, rfl, rfl⟩
  case decel =>
    unfold decelerate at h
    split_ifs at h
    · obtain rfl := Option.some.inj h
      exact ⟨rfl, rfl, rfl, rfl⟩
    · obtain ⟨term, -, rfl⟩ := Option.map_eq_some_iff.mp h
      exact ⟨rfl, rfl, rfl, rfl⟩
  case decelTo =>
    unfold decelerateTo at h
    split_ifs at h
    · obtain ⟨term, -, rfl⟩ := Option.map_eq_some_iff.mp h
      exact ⟨rfl, rfl, rfl, rfl⟩
    · obtain rfl := Option.some.inj h
      exact ⟨rfl, rfl, rfl, rfl⟩
  all_goals
    obtain rfl := Option.some.inj h
    exact ⟨rfl, rfl, rfl, rfl⟩

/-- A call does nothing, or it makes a step. -/
theorem steps_of_call (ht : m.Timed) {c : Call} (h : m.call c = some (m', out)) :
    m' = m ∧ out = [] ∨ m.Steps m' out := by
  cases c with
  | irq =>
    rw [call, motorIrq, motorRun] at h
    split_ifs at h with htimer
    · obtain ⟨r, hr, heq⟩ := Option.map_eq_some_iff.mp h
      obtain ⟨s, hs, rfl⟩ := Option.map_eq_some_iff.mp hr
      obtain ⟨rfl, rfl⟩ := Prod.mk.inj heq
      obtain ⟨hpolling, hstate⟩ := ht htimer
      refine .inr ⟨?_, hstate, s, _, s.nextStep, hs, rfl, rfl⟩
      intro hrun
      refine ⟨(frame_advance hs).polling.trans hpolling, fun hidle => ?_⟩
      rw [if_pos hidle] at hrun
      exact Bool.false_ne_true hrun
    · obtain ⟨rfl, rfl⟩ := Prod.mk.inj (Option.some.inj h)
      exact .inl ⟨rfl, rfl⟩
  | poll now =>
    rw [call, st2MotorRun, motorRun] at h
    split_ifs at h with hpoll
    · obtain ⟨r, hr, heq⟩ := Option.map_eq_some_iff.mp h
      obtain ⟨s, hs, rfl⟩ := Option.map_eq_some_iff.mp hr
      obtain ⟨rfl, rfl⟩ := Prod.mk.inj heq
      obtain ⟨hpolling, hstate, -⟩ := hpoll
      refine .inr ⟨?_, hstate, s, s.timer, now, hs, rfl, rfl⟩
      intro hrun
      have hpolls : m.polling = false := (ht ((frame_advance hs).timer ▸ hrun)).1
      exact absurd (hpolling.symm.trans hpolls) Bool.false_ne_true.symm
    · obtain ⟨rfl, rfl⟩ := Prod.mk.inj (Option.some.inj h)
      exact .inl ⟨rfl, rfl⟩

end Calls

/-- The invariant of a move of `steps` steps after `j` of them. -/
def OnMove (steps j : ℕ) (m : Motor K) : Prop :=
  m.ptype ≠ .infiniteSteps ∧
  match m.state with
  | .accel => m.move = steps ∧ m.stepNo = j ∧ j ≤ m.stepRun ∧ 2 * m.stepRun ≤ steps ∧
      m.stepDown + m.stepRun = steps ∧ m.denom = 4 * j + 1
  | .run => m.stepNo = j ∧ j ≤ m.stepDown ∧ m.stepDown ≤ steps ∧ ∃ r : ℕ, m.denom = 4 * r + 1 ∧
      (m.stepDown + r = steps ∨ m.stepDown + r = steps + 1)
  | .decel => ∃ r : ℕ, m.denom = 4 * r + 1 ∧ (j + r = steps + 1 ∨ j + r = steps + 2)
  | .idle => j = steps + 2 ∨ j = steps + 3
  | .runInfinite | .decelTo => False

section Steps

variable [Zero K] {m m' : Motor K} {steps j : ℕ}

omit [Zero K] in
theorem cruise_eq (h : m.ptype ≠ .infiniteSteps) : m.cruise = .run := if_neg h

omit [Zero K] in
theorem OnMove.rampUp (h : m.OnMove steps j) (hstate : m.state = .accel)
    (hne : m.stepNo ≠ m.stepRun) (hsteps : steps < 2 ^ 32) (hm : m.rampUp = some m') :
    m'.outputStep.OnMove steps (j + 1) := by
  obtain ⟨hptype, hmove⟩ := h
  simp only [hstate] at hmove
  obtain ⟨hmove, hno, hle, hhalf, hdown, hdenom⟩ := hmove
  unfold Motor.rampUp at hm
  split_ifs at hm
  obtain ⟨term, -, rfl⟩ := Option.map_eq_some_iff.mp hm
  generalize subWord 64 m.c64 term = c64
  dsimp only
  split_ifs
  · refine ⟨hptype, ?_⟩
    simp only [outputStep, cruise_eq hptype, subWord, hmove, hno, hdenom]
    refine ⟨by omega, by omega, by omega, j + 1, by omega, by omega⟩
  · refine ⟨hptype, ?_⟩
    simp only [outputStep, hstate, hno, hdenom]
    refine ⟨hmove, by omega, by omega, by omega, hdown, by omega⟩

/-- A step keeps the invariant. -/
theorem OnMove.advance (h : m.OnMove steps j) (hstate : m.state ≠ .idle) (hsteps : steps < 2 ^ 32)
    (hm : m.advance = some m') : m'.outputStep.OnMove steps (j + 1) := by
  have hmove := h.2
  have hptype := h.1
  unfold Motor.advance at hm
  cases hs : m.state <;> simp only [hs] at hm hmove
  case idle => exact absurd hs hstate
  case accel =>
    obtain ⟨hmove, hno, hle, hhalf, hdown, hdenom⟩ := hmove
    unfold accelerate at hm
    split_ifs at hm with hne heq
    · exact h.rampUp hs hne hsteps hm
    · obtain rfl := Option.some.inj hm
      exact ⟨hptype, j, hdenom, by omega⟩
    · obtain rfl := Option.some.inj hm
      refine ⟨hptype, ?_⟩
      simp only [outputStep, cruise_eq hptype]
      exact ⟨by omega, by omega, by omega, j, hdenom, by omega⟩
  case run =>
    obtain ⟨hno, hle, hdown, r, hdenom, hr⟩ := hmove
    obtain rfl := Option.some.inj hm
    unfold keepSpeed
    split_ifs with heq
    · exact ⟨hptype, r, hdenom, by omega⟩
    · refine ⟨hptype, ?_⟩
      simp only [outputStep, hs]
      exact ⟨by omega, by omega, hdown, r, hdenom, hr⟩
  case decel =>
    obtain ⟨r, hdenom, hr⟩ := hmove
    unfold decelerate at hm
    split_ifs at hm with hlt
    · obtain rfl := Option.some.inj hm
      have hzero : r = 0 := by omega
      refine ⟨hptype, ?_⟩
      simp only [outputStep]
      omega
    · obtain ⟨term, -, rfl⟩ := Option.map_eq_some_iff.mp hm
      refine ⟨hptype, ?_⟩
      simp only [outputStep, hs]
      exact ⟨r - 1, by omega, by omega⟩

theorem OnMove.call (h : m.OnMove steps j) (ht : m.Timed) (hsteps : steps < 2 ^ 32) {c : Call}
    {out : List Pulse} (hm : m.call c = some (m', out)) :
    m'.OnMove steps (j + out.length) ∧ m'.Timed := by
  rcases steps_of_call ht hm with ⟨rfl, rfl⟩ | hrun
  · exact ⟨h, ht⟩
  · obtain ⟨s, t, now, hs, rfl, rfl⟩ := hrun.run
    exact ⟨h.advance hrun.moves hsteps hs, hrun.timed⟩

/-- The invariant holds all along a run. -/
theorem OnMove.calls (hsteps : steps < 2 ^ 32) {cs : List Call} {out : List Pulse}
    (h : m.OnMove steps j) (ht : m.Timed) (hm : m.calls cs = some (m', out)) :
    m'.OnMove steps (j + out.length) := by
  induction cs generalizing m j out with
  | nil =>
    obtain ⟨rfl, rfl⟩ := Prod.mk.inj (Option.some.inj hm)
    exact h
  | cons c cs ih =>
    obtain ⟨⟨s, p⟩, hcall, hrest⟩ := Option.bind_eq_some_iff.mp hm
    obtain ⟨⟨s', q⟩, hcalls, heq⟩ := Option.map_eq_some_iff.mp hrest
    obtain ⟨rfl, rfl⟩ := Prod.mk.inj heq
    obtain ⟨hs, hts⟩ := h.call ht hsteps hcall
    rw [List.length_append, ← Nat.add_assoc]
    exact ih hs hts hcalls

/-- A motor that is idle stays so. -/
theorem calls_idle (hidle : m.state = .idle) (ht : m.timer = none) {cs : List Call}
    {out : List Pulse} (hm : m.calls cs = some (m', out)) : m' = m ∧ out = [] := by
  have htimed : m.Timed := by
    intro hrun
    rw [ht] at hrun
    exact absurd hrun Bool.false_ne_true
  induction cs generalizing out with
  | nil =>
    obtain ⟨rfl, rfl⟩ := Prod.mk.inj (Option.some.inj hm)
    exact ⟨rfl, rfl⟩
  | cons c cs ih =>
    obtain ⟨⟨s, p⟩, hcall, hrest⟩ := Option.bind_eq_some_iff.mp hm
    obtain ⟨⟨s', q⟩, hcalls, heq⟩ := Option.map_eq_some_iff.mp hrest
    obtain ⟨rfl, rfl⟩ := Prod.mk.inj heq
    rcases steps_of_call htimed hcall with ⟨rfl, rfl⟩ | hrun
    · obtain ⟨rfl, rfl⟩ := ih hcalls
      exact ⟨rfl, rfl⟩
    · exact absurd hidle hrun.moves

end Steps

section Moves

variable [Field K] [LinearOrder K] [FloorRing K]

/-- A move that is started comes to its end, and then it has put out its steps, and the position has
changed by them. -/
def MovesExactly (m : Motor K) (move speed : K) (type : PositionType) (now : ℕ) : Prop :=
  (∃ cs out m', (m.st2MotorMove move speed type now).2.2.calls cs = some (m', out) ∧
    m'.state = .idle) ∧
  ∀ cs out m', (m.st2MotorMove move speed type now).2.2.calls cs = some (m', out) →
    m'.state = .idle →
      ((m.st2MotorMove move speed type now).2.1 ++ out).length = m.moveSteps move type ∧
      m'.position = m.position +
        if move < 0 then -(m.moveSteps move type : ℤ) else m.moveSteps move type

variable {m : Motor K} {move speed : K} {type : PositionType} {now : ℕ}

theorem moveSteps_lt (m : Motor K) (move : K) (type : PositionType) :
    m.moveSteps move type < 2 ^ 32 := by
  have hmod : ∀ x : ℤ, (x % 2 ^ 32).toNat < 2 ^ 32 := by
    intro x
    omega
  cases type
  · exact toUint32_lt _
  · exact toUint32_lt _
  · exact hmod _

/-- The speed of a motor that is idle is set. -/
theorem setSpeed_idle (hidle : m.state = .idle) (hspeed : speed ≠ 0) :
    ∃ a b c d e, (m.st2MotorSetSpeed speed).2 =
      { m with speed := a, prevSpeed := b, minDelay := c, n := d, firstDelay := e } := by
  unfold st2MotorSetSpeed changeSpeed
  rw [if_neg hspeed]
  dsimp only
  split_ifs with hsame hi
  · exact ⟨_, _, _, _, _, rfl⟩
  · exact ⟨_, _, _, _, _, rfl⟩
  · exact absurd hidle hi
  · exact absurd hidle hi

/-- A motor that is idle and whose timer does not run. -/
def Rests (m : Motor K) : Prop := m.state = .idle ∧ m.timer = none

variable (now) in
theorem onMove_begin (hrests : m.Rests) (hspeed : speed ≠ 0) (hfinite : type ≠ .infiniteSteps)
    (hpos : 1 ≤ m.moveSteps move type) (hlong : ¬(m.moveSteps move type = 1 ∧ type = .steps)) :
    (m.st2MotorMove move speed type now).2.1 = [] ∧
    (m.st2MotorMove move speed type now).2.2.OnMove (m.moveSteps move type) 0 ∧
    (m.st2MotorMove move speed type now).2.2.Timed := by
  have hlt := moveSteps_lt m move type
  obtain ⟨hidle, htimer⟩ := hrests
  unfold st2MotorMove
  obtain ⟨a, b, c, d, e, hset⟩ := setSpeed_idle (m := { m with
    ptype := type
    dir := if move < 0 then m.axis else 0
    move := m.moveSteps move type }) hidle hspeed
  rw [if_neg hspeed]
  dsimp only
  rw [hset]
  dsimp only
  rw [if_neg hlong, if_neg fun h => absurd h.2 (by omega)]
  refine ⟨rfl, ⟨?_, ?_⟩, ?_⟩
  · unfold setRamps
    rw [if_neg hfinite]
    exact hfinite
  · unfold setRamps rampSteps begin subWord
    dsimp only
    rw [if_neg hfinite]
    dsimp only
    refine ⟨rfl, rfl, Nat.zero_le _, ?_, ?_, rfl⟩
    · split_ifs <;> omega
    · split_ifs <;> omega
  · intro hrun
    unfold setRamps begin at hrun ⊢
    dsimp only at hrun ⊢
    rw [if_neg hfinite] at hrun ⊢
    dsimp only at hrun ⊢
    rw [htimer] at hrun
    cases hpolling : m.polling
    · exact ⟨rfl, MotorState.noConfusion⟩
    · rw [hpolling] at hrun
      exact absurd hrun Bool.false_ne_true

variable (now) in
theorem move_single (hrests : m.Rests) (hspeed : speed ≠ 0)
    (hone : m.moveSteps move type = 1 ∧ type = .steps) :
    ∃ p, (m.st2MotorMove move speed type now).2.1 = [p] ∧
      (m.st2MotorMove move speed type now).2.2.Rests ∧
      (m.st2MotorMove move speed type now).2.2.position =
        m.position + if move < 0 then -1 else 1 := by
  unfold st2MotorMove
  obtain ⟨a, b, c, d, e, hset⟩ := setSpeed_idle (m := { m with
    ptype := type
    dir := if move < 0 then m.axis else 0
    move := m.moveSteps move type }) hrests.1 hspeed
  rw [if_neg hspeed]
  dsimp only
  rw [hset]
  dsimp only
  rw [if_pos hone, if_pos hrests.1]
  refine ⟨_, rfl, hrests, ?_⟩
  unfold stepped
  dsimp only
  split_ifs with hneg hdir
  · rfl
  · exact absurd m.axis_ne hdir
  · rename_i hdir
    exact absurd rfl hdir
  · rfl

/-- A move that is not a single step takes more steps than it was to take. -/
theorem not_movesExactly_of_long (hrests : m.Rests) (hspeed : speed ≠ 0)
    (hfinite : type ≠ .infiniteSteps) (hpos : 1 ≤ m.moveSteps move type)
    (hlong : ¬(m.moveSteps move type = 1 ∧ type = .steps)) :
    ¬m.MovesExactly move speed type now := by
  rintro ⟨⟨cs, out, m', hcalls, hidle⟩, hexact⟩
  obtain ⟨hlength, -⟩ := hexact cs out m' hcalls hidle
  obtain ⟨hnone, hmove, htimed⟩ := onMove_begin now hrests hspeed hfinite hpos hlong
  have hend := (hmove.calls (moveSteps_lt m move type) htimed hcalls).2
  rw [hnone, List.nil_append] at hlength
  simp only [hidle] at hend
  omega

/-- A finite move from rest takes exactly its steps if and only if it is a single step. -/
theorem movesExactly_iff (hrests : m.Rests) (hspeed : speed ≠ 0) (hfinite : type ≠ .infiniteSteps)
    (hpos : 1 ≤ m.moveSteps move type) :
    m.MovesExactly move speed type now ↔ m.moveSteps move type = 1 ∧ type = .steps := by
  constructor
  · intro h
    by_contra hlong
    exact not_movesExactly_of_long hrests hspeed hfinite hpos hlong h
  · intro hone
    obtain ⟨p, hp, hrests', hposition⟩ := move_single now hrests hspeed hone
    refine ⟨⟨[], [], _, rfl, hrests'.1⟩, ?_⟩
    intro cs out m' hcalls _
    obtain ⟨rfl, rfl⟩ := calls_idle hrests'.1 hrests'.2 hcalls
    rw [hp, hposition, hone.1]
    exact ⟨rfl, by push_cast; rfl⟩

end Moves

section Runs

/-- A motor with 250 steps for a millimetre. -/
def feeder : Motor ℚ where
  axis := 8
  axis_ne := by decide
  settings := ⟨250, 600, 360⟩
  polling := true
  firstDelay := 190000
  speed := 0
  prevSpeed := 0
  stepsPerMm := 250
  acceleration := 25

theorem movesExactly_iff_feeder :
    feeder.MovesExactly (-1) 60 .steps 0 ↔
      feeder.moveSteps (-1) .steps = 1 ∧ PositionType.steps = .steps :=
  movesExactly_iff ⟨rfl, rfl⟩ (by norm_num) (by decide) (by simp [moveSteps, toUint32])

/-- Ten steps are to be taken. -/
theorem not_movesExactly : ¬feeder.MovesExactly 10 60 .steps 0 := by
  have hsteps : feeder.moveSteps 10 .steps = 10 := by
    simp only [moveSteps, toUint32]
    norm_num
  apply not_movesExactly_of_long ⟨rfl, rfl⟩ (by norm_num) (by decide)
  · rw [hsteps]
    decide
  · rw [hsteps]
    decide

end Runs

end Motor

end Stepper2

end Inspector
