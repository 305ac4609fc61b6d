import Inspector.Planner.Block
import Inspector.Transition.Output

/-! # The secondary stepper motor

A motor of `stepper2.c` and its state machine. Counters and delays are unsigned numbers of 32 and 64
bits. A step has no result when it divides by zero or when the denominator, which is signed,
overflows. Speeds are in an ordered field `K`; a number that is too large for a conversion, for
which C defines no result, is taken modulo `2 ^ 32`. The function that is called when a motor has
stopped is left out.
-/

namespace Inspector

namespace Stepper2

/-- `position_t`. -/
inductive PositionType
  | steps
  | infiniteSteps
  | mm
  deriving DecidableEq, Repr

/-- `st2_state_t`. -/
inductive MotorState
  | idle
  | accel
  | run
  | runInfinite
  | decelTo
  | decel
  deriving DecidableEq, Repr

/-- What `hal.stepper.output_step` is called with. -/
structure Pulse where
  axis : UInt8
  dir : UInt8
  deriving DecidableEq, Repr

/-- `st2_motor`. Its axis is bound, and the timer, which a motor that is not polled has, is started
with a delay. -/
structure Motor (K : Type*) where
  axis : UInt8
  axis_ne : axis ≠ 0
  settings : AxisSettings K
  polling : Bool
  position : ℤ := 0
  ptype : PositionType := .steps
  state : MotorState := .idle
  move : ℕ := 0
  stepNo : ℕ := 0
  stepRun : ℕ := 0
  stepDown : ℕ := 0
  c64 : ℕ := 0
  delay : ℕ := 0
  firstDelay : ℕ
  minDelay : ℕ := 0
  denom : ℤ := 0
  n : ℕ := 0
  speed : K
  prevSpeed : K
  stepsPerMm : K
  acceleration : K
  dir : UInt8 := 0
  nextStep : ℕ := 0
  timer : Option ℕ := none

/-- The difference of two numbers of a word. -/
def subWord (w a b : ℕ) : ℕ := (a + 2 ^ w - b) % 2 ^ w

/-- The second operand of a division whose first one is a `uint64_t`. -/
def divisor (d : ℤ) : ℕ := (d % 2 ^ 64).toNat

def IsInt32 (d : ℤ) : Prop := -2 ^ 31 ≤ d ∧ d < 2 ^ 31

instance (d : ℤ) : Decidable (IsInt32 d) := inferInstanceAs (Decidable (_ ∧ _))

/-- `(c64 << 1) / denom`. -/
def rampTerm (c64 : ℕ) (denom : ℤ) : Option ℕ :=
  if denom = 0 then none else some (c64 * 2 % 2 ^ 64 / divisor denom)

section Conversions

variable {K : Type*} [Field K] [LinearOrder K] [FloorRing K]

/-- A conversion to `uint32_t`. -/
def toUint32 (x : K) : ℕ := ⌊x⌋₊ % 2 ^ 32

theorem toUint32_lt (x : K) : toUint32 x < 2 ^ 32 := Nat.mod_lt _ (Nat.two_pow_pos 32)

end Conversions

namespace Motor

variable {K : Type*} (m : Motor K)

/-- The state in which the speed is kept. -/
def cruise : MotorState := if m.ptype = .infiniteSteps then .runInfinite else .run

/-- A step of the ramp up, which ends when the delay becomes too short. -/
def rampUp : Option (Motor K) :=
  if IsInt32 (m.denom + 4) then
    (rampTerm m.c64 (m.denom + 4)).map fun term =>
      let c64 := subWord 64 m.c64 term
      let delay := (c64 + 32768) % 2 ^ 64 / 2 ^ 16
      if delay < m.minDelay then
        { m with
          denom := m.denom + 4
          c64 := c64
          state := m.cruise
          stepDown := subWord 32 m.move m.stepNo
          delay := m.minDelay }
      else { m with denom := m.denom + 4, c64 := c64, delay := delay }
  else none

/-- `State_Accel`. -/
def accelerate : Option (Motor K) :=
  if m.stepNo ≠ m.stepRun then m.rampUp
  else if m.stepRun = m.stepDown then some { m with state := .decel }
  else some { m with state := m.cruise, delay := m.minDelay }

/-- `State_Run`. -/
def keepSpeed : Motor K := if m.stepNo = m.stepDown then { m with state := .decel } else m

/-- `State_Decel`. -/
def decelerate [Zero K] : Option (Motor K) :=
  if m.denom < 2 then some { m with state := .idle, prevSpeed := 0, n := 0 }
  else
    (rampTerm m.c64 m.denom).map fun term =>
      let c64 := (m.c64 + term) % 2 ^ 64
      { m with
        c64 := c64
        delay := subWord 64 c64 32768 / 2 ^ 16
        denom := m.denom - 4 }

/-- `State_DecelTo`. -/
def decelerateTo : Option (Motor K) :=
  if m.stepNo ≠ m.stepRun then
    if IsInt32 (m.denom - 4) then
      (rampTerm m.c64 (m.denom - 4)).map fun term =>
        let c64 := (m.c64 + term) % 2 ^ 64
        { m with denom := m.denom - 4, c64 := c64, delay := (c64 + 32768) % 2 ^ 64 / 2 ^ 16 }
    else none
  else some { m with delay := m.minDelay, state := m.cruise }

/-- What a step does before its pulse is put out. -/
def advance [Zero K] : Option (Motor K) :=
  match m.state with
  | .accel => m.accelerate
  | .run => some m.keepSpeed
  | .decel => m.decelerate
  | .decelTo => m.decelerateTo
  | .idle | .runInfinite => some m

def pulse : Pulse := ⟨m.axis, m.dir⟩

/-- The position that a pulse leads to. -/
def stepped : ℤ := if m.dir ≠ 0 then m.position - 1 else m.position + 1

/-- A pulse is put out. -/
def outputStep : Motor K := { m with position := m.stepped, stepNo := (m.stepNo + 1) % 2 ^ 32 }

/-- `_motor_run`. -/
def motorRun [Zero K] : Option (Motor K × List Pulse) :=
  m.advance.map fun m => (m.outputStep, [m.pulse])

/-- `motor_irq`. -/
def motorIrq [Zero K] : Option (Motor K × List Pulse) :=
  m.motorRun.map fun r =>
    ({ r.1 with timer := if r.1.state = .idle then none else some r.1.delay }, r.2)

/-- `st2_motor_run`. -/
def st2MotorRun [Zero K] (now : ℕ) : Option (Motor K × List Pulse) :=
  if m.polling = true ∧ m.state ≠ .idle ∧ m.delay ≤ subWord 64 now m.nextStep then
    m.motorRun.map fun r => ({ r.1 with nextStep := now }, r.2)
  else some (m, [])

/-- `st2_motor_stop`. -/
def st2MotorStop : Motor K :=
  match m.state with
  | .accel => { m with stepNo := subWord 32 m.stepDown 1, stepRun := m.stepDown }
  | .run => { m with stepNo := subWord 32 m.stepDown 1 }
  | .runInfinite | .decelTo => { m with state := .decel }
  | .idle | .decel => m

section Speed

variable [Field K] [LinearOrder K] [FloorRing K]

/-- `st2_motor_config`. -/
def config (F : FloatMath K) (cfg : AxisSettings K) : Motor K :=
  let acceleration := cfg.acceleration * cfg.stepsPerMm / 3600
  { m with
    settings := cfg
    stepsPerMm := cfg.stepsPerMm
    acceleration := acceleration
    firstDelay := toUint32 (676 / 1000 * F.sqrtf (2 / acceleration) * 1000000) }

/-- The speed in steps per second. -/
def stepSpeed (speed : K) : K :=
  (if m.settings.maxRate < speed then m.settings.maxRate else speed) * (m.stepsPerMm / 60)

/-- The delay and the steps of a ramp for the speed that is set. -/
def setLimits : Motor K :=
  let n := toUint32 (m.speed * m.speed / (2 * m.acceleration))
  { m with
    minDelay := toUint32 (1000000 / m.speed) % 2 ^ 16
    n := if n = 0 then 1 else n }

/-- The steps of the ramp that are left. -/
def rampLeft : ℤ := Int.bmod (m.n - (m.denom - 1) / 4) (2 ^ 32)

/-- The ramp of a motor that runs is changed. -/
def setRamp : Motor K :=
  if m.prevSpeed < m.speed then
    if m.state = .accel then
      { m with stepRun := ((m.stepRun + m.rampLeft) % 2 ^ 32).toNat }
    else { m with stepRun := ((m.stepNo + m.rampLeft) % 2 ^ 32).toNat, state := .accel }
  else if m.speed = 0 ∨ m.state = .decel then { m with state := .decel }
  else { m with stepRun := ((m.stepNo - m.rampLeft) % 2 ^ 32).toNat, state := .decelTo }

/-- The speed becomes the one in effect. -/
def commit : Motor K :=
  { m with prevSpeed := m.speed, firstDelay := max m.firstDelay m.minDelay }

/-- The speed is changed. -/
def changeSpeed : Motor K :=
  let m := m.setLimits
  if m.state = .idle then m.commit
  else if m.rampLeft = 0 then m
  else m.setRamp.commit

/-- `st2_motor_set_speed`. -/
def st2MotorSetSpeed (speed : K) : K × Motor K :=
  if speed = 0 then (speed, m.st2MotorStop)
  else
    let m := { m with speed := m.stepSpeed speed }
    if m.speed = m.prevSpeed then (m.speed, m) else (m.speed, m.changeSpeed)

/-- The steps of a move. -/
def moveSteps (move : K) : PositionType → ℕ
  | .steps | .infiniteSteps => toUint32 |move|
  | .mm => (lroundf |move * m.stepsPerMm| % 2 ^ 32).toNat

/-- The steps of a ramp that goes up and down. -/
def rampSteps : ℕ := (m.move - if m.move % 2 = 1 then 1 else 0) / 2

/-- The ramps of a move. -/
def setRamps : Motor K :=
  if m.ptype = .infiniteSteps then { m with stepRun := m.n, stepDown := (m.n + 1) % 2 ^ 32 }
  else { m with
    stepRun := min m.rampSteps m.n
    stepDown := subWord 32 m.move (min m.rampSteps m.n) }

/-- A move begins. -/
def begin (now : ℕ) : Motor K :=
  { m with
    state := .accel
    delay := m.firstDelay
    c64 := m.firstDelay * 2 ^ 16
    denom := 1
    stepNo := 0
    nextStep := now
    timer := if m.polling then m.timer else some m.firstDelay }

/-- `st2_motor_move`. -/
def st2MotorMove (move speed : K) (type : PositionType) (now : ℕ) : Bool × List Pulse × Motor K :=
  if speed = 0 then (false, [], m)
  else
    let m := { m with
      ptype := type
      dir := if move < 0 then m.axis else 0
      move := m.moveSteps move type }
    let m := (m.st2MotorSetSpeed speed).2
    if m.move = 1 ∧ type = .steps then
      if m.state = .idle then (true, [m.pulse], { m with position := m.stepped })
      else (false, [], m)
    else if type ≠ .infiniteSteps ∧ m.move = 0 then (false, [], m)
    else (true, [], m.setRamps.begin now)

end Speed

end Motor

end Stepper2

end Inspector
