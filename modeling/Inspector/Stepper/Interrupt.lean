import Inspector.Stepper.Prep

/-! # The stepper interrupt

`stepper_driver_interrupt_handler` executes the queued segments: each interrupt sends out the step
pulses found by the last one and traces one more step event by the Bresenham algorithm. The
counters are words of 32 bits. Probing, spindle updates and output commands are not modelled.
-/

namespace Inspector

variable {K : Type*}

/-- The data of the interrupt: `stepper_t` with the segment buffer, the position of the machine,
the homing lock, and the pulses that were sent out. -/
structure Stepper (K : Type*) where
  newBlock : Bool
  dirChanged : Axis → Bool
  stepOut : Axis → Bool
  dirOut : Axis → Bool
  amassLevel : ℕ
  stepCount : UInt32
  stepEventCount : UInt32
  steps : Axis → UInt32
  counter : Axis → UInt32
  execBlock : Option ℕ
  execSegment : Option (Segment K)
  cyclesPerTick : ℕ
  segments : List (Segment K)
  sysPosition : Axis → ℤ
  isHoming : Bool
  homingAxisLock : Axis → Bool
  pulses : Axis → ℕ

namespace Stepper

/-- `hal.stepper.pulse_start` and the end of a segment. -/
def pulseStart (x : Stepper K) : Stepper K :=
  if x.execBlock.isSome then
    { x with
      pulses := fun i => x.pulses i + (x.stepOut i).toNat
      newBlock := false
      execSegment := if x.stepCount = 0 then none else x.execSegment }
  else x

/-- Set the directions and the counters for a new block. -/
def startBlock (b : StBlock K) (k : ℕ) (x : Stepper K) : Stepper K :=
  { x with
    dirChanged := fun i => x.dirOut i ^^ b.direction i
    dirOut := b.direction
    execBlock := some k
    stepEventCount := .ofNat b.stepEventCount
    newBlock := true
    counter := fun _ => UInt32.ofNat b.stepEventCount >>> 1 }

/-- Start the segment at the tail of the buffer. -/
def loadSegment (blocks : ℕ → StBlock K) (g : Segment K) (x : Stepper K) : Stepper K :=
  let x := { x with
    execSegment := some g, cyclesPerTick := g.cyclesPerTick, stepCount := .ofNat g.nStep }
  let b := blocks g.execBlock
  let x := if x.execBlock ≠ some g.execBlock then x.startBlock b g.execBlock else x
  { x with
    amassLevel := g.amassLevel
    steps := fun i => UInt32.ofNat (b.steps i) >>> UInt32.ofNat g.amassLevel }

/-- The segment in work, or the next one; none when the buffer is empty. -/
def fetch (blocks : ℕ → StBlock K) (x : Stepper K) : Option (Stepper K) :=
  match x.execSegment, x.segments with
  | some _, _ => some x
  | none, [] => none
  | none, g :: _ => some (x.loadSegment blocks g)

/-- `st_go_idle` at the end of the buffer. -/
def goIdle (x : Stepper K) : Stepper K := { x with cyclesPerTick := 0, execBlock := none }

/-- The counter of an axis after one event, and whether the axis steps. -/
def axisEvent (x : Stepper K) (i : Axis) : UInt32 × Bool :=
  if i = .z ∧ x.steps .z = 0 then (x.counter .z, false)
  else
    let c := x.counter i + x.steps i
    if c > x.stepEventCount then (c - x.stepEventCount, true) else (c, false)

/-- One event of the Bresenham algorithm. -/
def traceEvent (x : Stepper K) : Stepper K :=
  { x with
    counter := fun i => (x.axisEvent i).1
    sysPosition := fun i =>
      if (x.axisEvent i).2 then x.sysPosition i + (if x.dirOut i then -1 else 1)
      else x.sysPosition i
    stepOut := fun i => (x.axisEvent i).2 && (!x.isHoming || x.homingAxisLock i) }

/-- Count the event and take the segment off the buffer at its last one. -/
def countEvent (x : Stepper K) : Stepper K :=
  if x.stepCount = 0 ∨ x.stepCount - 1 = 0 then
    { x with stepCount := 0, segments := x.segments.tail }
  else { x with stepCount := x.stepCount - 1 }

/-- `stepper_driver_interrupt_handler`. -/
def interrupt (blocks : ℕ → StBlock K) (x : Stepper K) : Stepper K :=
  match x.pulseStart.fetch blocks with
  | none => x.pulseStart.goIdle
  | some y => y.traceEvent.countEvent

/-- The pulses sent out so far and those that the next interrupt sends out. -/
def emitted (x : Stepper K) (i : Axis) : ℕ :=
  x.pulses i + if x.execBlock.isSome then (x.stepOut i).toNat else 0

variable {x : Stepper K}

@[simp] theorem pulses_pulseStart : x.pulseStart.pulses = x.emitted := by
  unfold pulseStart emitted
  split_ifs <;> rfl

theorem pulseStart_eq (x : Stepper K) : ∃ n s,
    x.pulseStart = { x with pulses := x.emitted, newBlock := n, execSegment := s } := by
  rw [← pulses_pulseStart]
  unfold pulseStart
  by_cases hb : x.execBlock.isSome
  · rw [if_pos hb]
    exact ⟨_, _, rfl⟩
  · rw [if_neg hb]
    exact ⟨_, _, rfl⟩

theorem loadSegment_eq (blocks : ℕ → StBlock K) (g : Segment K) (x : Stepper K) :
    (x.loadSegment blocks g).execSegment = some g ∧
      (x.loadSegment blocks g).stepCount = .ofNat g.nStep ∧
      (x.loadSegment blocks g).segments = x.segments := by
  unfold loadSegment
  dsimp only
  split_ifs <;> exact ⟨rfl, rfl, rfl⟩

theorem countEvent_eq (x : Stepper K) :
    ∃ n gs, x.countEvent = { x with stepCount := n, segments := gs } := by
  unfold countEvent
  split_ifs
  · exact ⟨_, _, rfl⟩
  · exact ⟨_, _, rfl⟩

theorem stepCount_countEvent (h : 0 < x.stepCount.toNat) :
    x.countEvent.stepCount.toNat = x.stepCount.toNat - 1 ∧
      x.countEvent.segments =
        if x.stepCount.toNat = 1 then x.segments.tail else x.segments := by
  have h1 : (x.stepCount - 1).toNat = x.stepCount.toNat - 1 := by
    apply UInt32.toNat_sub_of_le
    rw [UInt32.le_iff_toNat_le]
    exact h
  have h0 : x.stepCount ≠ 0 := by
    intro h0
    simp [h0] at h
  have hz : x.stepCount - 1 = 0 ↔ x.stepCount.toNat = 1 := by
    rw [← UInt32.toNat_inj, h1, UInt32.toNat_zero]
    omega
  unfold countEvent
  simp only [h0, hz, false_or]
  split_ifs with h2
  · exact ⟨by simp [h2], rfl⟩
  · exact ⟨h1, rfl⟩

/-- An interrupt sends out all pulses that are pending. -/
theorem pulses_interrupt (blocks : ℕ → StBlock K) (x : Stepper K) :
    (x.interrupt blocks).pulses = x.emitted := by
  rw [← pulses_pulseStart]
  unfold interrupt
  split
  · rfl
  · rename_i y hy
    have hyp : y.pulses = x.pulseStart.pulses := by
      unfold fetch at hy
      split at hy
      · cases hy
        rfl
      · cases hy
      · cases hy
        unfold loadSegment
        dsimp only
        split_ifs <;> rfl
    obtain ⟨n, gs, hc⟩ := countEvent_eq y.traceEvent
    rw [hc, ← hyp]
    rfl

end Stepper

end Inspector
