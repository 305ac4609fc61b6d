import Inspector.Cyclic.Successor
import Inspector.Planner.Recalculate
import Inspector.Transition.Loop

/-! # The block ring

The block buffer as the firmware stores it, a ring with its four pointers, and `planner_recalculate`
with the loops that follow the links of the ring. The stepper may be working on the block at the
tail; then a replan reports the square of its speed to that block.
-/

namespace Inspector

open Cyclic Transition

variable {K : Type*} [Field K] [LinearOrder K]

/-- `block_buffer_t`; there is one block more than its size. -/
structure BlockBuffer (K : Type*) [Field K] [LinearOrder K] (size : ℕ) where
  blocks : Fin (size + 1) → PlanBlock K
  tail : Fin (size + 1)
  head : Fin (size + 1)
  nextHead : Fin (size + 1)
  planned : Fin (size + 1)

namespace BlockBuffer

variable {size : ℕ}

def setBlock (r : BlockBuffer K size) (i : Fin (size + 1)) (b : PlanBlock K) :
    BlockBuffer K size :=
  { r with blocks := Function.update r.blocks i b }

/-- `plan_cleanup`. -/
def planCleanup (b : PlanBlock K) : PlanBlock K := { b with message := none, outputCommands := [] }

/-- `plan_reset_buffer`; the links of the ring are its successors. -/
def planResetBuffer (r : BlockBuffer K size) : BlockBuffer K size :=
  { r with planned := 0, tail := 0, head := 0, nextHead := next 0 }

/-- `plan_discard_current_block`. -/
def planDiscardCurrentBlock (r : BlockBuffer K size) : BlockBuffer K size :=
  if r.tail ≠ r.head then
    let r := r.setBlock r.tail (planCleanup (r.blocks r.tail))
    let r := if r.tail = r.planned then { r with planned := next r.tail } else r
    { r with tail := next r.tail }
  else r

/-- `plan_get_current_block`. -/
def planGetCurrentBlock (r : BlockBuffer K size) : Option (PlanBlock K) :=
  if r.head = r.tail then none else some (r.blocks r.tail)

/-- `plan_check_full_buffer`. -/
def planCheckFullBuffer (r : BlockBuffer K size) : Bool := r.tail = r.nextHead

/-- `plan_get_block_buffer_available`. -/
def planGetBlockBufferAvailable (r : BlockBuffer K size) : ℕ :=
  if r.tail ≤ r.head then size - (r.head.val - r.tail.val) else (r.tail.val - r.head.val) - 1

/-- `st_update_plan_block_parameters`, when the stepper works on the tail at the given speed. -/
def stUpdate (speedSqr : Option K) (r : BlockBuffer K size) : BlockBuffer K size :=
  match speedSqr with
  | none => r
  | some v => r.setBlock r.tail ((r.blocks r.tail).setEntry v)

/-- The loop of the reverse pass, for three or more blocks to plan. -/
def reverseBody (speedSqr : Option K) :
    BlockBuffer K size × Fin (size + 1) × Fin (size + 1) →
      (BlockBuffer K size × Fin (size + 1) × Fin (size + 1)) ⊕ BlockBuffer K size
  | (r, current, block) =>
    if block ≠ r.planned then
      let next := current
      let current := block
      let block := prev block
      let r := if block = r.tail then r.stUpdate speedSqr else r
      .inl (r.setBlock current ((r.blocks current).reverseStep (r.blocks next)), current, block)
    else .inr r

/-- The loop of the forward pass. -/
def forwardBody :
    BlockBuffer K size × Fin (size + 1) × Fin (size + 1) →
      (BlockBuffer K size × Fin (size + 1) × Fin (size + 1)) ⊕ BlockBuffer K size
  | (r, nextBlock, block) =>
    if block ≠ r.head then
      let current := nextBlock
      let nextBlock := block
      let r :=
        if (r.blocks current).entrySpeedSqr < (r.blocks nextBlock).entrySpeedSqr then
          let entrySpeedSqr := (r.blocks current).entrySpeedSqr +
            2 * (r.blocks current).acceleration * (r.blocks current).millimeters
          if entrySpeedSqr < (r.blocks nextBlock).entrySpeedSqr then
            { r.setBlock nextBlock ((r.blocks nextBlock).setEntry entrySpeedSqr) with
              planned := block }
          else r
        else r
      let r :=
        if (r.blocks nextBlock).entrySpeedSqr = (r.blocks nextBlock).maxEntrySpeedSqr then
          { r with planned := block }
        else r
      .inl (r, nextBlock, next block)
    else .inr r

/-- `planner_recalculate`. A loop that makes more passes than the ring has blocks does not end. -/
def plannerRecalculate (speedSqr : Option K) (r : BlockBuffer K size) :
    Option (BlockBuffer K size) :=
  let block := prev r.head
  if block = r.planned then some r
  else
    let r := r.setBlock block (r.blocks block).reverseLast
    let current := block
    let block := prev block
    let reversed :=
      if block = r.planned then some (if block = r.tail then r.stUpdate speedSqr else r)
      else loop (reverseBody speedSqr) (size + 1) (r, current, block)
    reversed.bind fun r => loop forwardBody (size + 1) (r, r.planned, next r.planned)

/-- The end of `plan_buffer_line`, with the block it has made of the line. -/
def queueBlock (speedSqr : Option K) (b : PlanBlock K) (r : BlockBuffer K size) :
    Option (BlockBuffer K size) :=
  let r := r.setBlock r.head b
  if !b.condition.systemMotion then
    let r := { r with head := r.nextHead }
    let r := { r with nextHead := next r.head }
    r.plannerRecalculate speedSqr
  else some r

/-- `plan_cycle_reinitialize`. -/
def planCycleReinitialize (speedSqr : Option K) (r : BlockBuffer K size) :
    Option (BlockBuffer K size) :=
  let r := r.stUpdate speedSqr
  let r := { r with planned := r.tail }
  if r.planned ≠ r.head then r.plannerRecalculate speedSqr else some r

end BlockBuffer

/-- Operations on the block ring. -/
inductive RingOp (K : Type*) [Field K] [LinearOrder K]
  | reset
  | line (speedSqr : Option K) (b : PlanBlock K)
  | discard
  | replan (speedSqr : Option K)

namespace BlockBuffer

variable {size : ℕ}

def exec (r : BlockBuffer K size) : RingOp K → Option (BlockBuffer K size)
  | .reset => some r.planResetBuffer
  | .line speedSqr b => r.queueBlock speedSqr b
  | .discard => some r.planDiscardCurrentBlock
  | .replan speedSqr => r.planCycleReinitialize speedSqr

end BlockBuffer

end Inspector
