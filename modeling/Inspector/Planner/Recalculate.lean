import Inspector.Planner.Block
import Inspector.Speed.TwoPass

/-! # Replanning the block buffer

`planner_recalculate` with its two passes, and the callback by which the segment generator
reports the speed of the block it is working on. The buffer is the list of its blocks from the
tail to the newest one, and `planned` counts blocks from the tail. The passes are computed by
the speed plan of the blocks behind `planned`.
-/

namespace Inspector

/-- The blocks that the segment generator may be working on. -/
inductive PrepTarget | tail | systemMotion
  deriving DecidableEq, Repr

/-- The planner with its block buffer, and what it shares with the segment generator. -/
structure Planner (K : Type*) [Field K] [LinearOrder K] where
  position : Axis → ℤ
  previousUnitVec : Axis → K
  previousNominalSpeed : K
  overrideFeedRate : ℕ
  overrideRapidRate : ℕ
  queue : List (PlanBlock K)
  planned : ℕ
  systemBlock : Option (PlanBlock K)
  direction : Axis → Bool
  sysPosition : Axis → ℤ
  plBlock : Option PrepTarget
  currentSpeed : K
  velocityProfile : Bool

namespace PlanBlock

variable {K : Type*} [Field K] [LinearOrder K]

def setEntry (b : PlanBlock K) (v : K) : PlanBlock K := { b with entrySpeedSqr := v }

@[simp] theorem setEntry_entry (b : PlanBlock K) (v : K) : (b.setEntry v).entrySpeedSqr = v := rfl
@[simp] theorem setEntry_max (b : PlanBlock K) (v : K) :
    (b.setEntry v).maxEntrySpeedSqr = b.maxEntrySpeedSqr := rfl
@[simp] theorem setEntry_reach (b : PlanBlock K) (v : K) : (b.setEntry v).reach = b.reach := rfl
@[simp] theorem setEntry_self (b : PlanBlock K) : b.setEntry b.entrySpeedSqr = b := rfl
@[simp] theorem setEntry_setEntry (b : PlanBlock K) (v w : K) :
    (b.setEntry v).setEntry w = b.setEntry w := rfl

/-- The newest block is planned to a stop. -/
def reverseLast (b : PlanBlock K) : PlanBlock K :=
  b.setEntry (min b.maxEntrySpeedSqr (2 * b.acceleration * b.millimeters))

/-- One step of the reverse pass: a block at its maximum entry speed is left alone. -/
def reverseStep (current next : PlanBlock K) : PlanBlock K :=
  if current.entrySpeedSqr ≠ current.maxEntrySpeedSqr then
    let entrySpeedSqr := next.entrySpeedSqr + 2 * current.acceleration * current.millimeters
    current.setEntry
      (if entrySpeedSqr < current.maxEntrySpeedSqr then entrySpeedSqr
       else current.maxEntrySpeedSqr)
  else current

/-- The reverse pass over the blocks behind the planned one, from the newest block back. -/
def reversePass (bs : List (PlanBlock K)) : List (PlanBlock K) :=
  bs.foldr (fun current acc =>
    match acc with
    | [] => [current.reverseLast]
    | next :: _ => current.reverseStep next :: acc) []

/-- The forward pass from block `current`; `idx` is the offset of the first block of the list. -/
def forwardPass : PlanBlock K → ℕ → ℕ → List (PlanBlock K) → List (PlanBlock K) × ℕ
  | _, _, planned, [] => ([], planned)
  | current, idx, planned, block :: bs =>
    let (next, planned) :=
      if current.entrySpeedSqr < block.entrySpeedSqr then
        let entrySpeedSqr :=
          current.entrySpeedSqr + 2 * current.acceleration * current.millimeters
        if entrySpeedSqr < block.entrySpeedSqr then (block.setEntry entrySpeedSqr, idx)
        else (block, planned)
      else (block, planned)
    let planned := if next.entrySpeedSqr = next.maxEntrySpeedSqr then idx else planned
    let (rest, planned) := forwardPass next (idx + 1) planned bs
    (next :: rest, planned)

end PlanBlock

namespace Planner

open PlanBlock

variable {K : Type*} [Field K] [LinearOrder K]

/-- `st_update_plan_block_parameters` without fast hold. -/
def stUpdatePlanBlockParameters (p : Planner K) : Planner K :=
  match p.plBlock with
  | none => p
  | some .tail =>
    { p with
      velocityProfile := true
      queue := p.queue.modifyHead (·.setEntry (p.currentSpeed * p.currentSpeed))
      plBlock := none }
  | some .systemMotion =>
    { p with
      velocityProfile := true
      systemBlock := p.systemBlock.map (·.setEntry (p.currentSpeed * p.currentSpeed))
      plBlock := none }

/-- `planner_recalculate`. -/
def plannerRecalculate (p : Planner K) : Planner K :=
  match p.queue.drop p.planned with
  | [] | [_] => p
  | _ :: rest =>
    let rest := reversePass rest
    -- the pass reached the tail, which the stepper may be executing
    let p := if p.planned = 0 then p.stUpdatePlanBlockParameters else p
    match p.queue.drop p.planned with
    | [] => p
    | current :: _ =>
      let (rest, planned) := forwardPass current (p.planned + 1) p.planned rest
      { p with queue := p.queue.take p.planned ++ current :: rest, planned := planned }

/-- `plan_discard_current_block`. -/
def planDiscardCurrentBlock (p : Planner K) : Planner K :=
  match p.queue with
  | [] => p
  | _ :: queue => { p with queue := queue, planned := p.planned - 1 }

/-- `plan_cycle_reinitialize`. -/
def planCycleReinitialize (p : Planner K) : Planner K :=
  let p := p.stUpdatePlanBlockParameters
  let p := { p with planned := 0 }
  if p.queue ≠ [] then p.plannerRecalculate else p

end Planner

end Inspector
