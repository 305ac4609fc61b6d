import Inspector.Planner.BufferLine
import Inspector.Transition.Run
import Mathlib.Algebra.BigOperators.Group.List.Basic
import Mathlib.Data.Rat.Floor
import Mathlib.Data.Rat.Sqrt

/-! # Runs of the planner

Between replans the main program queues lines and the stepper discards finished blocks and says
which block it is working on, in any order. A run is a fold of these operations.
-/

namespace Inspector

variable {K : Type*} [Field K] [LinearOrder K]

/-- Operations on the block buffer: a call of `plan_buffer_line`, one of
`plan_discard_current_block`, and a report of the segment generator. -/
inductive BufferOp (K : Type*) where
  | line (rpm : K) (target : Axis → K) (plData : PlanLineData K)
  | discard
  | report (plBlock : Option PrepTarget) (currentSpeed : K)

/-- A motion that moves the planner position: neither a system nor a backlash motion. -/
def PlanLineData.Ordinary (plData : PlanLineData K) : Prop :=
  plData.condition.systemMotion = false ∧ plData.condition.backlashMotion = false

instance (plData : PlanLineData K) : Decidable plData.Ordinary :=
  inferInstanceAs (Decidable (_ ∧ _))

namespace Planner

variable [IsStrictOrderedRing K] [FloorRing K]

def exec (m : FloatMath K) (s : Settings K) (p : Planner K) : BufferOp K → Planner K
  | .line rpm target plData => (planBufferLine m s rpm target plData p).2.2
  | .discard => p.planDiscardCurrentBlock
  | .report plBlock currentSpeed => { p with plBlock := plBlock, currentSpeed := currentSpeed }

/-- `plan_reset` and the overrides it copies; the buffer is empty and the position zero. -/
def planReset (overrideFeedRate overrideRapidRate : ℕ) (p : Planner K) : Planner K :=
  { p with
    position := 0
    previousUnitVec := 0
    previousNominalSpeed := 0
    overrideFeedRate := overrideFeedRate
    overrideRapidRate := overrideRapidRate
    queue := []
    planned := 0
    systemBlock := none }

def run (m : FloatMath K) (s : Settings K) (p : Planner K) (ops : List (BufferOp K)) :
    Planner K :=
  ops.foldl (exec m s) p

/-- The block that an operation adds to the buffer for an ordinary motion, with its target. -/
def added (m : FloatMath K) (s : Settings K) (p : Planner K) :
    BufferOp K → Option ((Axis → K) × PlanBlock K)
  | .line rpm target plData =>
    if (planBufferLine m s rpm target plData p).1 = true ∧ plData.Ordinary then
      (planBufferLine m s rpm target plData p).2.2.queue.getLast?.map (target, ·)
    else none
  | _ => none

/-- The accepted ordinary motions of a run, in order. -/
def accepted (m : FloatMath K) (s : Settings K) :
    Planner K → List (BufferOp K) → List ((Axis → K) × PlanBlock K)
  | _, [] => []
  | p, op :: ops => (added m s p op).toList ++ accepted m s (exec m s p op) ops

section Rational

/-- Rational arithmetic with the square roots of squares. -/
def ratMath : FloatMath ℚ where
  sqrtf := Rat.sqrt
  twoPi := 710 / 113
  sqrtf_nonneg := Rat.sqrt_nonneg

/-- Ten steps a millimetre, 500 mm/min and 10 mm/s² on every axis. -/
def ratSettings : Settings ℚ where
  axis _ := ⟨10, 500, 36000⟩
  junctionDeviation := 1 / 100

/-- A planner at rest. -/
def restPlanner : Planner ℚ :=
  { position := 0, previousUnitVec := 0, previousNominalSpeed := 0, overrideFeedRate := 100
    overrideRapidRate := 100, queue := [], planned := 0, systemBlock := none
    direction := fun _ => false, sysPosition := 0, plBlock := none, currentSpeed := 0
    velocityProfile := false }

/-- A motion along the first axis. -/
def lineX (rapid : Bool) (target feedRate : ℚ) : BufferOp ℚ :=
  .line 0 (fun i => if i = .x then target else 0)
    { feedRate := feedRate, rateMultiplier := 1, spindle := ⟨0, false, none⟩
      condition := { rapidMotion := rapid }, lineNumber := 0, message := none
      outputCommands := [] }

end Rational

end Planner

end Inspector
