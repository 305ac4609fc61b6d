import Inspector.Planner.Run

/-! # Overrides

A feed or rapid override changes the nominal speeds of all queued blocks, so their maximum entry
speeds are computed anew and the plan is reinitialized from the tail. The segment generator
advances the tail meanwhile.
-/

namespace Inspector

variable {K : Type*} [Field K] [LinearOrder K]

/-- `sys.override`, and its control flag that disables feed overrides. -/
structure SysOverride where
  feedRate : ℕ
  rapidRate : ℕ
  feedRatesDisable : Bool
  deriving DecidableEq, Repr

def minFeedRateOverride : ℕ := 10
def maxFeedRateOverride : ℕ := 200
def defaultFeedOverride : ℕ := 100
def defaultRapidOverride : ℕ := 100

/-- The override values in force after a command; zero keeps a value. -/
def SysOverride.set (feedOverride rapidOverride : ℕ) (sys : SysOverride) : SysOverride :=
  { sys with
    feedRate := if feedOverride = 0 then sys.feedRate
      else constrain feedOverride minFeedRateOverride maxFeedRateOverride
    rapidRate := if rapidOverride = 0 then sys.rapidRate else constrain rapidOverride 5 100 }

variable [IsStrictOrderedRing K]

namespace PlanBlock

/-- The loop of `plan_update_velocity_profile_parameters` from a block on, with the nominal speed
of the last block; `rpm` is the speed that a block's spindle reports. -/
def updateProfile (overrideFeedRate overrideRapidRate : ℕ) (rpm : PlanBlock K → K) :
    K → List (PlanBlock K) → List (PlanBlock K) × K
  | prevNominalSpeed, [] => ([], prevNominalSpeed)
  | prevNominalSpeed, block :: bs =>
    let nominalSpeed :=
      planComputeProfileNominalSpeed overrideFeedRate overrideRapidRate (rpm block) block
    let (rest, last) := updateProfile overrideFeedRate overrideRapidRate rpm nominalSpeed bs
    (planComputeProfileParameters block nominalSpeed prevNominalSpeed :: rest, last)

end PlanBlock

namespace Planner

/-- `plan_update_velocity_profile_parameters`; the source's result is whether there are blocks. -/
def planUpdateVelocityProfileParameters (rpm : PlanBlock K → K) (p : Planner K) : Planner K :=
  if p.queue = [] then p
  else
    let (queue, previousNominalSpeed) :=
      PlanBlock.updateProfile p.overrideFeedRate p.overrideRapidRate rpm someLargeValue p.queue
    { p with queue := queue, previousNominalSpeed := previousNominalSpeed }

/-- The planner with its maximum entry speeds computed anew for given overrides. -/
def setOverrides (rpm : PlanBlock K → K) (feedRate rapidRate : ℕ) (p : Planner K) : Planner K :=
  { p with overrideFeedRate := feedRate, overrideRapidRate := rapidRate }
    |>.planUpdateVelocityProfileParameters rpm

/-- `_plan_feed_override`. -/
def planFeedOverrideRates (rpm : PlanBlock K → K) (feedRate rapidRate : ℕ) (p : Planner K) :
    Planner K :=
  if feedRate ≠ p.overrideFeedRate ∨ rapidRate ≠ p.overrideRapidRate then
    let p := p.setOverrides rpm feedRate rapidRate
    if p.queue ≠ [] then p.planCycleReinitialize else p
  else p

end Planner

/-- The planner and the overrides of the system. -/
structure PlannerSystem (K : Type*) [Field K] [LinearOrder K] where
  sys : SysOverride
  planner : Planner K

namespace PlannerSystem

/-- The rates that `plan_feed_override` hands on to the planner. -/
def rates (sys : SysOverride) : ℕ × ℕ :=
  if sys.feedRatesDisable then (defaultFeedOverride, defaultRapidOverride)
  else (sys.feedRate, sys.rapidRate)

/-- `plan_feed_override`. -/
def planFeedOverride (rpm : PlanBlock K → K) (feedOverride rapidOverride : ℕ)
    (x : PlannerSystem K) : PlannerSystem K :=
  let sys := x.sys.set feedOverride rapidOverride
  { sys := sys
    planner := x.planner.planFeedOverrideRates rpm (rates sys).1 (rates sys).2 }

/-- What can happen to a planner: operations on the buffer, the writes of the segment generator
to the tail, `plan_cycle_reinitialize` and override changes. -/
inductive Op (K : Type*) [Field K] [LinearOrder K] where
  | buffer (op : BufferOp K)
  | advance (speed millimeters : K) (millimeters_nonneg : 0 ≤ millimeters)
  | replan
  | override (rpm : PlanBlock K → K) (feedOverride rapidOverride : ℕ)

/-- The tail as the segment generator leaves it: a new entry speed and the distance to go. -/
def advanceTail (speed millimeters : K) (h : 0 ≤ millimeters) (b : PlanBlock K) : PlanBlock K :=
  { b with entrySpeedSqr := speed * speed, millimeters := millimeters, millimeters_nonneg := h }

variable [FloorRing K]

def exec (m : FloatMath K) (s : Settings K) (x : PlannerSystem K) : Op K → PlannerSystem K
  | .buffer op => { x with planner := x.planner.exec m s op }
  | .advance speed millimeters h =>
    { x with planner :=
        { x.planner with queue := x.planner.queue.modifyHead (advanceTail speed millimeters h) } }
  | .replan => { x with planner := x.planner.planCycleReinitialize }
  | .override rpm feedOverride rapidOverride =>
    x.planFeedOverride rpm feedOverride rapidOverride

end PlannerSystem

end Inspector
