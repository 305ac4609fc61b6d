import Mathlib.Data.Nat.Basic
import Inspector.Machine.Run

/-! # Interlock of the safety door

A cycle start that is handled while the door is ajar starts no restore, unless the restart flag of
an earlier restore is still set or a restore in progress is told that its motion has ended before
it is told about the door.
-/

namespace Inspector

namespace Machine

namespace State

variable {K : Type*} [LinearOrder K] [Add K] [Zero K] {cfg : Settings K} {s s' : State K}

theorem quiet_awaitRestartRetract (env : Env K) (rt : RtExec) (s : State K) :
    Quiet s (s.awaitRestartRetract cfg env rt) := by
  unfold awaitRestartRetract
  split_ifs
  · have hset := (still_endSysMotion s).trans (still_setHandler .awaitHold _)
    exact hset.toQuiet.trans (quiet_awaitHold cfg env _ _)
  · exact .refl s

theorem quiet_restartRetract (env : Env K) (s : State K) :
    Quiet s (s.restartRetract cfg env) := by
  have hset : Still s (s.setHandler .awaitRestartRetract |>.setParkingState .retracting
      |>.setParkFlags fun f => { f with restart := true }) :=
    ((still_setHandler _ s).trans (still_setParkingState _ _)).trans (still_setPark _ _)
  unfold restartRetract
  dsimp only
  split_ifs
  · exact (hset.trans (still_setStepControl _ _)).toQuiet
  · exact hset.toQuiet.trans (quiet_awaitRestartRetract env _ _)

/-- From the safety door state `state_set(STATE_SLEEP)` leads to sleep unless a soft limit has been
hit. -/
theorem setSleep_of_door (env : Env K) (h : s.sysState = .safetyDoor) :
    Quiet s (s.setSleep cfg env) ∧
      (s.softLimit = false → (s.setSleep cfg env).sysState = .sleep) := by
  have hne : s.sysState ≠ .sleep := by
    rw [h]
    exact SysState.noConfusion
  rw [setSleep, if_neg hne]
  refine ⟨quiet_setParked cfg env SysState.noConfusion s, ?_⟩
  intro hsoft
  obtain ⟨hheld, hfst⟩ := held_initiateHold cfg env .sleep (s.setParkingState .retracting)
  have hsys : (s.setParkingState .retracting).sysState = .safetyDoor := h
  have hpending := hheld.pendingState
  rw [hsys] at hfst hpending
  have hnot : (initiateHold cfg env .sleep (s.setParkingState .retracting)).2.pendingState ≠
      .sleep := by
    rw [hpending]
    exact SysState.noConfusion
  have hset := sysState_setHeld cfg env hnot (hheld.softLimit.trans hsoft)
  rw [← show (initiateHold cfg env .sleep (s.setParkingState .retracting)).1 = false from
    hfst] at hset
  exact (still_fallAsleep cfg _).sysState.trans hset

omit [LinearOrder K] [Add K] in
theorem park_awaitResumeComplete (env : Env K) (h : s.sysState ≠ .sleep) :
    (s.awaitResumeComplete cfg env).2.park = s.park := by
  have hsys : (s.endSysMotion.setParkingState (doorState env)).sysState ≠ .sleep := by
    rwa [((still_endSysMotion s).trans (still_setParkingState (doorState env) _)).sysState]
  have hpark : s.endSysMotion.park = s.park := by
    unfold endSysMotion
    split_ifs <;> rfl
  unfold awaitResumeComplete
  dsimp only
  rw [if_neg hsys]
  split_ifs
  · exact hpark
  · rfl

/-- A cycle start in the safety door state with the door ajar. -/
theorem quiet_awaitResume {env : Env K} {rt : RtExec} (hs : s.sysState = .safetyDoor)
    (hstart : rt.cycleStart = true) (hdoor : env.door = true)
    (hsleep : rt.safetyDoor = false → rt.sleep = true → s.softLimit = false)
    (hrestart : rt.safetyDoor = false → rt.sleep = false → s.park.flags.restart = false) :
    Quiet s (s.awaitResume cfg env rt) := by
  have hne : s.sysState ≠ .sleep := by
    rw [hs]
    exact SysState.noConfusion
  let p := if rt.cycleComplete then s.awaitResumeComplete cfg env else (false, s)
  have hp : Still s p.2 ∧ p.2.park = s.park := by
    by_cases hc : rt.cycleComplete = true
    · simp only [p, if_pos hc]
      exact ⟨still_awaitResumeComplete cfg env s, park_awaitResumeComplete env hne⟩
    · simp only [p, if_neg hc]
      exact ⟨.refl s, trivial⟩
  obtain ⟨hstill, hpark⟩ := hp
  have hsys := hstill.sysState.trans hs
  obtain ⟨hquiet, hasleep⟩ : Quiet p.2 (p.2.setSleep cfg env) ∧
      (p.2.softLimit = false → (p.2.setSleep cfg env).sysState = .sleep) :=
    setSleep_of_door env hsys
  change Quiet s (if p.1 then p.2
    else
      let s' := if rt.sleep then p.2.setSleep cfg env else p.2
      if rt.safetyDoor then s'.setParkingState (doorState env)
      else if rt.cycleStart then s'.resumeCycleStart cfg env
      else if rt.doorClosed ∧ ¬ env.door then s'.setParkingState .doorClosed
      else s')
  cases hrt : rt.sleep with
  | true =>
    simp only [hstart, if_true]
    split_ifs with h₁ h₂
    · exact hstill.toQuiet
    · exact (hstill.toQuiet.trans hquiet).trans (still_setParkingState _ _).toQuiet
    · have hslept := hasleep (hstill.softLimit.trans (hsleep (eq_false_of_ne_true h₂) hrt))
      have hsame : (p.2.setSleep cfg env).resumeCycleStart cfg env = p.2.setSleep cfg env := by
        simp [resumeCycleStart, hslept]
      rw [hsame]
      exact hstill.toQuiet.trans hquiet
  | false =>
    simp only [hstart, if_true, Bool.false_eq_true, if_false]
    split_ifs with h₁ h₂
    · exact hstill.toQuiet
    · exact (hstill.trans (still_setParkingState _ _)).toQuiet
    · have hoff : p.2.park.flags.restart = false := by
        rw [hpark]
        exact hrestart (eq_false_of_ne_true h₂) hrt
      have hsame : p.2.resumeCycleStart cfg env = p.2 := by
        simp [resumeCycleStart, hsys, hoff, hdoor]
      rw [hsame]
      exact hstill.toQuiet

/-- What has to hold where a cycle start is handled in the safety door state with the door ajar.
The handler that waits for it finds the restart flag off, or no soft limit when the machine goes to
sleep in the same pass; a restore in progress whose motion has ended is told about the door. -/
def Guarded (s : State K) : Step K → Prop
  | .event env rt =>
    s.sysState = .safetyDoor → rt.cycleStart = true → env.door = true →
      (s.handler = .awaitResume → rt.safetyDoor = false → rt.sleep = true →
        s.softLimit = false) ∧
      (s.handler = .awaitResume → rt.safetyDoor = false → rt.sleep = false →
        s.park.flags.restart = false) ∧
      (s.handler = .restore ∨ s.handler = .awaitResumed → rt.cycleComplete = true →
        rt.safetyDoor = true)
  | _ => True

/-- A cycle start that is handled in the safety door state with the door ajar starts no restore:
its effects are none of a restore, no restore begins to wait and the cycle state is not entered. -/
def Interlocked (cfg : Settings K) (s : State K) : Step K → Prop
  | .event env rt =>
    s.sysState = .safetyDoor → rt.cycleStart = true → env.door = true →
      (∀ e ∈ (s.exec cfg (.event env rt)).effects, e.restores = false) ∧
      (s.exec cfg (.event env rt)).frames = s.frames ∧
      (s.exec cfg (.event env rt)).sysState ≠ .cycle
  | _ => True

theorem quiet_dispatch {env : Env K} {rt : RtExec} (hc : Consistent s)
    (hg : Guarded s (.event env rt)) (hs : s.sysState = .safetyDoor)
    (hstart : rt.cycleStart = true) (hdoor : env.door = true) :
    Quiet s (s.dispatch cfg env rt) := by
  obtain ⟨hsleep, hrestart, hrestore⟩ := hg hs hstart hdoor
  have hhandler := hc hs
  unfold dispatch
  cases hh : s.handler <;> rw [hh] at hhandler hsleep hrestart hrestore
  case awaitHold => exact quiet_awaitHold cfg env rt s
  case awaitResume => exact quiet_awaitResume hs hstart hdoor (hsleep rfl) (hrestart rfl)
  case awaitRestartRetract => exact quiet_awaitRestartRetract env rt s
  case awaitWaypointRetract => exact (still_awaitWaypointRetract cfg env rt s).toQuiet
  case restore =>
    simp only [stateRestore]
    split_ifs with h₁ h₂ h₃
    · exact (still_setPark _ s).toQuiet
    · exact quiet_restartRetract env s
    · exact absurd (hrestore (.inl rfl) h₃) h₁
    · exact .refl s
  case awaitResumed =>
    simp only [awaitResumed]
    by_cases h₁ : rt.safetyDoor = true
    · rw [if_pos h₁]
      exact quiet_restartRetract env s
    · rw [if_neg h₁, if_neg fun h₂ => h₁ (hrestore (.inr rfl) h₂)]
      exact .refl s
  all_goals cases hhandler

theorem interlocked_of_guarded {step : Step K} (hc : Consistent s) (hg : Guarded s step) :
    Interlocked cfg s step := by
  cases step with
  | event env rt =>
    intro hs hstart hdoor
    let s₀ : State K := { s with effects := [] }
    have hset : (if rt.safetyDoor then s₀.setSafetyDoor cfg env else s₀) = s₀ := by
      have hsame : s₀.setSafetyDoor cfg env = s₀ := by
        simp only [setSafetyDoor, s₀, hs]
      rw [hsame, ite_self]
    have hquiet : Quiet s₀ (s.exec cfg (.event env rt)) := by
      simp only [exec, stateUpdate]
      rw [hset]
      exact quiet_dispatch (s := s₀) hc hg hs hstart hdoor
    obtain ⟨es, he, hes⟩ := hquiet.adds
    refine ⟨?_, hquiet.frames, ?_⟩
    · rw [he, List.append_nil]
      exact hes
    · intro hcycle
      have := hquiet.cycle hcycle
      rw [show s₀.sysState = .safetyDoor from hs] at this
      cases this
  | resume | set | flags | program => trivial

/-- In every run that keeps to the condition, no cycle start that is handled in the safety door
state with the door ajar starts a restore. -/
theorem door_interlock (cfg : Settings K) (s₀ : State K) (h₀ : Booted s₀) (steps : List (Step K))
    (hsteps : Transition.Along (exec cfg) Guarded s₀ steps) :
    Transition.Along (exec cfg) (Interlocked cfg) s₀ steps := by
  apply Transition.along_of_step (fun s step _ h => consistent_exec cfg step h)
    (fun s step hg hc => interlocked_of_guarded hc hg) _ hsteps
  apply consistent_of_ne
  rw [h₀.sysState]
  exact SysState.noConfusion

/-- One spindle, no parking motion. -/
def plainSettings : Settings ℕ where
  nSysSpindle := 1
  parkingEnabled := false
  laserMode := false
  parkingTarget := 0
  pulloutIncrement := 0
  keepCoolantOn := false
  restoreAfterFeedHold := true
  laserSpindle := fun _ => false

/-- The machine has started, with its spindle running. -/
def plainState : State ℕ where
  modalSpindle := fun _ => ⟨true, false, 1000⟩
  spindle := fun _ => some ⟨true, false, 1000⟩
  park := ⟨{}, 0, 0, 0, 0, 0⟩
  restoreCondition := ⟨0, 0, fun _ => none⟩

/-- A block to run, with the door closed or ajar; a spindle that comes on is waited for. -/
def plainEnv (door : Bool) : Env ℕ where
  door := door
  position := 0
  homed := true
  block := some ⟨0, ⟨true, false, 1000⟩, 0⟩
  accepts := fun _ => true
  spindleWaits := fun _ => true
  coolantWaits := true
  syncFails := false

/-- A cycle is started, the door is opened and the motion ends. -/
def openDoor : List (Step ℕ) :=
  [.event (plainEnv false) { cycleStart := true },
    .event (plainEnv true) { safetyDoor := true },
    .event (plainEnv true) { cycleComplete := true }]

/-- The door is closed, the cycle is started, and the door is opened again while the spindle comes
on. -/
def reopenDoor : List (Step ℕ) :=
  [.event (plainEnv false) { cycleStart := true },
    .event (plainEnv true) { safetyDoor := true },
    .resume (plainEnv true)]

def startAjar : Step ℕ := .event (plainEnv true) { cycleStart := true }

theorem door_interlock_openDoor :
    Transition.Along (exec plainSettings) (Interlocked plainSettings) plainState
      (openDoor ++ [startAjar]) := by
  apply door_interlock plainSettings plainState ⟨rfl, rfl, rfl, rfl⟩
  refine ⟨?_, ?_, ?_, ?_, trivial⟩
  · intro _ _ h
    cases h
  · intro _ h
    cases h
  · intro _ h
    cases h
  · intro _ _ _
    exact ⟨by decide, by decide, by decide⟩

/-- After the door has been opened again during the restore, a cycle start with the door ajar
brings the spindle back. -/
theorem not_interlocked_reopenDoor :
    let s := (openDoor ++ reopenDoor).foldl (exec plainSettings) plainState
    s.sysState = .safetyDoor ∧ s.handler = .awaitResume ∧
      ¬ Interlocked plainSettings s startAjar := by
  intro s
  refine ⟨by decide, by decide, ?_⟩
  intro h
  have heffect := (h (by decide) rfl rfl).1 (.spindle 0 true) (by decide)
  cases heffect

end State

end Machine

end Inspector
