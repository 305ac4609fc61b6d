import Inspector.Machine.Calm
import Inspector.Transition.Run

/-! # Runs of the machine

A run handles real-time requests one after the other, also while a handler waits for an accessory.
In the safety door state the handler is always one of those that deal with the door.
-/

namespace Inspector

namespace Machine

/-- Variables that other parts of the system write at any time. -/
structure Flags where
  softLimit : Bool
  feedHoldPending : Bool
  isParking : Bool
  feedHoldDisable : Bool
  overrideSync : Bool
  parkingDisable : Bool
  alarmPending : Bool
  toolChange : Bool
  spindleStop : SpindleStop

/-- The accessories as the program sets them. -/
structure Accessories (K : Type*) where
  activeSpindle : ℕ
  modalSpindle : ℕ → Spindle K
  modalCoolant : Coolant
  spindle : ℕ → Option (Spindle K)
  coolant : Coolant

/-- Steps of the machine: `state_update` with some requests, the end of the innermost wait, a call
of `state_set` from elsewhere, and writes of flags and of accessories. -/
inductive Step (K : Type*)
  | event (env : Env K) (rt : RtExec)
  | resume (env : Env K)
  | set (env : Env K) (newState : SysState)
  | flags (flags : Flags)
  | program (accessories : Accessories K)

namespace State

variable {K : Type*} [LinearOrder K] [Add K] [Zero K] (cfg : Settings K)

/-- One step; the effects are those of this step. A program does not run while the machine is
suspended. -/
def exec (s : State K) (step : Step K) : State K :=
  let s := { s with effects := [] }
  match step with
  | .event env rt => s.stateUpdate cfg env rt
  | .resume env => s.resume cfg env
  | .set env newState => s.stateSet cfg env newState
  | .flags f =>
    { s with
      softLimit := f.softLimit
      feedHoldPending := f.feedHoldPending
      isParking := f.isParking
      feedHoldDisable := f.feedHoldDisable
      overrideSync := f.overrideSync
      parkingDisable := f.parkingDisable
      alarmPending := f.alarmPending
      toolChange := f.toolChange
      spindleStop := f.spindleStop }
  | .program a =>
    if s.suspend then s
    else
      { s with
        activeSpindle := a.activeSpindle
        modalSpindle := a.modalSpindle
        modalCoolant := a.modalCoolant
        spindle := a.spindle
        coolant := a.coolant }

/-- The machine as it starts. -/
structure Booted (s : State K) : Prop where
  sysState : s.sysState = .idle
  handler : s.handler = .idle
  frames : s.frames = []
  park : s.park.flags = {}

end State

/-- The handlers that deal with the safety door. -/
def Handler.forDoor : Handler → Bool
  | .awaitHold | .awaitResume | .awaitRestartRetract | .awaitWaypointRetract | .restore
  | .awaitResumed => true
  | _ => false

namespace State

variable {K : Type*} {s s' : State K}

/-- In the safety door state a handler deals with the door. -/
def Consistent (s : State K) : Prop := s.sysState = .safetyDoor → s.handler.forDoor = true

/-- What decides about consistency. -/
def control (s : State K) : SysState × Handler := (s.sysState, s.handler)

theorem consistent_of_control (h : s'.control = s.control) (hs : Consistent s) :
    Consistent s' := by
  obtain ⟨hsys, hhandler⟩ := Prod.ext_iff.mp h
  intro hd
  rw [show s'.handler = s.handler from hhandler]
  exact hs (hsys.symm.trans hd)

theorem consistent_ite {c : Prop} [Decidable c] (h : Consistent s) (h' : Consistent s') :
    Consistent (if c then s else s') := by
  split_ifs
  · exact h
  · exact h'

theorem consistent_of_ne (h : s.sysState ≠ .safetyDoor) : Consistent s := fun hd => absurd hd h

section Control

variable [LinearOrder K] [Add K] [Zero K] (cfg : Settings K) (env : Env K)

omit [LinearOrder K] [Add K] [Zero K] in
theorem control_mcParkingMotion (motion : Motion) (s : State K) :
    (s.mcParkingMotion env motion).2.control = s.control := by
  unfold mcParkingMotion
  split_ifs <;> rfl

omit [LinearOrder K] [Add K] [Zero K] in
theorem control_endSysMotion (s : State K) : s.endSysMotion.control = s.control := by
  unfold endSysMotion
  split_ifs <;> rfl

omit [LinearOrder K] [Add K] in
theorem control_deenergize (s : State K) : (s.deenergize cfg env).control = s.control :=
  Prod.ext (still_deenergize cfg env s).sysState (handler_deenergize cfg env s)

omit [LinearOrder K] [Add K] [Zero K] in
theorem sysState_setIdle (s : State K) : s.setIdle.sysState = .idle := by
  by_cases h : s.sysState = .idle
  · rw [setIdle, if_pos h, h]
  · rw [setIdle, if_neg h]

omit [LinearOrder K] [Add K] [Zero K] in
theorem sysState_setCycle (h : s.sysState ≠ .safetyDoor) :
    (s.setCycle env).sysState ≠ .safetyDoor := by
  by_cases hs : s.sysState = .idle
  · rw [setCycle, if_pos hs]
    cases env.block with
    | none => exact h
    | some block =>
      cases env.syncFails <;> exact SysState.noConfusion
  · rwa [setCycle, if_neg hs]

omit [LinearOrder K] [Add K] [Zero K] in
theorem consistent_setCycle (h : Consistent s) : Consistent (s.setCycle env) := by
  by_cases hs : s.sysState = .safetyDoor
  · unfold setCycle
    rw [hs, if_neg SysState.noConfusion]
    exact h
  · exact consistent_of_ne (sysState_setCycle env hs)

omit [LinearOrder K] [Add K] [Zero K] in
theorem consistent_setIdle_setCycle (s : State K) : Consistent (s.setIdle.setCycle env) := by
  apply consistent_of_ne
  apply sysState_setCycle
  rw [sysState_setIdle]
  exact SysState.noConfusion

omit [Add K] in
/-- The state is kept, and in the safety door state the handler deals with the door. -/
theorem consistent_awaitWaypointRetract (rt : RtExec) (h : Consistent s) :
    Consistent (s.awaitWaypointRetract cfg env rt) := by
  intro hd
  rw [(still_awaitWaypointRetract cfg env rt s).sysState] at hd
  by_cases hc : rt.cycleComplete = true
  · rw [handler_awaitWaypointRetract cfg env hc (by rw [hd]; exact SysState.noConfusion)]
    rfl
  · rw [awaitWaypointRetract, if_neg hc]
    exact h hd

omit [LinearOrder K] [Add K] [Zero K] in
theorem holdComplete_cases (s : State K) :
    s.holdComplete.sysState = .idle ∧ s.softLimit = true ∨
    s.holdComplete.sysState = s.sysState ∧ s.holdComplete.handler = .awaitResume := by
  cases h : s.softLimit with
  | true =>
    rw [holdComplete, h, if_pos rfl]
    exact .inl ⟨sysState_setIdle s, rfl⟩
  | false =>
    rw [holdComplete, h, if_neg Bool.false_ne_true]
    exact .inr ⟨rfl, rfl⟩

/-- The outcomes of `state_await_hold` when the motion has ended. -/
theorem awaitHold_cases (rt : RtExec) (hc : rt.cycleComplete = true) (s : State K) :
    (s.awaitHold cfg env rt).sysState = .idle ∧ s.softLimit = true ∨
    (s.awaitHold cfg env rt).sysState = s.sysState ∧
      (s.sysState ≠ .sleep → (s.awaitHold cfg env rt).handler.forDoor = true) := by
  have hstate := (still_setStepControl (fun _ => {}) s).trans (still_awaitHoldState cfg env _)
  unfold awaitHold
  rw [if_pos hc]
  dsimp only
  split_ifs with hchanged
  · refine .inr ⟨hstate.sysState, ?_⟩
    intro hs
    have hne : (s.setStepControl fun _ => {}).sysState ≠ .sleep := hs
    rcases handler_awaitHoldState cfg env hne hchanged with h | h <;> rw [h] <;> rfl
  · rcases holdComplete_cases (awaitHoldState cfg env _).2 with ⟨hi, hsoft⟩ | ⟨hs, hh⟩
    · exact .inl ⟨hi, hstate.softLimit ▸ hsoft⟩
    · exact .inr ⟨hs.trans hstate.sysState, fun _ => by rw [hh]; rfl⟩

theorem consistent_awaitHold (rt : RtExec) (h : Consistent s) :
    Consistent (s.awaitHold cfg env rt) := by
  by_cases hc : rt.cycleComplete = true
  · intro hd
    rcases awaitHold_cases cfg env rt hc s with ⟨hi, -⟩ | ⟨hs, hh⟩
    · rw [hi] at hd
      cases hd
    · rw [hs] at hd
      exact hh (by rw [hd]; exact SysState.noConfusion)
  · rw [awaitHold, if_neg hc]
    exact h

omit [LinearOrder K] [Add K] [Zero K] in
theorem still_executeHold (s : State K) : Still s s.executeHold ∧
    s.executeHold.handler =
      if s.sysState = .cycle ∨ s.sysState = .jog then Handler.awaitHold else s.handler := by
  unfold executeHold
  split_ifs
  · exact ⟨(still_setStepControl _ s).trans (still_setHandler _ _), rfl⟩
  · exact ⟨.refl s, rfl⟩

omit [LinearOrder K] [Add K] [Zero K] in
theorem still_reportHold (newState : SysState) (s : State K) :
    Still s (s.reportHold newState) ∧ (s.reportHold newState).handler = s.handler := by
  unfold reportHold
  split_ifs
  · exact ⟨still_setHoldingState _ s, rfl⟩
  · exact ⟨(still_setParkingState _ s).trans (still_setPark _ _), rfl⟩

omit [LinearOrder K] [Add K] [Zero K] in
theorem still_initPark (s : State K) :
    Still s (s.initPark cfg) ∧ (s.initPark cfg).handler = s.handler := by
  unfold initPark
  split_ifs
  · exact ⟨still_setPark _ s, rfl⟩
  · exact ⟨.refl s, rfl⟩

omit [LinearOrder K] [Add K] [Zero K] in
theorem still_storeConditions (s : State K) : Still s (s.storeConditions cfg env) :=
  still_of_same rfl rfl rfl rfl rfl rfl

/-- What `initiate_hold` does to the control state. -/
structure Held (newState : SysState) (s s' : State K) : Prop extends Quiet s s' where
  sysState : s'.sysState = s.sysState
  softLimit : s'.softLimit = s.softLimit
  suspend : s'.suspend = !s.softLimit
  pendingState : s'.pendingState = if s.sysState = .jog then newState else .idle
  handler : s'.handler =
    if s.sysState = .cycle ∨ s.sysState = .jog then Handler.awaitHold else s.handler

omit [LinearOrder K] [Add K] [Zero K] in
theorem held_initiateHold (newState : SysState) (s : State K) :
    Held newState s (s.initiateHold cfg env newState).2 ∧
      (s.initiateHold cfg env newState).1 = decide (s.sysState = .cycle) := by
  obtain ⟨hpark, hh₁⟩ := still_initPark cfg s
  have hstore := hpark.trans (still_storeConditions cfg env _)
  obtain ⟨hexec, hh₂⟩ := still_executeHold ((s.initPark cfg).storeConditions cfg env)
  obtain ⟨hreport, hh₃⟩ := still_reportHold newState
    ((s.initPark cfg).storeConditions cfg env).executeHold
  have hall := (hstore.trans hexec).trans hreport
  have hhandler := hh₃.trans hh₂
  rw [hstore.sysState] at hhandler
  constructor
  · constructor
    · exact ⟨hall.adds, hall.frames, hall.cycle⟩
    · exact hall.sysState
    · exact hall.softLimit
    · exact congrArg (!·) hall.softLimit
    · exact congrArg (fun x => if x = SysState.jog then newState else .idle) hall.sysState
    · exact hhandler.trans (by rw [← hh₁]; rfl)
  · exact congrArg (fun x => decide (x = SysState.cycle)) hall.sysState

omit [LinearOrder K] [Add K] [Zero K] in
theorem quiet_setIdle (s : State K) : Quiet s s.setIdle := by
  by_cases h : s.sysState = .idle
  · rw [setIdle, if_pos h]
    exact .refl s
  · refine ⟨⟨[], ?_, fun _ h => absurd h List.not_mem_nil⟩, ?_, ?_⟩
    · rw [setIdle, if_neg h]
      rfl
    · rw [setIdle, if_neg h]
    · rw [sysState_setIdle]
      exact SysState.noConfusion

omit [LinearOrder K] [Add K] [Zero K] in
theorem quiet_holdComplete (s : State K) : Quiet s s.holdComplete := by
  unfold holdComplete
  split_ifs
  · exact quiet_setIdle s
  · exact ((still_setHoldingState _ s).trans (still_setHandler _ _)).toQuiet

theorem quiet_awaitHold (rt : RtExec) (s : State K) : Quiet s (s.awaitHold cfg env rt) := by
  have hstate := (still_setStepControl (fun _ => {}) s).trans (still_awaitHoldState cfg env _)
  unfold awaitHold
  dsimp only
  split_ifs
  · exact hstate.toQuiet
  · exact hstate.toQuiet.trans (quiet_holdComplete _)
  · exact .refl s

omit [LinearOrder K] [Add K] in
theorem still_fallAsleep (s : State K) : Still s (s.fallAsleep cfg) := by
  unfold fallAsleep
  split_ifs
  · exact still_enterSleep cfg s
  · exact .refl s

theorem quiet_setParked {newState : SysState} (hne : newState ≠ .cycle) (s : State K) :
    Quiet s (s.setParked cfg env newState) := by
  obtain ⟨hheld, -⟩ := held_initiateHold cfg env newState (s.setParkingState .retracting)
  have hquiet := (still_setParkingState .retracting s).toQuiet.trans hheld.toQuiet
  have hset : ∀ s' : State K, Quiet s s' → Quiet s (s'.setSysState newState) :=
    fun s' h => ⟨h.adds, h.frames, fun hc => absurd hc hne⟩
  apply Quiet.trans _ (still_fallAsleep cfg _).toQuiet
  unfold setHeld
  split_ifs
  · exact hset _ hquiet
  · exact (hset _ hquiet).trans (quiet_awaitHold cfg env _ _)
  · exact hquiet

omit [LinearOrder K] [Add K] in
theorem consistent_fallAsleep (h : Consistent s) : Consistent (s.fallAsleep cfg) := by
  unfold fallAsleep
  split_ifs with hs
  · apply consistent_of_ne
    rw [(still_enterSleep cfg s).sysState, hs.1]
    exact SysState.noConfusion
  · exact h

/-- The state that is set when no motion has to end first. -/
theorem sysState_setHeld {newState : SysState} (h : s.pendingState ≠ newState)
    (hsoft : s.softLimit = false) :
    (s.setHeld cfg env newState false).sysState = newState := by
  rw [setHeld, if_neg Bool.false_ne_true, if_pos h]
  rcases awaitHold_cases cfg env { cycleComplete := true } rfl (s.setSysState newState)
    with ⟨-, hlimit⟩ | ⟨hsys, -⟩
  · exact absurd (hsoft.symm.trans hlimit) Bool.false_ne_true
  · exact hsys

theorem consistent_setHeld {newState : SysState} (hne : newState ≠ .idle)
    (h : Held newState s s') :
    Consistent (s'.setHeld cfg env newState (decide (s.sysState = .cycle))) := by
  unfold setHeld
  split_ifs with hcycle hpending
  · intro _
    change s'.handler.forDoor = true
    rw [h.handler, if_pos (.inl (of_decide_eq_true hcycle))]
    rfl
  · rcases awaitHold_cases cfg env { cycleComplete := true } rfl (s'.setSysState newState)
      with ⟨hi, -⟩ | ⟨hsys, hh⟩
    · apply consistent_of_ne
      rw [hi]
      exact SysState.noConfusion
    · intro hd
      rw [hsys] at hd
      exact hh (by rw [hd]; exact SysState.noConfusion)
  · have hnew := h.pendingState.symm.trans (not_not.mp hpending)
    split_ifs at hnew with hjog
    · apply consistent_of_ne
      rw [h.sysState, hjog]
      exact SysState.noConfusion
    · exact absurd hnew.symm hne

theorem consistent_setParked {newState : SysState} (hne : newState ≠ .idle) (s : State K) :
    Consistent (s.setParked cfg env newState) := by
  obtain ⟨hheld, hfst⟩ := held_initiateHold cfg env newState (s.setParkingState .retracting)
  have hset := consistent_setHeld cfg env hne hheld
  rw [← hfst] at hset
  exact consistent_fallAsleep cfg hset

omit [LinearOrder K] [Add K] [Zero K] in
theorem consistent_setHold (h : Consistent s) : Consistent (s.setHold cfg env) := by
  unfold setHold
  dsimp only
  split_ifs
  · exact h
  · exact consistent_of_ne SysState.noConfusion
  · exact consistent_of_ne SysState.noConfusion
  · exact h
  · exact h

omit [LinearOrder K] [Add K] [Zero K] in
theorem consistent_setToolChange (h : Consistent s) : Consistent s.setToolChange := by
  unfold setToolChange
  split_ifs
  · exact h
  · exact consistent_of_ne SysState.noConfusion

omit [LinearOrder K] [Add K] [Zero K] in
theorem consistent_setIdle (s : State K) : Consistent s.setIdle := by
  apply consistent_of_ne
  rw [sysState_setIdle]
  exact SysState.noConfusion

theorem consistent_setSleep (h : Consistent s) : Consistent (s.setSleep cfg env) := by
  unfold setSleep
  split_ifs
  · exact h
  · exact consistent_setParked cfg env SysState.noConfusion s

theorem consistent_setSafetyDoor (h : Consistent s) : Consistent (s.setSafetyDoor cfg env) := by
  unfold setSafetyDoor
  split
  case h_6 => exact consistent_setParked cfg env SysState.noConfusion s
  all_goals exact h

theorem consistent_stateSet (newState : SysState) (h : Consistent s) :
    Consistent (s.stateSet cfg env newState) := by
  have hnoop : ∀ new : SysState, new ≠ .safetyDoor → Consistent (s.setNoop new) := by
    intro new hne
    unfold setNoop
    split_ifs
    · exact h
    · exact consistent_of_ne hne
  cases newState with
  | idle => exact consistent_setIdle s
  | cycle => exact consistent_setCycle env h
  | jog =>
    simp only [stateSet, setJog]
    split_ifs
    · exact h
    · exact consistent_of_ne SysState.noConfusion
    · exact consistent_of_ne SysState.noConfusion
  | toolChange => exact consistent_setToolChange h
  | hold => exact consistent_setHold cfg env h
  | safetyDoor => exact consistent_setSafetyDoor cfg env h
  | sleep => exact consistent_setSleep cfg env h
  | alarm | estop | homing | checkMode => exact hnoop _ SysState.noConfusion

theorem consistent_stateIdle (rt : RtExec) (h : Consistent s) :
    Consistent (s.stateIdle cfg env rt) := by
  have h₁ := consistent_ite (c := rt.cycleStart = true) (consistent_setCycle env h) h
  have h₂ := consistent_ite (c := rt.feedHold = true) (consistent_setHold cfg env h₁) h₁
  have h₃ := consistent_ite (c := rt.toolChange = true) (consistent_setToolChange h₂) h₂
  exact consistent_ite (consistent_setSleep cfg env h₃) h₃

omit [LinearOrder K] [Add K] [Zero K] in
theorem consistent_stateCycle (rt : RtExec) (h : s.sysState ≠ .safetyDoor) :
    Consistent (s.stateCycle cfg env rt) := by
  have hne : ∀ (c : Prop) [Decidable c] (s₁ s₂ : State K), s₁.sysState ≠ .safetyDoor →
      s₂.sysState ≠ .safetyDoor → (if c then s₁ else s₂).sysState ≠ .safetyDoor := by
    intro c _ s₁ s₂ h₁ h₂
    split_ifs
    · exact h₁
    · exact h₂
  have htool : s.setToolChange.sysState ≠ .safetyDoor := by
    unfold setToolChange
    split_ifs
    · exact h
    · exact SysState.noConfusion
  have hidle : s.setIdle.sysState ≠ .safetyDoor := by
    rw [sysState_setIdle]
    exact SysState.noConfusion
  have h₁ := hne (rt.cycleComplete = true) _ _ (hne (s.toolChange = true) _ _ htool hidle) h
  have h₂ : ∀ s₁ : State K, s₁.sysState ≠ .safetyDoor →
      Consistent (if rt.motionCancel = true then
        s₁.setSuspend true |>.setStepControl (fun c => { c with executeHold := true })
          |>.setHandler .awaitMotionCancel
      else s₁) := fun s₁ h₁ => consistent_ite (consistent_of_ne h₁) (consistent_of_ne h₁)
  have h₃ := h₂ _ h₁
  exact consistent_ite (consistent_of_ne h) (consistent_ite (consistent_setHold cfg env h₃) h₃)

omit [LinearOrder K] [Add K] [Zero K] in
theorem consistent_awaitToolchanged (rt : RtExec) (h : Consistent s) :
    Consistent (s.awaitToolchanged env rt) :=
  consistent_ite (consistent_setIdle_setCycle env _) h

theorem consistent_awaitMotionCancel (rt : RtExec) (h : Consistent s) :
    Consistent (s.awaitMotionCancel cfg env rt) := by
  let s₁ := if s.sysState = .jog then s.setStepControl (fun _ => {}) |>.setSuspend false else s
  have h₁ : Consistent s₁ := consistent_ite h h
  have h₂ := consistent_stateSet cfg env s₁.pendingState h₁
  exact consistent_ite (consistent_ite h₂ (consistent_ite (consistent_setToolChange h₂) h₂)) h

theorem consistent_awaitRestartRetract (rt : RtExec) (h : Consistent s) :
    Consistent (s.awaitRestartRetract cfg env rt) := by
  apply consistent_ite _ h
  apply consistent_awaitHold
  exact fun _ => rfl

theorem consistent_restartRetract (s : State K) : Consistent (s.restartRetract cfg env) := by
  apply consistent_ite
  · exact fun _ => rfl
  · apply consistent_awaitRestartRetract
    exact fun _ => rfl

theorem consistent_awaitResumed (rt : RtExec) (h : Consistent s) :
    Consistent (s.awaitResumed cfg env rt) :=
  consistent_ite (consistent_restartRetract cfg env s)
    (consistent_ite (consistent_setIdle_setCycle env _) h)

section Restore

variable {call : State K → State K} (hcall : ∀ s, Consistent s → Consistent (call s))

omit [Add K] in
theorem control_stateSpindleRestore (idx : ℕ) (s : State K) :
    (s.stateSpindleRestore cfg env idx).2.control = s.control := by
  unfold stateSpindleRestore
  split
  · rfl
  · unfold spindleRestore
    split_ifs <;> rfl

omit [LinearOrder K] [Add K] [Zero K] in
theorem control_coolantRestore (mode : Coolant) (s : State K) :
    (s.coolantRestore env mode).2.control = s.control := by
  unfold coolantRestore
  split_ifs <;> rfl

include hcall

theorem consistent_restoreMotion (h : Consistent s) :
    Consistent (s.restoreMotion cfg env call) := by
  have hmotion : Consistent (if s.park.flags.motion = true then
      s.setParkingState .resuming
        |>.setPark (fun p => { p with planCoolant := s.restoreCondition.coolant })
        |>.mcParkingMotion env .slowRestore
      else (false, s)).2 := by
    split_ifs
    · exact consistent_of_control (control_mcParkingMotion env _ _) h
    · exact h
  exact consistent_ite (consistent_restartRetract cfg env s)
    (consistent_ite hmotion (hcall _ hmotion))

theorem consistent_restoreEnd (h : Consistent s) : Consistent (s.restoreEnd cfg env call) :=
  consistent_restoreMotion cfg env hcall h

theorem consistent_restoreCoolant (h : Consistent s) :
    Consistent (s.restoreCoolant cfg env call) := by
  have hcoolant := consistent_of_control (control_coolantRestore env s.restoreCondition.coolant s) h
  apply consistent_ite
  · exact consistent_ite hcoolant (consistent_restoreEnd cfg env hcall hcoolant)
  · exact consistent_restoreEnd cfg env hcall h

theorem consistent_restoreSpindles (left : ℕ) (h : Consistent s) :
    Consistent (s.restoreSpindles cfg env call left) := by
  induction left generalizing s with
  | zero => exact consistent_restoreCoolant cfg env hcall h
  | succ left ih =>
    have hspindle := consistent_of_control (control_stateSpindleRestore cfg env left s) h
    exact consistent_ite hspindle (ih hspindle)

end Restore

theorem consistent_stateRestore (rt : RtExec) (h : Consistent s) :
    Consistent (s.stateRestore cfg env rt) := by
  apply consistent_ite
  · exact consistent_ite h (consistent_restartRetract cfg env s)
  · apply consistent_ite _ h
    apply consistent_restoreSpindles cfg env
    · exact fun s hs => consistent_awaitResumed cfg env _ hs
    · exact fun _ => rfl

omit [LinearOrder K] [Add K] [Zero K] in
theorem consistent_restartCycle (h : Consistent s) : Consistent (s.restartCycle env) := by
  apply consistent_ite h
  apply consistent_setCycle
  exact consistent_setIdle s

omit [LinearOrder K] [Add K] [Zero K] in
theorem consistent_holdEnd (h : Consistent s) : Consistent (s.holdEnd env) :=
  consistent_restartCycle env h

omit [LinearOrder K] [Add K] [Zero K] in
theorem consistent_holdCoolant (h : Consistent s) : Consistent (s.holdCoolant env) := by
  have hcoolant := consistent_of_control (control_coolantRestore env s.restoreCondition.coolant s) h
  exact consistent_ite (consistent_ite hcoolant (consistent_holdEnd env hcoolant))
    (consistent_holdEnd env h)

omit [Add K] in
theorem consistent_holdRestore (h : Consistent s) : Consistent (s.holdRestore cfg env) := by
  have hspindle := consistent_of_control
    (control_stateSpindleRestore cfg env s.restoreCondition.spindleNum s) h
  apply consistent_ite
  · exact consistent_ite (consistent_ite hspindle (consistent_holdCoolant env hspindle))
      (consistent_holdCoolant env h)
  · apply consistent_holdEnd
    exact consistent_ite h h

theorem consistent_startRestore (s : State K) : Consistent (s.startRestore cfg env) := by
  let s₁ := s.setHandler .restore |>.setParkingState .resuming
  let s₂ := s₁.setParkFlags fun f => { f with restart := false }
  have hmotion : Consistent (if s₁.park.flags.motion then
      if s₂.park.restoreTarget ≤ cfg.parkingTarget then s₂.mcParkingMotion env .fastRestore
      else (false, s₂)
    else (false, s₁)).2 := by
    have hrestore : Consistent s₂ := fun _ => rfl
    split_ifs
    · exact consistent_of_control (control_mcParkingMotion env .fastRestore s₂) hrestore
    · exact hrestore
    · exact fun _ => rfl
  exact consistent_ite hmotion (consistent_stateRestore cfg env _ hmotion)

theorem consistent_resumeCycleStart (h : Consistent s) :
    Consistent (s.resumeCycleStart cfg env) := by
  have h₁ : Consistent (if s.sysState = .hold ∧ s.spindleStop = {} then
      s.setSpindleStop { s.spindleStop with restoreCycle := true } else s) := consistent_ite h h
  rw [State.resumeCycleStart]
  split
  · exact consistent_restartCycle env h₁
  · exact h₁
  · exact consistent_ite (consistent_startRestore cfg env _) h₁
  · exact consistent_holdRestore cfg env h₁

omit [LinearOrder K] [Add K] in
theorem consistent_awaitResumeComplete (h : Consistent s) :
    Consistent (s.awaitResumeComplete cfg env).2 := by
  intro hd
  rw [(still_awaitResumeComplete cfg env s).sysState] at hd
  rw [(handler_awaitResumeComplete cfg env (by rw [hd]; exact SysState.noConfusion)).2]
  exact h hd

theorem consistent_awaitResume (rt : RtExec) (h : Consistent s) :
    Consistent (s.awaitResume cfg env rt) := by
  have hcomplete : Consistent
      (if rt.cycleComplete then s.awaitResumeComplete cfg env else (false, s)).2 := by
    split_ifs
    · exact consistent_awaitResumeComplete cfg env h
    · exact h
  have hsleep := consistent_ite (c := rt.sleep = true) (consistent_setSleep cfg env hcomplete)
    hcomplete
  exact consistent_ite hcomplete (consistent_ite hsleep
    (consistent_ite (consistent_resumeCycleStart cfg env hsleep) (consistent_ite hsleep hsleep)))

theorem consistent_dispatch (rt : RtExec) (h : Consistent s) :
    Consistent (s.dispatch cfg env rt) := by
  unfold dispatch
  cases hh : s.handler with
  | idle => exact consistent_stateIdle cfg env rt h
  | cycle =>
    apply consistent_stateCycle cfg env rt
    intro hd
    have hdoor := h hd
    rw [hh] at hdoor
    cases hdoor
  | awaitHold => exact consistent_awaitHold cfg env rt h
  | noop => exact h
  | awaitMotionCancel => exact consistent_awaitMotionCancel cfg env rt h
  | awaitResume => exact consistent_awaitResume cfg env rt h
  | awaitToolchanged => exact consistent_awaitToolchanged env rt h
  | awaitRestartRetract => exact consistent_awaitRestartRetract cfg env rt h
  | awaitWaypointRetract => exact consistent_awaitWaypointRetract cfg env rt h
  | restore => exact consistent_stateRestore cfg env rt h
  | awaitResumed => exact consistent_awaitResumed cfg env rt h

theorem consistent_resume (h : Consistent s) : Consistent (s.resume cfg env) := by
  have hcall : ∀ s : State K, Consistent s →
      Consistent (s.dispatch cfg env { cycleComplete := true }) :=
    fun s hs => consistent_dispatch cfg env _ hs
  unfold resume
  split
  · exact h
  · rename_i frame frames _
    have hpop : Consistent { s with frames := frames } := h
    cases frame with
    | restore left => exact consistent_restoreSpindles cfg env hcall left hpop
    | restoreCoolant => exact consistent_restoreEnd cfg env hcall hpop
    | hold => exact consistent_holdCoolant env hpop
    | holdCoolant => exact consistent_holdEnd env hpop

end Control

variable [LinearOrder K] [Add K] [Zero K] (cfg : Settings K)

theorem consistent_exec (step : Step K) (h : Consistent s) : Consistent (s.exec cfg step) := by
  have h₀ : Consistent { s with effects := [] } := h
  cases step with
  | event env rt =>
    exact consistent_dispatch cfg env rt (consistent_ite (consistent_setSafetyDoor cfg env h₀) h₀)
  | resume env => exact consistent_resume cfg env h₀
  | set env newState => exact consistent_stateSet cfg env newState h₀
  | flags flags => exact h
  | program accessories => exact consistent_ite h₀ h

end State

end Machine

end Inspector
