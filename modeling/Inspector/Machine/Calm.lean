import Inspector.Machine.Handlers

/-! # What the handlers leave alone

De-energizing and parking change neither the state of the machine nor the waits, and they bring
nothing back. Lemmas for the single functions say where the state or the handler does change.
-/

namespace Inspector

namespace Machine

/-- The effects of a restore: accessories come on, a parking restore motion is planned, or the
cycle state is entered. -/
def Effect.restores : Effect → Bool
  | .spindle _ on => on
  | .spindlesOff => false
  | .coolant state => state ≠ 0
  | .parkingMotion motion => motion = .fastRestore ∨ motion = .slowRestore
  | .enterCycle => true

namespace State

variable {K : Type*} {s s' s'' : State K}

/-- Some effects have been added, none of them one of a restore. -/
def Adds (s s' : State K) : Prop :=
  ∃ es, s'.effects = es ++ s.effects ∧ ∀ e ∈ es, e.restores = false

theorem Adds.refl (s : State K) : Adds s s := ⟨[], rfl, fun _ h => absurd h List.not_mem_nil⟩

theorem Adds.trans (h : Adds s s') (h' : Adds s' s'') : Adds s s'' := by
  obtain ⟨es, he, hes⟩ := h
  obtain ⟨es', he', hes'⟩ := h'
  refine ⟨es' ++ es, by rw [he', he, List.append_assoc], ?_⟩
  intro e hmem
  rcases List.mem_append.mp hmem with h | h
  · exact hes' e h
  · exact hes e h

theorem adds_of_cons {e : Effect} (h : s'.effects = e :: s.effects) (he : e.restores = false) :
    Adds s s' := by
  refine ⟨[e], h, ?_⟩
  rintro e' hmem
  rw [List.mem_singleton.mp hmem]
  exact he

/-- The step brings nothing back: no restore waits, no effect is one of a restore and the cycle
state is not entered. -/
structure Quiet (s s' : State K) : Prop where
  adds : Adds s s'
  frames : s'.frames = s.frames
  cycle : s'.sysState = .cycle → s.sysState = .cycle

theorem Quiet.refl (s : State K) : Quiet s s := ⟨.refl s, rfl, fun h => h⟩

theorem Quiet.trans (h : Quiet s s') (h' : Quiet s' s'') : Quiet s s'' :=
  ⟨h.adds.trans h'.adds, h'.frames.trans h.frames, fun hc => h.cycle (h'.cycle hc)⟩

/-- The step also leaves the state of the machine and its suspension as they are. -/
structure Still (s s' : State K) : Prop extends Quiet s s' where
  sysState : s'.sysState = s.sysState
  pendingState : s'.pendingState = s.pendingState
  suspend : s'.suspend = s.suspend
  softLimit : s'.softLimit = s.softLimit

theorem still_of_eq (hadds : Adds s s') (hframes : s'.frames = s.frames)
    (hsys : s'.sysState = s.sysState) (hpending : s'.pendingState = s.pendingState)
    (hsuspend : s'.suspend = s.suspend) (hsoft : s'.softLimit = s.softLimit) : Still s s' :=
  ⟨⟨hadds, hframes, fun h => hsys ▸ h⟩, hsys, hpending, hsuspend, hsoft⟩

theorem Still.refl (s : State K) : Still s s := ⟨.refl s, rfl, rfl, rfl, rfl⟩

theorem Still.trans (h : Still s s') (h' : Still s' s'') : Still s s'' :=
  ⟨h.toQuiet.trans h'.toQuiet, h'.sysState.trans h.sysState,
    h'.pendingState.trans h.pendingState, h'.suspend.trans h.suspend,
    h'.softLimit.trans h.softLimit⟩

/-- Nothing that `Still` looks at has been touched. -/
theorem still_of_same (heff : s'.effects = s.effects) (hframes : s'.frames = s.frames)
    (hsys : s'.sysState = s.sysState) (hpending : s'.pendingState = s.pendingState)
    (hsuspend : s'.suspend = s.suspend) (hsoft : s'.softLimit = s.softLimit) : Still s s' :=
  still_of_eq ⟨[], heff, fun _ h => absurd h List.not_mem_nil⟩ hframes hsys hpending hsuspend hsoft

section Setters

theorem still_setHandler (handler : Handler) (s : State K) : Still s (s.setHandler handler) :=
  still_of_same rfl rfl rfl rfl rfl rfl

theorem still_setParkingState (state : ParkingState) (s : State K) :
    Still s (s.setParkingState state) :=
  still_of_same rfl rfl rfl rfl rfl rfl

theorem still_setHoldingState (state : HoldingState) (s : State K) :
    Still s (s.setHoldingState state) :=
  still_of_same rfl rfl rfl rfl rfl rfl

theorem still_setSpindleStop (stop : SpindleStop) (s : State K) :
    Still s (s.setSpindleStop stop) :=
  still_of_same rfl rfl rfl rfl rfl rfl

theorem still_setIsParking (isParking : Bool) (s : State K) :
    Still s (s.setIsParking isParking) :=
  still_of_same rfl rfl rfl rfl rfl rfl

theorem still_setPark (f : Park K → Park K) (s : State K) : Still s (s.setPark f) :=
  still_of_same rfl rfl rfl rfl rfl rfl

theorem still_setStepControl (f : StepControl → StepControl) (s : State K) :
    Still s (s.setStepControl f) :=
  still_of_same rfl rfl rfl rfl rfl rfl

theorem still_mcParkingMotion (env : Env K) {motion : Motion}
    (hm : (Effect.parkingMotion motion).restores = false) (s : State K) :
    Still s (s.mcParkingMotion env motion).2 := by
  unfold mcParkingMotion
  split_ifs
  · exact still_of_eq (adds_of_cons rfl hm) rfl rfl rfl rfl rfl
  · exact .refl s

theorem still_endSysMotion (s : State K) : Still s s.endSysMotion := by
  unfold endSysMotion
  split_ifs
  · exact still_setStepControl _ s
  · exact .refl s

@[simp] theorem handler_endSysMotion (s : State K) : s.endSysMotion.handler = s.handler := by
  unfold endSysMotion
  split_ifs <;> rfl

@[simp] theorem handler_mcParkingMotion (env : Env K) (motion : Motion) (s : State K) :
    (s.mcParkingMotion env motion).2.handler = s.handler := by
  unfold mcParkingMotion
  split_ifs <;> rfl

theorem still_coolantOff (s : State K) : Still s (s.coolantSetState 0) :=
  still_of_eq (adds_of_cons rfl rfl) rfl rfl rfl rfl rfl

theorem still_storeRestoreTarget (env : Env K) (s : State K) :
    Still s (s.storeRestoreTarget env) := by
  unfold storeRestoreTarget
  split_ifs
  · exact .refl s
  · exact still_setPark _ s

@[simp] theorem handler_storeRestoreTarget (env : Env K) (s : State K) :
    (s.storeRestoreTarget env).handler = s.handler := by
  unfold storeRestoreTarget
  split_ifs <;> rfl

end Setters

section Deenergize

variable [Zero K] (cfg : Settings K) (env : Env K)

theorem still_spindleAllOff (s : State K) : Still s (s.spindleAllOff cfg) :=
  still_of_eq (adds_of_cons rfl rfl) rfl rfl rfl rfl rfl

theorem still_spindleOff (idx : ℕ) (s : State K) :
    Still s (s.spindleSetState idx ⟨false, false, 0⟩) :=
  still_of_eq (adds_of_cons rfl rfl) rfl rfl rfl rfl rfl

theorem still_enterSleep (s : State K) : Still s (s.enterSleep cfg) :=
  ((still_spindleAllOff cfg s).trans (still_coolantOff _)).trans (still_setHandler _ _)

theorem still_deenergize (s : State K) : Still s (s.deenergize cfg env) := by
  have hoff := still_spindleAllOff cfg s
  unfold deenergize
  dsimp only
  split_ifs
  · exact (hoff.trans (still_coolantOff _)).trans (still_setParkingState _ _)
  · exact hoff.trans (still_setParkingState _ _)

@[simp] theorem handler_deenergize (s : State K) : (s.deenergize cfg env).handler = s.handler := by
  unfold deenergize
  dsimp only
  split_ifs <;> rfl

theorem still_awaitResumeComplete (s : State K) : Still s (s.awaitResumeComplete cfg env).2 := by
  have hdoor := (still_endSysMotion s).trans (still_setParkingState (doorState env) _)
  unfold awaitResumeComplete
  dsimp only
  split_ifs
  · exact hdoor.trans (still_enterSleep cfg _)
  · exact hdoor
  · exact .refl s

theorem handler_awaitResumeComplete (h : s.sysState ≠ .sleep) :
    (s.awaitResumeComplete cfg env).1 = false ∧
      (s.awaitResumeComplete cfg env).2.handler = s.handler := by
  have hdoor := (still_endSysMotion s).trans (still_setParkingState (doorState env) _)
  unfold awaitResumeComplete
  dsimp only
  rw [hdoor.sysState, if_neg h]
  split_ifs
  · exact ⟨rfl, handler_endSysMotion s⟩
  · exact ⟨rfl, rfl⟩

theorem still_clearAccessories (s : State K) : Still s (s.clearAccessories cfg) := by
  have hspindle := still_spindleOff s.park.planSpindle s
  unfold clearAccessories
  dsimp only
  split_ifs
  · exact hspindle
  · exact (hspindle.trans (still_setPark _ _)).trans (still_coolantOff _)

end Deenergize

section Retract

variable [LinearOrder K] [Zero K] (cfg : Settings K) (env : Env K)

omit [Zero K] in
theorem still_fastRetract (s : State K) : Still s (s.fastRetract cfg env).2 := by
  unfold fastRetract
  split_ifs
  · exact still_mcParkingMotion env rfl s
  · exact .refl s

omit [Zero K] in
@[simp] theorem handler_fastRetract (s : State K) :
    (s.fastRetract cfg env).2.handler = s.handler := by
  unfold fastRetract
  split_ifs
  · exact handler_mcParkingMotion env _ s
  · rfl

omit [LinearOrder K] in
/-- The accessories are off and the handler is the one that waits for a cycle start. -/
theorem still_cleared (s : State K) :
    Still s (s.endSysMotion.clearAccessories cfg |>.setHandler .awaitResume) :=
  ((still_endSysMotion s).trans (still_clearAccessories cfg _)).trans (still_setHandler _ _)

theorem still_awaitWaypointRetract (rt : RtExec) (s : State K) :
    Still s (s.awaitWaypointRetract cfg env rt) := by
  have hfast := (still_cleared cfg s).trans (still_fastRetract cfg env _)
  unfold awaitWaypointRetract
  dsimp only
  split_ifs
  · exact hfast
  · exact hfast.trans (still_awaitResumeComplete cfg env _)
  · exact .refl s

theorem handler_awaitWaypointRetract {rt : RtExec} (hc : rt.cycleComplete = true)
    (h : s.sysState ≠ .sleep) : (s.awaitWaypointRetract cfg env rt).handler = .awaitResume := by
  have hfast := (still_cleared cfg s).trans (still_fastRetract cfg env _)
  unfold awaitWaypointRetract
  dsimp only
  rw [if_pos hc]
  split_ifs
  · exact handler_fastRetract cfg env _
  · rw [(handler_awaitResumeComplete cfg env (hfast.sysState ▸ h)).2]
    exact handler_fastRetract cfg env _

omit [Zero K] in
theorem still_slowRetract (s : State K) : Still s (s.slowRetract env).2 := by
  unfold slowRetract
  split_ifs
  · exact (still_setPark _ s).trans (still_mcParkingMotion env rfl _)
  · exact .refl s

omit [Zero K] in
@[simp] theorem handler_slowRetract (s : State K) :
    (s.slowRetract env).2.handler = s.handler := by
  unfold slowRetract
  split_ifs
  · exact handler_mcParkingMotion env _ _
  · rfl

end Retract

section Hold

variable [LinearOrder K] [Add K] [Zero K] (cfg : Settings K) (env : Env K)

/-- The machine waits for the slow retract motion, or goes on to wait for a cycle start. -/
theorem still_retract (s : State K) : Still s (s.retract cfg env) := by
  have hslow : Still s
      ((s.storeTarget cfg env).setHandler .awaitWaypointRetract |>.slowRetract env).2 :=
    ((still_setPark _ s).trans (still_setHandler _ _)).trans (still_slowRetract env _)
  unfold retract
  dsimp only
  split_ifs
  · exact hslow
  · exact hslow.trans (still_setPark _ _)
  · exact hslow.trans (still_awaitWaypointRetract cfg env _ _)
  · exact (hslow.trans (still_setPark _ _)).trans (still_awaitWaypointRetract cfg env _ _)

theorem handler_retract (h : s.sysState ≠ .sleep) :
    (s.retract cfg env).handler = .awaitWaypointRetract ∨
      (s.retract cfg env).handler = .awaitResume := by
  have hslow : Still s
      ((s.storeTarget cfg env).setHandler .awaitWaypointRetract |>.slowRetract env).2 :=
    ((still_setPark _ s).trans (still_setHandler _ _)).trans (still_slowRetract env _)
  have hne := hslow.sysState ▸ h
  unfold retract
  dsimp only
  split_ifs
  · exact .inl (handler_slowRetract env _)
  · exact .inl (handler_slowRetract env _)
  · exact .inr (handler_awaitWaypointRetract cfg env rfl hne)
  · exact .inr (handler_awaitWaypointRetract cfg env rfl hne)

theorem still_awaitHoldParked (s : State K) : Still s (s.awaitHoldParked cfg env).2 := by
  have hstop := still_setSpindleStop {} s
  have hstore := hstop.trans (still_storeRestoreTarget env _)
  unfold awaitHoldParked
  dsimp only
  split_ifs
  · exact (hstore.trans (still_retract cfg env _)).trans (still_setIsParking _ _)
  · exact (hstore.trans (still_deenergize cfg env _)).trans (still_setIsParking _ _)
  · exact (hstop.trans (still_deenergize cfg env _)).trans (still_setIsParking _ _)

theorem handler_awaitHoldParked (h : s.sysState ≠ .sleep)
    (hc : (s.awaitHoldParked cfg env).1 = true) :
    (s.awaitHoldParked cfg env).2.handler = .awaitWaypointRetract ∨
      (s.awaitHoldParked cfg env).2.handler = .awaitResume := by
  have hstore := (still_setSpindleStop {} s).trans (still_storeRestoreTarget env _)
  have hne := hstore.sysState ▸ h
  unfold awaitHoldParked at hc ⊢
  dsimp only at hc ⊢
  split_ifs at hc ⊢ with hparks hretracts
  exact handler_retract cfg env hne

theorem still_awaitHoldState (s : State K) : Still s (s.awaitHoldState cfg env).2 := by
  unfold awaitHoldState
  split
  · exact (still_spindleAllOff cfg s).trans (still_coolantOff _)
  · exact still_awaitHoldParked cfg env s
  · exact still_awaitHoldParked cfg env s
  · exact .refl s

theorem handler_awaitHoldState (h : s.sysState ≠ .sleep)
    (hc : (s.awaitHoldState cfg env).1 = true) :
    (s.awaitHoldState cfg env).2.handler = .awaitWaypointRetract ∨
      (s.awaitHoldState cfg env).2.handler = .awaitResume := by
  cases hs : s.sysState <;> simp only [awaitHoldState, hs, Bool.false_eq_true] at hc ⊢
  case safetyDoor => exact handler_awaitHoldParked cfg env h hc
  case sleep => exact absurd hs h

end Hold

end State

end Machine

end Inspector
