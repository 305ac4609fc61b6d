import Mathlib.Data.Nat.Basic
import Inspector.Machine.Interlock

/-! # Entry into the safety door state

When the door is opened during a cycle, the machine is in the safety door state at once, and until
its spindles are off it waits for motion to end and does not look at a cycle start.
-/

namespace Inspector

namespace Machine

namespace State

variable {K : Type*} {cfg : Settings K} {s s' : State K}

/-- No spindle is energized. -/
def AllOff (cfg : Settings K) (s : State K) : Prop :=
  ∀ i < cfg.nSysSpindle, ∀ v, s.spindle i = some v → v.on = false

/-- The machine is in the safety door state, its spindles are off, and a cycle start can be
acted upon. -/
structure Ready (cfg : Settings K) (s : State K) : Prop where
  sysState : s.sysState = .safetyDoor
  handler : s.handler = .awaitResume
  off : AllOff cfg s

/-- The single spindle is the one that parking motions are planned with. -/
def PlansFirst (s : State K) : Prop :=
  s.park.planSpindle = 0 ∧ s.restoreCondition.spindleNum = 0

/-- No restore of the safety door state is waited for. -/
def HoldsOnly (s : State K) : Prop := ∀ f ∈ s.frames, f = .hold ∨ f = .holdCoolant

/-- The machine is in the safety door state and waits for motion to end, with one spindle to turn
off where it parks. -/
structure Waiting (cfg : Settings K) (s : State K) : Prop where
  sysState : s.sysState = .safetyDoor
  handler : s.handler = .awaitHold ∨ s.handler = .awaitWaypointRetract ∧ cfg.parkingEnabled = true
  frames : HoldsOnly s
  plan : cfg.parkingEnabled = true → cfg.nSysSpindle = 1 ∧ PlansFirst s

variable [LinearOrder K] [Add K] [Zero K]

omit [LinearOrder K] [Add K] in
theorem allOff_spindleAllOff (s : State K) : AllOff cfg (s.spindleAllOff cfg) := by
  intro i hi v hv
  simp only [spindleAllOff, emit, if_pos hi, Option.map_eq_some_iff] at hv
  obtain ⟨_, -, rfl⟩ := hv
  rfl

omit [LinearOrder K] [Add K] in
theorem allOff_deenergize (env : Env K) (s : State K) : AllOff cfg (s.deenergize cfg env) := by
  unfold deenergize
  dsimp only
  split_ifs
  · exact allOff_spindleAllOff s
  · exact allOff_spindleAllOff s

omit [LinearOrder K] [Add K] in
/-- The only spindle is the one of the parking motions. -/
theorem allOff_clearAccessories (hn : cfg.nSysSpindle = 1) (hp : s.park.planSpindle = 0) :
    AllOff cfg (s.clearAccessories cfg) := by
  have hoff : AllOff cfg (s.spindleSetState s.park.planSpindle ⟨false, false, 0⟩) := by
    intro i hi v hv
    have h0 : i = s.park.planSpindle := by omega
    simp only [spindleSetState, emit, if_pos h0, Option.map_eq_some_iff] at hv
    obtain ⟨_, -, rfl⟩ := hv
    rfl
  unfold clearAccessories
  dsimp only
  split_ifs
  · exact hoff
  · exact hoff

omit [LinearOrder K] [Add K] [Zero K] in
theorem allOff_congr (h : s'.spindle = s.spindle) (hs : AllOff cfg s) : AllOff cfg s' := by
  rwa [AllOff, h]

section Motion

variable (env : Env K)

omit [LinearOrder K] [Add K] [Zero K]

theorem spindle_mcParkingMotion (motion : Motion) (s : State K) :
    (s.mcParkingMotion env motion).2.spindle = s.spindle := by
  unfold mcParkingMotion
  split_ifs <;> rfl

theorem plansFirst_mcParkingMotion (motion : Motion) (h : PlansFirst s) :
    PlansFirst (s.mcParkingMotion env motion).2 := by
  unfold mcParkingMotion
  split_ifs
  · exact h
  · exact h

theorem plansFirst_endSysMotion (h : PlansFirst s) : PlansFirst s.endSysMotion := by
  unfold endSysMotion
  split_ifs
  · exact h
  · exact h

theorem plansFirst_storeRestoreTarget (h : PlansFirst s) :
    PlansFirst (s.storeRestoreTarget env) := by
  unfold storeRestoreTarget
  split_ifs
  · exact h
  · exact h

theorem spindle_endSysMotion (s : State K) : s.endSysMotion.spindle = s.spindle := by
  unfold endSysMotion
  split_ifs <;> rfl

end Motion

section Retract

variable (env : Env K)

omit [Add K] [Zero K] in
theorem spindle_fastRetract (s : State K) : (s.fastRetract cfg env).2.spindle = s.spindle := by
  unfold fastRetract
  split_ifs
  · exact spindle_mcParkingMotion env _ s
  · rfl

omit [LinearOrder K] [Add K] in
theorem spindle_awaitResumeComplete (h : s.sysState ≠ .sleep) :
    (s.awaitResumeComplete cfg env).2.spindle = s.spindle := by
  have hsys : (s.endSysMotion.setParkingState (doorState env)).sysState ≠ .sleep := by
    rwa [((still_endSysMotion s).trans (still_setParkingState (doorState env) _)).sysState]
  unfold awaitResumeComplete
  dsimp only
  rw [if_neg hsys]
  split_ifs
  · exact spindle_endSysMotion s
  · rfl

omit [Add K] in
theorem ready_awaitWaypointRetract {rt : RtExec} (hc : rt.cycleComplete = true)
    (hs : s.sysState = .safetyDoor) (hn : cfg.nSysSpindle = 1) (hp : PlansFirst s) :
    Ready cfg (s.awaitWaypointRetract cfg env rt) := by
  have hne : s.sysState ≠ .sleep := by
    rw [hs]
    exact SysState.noConfusion
  refine ⟨(still_awaitWaypointRetract cfg env rt s).sysState.trans hs,
    handler_awaitWaypointRetract cfg env hc hne, ?_⟩
  let s₁ := s.endSysMotion.clearAccessories cfg |>.setHandler .awaitResume
  have hoff : AllOff cfg s₁ := allOff_clearAccessories hn (plansFirst_endSysMotion hp).1
  have hfast : AllOff cfg (s₁.fastRetract cfg env).2 :=
    allOff_congr (spindle_fastRetract env s₁) hoff
  have hstill : Still s (s₁.fastRetract cfg env).2 :=
    (still_cleared cfg s).trans (still_fastRetract cfg env _)
  have hcomplete : AllOff cfg ((s₁.fastRetract cfg env).2.awaitResumeComplete cfg env).2 :=
    allOff_congr (spindle_awaitResumeComplete env (hstill.sysState ▸ hne)) hfast
  unfold awaitWaypointRetract
  dsimp only
  rw [if_pos hc]
  split_ifs
  · exact hfast
  · exact hcomplete

omit [Add K] [Zero K] in
theorem plansFirst_slowRetract (h : PlansFirst s) : PlansFirst (s.slowRetract env).2 := by
  unfold slowRetract
  split_ifs
  · exact plansFirst_mcParkingMotion env _ ⟨h.2, h.2⟩
  · exact h

/-- The retract motion is awaited, or the machine is ready. -/
theorem retract_cases (hs : s.sysState = .safetyDoor) (hn : cfg.nSysSpindle = 1)
    (hp : PlansFirst s) :
    (s.retract cfg env).handler = .awaitWaypointRetract ∧ PlansFirst (s.retract cfg env) ∨
      Ready cfg (s.retract cfg env) := by
  let s₁ := s.storeTarget cfg env |>.setHandler .awaitWaypointRetract
  have hp₁ : PlansFirst s₁ := by
    have hplan : s₁.park.planSpindle = s.park.planSpindle := by
      change (if s.park.flags.restart then ({ s.park with target := env.position } : Park K)
        else _).planSpindle = _
      split_ifs <;> rfl
    exact ⟨hplan.trans hp.1, hp.2⟩
  have hslow := plansFirst_slowRetract env hp₁
  have hstill : Still s (s₁.slowRetract env).2 :=
    ((still_setPark _ s).trans (still_setHandler _ _)).trans (still_slowRetract env _)
  have hsys := hstill.sysState.trans hs
  have hhandler : (s₁.slowRetract env).2.handler = .awaitWaypointRetract :=
    handler_slowRetract env s₁
  unfold retract
  dsimp only
  split_ifs
  · exact .inl ⟨hhandler, hslow⟩
  · exact .inl ⟨hhandler, hslow⟩
  · exact .inr (ready_awaitWaypointRetract env rfl hsys hn hslow)
  · exact .inr (ready_awaitWaypointRetract env rfl hsys hn hslow)

omit [LinearOrder K] [Add K] in
/-- Without a retract motion the machine is ready. -/
theorem ready_holdComplete (hs : s.sysState = .safetyDoor) (hsoft : s.softLimit = false) :
    Ready cfg ((s.deenergize cfg env).setIsParking false).holdComplete := by
  have hstill := (still_deenergize cfg env s).trans (still_setIsParking false _)
  have hlimit := hstill.softLimit.trans hsoft
  rw [holdComplete, if_neg (by rw [hlimit]; exact Bool.false_ne_true)]
  exact ⟨hstill.sysState.trans hs, rfl, allOff_deenergize env s⟩

variable (cfg) in
/-- The machine retracts and has changed the handler, or it has turned off its spindles. -/
theorem awaitHoldParked_cases (s : State K) :
    (∃ s', s.awaitHoldParked cfg env = (true, (s'.retract cfg env).setIsParking false) ∧
      cfg.parkingEnabled = true ∧ Still s s' ∧ (PlansFirst s → PlansFirst s')) ∨
    ∃ s', s.awaitHoldParked cfg env = (false, (s'.deenergize cfg env).setIsParking false) ∧
      Still s s' := by
  let s₁ := s.setSpindleStop {}
  let s₂ := s₁.storeRestoreTarget env
  have hstop : Still s s₁ := still_setSpindleStop _ s
  have hstore : Still s s₂ := hstop.trans (still_storeRestoreTarget env s₁)
  by_cases hparks : s₁.parks cfg = true
  · have henabled : cfg.parkingEnabled = true := by
      simp only [parks, Bool.and_eq_true] at hparks
      exact hparks.1.1
    by_cases hretracts : s₂.retracts cfg env = true
    · left
      refine ⟨s₂, ?_, henabled, hstore, fun h => plansFirst_storeRestoreTarget env h⟩
      change (if s₁.parks cfg = true then _ else _) = _
      rw [if_pos hparks]
      exact if_pos hretracts
    · right
      refine ⟨s₂, ?_, hstore⟩
      change (if s₁.parks cfg = true then _ else _) = _
      rw [if_pos hparks]
      exact if_neg hretracts
  · right
    exact ⟨s₁, if_neg hparks, hstop⟩

/-- When motion has ended the retract motion is awaited, or the machine is ready. -/
theorem awaitHold_of_waiting {rt : RtExec} (hc : rt.cycleComplete = true)
    (hs : s.sysState = .safetyDoor) (hsoft : s.softLimit = false)
    (hp : cfg.parkingEnabled = true → cfg.nSysSpindle = 1 ∧ PlansFirst s) :
    ((s.awaitHold cfg env rt).handler = .awaitWaypointRetract ∧ cfg.parkingEnabled = true ∧
      PlansFirst (s.awaitHold cfg env rt) ∧ Still s (s.awaitHold cfg env rt)) ∨
    Ready cfg (s.awaitHold cfg env rt) := by
  let s₀ := s.setStepControl fun _ => {}
  have hclear : Still s s₀ := still_setStepControl _ s
  have heq : s.awaitHold cfg env rt = if (s₀.awaitHoldParked cfg env).1 = true then
      (s₀.awaitHoldParked cfg env).2 else (s₀.awaitHoldParked cfg env).2.holdComplete := by
    have hparked : s₀.awaitHoldState cfg env = s₀.awaitHoldParked cfg env := by
      rw [awaitHoldState, hclear.sysState, hs]
    rw [awaitHold, if_pos hc, ← hparked]
  rcases awaitHoldParked_cases cfg env s₀ with ⟨s', hretract, henabled, hstill, hplans⟩ |
    ⟨s', hoff, hstill⟩
  · rw [heq, hretract, if_pos rfl]
    obtain ⟨hn, hplan⟩ := hp henabled
    have hstill' := hclear.trans hstill
    rcases retract_cases env (hstill'.sysState.trans hs) hn (hplans hplan) with ⟨hh, hplan'⟩ | hready
    · left
      exact ⟨hh, henabled, hplan',
        (hstill'.trans (still_retract cfg env s')).trans (still_setIsParking _ _)⟩
    · right
      exact ⟨hready.sysState, hready.handler, hready.off⟩
  · rw [heq, hoff, if_neg Bool.false_ne_true]
    have hstill' := hclear.trans hstill
    exact .inr (ready_holdComplete env (hstill'.sysState.trans hs) (hstill'.softLimit.trans hsoft))

end Retract

/-- The motions that have ended since the door was opened. -/
def phase (s : State K) : ℕ := if s.handler = .awaitWaypointRetract then 1 else 0

/-- The step reports the end of a motion. -/
def completes : Step K → Bool
  | .event _ rt => rt.cycleComplete
  | _ => false

/-- What has to hold where a step is made. The door is not reported while jogging, and where it is
reported in a cycle no restore is still waited for. No soft limit has been hit when motion ends. The
state is not set from elsewhere, as by an alarm or a stop. -/
def Undisturbed (s : State K) : Step K → Prop
  | .event _ rt =>
    (rt.safetyDoor = true → s.sysState ≠ .jog) ∧
    (rt.safetyDoor = true → s.sysState = .cycle → HoldsOnly s) ∧
    (rt.cycleComplete = true → s.sysState = .safetyDoor ∨ s.sysState = .cycle →
      s.softLimit = false)
  | .set _ _ => False
  | _ => True

section Restore

omit [LinearOrder K] [Add K] [Zero K]

theorem waiting_of_same (h : Waiting cfg s) (hsys : s'.sysState = s.sysState)
    (hhandler : s'.handler = s.handler)
    (hframes : ∀ f ∈ s'.frames, f ∈ s.frames ∨ f = .holdCoolant) (hpark : s'.park = s.park)
    (hrestore : s'.restoreCondition = s.restoreCondition) : Waiting cfg s' := by
  refine ⟨hsys.trans h.sysState, hhandler ▸ h.handler, ?_, ?_⟩
  · intro f hf
    rcases hframes f hf with hf | hf
    · exact h.frames f hf
    · exact .inr hf
  · rw [PlansFirst, hpark, hrestore]
    exact h.plan

/-- In the safety door state the cycle is not started after a restore. -/
theorem waiting_holdEnd (h : Waiting cfg s) (env : Env K) :
    Waiting cfg (s.holdEnd env) ∧ (s.holdEnd env).handler = s.handler := by
  have hdoor : (s.setSpindleStop {}).sysState = .safetyDoor := h.sysState
  rw [holdEnd, restartCycle, if_pos (.inr hdoor)]
  exact ⟨waiting_of_same h rfl rfl (fun _ hf => .inl hf) rfl rfl, rfl⟩

theorem waiting_gcCoolant (h : Waiting cfg s) (mode : Coolant) : Waiting cfg (s.gcCoolant mode) :=
  waiting_of_same h rfl rfl (fun _ hf => .inl hf) rfl rfl

theorem waiting_coolantRestore (h : Waiting cfg s) (env : Env K) (mode : Coolant) :
    Waiting cfg (s.coolantRestore env mode).2 ∧
      (s.coolantRestore env mode).2.handler = s.handler := by
  unfold coolantRestore
  split_ifs
  · exact ⟨waiting_of_same h rfl rfl (fun _ hf => .inl hf) rfl rfl, rfl⟩
  · exact ⟨h, rfl⟩

theorem waiting_holdCoolant (h : Waiting cfg s) (env : Env K) :
    Waiting cfg (s.holdCoolant env) ∧ (s.holdCoolant env).handler = s.handler := by
  obtain ⟨hset, hhandler⟩ := waiting_coolantRestore h env s.restoreCondition.coolant
  unfold holdCoolant
  dsimp only
  split_ifs
  · exact ⟨waiting_of_same hset rfl rfl (fun f hf => (List.mem_cons.mp hf).symm) rfl rfl, hhandler⟩
  · obtain ⟨hend, hsame⟩ := waiting_holdEnd (waiting_gcCoolant hset _) env
    exact ⟨hend, hsame.trans hhandler⟩
  · exact waiting_holdEnd h env

theorem phase_of_handler (h : s'.handler = s.handler) : phase s' = phase s := by
  rw [phase, h, phase]

end Restore

/-- The end of a wait for coolant or for the spindle leaves the machine waiting. -/
theorem waiting_resume (h : Waiting cfg s) (env : Env K) :
    Waiting cfg (s.resume cfg env) ∧ (s.resume cfg env).handler = s.handler := by
  unfold resume
  cases hf : s.frames with
  | nil => exact ⟨h, rfl⟩
  | cons frame frames =>
    have hrest : Waiting cfg { s with frames := frames } :=
      waiting_of_same h rfl rfl (fun f hmem => .inl (by rw [hf]; exact .tail frame hmem)) rfl rfl
    rcases h.frames frame (by rw [hf]; exact .head frames) with rfl | rfl
    · exact waiting_holdCoolant hrest env
    · exact waiting_holdEnd (waiting_gcCoolant hrest _) env

/-- The handlers of a waiting machine look at the end of a motion only. -/
theorem waiting_dispatch (h : Waiting cfg s) (env : Env K) {rt : RtExec}
    (hc : rt.cycleComplete = false) : s.dispatch cfg env rt = s := by
  rcases h.handler with hh | ⟨hh, -⟩
  · rw [dispatch, hh]
    simp only [awaitHold, hc, Bool.false_eq_true, if_false]
  · rw [dispatch, hh]
    simp only [awaitWaypointRetract, hc, Bool.false_eq_true, if_false]

/-- The door is not reported twice. -/
theorem waiting_stateUpdate (h : Waiting cfg s) (env : Env K) (rt : RtExec) :
    s.stateUpdate cfg env rt = s.dispatch cfg env rt := by
  have hsame : s.setSafetyDoor cfg env = s := by
    rw [setSafetyDoor, h.sysState]
  rw [stateUpdate, hsame, ite_self]

/-- While the machine waits, a request other than the end of a motion changes nothing. -/
theorem waiting_ignores (h : Waiting cfg s) (env : Env K) {rt : RtExec}
    (hc : rt.cycleComplete = false) : s.stateUpdate cfg env rt = s :=
  (waiting_stateUpdate h env rt).trans (waiting_dispatch h env hc)

/-- When a motion ends the machine waits for the next one, or it is ready. -/
theorem waiting_completes (h : Waiting cfg s) (hsoft : s.softLimit = false) (env : Env K)
    {rt : RtExec} (hc : rt.cycleComplete = true) :
    (Waiting cfg (s.dispatch cfg env rt) ∧ phase (s.dispatch cfg env rt) = phase s + 1) ∨
      Ready cfg (s.dispatch cfg env rt) := by
  rcases h.handler with hh | ⟨hh, henabled⟩
  · have hphase : phase s = 0 := by rw [phase, hh, if_neg Handler.noConfusion]
    rw [dispatch, hh]
    rcases awaitHold_of_waiting env hc h.sysState hsoft h.plan with
      ⟨hretract, henabled, hplan, hstill⟩ | hready
    · left
      refine ⟨⟨hstill.sysState.trans h.sysState, .inr ⟨hretract, henabled⟩,
        by rw [HoldsOnly, hstill.frames]; exact h.frames,
        fun hp => ⟨(h.plan hp).1, hplan⟩⟩, ?_⟩
      rw [hphase, phase, if_pos hretract]
    · exact .inr hready
  · obtain ⟨hn, hplan⟩ := h.plan henabled
    rw [dispatch, hh]
    exact .inr (ready_awaitWaypointRetract env hc h.sysState hn hplan)

variable (cfg) in
theorem still_program (a : Accessories K) (s : State K) :
    (s.exec cfg (.program a)).sysState = s.sysState ∧
      (s.exec cfg (.program a)).handler = s.handler ∧
      (s.exec cfg (.program a)).frames = s.frames ∧
      (s.exec cfg (.program a)).park = s.park ∧
      (s.exec cfg (.program a)).restoreCondition = s.restoreCondition := by
  unfold exec
  dsimp only
  split_ifs
  · exact ⟨rfl, rfl, rfl, rfl, rfl⟩
  · exact ⟨rfl, rfl, rfl, rfl, rfl⟩

/-- One step of a waiting machine. -/
theorem waiting_exec {step : Step K} (h : Waiting cfg s) (hstep : Undisturbed s step) :
    (Waiting cfg (s.exec cfg step) ∧
      phase (s.exec cfg step) = phase s + if completes step then 1 else 0) ∨
    Ready cfg (s.exec cfg step) := by
  have h₀ : Waiting cfg { s with effects := [] } :=
    ⟨h.sysState, h.handler, h.frames, h.plan⟩
  cases step with
  | event env rt =>
    cases hc : rt.cycleComplete with
    | true =>
      simp only [exec, completes, hc, if_true]
      rw [waiting_stateUpdate h₀ env rt]
      exact waiting_completes h₀ (hstep.2.2 hc (.inl h.sysState)) env hc
    | false =>
      simp only [exec, completes, hc]
      rw [waiting_ignores h₀ env hc]
      exact .inl ⟨h₀, rfl⟩
  | resume env =>
    obtain ⟨hw, hhandler⟩ := waiting_resume h₀ env
    exact .inl ⟨hw, phase_of_handler hhandler⟩
  | set env newState => exact hstep.elim
  | flags flags => exact .inl ⟨⟨h.sysState, h.handler, h.frames, h.plan⟩, rfl⟩
  | program accessories =>
    obtain ⟨hsys, hhandler, hframes, hpark, hrestore⟩ := still_program cfg accessories s
    left
    exact ⟨waiting_of_same h hsys hhandler (fun f hf => .inl (hframes ▸ hf)) hpark hrestore,
      phase_of_handler hhandler⟩

/-- A waiting machine waits until it is ready. -/
theorem waiting_run {steps : List (Step K)} (h : Waiting cfg s)
    (hsteps : Transition.Along (exec cfg) Undisturbed s steps) :
    ((∀ q, q <+: steps → Waiting cfg (q.foldl (exec cfg) s)) ∧
      phase (steps.foldl (exec cfg) s) = phase s + steps.countP completes) ∨
    ∃ p, p <+: steps ∧ Ready cfg (p.foldl (exec cfg) s) ∧
      ∀ q, q <+: p → q ≠ p → Waiting cfg (q.foldl (exec cfg) s) := by
  induction steps generalizing s with
  | nil =>
    refine .inl ⟨?_, rfl⟩
    rintro q hq
    rwa [List.prefix_nil.mp hq]
  | cons step steps ih =>
    obtain ⟨hstep, hsteps⟩ := hsteps
    rcases waiting_exec h hstep with ⟨hw, hphase⟩ | hready
    · rcases ih hw hsteps with ⟨hrun, hcount⟩ | ⟨p, hp, hready, hbefore⟩
      · left
        refine ⟨?_, ?_⟩
        · rintro q hq
          rcases List.prefix_cons_iff.mp hq with rfl | ⟨q', rfl, hq'⟩
          · exact h
          · exact hrun q' hq'
        · rw [List.foldl_cons, hcount, hphase, List.countP_cons]
          omega
      · right
        refine ⟨step :: p, List.cons_prefix_cons.mpr ⟨rfl, hp⟩, hready, ?_⟩
        rintro q hq hne
        rcases List.prefix_cons_iff.mp hq with rfl | ⟨q', rfl, hq'⟩
        · exact h
        · exact hbefore q' hq' fun heq => hne (heq ▸ rfl)
    · right
      refine ⟨[step], List.cons_prefix_cons.mpr ⟨rfl, List.nil_prefix⟩, hready, ?_⟩
      rintro q hq hne
      rcases List.prefix_cons_iff.mp hq with rfl | ⟨q', rfl, hq'⟩
      · exact h
      · exact absurd (by rw [List.prefix_nil.mp hq']) hne

omit [LinearOrder K] [Add K] [Zero K] in
theorem plansFirst_initiateHold (env : Env K) (newState : SysState) (hn : cfg.nSysSpindle = 1)
    (hp : cfg.parkingEnabled = true) (s : State K) :
    PlansFirst (s.initiateHold cfg env newState).2 := by
  have hinit : PlansFirst ((s.initPark cfg).storeConditions cfg env) := by
    constructor
    · simp [initPark, hp, storeConditions, setPark, gcSpindleGet, hn]
    · simp only [storeConditions, hn, storeSpindles]
      cases (s.initPark cfg).spindle 0 <;> rfl
  have hexec : PlansFirst ((s.initPark cfg).storeConditions cfg env).executeHold := by
    unfold executeHold
    split_ifs
    · exact hinit
    · exact hinit
  have hreport : PlansFirst
      (((s.initPark cfg).storeConditions cfg env).executeHold.reportHold newState) := by
    unfold reportHold
    split_ifs
    · exact hexec
    · exact hexec
  exact hreport

/-- The door is reported in a cycle. -/
theorem waiting_setSafetyDoor (hcfg : cfg.parkingEnabled = true → cfg.nSysSpindle = 1)
    (env : Env K) (hs : s.sysState = .cycle) (hframes : HoldsOnly s) :
    Waiting cfg (s.setSafetyDoor cfg env) ∧ phase (s.setSafetyDoor cfg env) = 0 ∧
      (s.setSafetyDoor cfg env).softLimit = s.softLimit := by
  obtain ⟨hheld, hfst⟩ := held_initiateHold cfg env .safetyDoor (s.setParkingState .retracting)
  have hcycle : (s.setParkingState .retracting).sysState = .cycle := hs
  have hheldTrue : ((s.setParkingState .retracting).initiateHold cfg env .safetyDoor).1 = true := by
    rw [hfst, hcycle]
    rfl
  have hdoor : s.setSafetyDoor cfg env =
      ((s.setParkingState .retracting).initiateHold cfg env .safetyDoor).2.setSysState
        .safetyDoor := by
    have hparked : s.setSafetyDoor cfg env = s.setParked cfg env .safetyDoor := by
      rw [setSafetyDoor, hs]
    rw [hparked, setParked]
    dsimp only
    rw [hheldTrue, setHeld, if_pos rfl, fallAsleep, if_neg fun h => SysState.noConfusion h.1]
  have hhandler := hheld.handler
  rw [if_pos (.inl hcycle)] at hhandler
  rw [hdoor]
  refine ⟨⟨rfl, .inl hhandler, ?_, ?_⟩, ?_, hheld.softLimit⟩
  · intro f hf
    exact hframes f (hheld.frames ▸ hf)
  · intro hp
    exact ⟨hcfg hp, plansFirst_initiateHold env .safetyDoor (hcfg hp) hp _⟩
  · have hne : (((s.setParkingState .retracting).initiateHold cfg env .safetyDoor).2.setSysState
        .safetyDoor).handler ≠ .awaitWaypointRetract := by
      change ((s.setParkingState .retracting).initiateHold cfg env .safetyDoor).2.handler ≠ _
      rw [hhandler]
      exact Handler.noConfusion
    exact if_neg hne

/-- The step that reports the door in a cycle. -/
theorem waiting_door (hcfg : cfg.parkingEnabled = true → cfg.nSysSpindle = 1) {env : Env K}
    {rt : RtExec} (hs : s.sysState = .cycle) (hdoor : rt.safetyDoor = true)
    (hstep : Undisturbed s (.event env rt)) :
    (Waiting cfg (s.exec cfg (.event env rt)) ∧
      phase (s.exec cfg (.event env rt)) = if rt.cycleComplete = true then 1 else 0) ∨
    Ready cfg (s.exec cfg (.event env rt)) := by
  have hframes := hstep.2.1 hdoor hs
  let s₀ : State K := { s with effects := [] }
  obtain ⟨hw, hphase, hlimit⟩ :=
    waiting_setSafetyDoor (s := s₀) hcfg env hs hframes
  have hexec : s.exec cfg (.event env rt) = (s₀.setSafetyDoor cfg env).dispatch cfg env rt := by
    change (if rt.safetyDoor = true then _ else _ : State K).dispatch cfg env rt = _
    rw [if_pos hdoor]
  rw [hexec]
  cases hc : rt.cycleComplete with
  | true =>
    have hsoft := hlimit.trans (hstep.2.2 hc (.inr hs))
    rcases waiting_completes hw hsoft env hc with ⟨hw', hphase'⟩ | hready
    · left
      refine ⟨hw', ?_⟩
      rw [hphase', hphase]
      rfl
    · exact .inr hready
  | false =>
    left
    rw [waiting_dispatch hw env hc]
    exact ⟨hw, hphase⟩

/-- Whatever is requested is not looked at, except for the end of a motion. -/
def Ignores (cfg : Settings K) (s : State K) : Prop :=
  ∀ env rt, rt.cycleComplete = false → s.stateUpdate cfg env rt = s

/-- The machine waits in the safety door state, where a cycle start is not looked at. -/
def Holds (cfg : Settings K) (s : State K) : Prop := Waiting cfg s ∧ Ignores cfg s

theorem holds_of_waiting (h : Waiting cfg s) : Holds cfg s :=
  ⟨h, fun env _ hc => waiting_ignores h env hc⟩

omit [LinearOrder K] [Add K] [Zero K] in
theorem phase_le (h : Waiting cfg s) : phase s ≤ if cfg.parkingEnabled = true then 1 else 0 := by
  rcases h.handler with hh | ⟨hh, hp⟩
  · rw [phase, hh, if_neg Handler.noConfusion]
    exact Nat.zero_le _
  · rw [phase, if_pos hh, if_pos hp]

/-- When the door is reported in a cycle, the machine is in the safety door state from then on, and
it does not look at a cycle start before its spindles are off. They are off when motion has ended,
or with parking after one more motion at the latest. -/
theorem door_entry (cfg : Settings K) (hcfg : cfg.parkingEnabled = true → cfg.nSysSpindle = 1)
    (s : State K) (hmotion : s.sysState = .cycle ∨ s.sysState = .jog) (env : Env K) (rt : RtExec)
    (hdoor : rt.safetyDoor = true) (post : List (Step K))
    (hsteps : Transition.Along (exec cfg) Undisturbed s (.event env rt :: post)) :
    ((∀ q, q <+: post → Holds cfg ((.event env rt :: q).foldl (exec cfg) s)) ∧
      (Step.event env rt :: post).countP completes ≤
        if cfg.parkingEnabled = true then 1 else 0) ∨
    ∃ p, p <+: post ∧ Ready cfg ((.event env rt :: p).foldl (exec cfg) s) ∧
      ∀ q, q <+: p → q ≠ p → Holds cfg ((.event env rt :: q).foldl (exec cfg) s) := by
  obtain ⟨hstep, hpost⟩ := hsteps
  have hs : s.sysState = .cycle := hmotion.resolve_right (hstep.1 hdoor)
  rcases waiting_door hcfg hs hdoor hstep with ⟨hw, hphase⟩ | hready
  · rcases waiting_run hw hpost with ⟨hrun, hcount⟩ | ⟨p, hp, hready, hbefore⟩
    · left
      refine ⟨fun q hq => holds_of_waiting (hrun q hq), ?_⟩
      have hle := phase_le (hrun post (List.prefix_refl post))
      have hsum : (Step.event env rt :: post).countP completes =
          post.countP completes + if rt.cycleComplete = true then 1 else 0 := List.countP_cons ..
      rw [hsum, Nat.add_comm, ← hphase, ← hcount]
      exact hle
    · right
      exact ⟨p, hp, hready, fun q hq hne => holds_of_waiting (hbefore q hq hne)⟩
  · right
    refine ⟨[], List.nil_prefix, hready, ?_⟩
    rintro q hq hne
    exact absurd (List.prefix_nil.mp hq) hne

/-- The cycle is running. -/
def runningState : State ℕ :=
  plainState.exec plainSettings (.event (plainEnv false) { cycleStart := true })

theorem door_entry_cycle :
    ∃ p, p <+: ([.event (plainEnv true) { cycleComplete := true }] : List (Step ℕ)) ∧
      Ready plainSettings ((.event (plainEnv true) { safetyDoor := true } :: p).foldl
        (exec plainSettings) runningState) ∧
      ∀ q, q <+: p → q ≠ p → Holds plainSettings
        ((.event (plainEnv true) { safetyDoor := true } :: q).foldl
          (exec plainSettings) runningState) := by
  have hentry := door_entry plainSettings (fun h => Bool.noConfusion h) runningState
    (.inl (by decide)) (plainEnv true) { safetyDoor := true } rfl
    [.event (plainEnv true) { cycleComplete := true }]
    ⟨⟨fun _ => by decide, fun _ _ => by rintro f ⟨⟩, fun h => Bool.noConfusion h⟩,
      ⟨fun h => Bool.noConfusion h, fun h => Bool.noConfusion h, fun _ _ => by decide⟩, trivial⟩
  exact hentry.resolve_left fun h => absurd h.2 (by decide)

/-- A jog whose motion ends after the door has been opened. -/
def openDoorJog : List (Step ℕ) :=
  [.set (plainEnv false) .jog,
    .event (plainEnv true) { safetyDoor := true },
    .event (plainEnv true) { cycleComplete := true }]

/-- Once the door has been opened during a jog and the motion has ended, the machine still jogs with
its spindle on, and a cycle start starts the cycle. -/
theorem not_door_entry_jog :
    let s := openDoorJog.foldl (exec plainSettings) plainState
    let s' := s.exec plainSettings (.event (plainEnv true) { cycleStart := true })
    (plainState.exec plainSettings (.set (plainEnv false) .jog)).sysState = .jog ∧
      s.sysState = .jog ∧ s.spindle 0 = some ⟨true, false, 1000⟩ ∧ s'.sysState = .cycle := by
  intro s s'
  exact ⟨by decide, by decide, by decide, by decide⟩

end State

end Machine

end Inspector
