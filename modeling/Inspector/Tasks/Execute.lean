import Inspector.Tasks.Valid

/-! # Running tasks

Every loop that runs tasks goes on from a valid state to one that is valid again, where the next
task has been started or the call has returned.
-/

namespace Inspector

namespace Tasks

variable {n : ℕ} {φ δ : Type*} {s s' : State n φ δ} {L L' : Layout n} {q : Queue} {i : Fin n}
  {now : ℕ} {f : Frame n}

/-- All systick tasks have been run by the last tick. -/
def AllTicked (s : State n φ δ) (L : Layout n) : Prop :=
  ∀ i ∈ L.lists .systick, s.task i ∈ s.history.ticked

/-- A loop over systick tasks is running. -/
def Ticking (s : State n φ δ) : Prop := ∃ i now, .systick i now ∈ s.frames

theorem beginRun_pool {j : Fin n} (hj : j ≠ i) : (s.beginRun q i).pool j = s.pool j := by
  simp [State.beginRun, State.free, State.setHistory, State.setNode, hj]

theorem not_ticking (h : s.frames.filterMap Frame.now? = []) : ¬ Ticking s := by
  rintro ⟨i, now, hi⟩
  have hmem : now ∈ s.frames.filterMap Frame.now? := List.mem_filterMap.mpr ⟨_, hi, rfl⟩
  rw [h] at hmem
  cases hmem

theorem walk_of_not_ticking (h : ¬ Ticking s) : Walk s L := fun i now hi => absurd ⟨i, now, hi⟩ h

theorem countP_startup_zero (h : s.frames.countP Frame.isStartup = 0) (q : Queue) :
    ¬ Suspended s.frames q := by
  rintro ⟨v, hv⟩
  exact List.countP_eq_zero.mp h _ hv rfl

namespace Kept

theorem setLock (h : Kept s L now) (lock : Bool) : Kept (s.setLock lock) L now :=
  ⟨⟨h.laid.chain, h.laid.stale, h.laid.locals, h.laid.nodup, h.laid.allocated, h.laid.lastFreed⟩,
    h.conserved, h.serials, h.due, h.ran, h.clock, h.nodup_ticked, h.ticked⟩

/-- What is in hand is left to a loop. -/
theorem push (h : Kept s L now) (hf : FrameChain s.next f L.hand)
    (hq : ∀ q v, f = .startup q v → L.lists q = []) :
    Kept (s.pushFrame f) { L with hand := [], locals := L.hand :: L.locals } now := by
  have hall : ({ L with hand := [], locals := L.hand :: L.locals } : Layout n).all.Perm L.all :=
    (Laid.pop_perm (L := { L with hand := [], locals := L.hand :: L.locals }) rfl rfl).symm
  refine ⟨h.laid.push hf hq, ?_, h.serials, h.due, h.ran, h.clock, h.nodup_ticked, h.ticked⟩
  exact h.conserved.trans ((hall.map s.task).symm.append_left _)

/-- The first task in hand is run, and what is left is left to the loop. -/
theorem run (h : Kept s L now) {m : List (Fin n)} (hm : L.hand = i :: m)
    (hdue : q = .delayed → (s.task i).due ≤ s.system.clock) (hf : FrameChain s.next f m)
    (hq : ∀ q v, f = .startup q v → L.lists q = []) :
    Kept ((s.beginRun q i).pushFrame f) { L with hand := [], locals := m :: L.locals } now := by
  have hn := (List.nodup_append.mp h.laid.nodup).1
  rw [hm] at hn
  apply (h.beginRun hm hdue).push _ hq
  apply frameChain_congr hf
  rintro j hj
  have hne : j ≠ i := fun he => (List.nodup_cons.mp hn).1 (he ▸ hj)
  exact congrArg CoreTask.next (beginRun_pool hne)

/-- The head of a list that is taken out of its queue does not matter. -/
theorem of_setHead {v : Option (Fin n)} (h : Kept (s.setHead q v) L now)
    (hq : Suspended s.frames q) : Kept s L now := by
  refine ⟨⟨?_, h.laid.stale, h.laid.locals, h.laid.nodup, h.laid.allocated, h.laid.lastFreed⟩,
    h.conserved, h.serials, h.due, h.ran, h.clock, h.nodup_ticked, h.ticked⟩
  rintro r hr
  have hne : r ≠ q := by
    rintro rfl
    exact hr hq
  have hchain := h.laid.chain r hr
  rwa [head_setHead_ne hne] at hchain

end Kept

/-- The first task in hand is run, and the state is valid again. -/
theorem Valid.of_run (hk : Kept s L now) (hwalk : Walk s L) {m : List (Fin n)}
    (hm : L.hand = i :: m) (hdue : q = .delayed → (s.task i).due ≤ s.system.clock)
    (hf : FrameChain s.next f m) (hq : ∀ q v, f = .startup q v → L.lists q = [])
    (hsystick : ∀ j now, f ≠ .systick j now)
    (hcontrol : Control ((s.beginRun q i).pushFrame f))
    (hnow : ((s.beginRun q i).pushFrame f).horizon = now) :
    Valid ((s.beginRun q i).pushFrame f) { L with hand := [], locals := m :: L.locals } := by
  refine ⟨rfl, ?_, ?_, hcontrol⟩
  · rw [hnow]
    exact hk.run hm hdue hf hq
  · refine hwalk.grow ?_ rfl ?_ (m := []) (List.append_nil _).symm (fun j => nofun)
    · rintro j now' hj
      exact (List.mem_cons.mp hj).resolve_left fun he => hsystick j now' he.symm
    · rintro j hj
      have hne : j ≠ i := by
        rintro rfl
        exact hk.laid.not_mem_of_hand (by rw [hm]; exact List.mem_cons_self) .systick hj
      change ((s.beginRun q i).task j) = _
      simp only [State.task, beginRun_pool hne]

/-- The loop over delayed tasks. -/
theorem executeDelayed (hhand : L.hand = []) (hk : Kept s L now)
    (hidle : s.frames.filterMap Frame.now? = []) (hlock : s.lock = true)
    (hstartup : s.frames.countP Frame.isStartup ≤ 1)
    (hqueues : ∀ q, Suspended s.frames q → q = .onBooted ∨ q = .onReset) :
    ∃ s' L', s.executeDelayed now = some s' ∧ Valid s' L' ∧ s.frames ⊆ s'.frames ∧
      (AllTicked s L → AllTicked s' L') := by
  have hq : ¬ Suspended s.frames .delayed := fun hs =>
    (hqueues _ hs).elim Queue.noConfusion Queue.noConfusion
  have hwalk : Walk s L := walk_of_not_ticking (not_ticking hidle)
  have hdone : Valid (s.setLock false) L := by
    refine ⟨hhand, ?_, hwalk, ⟨?_, hstartup, hqueues⟩⟩
    · have hhorizon : (s.setLock false).horizon = s.system.clock := by
        change (s.frames.filterMap Frame.now?).head?.getD s.system.clock = _
        rw [hidle]
        rfl
      rw [hhorizon]
      exact (hk.setLock false).mono hk.clock (Nat.le_refl _)
    · change (s.frames.filterMap Frame.now?).length = 0
      rw [hidle]
      rfl
  have hchain := hk.laid.chain _ hq
  cases hl : L.lists .delayed with
  | nil =>
    rw [hl] at hchain
    refine ⟨s.setLock false, L, ?_, hdone, List.Subset.refl _, id⟩
    rw [State.executeDelayed, Linked.chain_nil_iff.mp hchain]
  | cons i l =>
    rw [hl] at hchain
    obtain ⟨hhead, -⟩ := Linked.chain_cons_iff.mp hchain
    by_cases hdue : State.diff (s.pool i).time (State.ticks now) ≤ 0
    · obtain ⟨htime, hwindow⟩ := hk.due i (by rw [hl]; exact List.mem_cons_self)
      have hle : (s.pool i).due ≤ now := le_of_diff hwindow (htime ▸ hdue)
      let s₁ := s.setHead .delayed (s.next i)
      let L₁ := (L.setList .delayed l).setHand [i]
      have hr : Relinked s s₁ := relinked_setHead _ _ s
      have hlaid : Laid s₁ L₁ := (hk.laid.unlink hhand hq (k := []) hl).2
      have hk₁ : Kept s₁ L₁ now := by
        apply hk.relocate hr hlaid
        · apply (L.all_setList_perm .delayed [i] l).trans
          apply List.Perm.trans _ (L.all_hand_perm .delayed).symm
          rw [hhand, hl]
          exact List.Perm.refl _
        · rintro j hj
          left
          change j ∈ (L.setList .delayed l).lists .delayed at hj
          rw [Layout.setList_self] at hj
          rw [hl]
          exact List.mem_cons_of_mem i hj
      have hvalid : Valid ((s₁.beginRun .delayed i).pushFrame (.delayed now))
          { L₁ with hand := [], locals := [] :: L₁.locals } := by
        have hticks : (Frame.delayed now :: s.frames).filterMap Frame.now? = [now] := by
          simp [Frame.now?, hidle]
        refine Valid.of_run hk₁ hwalk (m := []) (f := .delayed now) rfl (fun _ => ?_) rfl
          (fun _ _ => nofun) (fun _ _ => nofun) ?_ ?_
        · exact hle.trans hk.clock
        · refine ⟨?_, ?_, ?_⟩
          · change ((Frame.delayed now :: s.frames).filterMap Frame.now?).length =
              if s.lock = true then 1 else 0
            rw [hticks, hlock]
            rfl
          · change (Frame.delayed now :: s.frames).countP _ ≤ 1
            rw [List.countP_cons_of_neg Bool.false_ne_true]
            exact hstartup
          · rintro r ⟨v, hv⟩
            exact hqueues r ⟨v, (List.mem_cons.mp hv).resolve_left nofun⟩
        · change ((Frame.delayed now :: s.frames).filterMap Frame.now?).head?.getD _ = now
          rw [hticks]
          rfl
      refine ⟨_, _, ?_, hvalid, ?_, ?_⟩
      · have hunlink : s.unlinkDelayed i = some s₁ := by
          rw [State.unlinkDelayed, hhead]
          exact if_pos rfl
        rw [State.executeDelayed, hhead]
        simp only [if_pos hdue, hunlink, Option.bind_eq_bind, Option.bind_some,
          hk₁.taskRun (q := .delayed) (m := []) rfl]
        rfl
      · exact List.subset_cons_self _ s.frames
      · rintro hall j hj
        change j ∈ (L.setList .delayed l).lists .systick at hj
        rw [Layout.setList_ne L Queue.noConfusion] at hj
        have hne : j ≠ i := by
          rintro rfl
          exact hk₁.laid.not_mem_of_hand (List.mem_singleton_self j) .systick
            (by change j ∈ (L.setList .delayed l).lists .systick
                rwa [Layout.setList_ne L Queue.noConfusion])
        have htask : (s₁.beginRun .delayed i).task j = s.task j := by
          simp only [State.task, beginRun_pool hne]
          rfl
        change (s₁.beginRun .delayed i).task j ∈ s.history.ticked
        rw [htask]
        exact hall j hj
    · refine ⟨s.setLock false, L, ?_, hdone, List.Subset.refl _, id⟩
      rw [State.executeDelayed, hhead]
      exact if_neg hdue

/-- A systick task is run. -/
theorem Kept.tick (h : Kept s L now) (hi : i ∈ L.all) (hnew : s.task i ∉ s.history.ticked) :
    Kept (s.setHistory fun h => { h with ticked := s.task i :: h.ticked }) L now := by
  refine ⟨⟨h.laid.chain, h.laid.stale, h.laid.locals, h.laid.nodup, h.laid.allocated,
    h.laid.lastFreed⟩, h.conserved, h.serials, h.due, h.ran, h.clock,
    List.nodup_cons.mpr ⟨hnew, h.nodup_ticked⟩, ?_⟩
  rintro t ht
  rcases List.mem_cons.mp ht with rfl | ht
  · exact h.task_accepted hi
  · exact h.ticked t ht

/-- The loop over systick tasks. -/
theorem executeSystick (hhand : L.hand = []) (hk : Kept s L now)
    (hidle : s.frames.filterMap Frame.now? = []) (hlock : s.lock = true)
    (hstartup : s.frames.countP Frame.isStartup ≤ 1)
    (hqueues : ∀ q, Suspended s.frames q → q = .onBooted ∨ q = .onReset)
    {task : Option (Fin n)} {k m : List (Fin n)} (hl : L.lists .systick = k ++ m)
    (hc : Linked.Chain s.next task m) (hdone : ∀ j ∈ k, s.task j ∈ s.history.ticked)
    (hleft : ∀ j ∈ m, s.task j ∉ s.history.ticked) :
    ∃ s' L', s.executeSystick now task = some s' ∧ Valid s' L' ∧ s.frames ⊆ s'.frames ∧
      (¬ Ticking s' → AllTicked s' L') := by
  cases task with
  | none =>
    rw [Linked.chain_none_iff.mp hc, List.append_nil] at hl
    obtain ⟨s', L', he, hv, hsub, hall⟩ := executeDelayed hhand hk hidle hlock hstartup hqueues
    exact ⟨s', L', he, hv, hsub, fun _ => hall fun j hj => hdone j (hl ▸ hj)⟩
  | some i =>
    obtain ⟨m', rfl, -⟩ := Linked.chain_some_iff.mp hc
    have hmem : i ∈ L.lists .systick := by
      rw [hl]
      exact List.mem_append_right _ List.mem_cons_self
    have hfn : (s.pool i).fn.isSome = true := (hk.laid.allocated i).mpr (L.mem_all_of_list hmem)
    let s₁ := s.setHistory fun h => { h with ticked := s.task i :: h.ticked }
    have hk₁ : Kept s₁ L now := hk.tick (L.mem_all_of_list hmem) (hleft i List.mem_cons_self)
    have hticks : (Frame.systick i now :: s.frames).filterMap Frame.now? = [now] := by
      simp [Frame.now?, hidle]
    have hpush : Kept (s₁.pushFrame (.systick i now)) { L with hand := [], locals := [] :: L.locals }
        now := by
      have hpushed := hk₁.push (f := .systick i now) hhand (fun _ _ => nofun)
      rwa [hhand] at hpushed
    have hhorizon : (s₁.pushFrame (.systick i now)).horizon = now := by
      change ((Frame.systick i now :: s.frames).filterMap Frame.now?).head?.getD _ = now
      rw [hticks]
      rfl
    refine ⟨_, _, if_pos hfn, ⟨rfl, by rw [hhorizon]; exact hpush, ?_, ?_, ?_, ?_⟩,
      List.subset_cons_self _ s.frames, ?_⟩
    · rintro j now' hj
      rcases List.mem_cons.mp hj with he | hj
      · obtain ⟨rfl, rfl⟩ := Frame.systick.inj he
        refine ⟨k, m', hl, ?_, ?_⟩
        · rintro a hm
          rcases List.mem_append.mp hm with hm | hm
          · exact List.mem_cons_of_mem _ (hdone a hm)
          · rw [List.mem_singleton.mp hm]
            exact List.mem_cons_self
        · rintro a hm hmem'
          rcases List.mem_cons.mp hmem' with he | hmem'
          · have hn := L.nodup_list hk.laid.nodup .systick
            rw [hl] at hn
            have hall : a ∈ L.all := L.mem_all_of_list (q := .systick) (by
              rw [hl]
              exact List.mem_append_right _ (List.mem_cons_of_mem j hm))
            rw [hk.task_injective hall (L.mem_all_of_list hmem) he] at hm
            exact (List.nodup_cons.mp (List.nodup_append.mp hn).2.1).1 hm
          · exact hleft a (List.mem_cons_of_mem _ hm) hmem'
      · exact absurd ⟨j, now', hj⟩ (not_ticking hidle)
    · change ((Frame.systick i now :: s.frames).filterMap Frame.now?).length =
        if s.lock = true then 1 else 0
      rw [hticks, hlock]
      rfl
    · change (Frame.systick i now :: s.frames).countP _ ≤ 1
      rw [List.countP_cons_of_neg Bool.false_ne_true]
      exact hstartup
    · rintro r ⟨v, hv⟩
      exact hqueues r ⟨v, (List.mem_cons.mp hv).resolve_left nofun⟩
    · exact fun hnot => absurd ⟨i, now, List.mem_cons_self⟩ hnot

namespace Valid

/-- The part of `task_execute` that is not entered twice. -/
theorem executeTick (h : Valid s L) :
    ∃ s' L', s.executeTick = some s' ∧ Valid s' L' ∧ s.frames ⊆ s'.frames := by
  by_cases hlock : s.lock = true
  · exact ⟨s, L, if_pos hlock, h, List.Subset.refl _⟩
  have hunlocked : s.executeTick = _ := if_neg hlock
  by_cases hskip : State.ticks s.system.clock = s.lastMs ∨ s.head .delayed = s.head .systick
  · exact ⟨s, L, hunlocked.trans (if_pos hskip), h, List.Subset.refl _⟩
  have hidle : s.frames.filterMap Frame.now? = [] := by
    have hticks := h.control.ticks
    rw [if_neg hlock] at hticks
    exact List.length_eq_zero_iff.mp hticks
  have hhorizon : s.horizon = s.system.clock := by
    rw [State.horizon, hidle]
    rfl
  have hk := h.kept
  rw [hhorizon] at hk
  let s₁ : State n φ δ :=
    { s with lock := true, lastMs := State.ticks s.system.clock, history.ticked := [] }
  have hk₁ : Kept s₁ L s.system.clock :=
    ⟨⟨hk.laid.chain, hk.laid.stale, hk.laid.locals, hk.laid.nodup, hk.laid.allocated,
      hk.laid.lastFreed⟩, hk.conserved, hk.serials, hk.due, hk.ran, hk.clock, List.nodup_nil,
      List.forall_mem_nil _⟩
  have hchain := hk.laid.chain .systick (h.control.not_suspended (by decide) (by decide))
  obtain ⟨s', L', he, hv, hsub, -⟩ := executeSystick h.hand hk₁ hidle rfl h.control.startup
    h.control.queues (k := []) rfl hchain (List.forall_mem_nil _) fun _ _ => List.not_mem_nil
  exact ⟨s', L', (hunlocked.trans (if_neg hskip)).trans he, hv, hsub⟩

end Valid

/-- The loop over immediate tasks. -/
theorem executeImmediate {now : ℕ} (hk : Kept s L now) (hnow : s.horizon = now) (hwalk : Walk s L)
    (hcontrol : Control s) {task : Option (Fin n)} (hc : Linked.Chain s.next task L.hand) :
    ∃ s' L', s.executeImmediate task = some s' ∧ Valid s' L' ∧ s.frames ⊆ s'.frames := by
  cases task with
  | none =>
    apply Valid.executeTick (L := L)
    exact ⟨Linked.chain_none_iff.mp hc, hnow ▸ hk, hwalk, hcontrol⟩
  | some i =>
    obtain ⟨m, hm, hc⟩ := Linked.chain_some_iff.mp hc
    refine ⟨(s.beginRun .immediate i).pushFrame (.immediate (s.next i)), _, ?_,
      Valid.of_run hk hwalk hm (fun h => Queue.noConfusion h) hc (fun _ _ => nofun)
        (fun _ _ => nofun) ⟨?_, ?_, ?_⟩ hnow, List.subset_cons_self _ s.frames⟩
    · simp only [State.executeImmediate, hk.taskRun hm, Option.bind_eq_bind, Option.bind_some]
      rfl
    · exact hcontrol.ticks
    · change (Frame.immediate (s.next i) :: s.frames).countP _ ≤ 1
      rw [List.countP_cons_of_neg Bool.false_ne_true]
      exact hcontrol.startup
    · rintro r ⟨v, hv⟩
      exact hcontrol.queues r ⟨v, (List.mem_cons.mp hv).resolve_left nofun⟩

namespace Valid

/-- A whole queue is taken in hand. -/
theorem detach (h : Valid s L) (hq : ¬ Suspended s.frames q) (hdelayed : q ≠ .delayed)
    (hsystick : q ≠ .systick) :
    Kept (s.setHead q none) ((L.setList q []).setHand (L.lists q)) s.horizon ∧
      Walk (s.setHead q none) ((L.setList q []).setHand (L.lists q)) := by
  have hr : Relinked s (s.setHead q none) := relinked_setHead _ _ s
  have hperm : (L.lists q ++ []).Perm (L.hand ++ L.lists q) := by
    rw [h.hand, List.append_nil]
    exact List.Perm.refl _
  have hlaid : Laid (s.setHead q none) ((L.setList q []).setHand (L.lists q)) :=
    h.kept.laid.relink hr hq (fun j _ => rfl) (fun r hr' => head_setHead_ne hr' _ s)
      (by rw [head_setHead]; exact .nil) hperm
  constructor
  · apply h.kept.relocate hr hlaid
    · exact (L.all_setList_perm q _ []).trans
        ((hperm.append_right _).trans (L.all_hand_perm q).symm)
    · rintro j hj
      left
      change j ∈ (L.setList q []).lists .delayed at hj
      rwa [Layout.setList_ne L (Ne.symm hdelayed)] at hj
  · refine h.walk.grow (fun _ _ hj => hj) rfl (fun j _ => rfl) (m := []) ?_ (fun j => nofun)
    rw [List.append_nil]
    exact Layout.setList_ne L (Ne.symm hsystick) []

/-- `task_execute`. -/
theorem execute (h : Valid s L) :
    ∃ s' L', s.execute = some s' ∧ Valid s' L' ∧ s.frames ⊆ s'.frames := by
  by_cases himmediate : (s.head .immediate).isSome = true ∧ s.system.driverStarted = true
  · have hq : ¬ Suspended s.frames .immediate := h.control.not_suspended nofun nofun
    obtain ⟨hk, hwalk⟩ := h.detach hq nofun nofun
    obtain ⟨s', L', he, hv, hsub⟩ := executeImmediate hk rfl hwalk
      ⟨h.control.ticks, h.control.startup, h.control.queues⟩ (h.kept.laid.chain .immediate hq)
    exact ⟨s', L', (if_pos himmediate).trans he, hv, hsub⟩
  · obtain ⟨s', L', he, hv, hsub⟩ := h.executeTick
    exact ⟨s', L', (if_neg himmediate).trans he, hv, hsub⟩

end Valid

end Tasks

end Inspector
