import Inspector.Tasks.Execute

/-! # Running tasks after booting and after a reset

The loops of `task_execute_on_startup`, the return of a task to the loop that has called it, and the
clearing of queues when the driver has not been started.
-/

namespace Inspector

namespace Tasks

variable {n : ℕ} {φ δ : Type*} {s s' : State n φ δ} {L L' : Layout n} {q : Queue} {i : Fin n}
  {now : ℕ} {f : Frame n}

/-- The queues whose loops keep the rest of the list. -/
def Queue.once (q : Queue) : Prop := q = .onBooted ∨ q = .onReset

theorem filterMap_now_of_none (hf : f.now? = none) (frames : List (Frame n)) :
    (f :: frames).filterMap Frame.now? = frames.filterMap Frame.now? :=
  List.filterMap_cons_none hf

namespace Valid

/-- A loop has been left that keeps nothing, or that does not end. -/
theorem pushForever (h : Valid s L) :
    Valid (s.pushFrame .forever) { L with hand := [], locals := [] :: L.locals } := by
  have hk := h.kept.push (f := .forever) h.hand (fun _ _ => nofun)
  rw [h.hand] at hk
  refine ⟨rfl, hk, ?_, ⟨h.control.ticks, h.control.startup, ?_⟩⟩
  · refine h.walk.grow ?_ rfl (fun _ _ => rfl) (m := []) (List.append_nil _).symm (fun j => nofun)
    rintro j k hj
    exact (List.mem_cons.mp hj).resolve_left nofun
  · rintro r ⟨v, hv⟩
    exact h.control.queues r ⟨v, (List.mem_cons.mp hv).resolve_left nofun⟩

theorem startupEnd (h : Valid s L) : ∃ L', Valid s.startupEnd L' ∧ s.frames ⊆ s.startupEnd.frames := by
  unfold State.startupEnd
  split_ifs
  · exact ⟨L, h, List.Subset.refl _⟩
  · exact ⟨_, h.pushForever, List.subset_cons_self _ s.frames⟩

/-- The first task of a queue is run; its loop keeps the rest of the queue. -/
theorem startup (h : Valid s L) (hq : q.once) (hnone : s.frames.countP Frame.isStartup = 0)
    (hhead : s.head q = some i) :
    ∃ L', s.taskRun q i = some (s.next i, s.beginRun q i) ∧
      Valid ((s.beginRun q i).pushFrame (.startup q (s.next i))) L' := by
  have hdelayed : q ≠ .delayed := by rcases hq with rfl | rfl <;> exact nofun
  have hsystick : q ≠ .systick := by rcases hq with rfl | rfl <;> exact nofun
  have hfree := countP_startup_zero hnone
  obtain ⟨hk, hwalk⟩ := h.detach (hfree q) hdelayed hsystick
  have hchain := h.kept.laid.chain q (hfree q)
  rw [hhead] at hchain
  obtain ⟨m, hm, hc⟩ := Linked.chain_some_iff.mp hchain
  have hcontrol : Control (((s.setHead q none).beginRun q i).pushFrame (.startup q (s.next i))) := by
    refine ⟨h.control.ticks, ?_, ?_⟩
    · change (Frame.startup q (s.next i) :: s.frames).countP _ ≤ 1
      rw [List.countP_cons_of_pos rfl, hnone]
    · rintro r ⟨v, hv⟩
      rcases List.mem_cons.mp hv with he | hv
      · obtain ⟨rfl, -⟩ := Frame.startup.inj he
        exact hq
      · exact h.control.queues r ⟨v, hv⟩
  have hlists : ∀ r v, Frame.startup q (s.next i) = .startup r v →
      ((L.setList q []).setHand (L.lists q)).lists r = [] := by
    rintro r v he
    obtain ⟨rfl, -⟩ := Frame.startup.inj he
    exact L.setList_self q []
  have hrun := Valid.of_run (q := q) (f := .startup q (s.next i)) hk hwalk hm
    (fun he => absurd he hdelayed) hc hlists (fun _ _ => nofun) hcontrol rfl
  have hmem : i ∈ L.lists q := by
    rw [hm]
    exact List.mem_cons_self
  refine ⟨_, if_pos ((h.kept.laid.allocated i).mpr (L.mem_all_of_list hmem)), rfl, ?_, hrun.walk,
    ⟨hcontrol.ticks, hcontrol.startup, hcontrol.queues⟩⟩
  exact Kept.of_setHead (v := none) hrun.kept ⟨s.next i, List.mem_cons_self⟩

/-- The loop over the tasks to run after a reset. -/
theorem executeOnReset (h : Valid s L) (hnone : s.frames.countP Frame.isStartup = 0) :
    ∃ s' L', s.executeOnReset = some s' ∧ Valid s' L' ∧ s.frames ⊆ s'.frames := by
  cases hhead : s.head .onReset with
  | none =>
    obtain ⟨L', hv, hsub⟩ := h.startupEnd
    exact ⟨_, L', by rw [State.executeOnReset, hhead], hv, hsub⟩
  | some i =>
    obtain ⟨L', hrun, hv⟩ := h.startup (.inr rfl) hnone hhead
    refine ⟨_, L', ?_, hv, List.subset_cons_self _ s.frames⟩
    simp only [State.executeOnReset, hhead, hrun, Option.bind_eq_bind, Option.bind_some]
    rfl

/-- The loop over the tasks to run after booting. -/
theorem executeOnBooted (h : Valid s L) (hnone : s.frames.countP Frame.isStartup = 0) :
    ∃ s' L', s.executeOnBooted = some s' ∧ Valid s' L' ∧ s.frames ⊆ s'.frames := by
  cases hhead : s.head .onBooted with
  | none =>
    obtain ⟨s', L', he, hv⟩ := h.executeOnReset hnone
    exact ⟨s', L', by rw [State.executeOnBooted, hhead]; exact he, hv⟩
  | some i =>
    obtain ⟨L', hrun, hv⟩ := h.startup (.inl rfl) hnone hhead
    refine ⟨_, L', ?_, hv, List.subset_cons_self _ s.frames⟩
    simp only [State.executeOnBooted, hhead, hrun, Option.bind_eq_bind, Option.bind_some]
    rfl

end Valid

section Return

variable {fs : List (Frame n)}

/-- A loop goes on with what it has kept. -/
theorem Kept.pop (h : Kept s L now) (hhand : L.hand = []) (hs : s.frames = f :: fs)
    (hf : ∀ q v, f ≠ .startup q v) :
    ∃ l ls, FrameChain s.next f l ∧
      Kept { s with frames := fs } { L with hand := l, locals := ls } now := by
  obtain ⟨l, ls, hl, hlaid, hall⟩ := h.laid.pop hhand hs hf
  refine ⟨l, ls, hl, hlaid, ?_, h.serials, h.due, h.ran, h.clock, h.nodup_ticked, h.ticked⟩
  exact h.conserved.trans ((hall.map s.task).symm.append_left _)

theorem Walk.pop (h : Walk s L) (hs : s.frames = f :: fs) (l : List (Fin n))
    (ls : List (List (Fin n))) :
    Walk { s with frames := fs } { L with hand := l, locals := ls } := by
  refine h.grow ?_ rfl (fun _ _ => rfl) (m := []) (List.append_nil _).symm (fun j => nofun)
  rintro j k hj
  rw [hs]
  exact List.mem_cons_of_mem f hj

theorem Control.pop (h : Control s) (hs : s.frames = f :: fs) (hf : f.now? = none) :
    Control ({ s with frames := fs } : State n φ δ) := by
  refine ⟨?_, ?_, ?_⟩
  · have hticks := h.ticks
    rwa [hs, filterMap_now_of_none hf] at hticks
  · have hstartup := h.startup
    rw [hs, List.countP_cons] at hstartup
    exact (Nat.le_add_right _ _).trans hstartup
  · rintro r ⟨v, hv⟩
    exact h.queues r ⟨v, by rw [hs]; exact List.mem_cons_of_mem f hv⟩

/-- Beneath a loop of `task_execute` there is no other one. -/
theorem Control.idle (h : Control s) (hs : s.frames = f :: fs) (hf : f.now? = some now) :
    fs.filterMap Frame.now? = [] ∧ s.lock = true ∧ s.horizon = now := by
  have hticks := h.ticks
  rw [hs, List.filterMap_cons_some hf, List.length_cons] at hticks
  have hlock : s.lock = true := by
    by_contra hne
    rw [if_neg hne] at hticks
    omega
  rw [hlock, if_pos rfl] at hticks
  refine ⟨List.length_eq_zero_iff.mp (by omega), hlock, ?_⟩
  rw [State.horizon, hs, List.filterMap_cons_some hf]
  rfl

/-- A start-up loop goes on with the rest of its queue. -/
theorem Valid.resume (h : Valid s L) {v : Option (Fin n)} (hs : s.frames = .startup q v :: fs) :
    (∃ L', Valid (({ s with frames := fs } : State n φ δ).setHead q v) L') ∧
      fs.countP Frame.isStartup = 0 := by
  have hstartup := h.control.startup
  rw [hs, List.countP_cons_of_pos rfl] at hstartup
  have hnone : fs.countP Frame.isStartup = 0 := by omega
  have hfree := fun r => countP_startup_zero (s := { s with frames := fs }) hnone r
  have hq := h.control.queues q ⟨v, by rw [hs]; exact List.mem_cons_self⟩
  have hdelayed : q ≠ .delayed := by rcases hq with rfl | rfl <;> decide
  have hsystick : q ≠ .systick := by rcases hq with rfl | rfl <;> decide
  have hk := h.kept
  obtain ⟨l, ls, hl, hls, hL⟩ := List.forall₂_cons_left_iff.mp (hs ▸ hk.laid.locals)
  let s₁ : State n φ δ := ({ s with frames := fs } : State n φ δ).setHead q v
  let L₁ : Layout n := ({ L with locals := ls }.setList q l).setHand []
  have hstale : L.lists q = [] := hk.laid.stale q ⟨v, by rw [hs]; exact List.mem_cons_self⟩
  have hall : L₁.all.Perm L.all := by
    apply (Layout.all_setList_perm { L with locals := ls } q [] l).trans
    apply List.Perm.trans _ (L.all_hand_perm q).symm
    rw [h.hand, hstale]
    change (l ++ (_ ++ ls.flatten)).Perm (_ ++ L.locals.flatten)
    rw [hL, List.flatten_cons]
    exact (List.perm_append_comm_assoc l _ _)
  have hother : ∀ r, r ≠ q → L₁.lists r = L.lists r := fun r hr =>
    Layout.setList_ne { L with locals := ls } hr l
  have hlaid : Laid s₁ L₁ := by
    refine ⟨?_, fun r hr => absurd hr (hfree r), hls, hall.nodup_iff.mpr hk.laid.nodup, ?_,
      hk.laid.lastFreed⟩
    · rintro r -
      by_cases hr : r = q
      · subst hr
        rw [head_setHead]
        change Linked.Chain _ v (({ L with locals := ls }.setList r l).lists r)
        rw [Layout.setList_self]
        exact hl
      · rw [hother r hr, head_setHead_ne hr]
        apply hk.laid.chain r
        rw [hs]
        rintro ⟨w, hw⟩
        rcases List.mem_cons.mp hw with he | hw
        · exact hr (Frame.startup.inj he).1
        · exact hfree r ⟨w, hw⟩
    · intro i
      rw [hall.mem_iff]
      exact hk.laid.allocated i
  have hhorizon : s₁.horizon = s.horizon := by
    change (fs.filterMap Frame.now?).head?.getD s.system.clock = _
    rw [State.horizon, hs, filterMap_now_of_none rfl]
  have hpop := h.control.pop hs rfl
  refine ⟨⟨L₁, rfl, ?_, ?_, ⟨hpop.ticks, hpop.startup, hpop.queues⟩⟩, hnone⟩
  · rw [hhorizon]
    refine ⟨hlaid, ?_, hk.serials, ?_, hk.ran, hk.clock, hk.nodup_ticked, hk.ticked⟩
    · exact hk.conserved.trans ((hall.map s.task).symm.append_left _)
    · rw [hother _ (Ne.symm hdelayed)]
      exact hk.due
  · refine h.walk.grow ?_ rfl (fun _ _ => rfl) (m := []) ?_ (List.forall_mem_nil _)
    · rintro j k hj
      rw [hs]
      exact List.mem_cons_of_mem _ hj
    · rw [List.append_nil]
      exact hother _ (Ne.symm hsystick)

/-- A task returns. When this ends a tick, all systick tasks have been run. -/
theorem Valid.ret (h : Valid s L) :
    ∃ s' L', s.ret = some s' ∧ Valid s' L' ∧ (Ticking s → ¬ Ticking s' → AllTicked s' L') := by
  cases hs : s.frames with
  | nil =>
    refine ⟨s, L, by rw [State.ret, hs], h, fun ht hnt => absurd ht hnt⟩
  | cons f fs =>
    have hkeep : ∀ s' : State n φ δ, fs ⊆ s'.frames → (∀ j k, f ≠ .systick j k) → Ticking s →
        Ticking s' := by
      rintro s' hsub hf ⟨j, k, hj⟩
      rw [hs] at hj
      exact ⟨j, k, hsub ((List.mem_cons.mp hj).resolve_left fun he => hf j k he.symm)⟩
    have hqueues : ∀ r, Suspended fs r → r = .onBooted ∨ r = .onReset := by
      rintro r ⟨v, hv⟩
      exact h.control.queues r ⟨v, by rw [hs]; exact List.mem_cons_of_mem _ hv⟩
    cases f with
    | immediate v =>
      obtain ⟨l, ls, hl, hk⟩ := h.kept.pop h.hand hs (by simp)
      have hhorizon : ({ s with frames := fs } : State n φ δ).horizon = s.horizon := by
        rw [State.horizon, State.horizon, hs, filterMap_now_of_none rfl]
      obtain ⟨s', L', he, hv, hsub⟩ := executeImmediate hk hhorizon (h.walk.pop hs l ls)
        (h.control.pop hs rfl) hl
      exact ⟨s', L', by rw [State.ret, hs]; exact he, hv,
        fun ht hnt => absurd (hkeep s' hsub (by simp) ht) hnt⟩
    | systick i now =>
      obtain ⟨l, ls, hl, hk⟩ := h.kept.pop h.hand hs (by simp)
      obtain rfl : l = [] := hl
      obtain ⟨hidle, hlock, hnow⟩ := h.control.idle hs rfl
      obtain ⟨l₁, l₂, hlist, hdone, hleft⟩ :=
        h.walk i now (by rw [hs]; exact List.mem_cons_self)
      rw [hnow] at hk
      have hchain := h.kept.laid.chain .systick (h.control.not_suspended (by decide) (by decide))
      rw [hlist] at hchain
      have hstartup := (h.control.startup)
      rw [hs, List.countP_cons_of_neg Bool.false_ne_true] at hstartup
      obtain ⟨s', L', he, hv, -, hall⟩ := executeSystick rfl hk hidle hlock hstartup hqueues
        (k := l₁ ++ [i]) (by rw [List.append_assoc]; exact hlist) hchain.suffix hdone hleft
      exact ⟨s', L', by rw [State.ret, hs]; exact he, hv, fun _ => hall⟩
    | delayed now =>
      obtain ⟨l, ls, hl, hk⟩ := h.kept.pop h.hand hs (by simp)
      obtain rfl : l = [] := hl
      obtain ⟨hidle, hlock, hnow⟩ := h.control.idle hs rfl
      rw [hnow] at hk
      have hstartup := (h.control.startup)
      rw [hs, List.countP_cons_of_neg Bool.false_ne_true] at hstartup
      obtain ⟨s', L', he, hv, hsub, -⟩ := executeDelayed rfl hk hidle hlock hstartup hqueues
      exact ⟨s', L', by rw [State.ret, hs]; exact he, hv,
        fun ht hnt => absurd (hkeep s' hsub (by simp) ht) hnt⟩
    | startup q v =>
      obtain ⟨⟨L₁, hv₁⟩, hnone⟩ := h.resume hs
      have hstep : ∃ s' L', s.ret = some s' ∧ Valid s' L' ∧ fs ⊆ s'.frames := by
        rcases h.control.queues q ⟨v, by rw [hs]; exact List.mem_cons_self⟩ with rfl | rfl
        · obtain ⟨s', L', he, hv, hsub⟩ := hv₁.executeOnBooted hnone
          exact ⟨s', L', by rw [State.ret, hs]; exact he, hv, hsub⟩
        · obtain ⟨s', L', he, hv, hsub⟩ := hv₁.executeOnReset hnone
          exact ⟨s', L', by rw [State.ret, hs]; exact he, hv, hsub⟩
      obtain ⟨s', L', he, hv, hsub⟩ := hstep
      exact ⟨s', L', he, hv, fun ht hnt => absurd (hkeep s' hsub (by simp) ht) hnt⟩
    | forever =>
      exact ⟨s, L, by rw [State.ret, hs], h, fun ht hnt => absurd ht hnt⟩

end Return

section Clear

/-- No systick task has data. -/
def NoData (s : State n φ δ) (L : Layout n) : Prop :=
  ∀ i ∈ L.lists .systick, (s.pool i).data = none

theorem task_discard {j : Fin n} (hj : j ≠ i) : (s.discard i).task j = s.task j := by
  simp [State.discard, State.free, State.task, State.setHistory, State.setNode, hj]

theorem NoData.discard (h : NoData s L) {s₁ : State n φ δ} (hr : Relinked s s₁)
    {k m : List (Fin n)} (hl : L.lists q = k ++ i :: m)
    (hv : Valid (s₁.discard i) (L.setList q (k ++ m))) :
    NoData (s₁.discard i) (L.setList q (k ++ m)) := by
  rintro j hj
  have hne : j ≠ i := by
    rintro rfl
    have hfree : ((s₁.discard j).pool j).fn = none := by
      simp [State.discard, State.free, State.setHistory, State.setNode]
    exact hv.kept.laid.not_mem_of_free hfree (Layout.mem_all_of_list _ hj)
  have hdata : ((s₁.discard i).pool j).data = (s.pool j).data :=
    congrArg Task.data ((task_discard hne).trans (hr.task j))
  rw [hdata]
  apply h
  by_cases hq : q = .systick
  · subst hq
    rw [Layout.setList_self] at hj
    rw [hl]
    rcases List.mem_append.mp hj with hj | hj
    · exact List.mem_append_left _ hj
    · exact List.mem_append_right _ (List.mem_cons_of_mem i hj)
  · rwa [Layout.setList_ne L (Ne.symm hq)] at hj

/-- The first task of a queue is the one that is deleted. -/
theorem Valid.remove_head (h : Valid s L) (hq : ¬ Suspended s.frames q) (hs : ¬ Ticking s)
    {l : List (Fin n)} (hl : L.lists q = i :: l) {p : Fin n → Bool} (hp : p i = true) :
    ∃ s₁, Relinked s s₁ ∧ s.remove q p = some (s₁.discard i) ∧
      Valid (s₁.discard i) (L.setList q l) := by
  rcases h.kept.laid.remove h.hand hq p with ⟨hall, -⟩ | ⟨l₁, k, l₂, s₁, hk, -, hbefore, hr, hlaid, he⟩
  · rw [hall i (by rw [hl]; exact List.mem_cons_self)] at hp
    cases hp
  · cases l₁ with
    | nil =>
      obtain ⟨rfl, rfl⟩ := List.cons_eq_cons.mp (hl.symm.trans hk)
      exact ⟨s₁, hr, he, h.discard hq hk (fun _ now hn => hs ⟨_, now, hn⟩) hr hlaid⟩
    | cons a l₁ =>
      obtain ⟨rfl, -⟩ := List.cons_eq_cons.mp (hl.symm.trans hk)
      rw [hbefore i List.mem_cons_self] at hp
      cases hp

variable [DecidableEq φ] [DecidableEq δ]

/-- What clearing a queue leaves as it is. -/
structure Cleared (s s' : State n φ δ) (L' : Layout n) : Prop where
  valid : Valid s' L'
  noData : NoData s' L'
  frames : s'.frames = s.frames
  system : s'.system = s.system

omit [DecidableEq δ] in
theorem clearOnBooted_spec (w : φ) {fuel : ℕ} {k m : List (Fin n)} {task : Option (Fin n)}
    (h : Valid s L) (hdata : NoData s L) (hq : ¬ Suspended s.frames .onBooted)
    (hl : L.lists .onBooted = k ++ m) (hc : Linked.Chain s.next task m)
    (hfuel : m.length ≤ fuel) :
    ∃ s' L', s.clearOnBooted w fuel k.getLast? task = some s' ∧ Cleared s s' L' := by
  induction m generalizing s L k fuel task with
  | nil =>
    refine ⟨s, L, ?_, h, hdata, rfl, rfl⟩
    rw [Linked.chain_nil_iff.mp hc]
    cases fuel <;> rfl
  | cons i m ih =>
    obtain ⟨fuel, rfl⟩ : ∃ c, fuel = c + 1 :=
      ⟨fuel - 1, by rw [List.length_cons] at hfuel; omega⟩
    have hfuel' : m.length ≤ fuel := Nat.le_of_succ_le_succ hfuel
    obtain ⟨rfl, hrest⟩ := Linked.chain_cons_iff.mp hc
    by_cases hw : (s.pool i).fn = some w
    · obtain ⟨s', L', he, hcleared⟩ := ih h hdata hq (k := k ++ [i])
        (by rw [hl, List.append_assoc]; rfl) hrest hfuel'
      rw [List.getLast?_concat] at he
      exact ⟨s', L', (if_pos hw).trans he, hcleared⟩
    · obtain ⟨hr, hlaid⟩ := h.kept.laid.unlink h.hand hq hl
      have hv := h.discard hq hl nofun hr hlaid
      let s₁ := (s.unlink .onBooted k.getLast? i).discard i
      have hframes : s₁.frames = s.frames := hr.frames
      have hq₁ : ¬ Suspended s₁.frames .onBooted := by rwa [hframes]
      have hchain := hv.kept.laid.chain .onBooted hq₁
      rw [Layout.setList_self] at hchain
      obtain ⟨s', L', he, hcleared⟩ := ih hv (hdata.discard hr hl hv) hq₁
        (Layout.setList_self _ _ _) hchain.drop hfuel'
      exact ⟨s', L', (if_neg hw).trans he, hcleared.valid, hcleared.noData,
        hcleared.frames.trans hframes, hcleared.system.trans hr.system⟩

theorem clearDelayed_spec {fuel : ℕ} {l : List (Fin n)} (h : Valid s L) (hdata : NoData s L)
    (hs : ¬ Ticking s) (hl : L.lists .delayed = l) (hfuel : l.length ≤ fuel) :
    ∃ s' L', s.clearDelayed fuel = some s' ∧ Cleared s s' L' := by
  have hq : ¬ Suspended s.frames .delayed := h.control.not_suspended nofun nofun
  induction l generalizing s L fuel with
  | nil =>
    have hchain := h.kept.laid.chain _ hq
    rw [hl] at hchain
    have hhead := Linked.chain_nil_iff.mp hchain
    refine ⟨s, L, ?_, h, hdata, rfl, rfl⟩
    cases fuel with
    | zero => rw [State.clearDelayed, hhead]; rfl
    | succ fuel => rw [State.clearDelayed, hhead]
  | cons i l ih =>
    obtain ⟨fuel, rfl⟩ : ∃ k, fuel = k + 1 :=
      ⟨fuel - 1, by rw [List.length_cons] at hfuel; omega⟩
    have hhead := (h.kept.laid.chain _ hq).head_eq
    rw [hl] at hhead
    obtain ⟨s₁, hr, hremove, hv⟩ := h.remove_head hq hs hl
      (p := fun j => (s.pool i).fn = (s.pool j).fn ∧
        ((none : Option δ) = none ∨ none = (s.pool j).data))
      (decide_eq_true ⟨rfl, .inl rfl⟩)
    have hframes : (s₁.discard i).frames = s.frames := hr.frames
    obtain ⟨s', L', he, hcleared⟩ := ih hv (hdata.discard hr (k := []) hl hv)
      (by rwa [Ticking, hframes]) (Layout.setList_self _ _ _) (Nat.le_of_succ_le_succ hfuel)
      (by rwa [hframes])
    refine ⟨s', L', ?_, hcleared.valid, hcleared.noData, hcleared.frames.trans hr.frames,
      hcleared.system.trans hr.system⟩
    rw [State.clearDelayed, hhead]
    exact (congrArg (Option.bind · (State.clearDelayed fuel)) hremove).trans he

theorem clearSystick_spec {fuel : ℕ} {l : List (Fin n)} (h : Valid s L) (hdata : NoData s L)
    (hs : ¬ Ticking s) (hl : L.lists .systick = l) (hfuel : l.length ≤ fuel) :
    ∃ s' L', s.clearSystick fuel = some s' ∧ Cleared s s' L' := by
  have hq : ¬ Suspended s.frames .systick := h.control.not_suspended nofun nofun
  induction l generalizing s L fuel with
  | nil =>
    have hchain := h.kept.laid.chain _ hq
    rw [hl] at hchain
    have hhead := Linked.chain_nil_iff.mp hchain
    refine ⟨s, L, ?_, h, hdata, rfl, rfl⟩
    cases fuel with
    | zero => rw [State.clearSystick, hhead]; rfl
    | succ fuel => rw [State.clearSystick, hhead]
  | cons i l ih =>
    obtain ⟨fuel, rfl⟩ : ∃ k, fuel = k + 1 :=
      ⟨fuel - 1, by rw [List.length_cons] at hfuel; omega⟩
    have hhead := (h.kept.laid.chain _ hq).head_eq
    rw [hl] at hhead
    have hnone : (none : Option δ) = (s.pool i).data :=
      (hdata i (by rw [hl]; exact List.mem_cons_self)).symm
    obtain ⟨s₁, hr, hremove, hv⟩ := h.remove_head hq hs hl
      (p := s.matchesSystick (s.pool i).fn none) (decide_eq_true ⟨rfl, hnone⟩)
    have hframes : (s₁.discard i).frames = s.frames := hr.frames
    obtain ⟨s', L', he, hcleared⟩ := ih hv (hdata.discard hr (k := []) hl hv)
      (by rwa [Ticking, hframes]) (Layout.setList_self _ _ _) (Nat.le_of_succ_le_succ hfuel)
      (by rwa [hframes])
    refine ⟨s', L', ?_, hcleared.valid, hcleared.noData, hcleared.frames.trans hr.frames,
      hcleared.system.trans hr.system⟩
    rw [State.clearSystick, hhead]
    exact (congrArg (Option.bind · (State.clearSystick fuel)) hremove).trans he

namespace Valid

omit [DecidableEq φ] [DecidableEq δ] in
theorem length_le (h : Valid s L) (q : Queue) : (L.lists q).length ≤ n := by
  have hcard := (L.nodup_list h.kept.laid.nodup q).length_le_card
  rwa [Fintype.card_fin] at hcard

/-- The queues are cleared. -/
theorem clear (w : φ) (h : Valid s L) (hdata : NoData s L) (hs : ¬ Ticking s)
    (hq : ¬ Suspended s.frames .onBooted) :
    ∃ s' L', s.clear w = some s' ∧ Cleared s s' L' := by
  obtain ⟨s₁, L₁, h₁, hc₁⟩ := clearOnBooted_spec w h hdata hq (k := []) rfl
    (h.kept.laid.chain _ hq) (h.length_le _)
  obtain ⟨s₂, L₂, h₂, hc₂⟩ := clearDelayed_spec hc₁.valid hc₁.noData
    (by rwa [Ticking, hc₁.frames]) rfl (hc₁.valid.length_le _)
  obtain ⟨s₃, L₃, h₃, hc₃⟩ := clearSystick_spec hc₂.valid hc₂.noData
    (by rwa [Ticking, hc₂.frames, hc₁.frames]) rfl (hc₂.valid.length_le _)
  refine ⟨s₃, L₃, ?_, hc₃.valid, hc₃.noData, hc₃.frames.trans (hc₂.frames.trans hc₁.frames),
    hc₃.system.trans (hc₂.system.trans hc₁.system)⟩
  rw [List.getLast?_nil] at h₁
  simp only [State.clear, h₁, h₂, h₃, Option.bind_eq_bind, Option.bind_some]

/-- `task_execute_on_startup`. -/
theorem executeOnStartup (w : φ) (h : Valid s L)
    (hnone : s.frames.countP Frame.isStartup = 0)
    (hclear : s.system.driverStarted = false → NoData s L ∧ ¬ Ticking s) :
    ∃ s' L', s.executeOnStartup w = some s' ∧ Valid s' L' ∧ s.frames ⊆ s'.frames := by
  have hcleared : ∃ s₁ L₁, (if s.system.driverStarted = true then some s else s.clear w) = some s₁ ∧
      Valid s₁ L₁ ∧ s₁.frames = s.frames := by
    cases hd : s.system.driverStarted with
    | true => exact ⟨s, L, rfl, h, rfl⟩
    | false =>
      obtain ⟨hdata, hs⟩ := hclear hd
      obtain ⟨s₁, L₁, h₁, hc⟩ := h.clear w hdata hs (countP_startup_zero hnone _)
      exact ⟨s₁, L₁, h₁, hc.valid, hc.frames⟩
  obtain ⟨s₁, L₁, h₁, hv, hframes⟩ := hcleared
  rw [← hframes] at hnone
  have hrun : s.executeOnStartup w =
      if (s₁.head .onBooted).isSome ∧ (s₁.system.driverStarted ∨ ¬ s₁.system.linestateEvent) then
        s₁.executeOnBooted
      else s₁.executeOnReset := by
    rw [State.executeOnStartup, h₁]
    rfl
  rw [hrun]
  split_ifs
  · rw [← hframes]
    exact hv.executeOnBooted hnone
  · rw [← hframes]
    exact hv.executeOnReset hnone

end Valid

end Clear

end Tasks

end Inspector
