import Inspector.Tasks.Kept

/-! # Valid states

Besides the accounting for tasks, a valid state has at most one loop over systick or delayed tasks
running and at most one start-up loop, and the systick tasks in front of the one that is running are
those that the tick has run.
-/

namespace Inspector

namespace Tasks

variable {n : ℕ} {φ δ : Type*} {s s' : State n φ δ} {L L' : Layout n} {q : Queue} {i : Fin n}
  {now : ℕ}

/-- The tick that a loop runs tasks for. -/
def Frame.now? : Frame n → Option ℕ
  | .systick _ now => some now
  | .delayed now => some now
  | _ => none

def Frame.isStartup : Frame n → Bool
  | .startup _ _ => true
  | _ => false

/-- The tick that delayed tasks are compared with next, or the present one if no loop is running. -/
def State.horizon (s : State n φ δ) : ℕ :=
  (s.frames.filterMap Frame.now?).head?.getD s.system.clock

/-- How the loops of suspended calls can be nested. -/
structure Control (s : State n φ δ) : Prop where
  ticks : (s.frames.filterMap Frame.now?).length = if s.lock then 1 else 0
  startup : s.frames.countP Frame.isStartup ≤ 1
  queues : ∀ q, Suspended s.frames q → q = .onBooted ∨ q = .onReset

/-- The tick has run the systick tasks up to the one that is running, and none after it. -/
def Walk (s : State n φ δ) (L : Layout n) : Prop :=
  ∀ i now, .systick i now ∈ s.frames → ∃ l₁ l₂, L.lists .systick = l₁ ++ i :: l₂ ∧
    (∀ j ∈ l₁ ++ [i], s.task j ∈ s.history.ticked) ∧ ∀ j ∈ l₂, s.task j ∉ s.history.ticked

structure Valid (s : State n φ δ) (L : Layout n) : Prop where
  hand : L.hand = []
  kept : Kept s L s.horizon
  walk : Walk s L
  control : Control s

theorem Control.congr (h : Control s) (hframes : s'.frames = s.frames) (hlock : s'.lock = s.lock) :
    Control s' := by
  constructor
  · rw [hframes, hlock]
    exact h.ticks
  · rw [hframes]
    exact h.startup
  · rw [hframes]
    exact h.queues

theorem Control.not_suspended (h : Control s) (hq : q ≠ .onBooted) (hq' : q ≠ .onReset) :
    ¬ Suspended s.frames q := fun hs => (h.queues q hs).elim hq hq'

theorem horizon_congr (hframes : s'.frames = s.frames)
    (hclock : s'.system.clock = s.system.clock) : s'.horizon = s.horizon := by
  rw [State.horizon, hframes, hclock, State.horizon]

/-- Systick tasks are only added at the end. -/
theorem Walk.grow (h : Walk s L)
    (hframes : ∀ i now, .systick i now ∈ s'.frames → .systick i now ∈ s.frames)
    (hticked : s'.history.ticked = s.history.ticked)
    (htask : ∀ j ∈ L.lists .systick, s'.task j = s.task j) {m : List (Fin n)}
    (hlist : L'.lists .systick = L.lists .systick ++ m)
    (hnew : ∀ j ∈ m, s'.task j ∉ s'.history.ticked) : Walk s' L' := by
  rintro i now hi
  obtain ⟨l₁, l₂, hl, hdone, hleft⟩ := h i now (hframes i now hi)
  rw [hl] at htask
  refine ⟨l₁, l₂ ++ m, by rw [hlist, hl, List.append_assoc]; rfl, ?_, ?_⟩
  · rintro j hj
    rw [hticked, htask j (by rw [List.append_cons]; exact List.mem_append_left _ hj)]
    exact hdone j hj
  · rintro j hj
    rcases List.mem_append.mp hj with hj | hj
    · rw [hticked, htask j (List.mem_append_right _ (List.mem_cons_of_mem i hj))]
      exact hleft j hj
    · exact hnew j hj

/-- A systick task is deleted that is not the one that is running. -/
theorem Walk.erase (h : Walk s L) (hframes : s'.frames = s.frames)
    (hticked : s'.history.ticked = s.history.ticked)
    (htask : ∀ j ∈ L'.lists .systick, s'.task j = s.task j) {l₁ l₂ : List (Fin n)}
    (hl : L.lists .systick = l₁ ++ i :: l₂) (hl' : L'.lists .systick = l₁ ++ l₂)
    (hi : ∀ now, .systick i now ∉ s.frames) : Walk s' L' := by
  rintro k now hk
  rw [hframes] at hk
  obtain ⟨k₁, k₂, hkl, hdone, hleft⟩ := h k now hk
  have hne : k ≠ i := fun he => hi now (he ▸ hk)
  have hsplit : ∃ m₁ m₂, l₁ ++ l₂ = m₁ ++ k :: m₂ ∧ (∀ j ∈ m₁, j ∈ k₁) ∧ ∀ j ∈ m₂, j ∈ k₂ := by
    rcases List.append_eq_append_iff.mp (hl.symm.trans hkl) with ⟨m, rfl, hm⟩ | ⟨m, rfl, hm⟩
    · cases m with
      | nil => exact absurd (List.cons_eq_cons.mp hm).1.symm hne
      | cons a m =>
        obtain ⟨rfl, rfl⟩ := List.cons_eq_cons.mp hm
        refine ⟨l₁ ++ m, k₂, by simp, ?_, fun j hj => hj⟩
        rintro j hj
        rcases List.mem_append.mp hj with hj | hj
        · exact List.mem_append_left _ hj
        · exact List.mem_append_right _ (List.mem_cons_of_mem _ hj)
    · cases m with
      | nil => exact absurd (List.cons_eq_cons.mp hm).1 hne
      | cons a m =>
        obtain ⟨rfl, rfl⟩ := List.cons_eq_cons.mp hm
        refine ⟨k₁, m ++ l₂, by simp, fun j hj => hj, ?_⟩
        rintro j hj
        rcases List.mem_append.mp hj with hj | hj
        · exact List.mem_append_left _ hj
        · exact List.mem_append_right _ (List.mem_cons_of_mem _ hj)
  obtain ⟨m₁, m₂, hm, hm₁, hm₂⟩ := hsplit
  rw [hl', hm] at htask
  refine ⟨m₁, m₂, hl'.trans hm, ?_, ?_⟩
  · rintro j hj
    rw [hticked, htask j (by rw [List.append_cons]; exact List.mem_append_left _ hj)]
    apply hdone
    rcases List.mem_append.mp hj with hj | hj
    · exact List.mem_append_left _ (hm₁ j hj)
    · exact List.mem_append_right _ hj
  · rintro j hj
    rw [hticked, htask j (List.mem_append_right _ (List.mem_cons_of_mem k hj))]
    exact hleft j (hm₂ j hj)

namespace Kept

theorem setTime (h : Kept s L now) (hi : (s.pool i).fn = none) (time : BitVec 32) :
    Kept (s.setTime i time) L now := by
  refine ⟨h.laid.setTime hi time, ?_, h.serials, ?_, h.ran, h.clock, h.nodup_ticked, h.ticked⟩
  · rw [show (s.setTime i time).task = s.task from funext (task_setTime time)]
    exact h.conserved
  · rintro j hj
    have hne : j ≠ i := fun he => h.laid.not_mem_of_free hi (he ▸ L.mem_all_of_list hj)
    rw [setTime_pool hne]
    exact h.due j hj

theorem alloc (h : Kept s L now) (ha : s.alloc = some (i, s')) : Kept s' L now := by
  obtain ⟨-, rfl, hlaid⟩ := h.laid.alloc ha
  exact ⟨hlaid, h.conserved, h.serials, h.due, h.ran, h.clock, h.nodup_ticked, h.ticked⟩

/-- A new task has not run in the tick. -/
theorem new_not_ticked (h : Kept s L now) (fn : φ) (data : Option δ) (due : ℕ) :
    (s.fill i fn data due).task i ∉ s.history.ticked := by
  intro hmem
  have hlt := h.serial_lt (h.ticked _ hmem)
  have hserial : ((s.fill i fn data due).task i).serial = s.history.accepted.length := by
    simp [State.fill, State.task, State.setHistory, State.setNode]
  omega

end Kept

theorem task_fill_of_ne {j : Fin n} (hj : j ≠ i) (fn : φ) (data : Option δ) (due : ℕ) :
    (s.fill i fn data due).task j = s.task j := by
  simp [State.fill, State.task, State.setHistory, State.setNode, hj]

theorem next_fill (fn : φ) (data : Option δ) (due : ℕ) : (s.fill i fn data due).next i = none := by
  simp [State.fill, State.next, State.setHistory, State.setNode]

namespace Valid

/-- A task has been written to a free node, which is then linked into a queue. -/
theorem link (h : Valid s L) {s₁ : State n φ δ} (hk : Kept s₁ L s.horizon)
    (hframes : s₁.frames = s.frames) (hsystem : s₁.system = s.system) (hlock : s₁.lock = s.lock)
    (hticked : s₁.history.ticked = s.history.ticked) (htask : ∀ j, s₁.task j = s.task j)
    (hi : (s₁.pool i).fn = none) (hf : s₁.lastFreed = none) (fn : φ) (data : Option δ) (due : ℕ)
    {l₁ l₂ : List (Fin n)} (hl : L.lists q = l₁ ++ l₂) (hsystick : q = .systick → l₂ = [])
    (hdue : q = .delayed → (s₁.pool i).time = State.ticks due ∧ due < s.horizon + 2 ^ 31)
    (hr : Relinked (s₁.fill i fn data due) s')
    (hlaid : Laid s' (((L.setHand [i]).setList q (l₁ ++ i :: l₂)).setHand [])) :
    Valid s' (((L.setHand [i]).setList q (l₁ ++ i :: l₂)).setHand []) := by
  have hnot := hk.laid.not_mem_of_free hi
  have hfill := hk.fill hi hf fn data due
  rw [h.hand] at hfill
  have hhorizon : s'.horizon = s.horizon :=
    horizon_congr (hr.frames.trans hframes) (by rw [hr.system]; exact congrArg _ hsystem)
  have hother : ∀ j, j ≠ i → s'.task j = s.task j := fun j hj =>
    (hr.task j).trans ((task_fill_of_ne hj fn data due).trans (htask j))
  have hnew : s'.task i ∉ s'.history.ticked := by
    rw [hr.task, hr.history]
    exact hk.new_not_ticked fn data due
  refine ⟨rfl, ?_, ?_, h.control.congr (hr.frames.trans hframes) (hr.lock.trans hlock)⟩
  · rw [hhorizon]
    apply hfill.relocate hr hlaid
    · apply (Layout.all_setList_perm (L.setHand [i]) q [] _).trans
      apply List.Perm.trans _ (Layout.all_hand_perm (L.setHand [i]) q).symm
      apply List.Perm.append_right
      change (l₁ ++ i :: l₂).Perm (i :: L.lists q)
      rw [hl]
      exact List.perm_middle
    · rintro j hj
      by_cases hq : q = .delayed
      · subst hq
        change j ∈ ((L.setHand [i]).setList .delayed (l₁ ++ i :: l₂)).lists .delayed at hj
        rw [Layout.setList_self] at hj
        rcases List.mem_append.mp hj with hj | hj
        · exact .inl (hl ▸ List.mem_append_left _ hj)
        rcases List.mem_cons.mp hj with rfl | hj
        · right
          have hpool : ((s₁.fill j fn data due).pool j).time = (s₁.pool j).time ∧
              ((s₁.fill j fn data due).pool j).due = due := by
            simp [State.fill, State.setHistory, State.setNode]
          rw [hpool.1, hpool.2]
          exact hdue rfl
        · exact .inl (hl ▸ List.mem_append_right _ hj)
      · left
        change j ∈ ((L.setHand [i]).setList q _).lists .delayed at hj
        rwa [Layout.setList_ne _ (Ne.symm hq)] at hj
  · by_cases hq : q = .systick
    · subst hq
      obtain rfl := hsystick rfl
      apply h.walk.grow (fun _ _ hj => hr.frames.trans hframes ▸ hj) (by rw [hr.history]; exact hticked)
        (fun j hj => hother j fun he => hnot (he ▸ L.mem_all_of_list hj)) (m := [i])
      · change ((L.setHand [i]).setList .systick _).lists .systick = _
        rw [hl, List.append_nil]
        exact Layout.setList_self _ _ _
      · rintro j hj
        rwa [List.mem_singleton.mp hj]
    · apply h.walk.grow (fun _ _ hj => hr.frames.trans hframes ▸ hj) (by rw [hr.history]; exact hticked)
        (fun j hj => hother j fun he => hnot (he ▸ L.mem_all_of_list hj)) (m := [])
      · change ((L.setHand [i]).setList q _).lists .systick = _
        rw [Layout.setList_ne _ (Ne.symm hq), List.append_nil]
        rfl
      · rintro j ⟨⟩

/-- A task is taken out of a queue and deleted. -/
theorem discard (h : Valid s L) (hq : ¬ Suspended s.frames q) {l₁ l₂ : List (Fin n)}
    (hl : L.lists q = l₁ ++ i :: l₂)
    (hi : q = .systick → ∀ now, .systick i now ∉ s.frames) {s₁ : State n φ δ}
    (hr : Relinked s s₁) (hlaid : Laid s₁ ((L.setList q (l₁ ++ l₂)).setHand [i])) :
    Valid (s₁.discard i) (L.setList q (l₁ ++ l₂)) := by
  have hmoved : ((L.setList q (l₁ ++ l₂)).setHand [i]).all.Perm L.all := by
    apply (L.all_setList_perm q [i] (l₁ ++ l₂)).trans
    apply List.Perm.trans _ (L.all_hand_perm q).symm
    apply List.Perm.append_right
    rw [h.hand, hl]
    change (i :: (l₁ ++ l₂)).Perm (l₁ ++ i :: l₂)
    exact List.perm_middle.symm
  have hk : Kept s₁ ((L.setList q (l₁ ++ l₂)).setHand [i]) s.horizon := by
    apply h.kept.relocate hr hlaid hmoved
    rintro j hj
    left
    by_cases hq' : q = .delayed
    · subst hq'
      change j ∈ (L.setList .delayed (l₁ ++ l₂)).lists .delayed at hj
      rw [Layout.setList_self] at hj
      rw [hl]
      rcases List.mem_append.mp hj with hj | hj
      · exact List.mem_append_left _ hj
      · exact List.mem_append_right _ (List.mem_cons_of_mem i hj)
    · change j ∈ (L.setList q (l₁ ++ l₂)).lists .delayed at hj
      rwa [Layout.setList_ne _ (Ne.symm hq')] at hj
  have hdiscard := hk.discard rfl
  have hhand : ((L.setList q (l₁ ++ l₂)).setHand [i]).setHand [] = L.setList q (l₁ ++ l₂) := by
    rw [Layout.setHand, Layout.setHand, ← h.hand]
    rfl
  rw [hhand] at hdiscard
  have hnot : i ∉ (L.setList q (l₁ ++ l₂)).all := by
    have hn := hlaid.nodup
    have hall : ((L.setList q (l₁ ++ l₂)).setHand [i]).all = i :: (L.setList q (l₁ ++ l₂)).all := by
      change [i] ++ _ = i :: (L.hand ++ _)
      rw [h.hand]
      rfl
    rw [hall] at hn
    exact (List.nodup_cons.mp hn).1
  have hother : ∀ j ∈ (L.setList q (l₁ ++ l₂)).lists .systick, (s₁.discard i).task j = s.task j := by
    rintro j hj
    have hne : j ≠ i := fun he => hnot (he ▸ Layout.mem_all_of_list _ hj)
    have hfree : (s₁.discard i).task j = s₁.task j := by
      simp [State.discard, State.free, State.task, State.setHistory, State.setNode, hne]
    exact hfree.trans (hr.task j)
  have hframes : (s₁.discard i).frames = s.frames := hr.frames
  have hticked : (s₁.discard i).history.ticked = s.history.ticked := by
    change s₁.history.ticked = _
    rw [hr.history]
  refine ⟨h.hand, ?_, ?_, h.control.congr hframes hr.lock⟩
  · rw [horizon_congr hframes (congrArg System.clock hr.system)]
    exact hdiscard
  · by_cases hq' : q = .systick
    · subst hq'
      exact h.walk.erase hframes hticked hother hl (Layout.setList_self _ _ _) (hi rfl)
    · have hsame : (L.setList q (l₁ ++ l₂)).lists .systick = L.lists .systick :=
        Layout.setList_ne _ (Ne.symm hq') _
      apply h.walk.grow (fun _ _ hj => hframes ▸ hj) hticked
        (fun j hj => hother j (hsame ▸ hj)) (m := [])
      · rw [hsame, List.append_nil]
      · rintro j ⟨⟩

/-- `task_add_immediate` and the like. -/
theorem enqueue (h : Valid s L) (hq : ¬ Suspended s.frames q) (hdelayed : q ≠ .delayed)
    (fn : Option φ) (data : Option δ) :
    ∃ ok s' L', s.enqueue q fn data = some (ok, s') ∧ Valid s' L' ∧ s'.frames = s.frames := by
  cases fn with
  | none => exact ⟨false, s, L, rfl, h, rfl⟩
  | some f =>
    cases ha : s.alloc with
    | none => exact ⟨false, s, L, by rw [State.enqueue, ha], h, rfl⟩
    | some found =>
      obtain ⟨i, s₁⟩ := found
      have hk := h.kept.alloc ha
      obtain ⟨hi, rfl, -⟩ := h.kept.laid.alloc ha
      have hfill := hk.laid.fill (i := i) hi rfl f data s.system.clock
      rw [h.hand] at hfill
      obtain ⟨s', happend, hr, hlaid⟩ := hfill.append (q := q) rfl hq (next_fill f data _)
      have hvalid := h.link hk rfl rfl rfl rfl (fun _ => rfl) hi rfl f data _
        (List.append_nil _).symm (fun _ => rfl) (fun hq' => absurd hq' hdelayed) hr hlaid
      refine ⟨true, s', _, ?_, hvalid, hr.frames⟩
      rw [State.enqueue, ha]
      exact congrArg (Option.map _) happend

/-- `task_add_delayed`. -/
theorem addDelayed (h : Valid s L) (fn : Option φ) (data : Option δ) (delayMs : BitVec 32)
    (hdelay : s.system.clock + delayMs.toNat < s.horizon + 2 ^ 31) :
    ∃ ok s' L', s.addDelayed fn data delayMs = some (ok, s') ∧ Valid s' L' ∧
      s'.frames = s.frames := by
  have hq : ¬ Suspended s.frames .delayed :=
    h.control.not_suspended Queue.noConfusion Queue.noConfusion
  cases fn with
  | none => exact ⟨false, s, L, rfl, h, rfl⟩
  | some f =>
    cases ha : s.alloc with
    | none => exact ⟨false, s, L, by rw [State.addDelayed, ha], h, rfl⟩
    | some found =>
      obtain ⟨i, s₁⟩ := found
      have hk₀ := h.kept.alloc ha
      obtain ⟨hi₀, rfl, -⟩ := h.kept.laid.alloc ha
      let s₀ : State n φ δ := { s with lastFreed := none }
      let time := State.ticks s.system.clock + delayMs
      have hk : Kept (s₀.setTime i time) L s.horizon := hk₀.setTime hi₀ time
      have hi : ((s₀.setTime i time).pool i).fn = none := by
        simpa [State.setTime, State.setNode] using hi₀
      have htime : ((s₀.setTime i time).pool i).time =
          State.ticks (s.system.clock + delayMs.toNat) :=
        (setTime_time time).trans (ticks_add _ _)
      have hfill := hk.laid.fill hi rfl f data (s.system.clock + delayMs.toNat)
      rw [h.hand] at hfill
      obtain ⟨s', l₁, l₂, hinsert, hr, hl, -, hlaid⟩ := hfill.insert rfl hq (next_fill f data _)
      have hvalid := h.link hk rfl rfl rfl rfl (task_setTime time) hi rfl f data _ hl
        (fun hq' => Queue.noConfusion hq') (fun _ => ⟨htime, hdelay⟩) hr hlaid
      refine ⟨true, s', _, ?_, hvalid, hr.frames⟩
      rw [State.addDelayed, ha]
      exact congrArg (Option.map _) hinsert

/-- The first task that meets a condition is deleted. -/
theorem remove (h : Valid s L) (hq : ¬ Suspended s.frames q) (p : Fin n → Bool)
    (hp : q = .systick → ∀ l₁ i l₂, L.lists q = l₁ ++ i :: l₂ → (∀ j ∈ l₁, p j = false) →
      p i = true → ∀ now, .systick i now ∉ s.frames) :
    ∃ s' L', s.remove q p = some s' ∧ Valid s' L' ∧ s'.frames = s.frames ∧
      s'.system = s.system := by
  rcases h.kept.laid.remove h.hand hq p with ⟨-, hs⟩ | ⟨l₁, i, l₂, s₁, hl, hi, hbefore, hr, hlaid, hs⟩
  · exact ⟨s, L, hs, h, rfl, rfl⟩
  · exact ⟨_, _, hs, h.discard hq hl (fun hq' => hp hq' l₁ i l₂ hl hbefore hi) hr hlaid, hr.frames,
      hr.system⟩

end Valid

end Tasks

end Inspector
