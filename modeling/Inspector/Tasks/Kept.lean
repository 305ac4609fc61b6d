import Inspector.Tasks.Links

/-! # Accounting for tasks

Every task that has been accepted has been run or deleted, or its node is laid out somewhere.
Linking nodes does not change this, and a node is only freed when its task is run or deleted.
-/

namespace Inspector

namespace Tasks

variable {n : ℕ} {φ δ : Type*} {s s' : State n φ δ} {L : Layout n} {q : Queue} {i : Fin n}
  {now : ℕ}

/-- Counts that are less than half the range apart differ as their times do. -/
theorem diff_ticks {a b : ℕ} (h : a < b + 2 ^ 31) (h' : b ≤ a + 2 ^ 31) :
    State.diff (State.ticks a) (State.ticks b) = a - b := by
  have hsub : (State.ticks a - State.ticks b).toNat = (2 ^ 32 - b % 2 ^ 32 + a % 2 ^ 32) % 2 ^ 32 := by
    simp only [State.ticks, BitVec.toNat_sub, BitVec.toNat_ofNat]
  rw [State.diff, BitVec.toInt_eq_toNat_cond, hsub]
  split_ifs <;> omega

theorem le_of_diff {a b : ℕ} (h : a < b + 2 ^ 31)
    (hd : State.diff (State.ticks a) (State.ticks b) ≤ 0) : a ≤ b := by
  by_contra hab
  rw [diff_ticks h (by omega)] at hd
  omega

theorem ticks_add (a : ℕ) (b : BitVec 32) :
    State.ticks a + b = State.ticks (a + b.toNat) := by
  rw [State.ticks, State.ticks, BitVec.ofNat_add, BitVec.ofNat_toNat, BitVec.setWidth_eq]

/-- The tasks are accounted for, and those that are delayed are due less than half the range of
ticks after the time they are compared with. -/
structure Kept (s : State n φ δ) (L : Layout n) (now : ℕ) : Prop where
  laid : Laid s L
  conserved : s.history.accepted.Perm
    (s.history.ran.map Run.task ++ s.history.deleted ++ L.all.map s.task)
  serials : s.history.accepted.map Task.serial = (List.range s.history.accepted.length).reverse
  due : ∀ i ∈ L.lists .delayed,
    (s.pool i).time = State.ticks (s.pool i).due ∧ (s.pool i).due < now + 2 ^ 31
  ran : ∀ r ∈ s.history.ran, r.queue = .delayed → r.task.due ≤ r.clock
  clock : now ≤ s.system.clock
  nodup_ticked : s.history.ticked.Nodup
  ticked : ∀ t ∈ s.history.ticked, t ∈ s.history.accepted

namespace Kept

theorem mono (h : Kept s L now) {now' : ℕ} (hle : now ≤ now') (hclock : now' ≤ s.system.clock) :
    Kept s L now' := by
  refine ⟨h.laid, h.conserved, h.serials, ?_, h.ran, hclock, h.nodup_ticked, h.ticked⟩
  rintro i hi
  obtain ⟨htime, hdue⟩ := h.due i hi
  exact ⟨htime, by omega⟩

theorem nodup_accepted (h : Kept s L now) : (s.history.accepted.map Task.serial).Nodup := by
  rw [h.serials]
  exact List.nodup_reverse.mpr List.nodup_range

theorem serial_lt (h : Kept s L now) {t : Task φ δ} (ht : t ∈ s.history.accepted) :
    t.serial < s.history.accepted.length := by
  have hmem := List.mem_map_of_mem (f := Task.serial) ht
  rw [h.serials, List.mem_reverse] at hmem
  exact List.mem_range.mp hmem

theorem task_accepted (h : Kept s L now) (hi : i ∈ L.all) : s.task i ∈ s.history.accepted := by
  rw [h.conserved.mem_iff]
  exact List.mem_append_right _ (List.mem_map_of_mem hi)

/-- Nodes that are not free hold different tasks. -/
theorem task_injective (h : Kept s L now) {j : Fin n} (hi : i ∈ L.all) (hj : j ∈ L.all)
    (ht : s.task i = s.task j) : i = j := by
  have hn := (h.conserved.nodup_iff.mp (List.Nodup.of_map _ h.nodup_accepted))
  exact List.inj_on_of_nodup_map (List.nodup_append.mp hn).2.1 hi hj ht

/-- The places of nodes change. -/
theorem relocate (h : Kept s L now) (hr : Relinked s s') {L' : Layout n} (hlaid : Laid s' L')
    (hp : L'.all.Perm L.all)
    (hdue : ∀ i ∈ L'.lists .delayed, i ∈ L.lists .delayed ∨
      (s.pool i).time = State.ticks (s.pool i).due ∧ (s.pool i).due < now + 2 ^ 31) :
    Kept s' L' now := by
  refine ⟨hlaid, ?_, ?_, ?_, ?_, ?_, ?_, ?_⟩
  · have htasks : L'.all.map s'.task = L'.all.map s.task := List.map_congr_left fun i _ => hr.task i
    rw [hr.history, htasks]
    exact h.conserved.trans ((hp.map s.task).symm.append_left _)
  · rw [hr.history]
    exact h.serials
  · rintro i hi
    have hdue' : (s'.pool i).due = (s.pool i).due := congrArg Task.due (hr.task i)
    rw [hdue', hr.time]
    exact (hdue i hi).elim (h.due i) id
  · rw [hr.history]
    exact h.ran
  · rw [hr.system]
    exact h.clock
  · rw [hr.history]
    exact h.nodup_ticked
  · rw [hr.history]
    exact h.ticked

/-- A new task is in hand. -/
theorem fill (h : Kept s L now) (hi : (s.pool i).fn = none) (hf : s.lastFreed = none) (fn : φ)
    (data : Option δ) (due : ℕ) : Kept (s.fill i fn data due) (L.setHand (i :: L.hand)) now := by
  have hnot := h.laid.not_mem_of_free hi
  have hpool : ∀ j, j ≠ i → (s.fill i fn data due).pool j = s.pool j := by
    rintro j hj
    simp [State.fill, State.setHistory, State.setNode, hj]
  have htasks : L.all.map (s.fill i fn data due).task = L.all.map s.task := by
    apply List.map_congr_left
    rintro j hj
    have hne : j ≠ i := fun he => hnot (he ▸ hj)
    simp only [State.task, hpool j hne]
  have hserial : ((s.fill i fn data due).task i).serial = s.history.accepted.length := by
    simp [State.fill, State.task, State.setHistory, State.setNode]
  refine ⟨h.laid.fill hi hf fn data due, ?_, ?_, ?_, h.ran, h.clock, h.nodup_ticked, ?_⟩
  · change ((s.fill i fn data due).task i :: s.history.accepted).Perm
      (s.history.ran.map Run.task ++ s.history.deleted ++
        (i :: L.all).map (s.fill i fn data due).task)
    rw [List.map_cons, htasks]
    exact (h.conserved.cons _).trans List.perm_middle.symm
  · change ((s.fill i fn data due).task i :: s.history.accepted).map Task.serial =
      (List.range (s.history.accepted.length + 1)).reverse
    rw [List.map_cons, hserial, h.serials, List.range_succ, List.reverse_append]
    rfl
  · rintro j hj
    have hne : j ≠ i := fun he => hnot (he ▸ L.mem_all_of_list hj)
    rw [hpool j hne]
    exact h.due j hj
  · exact fun t ht => List.mem_cons_of_mem _ (h.ticked t ht)

/-- The node in hand is freed and its task is recorded. -/
theorem free (h : Kept s L now) {m : List (Fin n)} (hm : L.hand = i :: m)
    (f : History φ δ → History φ δ)
    (haccepted : (f s.history).accepted = s.history.accepted)
    (hrecord : ((f s.history).ran.map Run.task ++ (f s.history).deleted).Perm
      (s.task i :: (s.history.ran.map Run.task ++ s.history.deleted)))
    (hran : ∀ r ∈ (f s.history).ran, r.queue = .delayed → r.task.due ≤ r.clock)
    (hticked : (f s.history).ticked = s.history.ticked) :
    Kept ((s.free i).setHistory f) (L.setHand m) now := by
  have hall : L.all = i :: (L.setHand m).all := by
    rw [Layout.all, hm]
    rfl
  have hn := h.laid.nodup
  rw [hall] at hn
  have hnot := (List.nodup_cons.mp hn).1
  have hpool : ∀ j, j ≠ i → (s.free i).pool j = s.pool j := by
    rintro j hj
    simp [State.free, State.setNode, hj]
  have htasks : (L.setHand m).all.map ((s.free i).setHistory f).task =
      (L.setHand m).all.map s.task := by
    apply List.map_congr_left
    rintro j hj
    have hne : j ≠ i := fun he => hnot (he ▸ hj)
    change (s.free i).task j = _
    simp only [State.task, hpool j hne]
  have hlaid := h.laid.free hm
  refine ⟨⟨hlaid.chain, hlaid.stale, hlaid.locals, hlaid.nodup, hlaid.allocated, hlaid.lastFreed⟩,
    ?_, ?_, ?_, hran, h.clock, ?_, ?_⟩
  · change (f s.history).accepted.Perm ((f s.history).ran.map Run.task ++ (f s.history).deleted ++ _)
    rw [haccepted, htasks]
    have hc := h.conserved
    rw [hall, List.map_cons] at hc
    exact hc.trans (List.perm_middle.trans (hrecord.symm.append_right _))
  · change (f s.history).accepted.map _ = (List.range (f s.history).accepted.length).reverse
    rw [haccepted]
    exact h.serials
  · rintro j hj
    have hne : j ≠ i := fun he => hnot (he ▸ (L.setHand m).mem_all_of_list hj)
    change ((s.free i).pool j).time = State.ticks ((s.free i).pool j).due ∧
      ((s.free i).pool j).due < _
    rw [hpool j hne]
    exact h.due j hj
  · change (f s.history).ticked.Nodup
    rw [hticked]
    exact h.nodup_ticked
  · change ∀ t ∈ (f s.history).ticked, t ∈ (f s.history).accepted
    rw [hticked, haccepted]
    exact h.ticked

theorem discard (h : Kept s L now) (hm : L.hand = [i]) :
    Kept (s.discard i) (L.setHand []) now := by
  apply h.free hm _ rfl _ h.ran rfl
  exact List.perm_middle

/-- A task in hand is run; a delayed one must be due. -/
theorem beginRun (h : Kept s L now) {m : List (Fin n)} (hm : L.hand = i :: m)
    (hdue : q = .delayed → (s.task i).due ≤ s.system.clock) :
    Kept (s.beginRun q i) (L.setHand m) now := by
  apply h.free hm _ rfl (List.Perm.refl _) _ rfl
  rintro r hr hq
  rcases List.mem_cons.mp hr with rfl | hr
  · exact hdue hq
  · exact h.ran r hr hq

theorem taskRun (h : Kept s L now) {m : List (Fin n)} (hm : L.hand = i :: m) :
    s.taskRun q i = some (s.next i, s.beginRun q i) := by
  apply if_pos
  rw [h.laid.allocated, Layout.all, hm]
  exact List.mem_append_left _ List.mem_cons_self

end Kept

end Tasks

end Inspector
