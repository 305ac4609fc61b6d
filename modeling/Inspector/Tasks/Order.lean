import Inspector.Ordered.Insertion
import Inspector.Tasks.Integrity
import Mathlib.Data.List.MinMax
import Mathlib.Data.List.TakeWhile

/-! # Order of delayed tasks

Delayed tasks are kept in the order of their due times and run in that order. Tasks that are due at
the same time run in the order they were added, unless one of them is added while the first task of
the list is due at that time too.
-/

namespace Inspector

namespace Tasks

variable {n : ℕ} {φ δ : Type*} {s s' : State n φ δ} {L L' : Layout n} {i : Fin n}

/-- The delayed tasks. -/
def delayedTasks (s : State n φ δ) (L : Layout n) : List (Task φ δ) := (L.lists .delayed).map s.task

/-- No task is running, and the times of the delayed tasks are those they are due at. -/
structure Timed (s : State n φ δ) (L : Layout n) : Prop where
  laid : Laid s L
  hand : L.hand = []
  frames : s.frames = []
  time : ∀ i ∈ L.lists .delayed, (s.pool i).time = State.ticks (s.pool i).due
  serial : ∀ i ∈ L.lists .delayed, (s.pool i).serial < s.history.accepted.length

theorem Valid.timed (h : Valid s L) (hf : s.frames = []) : Timed s L :=
  ⟨h.kept.laid, h.hand, hf, fun i hi => (h.kept.due i hi).1, fun _ hi =>
    h.kept.serial_lt (h.kept.task_accepted (L.mem_all_of_list hi))⟩

theorem Timed.not_suspended (h : Timed s L) (q : Queue) : ¬ Suspended s.frames q := by
  rintro ⟨v, hv⟩
  rw [h.frames] at hv
  cases hv

/-- The due times are less than half the range of ticks apart. -/
def Window (l : List (Task φ δ)) : Prop := ∀ a ∈ l, ∀ b ∈ l, a.due < b.due + 2 ^ 31

/-- What adding delayed tasks leaves as it is. -/
structure OnlyDelayed (s s' : State n φ δ) (L L' : Layout n) : Prop where
  lists : ∀ q, q ≠ .delayed → L'.lists q = L.lists q
  ran : s'.history.ran = s.history.ran
  lock : s'.lock = s.lock
  lastMs : s'.lastMs = s.lastMs
  sublist : (delayedTasks s L).Sublist (delayedTasks s' L')

theorem OnlyDelayed.refl (s : State n φ δ) (L : Layout n) : OnlyDelayed s s L L :=
  ⟨fun _ _ => rfl, rfl, rfl, rfl, List.Sublist.refl _⟩

theorem OnlyDelayed.trans {s'' : State n φ δ} {L'' : Layout n} (h : OnlyDelayed s s' L L')
    (h' : OnlyDelayed s' s'' L' L'') : OnlyDelayed s s'' L L'' :=
  ⟨fun q hq => (h'.lists q hq).trans (h.lists q hq), h'.ran.trans h.ran, h'.lock.trans h.lock,
    h'.lastMs.trans h.lastMs, h.sublist.trans h'.sublist⟩

/-- The time of a task fits between those of two parts of a list. -/
def TimeFits (t : Task φ δ) (l₁ l₂ : List (Task φ δ)) : Prop :=
  match l₁ with
  | [] => ∀ h ∈ l₂.head?, State.diff (State.ticks t.due) (State.ticks h.due) ≤ 0
  | h :: l => 0 < State.diff (State.ticks t.due) (State.ticks h.due) ∧
      (∀ j ∈ l, 0 ≤ State.diff (State.ticks t.due) (State.ticks j.due)) ∧
      ∀ j ∈ l₂.head?, State.diff (State.ticks t.due) (State.ticks j.due) < 0

/-- A task is added to those of a list where its time fits between the others. -/
def AddedAt (t : Task φ δ) (l l' : List (Task φ δ)) : Prop :=
  ∃ l₁ l₂, l = l₁ ++ l₂ ∧ l' = l₁ ++ t :: l₂ ∧ TimeFits t l₁ l₂

/-- Within half the range, times are in the order of the counts they are cut off from. -/
theorem AddedAt.inserted {t : Task φ δ} {l l' : List (Task φ δ)} (h : AddedAt t l l')
    (hw : Window l') : Ordered.Inserted Task.due t l l' := by
  obtain ⟨l₁, l₂, rfl, rfl, hfits⟩ := h
  have ht : t ∈ l₁ ++ t :: l₂ := List.mem_append_right _ List.mem_cons_self
  have hdiff : ∀ j, j ∈ l₁ ∨ j ∈ l₂ →
      State.diff (State.ticks t.due) (State.ticks j.due) = t.due - j.due := by
    intro j hj
    have hmem : j ∈ l₁ ++ t :: l₂ := List.mem_append.mpr (hj.imp_right (List.mem_cons_of_mem t))
    exact diff_ticks (hw t ht j hmem) (hw j hmem t ht).le
  refine ⟨l₁, l₂, rfl, rfl, ?_⟩
  cases l₁ with
  | nil =>
    intro h hh
    have hle := hfits h hh
    rw [hdiff h (.inr (List.mem_of_mem_head? hh))] at hle
    omega
  | cons a l =>
    obtain ⟨ha, hl, hl₂⟩ := hfits
    rw [hdiff a (.inl List.mem_cons_self)] at ha
    refine ⟨by omega, ?_, ?_⟩
    · intro j hj
      have hle := hl j hj
      rw [hdiff j (.inl (List.mem_cons_of_mem a hj))] at hle
      omega
    · intro j hj
      have hlt := hl₂ j hj
      rw [hdiff j (.inr (List.mem_of_mem_head? hj))] at hlt
      omega

/-- The task of a node fits where the node is placed. -/
theorem timeFits_of_placed {l₁ l₂ : List (Fin n)} (h : Placed s i l₁ l₂)
    (hi : (s.pool i).time = State.ticks (s.pool i).due)
    (hl : ∀ j ∈ l₁ ++ l₂, (s.pool j).time = State.ticks (s.pool j).due) :
    TimeFits (s.task i) (l₁.map s.task) (l₂.map s.task) := by
  have hhead : ∀ p : Task φ δ → Prop, (∀ j ∈ l₂.head?, p (s.task j)) →
      ∀ a ∈ (l₂.map s.task).head?, p a := by
    intro p hp a ha
    rw [List.head?_map, Option.mem_map] at ha
    obtain ⟨j, hj, rfl⟩ := ha
    exact hp j hj
  have hdiff : ∀ j ∈ l₁ ++ l₂, State.diff (State.ticks (s.task i).due) (State.ticks (s.task j).due) =
      State.diff (s.pool i).time (s.pool j).time := by
    intro j hj
    rw [hi, hl j hj]
    rfl
  cases l₁ with
  | nil =>
    apply hhead
    intro j hj
    rw [hdiff j (List.mem_of_mem_head? hj)]
    exact h j hj
  | cons b l₁ =>
    obtain ⟨hb, hbefore, hafter⟩ := h
    refine ⟨?_, ?_, hhead _ fun j hj => ?_⟩
    · rw [hdiff b List.mem_cons_self]
      exact hb
    · intro a ha
      obtain ⟨j, hj, rfl⟩ := List.mem_map.mp ha
      rw [hdiff j (List.mem_append_left _ (List.mem_cons_of_mem b hj))]
      exact hbefore j hj
    · rw [hdiff j (List.mem_append_right _ (List.mem_of_mem_head? hj))]
      exact hafter j hj

theorem AddedAt.sublist {t : Task φ δ} {l l' : List (Task φ δ)} (h : AddedAt t l l') :
    l.Sublist l' := by
  obtain ⟨l₁, l₂, rfl, rfl, -⟩ := h
  exact (List.sublist_cons_self t l₂).append_left l₁

/-- The time passed and the task added after it. -/
structure Add (φ δ : Type*) where
  ms : ℕ
  fn : Option φ
  data : Option δ
  delayMs : BitVec 32

def Add.ops (a : Add φ δ) : List (Op φ δ) := [.elapse a.ms, .addDelayed a.fn a.data a.delayMs]

def addOps (adds : List (Add φ δ)) : List (Op φ δ) := adds.flatMap Add.ops

theorem Timed.elapse (h : Timed s L) (ms : ℕ) :
    Timed { s with system.clock := s.system.clock + ms } L :=
  ⟨⟨h.laid.chain, h.laid.stale, h.laid.locals, h.laid.nodup, h.laid.allocated, h.laid.lastFreed⟩,
    h.hand, h.frames, h.time, h.serial⟩

/-- A task is accepted: what its node holds, where it is, and what else has changed. -/
structure Joined (s s' : State n φ δ) (L : Layout n) (i : Fin n) (l₁ l₂ : List (Fin n))
    (d : ℕ) : Prop where
  lists : L.lists .delayed = l₁ ++ l₂
  laid : Laid s' ((L.setList .delayed (l₁ ++ i :: l₂)).setHand [])
  placed : Placed s' i l₁ l₂
  task : ∀ j ∈ L.lists .delayed, s'.task j = s.task j
  time : ∀ j ∈ L.lists .delayed, (s'.pool j).time = (s.pool j).time
  due : (s'.pool i).due = d
  ticks : (s'.pool i).time = State.ticks d
  serial : (s'.pool i).serial = s.history.accepted.length
  accepted : s'.history.accepted.length = s.history.accepted.length + 1
  ran : s'.history.ran = s.history.ran
  frames : s'.frames = s.frames
  lock : s'.lock = s.lock
  lastMs : s'.lastMs = s.lastMs

theorem placed_congr {l₁ l₂ : List (Fin n)} (h : Placed s i l₁ l₂)
    (htime : ∀ j, (s'.pool j).time = (s.pool j).time) : Placed s' i l₁ l₂ := by
  cases l₁ with
  | nil =>
    intro j hj
    rw [htime, htime]
    exact h j hj
  | cons b l₁ =>
    simp only [Placed, htime]
    exact h

/-- `task_add_delayed`, when there is a free node. -/
theorem Timed.joined (h : Timed s L) (f : φ) (data : Option δ) (delayMs : BitVec 32)
    (ha : s.alloc.isSome = true) :
    ∃ s' i l₁ l₂, s.addDelayed (some f) data delayMs = some (true, s') ∧
      Joined s s' L i l₁ l₂ (s.system.clock + delayMs.toNat) := by
  obtain ⟨⟨i, s₁⟩, ha⟩ := Option.isSome_iff_exists.mp ha
  obtain ⟨hi, rfl, hlaid₀⟩ := h.laid.alloc ha
  let s₀ : State n φ δ := { s with lastFreed := none }
  let time := State.ticks s.system.clock + delayMs
  let due := s.system.clock + delayMs.toNat
  let s₂ := (s₀.setTime i time).fill i f data due
  have hi₁ : ((s₀.setTime i time).pool i).fn = none :=
    (congrArg Task.fn (task_setTime (s := s₀) time i)).trans hi
  have hfill : Laid s₂ (L.setHand [i]) := by
    have hfill := (hlaid₀.setTime hi time).fill hi₁ rfl f data due
    rwa [h.hand] at hfill
  obtain ⟨s', l₁, l₂, hinsert, hr, hl, hplaced, hlaid⟩ := hfill.insert rfl
    (h.not_suspended .delayed) (next_fill f data _)
  have hne : ∀ j ∈ L.lists .delayed, j ≠ i := fun j hj he =>
    h.laid.not_mem_of_free hi (he ▸ L.mem_all_of_list hj)
  have htime : (s₂.pool i).time = time := by
    simp [s₂, State.fill, State.setHistory, State.setTime, State.setNode]
  refine ⟨s', i, l₁, l₂, ?_, ⟨hl, hlaid, placed_congr hplaced hr.time, ?_, ?_, ?_, ?_, ?_, ?_, ?_,
    hr.frames, hr.lock, hr.lastMs⟩⟩
  · rw [State.addDelayed, ha]
    exact congrArg (Option.map _) hinsert
  · intro j hj
    exact (hr.task j).trans ((task_fill_of_ne (hne j hj) f data due).trans (task_setTime time j))
  · intro j hj
    rw [hr.time]
    simp [s₂, State.fill, State.setHistory, State.setTime, State.setNode, hne j hj, s₀]
  · have hdue : (s₂.task i).due = due := by
      simp [s₂, State.fill, State.task, State.setHistory, State.setNode]
    exact (congrArg Task.due (hr.task i)).trans hdue
  · exact (hr.time i).trans (htime.trans (ticks_add _ _))
  · have hserial : (s₂.task i).serial = s.history.accepted.length := by
      simp [s₂, State.fill, State.task, State.setHistory, State.setTime, State.setNode, s₀]
    exact (congrArg Task.serial (hr.task i)).trans hserial
  · rw [hr.history]
    rfl
  · rw [hr.history]
    rfl

/-- The tasks after one has been accepted. -/
theorem Timed.join (h : Timed s L) {l₁ l₂ : List (Fin n)} {due : ℕ}
    (hj : Joined s s' L i l₁ l₂ due) :
    Timed s' ((L.setList .delayed (l₁ ++ i :: l₂)).setHand []) ∧
      OnlyDelayed s s' L ((L.setList .delayed (l₁ ++ i :: l₂)).setHand []) ∧
      AddedAt (s'.task i) (delayedTasks s L)
        (delayedTasks s' ((L.setList .delayed (l₁ ++ i :: l₂)).setHand [])) := by
  have hlist : ((L.setList .delayed (l₁ ++ i :: l₂)).setHand []).lists .delayed = l₁ ++ i :: l₂ := by
    rw [Layout.setHand_lists, Layout.setList_self]
  have hcases : ∀ j ∈ l₁ ++ i :: l₂, j = i ∨ j ∈ L.lists .delayed := by
    intro j hmem
    rw [hj.lists]
    exact List.mem_cons.mp (List.perm_middle.mem_iff.mp hmem)
  have htime : ∀ j ∈ L.lists .delayed, (s'.pool j).time = State.ticks (s'.pool j).due := by
    intro j hmem
    rw [hj.time j hmem, h.time j hmem]
    exact congrArg State.ticks (congrArg Task.due (hj.task j hmem)).symm
  have htimed : ∀ j ∈ l₁ ++ i :: l₂, (s'.pool j).time = State.ticks (s'.pool j).due := by
    intro j hmem
    rcases hcases j hmem with rfl | hmem
    · rw [hj.ticks, hj.due]
    · exact htime j hmem
  have hmap : (l₁ ++ l₂).map s'.task = (l₁ ++ l₂).map s.task :=
    List.map_congr_left fun j hmem => hj.task j (hj.lists ▸ hmem)
  have hadded : AddedAt (s'.task i) (delayedTasks s L)
      (delayedTasks s' ((L.setList .delayed (l₁ ++ i :: l₂)).setHand [])) := by
    refine ⟨l₁.map s'.task, l₂.map s'.task, ?_, ?_, ?_⟩
    · rw [delayedTasks, hj.lists, ← hmap, List.map_append]
    · rw [delayedTasks, hlist, List.map_append, List.map_cons]
    · apply timeFits_of_placed hj.placed
      · rw [hj.ticks, hj.due]
      · exact fun j hmem => htime j (hj.lists ▸ hmem)
  refine ⟨⟨hj.laid, rfl, hj.frames.trans h.frames, ?_, ?_⟩,
    ⟨fun q hq => L.setList_ne hq _, hj.ran, hj.lock, hj.lastMs, hadded.sublist⟩, hadded⟩
  · intro j hmem
    exact htimed j (hlist ▸ hmem)
  · intro j hmem
    rw [hj.accepted]
    rcases hcases j (hlist ▸ hmem) with rfl | hmem
    · rw [hj.serial]
      exact Nat.lt_succ_self _
    · have hserial : (s'.pool j).serial = (s.pool j).serial := congrArg Task.serial (hj.task j hmem)
      rw [hserial]
      exact (h.serial j hmem).trans (Nat.lt_succ_self _)

/-- A delayed task that is accepted is not due at the same time as the first task of the list. -/
def Untied (s : State n φ δ) : Op φ δ → Prop
  | .addDelayed fn _ delayMs => fn.isSome = true → s.alloc.isSome = true →
      ∀ h, s.head .delayed = some h → (s.pool h).time ≠ State.ticks s.system.clock + delayMs
  | _ => True

theorem eq_of_ticks {a b : ℕ} (h : a < b + 2 ^ 31) (h' : b < a + 2 ^ 31)
    (ht : State.ticks a = State.ticks b) : a = b := by
  have hdiff := diff_ticks h h'.le
  rw [ht, State.diff, BitVec.sub_self, BitVec.toInt_zero] at hdiff
  omega

theorem Window.subset {l l' : List (Task φ δ)} (h : Window l') (hs : l.Sublist l') : Window l :=
  fun a ha b hb => h a (hs.subset ha) b (hs.subset hb)

/-- The first delayed task. -/
theorem Timed.head (h : Timed s L) : (delayedTasks s L).head? = (s.head .delayed).map s.task := by
  rw [delayedTasks, List.head?_map, (h.laid.chain .delayed (h.not_suspended _)).head_eq]

/-- The task that is added ties with the first one if it is due at the same time. -/
theorem Timed.untied_iff (h : Timed s L) {l₁ l₂ : List (Fin n)} {fn : Option φ} {data : Option δ}
    {delayMs : BitVec 32} (hj : Joined s s' L i l₁ l₂ (s.system.clock + delayMs.toNat))
    (hfn : fn.isSome = true) (ha : s.alloc.isSome = true)
    (hw : Window (delayedTasks s' ((L.setList .delayed (l₁ ++ i :: l₂)).setHand []))) :
    Untied s (.addDelayed fn data delayMs) ↔
      ∀ a ∈ (delayedTasks s L).head?, a.due ≠ (s'.task i).due := by
  obtain ⟨-, hsame, hadded⟩ := h.join hj
  have hdue : (s'.task i).due = s.system.clock + delayMs.toNat := hj.due
  have hiff : ∀ k, s.head .delayed = some k →
      ((s.pool k).time = State.ticks s.system.clock + delayMs ↔
        (s.task k).due = (s'.task i).due) := by
    intro k hk
    have hmem : k ∈ L.lists .delayed := by
      rw [(h.laid.chain .delayed (h.not_suspended _)).head_eq] at hk
      exact List.mem_of_mem_head? hk
    have htask := hsame.sublist.subset (List.mem_map_of_mem (f := s.task) hmem)
    obtain ⟨m₁, m₂, -, htasks, -⟩ := hadded
    have hnew : s'.task i ∈ delayedTasks s' ((L.setList .delayed (l₁ ++ i :: l₂)).setHand []) := by
      rw [htasks]
      exact List.mem_append_right _ List.mem_cons_self
    rw [h.time k hmem, ticks_add, hdue]
    constructor
    · have hlt := hw _ htask _ hnew
      have hgt := hw _ hnew _ htask
      rw [hdue] at hlt hgt
      exact eq_of_ticks hlt hgt
    · exact fun he => congrArg State.ticks he
  constructor
  · intro hu a hmem
    rw [h.head, Option.mem_map] at hmem
    obtain ⟨k, hk, rfl⟩ := hmem
    exact fun he => hu hfn ha k hk ((hiff k hk).mpr he)
  · intro hu _ _ k hk he
    refine hu (s.task k) ?_ ((hiff k hk).mp he)
    rw [h.head, hk]
    rfl

section Adds

variable [DecidableEq φ] [DecidableEq δ]

/-- Every task that is added keeps to a condition on the state it is added in. -/
def UntiedAlong (w : φ) (s : State n φ δ) (ops : List (Op φ δ)) : Prop :=
  Transition.Along (exec w) (fun s op => ∀ t, s = some t → Untied t op) (some s) ops

/-- Delayed tasks are added one after the other. -/
theorem Timed.adds (w : φ) (h : Timed s L) (adds : List (Add φ δ)) :
    ∃ s' L', (addOps adds).foldl (exec w) (some s) = some s' ∧ Timed s' L' ∧
      OnlyDelayed s s' L L' ∧
      (Window (delayedTasks s' L') → Ordered.Sorted Task.due (delayedTasks s L) →
        Ordered.Sorted Task.due (delayedTasks s' L') ∧
        (Ordered.Stable Task.due Task.serial (delayedTasks s L) →
          (Ordered.Stable Task.due Task.serial (delayedTasks s' L') ↔
            UntiedAlong w s (addOps adds)))) := by
  induction adds generalizing s L with
  | nil =>
    exact ⟨s, L, rfl, h, .refl s L, fun _ hs => ⟨hs, fun hst => iff_of_true hst trivial⟩⟩
  | cons a adds ih =>
    let s₁ : State n φ δ := { s with system.clock := s.system.clock + a.ms }
    have h₁ : Timed s₁ L := h.elapse a.ms
    have halong : ∀ s₂, s₁.addDelayed a.fn a.data a.delayMs = some s₂ →
        (UntiedAlong w s (addOps (a :: adds)) ↔
          Untied s₁ (.addDelayed a.fn a.data a.delayMs) ∧ UntiedAlong w s₂.2 (addOps adds)) := by
      intro s₂ hs₂
      have hexec : exec w (some s₁) (.addDelayed a.fn a.data a.delayMs) = some s₂.2 := by
        change (s₁.addDelayed a.fn a.data a.delayMs).map Prod.snd = _
        rw [hs₂]
        rfl
      change (∀ t, some s = some t → True) ∧
        ((∀ t, some s₁ = some t → Untied t (.addDelayed a.fn a.data a.delayMs)) ∧
          Transition.Along (exec w) _ (exec w (some s₁) (.addDelayed a.fn a.data a.delayMs)) _) ↔ _
      rw [hexec]
      constructor
      · exact fun hall => ⟨hall.2.1 s₁ rfl, hall.2.2⟩
      · exact fun hall => ⟨fun _ _ => trivial, fun t ht => Option.some.inj ht ▸ hall.1, hall.2⟩
    have hfold : ∀ s₂, s₁.addDelayed a.fn a.data a.delayMs = some s₂ →
        (addOps (a :: adds)).foldl (exec w) (some s) =
          (addOps adds).foldl (exec w) (some s₂.2) := by
      intro s₂ hs₂
      change (addOps adds).foldl (exec w)
        ((s₁.addDelayed a.fn a.data a.delayMs).map Prod.snd) = _
      rw [hs₂]
      rfl
    by_cases haccept : a.fn.isSome = true ∧ s₁.alloc.isSome = true
    · obtain ⟨hfn, ha⟩ := haccept
      obtain ⟨f, hf⟩ := Option.isSome_iff_exists.mp hfn
      obtain ⟨s₂, i, l₁, l₂, hadd, hj⟩ := h₁.joined f a.data a.delayMs ha
      rw [← hf] at hadd
      obtain ⟨h₂, hsame, hadded⟩ := h₁.join hj
      obtain ⟨s', L', hrun, h', hsame', horder⟩ := ih h₂
      refine ⟨s', L', (hfold _ hadd).trans hrun, h', ?_, ?_⟩
      · exact OnlyDelayed.trans ⟨hsame.lists, hsame.ran, hsame.lock, hsame.lastMs, hsame.sublist⟩
          hsame'
      · intro hw hs
        have hw₂ := hw.subset hsame'.sublist
        have hinserted := hadded.inserted hw₂
        obtain ⟨hs', hiff⟩ := horder hw (hinserted.sorted hs)
        refine ⟨hs', fun hst => ?_⟩
        rw [halong _ hadd, h₁.untied_iff hj hfn ha hw₂]
        have hlast : ∀ b ∈ delayedTasks s L, b.serial < (s₂.task i).serial := by
          intro b hb
          obtain ⟨j, hmem, rfl⟩ := List.mem_map.mp hb
          have hserial : (s₂.task i).serial = s.history.accepted.length := hj.serial
          rw [hserial]
          exact h.serial j hmem
        by_cases htie : ∀ b ∈ (delayedTasks s₁ L).head?, b.due ≠ (s₂.task i).due
        · rw [hiff (hinserted.stable hs hst hlast htie)]
          exact (and_iff_right htie).symm
        · push Not at htie
          obtain ⟨b, hb, hdue⟩ := htie
          have hunstable : ¬ Ordered.Stable Task.due Task.serial (delayedTasks s₂ _) :=
            hinserted.not_stable hb (hlast b (List.mem_of_mem_head? hb)) hdue
          apply iff_of_false
          · exact fun hstable => hunstable (List.Pairwise.sublist hsame'.sublist hstable)
          · exact fun hall => hall.1 b hb hdue
    · have hadd : s₁.addDelayed a.fn a.data a.delayMs = some (false, s₁) := by
        cases hf : a.fn with
        | none => rfl
        | some f =>
          cases ha : s₁.alloc with
          | none => rw [State.addDelayed, ha]
          | some found => exact absurd ⟨by rw [hf]; rfl, by rw [ha]; rfl⟩ haccept
      obtain ⟨s', L', hrun, h', hsame', horder⟩ := ih h₁
      refine ⟨s', L', (hfold _ hadd).trans hrun, h', ?_, ?_⟩
      · exact ⟨hsame'.lists, hsame'.ran, hsame'.lock, hsame'.lastMs, hsame'.sublist⟩
      · intro hw hs
        obtain ⟨hs', hiff⟩ := horder hw hs
        refine ⟨hs', fun hst => ?_⟩
        rw [hiff hst, halong _ hadd]
        exact (and_iff_right fun hfn ha => absurd ⟨hfn, ha⟩ haccept).symm

theorem foldl_ret_of_idle (w : φ) (hs : s.frames = []) (k : ℕ) :
    (List.replicate k .ret).foldl (exec w) (some s) = some s := by
  induction k with
  | zero => rfl
  | succ k ih =>
    have hret : exec w (some s) .ret = some s := by
      change s.ret = _
      rw [State.ret, hs]
    rw [List.replicate_succ, List.foldl_cons, hret, ih]

/-- The tasks of a list that are run in a tick. -/
def dueAt (now : ℕ) (l : List (Task φ δ)) : List (Task φ δ) :=
  l.takeWhile fun t => State.diff (State.ticks t.due) (State.ticks now) ≤ 0

omit [DecidableEq φ] [DecidableEq δ] in
/-- The first delayed task has been started. -/
theorem Timed.begin (h : Timed s L) {l : List (Fin n)} (hl : L.lists .delayed = i :: l) :
    Timed ((s.setHead .delayed (s.next i)).beginRun .delayed i)
        ((L.setList .delayed l).setHand []) ∧
      delayedTasks ((s.setHead .delayed (s.next i)).beginRun .delayed i)
        ((L.setList .delayed l).setHand []) = l.map s.task := by
  have hunlink := (h.laid.unlink h.hand (h.not_suspended .delayed) (k := []) hl).2
  have hnodup := L.nodup_list h.laid.nodup .delayed
  rw [hl] at hnodup
  have hpool : ∀ j ∈ l, ((s.setHead .delayed (s.next i)).beginRun .delayed i).pool j = s.pool j :=
    fun j hj => beginRun_pool fun he => (List.nodup_cons.mp hnodup).1 (he ▸ hj)
  have hlist : ((L.setList .delayed l).setHand []).lists .delayed = l := by
    rw [Layout.setHand_lists, Layout.setList_self]
  have hmem : ∀ j ∈ l, j ∈ L.lists .delayed := fun j hj => hl ▸ List.mem_cons_of_mem i hj
  have hlaid := hunlink.free (i := i) (m := []) rfl
  refine ⟨⟨⟨hlaid.chain, hlaid.stale, hlaid.locals, hlaid.nodup, hlaid.allocated, hlaid.lastFreed⟩,
    rfl, h.frames, ?_, ?_⟩, ?_⟩
  · intro j hj
    rw [hlist] at hj
    rw [hpool j hj]
    exact h.time j (hmem j hj)
  · intro j hj
    rw [hlist] at hj
    rw [hpool j hj]
    exact h.serial j (hmem j hj)
  · rw [delayedTasks, hlist]
    apply List.map_congr_left
    intro j hj
    simp only [State.task, hpool j hj]

/-- The loop over delayed tasks, where every task returns at once. -/
theorem Timed.drain (w : φ) (h : Timed s L) (now : ℕ) {k : ℕ}
    (hk : (dueAt now (delayedTasks s L)).length ≤ k) :
    ∃ s', (List.replicate k .ret).foldl (exec w) (s.executeDelayed now) = some s' ∧
      s'.history.ran = ((dueAt now (delayedTasks s L)).map
        fun t => ⟨.delayed, t, s.system.clock⟩).reverse ++ s.history.ran := by
  generalize hl : L.lists .delayed = l
  induction l generalizing s L k with
  | nil =>
    have hhead : s.head .delayed = none := by
      rw [(h.laid.chain .delayed (h.not_suspended _)).head_eq, hl]
      rfl
    refine ⟨s.setLock false, ?_, ?_⟩
    · have hexecute : s.executeDelayed now = some (s.setLock false) := by
        rw [State.executeDelayed, hhead]
      rw [hexecute]
      exact foldl_ret_of_idle (s := s.setLock false) w h.frames k
    · rw [delayedTasks, hl]
      rfl
  | cons i l ih =>
    have hhead : s.head .delayed = some i := by
      rw [(h.laid.chain .delayed (h.not_suspended _)).head_eq, hl]
      rfl
    have htasks : delayedTasks s L = s.task i :: l.map s.task := by
      rw [delayedTasks, hl, List.map_cons]
    have htime : (s.pool i).time = State.ticks (s.task i).due :=
      h.time i (by rw [hl]; exact List.mem_cons_self)
    by_cases hdue : State.diff (State.ticks (s.task i).due) (State.ticks now) ≤ 0
    · have hstep : dueAt now (delayedTasks s L) = s.task i :: dueAt now (l.map s.task) := by
        rw [htasks]
        exact List.takeWhile_cons_of_pos (decide_eq_true hdue)
      obtain ⟨k, rfl⟩ : ∃ c, k = c + 1 := ⟨k - 1, by rw [hstep, List.length_cons] at hk; omega⟩
      let s₁ := (s.setHead .delayed (s.next i)).beginRun .delayed i
      obtain ⟨h₁, htasks₁⟩ := h.begin hl
      have hlist₁ : ((L.setList .delayed l).setHand []).lists .delayed = l := by
        rw [Layout.setHand_lists, Layout.setList_self]
      have hfn : (s.pool i).fn.isSome = true :=
        (h.laid.allocated i).mpr (L.mem_all_of_list (by rw [hl]; exact List.mem_cons_self))
      have hexecute : s.executeDelayed now = some (s₁.pushFrame (.delayed now)) := by
        have hunlink : s.unlinkDelayed i = some (s.setHead .delayed (s.next i)) := by
          rw [State.unlinkDelayed, hhead]
          exact if_pos rfl
        have hrun : (s.setHead .delayed (s.next i)).taskRun .delayed i =
            some ((s.setHead .delayed (s.next i)).next i, s₁) := if_pos hfn
        rw [State.executeDelayed, hhead]
        simp only [htime, if_pos hdue, hunlink, hrun, Option.bind_eq_bind, Option.bind_some]
        rfl
      have hret : exec w (some (s₁.pushFrame (.delayed now))) .ret = s₁.executeDelayed now := rfl
      rw [hstep, List.length_cons] at hk
      obtain ⟨s', hs', hran⟩ := ih h₁ (k := k) (by rw [htasks₁]; exact Nat.le_of_succ_le_succ hk)
        hlist₁
      refine ⟨s', ?_, ?_⟩
      · rw [hexecute, List.replicate_succ, List.foldl_cons, hret, hs']
      · rw [hran, htasks₁, hstep, List.map_cons, List.reverse_cons, List.append_assoc]
        rfl
    · have hstep : dueAt now (delayedTasks s L) = [] := by
        rw [htasks]
        exact List.takeWhile_cons_of_neg (by rw [decide_eq_true_eq]; exact hdue)
      refine ⟨s.setLock false, ?_, by rw [hstep]; rfl⟩
      have hexecute : s.executeDelayed now = some (s.setLock false) := by
        rw [State.executeDelayed, hhead]
        exact if_neg (htime ▸ hdue)
      rw [hexecute]
      exact foldl_ret_of_idle (s := s.setLock false) w h.frames k

/-- Some time passes, and `task_execute` is called; every task returns at once. -/
def runOps (n : ℕ) (ms : ℕ) : List (Op φ δ) := .elapse ms :: .execute :: List.replicate n .ret

/-- The tasks that a call of `task_execute` runs. -/
def runs (w : φ) (s : State n φ δ) (ms : ℕ) : List (Task φ δ) :=
  ((runOps n ms).foldl (exec w) (some s)).elim [] fun s' =>
    ((s'.history.ran.take (s'.history.ran.length - s.history.ran.length)).map Run.task).reverse

/-- A call of `task_execute` runs the delayed tasks that are due, unless it has been called in the
same tick before. -/
theorem Timed.runs_eq (w : φ) (h : Timed s L) (hlock : s.lock = false)
    (himmediate : L.lists .immediate = []) (hsystick : L.lists .systick = []) (ms : ℕ) :
    ∃ s', (runOps n ms).foldl (exec w) (some s) = some s' ∧
      runs w s ms = if State.ticks (s.system.clock + ms) = s.lastMs then []
        else dueAt (s.system.clock + ms) (delayedTasks s L) := by
  let s₁ : State n φ δ := { s with system.clock := s.system.clock + ms }
  let now := s.system.clock + ms
  have hhead : ∀ q, L.lists q = [] → s.head q = none := by
    intro q hq
    rw [(h.laid.chain q (h.not_suspended q)).head_eq, hq]
    rfl
  have hexecute : s₁.execute = s₁.executeTick := by
    apply if_neg
    rintro ⟨hsome, -⟩
    rw [show s₁.head .immediate = none from hhead _ himmediate] at hsome
    cases hsome
  have hruns : ∀ s' E, (runOps n ms).foldl (exec w) (some s) = some s' →
      s'.history.ran = (E.map fun t => ⟨.delayed, t, now⟩).reverse ++ s.history.ran →
      runs w s ms = E := by
    intro s' E hs' hran
    rw [runs, hs']
    simp only [Option.elim_some, hran, List.length_append, Nat.add_sub_cancel]
    rw [List.take_left' rfl, ← List.map_reverse, List.reverse_reverse, List.map_map]
    exact List.map_id E
  have hops : (runOps n ms).foldl (exec w) (some s) =
      (List.replicate n .ret).foldl (exec w) s₁.executeTick := by
    rw [← hexecute]
    rfl
  by_cases hskip : State.ticks now = s.lastMs ∨ s.head .delayed = s.head .systick
  · have htick : s₁.executeTick = some s₁ := by
      unfold State.executeTick
      rw [if_neg (show ¬ s₁.lock = true by rw [show s₁.lock = false from hlock]; nofun)]
      exact if_pos hskip
    have hrun : (runOps n ms).foldl (exec w) (some s) = some s₁ := by
      rw [hops, htick]
      exact foldl_ret_of_idle (s := s₁) w h.frames n
    refine ⟨s₁, hrun, ?_⟩
    rw [hruns s₁ [] hrun rfl]
    split_ifs with hms
    · rfl
    · have hnone := (hskip.resolve_left hms).trans (hhead _ hsystick)
      rw [(h.laid.chain .delayed (h.not_suspended _)).head_eq, List.head?_eq_none_iff] at hnone
      rw [delayedTasks, hnone]
      rfl
  · obtain ⟨hms, hne⟩ := not_or.mp hskip
    let s₂ : State n φ δ := { s₁ with lock := true, lastMs := State.ticks now, history.ticked := [] }
    have h₂ : Timed s₂ L :=
      ⟨⟨h.laid.chain, h.laid.stale, h.laid.locals, h.laid.nodup, h.laid.allocated,
        h.laid.lastFreed⟩, h.hand, h.frames, h.time, h.serial⟩
    have htick : s₁.executeTick = s₂.executeDelayed now := by
      unfold State.executeTick
      rw [if_neg (show ¬ s₁.lock = true by rw [show s₁.lock = false from hlock]; nofun)]
      refine (if_neg hskip).trans ?_
      rw [show s₁.head .systick = none from hhead _ hsystick]
      rfl
    have hlength : (dueAt now (delayedTasks s₂ L)).length ≤ n := by
      have hcard := (L.nodup_list h.laid.nodup .delayed).length_le_card
      rw [Fintype.card_fin] at hcard
      apply (List.takeWhile_prefix _).length_le.trans
      rw [delayedTasks, List.length_map]
      exact hcard
    obtain ⟨s', hs', hran⟩ := h₂.drain w now hlength
    have hrun := (hops.trans (by rw [htick])).trans hs'
    refine ⟨s', hrun, ?_⟩
    rw [if_neg hms]
    exact hruns s' _ hrun hran

/-- All tasks are run at some time. -/
theorem Timed.exists_runs (w : φ) (h : Timed s L) (hlock : s.lock = false)
    (himmediate : L.lists .immediate = []) (hsystick : L.lists .systick = [])
    (hw : Window (delayedTasks s L)) : ∃ ms, runs w s ms = delayedTasks s L := by
  -- A count from which no task is far, and whose time is not that of the last tick.
  obtain ⟨top, htop, hms⟩ : ∃ top, (∀ t ∈ delayedTasks s L, t.due ≤ top ∧ top ≤ t.due + 2 ^ 31) ∧
      State.ticks top ≠ s.lastMs := by
    obtain ⟨m, hm⟩ : ∃ m, ∀ t ∈ delayedTasks s L, t.due ≤ m ∧ m < t.due + 2 ^ 31 := by
      cases hl : delayedTasks s L with
      | nil => exact ⟨0, fun t => nofun⟩
      | cons a l =>
        rw [hl] at hw
        cases hb : (a :: l).argmax Task.due with
        | none => exact absurd (List.argmax_eq_none.mp hb) (List.cons_ne_nil a l)
        | some b =>
          have hmem : b ∈ a :: l := List.argmax_mem hb
          exact ⟨b.due, fun t ht => ⟨List.le_of_mem_argmax ht hb, hw b hmem t ht⟩⟩
    by_cases hms : State.ticks m = s.lastMs
    · refine ⟨m + 1, fun t ht => ?_, ?_⟩
      · obtain ⟨hle, hlt⟩ := hm t ht
        omega
      · intro he
        have heq := eq_of_ticks (a := m + 1) (b := m) (by omega) (by omega) (he.trans hms.symm)
        omega
    · refine ⟨m, fun t ht => ?_, hms⟩
      obtain ⟨hle, hlt⟩ := hm t ht
      omega
  let ms := top + 2 ^ 32 * s.system.clock - s.system.clock
  have hnow : s.system.clock + ms = top + 2 ^ 32 * s.system.clock := by
    simp only [ms]
    omega
  have hticks : State.ticks (s.system.clock + ms) = State.ticks top := by
    rw [hnow]
    apply BitVec.eq_of_toNat_eq
    simp only [State.ticks, BitVec.toNat_ofNat]
    omega
  obtain ⟨-, -, hruns⟩ := h.runs_eq w hlock himmediate hsystick ms
  refine ⟨ms, ?_⟩
  rw [hruns, hticks, if_neg hms]
  apply List.takeWhile_eq_self_iff.mpr
  intro t ht
  apply decide_eq_true
  rw [hticks]
  obtain ⟨hle, hlt⟩ := htop t ht
  rw [diff_ticks (by omega) hlt]
  omega

/-- Delayed tasks are added one after the other to a list that is in order, and their due times are
less than half the range of ticks apart. The list is in the order of their times, and whenever
`task_execute` is called it runs those that are due in that order. Tasks that are due at the same
time always run in the order they were added if and only if none of them is added while the first
task of the list is due at that time. -/
theorem delayed_order (w : φ) (s : State n φ δ) (L : Layout n) (h : Timed s L)
    (hlock : s.lock = false) (himmediate : L.lists .immediate = [])
    (hsystick : L.lists .systick = []) (hsorted : Ordered.Sorted Task.due (delayedTasks s L))
    (hstable : Ordered.Stable Task.due Task.serial (delayedTasks s L)) (adds : List (Add φ δ)) :
    ∃ s' L', (addOps adds).foldl (exec w) (some s) = some s' ∧ Timed s' L' ∧
      (Window (delayedTasks s' L') →
        (L'.lists .delayed).Pairwise
          (fun i j => State.diff (s'.pool i).time (s'.pool j).time ≤ 0) ∧
        (∀ ms, State.ticks (s'.system.clock + ms) ≠ s'.lastMs →
          runs w s' ms = dueAt (s'.system.clock + ms) (delayedTasks s' L')) ∧
        (∀ ms, Ordered.Sorted Task.due (runs w s' ms)) ∧
        ((∀ ms, Ordered.Stable Task.due Task.serial (runs w s' ms)) ↔
          UntiedAlong w s (addOps adds))) := by
  obtain ⟨s', L', hrun, h', hsame, horder⟩ := h.adds w adds
  refine ⟨s', L', hrun, h', fun hw => ?_⟩
  obtain ⟨hs', hiff⟩ := horder hw hsorted
  have hruns := h'.runs_eq w (hsame.lock.trans hlock)
    ((hsame.lists .immediate nofun).trans himmediate) ((hsame.lists .systick nofun).trans hsystick)
  have hruns_le : ∀ ms, runs w s' ms <+: delayedTasks s' L' := by
    intro ms
    obtain ⟨-, -, he⟩ := hruns ms
    rw [he]
    split_ifs
    · exact List.nil_prefix
    · exact List.takeWhile_prefix _
  refine ⟨?_, ?_, ?_, ?_⟩
  · have hpairs := List.pairwise_map.mp hs'
    refine List.Pairwise.imp_of_mem ?_ hpairs
    intro i j hi hj hle
    have hi' := List.mem_map_of_mem (f := s'.task) hi
    have hj' := List.mem_map_of_mem (f := s'.task) hj
    have hdiff := diff_ticks (hw _ hi' _ hj') (hw _ hj' _ hi').le
    rw [h'.time i hi, h'.time j hj]
    have hdue : ((s'.task i).due : ℤ) ≤ (s'.task j).due := Int.ofNat_le.mpr hle
    change State.diff (State.ticks (s'.task i).due) (State.ticks (s'.task j).due) ≤ 0
    omega
  · intro ms hms
    obtain ⟨-, -, he⟩ := hruns ms
    rw [he, if_neg hms]
  · exact fun ms => List.Pairwise.sublist (hruns_le ms).sublist hs'
  · rw [← hiff hstable]
    constructor
    · intro hall
      obtain ⟨ms, he⟩ := h'.exists_runs w (hsame.lock.trans hlock)
        ((hsame.lists .immediate nofun).trans himmediate)
        ((hsame.lists .systick nofun).trans hsystick) hw
      rw [← he]
      exact hall ms
    · exact fun hst ms => List.Pairwise.sublist (hruns_le ms).sublist hst

end Adds

/-- The second task is due before the first one. -/
def crossed : List (Add ℕ ℕ) := [⟨0, some 0, none, 5⟩, ⟨1, some 1, none, 2⟩]

theorem delayed_order_crossed : ∃ s' L',
    (addOps crossed).foldl (exec 9) (some started) = some s' ∧ Timed s' L' ∧
      (Window (delayedTasks s' L') →
        (L'.lists .delayed).Pairwise
          (fun i j => State.diff (s'.pool i).time (s'.pool j).time ≤ 0) ∧
        (∀ ms, State.ticks (s'.system.clock + ms) ≠ s'.lastMs →
          runs 9 s' ms = dueAt (s'.system.clock + ms) (delayedTasks s' L')) ∧
        (∀ ms, Ordered.Sorted Task.due (runs 9 s' ms)) ∧
        ((∀ ms, Ordered.Stable Task.due Task.serial (runs 9 s' ms)) ↔
          UntiedAlong 9 started (addOps crossed))) := by
  have hfresh : Fresh started := ⟨fun _ => rfl, fun _ => rfl, rfl, rfl, rfl, rfl⟩
  exact delayed_order 9 started _ (hfresh.valid.timed rfl) rfl rfl rfl .nil .nil crossed

/-- Two tasks that are due at the same time. -/
def tied : List (Add ℕ ℕ) := [⟨0, some 0, none, 1⟩, ⟨0, some 1, none, 1⟩]

/-- The task that is added last runs first. -/
theorem not_delayed_order :
    ((addOps tied).foldl (exec 9) (some started)).map (fun s =>
      s.history.accepted.reverse.map fun t => (t.fn, t.due)) = some [(some 0, 1), (some 1, 1)] ∧
    ((addOps tied).foldl (exec 9) (some started)).map (fun s =>
      (runs 9 s 1).map fun t => (t.fn, t.due)) = some [(some 1, 1), (some 0, 1)] := by
  refine ⟨?_, ?_⟩ <;> decide

end Tasks

end Inspector
