import Inspector.Tasks.Startup
import Inspector.Transition.Run

/-! # Integrity of the scheduler

In every run of operations, also of those called from running tasks, no task is lost or run twice,
no delayed task runs before it is due, and every tick runs every systick task once, as long as a few
calls are not made from the wrong tasks.
-/

namespace Inspector

namespace Tasks

variable {n : ℕ} {φ δ : Type*} {s s' : State n φ δ} {L L' : Layout n} {q : Queue} {i : Fin n}

namespace Valid

/-- Time passes and the surroundings change. -/
theorem setSystem (h : Valid s L) (system : System) (hclock : s.system.clock ≤ system.clock) :
    Valid { s with system := system } L := by
  have hhorizon : s.horizon ≤ ({ s with system := system } : State n φ δ).horizon ∧
      ({ s with system := system } : State n φ δ).horizon ≤ system.clock := by
    have hle := h.kept.clock
    unfold State.horizon at hle ⊢
    dsimp only
    cases hf : s.frames.filterMap Frame.now? with
    | nil => exact ⟨hclock, Nat.le_refl _⟩
    | cons now fs =>
      rw [hf] at hle
      exact ⟨Nat.le_refl _, hle.trans hclock⟩
  have hk := h.kept
  have hk' : Kept { s with system := system } L s.horizon :=
    ⟨⟨hk.laid.chain, hk.laid.stale, hk.laid.locals, hk.laid.nodup, hk.laid.allocated,
      hk.laid.lastFreed⟩, hk.conserved, hk.serials, hk.due, hk.ran, hk.clock.trans hclock,
      hk.nodup_ticked, hk.ticked⟩
  exact ⟨h.hand, hk'.mono hhorizon.1 hhorizon.2, h.walk,
    ⟨h.control.ticks, h.control.startup, h.control.queues⟩⟩

end Valid

variable [DecidableEq φ] [DecidableEq δ]

/-- What has to hold where an operation is called. A delayed task is due less than half the range of
ticks from now, or from the tick that is being executed. A task that runs after a reset or after
booting does not add another one like it, and does not start the loop again that runs it. A systick
task does not delete itself, also not through what it calls. When the driver has not been started,
the systick tasks to be cleared have no data. -/
def Guarded (s : State n φ δ) : Op φ δ → Prop
  | .addDelayed _ _ delayMs => s.system.clock + delayMs.toNat < s.horizon + 2 ^ 31
  | .runOnReset _ _ => s.system.coldStart = false → ¬ Suspended s.frames .onReset
  | .runOnStartup _ _ => s.system.coldStart = true → ¬ Suspended s.frames .onBooted
  | .deleteSystick fn data => ∀ i now, .systick i now ∈ s.frames → s.firstSystick fn data ≠ some i
  | .executeOnStartup => (∀ q, ¬ Suspended s.frames q) ∧ (s.system.driverStarted = false →
      ¬ Ticking s ∧ ∀ l, Linked.Chain s.next (s.head .systick) l → ∀ i ∈ l, (s.pool i).data = none)
  | _ => True

omit [DecidableEq φ] [DecidableEq δ] in
theorem ticking_mono (h : s.frames ⊆ s'.frames) : Ticking s → Ticking s' := by
  rintro ⟨i, now, hi⟩
  exact ⟨i, now, h hi⟩

/-- What an operation comes to. -/
def Steps (w : φ) (s : State n φ δ) (op : Op φ δ) : Prop :=
  ∃ s' L', s.step w op = some s' ∧ Valid s' L' ∧ (Ticking s → ¬ Ticking s' → AllTicked s' L')

theorem steps_of_frames {w : φ} {op : Op φ δ} (hs : s.step w op = some s') (hv : Valid s' L')
    (hframes : s.frames ⊆ s'.frames) : Steps w s op :=
  ⟨s', L', hs, hv, fun ht hnt => absurd (ticking_mono hframes ht) hnt⟩

theorem steps_of_add {w : φ} {op : Op φ δ} {add : Option (Bool × State n φ δ)}
    (hop : s.step w op = add.map Prod.snd)
    (h : ∃ ok s' L', add = some (ok, s') ∧ Valid s' L' ∧ s'.frames = s.frames) : Steps w s op := by
  obtain ⟨ok, s', L', ha, hv, hframes⟩ := h
  exact steps_of_frames (by rw [hop, ha]; rfl) hv (hframes ▸ List.Subset.refl _)

theorem steps_of_remove {w : φ} {op : Op φ δ} {p : Fin n → Bool} (h : Valid s L)
    (hop : s.step w op = s.remove q p) (hq : ¬ Suspended s.frames q)
    (hp : q = .systick → ∀ l₁ i l₂, L.lists q = l₁ ++ i :: l₂ → (∀ j ∈ l₁, p j = false) →
      p i = true → ∀ now, .systick i now ∉ s.frames) : Steps w s op := by
  obtain ⟨s', L', hr, hv, hframes, -⟩ := h.remove hq p hp
  exact steps_of_frames (hop.trans hr) hv (hframes ▸ List.Subset.refl _)

omit [DecidableEq φ] [DecidableEq δ] in
theorem find_of_first {p : Fin n → Bool} {l₁ l₂ : List (Fin n)} (hi : p i = true)
    (hbefore : ∀ j ∈ l₁, p j = false) : (l₁ ++ i :: l₂).find? p = some i := by
  rw [List.find?_append, List.find?_cons_of_pos hi,
    List.find?_eq_none.mpr fun j hj => by rw [hbefore j hj]; exact Bool.false_ne_true]
  rfl

/-- A valid state stays valid. -/
theorem Valid.step (w : φ) (h : Valid s L) {op : Op φ δ} (hg : Guarded s op) : Steps w s op := by
  have hfree : ∀ q, q ≠ .onBooted → q ≠ .onReset → ¬ Suspended s.frames q := fun q =>
    h.control.not_suspended
  cases op with
  | addImmediate fn data =>
    exact steps_of_add rfl (h.enqueue (hfree .immediate nofun nofun) nofun fn data)
  | addDelayed fn data delayMs => exact steps_of_add rfl (h.addDelayed fn data delayMs hg)
  | addSystick fn data =>
    exact steps_of_add rfl (h.enqueue (hfree .systick nofun nofun) nofun fn data)
  | runOnReset fn data =>
    apply steps_of_add rfl
    cases hcold : s.system.coldStart with
    | true => exact ⟨false, s, L, by rw [State.runOnReset, hcold]; rfl, h, rfl⟩
    | false =>
      rw [State.runOnReset, hcold]
      exact h.enqueue (hg hcold) nofun fn data
  | runOnStartup fn data =>
    apply steps_of_add rfl
    cases hcold : s.system.coldStart with
    | true =>
      rw [State.runOnStartup, hcold]
      exact h.enqueue (hg hcold) nofun fn data
    | false =>
      rw [State.runOnStartup, hcold]
      exact h.enqueue (hfree .immediate nofun nofun) nofun fn data
  | delete fn data => exact steps_of_remove h rfl (hfree .delayed nofun nofun) nofun
  | deleteSystick fn data =>
    have hq := hfree .systick nofun nofun
    apply steps_of_remove h rfl hq
    rintro - l₁ i l₂ hl hbefore hi now hmem
    apply hg i now hmem
    rw [State.firstSystick, Linked.search_find _ (h.kept.laid.chain _ hq) (h.length_le _), hl]
    exact find_of_first hi hbefore
  | execute =>
    obtain ⟨s', L', he, hv, hframes⟩ := h.execute
    exact steps_of_frames he hv hframes
  | executeOnStartup =>
    have hnone : s.frames.countP Frame.isStartup = 0 := by
      rw [List.countP_eq_zero]
      rintro f hf hstartup
      cases f with
      | startup q v => exact hg.1 q ⟨v, hf⟩
      | immediate | systick | delayed | forever => cases hstartup
    obtain ⟨s', L', he, hv, hframes⟩ := h.executeOnStartup w hnone fun hd =>
      ⟨(hg.2 hd).2 _ (h.kept.laid.chain _ (hfree .systick nofun nofun)), (hg.2 hd).1⟩
    exact steps_of_frames he hv hframes
  | ret => exact h.ret
  | elapse ms =>
    exact steps_of_frames rfl (h.setSystem _ (Nat.le_add_right _ _)) (List.Subset.refl _)
  | system coldStart driverStarted linestateEvent =>
    exact steps_of_frames rfl (h.setSystem _ (Nat.le_refl _)) (List.Subset.refl _)

/-- One operation; there is nothing after a crash or a loop that does not end. -/
def exec (w : φ) (s : Option (State n φ δ)) (op : Op φ δ) : Option (State n φ δ) :=
  s.bind fun s => s.step w op

/-- The scheduler as it starts. -/
structure Fresh (s : State n φ δ) : Prop where
  head : ∀ q, s.head q = none
  pool : ∀ i, (s.pool i).fn = none
  lastFreed : s.lastFreed = none
  lock : s.lock = false
  frames : s.frames = []
  history : s.history = {}

omit [DecidableEq φ] [DecidableEq δ] in
theorem Fresh.valid (h : Fresh s) : Valid s ⟨[], fun _ => [], []⟩ := by
  have hall : (⟨[], fun _ => [], []⟩ : Layout n).all = [] := rfl
  have hnone : ∀ q, ¬ Suspended s.frames q := by
    rintro q ⟨v, hv⟩
    rw [h.frames] at hv
    cases hv
  have hhorizon : s.horizon = s.system.clock := by
    rw [State.horizon, h.frames]
    rfl
  refine ⟨rfl, ⟨⟨?_, fun q hq => rfl, ?_, List.nodup_nil, ?_, ?_⟩, ?_, ?_,
    List.forall_mem_nil _, ?_, ?_, ?_, ?_⟩, ?_,
    ⟨?_, ?_, fun q hq => absurd hq (hnone q)⟩⟩
  · exact fun q _ => Linked.chain_nil_iff.mpr (h.head q)
  · rw [h.frames]
    exact .nil
  · intro i
    rw [h.pool, hall]
    exact iff_of_false Bool.false_ne_true (List.not_mem_nil)
  · rw [h.lastFreed]
    exact fun _ hno => absurd hno (Option.some_ne_none _).symm
  · rw [h.history, hall]
    exact List.Perm.refl _
  · rw [h.history]
    rfl
  · rw [h.history]
    exact List.forall_mem_nil _
  · rw [hhorizon]
  · rw [h.history]
    exact List.nodup_nil
  · rw [h.history]
    exact List.forall_mem_nil _
  · rintro i now hi
    rw [h.frames] at hi
    cases hi
  · rw [h.frames, h.lock]
    rfl
  · rw [h.frames]
    exact Nat.zero_le _

/-- Every node is free or in exactly one list that ends. Every task that has been accepted has been
run once, or has been deleted, or is in one of the lists, and no other task has been run; a delayed
task has not been run before it was due. The last tick has run no task twice. -/
structure Sound (s : State n φ δ) (L : Layout n) : Prop where
  laid : Laid s L
  hand : L.hand = []
  conserved : s.history.accepted.Perm
    (s.history.ran.map Run.task ++ s.history.deleted ++ L.all.map s.task)
  once : ∀ t ∈ s.history.accepted, (s.history.ran.map Run.task).count t +
    s.history.deleted.count t + (L.all.map s.task).count t = 1
  due : ∀ r ∈ s.history.ran, r.queue = .delayed → r.task.due ≤ r.clock
  ticked : s.history.ticked.Nodup

/-- When a tick has run its systick tasks, all that are registered have been run once. -/
def TickComplete (w : φ) (s : Option (State n φ δ)) (op : Op φ δ) : Prop :=
  ∀ t t', s = some t → t.step w op = some t' → Ticking t → ¬ Ticking t' →
    ∀ l, Linked.Chain t'.next (t'.head .systick) l → ∀ i ∈ l,
      t'.history.ticked.count (t'.task i) = 1

theorem Valid.sound (h : Valid s L) : Sound s L := by
  refine ⟨h.kept.laid, h.hand, h.kept.conserved, ?_, h.kept.ran, h.kept.nodup_ticked⟩
  intro t ht
  have hcount := h.kept.conserved.count_eq t
  rw [List.count_append, List.count_append] at hcount
  rw [← hcount]
  exact List.count_eq_one_of_mem (List.Nodup.of_map _ h.kept.nodup_accepted) ht

/-- The driver has been started and the first reset is over. -/
def started : State 2 ℕ ℕ := { system := ⟨false, true, false, 0⟩ }

/-- A delayed task is added, and an immediate one that adds another one when it runs. -/
def tidy : List (Op ℕ ℕ) :=
  [.addDelayed (some 0) none 1, .addImmediate (some 1) none, .elapse 1, .execute,
    .addImmediate (some 2) none, .ret, .ret, .execute, .ret]

/-- A task that runs after a reset adds another one. -/
def addOnReset : List (Op ℕ ℕ) :=
  [.runOnReset (some 0) none, .executeOnStartup, .runOnReset (some 1) none, .ret]

/-- The first of two systick tasks deletes itself. -/
def deleteItself : List (Op ℕ ℕ) :=
  [.addSystick (some 0) none, .addSystick (some 1) none, .elapse 1, .execute,
    .deleteSystick (some 0) none, .ret]

end Tasks

end Inspector
