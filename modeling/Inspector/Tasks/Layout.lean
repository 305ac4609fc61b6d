import Mathlib.Data.List.Perm.Basic
import Mathlib.Data.List.FinRange
import Mathlib.Data.Fintype.Card
import Inspector.Tasks.Scheduler

/-! # Layout of the pool

In every state the nodes that are not free make up disjoint lists: those of the queues, those that
the loops of suspended calls still have to run, and the one a function works on.
-/

namespace Inspector

namespace Tasks

variable {n : ℕ} {φ δ : Type*}

/-- The nodes of the queues and of the loops of suspended calls, and those in hand. -/
structure Layout (n : ℕ) where
  hand : List (Fin n)
  lists : Queue → List (Fin n)
  locals : List (List (Fin n))

namespace Layout

variable (L : Layout n)

def queues : List Queue := [.immediate, .delayed, .systick, .onBooted, .onReset]

/-- The nodes of some queues. -/
def of (lists : Queue → List (Fin n)) (qs : List Queue) : List (Fin n) := qs.flatMap lists

/-- All nodes that are not free. -/
def all : List (Fin n) := L.hand ++ (of L.lists queues ++ L.locals.flatten)

/-- The nodes that are neither in hand nor in one of the queues. -/
def rest (q : Queue) : List (Fin n) :=
  of L.lists (queues.filter (· ≠ q)) ++ L.locals.flatten

def setList (q : Queue) (l : List (Fin n)) : Layout n :=
  { L with lists := Function.update L.lists q l }

def setHand (l : List (Fin n)) : Layout n := { L with hand := l }

theorem mem_queues (q : Queue) : q ∈ queues := by
  cases q <;> decide

theorem of_congr {lists lists' : Queue → List (Fin n)} {qs : List Queue}
    (h : ∀ q ∈ qs, lists' q = lists q) : of lists' qs = of lists qs := by
  induction qs with
  | nil => rfl
  | cons q qs ih =>
    rw [of, List.flatMap_cons, h q List.mem_cons_self]
    exact congrArg (lists q ++ ·) (ih fun r hr => h r (List.mem_cons_of_mem q hr))

theorem of_perm (lists : Queue → List (Fin n)) (q : Queue) :
    (of lists queues).Perm (lists q ++ of lists (queues.filter (· ≠ q))) := by
  have hcons : queues.Perm (q :: queues.filter (· ≠ q)) := by
    cases q <;> decide
  exact hcons.flatMap_right lists

/-- The nodes of one queue and the others. -/
theorem all_perm (q : Queue) : L.all.Perm (L.hand ++ (L.lists q ++ L.rest q)) := by
  rw [all, rest, ← List.append_assoc (L.lists q)]
  exact (((of_perm L.lists q).append_right _)).append_left _

@[simp] theorem setList_rest (q : Queue) (l : List (Fin n)) : (L.setList q l).rest q = L.rest q := by
  unfold rest setList
  rw [of_congr]
  intro r hr
  exact Function.update_of_ne (of_decide_eq_true (List.mem_filter.mp hr).2) l L.lists

@[simp] theorem setHand_rest (q : Queue) (l : List (Fin n)) : (L.setHand l).rest q = L.rest q := rfl

@[simp] theorem setHand_lists (l : List (Fin n)) : (L.setHand l).lists = L.lists := rfl

@[simp] theorem setList_self (q : Queue) (l : List (Fin n)) : (L.setList q l).lists q = l := by
  unfold setList
  exact Function.update_self q l L.lists

theorem setList_ne {q r : Queue} (h : r ≠ q) (l : List (Fin n)) :
    (L.setList q l).lists r = L.lists r := by
  unfold setList
  exact Function.update_of_ne h l L.lists

theorem all_setList_perm (q : Queue) (hand l : List (Fin n)) :
    ((L.setList q l).setHand hand).all.Perm ((hand ++ l) ++ L.rest q) := by
  have h := all_perm ((L.setList q l).setHand hand) q
  rwa [setHand_rest, setList_rest, setHand, setList_self, ← List.append_assoc] at h

theorem all_hand_perm (q : Queue) : L.all.Perm ((L.hand ++ L.lists q) ++ L.rest q) := by
  rw [List.append_assoc]
  exact L.all_perm q

theorem mem_all_of_list {q : Queue} {i : Fin n} (h : i ∈ L.lists q) : i ∈ L.all :=
  (L.all_perm q).mem_iff.mpr (List.mem_append_right _ (List.mem_append_left _ h))

theorem mem_rest_of_list {q r : Queue} (hqr : r ≠ q) {i : Fin n} (h : i ∈ L.lists r) :
    i ∈ L.rest q := by
  apply List.mem_append_left
  apply List.mem_flatMap.mpr
  exact ⟨r, List.mem_filter.mpr ⟨mem_queues r, decide_eq_true hqr⟩, h⟩

theorem mem_rest_of_local {q : Queue} {i : Fin n} (h : i ∈ L.locals.flatten) : i ∈ L.rest q :=
  List.mem_append_right _ h

theorem mem_all_of_local {i : Fin n} (h : i ∈ L.locals.flatten) : i ∈ L.all :=
  List.mem_append_right _ (List.mem_append_right _ h)

/-- No node is both in one queue and somewhere else. -/
theorem not_mem_of_rest (hn : L.all.Nodup) {q : Queue} {i : Fin n} (h : i ∈ L.rest q) :
    i ∉ L.hand ++ L.lists q := by
  rintro hq
  have hn' := (L.all_hand_perm q).nodup_iff.mp hn
  exact (List.nodup_append.mp hn').2.2 i hq i h rfl

theorem nodup_list (hn : L.all.Nodup) (q : Queue) : (L.lists q).Nodup := by
  have hn' := (L.all_perm q).nodup_iff.mp hn
  exact (List.nodup_append.mp (List.nodup_append.mp hn').2.1).1

end Layout

/-- The list is taken out of its queue while its tasks run. -/
def Suspended (frames : List (Frame n)) (q : Queue) : Prop := ∃ next, .startup q next ∈ frames

/-- The nodes that a loop still has to run. -/
def FrameChain (next : Fin n → Option (Fin n)) : Frame n → List (Fin n) → Prop
  | .immediate v, l => Linked.Chain next v l
  | .startup _ v, l => Linked.Chain next v l
  | _, l => l = []

/-- The pool is laid out in disjoint lists; a node is free when it is in none of them. -/
structure Laid (s : State n φ δ) (L : Layout n) : Prop where
  chain : ∀ q, ¬ Suspended s.frames q → Linked.Chain s.next (s.head q) (L.lists q)
  stale : ∀ q, Suspended s.frames q → L.lists q = []
  locals : List.Forall₂ (FrameChain s.next) s.frames L.locals
  nodup : L.all.Nodup
  allocated : ∀ i, (s.pool i).fn.isSome = true ↔ i ∈ L.all
  lastFreed : ∀ i ∈ s.lastFreed, (s.pool i).fn = none

/-- Only links and heads differ. -/
structure Relinked (s s' : State n φ δ) : Prop where
  task : ∀ i, s'.task i = s.task i
  time : ∀ i, (s'.pool i).time = (s.pool i).time
  lastFreed : s'.lastFreed = s.lastFreed
  frames : s'.frames = s.frames
  history : s'.history = s.history
  system : s'.system = s.system
  lock : s'.lock = s.lock
  lastMs : s'.lastMs = s.lastMs

variable {s s' s'' : State n φ δ} {L : Layout n} {next next' : Fin n → Option (Fin n)}

theorem frameChain_congr {f : Frame n} {l : List (Fin n)} (h : FrameChain next f l)
    (he : ∀ i ∈ l, next' i = next i) : FrameChain next' f l := by
  cases f with
  | immediate v => exact Linked.Chain.congr h he
  | startup q v => exact Linked.Chain.congr h he
  | systick i now => exact h
  | delayed now => exact h
  | forever => exact h

theorem locals_congr {frames : List (Frame n)} {ls : List (List (Fin n))}
    (h : List.Forall₂ (FrameChain next) frames ls) (he : ∀ i ∈ ls.flatten, next' i = next i) :
    List.Forall₂ (FrameChain next') frames ls := by
  induction h with
  | nil => exact .nil
  | cons hf _ ih =>
    apply List.Forall₂.cons
    · exact frameChain_congr hf fun i hi => he i (List.mem_append_left _ hi)
    · exact ih fun i hi => he i (List.mem_append_right _ hi)

namespace Relinked

theorem refl (s : State n φ δ) : Relinked s s :=
  ⟨fun _ => rfl, fun _ => rfl, rfl, rfl, rfl, rfl, rfl, rfl⟩

theorem trans (h : Relinked s s') (h' : Relinked s' s'') : Relinked s s'' :=
  ⟨fun i => (h'.task i).trans (h.task i), fun i => (h'.time i).trans (h.time i),
    h'.lastFreed.trans h.lastFreed, h'.frames.trans h.frames, h'.history.trans h.history,
    h'.system.trans h.system, h'.lock.trans h.lock, h'.lastMs.trans h.lastMs⟩

theorem fn (h : Relinked s s') (i : Fin n) : (s'.pool i).fn = (s.pool i).fn :=
  congrArg Task.fn (h.task i)

end Relinked

theorem relinked_setHead (q : Queue) (v : Option (Fin n)) (s : State n φ δ) :
    Relinked s (s.setHead q v) :=
  ⟨fun _ => rfl, fun _ => rfl, rfl, rfl, rfl, rfl, rfl, rfl⟩

theorem relinked_setNext (i : Fin n) (v : Option (Fin n)) (s : State n φ δ) :
    Relinked s (s.setNext i v) := by
  refine ⟨fun j => ?_, fun j => ?_, rfl, rfl, rfl, rfl, rfl, rfl⟩
  · by_cases h : j = i
    · subst h
      simp [State.task, State.setNext, State.setNode]
    · simp [State.task, State.setNext, State.setNode, h]
  · by_cases h : j = i
    · subst h
      simp [State.setNext, State.setNode]
    · simp [State.setNext, State.setNode, h]

@[simp] theorem next_setNext (i : Fin n) (v : Option (Fin n)) (s : State n φ δ) :
    (s.setNext i v).next = Function.update s.next i v := by
  funext j
  by_cases h : j = i
  · subst h
    simp [State.next, State.setNext, State.setNode]
  · simp [State.next, State.setNext, State.setNode, h]

@[simp] theorem next_setHead (q : Queue) (v : Option (Fin n)) (s : State n φ δ) :
    (s.setHead q v).next = s.next := rfl

@[simp] theorem head_setHead (q : Queue) (v : Option (Fin n)) (s : State n φ δ) :
    (s.setHead q v).head q = v := by
  unfold State.setHead
  exact Function.update_self q v s.head

theorem head_setHead_ne {q r : Queue} (h : r ≠ q) (v : Option (Fin n)) (s : State n φ δ) :
    (s.setHead q v).head r = s.head r := by
  unfold State.setHead
  exact Function.update_of_ne h v s.head

@[simp] theorem head_setNext (i : Fin n) (v : Option (Fin n)) (s : State n φ δ) :
    (s.setNext i v).head = s.head := rfl

theorem setTime_pool {i j : Fin n} {time : BitVec 32} (hj : j ≠ i) :
    (s.setTime i time).pool j = s.pool j := by
  simp [State.setTime, State.setNode, hj]

theorem setTime_time {i : Fin n} (time : BitVec 32) : ((s.setTime i time).pool i).time = time := by
  simp [State.setTime, State.setNode]

theorem task_setTime {i : Fin n} (time : BitVec 32) (j : Fin n) :
    (s.setTime i time).task j = s.task j := by
  by_cases hj : j = i
  · subst hj
    simp [State.task, State.setTime, State.setNode]
  · simp only [State.task, setTime_pool hj]

namespace Laid

/-- Nodes move between the hand and one queue. -/
theorem relink (h : Laid s L) (hr : Relinked s s') {q : Queue} (hq : ¬ Suspended s.frames q)
    {hand l : List (Fin n)} (hnext : ∀ i ∉ L.hand ++ L.lists q, s'.next i = s.next i)
    (hheads : ∀ r ≠ q, s'.head r = s.head r) (hc : Linked.Chain s'.next (s'.head q) l)
    (hp : (hand ++ l).Perm (L.hand ++ L.lists q)) :
    Laid s' ((L.setList q l).setHand hand) := by
  have hrest : ∀ i ∈ L.rest q, s'.next i = s.next i := fun i hi =>
    hnext i (L.not_mem_of_rest h.nodup hi)
  have hall : ((L.setList q l).setHand hand).all.Perm L.all :=
    (L.all_setList_perm q hand l).trans ((hp.append_right _).trans (L.all_hand_perm q).symm)
  constructor
  · intro r hs
    rw [hr.frames] at hs
    by_cases hrq : r = q
    · subst hrq
      change Linked.Chain _ _ ((L.setList r l).lists r)
      rwa [Layout.setList_self]
    · change Linked.Chain _ _ ((L.setList q l).lists r)
      rw [Layout.setList_ne L hrq, hheads r hrq]
      exact (h.chain r hs).congr fun i hi => hrest i (L.mem_rest_of_list hrq hi)
  · intro r hs
    rw [hr.frames] at hs
    have hrq : r ≠ q := by
      rintro rfl
      exact hq hs
    exact (Layout.setList_ne L hrq l).trans (h.stale r hs)
  · rw [hr.frames]
    exact locals_congr h.locals fun i hi => hrest i (L.mem_rest_of_local hi)
  · exact hall.nodup_iff.mpr h.nodup
  · intro i
    rw [hr.fn, h.allocated, hall.mem_iff]
  · intro i hi
    rw [hr.lastFreed] at hi
    rw [hr.fn]
    exact h.lastFreed i hi

theorem not_mem_of_free (h : Laid s L) {i : Fin n} (hi : (s.pool i).fn = none) : i ∉ L.all := by
  rw [← h.allocated, hi]
  exact Bool.false_ne_true

/-- A node outside of the lists is written to. -/
theorem write (h : Laid s L) (s' : State n φ δ) (hand : List (Fin n)) {i : Fin n}
    (hpool : ∀ j, j ≠ i → s'.pool j = s.pool j)
    (hhead : s'.head = s.head) (hframes : s'.frames = s.frames)
    (hi : i ∉ Layout.of L.lists Layout.queues ++ L.locals.flatten)
    (hn : (L.setHand hand).all.Nodup) (hi' : (s'.pool i).fn.isSome = true ↔ i ∈ hand)
    (hhand : ∀ j, j ≠ i → (j ∈ hand ↔ j ∈ L.hand))
    (hfreed : ∀ j ∈ s'.lastFreed, (s'.pool j).fn = none) : Laid s' (L.setHand hand) := by
  have hnext : ∀ j, j ≠ i → s'.next j = s.next j := fun j hj =>
    congrArg CoreTask.next (hpool j hj)
  have hlist : ∀ q, ∀ j ∈ L.lists q, s'.next j = s.next j := by
    rintro q j hj
    apply hnext
    rintro rfl
    exact hi (List.mem_append_left _ (List.mem_flatMap.mpr ⟨q, Layout.mem_queues q, hj⟩))
  constructor
  · intro q hq
    rw [hframes] at hq
    rw [hhead]
    exact (h.chain q hq).congr (hlist q)
  · intro q hq
    rw [hframes] at hq
    exact h.stale q hq
  · rw [hframes]
    apply locals_congr h.locals
    rintro j hj
    apply hnext
    rintro rfl
    exact hi (List.mem_append_right _ hj)
  · exact hn
  · intro j
    by_cases hj : j = i
    · subst hj
      rw [hi']
      constructor
      · exact fun hm => List.mem_append_left _ hm
      · exact fun hm => (List.mem_append.mp hm).resolve_right hi
    · rw [hpool j hj, h.allocated, Layout.all, Layout.all, List.mem_append,
        List.mem_append (s := (L.setHand hand).hand)]
      exact or_congr (hhand j hj).symm Iff.rfl
  · exact hfreed

theorem fill (h : Laid s L) {i : Fin n} (hi : (s.pool i).fn = none) (hf : s.lastFreed = none)
    (fn : φ) (data : Option δ) (due : ℕ) :
    Laid (s.fill i fn data due) (L.setHand (i :: L.hand)) := by
  have hall := h.not_mem_of_free hi
  refine h.write (s.fill i fn data due) (i :: L.hand) (i := i) ?_ rfl rfl
    (fun hm => hall (List.mem_append_right _ hm)) (List.nodup_cons.mpr ⟨hall, h.nodup⟩) ?_ ?_ ?_
  · rintro j hj
    simp [State.fill, State.setHistory, State.setNode, hj]
  · simp [State.fill, State.setHistory, State.setNode]
  · rintro j hj
    simp [hj]
  · rintro j hj
    rw [show (s.fill i fn data due).lastFreed = s.lastFreed from rfl, hf] at hj
    cases hj

theorem free (h : Laid s L) {i : Fin n} {m : List (Fin n)} (hm : L.hand = i :: m) :
    Laid (s.free i) (L.setHand m) := by
  have hn := h.nodup
  rw [Layout.all, hm, List.cons_append] at hn
  obtain ⟨hi, hn⟩ := List.nodup_cons.mp hn
  have hfn : ((s.free i).pool i).fn = none := by
    simp [State.free, State.setNode]
  refine h.write (s.free i) m (i := i) ?_ rfl rfl (fun hmem => hi (List.mem_append_right _ hmem))
    hn ?_ ?_ ?_
  · rintro j hj
    simp [State.free, State.setNode, hj]
  · rw [hfn]
    constructor
    · rintro ⟨⟩
    · exact fun him => absurd (List.mem_append_left _ him) hi
  · rintro j hj
    rw [hm]
    simp [hj]
  · rintro j hj
    by_cases hji : j = i
    · rwa [hji]
    · have hpool : (s.free i).pool j = s.pool j := by
        simp [State.free, State.setNode, hji]
      rw [hpool]
      cases hfreed : s.lastFreed with
      | none =>
        rw [State.free, hfreed] at hj
        exact absurd (Option.some.inj hj).symm hji
      | some k =>
        rw [State.free, hfreed] at hj
        exact h.lastFreed j (hfreed ▸ hj)

/-- The time of a free node is set. -/
theorem setTime (h : Laid s L) {i : Fin n} (hi : (s.pool i).fn = none) (time : BitVec 32) :
    Laid (s.setTime i time) L := by
  have hnot := h.not_mem_of_free hi
  have hfn : ∀ j, ((s.setTime i time).pool j).fn = (s.pool j).fn := fun j =>
    congrArg Task.fn (task_setTime time j)
  refine h.write (s.setTime i time) L.hand (i := i) (fun j => setTime_pool) rfl rfl
    (fun hm => hnot (List.mem_append_right _ hm)) h.nodup ?_ (fun _ _ => Iff.rfl) ?_
  · rw [hfn, hi]
    exact iff_of_false Bool.false_ne_true fun hm => hnot (List.mem_append_left _ hm)
  · rintro j hj
    rw [hfn]
    exact h.lastFreed j hj

/-- The node that is found is free, and it is no longer the one that is found first. -/
theorem alloc (h : Laid s L) {i : Fin n} (ha : s.alloc = some (i, s')) :
    (s.pool i).fn = none ∧ s' = { s with lastFreed := none } ∧ Laid s' L := by
  have hs' : (s.pool i).fn = none ∧ s' = { s with lastFreed := none } := by
    cases hf : s.lastFreed with
    | some j =>
      rw [State.alloc, hf] at ha
      obtain ⟨rfl, rfl⟩ := Prod.mk.inj (Option.some.inj ha)
      exact ⟨h.lastFreed j hf, rfl⟩
    | none =>
      simp only [State.alloc, hf, Option.map_eq_some_iff] at ha
      obtain ⟨j, hfind, hj⟩ := ha
      obtain ⟨rfl, rfl⟩ := Prod.mk.inj hj
      have hnone : (s.pool j).fn.isNone = true :=
        List.find?_some (p := fun i => (s.pool i).fn.isNone) hfind
      refine ⟨Option.isNone_iff_eq_none.mp hnone, ?_⟩
      rw [← hf]
  obtain ⟨hfn, rfl⟩ := hs'
  refine ⟨hfn, rfl, ⟨h.chain, h.stale, h.locals, h.nodup, h.allocated, ?_⟩⟩
  rintro j ⟨⟩

/-- What is in hand is left to a loop that runs later. -/
theorem push (h : Laid s L) {f : Frame n} (hf : FrameChain s.next f L.hand)
    (hq : ∀ q v, f = .startup q v → L.lists q = []) :
    Laid (s.pushFrame f) { L with hand := [], locals := L.hand :: L.locals } := by
  have hsuspended : ∀ q, Suspended (f :: s.frames) q → L.lists q = [] := by
    rintro q ⟨v, hv⟩
    rcases List.mem_cons.mp hv with hv | hv
    · exact hq q v hv.symm
    · exact h.stale q ⟨v, hv⟩
  have hall : ({ L with hand := [], locals := L.hand :: L.locals } : Layout n).all.Perm L.all := by
    unfold Layout.all
    rw [List.flatten_cons, List.nil_append, ← List.append_assoc, ← List.append_assoc]
    exact List.perm_append_comm.append_right _
  constructor
  · rintro q hs
    apply h.chain q
    rintro ⟨v, hv⟩
    exact hs ⟨v, List.mem_cons_of_mem f hv⟩
  · exact hsuspended
  · exact .cons hf h.locals
  · exact hall.nodup_iff.mpr h.nodup
  · intro i
    rw [hall.mem_iff]
    exact h.allocated i
  · exact h.lastFreed

theorem pop_perm {l : List (Fin n)} {ls : List (List (Fin n))} (hL : L.locals = l :: ls)
    (hhand : L.hand = []) : ({ L with hand := l, locals := ls } : Layout n).all.Perm L.all := by
  unfold Layout.all
  rw [hL, hhand, List.flatten_cons, List.nil_append, ← List.append_assoc, ← List.append_assoc]
  exact List.perm_append_comm.append_right _

/-- A loop goes on with what has been left to it. -/
theorem pop (h : Laid s L) (hhand : L.hand = []) {f : Frame n} {fs : List (Frame n)}
    (hs : s.frames = f :: fs) (hf : ∀ q v, f ≠ .startup q v) :
    ∃ l ls, FrameChain s.next f l ∧ Laid { s with frames := fs } { L with hand := l, locals := ls } ∧
      ({ L with hand := l, locals := ls } : Layout n).all.Perm L.all := by
  obtain ⟨l, ls, hl, hls, hL⟩ := List.forall₂_cons_left_iff.mp (hs ▸ h.locals)
  have hall := pop_perm hL hhand
  have hiff : ∀ q, Suspended fs q ↔ Suspended s.frames q := by
    rw [hs]
    rintro q
    constructor
    · rintro ⟨v, hv⟩
      exact ⟨v, List.mem_cons_of_mem f hv⟩
    · rintro ⟨v, hv⟩
      exact ⟨v, (List.mem_cons.mp hv).resolve_left fun he => hf q v he.symm⟩
  refine ⟨l, ls, hl, ⟨?_, ?_, hls, hall.nodup_iff.mpr h.nodup, ?_, h.lastFreed⟩, hall⟩
  · exact fun q hq => h.chain q fun hs => hq ((hiff q).mpr hs)
  · exact fun q hq => h.stale q ((hiff q).mp hq)
  · intro i
    rw [hall.mem_iff]
    exact h.allocated i

end Laid

end Tasks

end Inspector
