import Inspector.Planner.Ring

/-! # First in, first out

Every state of the block ring that is reached by queuing lines into a ring that is not full, by
discarding and by replanning is laid out from its tail to its head with the planned block in
between. Replanning ends and changes nothing but entry speeds, and the blocks leave the ring in the
order in which they were queued.
-/

namespace Inspector

open Cyclic Transition

variable {K : Type*} [Field K] [LinearOrder K] {size : ℕ}

/-- A block up to its entry speed, which replanning changes. -/
def PlanBlock.motion (b : PlanBlock K) : PlanBlock K := b.setEntry 0

namespace BlockBuffer

/-- The number of queued blocks. -/
def count (r : BlockBuffer K size) : ℕ := dist r.tail r.head

/-- The queued blocks, the oldest one first. -/
def queue (r : BlockBuffer K size) : List (PlanBlock K) := arc r.blocks r.count r.tail

/-- The ring holds `n` blocks, and `p` of them lie before the planned one. -/
structure Layout (r : BlockBuffer K size) (n p : ℕ) : Prop where
  le : n ≤ size
  planned_lt : p < n ∨ p = 0 ∧ n = 0
  head : r.head = next^[n] r.tail
  planned : r.planned = next^[p] r.tail
  nextHead : r.nextHead = next r.head

/-- Replanning leaves the pointers of the queue and the motions of all blocks alone. -/
structure Replans (r r' : BlockBuffer K size) : Prop where
  tail : r'.tail = r.tail
  head : r'.head = r.head
  nextHead : r'.nextHead = r.nextHead
  motion : ∀ i, (r'.blocks i).motion = (r.blocks i).motion

namespace Replans

variable {r r' r'' : BlockBuffer K size}

theorem refl (r : BlockBuffer K size) : Replans r r := ⟨rfl, rfl, rfl, fun _ => rfl⟩

theorem trans (h : Replans r r') (h' : Replans r' r'') : Replans r r'' :=
  ⟨h'.tail.trans h.tail, h'.head.trans h.head, h'.nextHead.trans h.nextHead,
    fun i => (h'.motion i).trans (h.motion i)⟩

theorem setBlock (r : BlockBuffer K size) {i : Fin (size + 1)} {b : PlanBlock K}
    (h : b.motion = (r.blocks i).motion) : Replans r (r.setBlock i b) := by
  refine ⟨rfl, rfl, rfl, fun j => ?_⟩
  by_cases hj : j = i
  · subst hj
    simp only [BlockBuffer.setBlock, Function.update_self, h]
  · simp only [BlockBuffer.setBlock, Function.update_of_ne hj]

theorem stUpdate (r : BlockBuffer K size) (speedSqr : Option K) :
    Replans r (r.stUpdate speedSqr) ∧ (r.stUpdate speedSqr).planned = r.planned := by
  cases speedSqr with
  | none => exact ⟨refl r, rfl⟩
  | some v => exact ⟨setBlock r rfl, rfl⟩

end Replans

theorem motion_reverseStep (b c : PlanBlock K) : (b.reverseStep c).motion = b.motion := by
  rw [PlanBlock.reverseStep]
  split_ifs <;> rfl

/-- One pass of the reverse loop. -/
theorem reverseBody_spec (speedSqr : Option K) (r : BlockBuffer K size)
    (current block : Fin (size + 1)) (h : block ≠ r.planned) :
    ∃ r', reverseBody speedSqr (r, current, block) = .inl (r', block, prev block) ∧
      Replans r r' ∧ r'.planned = r.planned := by
  let q := if prev block = r.tail then r.stUpdate speedSqr else r
  have hq : Replans r q ∧ q.planned = r.planned := by
    simp only [q]
    split_ifs
    · exact Replans.stUpdate r speedSqr
    · exact ⟨Replans.refl r, rfl⟩
  refine ⟨q.setBlock block ((q.blocks block).reverseStep (q.blocks current)), ?_,
    hq.1.trans (Replans.setBlock q (motion_reverseStep _ _)), hq.2⟩
  simp only [reverseBody]
  rw [if_pos h]

/-- The reverse pass reaches the planned block. -/
theorem loop_reverseBody (speedSqr : Option K) (fuel : ℕ) {k p : ℕ} {t : Fin (size + 1)} (hpk : p ≤ k)
    (hk : k ≤ size) (hfuel : k - p < fuel) (r : BlockBuffer K size) (current : Fin (size + 1))
    (hp : r.planned = next^[p] t) :
    ∃ r', loop (reverseBody speedSqr) fuel (r, current, next^[k] t) = some r' ∧
      Replans r r' ∧ r'.planned = r.planned := by
  induction fuel generalizing r current k with
  | zero => omega
  | succ fuel ih =>
    by_cases hkp : k = p
    · subst hkp
      refine ⟨r, loop_succ_of_inr ?_, Replans.refl r, rfl⟩
      simp only [reverseBody]
      rw [if_neg (not_not.mpr hp.symm)]
    · obtain ⟨k, rfl⟩ : ∃ l, k = l + 1 := ⟨k - 1, by omega⟩
      have hne : next^[k + 1] t ≠ r.planned := by
        rw [hp]
        exact mt (iterate_next_inj hk (by omega)).mp hkp
      obtain ⟨r₁, hbody, hr₁, hp₁⟩ := reverseBody_spec speedSqr r current _ hne
      rw [prev_iterate_succ] at hbody
      obtain ⟨r₂, hloop, hr₂, hp₂⟩ := ih (k := k) (by omega) (by omega) (by omega) r₁
        (next^[k + 1] t) (hp₁.trans hp)
      exact ⟨r₂, (loop_succ_of_inl hbody).trans hloop, hr₁.trans hr₂, hp₂.trans hp₁⟩

/-- One pass of the forward loop. -/
theorem forwardBody_spec (r : BlockBuffer K size) (current block : Fin (size + 1))
    (h : block ≠ r.head) :
    ∃ r', forwardBody (r, current, block) = .inl (r', block, next block) ∧
      Replans r r' ∧ (r'.planned = r.planned ∨ r'.planned = block) := by
  let q : BlockBuffer K size :=
    if (r.blocks current).entrySpeedSqr < (r.blocks block).entrySpeedSqr then
      if (r.blocks current).reach (r.blocks current).entrySpeedSqr <
          (r.blocks block).entrySpeedSqr then
        { r.setBlock block ((r.blocks block).setEntry
            ((r.blocks current).reach (r.blocks current).entrySpeedSqr)) with planned := block }
      else r
    else r
  have hq : Replans r q ∧ (q.planned = r.planned ∨ q.planned = block) := by
    simp only [q]
    split_ifs
    · have hset := Replans.setBlock r (i := block) (b := (r.blocks block).setEntry
        ((r.blocks current).reach (r.blocks current).entrySpeedSqr)) rfl
      exact ⟨⟨hset.tail, hset.head, hset.nextHead, hset.motion⟩, .inr rfl⟩
    · exact ⟨Replans.refl r, .inl rfl⟩
    · exact ⟨Replans.refl r, .inl rfl⟩
  refine ⟨if (q.blocks block).entrySpeedSqr = (q.blocks block).maxEntrySpeedSqr then
    { q with planned := block } else q, ?_, ?_⟩
  · simp only [forwardBody]
    rw [if_pos h]
    rfl
  · split_ifs
    · exact ⟨⟨hq.1.tail, hq.1.head, hq.1.nextHead, hq.1.motion⟩, .inr rfl⟩
    · exact hq

/-- The forward pass reaches the head, and the planned block stays before it. -/
theorem loop_forwardBody (fuel : ℕ) {k p n : ℕ} {t : Fin (size + 1)} (hkn : k ≤ n) (hn : n ≤ size)
    (hfuel : n - k < fuel) (hpn : p < n) (r : BlockBuffer K size) (current : Fin (size + 1))
    (hh : r.head = next^[n] t) (hp : r.planned = next^[p] t) :
    ∃ r' p', loop forwardBody fuel (r, current, next^[k] t) = some r' ∧ Replans r r' ∧
      p' < n ∧ r'.planned = next^[p'] t := by
  induction fuel generalizing r current k p with
  | zero => omega
  | succ fuel ih =>
    by_cases hkn' : k = n
    · subst hkn'
      refine ⟨r, p, loop_succ_of_inr ?_, Replans.refl r, hpn, hp⟩
      simp only [forwardBody]
      rw [if_neg (not_not.mpr hh.symm)]
    · have hne : next^[k] t ≠ r.head := by
        rw [hh]
        exact mt (iterate_next_inj (by omega) hn).mp hkn'
      obtain ⟨r₁, hbody, hr₁, hp₁⟩ := forwardBody_spec r current _ hne
      obtain ⟨q, hq, hpq⟩ : ∃ q < n, r₁.planned = next^[q] t := by
        rcases hp₁ with hp₁ | hp₁
        · exact ⟨p, hpn, hp₁.trans hp⟩
        · exact ⟨k, by omega, hp₁⟩
      rw [← Function.iterate_succ_apply' next] at hbody
      obtain ⟨r₂, p₂, hloop, hr₂, hlt, hp₂⟩ := ih (k := k + 1) (by omega) (by omega) hq r₁
        (next^[k] t) (hr₁.head.trans hh) hpq
      exact ⟨r₂, p₂, (loop_succ_of_inl hbody).trans hloop, hr₁.trans hr₂, hlt, hp₂⟩

/-- Replanning a queue that is not empty ends, and keeps its layout. -/
theorem plannerRecalculate_spec (speedSqr : Option K) {r : BlockBuffer K size} {n p : ℕ}
    (h : Layout r n p) (hn : 0 < n) :
    ∃ r' p', r.plannerRecalculate speedSqr = some r' ∧ Replans r r' ∧ Layout r' n p' := by
  have hpn : p < n := h.planned_lt.resolve_right fun h0 => by omega
  obtain ⟨m, rfl⟩ : ∃ m, n = m + 1 := ⟨n - 1, by omega⟩
  have hle := h.le
  have hblock : prev r.head = next^[m] r.tail := by
    rw [h.head, prev_iterate_succ]
  by_cases hb : prev r.head = r.planned
  · refine ⟨r, p, ?_, Replans.refl r, h⟩
    simp only [plannerRecalculate]
    rw [if_pos hb]
  · have hpm : p ≠ m := by
      rintro rfl
      exact hb (hblock.trans h.planned.symm)
    obtain ⟨l, rfl⟩ : ∃ l, m = l + 1 := ⟨m - 1, by omega⟩
    let r₁ := r.setBlock (prev r.head) (r.blocks (prev r.head)).reverseLast
    have hr₁ : Replans r r₁ := Replans.setBlock r rfl
    have hprev : prev (prev r.head) = next^[l] r.tail := by
      rw [hblock, prev_iterate_succ]
    obtain ⟨r₂, hrev, hr₂, hp₂⟩ : ∃ r₂,
        (if prev (prev r.head) = r₁.planned then
            some (if prev (prev r.head) = r₁.tail then r₁.stUpdate speedSqr else r₁)
          else loop (reverseBody speedSqr) (size + 1) (r₁, prev r.head, prev (prev r.head))) =
          some r₂ ∧ Replans r₁ r₂ ∧ r₂.planned = r₁.planned := by
      split_ifs
      · exact ⟨_, rfl, Replans.stUpdate r₁ speedSqr⟩
      · exact ⟨_, rfl, Replans.refl r₁, rfl⟩
      · rw [hprev]
        exact loop_reverseBody speedSqr (size + 1) (by omega) (by omega) (by omega) r₁ _ h.planned
    have hhead : r₂.head = next^[l + 1 + 1] r.tail := hr₂.head.trans h.head
    have hplanned : r₂.planned = next^[p] r.tail := hp₂.trans h.planned
    obtain ⟨r₃, p₃, hfwd, hr₃, hlt, hp₃⟩ := loop_forwardBody (k := p + 1) (size + 1)
      (by omega) h.le (by omega) hpn r₂ r₂.planned hhead hplanned
    have hall := (hr₁.trans hr₂).trans hr₃
    refine ⟨r₃, p₃, ?_, hall, ⟨h.le, .inl hlt, ?_, ?_, ?_⟩⟩
    · simp only [plannerRecalculate]
      rw [if_neg hb]
      rw [hrev, Option.bind_some]
      rw [Function.iterate_succ_apply', ← hplanned] at hfwd
      exact hfwd
    · rw [hall.head, hall.tail, h.head]
    · rw [hall.tail, hp₃]
    · rw [hall.nextHead, hall.head, h.nextHead]

theorem Layout.count {r : BlockBuffer K size} {n p : ℕ} (h : Layout r n p) : r.count = n := by
  rw [BlockBuffer.count, h.head, dist_iterate_next _ h.le]

theorem Layout.queue {r : BlockBuffer K size} {n p : ℕ} (h : Layout r n p) :
    r.queue = arc r.blocks n r.tail := by
  rw [BlockBuffer.queue, h.count]

theorem Replans.queue {r r' : BlockBuffer K size} (h : Replans r r') :
    r'.queue.map PlanBlock.motion = r.queue.map PlanBlock.motion := by
  have hmotion : PlanBlock.motion ∘ r'.blocks = PlanBlock.motion ∘ r.blocks := funext h.motion
  rw [BlockBuffer.queue, BlockBuffer.queue, map_arc, map_arc, hmotion, BlockBuffer.count,
    BlockBuffer.count, h.tail, h.head]

/-- A ring is full exactly when it holds as many blocks as its size says. -/
theorem Layout.full_iff {r : BlockBuffer K size} {n p : ℕ} (h : Layout r n p) :
    r.planCheckFullBuffer = true ↔ n = size := by
  have hle := h.le
  rw [planCheckFullBuffer, decide_eq_true_iff, h.nextHead, h.head,
    ← Function.iterate_succ_apply' next n r.tail]
  constructor
  · intro hfull
    by_contra hn
    exact absurd ((iterate_next_inj (Nat.zero_le size) (by omega : n + 1 ≤ size)).mp hfull)
      (by omega)
  · rintro rfl
    exact (iterate_next_cycle r.tail).symm

theorem Layout.available {r : BlockBuffer K size} {n p : ℕ} (h : Layout r n p) :
    r.planGetBlockBufferAvailable = size - n := by
  have hn := h.count
  have := r.tail.isLt
  have := r.head.isLt
  rw [BlockBuffer.count, Cyclic.dist] at hn
  simp only [planGetBlockBufferAvailable, Fin.le_def]
  split_ifs at hn ⊢ <;> omega

theorem Layout.current {r : BlockBuffer K size} {n p : ℕ} (h : Layout r n p) :
    r.planGetCurrentBlock = r.queue.head? := by
  rw [planGetCurrentBlock, h.queue, h.head]
  cases n with
  | zero => exact if_pos rfl
  | succ n =>
    have hne : next^[n + 1] r.tail ≠ r.tail :=
      mt (iterate_next_inj (l := 0) h.le (Nat.zero_le size)).mp (Nat.succ_ne_zero n)
    rw [if_neg hne]
    rfl

theorem planDiscardCurrentBlock_of_ne {r : BlockBuffer K size} (h : r.tail ≠ r.head) :
    r.planDiscardCurrentBlock =
      { blocks := Function.update r.blocks r.tail (planCleanup (r.blocks r.tail))
        tail := next r.tail
        head := r.head
        nextHead := r.nextHead
        planned := if r.tail = r.planned then next r.tail else r.planned } := by
  simp only [planDiscardCurrentBlock, setBlock]
  rw [if_pos h]
  by_cases hp : r.tail = r.planned
  · simp only [hp, if_true]
  · simp only [hp, if_false]

/-- Discarding removes the oldest block. -/
theorem planDiscardCurrentBlock_spec {r : BlockBuffer K size} {n p : ℕ} (h : Layout r n p) :
    Layout r.planDiscardCurrentBlock (n - 1) (p - 1) ∧
      r.planDiscardCurrentBlock.queue = r.queue.tail := by
  have hle := h.le
  cases n with
  | zero =>
    have hr : r.planDiscardCurrentBlock = r := by
      have htail : r.tail = r.head := h.head.symm
      rw [planDiscardCurrentBlock, if_neg (not_not.mpr htail)]
    obtain rfl : p = 0 := (h.planned_lt.resolve_left (Nat.not_lt_zero p)).1
    rw [hr]
    exact ⟨h, by rw [h.queue]; rfl⟩
  | succ n =>
    have hpn : p < n + 1 := h.planned_lt.resolve_right fun h0 => Nat.succ_ne_zero n h0.2
    have hne : r.tail ≠ r.head := by
      rw [h.head]
      exact mt (iterate_next_inj (Nat.zero_le size) h.le).mp (Nat.succ_ne_zero n).symm
    have hplanned : r.tail = r.planned ↔ p = 0 := by
      rw [h.planned]
      exact (iterate_next_inj (Nat.zero_le size) (by omega)).trans eq_comm
    have hr' := planDiscardCurrentBlock_of_ne hne
    generalize r.planDiscardCurrentBlock = r' at hr' ⊢
    have htail : r'.tail = next r.tail := by rw [hr']
    have hhead : r'.head = r.head := by rw [hr']
    have hnext : r'.nextHead = r.nextHead := by rw [hr']
    have hblocks : r'.blocks =
        Function.update r.blocks r.tail (planCleanup (r.blocks r.tail)) := by rw [hr']
    have hp' : r'.planned = if p = 0 then next r.tail else r.planned := by
      rw [hr']
      simp only [hplanned]
    have hlayout : Layout r' n (p - 1) := by
      refine ⟨by omega, by omega, ?_, ?_, by rw [hnext, hhead, h.nextHead]⟩
      · rw [hhead, htail, h.head, Function.iterate_succ_apply]
      · rw [hp', htail]
        split_ifs with hp
        · rw [hp]
          rfl
        · obtain ⟨q, rfl⟩ : ∃ q, p = q + 1 := ⟨p - 1, by omega⟩
          rw [h.planned, Function.iterate_succ_apply, Nat.add_sub_cancel]
    refine ⟨hlayout, ?_⟩
    rw [hlayout.queue, h.queue, htail, hblocks, arc, List.tail_cons]
    apply arc_update
    intro l hl
    rw [← Function.iterate_succ_apply]
    exact mt (iterate_next_inj (l := 0) (by omega) (Nat.zero_le size)).mp (Nat.succ_ne_zero l)

/-- Queuing a line into a ring that is not full adds its block behind the newest one. -/
theorem queueBlock_spec (speedSqr : Option K) (b : PlanBlock K) {r : BlockBuffer K size} {n p : ℕ}
    (h : Layout r n p) (hfull : n < size) :
    ∃ r' n' p', r.queueBlock speedSqr b = some r' ∧ Layout r' n' p' ∧
      r'.queue.map PlanBlock.motion = r.queue.map PlanBlock.motion ++
        if b.condition.systemMotion then [] else [b.motion] := by
  have hqueue : arc (Function.update r.blocks r.head b) n r.tail = r.queue := by
    rw [h.queue]
    apply arc_update
    intro l hl
    rw [h.head]
    exact mt (iterate_next_inj (by omega) h.le).mp (by omega)
  cases hs : b.condition.systemMotion with
  | true =>
    have hlayout : Layout (r.setBlock r.head b) n p :=
      ⟨h.le, h.planned_lt, h.head, h.planned, h.nextHead⟩
    refine ⟨r.setBlock r.head b, n, p, ?_, hlayout, ?_⟩
    · simp only [queueBlock, hs]
      rfl
    · rw [hlayout.queue]
      simp only [setBlock, hqueue, if_true, List.append_nil]
  | false =>
    let r₁ : BlockBuffer K size :=
      { r.setBlock r.head b with head := r.nextHead, nextHead := next r.nextHead }
    have hlayout : Layout r₁ (n + 1) p := by
      refine ⟨hfull, by have := h.planned_lt; omega, ?_, h.planned, rfl⟩
      rw [Function.iterate_succ_apply']
      exact h.nextHead.trans (congrArg next h.head)
    obtain ⟨r', p', hrec, hrep, hl⟩ := plannerRecalculate_spec speedSqr hlayout n.succ_pos
    refine ⟨r', n + 1, p', ?_, hl, ?_⟩
    · simp only [queueBlock, hs]
      exact hrec
    · have hnew : r₁.blocks (next^[n] r₁.tail) = b := by
        simp only [r₁, setBlock, ← h.head, Function.update_self]
      rw [hrep.queue, hlayout.queue, arc_succ, hnew, List.map_append]
      simp only [r₁, setBlock, hqueue, Bool.false_eq_true, if_false, List.map_cons, List.map_nil]

theorem planCycleReinitialize_spec (speedSqr : Option K) {r : BlockBuffer K size} {n p : ℕ}
    (h : Layout r n p) :
    ∃ r' p', r.planCycleReinitialize speedSqr = some r' ∧ Layout r' n p' ∧
      r'.queue.map PlanBlock.motion = r.queue.map PlanBlock.motion := by
  let r₁ : BlockBuffer K size :=
    { r.stUpdate speedSqr with planned := (r.stUpdate speedSqr).tail }
  have hst := (Replans.stUpdate r speedSqr).1
  have hr₁ : Replans r r₁ := ⟨hst.tail, hst.head, hst.nextHead, hst.motion⟩
  have hlayout : Layout r₁ n 0 := by
    refine ⟨h.le, by omega, ?_, rfl, ?_⟩
    · rw [hr₁.head, hr₁.tail, h.head]
    · rw [hr₁.nextHead, hr₁.head, h.nextHead]
  by_cases hn : 0 < n
  · obtain ⟨r', p', hrec, hrep, hl⟩ := plannerRecalculate_spec speedSqr hlayout hn
    refine ⟨r', p', ?_, hl, hrep.queue.trans hr₁.queue⟩
    have hne : r₁.planned ≠ r₁.head := by
      rw [hlayout.planned, hlayout.head]
      exact mt (iterate_next_inj (Nat.zero_le size) h.le).mp (by omega)
    unfold planCycleReinitialize
    dsimp only
    rw [if_pos hne]
    exact hrec
  · refine ⟨r₁, 0, ?_, hlayout, hr₁.queue⟩
    obtain rfl : n = 0 := by omega
    unfold planCycleReinitialize
    dsimp only
    rw [if_neg (not_not.mpr (hlayout.planned.trans hlayout.head.symm))]

end BlockBuffer

/-- The ring, with the blocks queued and the blocks returned since the last reset. -/
structure RingHistory (K : Type*) [Field K] [LinearOrder K] (size : ℕ) where
  ring : BlockBuffer K size
  queued : List (PlanBlock K)
  returned : List (PlanBlock K)

namespace RingHistory

open BlockBuffer

/-- Discarding returns the current block, as `plan_get_current_block` has it. -/
def exec (t : RingHistory K size) (op : RingOp K) : Option (RingHistory K size) :=
  (t.ring.exec op).map fun ring =>
    match op with
    | .reset => ⟨ring, [], []⟩
    | .line _ b =>
      ⟨ring, t.queued ++ if b.condition.systemMotion then [] else [b.motion], t.returned⟩
    | .discard =>
      ⟨ring, t.queued, t.returned ++ (t.ring.planGetCurrentBlock.map PlanBlock.motion).toList⟩
    | .replan _ => ⟨ring, t.queued, t.returned⟩

def run (t : RingHistory K size) : List (RingOp K) → Option (RingHistory K size)
  | [] => some t
  | op :: ops => (t.exec op).bind fun t => run t ops

/-- Lines are queued only while the ring is not full. -/
def Room (t : RingHistory K size) : List (RingOp K) → Prop
  | [] => True
  | op :: ops =>
    (∀ speedSqr b, op = .line speedSqr b → t.ring.planCheckFullBuffer = false) ∧
      ∀ t', t.exec op = some t' → Room t' ops

/-- The queue holds what has been queued and not been returned, in order. -/
def Fifo (t : RingHistory K size) : Prop :=
  (∃ n p, Layout t.ring n p) ∧ t.queued = t.returned ++ t.ring.queue.map PlanBlock.motion

theorem fifo_exec {t : RingHistory K size} (h : Fifo t) (op : RingOp K)
    (hroom : ∀ speedSqr b, op = .line speedSqr b → t.ring.planCheckFullBuffer = false) :
    ∃ t', t.exec op = some t' ∧ Fifo t' := by
  obtain ⟨⟨n, p, hl⟩, hq⟩ := h
  cases op with
  | reset =>
    have hlayout : Layout t.ring.planResetBuffer 0 0 :=
      ⟨Nat.zero_le size, .inr ⟨rfl, rfl⟩, rfl, rfl, rfl⟩
    refine ⟨_, rfl, ⟨0, 0, hlayout⟩, ?_⟩
    rw [hlayout.queue]
    rfl
  | line speedSqr b =>
    have hfull : n < size := by
      have hne : ¬ n = size := by
        rw [← hl.full_iff, hroom speedSqr b rfl]
        exact Bool.false_ne_true
      exact lt_of_le_of_ne hl.le hne
    obtain ⟨r', n', p', hr', hl', hq'⟩ := queueBlock_spec speedSqr b hl hfull
    let queued := t.queued ++ if b.condition.systemMotion then [] else [b.motion]
    refine ⟨⟨r', queued, t.returned⟩, ?_, ⟨n', p', hl'⟩, ?_⟩
    · simp only [exec, BlockBuffer.exec, hr', Option.map_some, queued]
    · simp only [queued, hq', hq, List.append_assoc]
  | discard =>
    obtain ⟨hl', hq'⟩ := planDiscardCurrentBlock_spec hl
    refine ⟨_, rfl, ⟨_, _, hl'⟩, ?_⟩
    simp only [hq', hl.current, hq, List.append_assoc]
    cases t.ring.queue <;> rfl
  | replan speedSqr =>
    obtain ⟨r', p', hr', hl', hq'⟩ := planCycleReinitialize_spec speedSqr hl
    refine ⟨⟨r', t.queued, t.returned⟩, ?_, ⟨n, p', hl'⟩, ?_⟩
    · simp only [exec, BlockBuffer.exec, hr', Option.map_some]
    · rw [hq, hq']

theorem fifo_run {t : RingHistory K size} (h : Fifo t) (ops : List (RingOp K))
    (hroom : Room t ops) : ∃ t', t.run ops = some t' ∧ Fifo t' := by
  induction ops generalizing t with
  | nil => exact ⟨t, rfl, h⟩
  | cons op ops ih =>
    obtain ⟨t₁, ht₁, h₁⟩ := fifo_exec h op hroom.1
    obtain ⟨t₂, ht₂, h₂⟩ := ih h₁ (hroom.2 t₁ ht₁)
    exact ⟨t₂, by rw [run, ht₁, Option.bind_some, ht₂], h₂⟩

/-- After a reset, every run that queues lines only while the ring is not full ends, both loops of
each replan included. The blocks are returned in the order in which they were queued, the planned
block lies between tail and head, and the ring knows how much room it has. -/
theorem ring_fifo (r : BlockBuffer K size) (ops : List (RingOp K))
    (hroom : Room ⟨r.planResetBuffer, [], []⟩ ops) :
    ∃ t, run ⟨r.planResetBuffer, [], []⟩ ops = some t ∧
      t.queued = t.returned ++ t.ring.queue.map PlanBlock.motion ∧
      t.ring.planGetCurrentBlock = t.ring.queue.head? ∧
      t.ring.nextHead = next t.ring.head ∧
      dist t.ring.tail t.ring.planned ≤ dist t.ring.tail t.ring.head ∧
      t.ring.planGetBlockBufferAvailable = size - t.ring.queue.length ∧
      (t.ring.planCheckFullBuffer = true ↔ t.ring.planGetBlockBufferAvailable = 0) := by
  have hlayout : Layout r.planResetBuffer 0 0 :=
    ⟨Nat.zero_le size, .inr ⟨rfl, rfl⟩, rfl, rfl, rfl⟩
  have hinit : Fifo ⟨r.planResetBuffer, [], []⟩ := by
    refine ⟨⟨0, 0, hlayout⟩, ?_⟩
    rw [hlayout.queue]
    rfl
  obtain ⟨t, ht, ⟨n, p, hl⟩, hq⟩ := fifo_run hinit ops hroom
  have hle := hl.le
  have hlen : t.ring.queue.length = n := by rw [hl.queue, length_arc]
  refine ⟨t, ht, hq, hl.current, hl.nextHead, ?_, ?_, ?_⟩
  · rw [hl.planned, hl.head, dist_iterate_next _ hle,
      dist_iterate_next _ (by have := hl.planned_lt; omega)]
    have := hl.planned_lt
    omega
  · rw [hlen, hl.available]
  · rw [hl.full_iff, hl.available]
    omega

/-- A block without a motion. -/
def restBlock : PlanBlock ℚ where
  steps _ := 0
  stepEventCount := 0
  direction _ := false
  condition := {}
  lineNumber := 0
  targetMm _ := 0
  entrySpeedSqr := 0
  maxEntrySpeedSqr := 0
  acceleration := 0
  millimeters := 0
  maxJunctionSpeedSqr := 0
  rapidRate := 0
  programmedRate := 0
  rateMultiplier := 1
  spindle := ⟨0, false, none⟩
  message := none
  outputCommands := []
  maxEntrySpeedSqr_nonneg := le_refl 0
  acceleration_nonneg := le_refl 0
  millimeters_nonneg := le_refl 0
  maxJunctionSpeedSqr_nonneg := le_refl 0

def restRing : BlockBuffer ℚ 30 := ⟨fun _ => restBlock, 0, 0, 1, 0⟩

/-- A block that is queued into the empty ring is the one that is returned. -/
theorem ring_fifo_restRing :
    ∃ t, run ⟨restRing.planResetBuffer, [], []⟩ [.line none restBlock, .discard] = some t ∧
      t.queued = t.returned ++ t.ring.queue.map PlanBlock.motion ∧
      t.returned = [restBlock.motion] := by
  have hroom : Room ⟨restRing.planResetBuffer, [], []⟩ [.line none restBlock, .discard] := by
    constructor
    · intro _ _ _
      rfl
    · rintro t' -
      constructor
      · rintro _ _ ⟨⟩
      · rintro t'' -
        trivial
  obtain ⟨t, ht, hq, -⟩ := ring_fifo restRing _ hroom
  refine ⟨t, ht, hq, ?_⟩
  cases ht
  rfl

end RingHistory

end Inspector
