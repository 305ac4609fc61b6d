import Inspector.Planner.Recalculate

/-! # The passes compute the speed plan

Block entry speeds are squared, so a block of constant acceleration adds the same amount to
either end's speed. With these gains the two passes of `planner_recalculate` give the blocks
behind `planned` exactly the planned speeds, provided the reverse pass leaves alone only blocks
that are at their maximum rightly.
-/

namespace Inspector

namespace PlanBlock

open TwoPass

variable {K : Type*} [Field K] [LinearOrder K]
variable {b c current : PlanBlock K} {bs xs ys : List (PlanBlock K)} {g v : K}

/-- Replace the entry speeds of a list of blocks. -/
def withEntries (bs : List (PlanBlock K)) (vs : List K) : List (PlanBlock K) :=
  List.zipWith setEntry bs vs

@[simp] theorem withEntries_nil (vs : List K) :
    withEntries ([] : List (PlanBlock K)) vs = [] := rfl

@[simp] theorem withEntries_cons (vs : List K) :
    withEntries (b :: bs) (v :: vs) = b.setEntry v :: withEntries bs vs := rfl

theorem map_entry_withEntries {vs : List K} (h : bs.length = vs.length) :
    (withEntries bs vs).map entrySpeedSqr = vs := by
  induction bs generalizing vs with
  | nil => exact (List.length_eq_zero_iff.mp h.symm).symm
  | cons b bs ih =>
    obtain _ | ⟨v, vs⟩ := vs
    · simp at h
    · rw [withEntries_cons, List.map_cons, ih (by simpa using h), setEntry_entry]

theorem length_withEntries {vs : List K} (h : bs.length = vs.length) :
    (withEntries bs vs).length = bs.length := by
  simp [withEntries, ← h]

/-- A step of the reverse pass gives the reverse speed of the plan. -/
theorem reverseStep_eq
    (h : b.entrySpeedSqr = b.maxEntrySpeedSqr → b.maxEntrySpeedSqr ≤ b.reach c.entrySpeedSqr) :
    b.reverseStep c = b.setEntry (min b.maxEntrySpeedSqr (b.reach c.entrySpeedSqr)) := by
  unfold reverseStep
  split_ifs with hm
  · change b.setEntry (if b.reach c.entrySpeedSqr < b.maxEntrySpeedSqr then _ else _) = _
    split_ifs with hlt
    · rw [min_eq_right hlt.le]; rfl
    · rw [min_eq_left (not_lt.mp hlt)]
  · have hm := not_not.mp hm
    rw [min_eq_left (h hm), ← hm, setEntry_self]

theorem reversePass_cons : reversePass (b :: bs) =
    match reversePass bs with
    | [] => [b.reverseLast]
    | next :: rest => b.reverseStep next :: next :: rest := by
  unfold reversePass
  rw [List.foldr_cons]
  split <;> simp_all

section Map

variable {α : Type*} {f : PlanBlock K → α}

theorem reverseStep_map (hf : ∀ b v, f (setEntry b v) = f b) (b c : PlanBlock K) :
    f (b.reverseStep c) = f b := by
  unfold reverseStep
  split
  · exact hf _ _
  · rfl

theorem reversePass_map (hf : ∀ b v, f (setEntry b v) = f b) :
    (reversePass bs).map f = bs.map f := by
  induction bs with
  | nil => rfl
  | cons b bs ih =>
    rw [reversePass_cons, List.map_cons, ← ih]
    split
    · rename_i h
      have hb : f b.reverseLast = f b := hf _ _
      rw [h, List.map_cons, hb]
    · rename_i h
      rw [h, List.map_cons, reverseStep_map hf]

theorem forwardPass_map (hf : ∀ b v, f (setEntry b v) = f b) (c : PlanBlock K)
    (idx planned : ℕ) : (forwardPass c idx planned bs).1.map f = bs.map f := by
  induction bs generalizing c idx planned with
  | nil => rfl
  | cons b bs ih =>
    simp only [forwardPass, List.map_cons, ih, List.cons.injEq, and_true]
    split_ifs
    · exact hf _ _
    · rfl
    · rfl

end Map

variable [IsStrictOrderedRing K]

/-- Squared entry speeds under maximum entry speed and acceleration. -/
def rules (K : Type*) [Field K] [LinearOrder K] [IsStrictOrderedRing K] :
    Rules (PlanBlock K) K where

  stop := 0
  cap b := b.maxEntrySpeedSqr
  gain b := b.reach
  stop_le_cap b := b.maxEntrySpeedSqr_nonneg
  le_gain := le_reach
  gain_mono := reach_mono

@[simp] theorem rules_stop : (rules K).stop = 0 := rfl
@[simp] theorem rules_cap : (rules K).cap b = b.maxEntrySpeedSqr := rfl
@[simp] theorem rules_gain : (rules K).gain b = b.reach := rfl

theorem alike_withEntries {vs : List K} (h : bs.length = vs.length) :
    List.Forall₂ (rules K).Alike (withEntries bs vs) bs := by
  induction bs generalizing vs with
  | nil => exact .nil
  | cons b bs ih =>
    obtain _ | ⟨v, vs⟩ := vs
    · simp at h
    · exact .cons ⟨rfl, rfl⟩ (ih (by simpa using h))

/-- Blocks at their maximum entry speed, the newest one apart, may stay there. -/
def SkipSafe : List (PlanBlock K) → Prop
  | [] => True
  | b :: bs =>
    (bs ≠ [] → b.entrySpeedSqr = b.maxEntrySpeedSqr →
      b.maxEntrySpeedSqr ≤ b.reach ((rules K).rev 0 bs)) ∧ SkipSafe bs

instance decidableSkipSafe : ∀ bs : List (PlanBlock K), Decidable (SkipSafe bs)
  | [] => inferInstanceAs (Decidable True)
  | b :: bs =>
    have := decidableSkipSafe bs
    inferInstanceAs (Decidable ((bs ≠ [] → b.entrySpeedSqr = b.maxEntrySpeedSqr →
      b.maxEntrySpeedSqr ≤ b.reach ((rules K).rev 0 bs)) ∧ SkipSafe bs))

theorem reverseLast_eq : b.reverseLast = b.setEntry ((rules K).rev 0 [b]) := by
  rw [Rules.rev_cons, Rules.rev_nil, rules_cap, rules_gain, reach_zero]; rfl

/-- The reverse pass computes the reverse speeds. -/
theorem reversePass_eq (h : SkipSafe bs) :
    reversePass bs = withEntries bs ((rules K).revs 0 bs) := by
  induction bs with
  | nil => rfl
  | cons b bs ih =>
    obtain ⟨hb, hs⟩ := h
    rw [reversePass_cons, ih hs]
    cases bs with
    | nil => rw [reverseLast_eq]; rfl
    | cons c bs =>
      simp only [Rules.revs_cons, withEntries_cons]
      rw [reverseStep_eq (by simpa using hb (by simp))]
      rfl

/-- One step of the forward pass takes the smaller of reverse and reachable speed. -/
theorem forwardPass_cons (idx planned : ℕ) :
    forwardPass current idx planned (b :: bs) =
      let v := min b.entrySpeedSqr (current.reach current.entrySpeedSqr)
      let limited := current.reach current.entrySpeedSqr < b.entrySpeedSqr
      let res := forwardPass (b.setEntry v) (idx + 1)
        (if limited ∨ v = b.maxEntrySpeedSqr then idx else planned) bs
      (b.setEntry v :: res.1, res.2) := by
  have hle : current.entrySpeedSqr ≤ current.reach current.entrySpeedSqr := current.le_reach _
  have hreach : current.entrySpeedSqr + 2 * current.acceleration * current.millimeters =
      current.reach current.entrySpeedSqr := rfl
  by_cases hl : current.reach current.entrySpeedSqr < b.entrySpeedSqr
  · simp only [forwardPass, hreach, if_pos (hle.trans_lt hl), min_eq_right hl.le, hl, true_or,
      if_true, ite_self]
  · have hv := min_eq_left (not_lt.mp hl)
    simp only [forwardPass, hreach, hl, if_false, ite_self, hv, false_or, setEntry_self]

/-- The forward pass computes the planned speeds from the reverse speeds. -/
theorem forwardPass_eq (idx planned : ℕ) :
    (forwardPass current idx planned (withEntries bs ((rules K).revs 0 bs))).1 =
      withEntries bs ((rules K).plan 0 (current.reach current.entrySpeedSqr) bs) := by
  induction bs generalizing current idx planned with
  | nil => rfl
  | cons b bs ih =>
    simp only [Rules.revs_cons, withEntries_cons, forwardPass_cons, Rules.plan_cons,
      setEntry_entry, setEntry_setEntry, ih]
    rfl

/-- The speeds up to block `k` behind the tail are not changed by blocks added to the path. -/
def SettledAt (g : K) (bs : List (PlanBlock K)) (k : ℕ) : Prop :=
  k ≤ bs.length ∧ (rules K).Settled ((rules K).rev 0 (bs.drop k)) g (bs.take k)

theorem SettledAt.zero : SettledAt g bs 0 := ⟨Nat.zero_le _, Rules.Settled.nil⟩

/-- A block entered at its cap or as fast as it can be reached settles the path up to it. -/
theorem settledAt_concat
    (h : (rules K).out ((rules K).rev 0 (b :: ys)) g xs < (rules K).rev 0 (b :: ys) ∨
      min ((rules K).rev 0 (b :: ys)) ((rules K).out ((rules K).rev 0 (b :: ys)) g xs) =
        b.maxEntrySpeedSqr) :
    SettledAt g (xs ++ b :: ys) (xs.length + 1) := by
  have hr : (rules K).rev 0 (b :: ys) = (rules K).rev ((rules K).rev 0 ys) [b] := rfl
  have ht : (xs ++ b :: ys).take (xs.length + 1) = xs ++ [b] := by simp [List.take_append]
  have hd : (xs ++ b :: ys).drop (xs.length + 1) = ys := by simp [List.drop_append]
  refine ⟨by simp, ?_⟩
  rw [ht, hd]
  rw [hr] at h
  rcases h with h | h
  · exact Rules.Settled.concat_of_limited (Rules.Settled.of_out_lt h) h.le
  · exact Rules.Settled.concat_of_cap h

/-- The forward pass moves `planned` only to blocks up to which the path is settled. -/
theorem settledAt_forwardPass (planned : ℕ)
    (hc : current.reach current.entrySpeedSqr = (rules K).out ((rules K).rev 0 ys) g xs)
    (hp : SettledAt g (xs ++ ys) planned) :
    SettledAt g (xs ++ ys) (forwardPass current (xs.length + 1) planned
      (withEntries ys ((rules K).revs 0 ys))).2 := by
  induction ys generalizing current xs planned with
  | nil => exact hp
  | cons b ys ih =>
    have happ : xs ++ b :: ys = (xs ++ [b]) ++ ys := by simp
    simp only [Rules.revs_cons, withEntries_cons, forwardPass_cons, setEntry_entry,
      setEntry_setEntry, setEntry_max]
    have hlen : xs.length + 1 + 1 = (xs ++ [b]).length + 1 := by simp
    rw [happ, hlen]
    refine ih _ ?_ ?_
    · rw [setEntry_reach, setEntry_entry, hc, Rules.out_concat]; rfl
    · rw [← happ, hc]
      exact iteInduction (motive := SettledAt g (xs ++ b :: ys)) settledAt_concat fun _ => hp

theorem SkipSafe.drop (h : SkipSafe bs) (k : ℕ) : SkipSafe (bs.drop k) := by
  induction bs generalizing k with
  | nil => simpa using h
  | cons b bs ih =>
    cases k with
    | zero => exact h
    | succ k => exact ih h.2 k

/-- Feasible entry speeds make every later reverse pass skip rightly. -/
theorem SkipSafe.append_of_feasible (h : (rules K).Feasible 0 bs (bs.map entrySpeedSqr))
    (hc : SkipSafe ys) : SkipSafe (bs ++ ys) := by
  induction bs with
  | nil => exact hc
  | cons b bs ih =>
    obtain ⟨-, hg, -, hs⟩ := h
    refine ⟨fun _ hm => ?_, ih hs⟩
    rw [← hm]
    exact hg.trans (b.reach_mono (hs.headD_le_rev.trans Rules.rev_le_rev_append))

end PlanBlock

namespace Planner

open PlanBlock TwoPass

variable {K : Type*} [Field K] [LinearOrder K] {p : Planner K} {t : PlanBlock K}
  {bs : List (PlanBlock K)}

theorem drop_cons_eq_getLastD (t : PlanBlock K) {k : ℕ} (hk : k ≤ bs.length) :
    (t :: bs).drop k = (bs.take k).getLastD t :: bs.drop k := by
  induction bs generalizing t k with
  | nil => simp_all
  | cons b bs ih =>
    cases k with
    | zero => simp
    | succ k =>
      rw [List.drop_succ_cons, List.take_succ_cons, List.getLastD_cons, List.drop_succ_cons]
      exact ih b (by simpa using hk)

theorem take_cons_append_getLastD (t : PlanBlock K) {k : ℕ} (hk : k ≤ bs.length)
    (ys : List (PlanBlock K)) :
    (t :: bs).take k ++ (bs.take k).getLastD t :: ys = t :: (bs.take k ++ ys) := by
  induction bs generalizing t k with
  | nil => simp_all
  | cons b bs ih =>
    cases k with
    | zero => simp
    | succ k =>
      rw [List.take_succ_cons, List.take_succ_cons, List.getLastD_cons, List.cons_append,
        List.cons_append, ih b (by simpa using hk)]

/-- The stepper's update only sets the entry speed of the tail. -/
theorem stUpdate_queue (hq : p.queue = t :: bs) :
    ∃ v, (v = t.entrySpeedSqr ∨ v = p.currentSpeed * p.currentSpeed) ∧
      p.stUpdatePlanBlockParameters.queue = t.setEntry v :: bs := by
  unfold stUpdatePlanBlockParameters
  split
  · exact ⟨t.entrySpeedSqr, .inl rfl, by rw [hq, setEntry_self]⟩
  · exact ⟨p.currentSpeed * p.currentSpeed, .inr rfl, by simp [hq]⟩
  · exact ⟨t.entrySpeedSqr, .inl rfl, by simp [hq]⟩

theorem stUpdate_planned : p.stUpdatePlanBlockParameters.planned = p.planned := by
  unfold stUpdatePlanBlockParameters
  split <;> rfl

section Map

variable {α : Type*} {f : PlanBlock K → α}

theorem stUpdate_map (hf : ∀ b v, f (setEntry b v) = f b) :
    p.stUpdatePlanBlockParameters.queue.map f = p.queue.map f := by
  unfold stUpdatePlanBlockParameters
  split
  · rfl
  · cases hq : p.queue <;> simp [hf]
  · rfl

/-- Replanning keeps everything about the blocks but their entry speeds. -/
theorem plannerRecalculate_map (hf : ∀ b v, f (setEntry b v) = f b) :
    p.plannerRecalculate.queue.map f = p.queue.map f := by
  unfold plannerRecalculate
  split
  · rfl
  · rfl
  · rename_i current rest _ hd
    have hst : (if p.planned = 0 then p.stUpdatePlanBlockParameters else p).queue.map f =
        p.queue.map f := by
      split
      · exact stUpdate_map hf
      · rfl
    dsimp only
    split
    · exact hst
    · rename_i c tl hc
      have hpl : (if p.planned = 0 then p.stUpdatePlanBlockParameters else p).planned =
          p.planned := by
        split
        · exact stUpdate_planned
        · rfl
      rw [hpl] at hc ⊢
      have hdrop : f c :: tl.map f = f current :: rest.map f := by
        rw [← List.map_cons, ← List.map_cons, ← hc, ← hd, List.map_drop, List.map_drop, hst]
      rw [List.map_append, List.map_cons, List.map_take, hst, forwardPass_map hf,
        reversePass_map hf, (List.cons.inj hdrop).1, ← List.map_cons, ← hd, ← List.map_take,
        ← List.map_append, List.take_append_drop]

theorem plannerRecalculate_getLast? (hf : ∀ b v, f (setEntry b v) = f b) :
    p.plannerRecalculate.queue.getLast?.map f = p.queue.getLast?.map f := by
  rw [← List.getLast?_map, plannerRecalculate_map hf, List.getLast?_map]

end Map

theorem stUpdate_position : p.stUpdatePlanBlockParameters.position = p.position := by
  unfold stUpdatePlanBlockParameters
  split <;> rfl

theorem plannerRecalculate_position : p.plannerRecalculate.position = p.position := by
  unfold plannerRecalculate
  split
  · rfl
  · rfl
  · dsimp only
    split <;> split <;> first | rfl | exact stUpdate_position

/-- Nothing is replanned while the planned block is the newest one. -/
theorem plannerRecalculate_of_last (hq : p.queue = t :: bs) (hk : p.planned = bs.length) :
    p.plannerRecalculate = p := by
  unfold plannerRecalculate
  rw [hq, drop_cons_eq_getLastD t hk.le, hk, List.drop_length]

variable [IsStrictOrderedRing K]

/-- Replanning keeps the blocks up to the planned one, a new tail speed apart, and gives the
blocks behind it their planned speeds. -/
theorem plannerRecalculate_cons (hq : p.queue = t :: bs) (hk : p.planned < bs.length)
    (hs : SkipSafe (bs.drop p.planned)) :
    ∃ v, (v = t.entrySpeedSqr ∨ v = p.currentSpeed * p.currentSpeed) ∧
      (p.planned ≠ 0 → v = t.entrySpeedSqr) ∧
      let current := (bs.take p.planned).getLastD (t.setEntry v)
      p.plannerRecalculate.queue = t.setEntry v :: (bs.take p.planned ++
          withEntries (bs.drop p.planned)
            ((rules K).plan 0 (current.reach current.entrySpeedSqr) (bs.drop p.planned))) ∧
      p.plannerRecalculate.planned = (forwardPass current (p.planned + 1) p.planned
        (withEntries (bs.drop p.planned) ((rules K).revs 0 (bs.drop p.planned)))).2 := by
  obtain ⟨b, rest, hr⟩ : ∃ b rest, bs.drop p.planned = b :: rest :=
    List.exists_cons_of_ne_nil (by simpa using hk)
  have hd : p.queue.drop p.planned = (bs.take p.planned).getLastD t :: b :: rest := by
    rw [hq, drop_cons_eq_getLastD t hk.le, hr]
  obtain ⟨v, hv, hv0, hstart⟩ : ∃ v,
      (v = t.entrySpeedSqr ∨ v = p.currentSpeed * p.currentSpeed) ∧
      (p.planned ≠ 0 → v = t.entrySpeedSqr) ∧
      (if p.planned = 0 then p.stUpdatePlanBlockParameters else p).queue =
        t.setEntry v :: bs := by
    by_cases h0 : p.planned = 0
    · obtain ⟨v, hv, he⟩ := stUpdate_queue hq
      exact ⟨v, hv, fun h => absurd h0 h, by rw [if_pos h0, he]⟩
    · exact ⟨t.entrySpeedSqr, .inl rfl, fun _ => rfl, by rw [if_neg h0, hq, setEntry_self]⟩
  have hplanned : (if p.planned = 0 then p.stUpdatePlanBlockParameters else p).planned =
      p.planned := by
    split
    · exact stUpdate_planned
    · rfl
  refine ⟨v, hv, hv0, ?_⟩
  unfold plannerRecalculate
  rw [hd]
  simp only [hstart, hplanned, drop_cons_eq_getLastD _ hk.le, ← hr, reversePass_eq hs,
    forwardPass_eq, take_cons_append_getLastD _ hk.le, and_self]

end Planner

end Inspector
