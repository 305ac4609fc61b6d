import Inspector.Planner.Override
import Inspector.Planner.Passes

/-! # Feasible speeds

A buffer is feasible if every block past the tail can be entered at its entry speed and left at
that of the next one, the newest block at rest. Appends, discards and replans keep the buffer
feasible. An override change does if it leaves no block at a maximum entry speed from which the
blocks behind it cannot be planned, since the reverse pass does not look at such a block.
-/

namespace Inspector

namespace PlanBlock

open TwoPass

variable {K : Type*} [Field K] [LinearOrder K] {b t : PlanBlock K} {bs xs : List (PlanBlock K)}
  {g : K}

/-- All blocks are entered forwards. -/
def EntryNonneg (bs : List (PlanBlock K)) : Prop := ∀ b ∈ bs, 0 ≤ b.entrySpeedSqr

theorem entryNonneg_cons : EntryNonneg (b :: bs) ↔ 0 ≤ b.entrySpeedSqr ∧ EntryNonneg bs :=
  List.forall_mem_cons

theorem entryNonneg_append :
    EntryNonneg (bs ++ xs) ↔ EntryNonneg bs ∧ EntryNonneg xs :=
  List.forall_mem_append

theorem entryNonneg_congr (h : xs.map entrySpeedSqr = bs.map entrySpeedSqr)
    (hb : EntryNonneg bs) : EntryNonneg xs := by
  intro b hx
  obtain ⟨c, hc, he⟩ := List.mem_map.mp (h ▸ List.mem_map_of_mem (f := entrySpeedSqr) hx)
  exact he ▸ hb c hc

theorem entryNonneg_withEntries {vs : List K} (h : bs.length = vs.length)
    (hv : ∀ v ∈ vs, 0 ≤ v) : EntryNonneg (withEntries bs vs) := by
  intro b hb
  apply hv
  rw [← map_entry_withEntries h]
  exact List.mem_map_of_mem hb

variable [IsStrictOrderedRing K]

/-- The forward pass leaves `planned` among the blocks it has seen. -/
theorem forwardPass_le {n idx planned : ℕ} (hp : planned ≤ n) (hi : idx + bs.length ≤ n + 1) :
    (forwardPass t idx planned bs).2 ≤ n := by
  induction bs generalizing t idx planned with
  | nil => exact hp
  | cons b bs ih =>
    rw [forwardPass_cons]
    rw [List.length_cons] at hi
    apply ih
    · split_ifs <;> omega
    · omega

/-- The last of some blocks is left at the end of the path they drive. -/
theorem leave_map_entry :
    (rules K).leave (t.reach t.entrySpeedSqr) xs (xs.map entrySpeedSqr) =
      (xs.getLastD t).reach (xs.getLastD t).entrySpeedSqr := by
  induction xs generalizing t with
  | nil => rfl
  | cons b xs ih =>
    rw [List.getLastD_cons]
    exact ih

theorem leave_nonneg (hg : 0 ≤ g) (hx : EntryNonneg xs) :
    0 ≤ (rules K).leave g xs (xs.map entrySpeedSqr) := by
  induction xs generalizing g with
  | nil => exact hg
  | cons b xs ih =>
    obtain ⟨hb, hx⟩ := entryNonneg_cons.mp hx
    exact ih (hb.trans (b.le_reach _)) hx

theorem updateProfile_map {fr rr : ℕ} {rpm : PlanBlock K → K} {prev : K} :
    (updateProfile fr rr rpm prev bs).1.map entrySpeedSqr = bs.map entrySpeedSqr := by
  induction bs generalizing prev with
  | nil => rfl
  | cons b bs ih => simp only [updateProfile, List.map_cons, ih, planComputeProfileParameters]

/-- The condition under which the reverse pass is a plain one. -/
theorem reversePass_eq_iff :
    reversePass bs = withEntries bs ((rules K).revs 0 bs) ↔ SkipSafe bs := by
  refine ⟨fun h => ?_, reversePass_eq⟩
  induction bs with
  | nil => trivial
  | cons b bs ih =>
    cases bs with
    | nil => exact ⟨fun h => absurd rfl h, trivial⟩
    | cons c bs =>
      rw [reversePass_cons, Rules.revs_cons, withEntries_cons] at h
      split at h
      · simp [Rules.revs_cons] at h
      · rename_i next rest hn
        obtain ⟨hb, hs⟩ := List.cons.inj h
        rw [← hn] at hs
        refine ⟨fun _ hm => ?_, ih hs⟩
        have he : (b.reverseStep next).entrySpeedSqr = b.entrySpeedSqr := by
          simp [reverseStep, hm]
        have hv := congrArg entrySpeedSqr hb
        rw [he, hm, setEntry_entry, Rules.rev_cons] at hv
        exact min_eq_left_iff.mp hv.symm

end PlanBlock

namespace Planner

open PlanBlock TwoPass

variable {K : Type*} [Field K] [LinearOrder K] [IsStrictOrderedRing K] {p : Planner K}
  {t : PlanBlock K} {bs : List (PlanBlock K)}

/-- Every block past the tail can be driven between its own entry speed and the next one. -/
def Feasible (p : Planner K) : Prop :=
  ∀ i b, p.queue[i + 1]? = some b →
    let exit := (p.queue[i + 2]?).elim 0 entrySpeedSqr
    b.entrySpeedSqr ≤ b.maxEntrySpeedSqr ∧
      exit ≤ b.entrySpeedSqr + 2 * b.acceleration * b.millimeters ∧
      b.entrySpeedSqr ≤ exit + 2 * b.acceleration * b.millimeters

/-- Feasible speeds, with what keeps them so. -/
structure Sound (p : Planner K) : Prop where
  planned_le : p.planned ≤ p.queue.tail.length
  feasible : (rules K).Feasible 0 p.queue.tail (p.queue.tail.map entrySpeedSqr)
  nonneg : EntryNonneg p.queue

theorem Sound.nil (hq : p.queue = []) (hk : p.planned = 0) : p.Sound where
  planned_le := by simp [hk]
  feasible := by rw [hq]; trivial
  nonneg := by rw [hq]; exact fun _ h => absurd h List.not_mem_nil

theorem feasible_getElem (h : (rules K).Feasible 0 bs (bs.map entrySpeedSqr))
    (hn : EntryNonneg bs) {i : ℕ} {b : PlanBlock K} (hb : bs[i]? = some b) :
    let exit := (bs[i + 1]?).elim 0 entrySpeedSqr
    b.entrySpeedSqr ≤ b.maxEntrySpeedSqr ∧ exit ≤ b.reach b.entrySpeedSqr ∧
      b.entrySpeedSqr ≤ b.reach exit := by
  induction bs generalizing i with
  | nil => simp at hb
  | cons c bs ih =>
    obtain ⟨hc, hg, hx, hs⟩ := h
    obtain ⟨hc0, hn⟩ := entryNonneg_cons.mp hn
    cases i with
    | succ i => exact ih hs hn hb
    | zero =>
      obtain rfl : c = b := by simpa using hb
      cases bs with
      | nil => exact ⟨hc, hc0.trans (c.le_reach _), hg⟩
      | cons d bs => exact ⟨hc, hx _ (by simp), hg⟩

theorem Sound.toFeasible (h : p.Sound) : p.Feasible := by
  intro i b hb
  have hd : ∀ j, p.queue[j + 1]? = p.queue.tail[j]? := by
    intro j
    cases p.queue <;> simp
  have hn : EntryNonneg p.queue.tail := fun c hc => h.nonneg c (List.mem_of_mem_tail hc)
  rw [hd] at hb
  rw [hd (i + 1)]
  exact feasible_getElem h.feasible hn hb

variable {fs : List K}

/-- Replanning behind a feasible prefix gives a feasible buffer. -/
theorem sound_plannerRecalculate (hq : p.queue = t :: bs) (hk : p.planned < bs.length)
    (hs : SkipSafe (bs.drop p.planned))
    (hf : (rules K).Feasible 0 (bs.take p.planned ++ bs.drop p.planned)
      ((bs.take p.planned).map entrySpeedSqr ++ fs))
    (hn : EntryNonneg p.queue) : p.plannerRecalculate.Sound := by
  obtain ⟨v, hv, -, hqueue, hplanned⟩ := plannerRecalculate_cons hq hk hs
  have hl : ∀ g, (bs.drop p.planned).length = ((rules K).plan 0 g (bs.drop p.planned)).length :=
    fun g => Rules.length_plan.symm
  rw [hq, entryNonneg_cons] at hn
  obtain ⟨ht, hn⟩ := hn
  have hv : 0 ≤ v := by
    rcases hv with rfl | rfl
    · exact ht
    · exact mul_self_nonneg _
  have htake : EntryNonneg (bs.take p.planned) := fun b hb => hn b (List.mem_of_mem_take hb)
  rw [← leave_map_entry, setEntry_reach, setEntry_entry] at hqueue
  constructor
  · rw [hplanned, hqueue, List.tail_cons, List.length_append, length_withEntries (hl _),
      ← List.length_append, List.take_append_drop]
    apply forwardPass_le hk.le
    rw [length_withEntries Rules.length_revs.symm, List.length_drop]
    omega
  · have hfs := hf.replan (g := t.reach v) (List.length_map _).symm
    rw [hqueue, List.tail_cons, List.map_append, map_entry_withEntries (hl _)]
    refine Rules.feasible_congr (List.rel_append ?_ (alike_withEntries (hl _))) hfs
    exact List.forall₂_same.mpr fun _ _ => Rules.Alike.rfl
  · rw [hqueue, entryNonneg_cons, entryNonneg_append]
    refine ⟨hv, htake, entryNonneg_withEntries (hl _) ?_⟩
    exact Rules.stop_le_plan (leave_nonneg (hv.trans (t.le_reach v)) htake)

theorem Sound.skipSafe (h : p.Sound) : SkipSafe p.queue.tail := by
  have := SkipSafe.append_of_feasible h.feasible (show SkipSafe [] from trivial)
  rwa [List.append_nil] at this

theorem Sound.plannerRecalculate (h : p.Sound) : p.plannerRecalculate.Sound := by
  cases hq : p.queue with
  | nil =>
    have hp : p.plannerRecalculate = p := by simp [Planner.plannerRecalculate, hq]
    rwa [hp]
  | cons t bs =>
    have hk := h.planned_le
    have hf := h.feasible
    have hs := h.skipSafe
    rw [hq, List.tail_cons] at hk hf hs
    rcases hk.lt_or_eq with hk | hk
    · rw [← List.take_append_drop p.planned bs, List.map_append] at hf
      exact sound_plannerRecalculate hq hk (hs.drop _) hf h.nonneg
    · rwa [plannerRecalculate_of_last hq hk]

/-- Replanning from the tail needs no more than a reverse pass that skips rightly. -/
theorem sound_plannerRecalculate_zero (hk : p.planned = 0) (hs : SkipSafe p.queue.tail)
    (hn : EntryNonneg p.queue) : p.plannerRecalculate.Sound := by
  cases hq : p.queue with
  | nil =>
    apply Sound.plannerRecalculate
    exact Sound.nil hq hk
  | cons t bs =>
    rw [hq, List.tail_cons] at hs
    cases bs with
    | nil =>
      rw [plannerRecalculate_of_last hq hk]
      exact ⟨by simp [hk], by simp [hq, Rules.Feasible], hn⟩
    | cons b bs =>
      have hlt : p.planned < (b :: bs).length := by
        rw [hk]
        exact Nat.succ_pos _
      have hf : (rules K).Feasible 0
          ((b :: bs).take p.planned ++ (b :: bs).drop p.planned)
          (((b :: bs).take p.planned).map entrySpeedSqr ++ (rules K).plan 0 0 (b :: bs)) := by
        rw [hk]
        exact Rules.feasible_plan
      exact sound_plannerRecalculate hq hlt (hs.drop _) hf hn

theorem sound_planCycleReinitialize (hs : SkipSafe p.queue.tail) (hn : EntryNonneg p.queue) :
    p.planCycleReinitialize.Sound := by
  have hq : p.stUpdatePlanBlockParameters.queue.tail = p.queue.tail ∧
      EntryNonneg p.stUpdatePlanBlockParameters.queue := by
    cases hq : p.queue with
    | nil =>
      have hq' : p.stUpdatePlanBlockParameters.queue = [] := by
        unfold stUpdatePlanBlockParameters
        split <;> simp [hq]
      rw [hq']
      exact ⟨rfl, fun _ h => absurd h List.not_mem_nil⟩
    | cons t bs =>
      obtain ⟨v, hv, hq'⟩ := stUpdate_queue hq
      rw [hq, entryNonneg_cons] at hn
      rw [hq']
      refine ⟨rfl, entryNonneg_cons.mpr ⟨?_, hn.2⟩⟩
      rcases hv with rfl | rfl
      · exact hn.1
      · exact mul_self_nonneg _
  rw [← hq.1] at hs
  unfold planCycleReinitialize
  dsimp only
  split_ifs with h
  · exact sound_plannerRecalculate_zero rfl hs hq.2
  · exact Sound.nil (not_not.mp h) rfl

theorem setOverrides_planned {rpm : PlanBlock K → K} {fr rr : ℕ} :
    (p.setOverrides rpm fr rr).planned = p.planned := by
  unfold setOverrides planUpdateVelocityProfileParameters
  dsimp only
  split_ifs <;> rfl

theorem setOverrides_map (rpm : PlanBlock K → K) (fr rr : ℕ) (p : Planner K) :
    (p.setOverrides rpm fr rr).queue.map entrySpeedSqr = p.queue.map entrySpeedSqr := by
  unfold setOverrides planUpdateVelocityProfileParameters
  dsimp only
  split_ifs
  · rfl
  · exact updateProfile_map

theorem Sound.planDiscardCurrentBlock (h : p.Sound) : p.planDiscardCurrentBlock.Sound := by
  unfold Planner.planDiscardCurrentBlock
  split
  · exact h
  · rename_i t bs hq
    obtain ⟨hk, hf, hn⟩ := h
    rw [hq, List.tail_cons] at hk hf
    rw [hq] at hn
    refine ⟨?_, ?_, (entryNonneg_cons.mp hn).2⟩
    · rw [List.length_tail]
      exact Nat.sub_le_sub_right hk 1
    · cases bs with
      | nil => trivial
      | cons b bs => exact hf.2.2.2

end Planner

namespace PlannerSystem

open PlanBlock Planner TwoPass

variable {K : Type*} [Field K] [LinearOrder K] [IsStrictOrderedRing K] [FloorRing K]
  {m : FloatMath K} {s : Settings K} {x : PlannerSystem K}

/-- After an override change no queued block but the tail and the newest one stays at its new
maximum entry speed where the blocks behind it need a lower one. -/
def OverrideSafe (x : PlannerSystem K) : Op K → Prop
  | .override rpm feedOverride rapidOverride =>
    let r := rates (x.sys.set feedOverride rapidOverride)
    r = (x.planner.overrideFeedRate, x.planner.overrideRapidRate) ∨
      SkipSafe (x.planner.setOverrides rpm r.1 r.2).queue.tail
  | _ => True

theorem sound_pushBlock {rpm : K} {target : Axis → K} {plData : PlanLineData K} {p : Planner K}
    (h : p.Sound) : (pushBlock m s rpm target plData p).Sound := by
  have hc := makeBlock_entry m s rpm target plData p
  have hq := pushBlock_queue m s rpm target plData p
  have hk : (pushBlock m s rpm target plData p).planned = p.planned := rfl
  generalize (makeBlock m s rpm target plData p).1 = c at hc hq
  obtain ⟨hle, hf, hn⟩ := h
  have hnc : EntryNonneg (p.queue ++ [c]) := by
    refine entryNonneg_append.mpr ⟨hn, entryNonneg_cons.mpr ⟨hc.ge, ?_⟩⟩
    exact fun _ h => absurd h List.not_mem_nil
  cases hp : p.queue with
  | nil =>
    rw [hp] at hle hq hnc
    exact ⟨by simpa [hk, hq] using hle, by rw [hq]; trivial, by rwa [hq]⟩
  | cons t bs =>
    rw [hp] at hle hf hn hq hnc
    rw [List.tail_cons] at hle hf
    refine ⟨?_, ?_, by rwa [hq]⟩
    · rw [hk, hq, List.cons_append, List.tail_cons, List.length_append]
      exact hle.trans (Nat.le_add_right _ _)
    · rw [hq, List.cons_append, List.tail_cons, List.map_append, List.map_singleton, hc]
      refine hf.concat fun e he => ?_
      obtain ⟨b, hb, rfl⟩ := List.mem_map.mp he
      exact (entryNonneg_cons.mp hn).2 b hb

theorem sound_exec (op : Op K) (ho : x.OverrideSafe op) (h : x.planner.Sound) :
    (exec m s x op).planner.Sound := by
  cases op with
  | buffer op =>
    cases op with
    | line rpm target plData =>
      rcases planBufferLine_cases m s rpm target plData x.planner with
        ⟨hq, hk, -⟩ | ⟨-, -, he⟩
      · obtain ⟨hle, hf, hn⟩ := h
        constructor <;> simp only [exec, Planner.exec, hq, hk] <;> assumption
      · simpa only [exec, Planner.exec, he] using (sound_pushBlock h).plannerRecalculate
    | discard => exact h.planDiscardCurrentBlock
    | report => exact ⟨h.planned_le, h.feasible, h.nonneg⟩
  | advance speed millimeters hm =>
    obtain ⟨hle, hf, hn⟩ := h
    simp only [exec]
    cases hq : x.planner.queue with
    | nil => exact Planner.Sound.nil rfl (by simpa [hq] using hle)
    | cons t bs =>
      rw [hq] at hle hf hn
      exact ⟨hle, hf, entryNonneg_cons.mpr ⟨mul_self_nonneg _, (entryNonneg_cons.mp hn).2⟩⟩
  | replan => exact sound_planCycleReinitialize h.skipSafe h.nonneg
  | override rpm feedOverride rapidOverride =>
    simp only [exec, planFeedOverride, planFeedOverrideRates]
    split_ifs with hr hq
    · have hs := ho.resolve_left fun he => ?_
      · exact sound_planCycleReinitialize hs (entryNonneg_congr (setOverrides_map _ _ _ _) h.nonneg)
      · rw [Prod.ext_iff] at he
        exact hr.elim (absurd he.1) (absurd he.2)
    · have hq := not_not.mp hq
      have hp := setOverrides_map rpm (rates (x.sys.set feedOverride rapidOverride)).1
        (rates (x.sys.set feedOverride rapidOverride)).2 x.planner
      rw [hq] at hp
      have hp : x.planner.queue = [] := List.map_eq_nil_iff.mp hp.symm
      exact Sound.nil hq (setOverrides_planned.trans
        (by simpa [hp] using h.planned_le))
    · exact h

instance (x : PlannerSystem K) : ∀ op : Op K, Decidable (x.OverrideSafe op)
  | .override rpm feedOverride rapidOverride =>
    inferInstanceAs (Decidable (rates (x.sys.set feedOverride rapidOverride) =
        (x.planner.overrideFeedRate, x.planner.overrideRapidRate) ∨
      SkipSafe (x.planner.setOverrides rpm (rates (x.sys.set feedOverride rapidOverride)).1
        (rates (x.sys.set feedOverride rapidOverride)).2).queue.tail))
  | .buffer _ => .isTrue trivial
  | .advance _ _ _ => .isTrue trivial
  | .replan => .isTrue trivial

/-- In every run from the empty buffer whose override changes are safe, all states are feasible. -/
theorem feasible_states (m : FloatMath K) (s : Settings K) (sys : SysOverride) (p : Planner K)
    (ops : List (Op K))
    (h : Transition.Along (exec m s) OverrideSafe
      ⟨sys, Planner.planReset sys.feedRate sys.rapidRate p⟩ ops) :
    ∀ y ∈ Transition.states (exec m s)
      ⟨sys, Planner.planReset sys.feedRate sys.rapidRate p⟩ ops, y.planner.Feasible := by
  intro y hy
  have hsound := Transition.forall_states (I := fun y : PlannerSystem K => y.planner.Sound)
    (fun x op ho hx => sound_exec op ho hx) (Planner.Sound.nil rfl rfl) h y hy
  exact hsound.toFeasible

section Runs

open Planner (ratMath ratSettings restPlanner lineX)

/-- A planner after its reset. -/
def resetSystem : PlannerSystem ℚ where
  sys := ⟨100, 100, false⟩
  planner := Planner.planReset 100 100 restPlanner

/-- A motion along the first axis. -/
def moveX (rapid : Bool) (target feedRate : ℚ) : Op ℚ :=
  .buffer (lineX rapid target feedRate)

/-- Two rapids and a feed motion on one line, then a change of the feed override. -/
def overrideRun (feedOverride : ℕ) : List (Op ℚ) :=
  [moveX true 10 0, moveX true 12 0, moveX false 22 400, .override (fun _ => 0) feedOverride 100]

/-- Lowering the feed override to 90 % leaves the second rapid at a speed that the feed motion
behind it can follow. -/
theorem feasible_overrideRun :
    ((overrideRun 90).foldl (exec ratMath ratSettings) resetSystem).planner.Feasible :=
  feasible_states ratMath ratSettings ⟨100, 100, false⟩ restPlanner (overrideRun 90)
    (by decide +kernel) _ Transition.foldl_mem_states

/-- Lowering it to 10 % does not: the reverse pass leaves the rapid at its maximum entry speed. -/
theorem not_feasible_overrideRun :
    ¬ ((overrideRun 10).foldl (exec ratMath ratSettings) resetSystem).planner.Feasible := by
  intro h
  have hblocks : (((overrideRun 10).foldl (exec ratMath ratSettings)
      resetSystem).planner.queue.map fun b => (b.entrySpeedSqr, b.acceleration, b.millimeters)) =
        [(0, 36000, 10), (250000, 36000, 2), (1600, 36000, 10)] := by
    decide +kernel
  generalize ((overrideRun 10).foldl (exec ratMath ratSettings) resetSystem).planner = p
    at h hblocks
  obtain ⟨a, as, ha, -, has⟩ := List.map_eq_cons_iff.mp hblocks
  obtain ⟨b, bs, hb, hb', hbs⟩ := List.map_eq_cons_iff.mp has
  obtain ⟨c, cs, hc, hc', -⟩ := List.map_eq_cons_iff.mp hbs
  simp only [Prod.mk.injEq] at hb' hc'
  have hfast := (h 0 b (by simp [ha, hb])).2.2
  simp only [ha, hb, hc, List.getElem?_cons_succ, List.getElem?_cons_zero, Option.elim_some] at hfast
  rw [hb'.1, hb'.2.1, hb'.2.2, hc'.1] at hfast
  norm_num at hfast

end Runs

end PlannerSystem

end Inspector
