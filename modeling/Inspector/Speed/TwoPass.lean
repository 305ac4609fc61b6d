import Inspector.Numerals
import Mathlib.Order.Lattice
import Mathlib.Order.MinMax
import Mathlib.Data.List.Induction

/-! # Two-pass speed planning

A path is a list of links, each with a cap on the speed at its start and a gain: the greatest
speed at one end that the link can connect to a given speed at its other end. The reverse pass
finds the greatest speeds from which the path can still be left at a given speed, the forward
pass lowers them to what can be reached. A prefix is settled when no faster exit changes its
speeds, so planning may start behind it.
-/

namespace TwoPass

/-- Caps and gains of the links of a path; `stop` is the speed at rest. -/
structure Rules (β α : Type*) [LinearOrder α] where

  stop : α

  cap : β → α

  gain : β → α → α
  stop_le_cap : ∀ b, stop ≤ cap b
  le_gain : ∀ b x, x ≤ gain b x
  gain_mono : ∀ b, Monotone (gain b)

namespace Rules

variable {α β : Type*} [LinearOrder α] (R : Rules β α)

/-- The greatest speed at the start of a path that is left at speed `r`. -/
def rev (r : α) : List β → α
  | [] => r
  | b :: bs => min (R.cap b) (R.gain b (rev r bs))

/-- The reverse speeds of all links of a path. -/
def revs (r : α) : List β → List α
  | [] => []
  | b :: bs => R.rev r (b :: bs) :: revs r bs

/-- The planned start speeds of the links of a path entered at speed `g` or less. -/
def plan (r : α) : α → List β → List α
  | _, [] => []
  | g, b :: bs =>
    let e := min (R.rev r (b :: bs)) g
    e :: plan r (R.gain b e) bs

/-- The greatest speed at the end of a planned path. -/
def out (r : α) : α → List β → α
  | g, [] => g
  | g, b :: bs => out r (R.gain b (min (R.rev r (b :: bs)) g)) bs

variable {R} {r r' g : α} {b : β} {bs cs : List β}

@[simp] theorem rev_nil : R.rev r [] = r := rfl
@[simp] theorem plan_nil : R.plan r g [] = [] := rfl
@[simp] theorem out_nil : R.out r g [] = g := rfl

@[simp] theorem revs_nil : R.revs r [] = [] := rfl

theorem revs_cons : R.revs r (b :: bs) = R.rev r (b :: bs) :: R.revs r bs := rfl

theorem rev_cons : R.rev r (b :: bs) = min (R.cap b) (R.gain b (R.rev r bs)) := rfl

theorem plan_cons : R.plan r g (b :: bs) =
    min (R.rev r (b :: bs)) g :: R.plan r (R.gain b (min (R.rev r (b :: bs)) g)) bs := rfl

theorem out_cons : R.out r g (b :: bs) =
    R.out r (R.gain b (min (R.rev r (b :: bs)) g)) bs := rfl

@[simp] theorem length_plan : (R.plan r g bs).length = bs.length := by
  induction bs generalizing g with
  | nil => rfl
  | cons b bs ih => simp [plan_cons, ih]

@[simp] theorem length_revs : (R.revs r bs).length = bs.length := by
  induction bs with
  | nil => rfl
  | cons b bs ih => simp [revs_cons, ih]

section Congr

/-- Two links that no plan can tell apart. -/
def Alike (R : Rules β α) (b c : β) : Prop := R.cap b = R.cap c ∧ R.gain b = R.gain c

theorem rev_congr (h : List.Forall₂ R.Alike bs cs) : R.rev r bs = R.rev r cs := by
  induction h with
  | nil => rfl
  | cons hb _ ih => rw [rev_cons, rev_cons, hb.1, hb.2, ih]

theorem plan_congr (h : List.Forall₂ R.Alike bs cs) : R.plan r g bs = R.plan r g cs := by
  induction h generalizing g with
  | nil => rfl
  | cons hb hs ih =>
    have hr := rev_congr (r := r) (List.Forall₂.cons hb hs)
    rw [plan_cons, plan_cons, hr, hb.2, ih]

theorem Alike.rfl : R.Alike b b := ⟨Eq.refl _, Eq.refl _⟩

end Congr

theorem rev_append : R.rev r (bs ++ cs) = R.rev (R.rev r cs) bs := by
  induction bs with
  | nil => rfl
  | cons b bs ih => simp only [List.cons_append, rev_cons, ih]

theorem plan_append : R.plan r g (bs ++ cs) =
    R.plan (R.rev r cs) g bs ++ R.plan r (R.out (R.rev r cs) g bs) cs := by
  induction bs generalizing g with
  | nil => rfl
  | cons b bs ih =>
    have hr : R.rev r (b :: bs ++ cs) = R.rev (R.rev r cs) (b :: bs) := rev_append
    rw [List.cons_append] at hr
    simp only [List.cons_append, plan_cons, out_cons, hr, ih]

theorem out_append : R.out r g (bs ++ cs) = R.out r (R.out (R.rev r cs) g bs) cs := by
  induction bs generalizing g with
  | nil => rfl
  | cons b bs ih =>
    have hr : R.rev r (b :: bs ++ cs) = R.rev (R.rev r cs) (b :: bs) := rev_append
    rw [List.cons_append] at hr
    simp only [List.cons_append, out_cons, hr, ih]

theorem rev_cons_le_cap : R.rev r (b :: bs) ≤ R.cap b := min_le_left _ _

theorem rev_mono (h : r ≤ r') : R.rev r bs ≤ R.rev r' bs := by
  induction bs with
  | nil => exact h
  | cons b bs ih => exact min_le_min le_rfl (R.gain_mono b ih)

theorem stop_le_rev : R.stop ≤ R.rev R.stop bs := by
  induction bs with
  | nil => exact le_rfl
  | cons b bs ih => exact le_min (R.stop_le_cap b) (ih.trans (R.le_gain b _))

theorem stop_le_plan (hg : R.stop ≤ g) : ∀ e ∈ R.plan R.stop g bs, R.stop ≤ e := by
  induction bs generalizing g with
  | nil => simp
  | cons b bs ih =>
    have he : R.stop ≤ min (R.rev R.stop (b :: bs)) g := le_min stop_le_rev hg
    intro e hm
    rcases List.mem_cons.mp hm with rfl | hm
    · exact he
    · exact ih (he.trans (R.le_gain b _)) e hm

/-- Links added behind a path never lower the speeds of its reverse pass. -/
theorem rev_le_rev_append : R.rev R.stop bs ≤ R.rev R.stop (bs ++ cs) := by
  rw [rev_append]
  exact rev_mono stop_le_rev

/-- The planned speeds of a path determine the speed at its end. -/
theorem out_eq_of_plan_eq (h : R.plan r' g bs = R.plan r g bs) :
    R.out r' g bs = R.out r g bs := by
  induction bs generalizing g with
  | nil => rfl
  | cons b bs ih =>
    simp only [plan_cons, List.cons.injEq] at h
    obtain ⟨he, ht⟩ := h
    rw [out_cons, out_cons, he]
    rw [he] at ht
    exact ih ht

/-- The planned speeds of a prefix that no faster exit from it can change. -/
def Settled (R : Rules β α) (r g : α) (bs : List β) : Prop :=
  ∀ r', r ≤ r' → R.plan r' g bs = R.plan r g bs

theorem Settled.nil : R.Settled r g [] := fun _ _ => rfl

theorem Settled.out_eq (h : R.Settled r g bs) (hr : r ≤ r') :
    R.out r' g bs = R.out r g bs :=
  out_eq_of_plan_eq (h r' hr)

/-- What is settled behind the first link stays settled without it. -/
theorem Settled.tail (h : R.Settled r g (b :: bs)) :
    R.Settled r (R.gain b (min (R.rev r (b :: bs)) g)) bs := by
  intro r' hr
  have hp := h r' hr
  simp only [plan_cons, List.cons.injEq] at hp
  obtain ⟨he, ht⟩ := hp
  rw [he] at ht
  exact ht

theorem Settled.mono (h : R.Settled r g bs) (hr : r ≤ r') : R.Settled r' g bs :=
  fun _ h' => (h _ (hr.trans h')).trans (h _ hr).symm

theorem plan_concat : R.plan r g (bs ++ [b]) =
    R.plan (R.rev r [b]) g bs ++ [min (R.rev r [b]) (R.out (R.rev r [b]) g bs)] := by
  rw [plan_append]; rfl

theorem out_concat : R.out r g (bs ++ [b]) =
    R.gain b (min (R.rev r [b]) (R.out (R.rev r [b]) g bs)) := by
  rw [out_append]; rfl

/-- A prefix whose last link starts at its cap is settled. -/
theorem Settled.concat_of_cap
    (h : min (R.rev r [b]) (R.out (R.rev r [b]) g bs) = R.cap b) :
    R.Settled r g (bs ++ [b]) := by
  intro r' hr
  have hb : R.rev r [b] = R.cap b :=
    le_antisymm rev_cons_le_cap (h.symm.le.trans (min_le_left _ _))
  have hb' : R.rev r' [b] = R.cap b :=
    le_antisymm rev_cons_le_cap (hb.symm.le.trans (rev_mono hr))
  rw [plan_concat, plan_concat, hb, hb']

/-- A link entered more slowly than it allows, behind a settled prefix, is settled. -/
theorem Settled.concat_of_limited (hs : R.Settled (R.rev r [b]) g bs)
    (h : R.out (R.rev r [b]) g bs ≤ R.rev r [b]) : R.Settled r g (bs ++ [b]) := by
  intro r' hr
  have hb : R.rev r [b] ≤ R.rev r' [b] := rev_mono hr
  rw [plan_concat, plan_concat, hs _ hb, hs.out_eq hb, min_eq_right h,
    min_eq_right (h.trans hb)]

/-- Nothing behind a path matters once the path is left more slowly than it could be. -/
theorem Settled.of_out_lt (h : R.out r g bs < r) : R.Settled r g bs := by
  induction bs using List.reverseRecOn generalizing r with
  | nil => exact Settled.nil
  | append_singleton bs b ih =>
    rw [out_concat] at h
    rcases lt_or_ge (R.out (R.rev r [b]) g bs) (R.rev r [b]) with hlt | hge
    · exact Settled.concat_of_limited (ih hlt) hlt.le
    · -- the link starts at its reverse speed, which only its cap can hold below its gain
      rw [min_eq_left hge] at h
      apply Settled.concat_of_cap
      rw [min_eq_left hge, rev_cons]
      refine min_eq_left (le_of_not_gt fun hc => ?_)
      have he : R.rev r [b] = R.gain b r := min_eq_right hc.le
      have := (R.le_gain b r).trans (he.symm.le.trans (R.le_gain b (R.rev r [b])))
      exact absurd h this.not_gt

section Feasible

variable {e e' : α}

/-- Start speeds under their caps, each joined to the next and the last one to `r`. -/
def Feasible (R : Rules β α) (r : α) : List β → List α → Prop
  | [], [] => True
  | b :: bs, e :: es => e ≤ R.cap b ∧ e ≤ R.gain b (es.headD r) ∧
      (∀ e' ∈ es.head?, e' ≤ R.gain b e) ∧ Feasible R r bs es
  | _, _ => False

theorem headD_plan : (R.plan r g bs).headD r ≤ R.rev r bs := by
  cases bs with
  | nil => exact le_rfl
  | cons b bs => exact min_le_left _ _

/-- The start speed of a link is joined to the speed planned behind it. -/
theorem le_gain_headD_plan (h : e ≤ R.gain b (R.rev r bs)) :
    e ≤ R.gain b ((R.plan r (R.gain b e) bs).headD r) := by
  cases bs with
  | nil => exact h
  | cons c bs =>
    rw [plan_cons, List.headD_cons]
    rcases min_choice (R.rev r (c :: bs)) (R.gain b e) with hm | hm <;> rw [hm]
    · exact h
    · exact (R.le_gain b e).trans (R.le_gain b _)

/-- The planned speeds respect every cap and every gain. -/
theorem feasible_plan : R.Feasible r bs (R.plan r g bs) := by
  induction bs generalizing g with
  | nil => trivial
  | cons b bs ih =>
    rw [plan_cons]
    have hr : min (R.rev r (b :: bs)) g ≤ R.rev r (b :: bs) := min_le_left _ _
    have hg : R.rev r (b :: bs) ≤ R.gain b (R.rev r bs) := min_le_right _ _
    refine ⟨hr.trans rev_cons_le_cap, le_gain_headD_plan (hr.trans hg), ?_, ih⟩
    cases bs with
    | nil => simp
    | cons c bs => simp [plan_cons]

/-- Feasible speeds are at most those of the reverse pass. -/
theorem Feasible.headD_le_rev {es : List α} (h : R.Feasible r bs es) :
    es.headD r ≤ R.rev r bs := by
  induction bs generalizing es with
  | nil => cases es <;> simp_all [Feasible]
  | cons b bs ih =>
    cases es with
    | nil => exact h.elim
    | cons e es => exact le_min h.1 (h.2.1.trans (R.gain_mono b (ih h.2.2.2)))

theorem feasible_congr {es : List α} (h : List.Forall₂ R.Alike bs cs)
    (hf : R.Feasible r cs es) : R.Feasible r bs es := by
  induction h generalizing es with
  | nil => exact hf
  | cons hb _ ih =>
    cases es with
    | nil => exact hf.elim
    | cons e es =>
      obtain ⟨hc, hg, hn, hs⟩ := hf
      exact ⟨hb.1 ▸ hc, hb.2 ▸ hg, hb.2 ▸ hn, ih hs⟩

/-- A link may be added at rest behind a feasible path. -/
theorem Feasible.concat {es : List α} (h : R.Feasible R.stop bs es) (hs : ∀ e ∈ es, R.stop ≤ e) :
    R.Feasible R.stop (bs ++ [b]) (es ++ [R.stop]) := by
  induction bs generalizing es with
  | nil =>
    cases es with
    | nil => exact ⟨R.stop_le_cap b, R.le_gain b _, by simp, trivial⟩
    | cons => exact h.elim
  | cons c bs ih =>
    cases es with
    | nil => exact h.elim
    | cons e es =>
      obtain ⟨hc, hg, hn, ht⟩ := h
      refine ⟨hc, ?_, ?_, ih ht fun e' he' => hs e' (List.mem_cons_of_mem _ he')⟩
      · cases es <;> exact hg
      · cases es with
        | nil => simpa using (hs e List.mem_cons_self).trans (R.le_gain c e)
        | cons => exact hn

/-- The greatest speed at the end of a path whose links start at given speeds. -/
def leave (R : Rules β α) : α → List β → List α → α
  | _, b :: bs, e :: es => leave R (R.gain b e) bs es
  | g, _, _ => g

/-- The end of a feasible path may be planned again from the speed at which it is reached. -/
theorem Feasible.replan {es fs : List α} (h : R.Feasible r (bs ++ cs) (es ++ fs))
    (hl : bs.length = es.length) :
    R.Feasible r (bs ++ cs) (es ++ R.plan r (R.leave g bs es) cs) := by
  induction bs generalizing es g with
  | nil =>
    rw [List.length_eq_zero_iff.mp hl.symm]
    exact feasible_plan
  | cons b bs ih =>
    obtain _ | ⟨e, es⟩ := es
    · simp at hl
    obtain ⟨hc, hg, hn, hs⟩ := h
    have hl : bs.length = es.length := by simpa using hl
    refine ⟨hc, ?_, ?_, ih hs hl⟩
    · cases es with
      | nil =>
        obtain rfl : bs = [] := List.length_eq_zero_iff.mp hl
        exact le_gain_headD_plan (hg.trans (R.gain_mono b hs.headD_le_rev))
      | cons => exact hg
    · cases es with
      | nil =>
        obtain rfl : bs = [] := List.length_eq_zero_iff.mp hl
        cases cs with
        | nil => simp
        | cons c cs => simp [plan_cons, leave]
      | cons => exact hn

end Feasible

end Rules

end TwoPass
