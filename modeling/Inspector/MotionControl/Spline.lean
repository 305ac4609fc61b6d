import Inspector.Planner.Block
import Inspector.Transition.Loop
import Mathlib.Data.List.Chain
import Mathlib.Tactic.Linarith
import Mathlib.Tactic.NormNum
import Mathlib.Tactic.Ring

/-! # Cubic splines

`mc_cubic_b_spline` hands a curve to `mc_line` as a sequence of lines. The parameter of the curve
advances by a step that two inner loops halve and double; every point that is handed on lies on
the curve at the parameter, and the parameter reaches 1 in a bounded number of steps.
-/

namespace Inspector

namespace Spline

variable {K : Type*} [Field K]

def interp (a b t : K) : K := (1 - t) * a + t * b

/-- `eval_bezier`. -/
def evalBezier (a b c d t : K) : K :=
  let iab := interp a b t
  let ibc := interp b c t
  let icd := interp c d t
  let iabc := interp iab ibc t
  let ibcd := interp ibc icd t
  interp iabc ibcd t

theorem evalBezier_zero (a b c d : K) : evalBezier a b c d 0 = a := by
  simp [evalBezier, interp]

theorem evalBezier_one (a b c d : K) : evalBezier a b c d 1 = d := by
  simp [evalBezier, interp]

/-- The control points that `mc_cubic_b_spline` is called with. -/
structure Controls (K : Type*) where
  target : Axis → K
  position : Axis → K
  first : Axis → K
  second : Axis → K

def Controls.curve (c : Controls K) (i : Axis) (t : K) : K :=
  evalBezier (c.position i) (c.first i) (c.second i) (c.target i) t

/-- A call of `mc_line`: its target, and the parameter of the curve it is made at. -/
structure Emitted (K : Type*) where
  t : K
  point : Axis → K

/-- The variables of the outer loop, and the calls of `mc_line` that have been made. -/
structure State (K : Type*) where
  t : K
  step : K
  bezTarget : Axis → K
  emitted : List (Emitted K)

/-- The variables of the inner loops. -/
structure Candidate (K : Type*) where
  newT : K
  newPos0 : K
  newPos1 : K
  didReduce : Bool

def bezierMinStep : K := 2 / 1000

def bezierMaxStep : K := 1 / 10

def bezierSigma : K := 1 / 10

variable [LinearOrder K]

def dist1 (x1 y1 x2 y2 : K) : K := |x1 - x2| + |y1 - y2|

/-- A pass of the loop that reduces the step. -/
def reducePass (c : Controls K) (s : State K) (v : Candidate K) : Candidate K ⊕ Candidate K :=
  if v.newT - s.t ≥ bezierMinStep then
    let candidateT := 1 / 2 * (s.t + v.newT)
    let candidatePos0 := c.curve .x candidateT
    let candidatePos1 := c.curve .y candidateT
    let interpPos0 := 1 / 2 * (s.bezTarget .x + v.newPos0)
    let interpPos1 := 1 / 2 * (s.bezTarget .y + v.newPos1)
    if dist1 candidatePos0 candidatePos1 interpPos0 interpPos1 ≤ bezierSigma then .inr v
    else .inl ⟨candidateT, candidatePos0, candidatePos1, true⟩
  else .inr v

/-- A pass of the loop that enlarges the step. -/
def enlargePass (c : Controls K) (s : State K) (v : Candidate K) : Candidate K ⊕ Candidate K :=
  if v.newT - s.t ≤ bezierMaxStep then
    let candidateT := s.t + 2 * (v.newT - s.t)
    if candidateT ≥ 1 then .inr v
    else
      let candidatePos0 := c.curve .x candidateT
      let candidatePos1 := c.curve .y candidateT
      let interpPos0 := 1 / 2 * (s.bezTarget .x + candidatePos0)
      let interpPos1 := 1 / 2 * (s.bezTarget .y + candidatePos1)
      if dist1 v.newPos0 v.newPos1 interpPos0 interpPos1 > bezierSigma then .inr v
      else .inl { v with newT := candidateT, newPos0 := candidatePos0, newPos1 := candidatePos1 }
  else .inr v

/-- The two inner loops; the step is enlarged only if it was not reduced. -/
def adjust (c : Controls K) (fuel : ℕ) (s : State K) (newT : K) : Option (Candidate K) := do
  let v ← Transition.loop (reducePass c s) fuel
    ⟨newT, c.curve .x newT, c.curve .y newT, false⟩
  if !v.didReduce then Transition.loop (enlargePass c s) fuel v
  else some v

/-- The body of the outer loop up to the call of `mc_line`. -/
def nextPoint (c : Controls K) (fuel : ℕ) (s : State K) : Option (State K) := do
  let newT := if s.t + s.step > 1 then 1 else s.t + s.step
  let v ← adjust c fuel s newT
  let bezTarget := Function.update (Function.update s.bezTarget .x v.newPos0) .y v.newPos1
  return {
    step := v.newT - s.t
    t := v.newT
    bezTarget := bezTarget
    emitted := s.emitted ++ [⟨v.newT, bezTarget⟩] }

/-- The outer loop. `mcLine` answers the last one of the calls made so far. -/
def splineLoop (mcLine : List (Emitted K) → Bool) (c : Controls K) :
    ℕ → State K → Option (State K)
  | 0, _ => none
  | fuel + 1, s =>
    if s.t < 1 then do
      let s ← nextPoint c fuel s
      if mcLine s.emitted then splineLoop mcLine c fuel s else some s
    else some s

/-- `mc_cubic_b_spline`: the calls of `mc_line` it makes. -/
def mcCubicBSpline (mcLine : List (Emitted K) → Bool) (c : Controls K) (fuel : ℕ) :
    Option (List (Emitted K)) :=
  (splineLoop mcLine c fuel ⟨0, bezierMaxStep, c.position, []⟩).map State.emitted

/-- The point of a candidate is the one of the curve at its parameter. -/
structure Candidate.Matches (c : Controls K) (v : Candidate K) : Prop where
  x : v.newPos0 = c.curve .x v.newT
  y : v.newPos1 = c.curve .y v.newT

/-- A step that does not end at 1 keeps to the bounds. -/
structure StepBounds (a b : Emitted K) : Prop where
  lt : a.t < b.t
  le_one : b.t ≤ 1
  bounds : b.t < 1 → bezierMinStep / 2 ≤ b.t - a.t ∧ b.t - a.t ≤ 2 * bezierMaxStep

/-- The start of the curve. -/
def Controls.start (c : Controls K) : Emitted K := ⟨0, c.position⟩

/-- A point is the one of the curve at its parameter. -/
structure OnCurve (c : Controls K) (e : Emitted K) : Prop where
  x : e.point .x = c.curve .x e.t
  y : e.point .y = c.curve .y e.t

/-- What holds at the head of the outer loop. -/
structure Inv (c : Controls K) (s : State K) : Prop where
  le_one : s.t ≤ 1
  step : s.t < 1 → bezierMinStep / 2 ≤ s.step ∧ s.step ≤ 2 * bezierMaxStep
  chain : (c.start :: s.emitted).IsChain StepBounds
  last : (c.start :: s.emitted).getLast? = some ⟨s.t, s.bezTarget⟩
  onCurve : ∀ e ∈ s.emitted, OnCurve c e

/-- What a pass that reduces the step does. -/
theorem reducePass_cases (c : Controls K) (s : State K) (v : Candidate K) :
    reducePass c s v = .inr v ∨ bezierMinStep ≤ v.newT - s.t ∧ ∃ w, reducePass c s v = .inl w ∧
      w.newT = 1 / 2 * (s.t + v.newT) ∧ w.Matches c ∧ w.didReduce = true := by
  unfold reducePass
  dsimp only
  split_ifs with hmin hsigma
  · exact .inl rfl
  · exact .inr ⟨hmin, _, rfl, rfl, ⟨rfl, rfl⟩, rfl⟩
  · exact .inl rfl

/-- What a pass that enlarges the step does. -/
theorem enlargePass_cases (c : Controls K) (s : State K) (v : Candidate K) :
    enlargePass c s v = .inr v ∨ v.newT - s.t ≤ bezierMaxStep ∧ s.t + 2 * (v.newT - s.t) < 1 ∧
      ∃ w, enlargePass c s v = .inl w ∧ w.newT = s.t + 2 * (v.newT - s.t) ∧ w.Matches c := by
  unfold enlargePass
  dsimp only
  split_ifs with hmax hone hsigma
  · exact .inl rfl
  · exact .inl rfl
  · exact .inr ⟨hmax, not_le.mp hone, _, rfl, rfl, rfl, rfl⟩
  · exact .inl rfl

variable {c : Controls K} {s : State K} {v : Candidate K}

/-- What the two inner loops make of a step. -/
structure Adjusted (c : Controls K) (s : State K) (w : Candidate K) : Prop where
  isMatch : w.Matches c
  lt : s.t < w.newT
  le_one : w.newT ≤ 1
  step : w.newT < 1 → bezierMinStep / 2 ≤ w.newT - s.t ∧ w.newT - s.t ≤ 2 * bezierMaxStep

/-- A pass of the outer loop keeps its invariant. -/
theorem Inv.emit {w : Candidate K} (h : Inv c s) (hw : Adjusted c s w) :
    let p := Function.update (Function.update s.bezTarget .x w.newPos0) .y w.newPos1
    Inv c ⟨w.newT, w.newT - s.t, p, s.emitted ++ [⟨w.newT, p⟩]⟩ := by
  intro p
  refine ⟨hw.le_one, hw.step, ?_, ?_, fun e he => ?_⟩
  · rw [← List.cons_append, List.isChain_append]
    refine ⟨h.chain, List.isChain_singleton _, fun a ha b hb => ?_⟩
    rw [h.last, Option.mem_some_iff] at ha
    rw [List.head?_singleton, Option.mem_some_iff] at hb
    subst ha hb
    exact ⟨hw.lt, hw.le_one, hw.step⟩
  · rw [← List.cons_append, List.getLast?_append_of_ne_nil _ (by simp)]
    rfl
  · rcases List.mem_append.mp he with he | he
    · exact h.onCurve e he
    · rw [List.mem_singleton.mp he]
      exact ⟨by simpa [p, Function.update] using hw.isMatch.x, by simpa [p] using hw.isMatch.y⟩

variable [IsStrictOrderedRing K]

/-- What the first inner loop has made of a candidate. -/
structure Reduced (c : Controls K) (s : State K) (v w : Candidate K) : Prop where
  isMatch : w.Matches c
  lt : s.t < w.newT
  le : w.newT ≤ v.newT
  step : w = v ∨ w.didReduce = true ∧ bezierMinStep / 2 ≤ w.newT - s.t

/-- The loop that reduces the step ends, and it reduces no step below half of the minimum. -/
theorem reduce_spec {k : ℕ} (hk : v.newT - s.t < bezierMinStep * 2 ^ k) (hm : v.Matches c)
    (hlt : s.t < v.newT) :
    ∃ r, Reduced c s v r ∧ ∀ n, k < n → Transition.loop (reducePass c s) n v = some r := by
  refine Transition.loop_of_rank
    (P := fun k w => w.newT - s.t < bezierMinStep * 2 ^ k ∧ Reduced c s v w) ?_
    ⟨hk, hm, hlt, le_rfl, .inl rfl⟩
  rintro k w ⟨hw, hr⟩
  rcases reducePass_cases c s w with h | ⟨hmin, u, hu, hnew, hmatch, hdid⟩
  · exact .inl ⟨w, h, hr⟩
  · have hstep : u.newT - s.t = (w.newT - s.t) / 2 := by
      rw [hnew]
      ring
    have hpos := hr.lt
    refine .inr ⟨u, hu, ?_⟩
    cases k with
    | zero => exact absurd hw (by simpa using hmin)
    | succ k =>
      refine ⟨k, Nat.lt_succ_self k, ?_, hmatch, by linarith, by linarith [hr.le], .inr ⟨hdid, ?_⟩⟩
      · rw [pow_succ] at hw
        linarith
      · linarith

/-- What the second inner loop has made of a candidate. -/
structure Enlarged (c : Controls K) (s : State K) (v w : Candidate K) : Prop where
  isMatch : w.Matches c
  le : v.newT ≤ w.newT
  le_one : w.newT ≤ 1
  step : w = v ∨ w.newT - s.t ≤ 2 * bezierMaxStep

/-- The loop that enlarges the step ends, with no step above twice the maximum. -/
theorem enlarge_spec {k : ℕ} (hk : v.newT < 1 → bezierMaxStep < (v.newT - s.t) * 2 ^ k)
    (hm : v.Matches c) (hlt : s.t < v.newT) (hone : v.newT ≤ 1) :
    ∃ r, Enlarged c s v r ∧ ∀ n, k < n → Transition.loop (enlargePass c s) n v = some r := by
  refine Transition.loop_of_rank
    (P := fun k w => (w.newT < 1 → bezierMaxStep < (w.newT - s.t) * 2 ^ k) ∧ Enlarged c s v w) ?_
    ⟨hk, hm, le_rfl, hone, .inl rfl⟩
  rintro k w ⟨hw, hr⟩
  have hpos := hlt.trans_le hr.le
  rcases enlargePass_cases c s w with h | ⟨hmax, hnot, u, hu, hnew, hmatch⟩
  · exact .inl ⟨w, h, hr⟩
  · have hstep : u.newT - s.t = 2 * (w.newT - s.t) := by
      rw [hnew]
      ring
    have hw := hw (by linarith)
    refine .inr ⟨u, hu, ?_⟩
    cases k with
    | zero => exact absurd hw (by simpa using hmax)
    | succ k =>
      refine ⟨k, Nat.lt_succ_self k, fun _ => ?_, hmatch, by linarith [hr.le], by linarith,
        .inr (by linarith)⟩
      rw [hstep]
      rw [pow_succ] at hw
      linarith

/-- The outer loop starts at the start of the curve. -/
theorem inv_start (c : Controls K) : Inv c ⟨0, bezierMaxStep, c.position, []⟩ where
  le_one := zero_le_one
  step _ := by constructor <;> norm_num [bezierMinStep, bezierMaxStep]
  chain := List.isChain_singleton _
  last := rfl
  onCurve e he := absurd he List.not_mem_nil

/-- Both inner loops end. -/
theorem adjust_spec {newT : K} (hlt : s.t < newT) (hone : newT ≤ 1)
    (hmax : newT - s.t ≤ 2 * bezierMaxStep)
    (hmin : newT < 1 → bezierMinStep / 2 ≤ newT - s.t) :
    ∃ w, Adjusted c s w ∧ ∀ n, 7 < n → adjust c n s newT = some w := by
  let u : Candidate K := ⟨newT, c.curve .x newT, c.curve .y newT, false⟩
  obtain ⟨v, hv, hvloop⟩ := reduce_spec (k := 7) (s := s) (c := c) (v := u)
    (by norm_num [bezierMinStep, bezierMaxStep, u] at hmax ⊢; linarith) ⟨rfl, rfl⟩ hlt
  rcases hv.step with rfl | ⟨hdid, hstep⟩
  · obtain ⟨w, hw, hwloop⟩ := enlarge_spec (k := 7) (s := s) (c := c) (v := u)
      (fun h => by have := hmin h; norm_num [bezierMinStep, bezierMaxStep, u] at this ⊢; linarith)
      ⟨rfl, rfl⟩ hlt hone
    have hmono : newT ≤ w.newT := hw.le
    refine ⟨w, ⟨hw.isMatch, hlt.trans_le hmono, hw.le_one, fun h => ⟨?_, ?_⟩⟩, fun n hn => ?_⟩
    · linarith [hmin (hmono.trans_lt h)]
    · rcases hw.step with rfl | hstep
      · exact hmax
      · exact hstep
    · rw [adjust, hvloop n hn]
      exact hwloop n hn
  · have hvle : v.newT ≤ newT := hv.le
    refine ⟨v, ⟨hv.isMatch, hv.lt, hvle.trans hone, fun _ => ⟨hstep, by linarith⟩⟩,
      fun n hn => ?_⟩
    rw [adjust, hvloop n hn]
    simp [hdid]

/-- One pass of the outer loop: it ends at 1 or advances by half of the minimal step at least. -/
theorem nextPoint_spec (h : Inv c s) (ht : s.t < 1) :
    ∃ r, Inv c r ∧ (r.t = 1 ∨ bezierMinStep / 2 ≤ r.t - s.t) ∧
      ∀ n, 7 < n → nextPoint c n s = some r := by
  obtain ⟨hlow, hhigh⟩ := h.step ht
  have hpos : (0 : K) < bezierMinStep / 2 := by norm_num [bezierMinStep]
  obtain ⟨w, hw, hadjust⟩ : ∃ w, Adjusted c s w ∧
      ∀ n, 7 < n → adjust c n s (if s.t + s.step > 1 then 1 else s.t + s.step) = some w := by
    split_ifs with hone
    · apply adjust_spec ht le_rfl (by linarith)
      exact fun h => absurd h (lt_irrefl 1)
    · exact adjust_spec (by linarith) (not_lt.mp hone) (by linarith) (fun _ => by linarith)
  refine ⟨_, h.emit hw, ?_, fun n hn => ?_⟩
  · rcases hw.le_one.lt_or_eq with h1 | h1
    · exact .inr (hw.step h1).1
    · exact .inl h1
  · rw [nextPoint, hadjust n hn]
    rfl

/-- The outer loop ends, at 1 if no call of `mc_line` failed. -/
theorem splineLoop_spec (mcLine : List (Emitted K) → Bool) {k : ℕ} (h : Inv c s)
    (hk : 1 - s.t ≤ k * (bezierMinStep / 2)) :
    ∃ r, Inv c r ∧ (r.t = 1 ∨ mcLine r.emitted = false) ∧
      ∀ n, k + 8 < n → splineLoop mcLine c n s = some r := by
  induction k generalizing s with
  | zero =>
    have hone : ¬ s.t < 1 := by
      simp only [Nat.cast_zero, zero_mul] at hk
      linarith
    refine ⟨s, h, .inl (le_antisymm h.le_one (not_lt.mp hone)), fun n hn => ?_⟩
    obtain ⟨n, rfl⟩ : ∃ m, n = m + 1 := ⟨n - 1, by omega⟩
    rw [splineLoop, if_neg hone]
  | succ k ih =>
    by_cases ht : s.t < 1
    · obtain ⟨r, hr, hstep, hnext⟩ := nextPoint_spec h ht
      have hpos : (0 : K) ≤ k * (bezierMinStep / 2) := by
        apply mul_nonneg (Nat.cast_nonneg k)
        norm_num [bezierMinStep]
      have hrk : 1 - r.t ≤ k * (bezierMinStep / 2) := by
        rw [Nat.cast_succ, add_mul, one_mul] at hk
        rcases hstep with h1 | h1 <;> linarith
      obtain ⟨q, hq, hend, hloop⟩ := ih hr hrk
      cases hline : mcLine r.emitted with
      | true =>
        refine ⟨q, hq, hend, fun n hn => ?_⟩
        obtain ⟨n, rfl⟩ : ∃ m, n = m + 1 := ⟨n - 1, by omega⟩
        rw [splineLoop, if_pos ht, hnext n (by omega)]
        simp only [Option.bind_eq_bind, Option.bind_some, hline, if_true]
        exact hloop n (by omega)
      | false =>
        refine ⟨r, hr, .inr hline, fun n hn => ?_⟩
        obtain ⟨n, rfl⟩ : ∃ m, n = m + 1 := ⟨n - 1, by omega⟩
        rw [splineLoop, if_pos ht, hnext n (by omega)]
        simp [hline]
    · refine ⟨s, h, .inl (le_antisymm h.le_one (not_lt.mp ht)), fun n hn => ?_⟩
      obtain ⟨n, rfl⟩ : ∃ m, n = m + 1 := ⟨n - 1, by omega⟩
      rw [splineLoop, if_neg ht]

/-- A spline returns after at most a thousand points. They are points of the curve, at parameters
that increase in steps within the bounds, and the last one is the target unless its call of
`mc_line` failed. -/
theorem mcCubicBSpline_points (mcLine : List (Emitted K) → Bool) (c : Controls K) :
    ∃ emitted, (∀ fuel, 1008 < fuel → mcCubicBSpline mcLine c fuel = some emitted) ∧
      (c.start :: emitted).IsChain StepBounds ∧ (∀ e ∈ emitted, OnCurve c e) ∧
      (mcLine emitted = false ∨ ∃ e, emitted.getLast? = some e ∧ e.t = 1 ∧
        e.point .x = c.target .x ∧ e.point .y = c.target .y) := by
  obtain ⟨r, hr, hend, hloop⟩ := splineLoop_spec mcLine (k := 1000) (inv_start c)
    (by norm_num [bezierMinStep])
  refine ⟨r.emitted, fun n hn => ?_, hr.chain, hr.onCurve, hend.symm.imp_right fun ht => ?_⟩
  · rw [mcCubicBSpline, hloop n hn, Option.map_some]
  · have hlast := hr.last
    rw [ht] at hlast
    rcases List.eq_nil_or_concat' r.emitted with hnil | ⟨l, e, hl⟩
    · rw [hnil, List.getLast?_singleton, Option.some_inj] at hlast
      exact absurd (congrArg Emitted.t hlast) zero_ne_one
    · rw [hl, ← List.cons_append, List.getLast?_concat, Option.some_inj] at hlast
      have he := hr.onCurve e (by simp [hl])
      have het : e.t = 1 := by rw [hlast]
      refine ⟨e, by simp [hl], het, ?_, ?_⟩
      · rw [he.x, het]
        exact evalBezier_one _ _ _ _
      · rw [he.y, het]
        exact evalBezier_one _ _ _ _

/-- Without an abort a spline ends at its target. -/
theorem mcCubicBSpline_target :
    let c : Controls ℚ := ⟨fun _ => 1, fun _ => 0, fun _ => 0, fun _ => 0⟩
    ∃ emitted, mcCubicBSpline (fun _ => true) c 1009 = some emitted ∧
      ∃ e, emitted.getLast? = some e ∧ e.t = 1 ∧ e.point .x = 1 ∧ e.point .y = 1 := by
  intro c
  obtain ⟨emitted, hrun, -, -, hlast⟩ := mcCubicBSpline_points (fun _ => true) c
  exact ⟨emitted, hrun 1009 (by norm_num), hlast.resolve_left nofun⟩

/-- After an abort at its first line a spline ends at a fifth of its curve. -/
theorem not_mcCubicBSpline_target :
    let c : Controls ℚ := ⟨fun _ => 1, fun _ => 0, fun _ => 0, fun _ => 0⟩
    ∃ e, mcCubicBSpline (fun _ => false) c 10 = some [e] ∧ e.t = 1 / 5 ∧
      e.point .x ≠ c.target .x := by
  intro c
  have h : (mcCubicBSpline (fun _ => false) c 10).map
      (List.map fun e => (e.t, e.point .x)) = some [(1 / 5, 1 / 125)] := by decide +kernel
  rw [Option.map_eq_some_iff] at h
  obtain ⟨l, hl, hmap⟩ := h
  rw [List.map_eq_singleton_iff] at hmap
  obtain ⟨e, rfl, he⟩ := hmap
  rw [Prod.mk.injEq] at he
  refine ⟨e, hl, he.1, ?_⟩
  rw [he.2]
  norm_num [c]

end Spline

end Inspector
