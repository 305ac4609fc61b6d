import Inspector.Kinematics.Inverse
import Mathlib.Data.List.Chain

/-! # Arcs

`mc_arc` hands an arc to `mc_line` as a sequence of lines: full turns first, each by a call of
itself, then the rest of the arc. Beside every call of `mc_line` stands the angle travelled so far.
An axis outside of the plane should move in proportion to that angle. It does, unless the arc has
several turns and the axis is not the linear axis of the plane: then it starts at its target.
-/

namespace Inspector

/-- `plane_t`. -/
structure Plane where
  axis0 : Axis
  axis1 : Axis
  axisLinear : Axis
  ne : axis0 ≠ axis1
  linear_ne0 : axisLinear ≠ axis0
  linear_ne1 : axisLinear ≠ axis1

/-- The plane of `G17`. -/
def Plane.xy : Plane := ⟨.x, .y, .z, by decide, by decide, by decide⟩

/-- The axis moves on the circle. -/
def Plane.Spans (plane : Plane) (i : Axis) : Prop := i = plane.axis0 ∨ i = plane.axis1

instance (plane : Plane) (i : Axis) : Decidable (plane.Spans i) :=
  inferInstanceAs (Decidable (_ ∨ _))

/-- The functions of C that `mc_arc` uses. -/
structure ArcMath (K : Type*) [Field K] [LinearOrder K] extends TrigMath K where
  pi : K
  pi_pos : 0 < pi
  abs_atan2f_le : ∀ y x, |atan2f y x| ≤ pi
  atan2f_zero : ∀ x, 0 ≤ x → atan2f 0 x = 0

/-- Exact arithmetic. -/
noncomputable def exactArc : ArcMath ℝ where
  toTrigMath := exactTrig
  pi := Real.pi
  pi_pos := Real.pi_pos
  abs_atan2f_le := Polar.abs_angle_le_pi
  atan2f_zero x hx := by
    change Complex.arg ⟨x, 0⟩ = 0
    exact Complex.arg_ofReal_of_nonneg hx

namespace Arc

/-- A call of `mc_line`: the angle travelled when it ends, and its target. -/
structure Line (K : Type*) where
  travel : K
  point : Axis → K

section Trails

variable {K : Type*} [LinearOrder K] {b t u : K} {l l' : List (Line K)}

/-- Lines that go from one angle to another one. -/
structure Trail (b t : K) (lines : List (Line K)) : Prop where
  chain : ∀ e : Line K, e.travel = b → (e :: lines).IsChain fun a b => a.travel < b.travel
  ends : ∀ e : Line K, e.travel = b → ∃ f ∈ (e :: lines).getLast?, f.travel = t

theorem trail_nil (b : K) : Trail b b [] where
  chain _ _ := List.isChain_singleton _
  ends e he := ⟨e, rfl, he⟩

theorem Trail.append (h : Trail b t l) (h' : Trail t u l') : Trail b u (l ++ l') := by
  constructor
  · intro e he
    obtain ⟨f, hf, hft⟩ := h.ends e he
    have hchain := h'.chain f hft
    rw [← List.cons_append, List.isChain_append]
    refine ⟨h.chain e he, hchain.tail, fun x hx y hy => ?_⟩
    obtain rfl : x = f := Option.mem_unique hx hf
    cases l' with
    | nil => cases hy
    | cons z l' =>
      obtain rfl : z = y := by simpa using hy
      exact hchain.rel
  · intro e he
    obtain ⟨f, hf, hft⟩ := h.ends e he
    obtain ⟨g, hg, hgu⟩ := h'.ends f hft
    refine ⟨g, ?_, hgu⟩
    cases l' with
    | nil =>
      obtain rfl : f = g := by simpa using hg
      simpa using hf
    | cons z l' =>
      rw [← List.cons_append, List.getLast?_append_of_ne_nil _ (by simp)]
      simpa using hg

theorem trail_singleton {e : Line K} (h : b < e.travel) : Trail b e.travel [e] where
  chain f hf := by
    rw [List.isChain_cons_cons, hf]
    exact ⟨h, List.isChain_singleton _⟩
  ends _ _ := ⟨e, rfl, rfl⟩

end Trails

variable {K : Type*} [Field K] [LinearOrder K]

/-- `ARC_ANGULAR_TRAVEL_EPSILON`. -/
def angularTravelEpsilon : K := 5 / 10000000

/-- `N_ARC_CORRECTION`. -/
def nArcCorrection : ℕ := 12

/-- The arguments of `mc_arc` that tell the arc. -/
structure Call (K : Type*) where
  target : Axis → K
  position : Axis → K
  offset : Axis → K
  radius : K
  plane : Plane
  turns : ℤ

/-- `position`, which `mc_arc` changes, the angle travelled before a call, and the calls of
`mc_line`. -/
structure Run (K : Type*) where
  position : Axis → K
  travel : K
  lines : List (Line K)

namespace Call

variable (c : Call K)

/-- The radius vector at the start. -/
def rv : K × K := (-c.offset c.plane.axis0, -c.offset c.plane.axis1)

def center : K × K := (c.position c.plane.axis0 - c.rv.1, c.position c.plane.axis1 - c.rv.2)

/-- The radius vector at the target. -/
def rt : K × K := (c.target c.plane.axis0 - c.center.1, c.target c.plane.axis1 - c.center.2)

/-- `angular_travel`. -/
def angularTravel (m : ArcMath K) : K :=
  let angle := m.atan2f (c.rv.1 * c.rt.2 - c.rv.2 * c.rt.1) (c.rv.1 * c.rt.1 + c.rv.2 * c.rt.2)
  if c.turns > 0 then
    if angle ≤ angularTravelEpsilon then angle + 2 * m.pi else angle
  else if angle ≥ -angularTravelEpsilon then angle - 2 * m.pi
  else angle

/-- `arc_travel`, the angle of all turns. -/
def arcTravel (m : ArcMath K) : K :=
  2 * m.pi * (c.turns.natAbs - 1 : ℕ) +
    if c.turns > 0 then c.angularTravel m else -c.angularTravel m

def linearPerTurn (m : ArcMath K) (i : Axis) : K :=
  (c.target i - c.position i) / c.arcTravel m * 2 * m.pi

end Call

/-- The next radius vector: rotated by the approximate sine and cosine, or exact once in a
while. -/
def rotate (m : ArcMath K) (c : Call K) (theta : K) (i count : ℕ) (rv : K × K) : (K × K) × ℕ :=
  if count < nArcCorrection then
    let cosT := 2 - theta * theta
    let sinT := theta * (16666667 / 100000000) * (cosT + 4)
    let cosT := cosT * (1 / 2)
    ((rv.1 * cosT - rv.2 * sinT, rv.1 * sinT + rv.2 * cosT), count + 1)
  else
    let cosTi := m.cosf (i * theta)
    let sinTi := m.sinf (i * theta)
    ((-c.offset c.plane.axis0 * cosTi + c.offset c.plane.axis1 * sinTi,
      -c.offset c.plane.axis0 * sinTi - c.offset c.plane.axis1 * cosTi), 0)

/-- The lines from the `i`-th one to the last but one, of which there are `n`. -/
def traceSegments (m : ArcMath K) (mcLine : List (Line K) → Bool) (c : Call K) (center : K × K)
    (theta : K) (linearPerSegment : Axis → K) :
    (n i count : ℕ) → K × K → Run K → Bool × Run K
  | 0, _, _, _, x => (true, x)
  | n + 1, i, count, rv, x =>
    let (rv, count) := rotate m c theta i count rv
    let position := fun j =>
      if j = c.plane.axis0 then center.1 + rv.1
      else if j = c.plane.axis1 then center.2 + rv.2
      else x.position j + linearPerSegment j
    let x := { x with
      position := position
      lines := x.lines ++ [⟨x.travel + i * |theta|, position⟩] }
    if mcLine x.lines then
      traceSegments m mcLine c center theta linearPerSegment n (i + 1) count rv x
    else (false, x)

/-- The arc as it is meant: the angle travelled grows from line to line up to that of all turns, the
last line ends at the target, and the axes outside of the plane move in proportion to the angle,
never back and never beyond the target. -/
structure Progresses (m : ArcMath K) (c : Call K) (lines : List (Line K)) : Prop where
  chain : (⟨0, c.position⟩ :: lines).IsChain fun a b => a.travel < b.travel
  last : lines.getLast? = some ⟨c.arcTravel m, c.target⟩
  proportional : ∀ e ∈ lines, ∀ i, ¬ c.plane.Spans i →
    e.point i = c.position i + (c.target i - c.position i) * (e.travel / c.arcTravel m)
  monotone : ∀ i, ¬ c.plane.Spans i → c.position i ≤ c.target i →
    (⟨0, c.position⟩ :: lines).IsChain fun a b => a.point i ≤ b.point i
  antitone : ∀ i, ¬ c.plane.Spans i → c.target i ≤ c.position i →
    (⟨0, c.position⟩ :: lines).IsChain fun a b => b.point i ≤ a.point i

/-- A line at which the axes outside of the plane have a position that is affine in the angle. -/
def Law (plane : Plane) (a s : Axis → K) (e : Line K) : Prop :=
  ∀ i, ¬ plane.Spans i → e.point i = a i + s i * e.travel

variable [FloorRing K]

/-- The number of segments. -/
def segments (m : ArcMath K) (arcTolerance radius angularTravel : K) : ℕ :=
  if 2 * radius > arcTolerance then
    ⌊|1 / 2 * angularTravel * radius| / m.sqrtf (arcTolerance * (2 * radius - arcTolerance))⌋₊
  else 0

/-- The end of `mc_arc`, from `position` to `target` by less than a turn. -/
def trace (m : ArcMath K) (arcTolerance : K) (mcLine : List (Line K) → Bool) (c : Call K)
    (x : Run K) : Run K :=
  let angularTravel := c.angularTravel m
  let n := segments m arcTolerance c.radius angularTravel
  let theta := angularTravel / n
  let linearPerSegment := fun i => (c.target i - x.position i) / n
  let r := if n = 0 then (true, x)
    else traceSegments m mcLine c c.center theta linearPerSegment (n - 1) 1 0 c.rv x
  if r.1 then
    { r.2 with
      travel := x.travel + |angularTravel|
      lines := r.2.lines ++ [⟨x.travel + |angularTravel|, c.target⟩] }
  else r.2

/-- The call for one full turn. -/
def turnCall (m : ArcMath K) (c : Call K) (arcTarget : Axis → K) (x : Run K) : Call K where
  target := fun i => if c.plane.Spans i then arcTarget i else arcTarget i + c.linearPerTurn m i
  position := x.position
  offset := c.offset
  radius := c.radius
  plane := c.plane
  turns := if c.turns > 0 then 1 else -1

/-- The loop over the full turns. -/
def fullTurns (m : ArcMath K) (arcTolerance : K) (mcLine : List (Line K) → Bool) (c : Call K) :
    ℕ → (Axis → K) → Run K → Run K
  | 0, _, x => x
  | n + 1, arcTarget, x =>
    let turn := turnCall m c arcTarget x
    fullTurns m arcTolerance mcLine c n turn.target
      { trace m arcTolerance mcLine turn x with position := turn.target }

/-- `arc_target` before the first full turn. -/
def Call.arcTarget (c : Call K) (i : Axis) : K :=
  if c.plane.Spans i ∨ i = c.plane.axisLinear then c.position i else c.target i

/-- `mc_arc`; `mcLine` answers the last one of the calls made so far. -/
def mcArc (m : ArcMath K) (arcTolerance : K) (mcLine : List (Line K) → Bool) (c : Call K) :
    List (Line K) :=
  let x : Run K := ⟨c.position, 0, []⟩
  let x :=
    if c.turns.natAbs > 1 then
      fullTurns m arcTolerance mcLine c (c.turns.natAbs - 1) c.arcTarget x
    else x
  (trace m arcTolerance mcLine c x).lines

theorem mcArc_eq (m : ArcMath K) (arcTolerance : K) (mcLine : List (Line K) → Bool) (c : Call K) :
    mcArc m arcTolerance mcLine c =
    (trace m arcTolerance mcLine c (fullTurns m arcTolerance mcLine c (c.turns.natAbs - 1)
      c.arcTarget ⟨c.position, 0, []⟩)).lines := by
  unfold mcArc
  by_cases h : c.turns.natAbs > 1
  · simp only [if_pos h]
  · rw [Nat.sub_eq_zero_of_le (not_lt.mp h)]
    simp only [if_neg h, fullTurns]

/-- Where an axis beside those of the plane is after the first full turn. -/
theorem turnCall_target (m : ArcMath K) (c : Call K) {i : Axis} (hi : ¬ c.plane.Spans i)
    (hlinear : i ≠ c.plane.axisLinear) (x : Run K) :
    (turnCall m c c.arcTarget x).target i =
      c.target i + (c.target i - c.position i) * (2 * m.pi / c.arcTravel m) := by
  have hother : ¬ (c.plane.Spans i ∨ i = c.plane.axisLinear) := not_or.mpr ⟨hi, hlinear⟩
  simp only [turnCall, if_neg hi, Call.arcTarget, if_neg hother, Call.linearPerTurn]
  ring

section Travel

variable [IsStrictOrderedRing K] (m : ArcMath K) (c : Call K)

omit [FloorRing K] in
theorem angularTravel_pos (h : c.turns > 0) : 0 < c.angularTravel m := by
  have hpi := m.pi_pos
  have hangle := neg_le_of_abs_le (m.abs_atan2f_le (c.rv.1 * c.rt.2 - c.rv.2 * c.rt.1)
    (c.rv.1 * c.rt.1 + c.rv.2 * c.rt.2))
  have heps : (0 : K) < angularTravelEpsilon := by norm_num [angularTravelEpsilon]
  simp only [Call.angularTravel, if_pos h]
  split_ifs <;> linarith

omit [FloorRing K] in
theorem angularTravel_neg (h : ¬ c.turns > 0) : c.angularTravel m < 0 := by
  have hpi := m.pi_pos
  have hangle := le_of_abs_le (m.abs_atan2f_le (c.rv.1 * c.rt.2 - c.rv.2 * c.rt.1)
    (c.rv.1 * c.rt.1 + c.rv.2 * c.rt.2))
  have heps : (0 : K) < angularTravelEpsilon := by norm_num [angularTravelEpsilon]
  simp only [Call.angularTravel, if_neg h]
  split_ifs <;> linarith

omit [FloorRing K] in
theorem angularTravel_ne_zero : c.angularTravel m ≠ 0 := by
  by_cases h : c.turns > 0
  · exact (angularTravel_pos m c h).ne'
  · exact (angularTravel_neg m c h).ne

omit [FloorRing K] in
theorem arcTravel_eq :
    c.arcTravel m = 2 * m.pi * (c.turns.natAbs - 1 : ℕ) + |c.angularTravel m| := by
  unfold Call.arcTravel
  by_cases h : c.turns > 0
  · rw [if_pos h, abs_of_pos (angularTravel_pos m c h)]
  · rw [if_neg h, abs_of_neg (angularTravel_neg m c h)]

omit [FloorRing K] in
theorem arcTravel_pos : 0 < c.arcTravel m := by
  have hpi := m.pi_pos
  rw [arcTravel_eq]
  have := abs_pos.mpr (angularTravel_ne_zero m c)
  positivity

omit [FloorRing K] in
/-- An arc that ends where it starts is a full turn. -/
theorem abs_angularTravel_turn (h0 : c.target c.plane.axis0 = c.position c.plane.axis0)
    (h1 : c.target c.plane.axis1 = c.position c.plane.axis1) :
    |c.angularTravel m| = 2 * m.pi := by
  have hpi := m.pi_pos
  have hrt : c.rt = c.rv := by
    simp [Call.rt, Call.center, h0, h1]
  have hangle : m.atan2f (c.rv.1 * c.rt.2 - c.rv.2 * c.rt.1)
      (c.rv.1 * c.rt.1 + c.rv.2 * c.rt.2) = 0 := by
    have hcross : c.rv.1 * c.rv.2 - c.rv.2 * c.rv.1 = 0 := by ring
    rw [hrt, hcross]
    exact m.atan2f_zero _ (add_nonneg (mul_self_nonneg _) (mul_self_nonneg _))
  have heps : (0 : K) ≤ angularTravelEpsilon := by norm_num [angularTravelEpsilon]
  simp only [Call.angularTravel, hangle]
  by_cases h : c.turns > 0
  · rw [if_pos h, if_pos heps, zero_add, abs_of_pos (by positivity)]
  · rw [if_neg h, if_pos (neg_nonpos.mpr heps), zero_sub, abs_neg, abs_of_pos (by positivity)]

end Travel

section Tracing

variable [IsStrictOrderedRing K] (m : ArcMath K) (arcTolerance : K)
  {mcLine : List (Line K) → Bool} (c : Call K)

omit [FloorRing K] in
/-- The lines of the segments of an arc. -/
theorem traceSegments_spec (hline : ∀ l, mcLine l = true) {theta : K} (htheta : 0 < |theta|)
    (center : K × K) (linearPerSegment : Axis → K) (n i count : ℕ) (rv : K × K) (x : Run K) :
    ∃ position lines,
      traceSegments m mcLine c center theta linearPerSegment n (i + 1) count rv x =
        (true, ⟨position, x.travel, x.lines ++ lines⟩) ∧
      Trail (x.travel + i * |theta|) (x.travel + (i + n : ℕ) * |theta|) lines ∧
      ∀ a s : Axis → K,
        (∀ j, ¬ c.plane.Spans j → x.position j = a j + s j * (x.travel + i * |theta|)) →
        (∀ j, ¬ c.plane.Spans j → linearPerSegment j = s j * |theta|) →
        ∀ e ∈ lines, Law c.plane a s e := by
  induction n generalizing i count rv x with
  | zero =>
    refine ⟨x.position, [], ?_, trail_nil _, by simp⟩
    rw [traceSegments, List.append_nil]
  | succ n ih =>
    rw [traceSegments]
    generalize rotate m c theta (i + 1) count rv = next
    obtain ⟨rv', count'⟩ := next
    simp only [hline, if_true]
    set position : Axis → K := fun j =>
      if j = c.plane.axis0 then center.1 + rv'.1
      else if j = c.plane.axis1 then center.2 + rv'.2
      else x.position j + linearPerSegment j with hposition
    set e : Line K := ⟨x.travel + (i + 1 : ℕ) * |theta|, position⟩ with he
    obtain ⟨p, lines, hrun, htrail, hlaw⟩ := ih (i + 1) count' rv'
      ⟨position, x.travel, x.lines ++ [e]⟩
    refine ⟨p, e :: lines, ?_, ?_, ?_⟩
    · rw [hrun, List.append_assoc]
      rfl
    · have hlt : x.travel + i * |theta| < e.travel := by
        simp only [he, Nat.cast_succ]
        linarith
      have happend := (trail_singleton hlt).append htrail
      rwa [List.singleton_append, Nat.add_right_comm, Nat.add_assoc] at happend
    · intro a s hx hs
      have hpos : ∀ j, ¬ c.plane.Spans j →
          position j = a j + s j * (x.travel + (i + 1 : ℕ) * |theta|) := by
        intro j hj
        obtain ⟨h0, h1⟩ := not_or.mp hj
        simp only [hposition, if_neg h0, if_neg h1, hx j hj, hs j hj, Nat.cast_succ]
        ring
      intro f hf
      rcases List.mem_cons.mp hf with rfl | hf
      · exact hpos
      · exact hlaw a s hpos hs f hf

/-- The lines of one call, for a full turn or the rest of an arc. -/
theorem trace_spec (hline : ∀ l, mcLine l = true) (x : Run K) :
    ∃ position lines,
      trace m arcTolerance mcLine c x =
        ⟨position, x.travel + |c.angularTravel m|,
          x.lines ++ lines ++ [⟨x.travel + |c.angularTravel m|, c.target⟩]⟩ ∧
      Trail x.travel (x.travel + |c.angularTravel m|)
        (lines ++ [⟨x.travel + |c.angularTravel m|, c.target⟩]) ∧
      ∀ a s : Axis → K, (∀ j, ¬ c.plane.Spans j → x.position j = a j + s j * x.travel) →
        (∀ j, ¬ c.plane.Spans j →
          c.target j = a j + s j * (x.travel + |c.angularTravel m|)) →
        ∀ e ∈ lines, Law c.plane a s e := by
  have hang := abs_pos.mpr (angularTravel_ne_zero m c)
  simp only [trace]
  generalize segments m arcTolerance c.radius (c.angularTravel m) = n
  cases n with
  | zero =>
    refine ⟨x.position, [], by simp, ?_, by simp⟩
    exact trail_singleton (e := ⟨x.travel + |c.angularTravel m|, c.target⟩) (by simpa using hang)
  | succ n =>
    have htheta : |c.angularTravel m / (n + 1 : ℕ)| = |c.angularTravel m| / (n + 1 : ℕ) := by
      rw [abs_div, Nat.abs_cast]
    have hn : (0 : K) < (n + 1 : ℕ) := Nat.cast_pos.mpr n.succ_pos
    have hpos : 0 < |c.angularTravel m / (n + 1 : ℕ)| := by
      rw [htheta]
      exact div_pos hang hn
    obtain ⟨position, lines, hrun, htrail, hlaw⟩ := traceSegments_spec m c hline hpos
      c.center (fun i => (c.target i - x.position i) / (n + 1 : ℕ)) n 0 0 c.rv x
    refine ⟨position, lines, ?_, ?_, ?_⟩
    · simp only [Nat.succ_ne_zero, if_false, Nat.add_sub_cancel, hrun, if_true]
    · have hlt : x.travel + (0 + n : ℕ) * |c.angularTravel m / (n + 1 : ℕ)| <
          x.travel + |c.angularTravel m| := by
        have hsum : |c.angularTravel m| = (n + 1 : K) * |c.angularTravel m / (n + 1 : ℕ)| := by
          rw [htheta, ← Nat.cast_succ]
          field_simp
        rw [zero_add]
        linarith
      rw [Nat.cast_zero, zero_mul, add_zero] at htrail
      exact htrail.append
        (trail_singleton (e := ⟨x.travel + |c.angularTravel m|, c.target⟩) hlt)
    · intro a s hx ht
      apply hlaw a s
      · intro j hj
        rw [hx j hj, Nat.cast_zero, zero_mul, add_zero]
      · intro j hj
        rw [ht j hj, hx j hj, htheta]
        ring

/-- The full turns of an arc. -/
theorem fullTurns_spec (hline : ∀ l, mcLine l = true) (n : ℕ) (arcTarget : Axis → K) (x : Run K)
    (htarget : ∀ i, c.plane.Spans i → arcTarget i = x.position i) :
    ∃ x' lines, fullTurns m arcTolerance mcLine c n arcTarget x = x' ∧
      x'.travel = x.travel + 2 * m.pi * n ∧ x'.lines = x.lines ++ lines ∧
      Trail x.travel x'.travel lines ∧
      (0 < n → ⟨x.travel + 2 * m.pi, (turnCall m c arcTarget x).target⟩ ∈ lines) ∧
      ∀ a s : Axis → K, (∀ j, ¬ c.plane.Spans j → x.position j = a j + s j * x.travel) →
        (0 < n → ∀ j, ¬ c.plane.Spans j → arcTarget j = a j + s j * x.travel) →
        (∀ j, ¬ c.plane.Spans j → c.linearPerTurn m j = s j * (2 * m.pi)) →
        (∀ j, ¬ c.plane.Spans j → x'.position j = a j + s j * x'.travel) ∧
          ∀ e ∈ lines, Law c.plane a s e := by
  induction n generalizing arcTarget x with
  | zero =>
    refine ⟨x, [], rfl, by simp, (List.append_nil _).symm, trail_nil _, by simp, ?_⟩
    intro a s hx _ _
    exact ⟨hx, by simp⟩
  | succ n ih =>
    rw [fullTurns]
    set turn := turnCall m c arcTarget x with hturn
    have hspan : ∀ i, c.plane.Spans i → turn.target i = x.position i := by
      intro i hi
      simp only [hturn, turnCall, if_pos hi, htarget i hi]
    have hang : |turn.angularTravel m| = 2 * m.pi :=
      abs_angularTravel_turn m turn (hspan _ (.inl rfl)) (hspan _ (.inr rfl))
    obtain ⟨position, lines, hrun, htrail, hlaw⟩ := trace_spec m arcTolerance turn hline x
    rw [hang] at hrun htrail hlaw
    simp only [hrun]
    obtain ⟨x', lines', hrest, htravel, hlines, htrail', -, hlaw'⟩ := ih turn.target
      ⟨turn.target, x.travel + 2 * m.pi,
        x.lines ++ lines ++ [⟨x.travel + 2 * m.pi, turn.target⟩]⟩ (fun _ _ => rfl)
    refine ⟨x', lines ++ [⟨x.travel + 2 * m.pi, turn.target⟩] ++ lines', hrest, ?_, ?_,
      htrail.append htrail', fun _ => by simp, ?_⟩
    · rw [htravel, Nat.cast_succ]
      ring
    · rw [hlines]
      simp only [List.append_assoc]
    · intro a s hx ht hs
      have hnext : ∀ j, ¬ c.plane.Spans j →
          turn.target j = a j + s j * (x.travel + 2 * m.pi) := by
        intro j hj
        simp only [hturn, turnCall, if_neg hj, ht n.succ_pos j hj, hs j hj]
        ring
      obtain ⟨hpos, hrestlaw⟩ := hlaw' a s hnext (fun _ => hnext) hs
      refine ⟨hpos, fun e he => ?_⟩
      rcases List.mem_append.mp he with he | he
      · rcases List.mem_append.mp he with he | he
        · exact hlaw a s hx hnext e he
        · rw [List.mem_singleton.mp he]
          exact hnext
      · exact hrestlaw e he

/-- The slopes of the axes over the whole arc. -/
def slope (i : Axis) : K := (c.target i - c.position i) / c.arcTravel m

variable {c} in
theorem Progresses.of_law {lines : List (Line K)}
    (hchain : (⟨0, c.position⟩ :: lines).IsChain fun a b => a.travel < b.travel)
    (hlast : lines.getLast? = some ⟨c.arcTravel m, c.target⟩)
    (hlaw : ∀ e ∈ lines, Law c.plane c.position (slope m c) e) : Progresses m c lines := by
  have hpos := arcTravel_pos m c
  have hall : ∀ e ∈ (⟨0, c.position⟩ :: lines : List (Line K)),
      Law c.plane c.position (slope m c) e := by
    intro e he
    rcases List.mem_cons.mp he with rfl | he
    · intro i _
      simp
    · exact hlaw e he
  refine ⟨hchain, hlast, fun e he i hi => ?_, fun i hi hle => ?_, fun i hi hle => ?_⟩
  · rw [hlaw e he i hi, slope]
    ring
  · refine hchain.imp_of_mem_imp fun a b ha hb hab => ?_
    have hs : 0 ≤ slope m c i := div_nonneg (sub_nonneg.mpr hle) hpos.le
    rw [hall a ha i hi, hall b hb i hi]
    linarith [mul_le_mul_of_nonneg_left hab.le hs]
  · refine hchain.imp_of_mem_imp fun a b ha hb hab => ?_
    have hs : slope m c i ≤ 0 := div_nonpos_of_nonpos_of_nonneg (sub_nonpos.mpr hle) hpos.le
    rw [hall a ha i hi, hall b hb i hi]
    linarith [mul_le_mul_of_nonpos_left hab.le hs]

/-- The axes that the arc does not start at their targets. -/
def Steady : Prop :=
  c.turns.natAbs ≤ 1 ∨
    ∀ i, ¬ c.plane.Spans i → i ≠ c.plane.axisLinear → c.target i = c.position i

/-- The lines of an arc: those of its full turns, and those of the rest. -/
theorem mcArc_spec (hline : ∀ l, mcLine l = true) :
    ∃ lines, mcArc m arcTolerance mcLine c = lines ++ [⟨c.arcTravel m, c.target⟩] ∧
      Trail 0 (c.arcTravel m) (lines ++ [⟨c.arcTravel m, c.target⟩]) ∧
      (1 < c.turns.natAbs →
        ⟨2 * m.pi, (turnCall m c c.arcTarget ⟨c.position, 0, []⟩).target⟩ ∈ lines) ∧
      (Steady c → ∀ e ∈ lines, Law c.plane c.position (slope m c) e) := by
  have hT := arcTravel_pos m c
  obtain ⟨x, full, hfull, htravel, hlines, htrail, hfirst, hlaw⟩ := fullTurns_spec m arcTolerance c
    hline (c.turns.natAbs - 1) c.arcTarget ⟨c.position, 0, []⟩ (fun i hi => if_pos (.inl hi))
  obtain ⟨position, rest, hrest, htrail', hlaw'⟩ := trace_spec m arcTolerance c hline x
  have hend : x.travel + |c.angularTravel m| = c.arcTravel m := by
    rw [htravel, arcTravel_eq, zero_add]
  rw [hend] at hrest htrail' hlaw'
  rw [zero_add] at hfirst
  refine ⟨full ++ rest, ?_, ?_, fun hturns => ?_, fun hsteady => ?_⟩
  · rw [mcArc_eq, hfull, hrest, hlines, List.nil_append]
  · rw [List.append_assoc]
    exact htrail.append htrail'
  · exact List.mem_append_left _ (hfirst (by omega))
  · have hslope : ∀ i, slope m c i * c.arcTravel m = c.target i - c.position i :=
      fun i => div_mul_cancel₀ _ hT.ne'
    have hstart : 0 < c.turns.natAbs - 1 → ∀ i, ¬ c.plane.Spans i →
        c.arcTarget i = c.position i + slope m c i * 0 := by
      intro hturns i hi
      rcases hsteady with hone | hothers
      · omega
      · by_cases hlinear : i = c.plane.axisLinear
        · simp [Call.arcTarget, hlinear]
        · simp [Call.arcTarget, hi, hlinear, hothers i hi hlinear]
    have hturn : ∀ i, ¬ c.plane.Spans i → c.linearPerTurn m i = slope m c i * (2 * m.pi) := by
      intro i _
      rw [Call.linearPerTurn, slope]
      ring
    obtain ⟨hpos, hfulllaw⟩ := hlaw c.position (slope m c) (fun _ _ => by simp) hstart hturn
    have hrestlaw := hlaw' c.position (slope m c) hpos (fun i _ => by
      rw [hslope]
      ring)
    intro e he
    rcases List.mem_append.mp he with he | he
    · exact hfulllaw e he
    · exact hrestlaw e he

/-- The lines of an arc, if no call of `mc_line` fails, move every axis in proportion to the angle
exactly if the arc has one turn or the axes beside those of the plane do not move. -/
theorem progresses_iff (hline : ∀ l, mcLine l = true) :
    Progresses m c (mcArc m arcTolerance mcLine c) ↔ Steady c := by
  obtain ⟨lines, heq, htrail, hfirst, hlaw⟩ := mcArc_spec m arcTolerance c hline
  rw [heq]
  constructor
  · intro h
    by_contra hsteady
    obtain ⟨hturns, hothers⟩ := not_or.mp hsteady
    apply hothers
    intro i hi hlinear
    have hprop := h.proportional _ (List.mem_append_left _ (hfirst (by omega))) i hi
    simp only [turnCall_target m c hi hlinear] at hprop
    linarith
  · intro hsteady
    apply Progresses.of_law m (htrail.chain _ rfl) List.getLast?_concat
    intro e he
    rcases List.mem_append.mp he with he | he
    · exact hlaw hsteady e he
    · rw [List.mem_singleton.mp he]
      intro i _
      have := arcTravel_pos m c
      simp only [slope]
      field_simp
      ring

end Tracing

/-- Two turns around the centre, with a rotary axis that is to go from 0 to 10. -/
noncomputable def twoTurns : Call ℝ where
  target := Axis.rec 0 0 0 10 0
  position := Axis.rec 0 0 0 0 0
  offset := Axis.rec 1 0 0 0 0
  radius := 1
  plane := .xy
  turns := 2

/-- The same with a single turn. -/
noncomputable def oneTurn : Call ℝ := { twoTurns with turns := 1 }

theorem progresses_oneTurn :
    Progresses exactArc oneTurn (mcArc exactArc (1 / 100) (fun _ => true) oneTurn) :=
  (progresses_iff exactArc (1 / 100) oneTurn fun _ => rfl).mpr (.inl le_rfl)

/-- The first turn ends beyond the target of the rotary axis, at 15. -/
theorem not_progresses_twoTurns :
    ¬ Progresses exactArc twoTurns (mcArc exactArc 2 (fun _ => true) twoTurns) := by
  have hline : ∀ l : List (Line ℝ), (fun _ => true) l = true := fun _ => rfl
  obtain ⟨lines, heq, -, hfirst, -⟩ := mcArc_spec exactArc 2 twoTurns hline
  have hmem := List.mem_append_left [⟨twoTurns.arcTravel exactArc, twoTurns.target⟩]
    (hfirst (by decide))
  have hT : twoTurns.arcTravel exactArc = 4 * Real.pi := by
    rw [arcTravel_eq, abs_angularTravel_turn exactArc twoTurns rfl rfl]
    norm_num [twoTurns, exactArc]
    ring
  intro h
  have hprop := h.proportional _ (heq ▸ hmem) .a (by decide)
  dsimp only at hprop
  rw [turnCall_target exactArc twoTurns (by decide) (by decide), hT] at hprop
  norm_num [twoTurns, exactArc] at hprop

end Arc

end Inspector
