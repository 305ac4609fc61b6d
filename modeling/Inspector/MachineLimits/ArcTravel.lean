import Inspector.MachineLimits.ArcCrossings
import Inspector.MachineLimits.Clip
import Inspector.MotionControl.Arc

/-! # Soft limits of arcs

`check_arc_travel_limits` checks two corners of a box around an arc. The box holds the arc unless
one of three things happens: both corners have the same side of the second axis, several clockwise
turns are taken for one, or nearly equal ends, between which `mc_arc` goes a full turn, are taken
for a short arc.
-/

namespace Inspector

namespace ArcTravel

open Arc

section Check

variable {K : Type*} [Field K] [LinearOrder K]

/-- `check_travel_limits`. -/
def checkTravelLimits (homed axes : Axis → Bool) (isCartesian : Bool) (envelope : WorkEnvelope K)
    (target : Axis → K) : Bool :=
  isCartesian && Axis.down.all fun i =>
    ! (homed i && axes i) ||
      ! (decide (target i < envelope.min i) || decide (target i > envelope.max i))

/-- The ends of an arc around its centre, for an arc that goes counter-clockwise. -/
def ends (c : Call K) : (K × K) × (K × K) := if c.turns > 0 then (c.rv, c.rt) else (c.rt, c.rv)

/-- `corner1`. -/
def corner1 (c : Call K) (i : Axis) : K :=
  let x := crossings c.turns (ends c).1 (ends c).2
  if i = c.plane.axis0 then
    if x.negX then c.center.1 - c.radius else min (c.position i) (c.target i)
  else if i = c.plane.axis1 then
    if x.negY then c.center.2 - c.radius else max (c.position i) (c.target i)
  else if c.turns > 0 then c.position i else c.target i

/-- `corner2`. -/
def corner2 (c : Call K) (i : Axis) : K :=
  let x := crossings c.turns (ends c).1 (ends c).2
  if i = c.plane.axis0 then
    if x.posX then c.center.1 + c.radius else max (c.position i) (c.target i)
  else if i = c.plane.axis1 then
    if x.posY then c.center.2 + c.radius else min (c.position i) (c.target i)
  else if c.turns > 0 then c.target i else c.position i

/-- `check_arc_travel_limits`. -/
def checkArcTravelLimits (homed softLimits : Axis → Bool) (c : Call K)
    (envelope : WorkEnvelope K) : Bool :=
  if softLimits .x = false ∧ softLimits .y = false ∧ softLimits .z = false then
    checkTravelLimits homed softLimits true envelope c.target
  else
    checkTravelLimits homed softLimits true envelope (corner1 c) &&
      checkTravelLimits homed softLimits true envelope (corner2 c)

end Check

section Spec

/-- The radius vector at an angle travelled from the start. -/
noncomputable def rvAt (c : Call ℝ) (travel : ℝ) : ℝ × ℝ :=
  Rotation.turn c.rv (if c.turns > 0 then travel else -travel)

/-- The helical arc. -/
noncomputable def point (c : Call ℝ) (travel : ℝ) (i : Axis) : ℝ :=
  if i = c.plane.axis0 then c.center.1 + (rvAt c travel).1
  else if i = c.plane.axis1 then c.center.2 + (rvAt c travel).2
  else c.position i + (c.target i - c.position i) * (travel / c.arcTravel exactArc)

/-- The ends lie on the circle. -/
structure OnCircle (c : Call ℝ) : Prop where
  radius_nonneg : 0 ≤ c.radius
  rv : Rotation.OnCircle c.rv c.radius
  rt : Rotation.OnCircle c.rt c.radius

/-- The whole arc lies in the envelope. -/
def Contained (c : Call ℝ) (envelope : WorkEnvelope ℝ) : Prop :=
  ∀ travel ∈ Set.Icc 0 (c.arcTravel exactArc), ∀ i,
    point c travel i ∈ Set.Icc (envelope.min i) (envelope.max i)

/-- An arc that passes the check lies in the envelope, where all axes are homed and have soft
limits. -/
def Sound (c : Call ℝ) : Prop :=
  ∀ envelope, checkArcTravelLimits (fun _ => true) (fun _ => true) c envelope = true →
    Contained c envelope

end Spec

section Travel

open Rotation

variable {c : Call ℝ} {Q : ℝ × ℝ → Prop}

theorem OnCircle.turn_angularTravel (hc : OnCircle c) (hr : 0 < c.radius) :
    turn c.rv (c.angularTravel exactArc) = c.rt := by
  have hbetween : turn c.rv (between c.rv c.rt) = c.rt := hc.rv.turn_between hc.rt hr
  have hplus : turn c.rv (between c.rv c.rt + 2 * Real.pi) = c.rt := by
    rw [← turn_turn, turn_two_pi, hbetween]
  have hminus : turn c.rv (between c.rv c.rt - 2 * Real.pi) = c.rt := by
    rw [← turn_two_pi (turn _ _), turn_turn, sub_add_cancel, hbetween]
  unfold Call.angularTravel
  dsimp only
  split_ifs
  · exact hplus
  · exact hbetween
  · exact hminus
  · exact hbetween

/-- The last turn goes from one end to the other one. -/
theorem OnCircle.turn_ends (hc : OnCircle c) (hr : 0 < c.radius) :
    turn (ends c).1 |c.angularTravel exactArc| = (ends c).2 := by
  have hturn := hc.turn_angularTravel hr
  by_cases hturns : c.turns > 0
  · simp only [ends, if_pos hturns, abs_of_pos (angularTravel_pos exactArc c hturns), hturn]
  · simp only [ends, if_neg hturns, abs_of_neg (angularTravel_neg exactArc c hturns)]
    rw [← hturn, turn_turn, add_neg_cancel, turn_zero]

theorem OnCircle.start (hc : OnCircle c) : Rotation.OnCircle (ends c).1 c.radius := by
  unfold ends
  split_ifs
  · exact hc.rv
  · exact hc.rt

/-- Less than a turn is travelled counter-clockwise between the ends. -/
theorem forall_rvAt_iff_of_lt (hc : OnCircle c) (hr : 0 < c.radius)
    (h : c.arcTravel exactArc < 2 * Real.pi) :
    (∀ travel ∈ Set.Icc 0 (c.arcTravel exactArc), Q (rvAt c travel)) ↔
      ∀ ψ ∈ Set.Icc 0 |c.angularTravel exactArc|, Q (turn (ends c).1 ψ) := by
  have hT : c.arcTravel exactArc = |c.angularTravel exactArc| := by
    have heq := arcTravel_eq exactArc c
    have hpi : 0 < exactArc.pi := exactArc.pi_pos
    have hzero : c.turns.natAbs - 1 = 0 := by
      by_contra hne
      have hone : (1 : ℝ) ≤ (c.turns.natAbs - 1 : ℕ) := by
        exact_mod_cast Nat.one_le_iff_ne_zero.mpr hne
      have hlt : c.arcTravel exactArc < 2 * exactArc.pi := h
      nlinarith [abs_nonneg (c.angularTravel exactArc)]
    rw [heq, hzero, Nat.cast_zero, mul_zero, zero_add]
  rw [hT]
  by_cases hturns : c.turns > 0
  · simp only [rvAt, ends, if_pos hturns]
  · have hback : ∀ t, rvAt c t = turn (ends c).1 (|c.angularTravel exactArc| - t) := by
      intro t
      have hrv : turn (ends c).1 |c.angularTravel exactArc| = c.rv := by
        rw [hc.turn_ends hr, ends, if_neg hturns]
      rw [rvAt, if_neg hturns, ← hrv, turn_turn, sub_eq_add_neg]
    constructor
    · intro hall ψ hψ
      have := hall (|c.angularTravel exactArc| - ψ) ⟨by linarith [hψ.2], by linarith [hψ.1]⟩
      rwa [hback, sub_sub_cancel] at this
    · intro hall t ht
      rw [hback]
      exact hall _ ⟨by linarith [ht.2], by linarith [ht.1]⟩

/-- With a full turn the whole circle is travelled. -/
theorem forall_rvAt_iff_of_le (hc : OnCircle c) (hr : 0 < c.radius)
    (h : 2 * Real.pi ≤ c.arcTravel exactArc) :
    (∀ travel ∈ Set.Icc 0 (c.arcTravel exactArc), Q (rvAt c travel)) ↔
      ∀ p, Rotation.OnCircle p c.radius → Q p := by
  constructor
  · intro hall p hp
    obtain ⟨t, ht, hturn⟩ := hc.rv.exists_turn_eq hp hr
    by_cases hturns : c.turns > 0
    · have := hall t ⟨ht.1, ht.2.trans h⟩
      rwa [rvAt, if_pos hturns, hturn] at this
    · have := hall (2 * Real.pi - t) ⟨by linarith [ht.2], by linarith [ht.1]⟩
      rwa [rvAt, if_neg hturns, ← turn_two_pi (turn _ _), turn_turn, neg_sub, sub_add_cancel,
        hturn] at this
  · intro hall t _
    exact hall _ (onCircle_turn hc.rv _)

/-- The arc starts at the position. -/
theorem point_zero (c : Call ℝ) : point c 0 = c.position := by
  funext i
  have hrv : rvAt c 0 = c.rv := by simp [rvAt]
  unfold point
  split_ifs with h0 h1
  · rw [hrv, h0, Call.center]
    ring
  · rw [hrv, h1, Call.center]
    ring
  · rw [zero_div, mul_zero, add_zero]

/-- The arc ends at the target. -/
theorem OnCircle.point_arcTravel (hc : OnCircle c) (hr : 0 < c.radius) :
    point c (c.arcTravel exactArc) = c.target := by
  have hrt : rvAt c (c.arcTravel exactArc) = c.rt := by
    rw [← hc.turn_angularTravel hr, rvAt, Call.arcTravel]
    split_ifs with hturns
    · have := turn_add_turns c.rv (c.angularTravel exactArc) (c.turns.natAbs - 1 : ℕ)
      rw [← this]
      congr 1
      change 2 * Real.pi * _ + _ = _
      push_cast
      ring
    · have := turn_add_turns c.rv (c.angularTravel exactArc) (-(c.turns.natAbs - 1 : ℕ))
      rw [← this]
      congr 1
      change -(2 * Real.pi * _ + _) = _
      push_cast
      ring
  have hT := (arcTravel_pos exactArc c).ne'
  funext i
  unfold point
  split_ifs with h0 h1
  · rw [hrt, h0, Call.rt]
    ring
  · rw [hrt, h1, Call.rt]
    ring
  · rw [div_self hT, mul_one]
    ring

end Travel

section Corners

open Rotation

variable {c : Call ℝ} {envelope : WorkEnvelope ℝ}

theorem checkTravelLimits_iff (target : Axis → ℝ) :
    checkTravelLimits (fun _ => true) (fun _ => true) true envelope target = true ↔
      ∀ i, target i ∈ Set.Icc (envelope.min i) (envelope.max i) := by
  simp only [checkTravelLimits, Bool.true_and, List.all_eq_true, Axis.mem_down, true_imp_iff,
    Bool.and_self, Bool.not_true, Bool.false_or, Bool.not_eq_true', Bool.or_eq_false_iff,
    decide_eq_false_iff_not, not_lt, gt_iff_lt, Set.mem_Icc]

theorem checkArcTravelLimits_iff :
    checkArcTravelLimits (fun _ => true) (fun _ => true) c envelope = true ↔
      (∀ i, corner1 c i ∈ Set.Icc (envelope.min i) (envelope.max i)) ∧
        ∀ i, corner2 c i ∈ Set.Icc (envelope.min i) (envelope.max i) := by
  rw [checkArcTravelLimits, if_neg (by simp), Bool.and_eq_true, checkTravelLimits_iff,
    checkTravelLimits_iff]

/-- The check is about the corners. -/
theorem sound_iff_mem_uIcc :
    Sound c ↔ ∀ travel ∈ Set.Icc 0 (c.arcTravel exactArc), ∀ i,
      point c travel i ∈ Set.uIcc (corner1 c i) (corner2 c i) := by
  constructor
  · intro h travel htravel i
    refine h ⟨fun i => corner1 c i ⊓ corner2 c i, fun i => corner1 c i ⊔ corner2 c i⟩ ?_
      travel htravel i
    rw [checkArcTravelLimits_iff]
    exact ⟨fun i => ⟨inf_le_left, le_sup_left⟩, fun i => ⟨inf_le_right, le_sup_right⟩⟩
  · intro h envelope hpass travel htravel i
    obtain ⟨h1, h2⟩ := checkArcTravelLimits_iff.mp hpass
    exact Set.uIcc_subset_Icc (h1 i) (h2 i) (h travel htravel i)

theorem add_mem_uIcc_iff {a b d x : ℝ} : a + x ∈ Set.uIcc (a + b) (a + d) ↔ x ∈ Set.uIcc b d := by
  simp only [Set.mem_uIcc, add_le_add_iff_left]

/-- Outside of the plane the arc goes straight, and the corners are the ends. -/
theorem point_mem_uIcc {travel : ℝ} (htravel : travel ∈ Set.Icc 0 (c.arcTravel exactArc)) {i : Axis}
    (h0 : i ≠ c.plane.axis0) (h1 : i ≠ c.plane.axis1) :
    point c travel i ∈ Set.uIcc (corner1 c i) (corner2 c i) := by
  have hcorners : Set.uIcc (corner1 c i) (corner2 c i) = Set.uIcc (c.position i) (c.target i) := by
    simp only [corner1, corner2, if_neg h0, if_neg h1]
    split_ifs
    · rfl
    · exact Set.uIcc_comm _ _
  have hT := arcTravel_pos exactArc c
  have hu0 : 0 ≤ travel / c.arcTravel exactArc := div_nonneg htravel.1 hT.le
  have hu1 : travel / c.arcTravel exactArc ≤ 1 := (div_le_one hT).mpr htravel.2
  rw [hcorners, point, if_neg h0, if_neg h1, Set.mem_uIcc]
  rcases le_total (c.position i) (c.target i) with hle | hle
  · exact .inl ⟨by nlinarith, by nlinarith⟩
  · exact .inr ⟨by nlinarith, by nlinarith⟩

/-- The ends of the arc on an axis, from those around the centre. -/
theorem min_max_eq (c : Call ℝ) (f : ℝ × ℝ → ℝ) (a : ℝ) :
    min (a + f c.rv) (a + f c.rt) = a + min (f (ends c).1) (f (ends c).2) ∧
      max (a + f c.rv) (a + f c.rt) = a + max (f (ends c).1) (f (ends c).2) := by
  rw [min_add_add_left, max_add_add_left]
  unfold ends
  split_ifs
  · exact ⟨rfl, rfl⟩
  · rw [min_comm, max_comm]
    exact ⟨rfl, rfl⟩

/-- In the plane the corners are those of the box. -/
theorem corners_eq (c : Call ℝ) :
    let x := crossings c.turns (ends c).1 (ends c).2
    corner1 c c.plane.axis0 = c.center.1 + x.x1 c.radius (ends c).1 (ends c).2 ∧
      corner2 c c.plane.axis0 = c.center.1 + x.x2 c.radius (ends c).1 (ends c).2 ∧
      corner1 c c.plane.axis1 = c.center.2 + x.y1 c.radius (ends c).1 (ends c).2 ∧
      corner2 c c.plane.axis1 = c.center.2 + x.y2 c.radius (ends c).1 (ends c).2 := by
  intro x
  have hposition0 : c.position c.plane.axis0 = c.center.1 + c.rv.1 := by simp [Call.center]
  have hposition1 : c.position c.plane.axis1 = c.center.2 + c.rv.2 := by simp [Call.center]
  have htarget0 : c.target c.plane.axis0 = c.center.1 + c.rt.1 := by simp [Call.rt]
  have htarget1 : c.target c.plane.axis1 = c.center.2 + c.rt.2 := by simp [Call.rt]
  obtain ⟨hmin0, hmax0⟩ := min_max_eq c Prod.fst c.center.1
  obtain ⟨hmin1, hmax1⟩ := min_max_eq c Prod.snd c.center.2
  simp only [corner1, corner2, if_true, if_neg c.plane.ne.symm, hposition0, hposition1, htarget0,
    htarget1, hmin0, hmax0, hmin1, hmax1, Crossings.x1, Crossings.x2, Crossings.y1, Crossings.y2,
    sub_eq_add_neg, ← apply_ite, x]
  exact ⟨trivial, trivial, trivial, trivial⟩

theorem sound_iff_holds :
    Sound c ↔ ∀ travel ∈ Set.Icc 0 (c.arcTravel exactArc),
      (crossings c.turns (ends c).1 (ends c).2).Holds c.radius (ends c).1 (ends c).2
        (rvAt c travel) := by
  obtain ⟨h1, h2, h3, h4⟩ := corners_eq c
  rw [sound_iff_mem_uIcc]
  constructor
  · intro h travel htravel
    constructor
    · have := h travel htravel c.plane.axis0
      rwa [h1, h2, point, if_pos rfl, add_mem_uIcc_iff] at this
    · have := h travel htravel c.plane.axis1
      rwa [h3, h4, point, if_neg c.plane.ne.symm, if_pos rfl, add_mem_uIcc_iff] at this
  · intro h travel htravel i
    by_cases hi0 : i = c.plane.axis0
    · rw [hi0, h1, h2, point, if_pos rfl, add_mem_uIcc_iff]
      exact (h travel htravel).fst
    · by_cases hi1 : i = c.plane.axis1
      · rw [hi1, h3, h4, point, if_neg c.plane.ne.symm, if_pos rfl, add_mem_uIcc_iff]
        exact (h travel htravel).snd
      · exact point_mem_uIcc htravel hi0 hi1

/-- What the check needs of an arc: all points of the circle are taken to be passed, or the arc goes
round, or it is drawn as less than a turn and its ends are level. -/
def Boxed (c : Call ℝ) : Prop :=
  c.turns > 1 ∨ Around c.radius (ends c).1 (ends c).2 ∨
    c.arcTravel exactArc < 2 * Real.pi ∧ Level (ends c).1 (ends c).2

theorem OnCircle.finish (hc : OnCircle c) : Rotation.OnCircle (ends c).2 c.radius := by
  unfold ends
  split_ifs
  · exact hc.rt
  · exact hc.rv

theorem eq_zero_of_onCircle {p : ℝ × ℝ} (h : Rotation.OnCircle p 0) : p = 0 := by
  ext
  · exact abs_nonpos_iff.mp (h.abs_fst_le le_rfl)
  · exact abs_nonpos_iff.mp (h.abs_snd_le le_rfl)

/-- An arc of radius zero stays in its centre. -/
theorem OnCircle.sound_of_radius_eq_zero (hc : OnCircle c) (h : c.radius = 0) : Sound c := by
  have hstart := eq_zero_of_onCircle (h ▸ hc.start)
  have hfinish := eq_zero_of_onCircle (h ▸ hc.finish)
  rw [sound_iff_holds]
  intro travel _
  have hat : Rotation.OnCircle (rvAt c travel) c.radius := onCircle_turn hc.rv _
  have hzero := eq_zero_of_onCircle (h ▸ hat)
  refine Crossings.holds_of hc.radius_nonneg hat ?_ ?_ ?_ ?_ ?_ <;> simp [hstart, hfinish, hzero]

theorem OnCircle.around_of_radius_eq_zero (hc : OnCircle c) (h : c.radius = 0) :
    Around c.radius (ends c).1 (ends c).2 := by
  have hstart := eq_zero_of_onCircle (h ▸ hc.start)
  have hfinish := eq_zero_of_onCircle (h ▸ hc.finish)
  left
  rw [hstart, hfinish]
  simp [startQuadrant, endQuadrant, NotAfter]

/-- Several counter-clockwise turns pass all points of the circle. -/
theorem OnCircle.sound_of_turns (hc : OnCircle c) (h : c.turns > 1) : Sound c := by
  rw [sound_iff_holds, crossings, if_pos h]
  intro travel _
  refine Crossings.holds_of hc.radius_nonneg (onCircle_turn hc.rv _) (.inl rfl) ?_ ?_ ?_ ?_ <;> simp

/-- The check is sound for the arcs that it needs, and for no other ones. -/
theorem sound_iff (hc : OnCircle c) : Sound c ↔ Boxed c := by
  by_cases hturns : c.turns > 1
  · exact iff_of_true (hc.sound_of_turns hturns) (.inl hturns)
  rcases hc.radius_nonneg.eq_or_lt with h0 | hr
  · exact iff_of_true (hc.sound_of_radius_eq_zero h0.symm)
      (.inr (.inl (hc.around_of_radius_eq_zero h0.symm)))
  have hcircle := holds_circle_iff hturns hr hc.start hc.finish
  rw [sound_iff_holds, Boxed, or_iff_right hturns]
  by_cases hT : c.arcTravel exactArc < 2 * Real.pi
  · have hlt : |c.angularTravel exactArc| < 2 * Real.pi := by
      have hpi : 0 < exactArc.pi := exactArc.pi_pos
      have heq := arcTravel_eq exactArc c
      have : 0 ≤ 2 * exactArc.pi * (c.turns.natAbs - 1 : ℕ) := by positivity
      linarith
    have harc := holds_arc_iff hturns hr hc.start (abs_pos.mpr (angularTravel_ne_zero exactArc c))
      hlt
    rw [hc.turn_ends hr] at harc
    rw [forall_rvAt_iff_of_lt hc hr hT, harc]
    constructor
    · intro hlevel
      exact .inr ⟨hT, hlevel⟩
    · rintro (haround | ⟨-, hlevel⟩)
      · exact harc.mp fun ψ _ => hcircle.mpr haround _ (onCircle_turn hc.start ψ)
      · exact hlevel
  · rw [forall_rvAt_iff_of_le hc hr (not_lt.mp hT), hcircle]
    exact (or_iff_left fun h => hT h.1).symm

end Corners

section Quarter

theorem sound_oneTurn : Sound oneTurn :=
  (sound_iff ⟨by norm_num [oneTurn, twoTurns],
    by norm_num [Rotation.OnCircle, Call.rv, oneTurn, twoTurns, Plane.xy],
    by norm_num [Rotation.OnCircle, Call.rt, Call.center, Call.rv, oneTurn, twoTurns, Plane.xy]⟩).mpr
    (.inr (.inl (.inl (by
      norm_num [ends, startQuadrant, endQuadrant, NotAfter, Call.rt, Call.center, Call.rv, oneTurn,
        twoTurns, Plane.xy]))))

/-- A quarter of a circle, clockwise from `Y1` to `X1`. -/
noncomputable def quarter : Call ℝ where
  target := Axis.rec 1 0 0 0 0
  position := Axis.rec 0 1 0 0 0
  offset := Axis.rec 0 (-1) 0 0 0
  radius := 1
  plane := .xy
  turns := -1

/-- An envelope with `Y` from 0.5 on. -/
noncomputable def upperHalf : WorkEnvelope ℝ where
  min := Axis.rec 0 (1 / 2) 0 0 0
  max := 1

theorem onCircle_quarter : OnCircle quarter := by
  constructor <;>
    norm_num [Rotation.OnCircle, Call.rt, Call.center, Call.rv, quarter, Plane.xy]

/-- The quarter leaves the envelope with its target, and passes the check. -/
theorem not_sound_quarter : OnCircle quarter ∧ ¬ Sound quarter := by
  refine ⟨onCircle_quarter, fun h => ?_⟩
  have hpass : checkArcTravelLimits (fun _ => true) (fun _ => true) quarter upperHalf = true := by
    rw [checkArcTravelLimits_iff]
    have hends : ends quarter = ((1, 0), (0, 1)) := by
      norm_num [ends, Call.rt, Call.center, Call.rv, quarter, Plane.xy]
    have hcrossings : crossings quarter.turns (ends quarter).1 (ends quarter).2 =
        ⟨false, false, false, true⟩ := by
      have hturns : quarter.turns = -1 := rfl
      rw [hends, hturns]
      norm_num [crossings]
    have h0 : quarter.plane.axis0 = .x := rfl
    have h1 : quarter.plane.axis1 = .y := rfl
    constructor <;> intro i <;> cases i <;> simp [corner1, corner2, hcrossings, h0, h1] <;>
      norm_num [quarter, upperHalf, Plane.xy, Call.center, Call.rv]
  have hmem := h upperHalf hpass _ ⟨(arcTravel_pos exactArc quarter).le, le_rfl⟩ .y
  rw [onCircle_quarter.point_arcTravel (by norm_num [quarter])] at hmem
  norm_num [quarter, upperHalf] at hmem

end Quarter

end ArcTravel

end Inspector
