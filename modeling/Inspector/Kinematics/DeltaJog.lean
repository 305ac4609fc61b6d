import Inspector.Geometry.Segment
import Inspector.Kinematics.DeltaLimits
import Inspector.Transition.WalkBack

/-! # Clipping jogs of a delta robot

`delta_apply_travel_limits` looks for a target by walking back on the path from its middle. Where
the path has a stretch of positions in range that is as long as the largest step, it ends on the
path. Nothing stops it at the start of the path, and a jog that goes nowhere divides by zero.
-/

namespace Inspector

open Transition DeltaProperties

/-- The limits, and the distance that a step of a motor moves the end effector. -/
structure DeltaJog (K : Type*) [Zero K] [LE K] extends DeltaLimits K where
  resolution : K
  resolution_nonneg : 0 ≤ resolution

namespace DeltaJog

open DeltaLimits

section Model

variable {K : Type*} [Field K] [LinearOrder K] (F : DeltaMath K) (s : DeltaJog K)

/-- The test of the loop, `delta_calcInverse && pos_ok`. -/
def reaches (t : Fin 3 → K) : Bool :=
  let r := s.machine.angles F (point t)
  r.1 && s.posOk r.2

/-- The length of the path. -/
def distance (position target : Fin 3 → K) : K :=
  let delta := fun i => target i - position i
  F.sqrtf (delta 0 * delta 0 + delta 1 * delta 1 + delta 2 * delta 2)

/-- The position at a length from the start of the path. -/
def along (position target : Fin 3 → K) (length : K) : Fin 3 → K :=
  fun i => position i + (target i - position i) / distance F position target * length

/-- `delta_apply_travel_limits`, whose loop is run with fuel. `cuboid` is the function that was
there before. A path without a length is `0 / 0`, which passes all comparisons of the loop. -/
def applyTravelLimits (cuboid : (Fin 3 → K) → Option (Fin 3 → K) → Fin 3 → FloatNumber K) (n : ℕ)
    (target : Fin 3 → K) (position : Option (Fin 3 → K)) : Option (Fin 3 → FloatNumber K) :=
  if axes.all fun i => !s.homed i then some fun i => .number (target i)
  else if s.limitToCuboid then some (cuboid target position)
  else
    match position with
    | none => some fun i => .number (target i)
    | some position =>
      if s.isTargetInsideCuboid fun i => .number (target i) then some fun i => .number (target i)
      else
        let length := distance F position target
        if length = 0 then some fun _ => .notANumber
        else
          (loop (WalkBack.pass (fun l => s.reaches F (along F position target l)) s.resolution
            (1 / 10)) n (WalkBack.start (length * (1 / 2)))).map fun r =>
              if r.ok then fun i => .number (along F position target r.length i)
              else fun i => .number (position i)

/-- A position with angles that are all in range. -/
def Reachable (t : Fin 3 → K) : Prop :=
  (s.machine.angles F (point t)).1 = true ∧ s.InRange (s.machine.angles F (point t)).2

/-- A jog is given a target in the cuboid, or one on the path with angles in range, or its start. -/
def Clips (cuboid : (Fin 3 → K) → Option (Fin 3 → K) → Fin 3 → FloatNumber K)
    (position target : Fin 3 → K) : Prop :=
  ∃ n t, s.applyTravelLimits F cuboid n target (some position) = some (fun i => .number (t i)) ∧
    (s.isTargetInsideCuboid (fun i => .number (t i)) = true ∨
      ((∃ u ∈ Set.Icc (0 : K) 1, ∀ i, t i = AffineMap.lineMap (position i) (target i) u) ∧
        s.Reachable F t) ∨ t = position)

/-- The search on the path has come to a state. -/
def Tries (position target : Fin 3 → K) : WalkBack K → Prop :=
  WalkBack.Passes (fun l => s.reaches F (along F position target l)) s.resolution (1 / 10)
    (WalkBack.start (distance F position target * (1 / 2)))

/-- The target is in the cuboid; or it is not the start of the jog, and the search never tries a
position before the start, and takes none that is not in range. -/
def Guided (position target : Fin 3 → K) : Prop :=
  s.isTargetInsideCuboid (fun i => .number (target i)) = true ∨
  target ≠ position ∧
    (0 < s.resolution ∨
      s.reaches F (along F position target (distance F position target * (1 / 2))) = true) ∧
    ∀ w, s.Tries F position target w → 0 ≤ w.next ∧
      (s.reaches F (along F position target w.next) = true →
        s.Reachable F (along F position target w.next))

/-- In the first half of the path a stretch that is as long as the largest step, or that goes to the
middle, passes the test of the loop, and what passes it from there to the middle is in range. -/
def Clear (position target : Fin 3 → K) : Prop :=
  target ≠ position ∧ ∃ m, 0 ≤ m ∧ m ≤ distance F position target * (1 / 2) ∧
    (0 < s.resolution ∨ m = distance F position target * (1 / 2)) ∧
    (∀ l, m ≤ l → l ≤ distance F position target * (1 / 2) → l ≤ m + (s.resolution + 1 / 10) →
      s.reaches F (along F position target l) = true) ∧
    ∀ l, m ≤ l → l ≤ distance F position target * (1 / 2) →
      s.reaches F (along F position target l) = true →
        s.Reachable F (along F position target l)

variable {F s} {t : Fin 3 → K}

/-- What passes the test is in range, if the bounds of the last two motors agree. -/
theorem reachable_of_reaches (hz : t 2 ≠ 0) (hrf : s.machine.cfg.rf ≠ 0)
    (hmax : s.maxAngle 1 ≤ s.maxAngle 2) (h : s.reaches F t = true) : s.Reachable F t := by
  have hangles := angles_eq (F := F) (m := s.machine) (show (point t).z ≠ 0 from hz) hrf
  rw [reaches, hangles, Bool.and_eq_true, posOk] at h
  obtain ⟨hfound, hok⟩ := h
  rw [Reachable, hangles]
  simp only [Bool.not_eq_true', Bool.or_eq_false_iff] at hok
  obtain ⟨⟨h0, h1⟩, h2⟩ := hok
  refine ⟨hfound, fun i => ?_⟩
  fin_cases i
  · exact FloatNumber.within_number.mpr (FloatNumber.outside_number.mp h0)
  · exact FloatNumber.within_number.mpr (FloatNumber.outside_number.mp h1)
  · have hbounds := FloatNumber.outside_number.mp h2
    exact FloatNumber.within_number.mpr ⟨hbounds.1, hbounds.2.trans hmax⟩

/-- What is in range passes the test, if the bounds of the last two motors agree. -/
theorem reaches_of_reachable (hmax : s.maxAngle 2 ≤ s.maxAngle 1) (h : s.Reachable F t) :
    s.reaches F t = true := by
  obtain ⟨hfound, hrange⟩ := h
  obtain ⟨v, hv, hlow, hhigh⟩ := hrange 2
  have h2 : ((s.machine.angles F (point t)).2 2).outside (s.minAngle 2) (s.maxAngle 1) = false := by
    rw [hv]
    exact FloatNumber.outside_number.mpr ⟨hlow, hhigh.trans hmax⟩
  rw [reaches, hfound, posOk, (hrange 0).outside_eq, (hrange 1).outside_eq, h2]
  rfl

end Model

section Exact

variable {s : DeltaJog ℝ} {position target : Fin 3 → ℝ}
  {cuboid : (Fin 3 → ℝ) → Option (Fin 3 → ℝ) → Fin 3 → FloatNumber ℝ}

theorem distance_nonneg (position target : Fin 3 → ℝ) :
    0 ≤ distance exactDelta position target := Real.sqrt_nonneg _

theorem half_distance_le :
    distance exactDelta position target * (1 / 2) ≤ distance exactDelta position target := by
  have hnonneg := distance_nonneg position target
  linarith

theorem distance_eq_zero_iff : distance exactDelta position target = 0 ↔ target = position := by
  have h0 := mul_self_nonneg (target 0 - position 0)
  have h1 := mul_self_nonneg (target 1 - position 1)
  have h2 := mul_self_nonneg (target 2 - position 2)
  unfold distance
  dsimp only
  change √_ = 0 ↔ _
  rw [Real.sqrt_eq_zero (by linarith)]
  constructor
  · intro h
    refine funext fun i => ?_
    fin_cases i
    · change target 0 = position 0
      exact sub_eq_zero.mp (mul_self_eq_zero.mp (by linarith))
    · change target 1 = position 1
      exact sub_eq_zero.mp (mul_self_eq_zero.mp (by linarith))
    · change target 2 = position 2
      exact sub_eq_zero.mp (mul_self_eq_zero.mp (by linarith))
  · rintro rfl
    simp

/-- A length between zero and that of the path is on the path. -/
theorem along_mem_path (hne : target ≠ position) {l : ℝ} (h0 : 0 ≤ l)
    (h1 : l ≤ distance exactDelta position target) : ∃ u ∈ Set.Icc (0 : ℝ) 1,
      ∀ i, along exactDelta position target l i =
        AffineMap.lineMap (position i) (target i) u := by
  have hpos : 0 < distance exactDelta position target :=
    lt_of_le_of_ne (distance_nonneg position target) fun h => hne (distance_eq_zero_iff.mp h.symm)
  refine ⟨l / distance exactDelta position target,
    ⟨div_nonneg h0 hpos.le, div_le_one_of_le₀ h1 hpos.le⟩, fun i => ?_⟩
  rw [Segment.lineMap_coord, along]
  ring

theorem apply_of_inside (h : s.Homed)
    (hin : s.isTargetInsideCuboid (fun i => .number (target i)) = true) (n : ℕ) :
    s.applyTravelLimits exactDelta cuboid n target (some position) =
      some fun i => .number (target i) := by
  have hhomed : (axes.all fun i => !s.homed i) = false := by simp [axes, h.homed]
  rw [applyTravelLimits, hhomed, if_neg Bool.false_ne_true,
    if_neg (Bool.eq_false_iff.mp h.cuboid)]
  dsimp only
  rw [if_pos hin]

theorem apply_of_outside (h : s.Homed)
    (hout : s.isTargetInsideCuboid (fun i => .number (target i)) = false) (n : ℕ) :
    s.applyTravelLimits exactDelta cuboid n target (some position) =
      if distance exactDelta position target = 0 then some fun _ => .notANumber
      else
        (loop (WalkBack.pass (fun l => s.reaches exactDelta (along exactDelta position target l))
          s.resolution (1 / 10)) n
            (WalkBack.start (distance exactDelta position target * (1 / 2)))).map fun r =>
              if r.ok then fun i => .number (along exactDelta position target r.length i)
              else fun i => .number (position i) := by
  have hhomed : (axes.all fun i => !s.homed i) = false := by simp [axes, h.homed]
  rw [applyTravelLimits, hhomed, if_neg Bool.false_ne_true,
    if_neg (Bool.eq_false_iff.mp h.cuboid)]
  dsimp only
  rw [if_neg (Bool.eq_false_iff.mp hout)]

/-- A jog to where it starts is given a target that is not a number. -/
theorem not_clips_of_eq (h : s.Homed)
    (hout : s.isTargetInsideCuboid (fun i => .number (position i)) = false) :
    ¬s.Clips exactDelta cuboid position position := by
  rintro ⟨n, t, hrun, -⟩
  rw [apply_of_outside h hout, if_pos (distance_eq_zero_iff.mpr rfl)] at hrun
  have h0 := congrFun (Option.some.inj hrun) 0
  cases h0

theorem guided_of_clear (hclear : s.Clear exactDelta position target) :
    s.Guided exactDelta position target := by
  obtain ⟨hne, m, hm0, hm, hres, hstretch, hreach⟩ := hclear
  refine .inr ⟨hne, ?_, fun w hw => ?_⟩
  · rcases hres with hres | rfl
    · exact .inl hres
    · exact .inr (hstretch _ le_rfl le_rfl (by linarith [s.resolution_nonneg]))
  · have hgrow : (0 : ℝ) ≤ 1 / 10 := by norm_num
    have hlow : m ≤ w.next :=
      WalkBack.le_next_of_stretch s.resolution_nonneg hgrow hm hstretch hw
    have hhigh : w.next ≤ distance exactDelta position target * (1 / 2) :=
      ((WalkBack.bounded_start s.resolution_nonneg hgrow).passes hgrow hw).next_le
    exact ⟨hm0.trans hlow, hreach _ hlow hhigh⟩

theorem clips_of_guided (h : s.Homed) (hguided : s.Guided exactDelta position target) :
    s.Clips exactDelta cuboid position target := by
  cases hin : s.isTargetInsideCuboid fun i => .number (target i) with
  | true => exact ⟨0, target, apply_of_inside h hin 0, .inl hin⟩
  | false =>
    obtain ⟨hne, hmiddle, htries⟩ := hguided.resolve_left (by simp [hin])
    have hdist : distance exactDelta position target ≠ 0 :=
      fun hzero => hne (distance_eq_zero_iff.mp hzero)
    obtain ⟨n, r, w, hrun, hok, hw, hlength, htest, hhigh⟩ :=
      WalkBack.exists_result s.resolution_nonneg (by norm_num) hmiddle
        fun w hw => (htries w hw).1
    obtain ⟨hlow, hreach⟩ := htries w hw
    refine ⟨n, along exactDelta position target r.length, ?_, .inr (.inl ⟨?_, ?_⟩)⟩
    · rw [apply_of_outside h hin, if_neg hdist, hrun, Option.map_some, if_pos hok]
    · rw [hlength]
      exact along_mem_path hne hlow (hhigh.trans half_distance_le)
    · rw [hlength]
      exact hreach htest

/-- A jog is clipped as it should if the search is guided, as it is on a clear path. One outside of
the cuboid that goes nowhere is not. -/
theorem clips_parts (h : s.Homed)
    (cuboid : (Fin 3 → ℝ) → Option (Fin 3 → ℝ) → Fin 3 → FloatNumber ℝ)
    (position target : Fin 3 → ℝ) :
    (s.Guided exactDelta position target → s.Clips exactDelta cuboid position target) ∧
    (s.Clear exactDelta position target → s.Guided exactDelta position target) ∧
    (s.Clips exactDelta cuboid position target →
      s.isTargetInsideCuboid (fun i => .number (target i)) = true ∨ target ≠ position) := by
  refine ⟨clips_of_guided h, guided_of_clear, fun hclips => ?_⟩
  cases hin : s.isTargetInsideCuboid fun i => .number (target i) with
  | true => exact .inl rfl
  | false =>
    refine .inr ?_
    rintro rfl
    exact not_clips_of_eq h hin hclips

end Exact

section Level

/-- The robot that is homed with level arms, whose steps are coarse. -/
noncomputable def levelJog : DeltaJog ℝ :=
  { levelRobot with
    resolution := 3 / 10
    resolution_nonneg := by norm_num }

theorem homed_levelJog : levelJog.Homed := homed_levelRobot

/-- A function for the cuboid that changes nothing. It is not called. -/
def keep (target : Fin 3 → ℝ) (_position : Option (Fin 3 → ℝ)) : Fin 3 → FloatNumber ℝ :=
  fun i => .number (target i)

/-- The positions straight below the base. -/
def below (z : ℝ) : Fin 3 → ℝ := ![0, 0, z]

/-- The test of the loop looks at the one angle of the three arms. -/
theorem reaches_below_iff {z a : ℝ} (hz : z ≠ 0) (ha : a = (z * z - 16) / (2 * z))
    (hlt : a * a < 9) : levelJog.reaches exactDelta (below z) = true ↔
      0 ≤ Real.arctan (-a / √(9 - a * a)) ∧ Real.arctan (-a / √(9 - a * a)) ≤ 1 := by
  have hmachine : levelJog.machine = levelRobot.machine := rfl
  have hbounds : ∀ i, levelJog.minAngle i = 0 ∧ levelJog.maxAngle i = 1 := fun _ => ⟨rfl, rfl⟩
  rw [reaches, below, hmachine, angles_below hz ha hlt, ← FloatNumber.outside_number]
  simp only [posOk, hbounds, Bool.true_and, Bool.or_self, Bool.not_eq_true']

/-- Below the home position the angle is in range. -/
theorem reaches_below {z : ℝ} (hlow : -5 ≤ z) (hhigh : z ≤ -4) :
    levelJog.reaches exactDelta (below z) = true := by
  obtain ⟨a, ha⟩ : ∃ a, a = (z * z - 16) / (2 * z) := ⟨_, rfl⟩
  have hmul : a * (2 * z) = z * z - 16 := by
    rw [ha, div_mul_cancel₀ _ (by linarith)]
  have hnonpos : a ≤ 0 := by nlinarith
  have hge : -2 ≤ a := by nlinarith
  have hsq : a * a ≤ 4 := by nlinarith
  have hroot : 0 < √(9 - a * a) := Real.sqrt_pos.mpr (by linarith)
  rw [reaches_below_iff (by linarith) ha (by linarith)]
  refine ⟨Real.arctan_nonneg.mpr (div_nonneg (by linarith) hroot.le), ?_⟩
  have hle : -a / √(9 - a * a) ≤ 1 := by
    rw [div_le_one hroot]
    exact Real.le_sqrt_of_sq_le (by linarith)
  have harctan := Real.arctan_mono hle
  rw [Real.arctan_one] at harctan
  linarith [Real.pi_le_four]

theorem reachable_below {z : ℝ} (hlow : -5 ≤ z) (hhigh : z ≤ -4) :
    levelJog.Reachable exactDelta (below z) := by
  have hz : z ≠ 0 := by linarith
  have hrf : (3 : ℝ) ≠ 0 := by norm_num
  exact reachable_of_reaches hz hrf le_rfl (reaches_below hlow hhigh)

/-- Above the home position it is not. -/
theorem not_reaches_above {z : ℝ} (hlow : -4 < z) (hhigh : z ≤ -3) :
    levelJog.reaches exactDelta (below z) = false := by
  obtain ⟨a, ha⟩ : ∃ a, a = (z * z - 16) / (2 * z) := ⟨_, rfl⟩
  have hmul : a * (2 * z) = z * z - 16 := by
    rw [ha, div_mul_cancel₀ _ (by linarith)]
  have hpos : 0 < a := by nlinarith
  have hle : a ≤ 2 := by nlinarith
  have hsq : a * a ≤ 4 := by nlinarith
  have hroot : 0 < √(9 - a * a) := Real.sqrt_pos.mpr (by linarith)
  rw [← Bool.not_eq_true, reaches_below_iff (by linarith) ha (by linarith)]
  rintro ⟨h0, -⟩
  have hneg := Real.arctan_lt_zero.mpr (div_neg_of_neg_of_pos (neg_neg_of_pos hpos) hroot)
  exact hneg.not_ge h0

/-- A path straight up or down. -/
theorem distance_below (z w : ℝ) : distance exactDelta (below z) (below w) = |w - z| := by
  have hsq : (0 - 0) * (0 - 0) + (0 - 0) * (0 - 0) + (w - z) * (w - z) = (w - z) * (w - z) := by
    ring
  change √((0 - 0) * (0 - 0) + (0 - 0) * (0 - 0) + (w - z) * (w - z)) = _
  rw [hsq, Real.sqrt_mul_self_eq_abs]

theorem along_below (z w l : ℝ) : along exactDelta (below z) (below w) l =
    below (z + (w - z) / |w - z| * l) := by
  refine funext fun i => ?_
  unfold along
  rw [distance_below]
  fin_cases i
  · change (0 : ℝ) + (0 - 0) / |w - z| * l = 0
    ring
  · change (0 : ℝ) + (0 - 0) / |w - z| * l = 0
    ring
  · rfl

theorem below_outside {z : ℝ} (h : -5 < z) :
    levelJog.isTargetInsideCuboid (fun i => .number (below z i)) = false := by
  have hout : (FloatNumber.number (below z 2)).outside (levelJog.envelopeMin 2)
      (levelJog.envelopeMax 2) = true := by
    change (decide (z < -6) || decide (z > -5)) = true
    rw [decide_eq_true h, Bool.or_true]
  rw [isTargetInsideCuboid, axes, List.all_cons, homed_levelJog.limits, Bool.true_and, hout]
  rfl

/-- The search for a jog up by half a unit ends below the start. -/
theorem search_up : loop (WalkBack.pass
    (fun l => levelJog.reaches exactDelta (along exactDelta (below (-4)) (below (-7 / 2)) l))
      levelJog.resolution (1 / 10)) 3 (WalkBack.start (1 / 4)) =
    some ⟨true, -(1 / 20), 1 / 5⟩ := by
  obtain ⟨test, htest⟩ : ∃ test : ℝ → Bool, test = fun l =>
      levelJog.reaches exactDelta (along exactDelta (below (-4)) (below (-7 / 2)) l) := ⟨_, rfl⟩
  have hup : ∀ l : ℝ, test l = levelJog.reaches exactDelta (below (-4 + l)) := by
    intro l
    rw [htest]
    dsimp only
    rw [along_below]
    norm_num
  have h1 : test (1 / 4) = false :=
    (hup _).trans (not_reaches_above (by norm_num) (by norm_num))
  have h2 : test (3 / 20) = false :=
    (hup _).trans (not_reaches_above (by norm_num) (by norm_num))
  have h3 : test (-(1 / 20)) = true :=
    (hup _).trans (reaches_below (by norm_num) (by norm_num))
  have hres : levelJog.resolution = 3 / 10 := rfl
  rw [← htest, hres]
  have hpass1 : WalkBack.pass test (3 / 10) (1 / 10) (WalkBack.start (1 / 4)) =
      .inl ⟨false, 1 / 4, 1 / 10⟩ := by
    norm_num [WalkBack.pass, WalkBack.next, WalkBack.start, h1]
  have hpass2 : WalkBack.pass test (3 / 10) (1 / 10) ⟨false, 1 / 4, 1 / 10⟩ =
      .inl ⟨false, 3 / 20, 1 / 5⟩ := by
    norm_num [WalkBack.pass, WalkBack.next, h2]
  have hpass3 : WalkBack.pass test (3 / 10) (1 / 10) ⟨false, 3 / 20, 1 / 5⟩ =
      .inr ⟨true, -(1 / 20), 1 / 5⟩ := by
    norm_num [WalkBack.pass, WalkBack.next, h3]
  rw [loop_succ_of_inl hpass1, loop_succ_of_inl hpass2, loop_succ_of_inr hpass3]

/-- A jog up from the home position goes down. -/
theorem not_clips_up : levelJog.Homed ∧ levelJog.Reachable exactDelta (below (-4)) ∧
    ¬levelJog.Clips exactDelta keep (below (-4)) (below (-7 / 2)) := by
  refine ⟨homed_levelJog, ?_, ?_⟩
  · exact reachable_below (by norm_num) le_rfl
  · rintro ⟨n, t, hrun, hclips⟩
    have hhalf : |(-7 / 2 : ℝ) - -4| = 1 / 2 := by norm_num
    rw [apply_of_outside homed_levelJog (below_outside (by norm_num)), distance_below, hhalf,
      if_neg (by norm_num)] at hrun
    have hquarter : (1 / 2 : ℝ) * (1 / 2) = 1 / 4 := by norm_num
    rw [hquarter, Option.map_eq_some_iff] at hrun
    obtain ⟨r, hloop, hr⟩ := hrun
    obtain rfl := loop_unique search_up hloop
    rw [if_pos rfl, along_below] at hr
    obtain rfl : t = below (-81 / 20) := by
      refine funext fun i => ?_
      have hi := FloatNumber.number.inj (congrFun hr i)
      rw [← hi]
      norm_num
    rcases hclips with hin | ⟨⟨u, hu, hpath⟩, -⟩ | heq
    · rw [below_outside (by norm_num)] at hin
      cases hin
    · have h2 := hpath 2
      rw [Segment.lineMap_coord] at h2
      change (-81 / 20 : ℝ) = -4 + u * (-7 / 2 - -4) at h2
      linarith [hu.1]
    · have h2 := congrFun heq 2
      change (-81 / 20 : ℝ) = -4 at h2
      norm_num at h2

/-- A jog down, of which the first half is in range. -/
theorem clear_down : levelJog.Clear exactDelta (below (-21 / 5)) (below (-23 / 5)) := by
  have hhalf : |(-23 / 5 : ℝ) - -21 / 5| = 2 / 5 := by norm_num
  have hdown : ∀ l : ℝ, along exactDelta (below (-21 / 5)) (below (-23 / 5)) l =
      below (-21 / 5 - l) := by
    intro l
    rw [along_below, hhalf]
    norm_num
    rw [sub_eq_add_neg]
  have hne : below (-23 / 5) ≠ below (-21 / 5) := by
    intro heq
    have h2 : (-23 / 5 : ℝ) = -21 / 5 := congrFun heq 2
    norm_num at h2
  rw [Clear, distance_below, hhalf]
  refine ⟨hne, 0, le_rfl, by norm_num, .inl (by norm_num [levelJog]), ?_, ?_⟩
  · intro l h0 h1 _
    rw [hdown]
    exact reaches_below (by linarith) (by linarith)
  · intro l h0 h1 _
    rw [hdown]
    exact reachable_below (by linarith) (by linarith)

theorem clips_parts_down : levelJog.Homed ∧
    levelJog.Clear exactDelta (below (-21 / 5)) (below (-23 / 5)) ∧
    levelJog.Clips exactDelta keep (below (-21 / 5)) (below (-23 / 5)) := by
  obtain ⟨hclips, hguided, -⟩ :=
    clips_parts homed_levelJog keep (below (-21 / 5)) (below (-23 / 5))
  exact ⟨homed_levelJog, clear_down, hclips (hguided clear_down)⟩

end Level

end DeltaJog

end Inspector
