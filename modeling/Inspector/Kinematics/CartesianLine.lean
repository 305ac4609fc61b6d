import Inspector.Kinematics.Inverse
import Mathlib.Analysis.Convex.Segment

/-! # Cartesian lines

The segmenter gives a single target for a line, so the motors move between the two ends of the line
in proportion. The tool stays on the straight segment exactly when the pitch and the direction of
the base are the same at both ends, up to the poses that the singular branch replaces.
-/

namespace Inspector

open Arm

/-- A pose as a point of its space. -/
def Pose.coords (p : Pose ℝ) : ℝ × ℝ × ℝ × ℝ := (p.x, p.y, p.z, p.a)

/-- The straight segment between two poses. -/
def Pose.line (p₀ p₁ : Pose ℝ) : Set (ℝ × ℝ × ℝ × ℝ) := segment ℝ p₀.coords p₁.coords

theorem Pose.mem_line {p p₀ p₁ : Pose ℝ} : p.coords ∈ p₀.line p₁ ↔ ∃ s ∈ Set.Icc (0 : ℝ) 1,
    p.x = p₀.x + s * (p₁.x - p₀.x) ∧ p.y = p₀.y + s * (p₁.y - p₀.y) ∧
      p.z = p₀.z + s * (p₁.z - p₀.z) ∧ p.a = p₀.a + s * (p₁.a - p₀.a) := by
  rw [Pose.line, segment_eq_image_lineMap, Set.mem_image]
  refine exists_congr fun s => and_congr_right fun _ => ?_
  simp only [AffineMap.lineMap_apply_module', coords, Prod.ext_iff, Prod.snd_add, Prod.fst_add,
    Prod.smul_fst, Prod.smul_snd, Prod.fst_sub, Prod.snd_sub, smul_eq_mul]
  constructor
  · rintro ⟨hx, hy, hz, ha⟩
    exact ⟨by linarith, by linarith, by linarith, by linarith⟩
  · rintro ⟨hx, hy, hz, ha⟩
    exact ⟨by linarith, by linarith, by linarith, by linarith⟩

/-- The motor positions passed through on the way from target to target. -/
def polyline : List (Axis → ℝ) → Set (Axis → ℝ)
  | a :: b :: targets => segment ℝ a b ∪ polyline (b :: targets)
  | _ => ∅

namespace Joints

/-- The joints moved in proportion. -/
noncomputable def lerp (q q' : Joints ℝ) (t : ℝ) : Joints ℝ where
  q1 := q.q1 + t * (q'.q1 - q.q1)
  q2 := q.q2 + t * (q'.q2 - q.q2)
  q3 := q.q3 + t * (q'.q3 - q.q3)
  q4 := q.q4 + t * (q'.q4 - q.q4)

theorem decode_lineMap (a b : Axis → ℝ) (t : ℝ) :
    decode (AffineMap.lineMap a b t) = (decode a).lerp (decode b) t := by
  ext <;> simp [decode, lerp, AffineMap.lineMap_apply_module'] <;> ring

theorem gamma_lerp {q q' : Joints ℝ} (h : q.q4 = q'.q4) (t : ℝ) :
    (q.lerp q' t).gamma = q.gamma + t * (q'.gamma - q.gamma) := by
  simp only [gamma, lerp, h, sub_self, mul_zero, add_zero]
  ring

end Joints

namespace Kinematics

open Joints

/-- The direction of the arm for a pose; near the axis the base is not turned. -/
noncomputable def direction (position : Axis → ℝ) : ℝ × ℝ :=
  if radius position < singularRadius then (1, 0)
  else (position .x / 1000 / -radius position, position .y / 1000 / -radius position)

/-- The pose taken up for a pose: the pose itself, or near the axis one on the negative X side. -/
noncomputable def reached (position : Axis → ℝ) : Pose ℝ :=
  if radius position < singularRadius then
    ⟨-radius position * 1000, 0, position .z, position .a⟩
  else Pose.ofCoords position

/-- The line has one pitch and one direction of the base, and the ends of the motion are on it. -/
structure Straight (p₀ p₁ : Axis → ℝ) : Prop where
  pitch : p₀ .a = p₁ .a
  direction : direction p₀ = direction p₁
  start : (reached p₀).coords ∈ (Pose.ofCoords p₀).line (Pose.ofCoords p₁)
  stop : (reached p₁).coords ∈ (Pose.ofCoords p₀).line (Pose.ofCoords p₁)

theorem q1_inverse_eq (p : Axis → ℝ) :
    (inverse exactTrig p).q1 = Polar.angle (direction p).2 (direction p).1 := by
  rw [q1_inverse, direction]
  split_ifs
  · exact Complex.arg_one.symm
  · rfl

theorem direction_eq (p : Axis → ℝ) :
    direction p = (Real.cos (inverse exactTrig p).q1, Real.sin (inverse exactTrig p).q1) := by
  rw [q1_inverse, direction]
  split_ifs with h
  · simp
  · have hr : -radius p ≠ 0 := by
      have : (0 : ℝ) < singularRadius := by norm_num [singularRadius]
      linarith
    have hneg : -radius p * -radius p =
        p .x / 1000 * (p .x / 1000) + p .y / 1000 * (p .y / 1000) := by
      rw [neg_mul_neg, radius_mul_self]
    ext
    · exact (div_eq_iff hr).mpr ((Polar.mul_cos_angle hneg).symm.trans (mul_comm _ _))
    · exact (div_eq_iff hr).mpr ((Polar.mul_sin_angle hneg).symm.trans (mul_comm _ _))

/-- The pose taken up is the one that the joints of the inverse kinematics reach. -/
theorem forward_inverse_eq (p : Axis → ℝ) : (inverse exactTrig p).forward = reached p := by
  rw [reached]
  split_ifs with h
  · exact forward_inverse_of_lt h
  · exact forward_inverse_of_le (not_lt.mp h)

variable {p₀ p₁ : Axis → ℝ}

/-- The pose on the way between two poses. -/
noncomputable def between (p₀ p₁ : Axis → ℝ) (t : ℝ) : Pose ℝ :=
  ((inverse exactTrig p₀).lerp (inverse exactTrig p₁) t).forward

theorem q4_inverse (p : Axis → ℝ) : (inverse exactTrig p).q4 = p .a * deg2rad := rfl

theorem between_zero (p₀ p₁ : Axis → ℝ) : between p₀ p₁ 0 = reached p₀ := by
  rw [← forward_inverse_eq, between]
  simp [lerp]

theorem between_one (p₀ p₁ : Axis → ℝ) : between p₀ p₁ 1 = reached p₁ := by
  rw [← forward_inverse_eq, between]
  simp [lerp]

theorem z_inverse (p : Axis → ℝ) : ((inverse exactTrig p).q2 / 1000 + l2 -
    d * Real.sin (inverse exactTrig p).q4) * 1000 = p .z :=
  (Pose.ext_iff.mp (forward_inverse p)).2.2.1

theorem a_between (p₀ p₁ : Axis → ℝ) (t : ℝ) :
    (between p₀ p₁ t).a = p₀ .a + t * (p₁ .a - p₀ .a) := by
  have h := deg2rad_mul_rad2deg
  simp only [between, forward, lerp, q4_inverse]
  linear_combination (p₀ .a + t * (p₁ .a - p₀ .a)) * h

/-- A change of the pitch takes the tool off the line. -/
theorem pitch_eq (h₀ : (inverse exactTrig p₀).InLimits) (h₁ : (inverse exactTrig p₁).InLimits)
    (h : ∀ t ∈ Set.Icc (0 : ℝ) 1,
      (between p₀ p₁ t).coords ∈ (Pose.ofCoords p₀).line (Pose.ofCoords p₁)) :
    p₀ .a = p₁ .a := by
  by_contra hne
  -- The pitch moves in proportion, so the height has to as well, and the sine would be affine.
  have hsin : ∀ t ∈ Set.Icc (0 : ℝ) 1,
      Real.sin (p₀ .a * deg2rad + t * (p₁ .a * deg2rad - p₀ .a * deg2rad)) =
        Real.sin (p₀ .a * deg2rad) +
          t * (Real.sin (p₁ .a * deg2rad) - Real.sin (p₀ .a * deg2rad)) := by
    intro t ht
    obtain ⟨s, -, -, -, hz, ha⟩ := Pose.mem_line.mp (h t ht)
    rw [a_between] at ha
    obtain rfl : t = s := mul_right_cancel₀ (sub_ne_zero.mpr (Ne.symm hne)) (add_left_cancel ha)
    have hz₀ := z_inverse p₀
    have hz₁ := z_inverse p₁
    have hd : (d : ℝ) ≠ 0 := by norm_num [d]
    simp only [between, forward, lerp, q4_inverse, Pose.ofCoords] at hz hz₀ hz₁
    apply mul_left_cancel₀ hd
    linear_combination -hz / 1000 + (1 - t) / 1000 * hz₀ + t / 1000 * hz₁
  have hlt : ∀ {p}, (inverse exactTrig p).InLimits → |p .a * deg2rad| < Real.pi := by
    intro p hp
    have hq := hp.q4
    have hpi := Real.pi_gt_three
    norm_num [Within, q4_inverse, link4LimitAngleLow, link4LimitAngleHigh, linkLimitEps] at hq
    exact abs_lt.mpr ⟨by linarith, by linarith⟩
  have heq := Polar.eq_of_sin_affine (hlt h₀) (hlt h₁) (hsin (1 / 2) (by norm_num))
    (hsin (1 / 4) (by norm_num))
  have hdeg : (deg2rad : ℝ) ≠ 0 := by norm_num [deg2rad, pi]
  exact hne (mul_right_cancel₀ hdeg heq)

theorem gamma_nonpos (p : Axis → ℝ) : (inverse exactTrig p).gamma ≤ 0 := by
  rw [gamma_inverse]
  exact neg_nonpos.mpr (Real.sqrt_nonneg _)

theorem direction_of_gamma_eq_zero {p : Axis → ℝ} (h : (inverse exactTrig p).gamma = 0) :
    direction p = (1, 0) := by
  rw [gamma_inverse, neg_eq_zero] at h
  rw [direction, if_pos]
  rw [h]
  norm_num [singularRadius]

theorem abs_q1_sub_lt (p₀ p₁ : Axis → ℝ) :
    |(inverse exactTrig p₁).q1 - (inverse exactTrig p₀).q1| < 2 * Real.pi := by
  rw [q1_inverse_eq, q1_inverse_eq]
  obtain ⟨h₀, h₀'⟩ := Complex.arg_mem_Ioc ⟨(direction p₀).1, (direction p₀).2⟩
  obtain ⟨h₁, h₁'⟩ := Complex.arg_mem_Ioc ⟨(direction p₁).1, (direction p₁).2⟩
  rw [Polar.angle, Polar.angle, abs_lt]
  constructor <;> linarith

/-- Turning the base takes the tool off the line: the two ends and the middle of the way are not
collinear. -/
theorem direction_eq_of_mem (ha : p₀ .a = p₁ .a)
    (h : ∀ t ∈ Set.Icc (0 : ℝ) 1,
      (between p₀ p₁ t).coords ∈ (Pose.ofCoords p₀).line (Pose.ofCoords p₁)) :
    direction p₀ = direction p₁ := by
  have hq4 : (inverse exactTrig p₀).q4 = (inverse exactTrig p₁).q4 := by
    rw [q4_inverse, q4_inverse, ha]
  obtain ⟨r, hr, hx, hy, -⟩ := Pose.mem_line.mp (h 0 (by norm_num))
  obtain ⟨s, hs, hx', hy', -⟩ := Pose.mem_line.mp (h 1 (by norm_num))
  obtain ⟨u, hu, hx'', hy'', -⟩ := Pose.mem_line.mp (h (1 / 2) (by norm_num))
  simp only [between, forward, gamma_lerp hq4] at hx hy hx' hy' hx'' hy''
  simp only [lerp, zero_mul, one_mul, add_zero, add_sub_cancel] at hx hy hx' hy' hx'' hy''
  have hmean : (inverse exactTrig p₀).q1 + 1 / 2 * ((inverse exactTrig p₁).q1 -
      (inverse exactTrig p₀).q1) =
        ((inverse exactTrig p₀).q1 + (inverse exactTrig p₁).q1) / 2 := by ring
  rw [hmean] at hx'' hy''
  simp only [Pose.ofCoords] at hx hy hx' hy' hx'' hy''
  rcases Polar.eq_of_collinear_mean
    (mul_nonneg_of_nonpos_of_nonpos (gamma_nonpos p₀) (gamma_nonpos p₁)) (abs_q1_sub_lt p₀ p₁)
    (by
      have ex : (inverse exactTrig p₁).gamma * Real.cos (inverse exactTrig p₁).q1 -
          (inverse exactTrig p₀).gamma * Real.cos (inverse exactTrig p₀).q1 =
            (s - r) * (p₁ .x - p₀ .x) / 1000 := by linarith
      have ey : (inverse exactTrig p₁).gamma * Real.sin (inverse exactTrig p₁).q1 -
          (inverse exactTrig p₀).gamma * Real.sin (inverse exactTrig p₀).q1 =
            (s - r) * (p₁ .y - p₀ .y) / 1000 := by linarith
      rw [ex, ey]
      linear_combination (s - r) * (p₁ .x - p₀ .x) / 1000 / 1000 * (hy'' - hy) -
        (s - r) * (p₁ .y - p₀ .y) / 1000 / 1000 * (hx'' - hx)) with heq | ⟨h0, h1⟩
  · rw [direction_eq, direction_eq, heq]
  · rw [direction_of_gamma_eq_zero h0, direction_of_gamma_eq_zero h1]

/-- With the pitch and the direction kept, the tool moves in proportion too. -/
theorem coords_between_mem (ha : p₀ .a = p₁ .a) (hdir : direction p₀ = direction p₁) {t : ℝ}
    (ht : t ∈ Set.Icc (0 : ℝ) 1) : (between p₀ p₁ t).coords ∈ (reached p₀).line (reached p₁) := by
  have hq4 : (inverse exactTrig p₀).q4 = (inverse exactTrig p₁).q4 := by
    rw [q4_inverse, q4_inverse, ha]
  have hq1 : (inverse exactTrig p₀).q1 = (inverse exactTrig p₁).q1 := by
    rw [q1_inverse_eq, q1_inverse_eq, hdir]
  refine Pose.mem_line.mpr ⟨t, ht, ?_⟩
  rw [← forward_inverse_eq, ← forward_inverse_eq]
  simp only [between, forward, gamma_lerp hq4]
  simp only [lerp, hq1, hq4, sub_self, mul_zero, add_zero]
  refine ⟨?_, ?_, ?_, trivial⟩ <;> ring

/-- The segmenter gives one target, that of the inverse kinematics, and keeps the mode. -/
theorem exists_lineTargets {k : Kinematics ℝ} (hk : k.jointMode = false) (target : Axis → ℝ)
    (condition : PlannerCond) : ∃ trsf, (lineTargets exactTrig target condition k).1 = [trsf] ∧
      decode trsf = inverse exactTrig target ∧
      (lineTargets exactTrig target condition k).2.jointMode = false := by
  have hk' : ({ k with iterations := 2 } : Kinematics ℝ).jointMode = false := hk
  refine ⟨(transformFromCartesian exactTrig { k with iterations := 2 } k.trsf target).1, ?_,
    decode_transformFromCartesian hk' k.trsf target, ?_⟩
  · simp [lineTargets, drain, segmentLine, transformFromCartesian, hk]
  · simp [lineTargets, drain, segmentLine, transformFromCartesian, hk]

theorem pose_lineMap {a b : Axis → ℝ} (ha : decode a = inverse exactTrig p₀)
    (hb : decode b = inverse exactTrig p₁) (t : ℝ) :
    Pose.ofCoords (transformToCartesian exactTrig (AffineMap.lineMap a b t)) =
      between p₀ p₁ t := by
  rw [transformToCartesian_eq, decode_lineMap, ha, hb, between]

/-- The poses that the motors pass through on the way to `p₁` after a line to `p₀`. -/
theorem forall_polyline_iff {k : Kinematics ℝ} (hk : k.jointMode = false)
    (condition : PlannerCond) (S : Set (ℝ × ℝ × ℝ × ℝ)) :
    (∀ motors ∈ polyline ((lineTargets exactTrig p₀ condition k).1 ++
        (lineTargets exactTrig p₁ condition (lineTargets exactTrig p₀ condition k).2).1),
      (Pose.ofCoords (transformToCartesian exactTrig motors)).coords ∈ S) ↔
    ∀ t ∈ Set.Icc (0 : ℝ) 1, (between p₀ p₁ t).coords ∈ S := by
  obtain ⟨a, hfirst, ha, hk'⟩ := exists_lineTargets hk p₀ condition
  obtain ⟨b, hsecond, hb, -⟩ := exists_lineTargets hk' p₁ condition
  have hpath : polyline ([a] ++ [b]) = AffineMap.lineMap a b '' Set.Icc (0 : ℝ) 1 := by
    rw [← segment_eq_image_lineMap]
    exact Set.union_empty _
  rw [hfirst, hsecond, hpath, Set.forall_mem_image]
  simp only [pose_lineMap ha hb]

/-- The motor positions of a line that follows a line to `p₀` all are on the straight segment to
`p₁` exactly when the line is straight for the base and the wrist. -/
theorem straight_iff (k : Kinematics ℝ) (hk : k.jointMode = false) (condition : PlannerCond)
    (p₀ p₁ : Axis → ℝ) (h₀ : ∃ q : Joints ℝ, q.InLimits ∧ q.forward = Pose.ofCoords p₀)
    (h₁ : ∃ q : Joints ℝ, q.InLimits ∧ q.forward = Pose.ofCoords p₁) :
    let first := lineTargets exactTrig p₀ condition k
    let second := lineTargets exactTrig p₁ condition first.2
    (∀ motors ∈ polyline (first.1 ++ second.1),
      (Pose.ofCoords (transformToCartesian exactTrig motors)).coords ∈
        (Pose.ofCoords p₀).line (Pose.ofCoords p₁)) ↔ Straight p₀ p₁ := by
  intro first second
  obtain ⟨q₀, hq₀, hf₀⟩ := h₀
  obtain ⟨q₁, hq₁, hf₁⟩ := h₁
  rw [forall_polyline_iff hk]
  constructor
  · intro h
    have ha := pitch_eq (inLimits_inverse hq₀ hf₀) (inLimits_inverse hq₁ hf₁) h
    constructor
    · exact ha
    · exact direction_eq_of_mem ha h
    · exact between_zero p₀ p₁ ▸ h 0 (by norm_num)
    · exact between_one p₀ p₁ ▸ h 1 (by norm_num)
  · intro h t ht
    exact (convex_segment _ _).segment_subset h.start h.stop
      (coords_between_mem h.pitch h.direction ht)

/-- A pose in front of the base, at half of the height. -/
noncomputable def inFront (r : ℝ) : Axis → ℝ
  | .x => -r
  | .z => 160
  | _ => 0

/-- A pose beside the base. -/
noncomputable def beside (r : ℝ) : Axis → ℝ
  | .y => -r
  | .z => 160
  | _ => 0

theorem exists_inFront {r : ℝ} (h₀ : 0 ≤ r) (h : r ≤ 90) :
    ∃ q : Joints ℝ, q.InLimits ∧ q.forward = Pose.ofCoords (inFront r) := by
  refine ⟨⟨0, 100, 90 - r, 0⟩, ?_, ?_⟩
  · constructor <;> norm_num [Within, link1LimitAngleLow, link1LimitAngleHigh, link2LimitLow,
      link2LimitHigh, link3LimitLow, link3LimitHigh, link4LimitAngleLow, link4LimitAngleHigh,
      linkLimitEps]
    constructor <;> linarith
  · ext <;> norm_num [forward, gamma, Pose.ofCoords, inFront, d, l1, l2, l3]
    ring

theorem exists_beside {r : ℝ} (h₀ : 0 ≤ r) (h : r ≤ 90) :
    ∃ q : Joints ℝ, q.InLimits ∧ q.forward = Pose.ofCoords (beside r) := by
  have hpi := Real.pi_lt_d6
  have hpos := Real.pi_pos
  refine ⟨⟨Real.pi / 2, 100, 90 - r, 0⟩, ?_, ?_⟩
  · constructor <;> norm_num [Within, link1LimitAngleLow, link1LimitAngleHigh, link2LimitLow,
      link2LimitHigh, link3LimitLow, link3LimitHigh, link4LimitAngleLow, link4LimitAngleHigh,
      linkLimitEps]
    · constructor <;> linarith
    · constructor <;> linarith
  · ext <;> norm_num [forward, gamma, Pose.ofCoords, beside, d, l1, l2, l3]
    ring

theorem radius_inFront {r : ℝ} (h : 0 ≤ r) : radius (inFront r) = r / 1000 := by
  rw [radius]
  simp only [inFront]
  rw [← Real.sqrt_mul_self (div_nonneg h (by norm_num : (0 : ℝ) ≤ 1000))]
  ring_nf

theorem radius_beside {r : ℝ} (h : 0 ≤ r) : radius (beside r) = r / 1000 := by
  rw [radius]
  simp only [beside]
  rw [← Real.sqrt_mul_self (div_nonneg h (by norm_num : (0 : ℝ) ≤ 1000))]
  ring_nf

theorem direction_inFront {r : ℝ} (h : 1 ≤ r) : direction (inFront r) = (1, 0) := by
  have hr : r ≠ 0 := by linarith
  rw [direction, radius_inFront (by linarith)]
  split_ifs
  · rfl
  · ext
    · simp only [inFront]
      field_simp
    · simp [inFront]

theorem direction_beside {r : ℝ} (h : 1 ≤ r) : direction (beside r) = (0, 1) := by
  have hr : r ≠ 0 := by linarith
  rw [direction, radius_beside (by linarith), if_neg]
  · ext
    · simp [beside]
    · simp only [beside]
      field_simp
  · norm_num [singularRadius]
    linarith

theorem reached_inFront {r : ℝ} (h : 1 ≤ r) : reached (inFront r) = Pose.ofCoords (inFront r) := by
  rw [reached, radius_inFront (by linarith), if_neg]
  norm_num [singularRadius]
  linarith

/-- Moving out radially is straight. -/
theorem straight_inFront :
    let first := lineTargets exactTrig (inFront 50) {} ⟨false, false, 0, fun _ => 0⟩
    let second := lineTargets exactTrig (inFront 60) {} first.2
    ∀ motors ∈ polyline (first.1 ++ second.1),
      (Pose.ofCoords (transformToCartesian exactTrig motors)).coords ∈
        (Pose.ofCoords (inFront 50)).line (Pose.ofCoords (inFront 60)) := by
  apply (straight_iff ⟨false, false, 0, fun _ => 0⟩ rfl {} (inFront 50) (inFront 60)
    (exists_inFront (by norm_num) (by norm_num)) (exists_inFront (by norm_num) (by norm_num))).mpr
  constructor
  · rfl
  · rw [direction_inFront (by norm_num), direction_inFront (by norm_num)]
  · rw [reached_inFront (by norm_num)]
    exact left_mem_segment _ _ _
  · rw [reached_inFront (by norm_num)]
    exact right_mem_segment _ _ _

/-- A quarter turn at the same height and pitch leaves the straight segment. -/
theorem not_straight_beside :
    let first := lineTargets exactTrig (inFront 50) {} ⟨false, false, 0, fun _ => 0⟩
    let second := lineTargets exactTrig (beside 50) {} first.2
    (∃ q : Joints ℝ, q.InLimits ∧ q.forward = Pose.ofCoords (inFront 50)) ∧
    (∃ q : Joints ℝ, q.InLimits ∧ q.forward = Pose.ofCoords (beside 50)) ∧
    ¬ ∀ motors ∈ polyline (first.1 ++ second.1),
      (Pose.ofCoords (transformToCartesian exactTrig motors)).coords ∈
        (Pose.ofCoords (inFront 50)).line (Pose.ofCoords (beside 50)) := by
  refine ⟨exists_inFront (by norm_num) (by norm_num), exists_beside (by norm_num) (by norm_num), ?_⟩
  intro h
  have hpitch : inFront 50 .a = beside 50 .a := rfl
  have hdir := direction_eq_of_mem hpitch ((forall_polyline_iff rfl _ _).mp h)
  rw [direction_inFront (by norm_num), direction_beside (by norm_num)] at hdir
  exact zero_ne_one (congrArg Prod.snd hdir)

end Kinematics

end Inspector
