import Inspector.Kinematics.Chain

/-! # The offline pose solver

`inspector_ikine.py` solves for the joints on both branches of the radial coordinate and keeps the
solution whose pose is nearer. One of the branches is always the right one, but the base angle is
taken from the position only, so it is lost where the tool is on the axis of the base.
-/

namespace Inspector

open Denavit

/-- The lengths of `inspector_ikine.py`. -/
noncomputable def Lengths.solver : Lengths := ⟨2 / 10, 6 / 100, 6 / 100, 1 / 100 + 0 + 0⟩

namespace Script

/-- `solve_branch`. -/
noncomputable def solveBranch (T : Transform) (sign : ℝ) : Joints ℝ :=
  let px := T 0 3
  let py := T 1 3
  let pz := T 2 3
  let q4 := Polar.angle (-T 2 2) (T 2 0)
  let gamma := sign * √(px ^ 2 + py ^ 2)
  { q1 := if |gamma| < 1 / 10 ^ 12 then 0 else Polar.angle (py / gamma) (px / gamma)
    q2 := pz - Lengths.solver.l2 + Lengths.solver.d * Real.sin q4
    q3 := gamma - Lengths.solver.d * Real.cos q4 + Lengths.solver.l1 - Lengths.solver.l3
    q4 := q4 }

/-- The pose of the chain at a solution. -/
noncomputable def pose (q : Joints ℝ) : Transform := fkine (inspectorRobot .solver) (toFull q)

/-- `np.linalg.norm` of the difference to a pose. -/
noncomputable def poseErr (T : Transform) (q : Joints ℝ) : ℝ :=
  √(∑ i, ∑ j, (pose q - T) i j ^ 2)

open Classical in
/-- `ikine_inspector` with the automatic choice of the branch. -/
noncomputable def ikineInspector (T : Transform) : Joints ℝ :=
  if poseErr T (solveBranch T (-1)) < poseErr T (solveBranch T 1) then solveBranch T (-1)
  else solveBranch T 1

theorem poseErr_nonneg (T : Transform) (q : Joints ℝ) : 0 ≤ poseErr T q := Real.sqrt_nonneg _

theorem poseErr_eq_zero_iff {T : Transform} {q : Joints ℝ} : poseErr T q = 0 ↔ pose q = T := by
  have hnonneg : ∀ i, 0 ≤ ∑ j, (pose q - T) i j ^ 2 :=
    fun i => Finset.sum_nonneg fun j _ => sq_nonneg _
  rw [poseErr, Real.sqrt_eq_zero (Finset.sum_nonneg fun i _ => hnonneg i),
    Finset.sum_eq_zero_iff_of_nonneg fun i _ => hnonneg i]
  constructor
  · intro h
    ext i j
    have hrow := (Finset.sum_eq_zero_iff_of_nonneg fun j _ => sq_nonneg _).mp
      (h i (Finset.mem_univ i)) j (Finset.mem_univ j)
    exact sub_eq_zero.mp (pow_eq_zero_iff two_ne_zero |>.mp hrow)
  · rintro rfl i -
    simp

/-- A branch that reaches the pose makes the solver reach it. -/
theorem pose_ikineInspector {T : Transform} {sign : ℝ} (hsign : sign = 1 ∨ sign = -1)
    (h : pose (solveBranch T sign) = T) : pose (ikineInspector T) = T := by
  have hplus := poseErr_nonneg T (solveBranch T 1)
  have hminus := poseErr_nonneg T (solveBranch T (-1))
  have hzero := poseErr_eq_zero_iff.mpr h
  rw [ikineInspector]
  split_ifs with hlt
  · rcases hsign with rfl | rfl
    · linarith
    · exact h
  · rcases hsign with rfl | rfl
    · exact h
    · exact poseErr_eq_zero_iff.mp (by linarith)

section Branch

variable {q q' : Joints ℝ} {sign : ℝ}

/-- The pose depends on the directions of the base and of the wrist, the height and the radius. -/
theorem pose_congr (hcos1 : Real.cos q.q1 = Real.cos q'.q1) (hsin1 : Real.sin q.q1 = Real.sin q'.q1)
    (hcos4 : Real.cos q.q4 = Real.cos q'.q4) (hsin4 : Real.sin q.q4 = Real.sin q'.q4)
    (hq2 : q.q2 = q'.q2) (hradial : radial .solver q = radial .solver q') : pose q = pose q' := by
  rw [pose, pose, fkine_inspectorRobot, fkine_inspectorRobot, hcos1, hsin1, hcos4, hsin4, hq2,
    hradial]

/-- The wrist is found up to full turns. -/
theorem wrist_solveBranch (q : Joints ℝ) (sign : ℝ) :
    Real.cos (solveBranch (pose q) sign).q4 = Real.cos q.q4 ∧
      Real.sin (solveBranch (pose q) sign).q4 = Real.sin q.q4 := by
  have hunit : (1 : ℝ) * 1 =
      Real.cos q.q4 * Real.cos q.q4 + Real.sin q.q4 * Real.sin q.q4 := by
    linear_combination -Real.cos_sq_add_sin_sq q.q4
  have hcos := Polar.mul_cos_angle hunit
  have hsin := Polar.mul_sin_angle hunit
  rw [one_mul, div_one, div_one] at hcos hsin
  have hq4 : (solveBranch (pose q) sign).q4 = Polar.angle (Real.sin q.q4) (Real.cos q.q4) := by
    simp [solveBranch, pose, fkine_inspectorRobot]
  rw [hq4]
  exact ⟨hcos, hsin⟩

theorem q2_solveBranch (q : Joints ℝ) (sign : ℝ) : (solveBranch (pose q) sign).q2 = q.q2 := by
  have hq2 : (solveBranch (pose q) sign).q2 = q.q2 + Lengths.solver.l2 -
      Lengths.solver.d * Real.sin q.q4 - Lengths.solver.l2 +
      Lengths.solver.d * Real.sin (solveBranch (pose q) sign).q4 := by
    simp [solveBranch, pose, fkine_inspectorRobot]
  rw [hq2, (wrist_solveBranch q sign).2]
  ring

/-- The distance of the pose from the axis of the base. -/
theorem sqrt_pose (q : Joints ℝ) :
    √(pose q 0 3 ^ 2 + pose q 1 3 ^ 2) = |radial .solver q| := by
  have hsum : pose q 0 3 ^ 2 + pose q 1 3 ^ 2 = radial .solver q ^ 2 := by
    rw [pose, fkine_inspectorRobot]
    change (radial .solver q * Real.cos q.q1) ^ 2 + (radial .solver q * Real.sin q.q1) ^ 2 = _
    linear_combination radial .solver q ^ 2 * Real.cos_sq_add_sin_sq q.q1
  rw [hsum, Real.sqrt_sq_eq_abs]

theorem radial_solveBranch (q : Joints ℝ) (sign : ℝ) :
    radial .solver (solveBranch (pose q) sign) = sign * |radial .solver q| := by
  have hq3 : (solveBranch (pose q) sign).q3 = sign * √(pose q 0 3 ^ 2 + pose q 1 3 ^ 2) -
      Lengths.solver.d * Real.cos (solveBranch (pose q) sign).q4 + Lengths.solver.l1 -
      Lengths.solver.l3 := rfl
  rw [radial, hq3, sqrt_pose]
  ring

theorem q1_solveBranch (q : Joints ℝ) (sign : ℝ) : (solveBranch (pose q) sign).q1 =
    if |(sign * |radial .solver q|)| < 1 / 10 ^ 12 then 0
    else Polar.angle (radial .solver q * Real.sin q.q1 / (sign * |radial .solver q|))
      (radial .solver q * Real.cos q.q1 / (sign * |radial .solver q|)) := by
  rw [← sqrt_pose]
  simp only [solveBranch, pose, fkine_inspectorRobot]
  rfl

theorem pose_one_one (q : Joints ℝ) : pose q 1 1 = -Real.cos q.q1 := by
  rw [pose, fkine_inspectorRobot]
  rfl

/-- The branch with the sign of the radial coordinate. -/
theorem exists_sign (q : Joints ℝ) :
    ∃ sign : ℝ, (sign = 1 ∨ sign = -1) ∧ sign * |radial .solver q| = radial .solver q := by
  rcases le_total 0 (radial .solver q) with h | h
  · exact ⟨1, .inl rfl, by rw [one_mul, abs_of_nonneg h]⟩
  · exact ⟨-1, .inr rfl, by rw [neg_one_mul, abs_of_nonpos h, neg_neg]⟩

/-- The branch with the right sign reaches the pose if it turns the base in the right direction. -/
theorem pose_solveBranch (hsign : sign * |radial .solver q| = radial .solver q)
    (hcos : Real.cos (solveBranch (pose q) sign).q1 = Real.cos q.q1)
    (hsin : Real.sin (solveBranch (pose q) sign).q1 = Real.sin q.q1) :
    pose (solveBranch (pose q) sign) = pose q :=
  pose_congr hcos hsin (wrist_solveBranch q sign).1 (wrist_solveBranch q sign).2
    (q2_solveBranch q sign) (by rw [radial_solveBranch, hsign])

end Branch

/-- The solver reaches the pose of any joints exactly when the tool is away from the axis of the
base or the base is not turned. -/
theorem pose_ikineInspector_pose (q : Joints ℝ) :
    pose (ikineInspector (pose q)) = pose q ↔
      1 / 10 ^ 12 ≤ |radial .solver q| ∨ Real.cos q.q1 = 1 := by
  constructor
  · intro h
    by_contra hnot
    obtain ⟨hnear, hturn⟩ := not_or.mp hnot
    have hzero : (ikineInspector (pose q)).q1 = 0 := by
      have hbranch : ∀ sign : ℝ, |sign| = 1 → (solveBranch (pose q) sign).q1 = 0 := by
        intro sign hsign
        rw [q1_solveBranch, if_pos]
        rw [abs_mul, abs_abs, hsign, one_mul]
        exact lt_of_not_ge hnear
      rw [ikineInspector]
      split_ifs
      · exact hbranch (-1) (by norm_num)
      · exact hbranch 1 (by norm_num)
    have hentry := congrFun (congrFun h 1) 1
    rw [pose_one_one, pose_one_one, hzero, Real.cos_zero] at hentry
    exact hturn (by linarith)
  · intro h
    obtain ⟨sign, hsign, hradial⟩ := exists_sign q
    apply pose_ikineInspector hsign
    have hq1 := q1_solveBranch q sign
    rw [hradial] at hq1
    by_cases hnear : |radial .solver q| < 1 / 10 ^ 12
    · have hturn : Real.cos q.q1 = 1 := h.resolve_left (not_le.mpr hnear)
      have hsin : Real.sin q.q1 = 0 := by
        have := Real.cos_sq_add_sin_sq q.q1
        rw [hturn] at this
        exact pow_eq_zero_iff two_ne_zero |>.mp (by linarith)
      rw [if_pos hnear] at hq1
      apply pose_solveBranch hradial
      · rw [hq1, Real.cos_zero, hturn]
      · rw [hq1, Real.sin_zero, hsin]
    · rw [if_neg hnear] at hq1
      have hne : radial .solver q ≠ 0 := by
        intro h0
        rw [h0, abs_zero] at hnear
        exact hnear (by norm_num)
      have hsq : radial .solver q * radial .solver q =
          radial .solver q * Real.cos q.q1 * (radial .solver q * Real.cos q.q1) +
          radial .solver q * Real.sin q.q1 * (radial .solver q * Real.sin q.q1) := by
        linear_combination -(radial .solver q * radial .solver q) * Real.cos_sq_add_sin_sq q.q1
      apply pose_solveBranch hradial
      · rw [hq1]
        exact mul_left_cancel₀ hne (Polar.mul_cos_angle hsq)
      · rw [hq1]
        exact mul_left_cancel₀ hne (Polar.mul_sin_angle hsq)

/-- With the base turned by a quarter turn and the tool on its axis the solver loses the base angle. -/
theorem not_pose_ikineInspector_pose : ¬∀ q : Joints ℝ, |q.q1| ≤ Real.pi →
    0 ≤ q.q2 ∧ q.q2 ≤ 18 / 100 → 0 ≤ q.q3 ∧ q.q3 ≤ 18 / 100 → |q.q4| ≤ Real.pi / 2 →
    pose (ikineInspector (pose q)) = pose q := by
  intro h
  have hq := h ⟨Real.pi / 2, 0, 13 / 100, 0⟩
    (by rw [abs_of_nonneg Real.pi_div_two_pos.le]; linarith [Real.pi_pos]) (by norm_num)
    (by norm_num) (by rw [abs_zero]; exact Real.pi_div_two_pos.le)
  rw [pose_ikineInspector_pose] at hq
  simp [radial, Lengths.solver] at hq
  norm_num at hq

end Script

end Inspector
