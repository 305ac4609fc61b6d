import Inspector.Geometry.Denavit
import Inspector.Kinematics.Inverse

/-! # The chain of links

The scripts of the arm describe it as a chain of six links, two of which do not move. The pose at
its end has the position that the firmware computes, and its rotation is that of the base and the
pitch.
-/

namespace Inspector

open Denavit

/-- The lengths that a script gives the links, in metres. -/
structure Lengths where
  l1 : ℝ
  l2 : ℝ
  l3 : ℝ
  d : ℝ

/-- The lengths of `ikine_debug.py`, where `D` is `L4 + LC + DF`. -/
noncomputable def Lengths.debug : Lengths := ⟨2 / 10, 6 / 100, 6 / 100, 3 / 100 + 0 + 2 / 100⟩

namespace Script

/-- `inspector_robot`. -/
noncomputable def inspectorRobot (c : Lengths) : List Link :=
  [.revolute c.l2 (-c.l1) 0 0,
    .prismatic 0 0 (-Real.pi / 2) 0,
    .prismatic (-Real.pi / 2) 0 (-Real.pi / 2) 0,
    .prismatic 0 0 (Real.pi / 2) c.l3,
    .revolute 0 (-c.d) 0 (-Real.pi / 2),
    .prismatic (Real.pi / 2) 0 (-Real.pi / 2) 0]

/-- `to_full`: the joints with those that do not move. Lengths are in metres. -/
def toFull (q : Joints ℝ) : List ℝ := [q.q1, q.q2, 0, q.q3, q.q4, 0]

/-- The signed distance of the tool from the axis of the base. -/
noncomputable def radial (c : Lengths) (q : Joints ℝ) : ℝ :=
  q.q3 + c.d * Real.cos q.q4 - c.l1 + c.l3

/-- The pose at the end of the chain. -/
theorem fkine_inspectorRobot (c : Lengths) (q : Joints ℝ) :
    fkine (inspectorRobot c) (toFull q) =
      !![Real.cos q.q1 * Real.sin q.q4, Real.sin q.q1, Real.cos q.q1 * Real.cos q.q4,
          radial c q * Real.cos q.q1;
        Real.sin q.q1 * Real.sin q.q4, -Real.cos q.q1, Real.sin q.q1 * Real.cos q.q4,
          radial c q * Real.sin q.q1;
        Real.cos q.q4, 0, -Real.sin q.q4, q.q2 + c.l2 - c.d * Real.sin q.q4;
        0, 0, 0, 1] := by
  have hcos : Real.cos (-Real.pi / 2) = 0 := by rw [neg_div, Real.cos_neg, Real.cos_pi_div_two]
  have hsin : Real.sin (-Real.pi / 2) = -1 := by rw [neg_div, Real.sin_neg, Real.sin_pi_div_two]
  have hcos4 : Real.cos (q.q4 + -Real.pi / 2) = Real.sin q.q4 := by
    rw [neg_div, ← sub_eq_add_neg, Real.cos_sub_pi_div_two]
  have hsin4 : Real.sin (q.q4 + -Real.pi / 2) = -Real.cos q.q4 := by
    rw [neg_div, ← sub_eq_add_neg, Real.sin_sub_pi_div_two]
  -- The base with the vertical rail, the horizontal rail, and the wrist.
  have hbase : Link.transform (.revolute c.l2 (-c.l1) 0 0) q.q1 *
      Link.transform (.prismatic 0 0 (-Real.pi / 2) 0) q.q2 =
      !![Real.cos q.q1, 0, -Real.sin q.q1, -c.l1 * Real.cos q.q1;
        Real.sin q.q1, 0, Real.cos q.q1, -c.l1 * Real.sin q.q1;
        0, -1, 0, q.q2 + c.l2;
        0, 0, 0, 1] := by
    ext i j
    fin_cases i <;> fin_cases j <;>
      simp [Link.transform, transform_eq, Matrix.mul_apply, Fin.sum_univ_four, hcos, hsin]
  have hrail : Link.transform (.prismatic (-Real.pi / 2) 0 (-Real.pi / 2) 0) 0 *
      Link.transform (.prismatic 0 0 (Real.pi / 2) c.l3) q.q3 =
      !![0, 1, 0, q.q3 + c.l3;
        -1, 0, 0, 0;
        0, 0, 1, 0;
        0, 0, 0, 1] := by
    ext i j
    fin_cases i <;> fin_cases j <;>
      simp [Link.transform, transform_eq, Matrix.mul_apply, Fin.sum_univ_four, hcos, hsin]
  have hwrist : Link.transform (.revolute 0 (-c.d) 0 (-Real.pi / 2)) q.q4 *
      Link.transform (.prismatic (Real.pi / 2) 0 (-Real.pi / 2) 0) 0 =
      !![Real.cos q.q4, 0, -Real.sin q.q4, -c.d * Real.sin q.q4;
        Real.sin q.q4, 0, Real.cos q.q4, c.d * Real.cos q.q4;
        0, -1, 0, 0;
        0, 0, 0, 1] := by
    ext i j
    fin_cases i <;> fin_cases j <;>
      simp [Link.transform, transform_eq, Matrix.mul_apply, Fin.sum_univ_four, hcos, hsin, hcos4,
        hsin4]
  have hprod : fkine (inspectorRobot c) (toFull q) =
      (Link.transform (.revolute c.l2 (-c.l1) 0 0) q.q1 *
        Link.transform (.prismatic 0 0 (-Real.pi / 2) 0) q.q2) *
      (Link.transform (.prismatic (-Real.pi / 2) 0 (-Real.pi / 2) 0) 0 *
        Link.transform (.prismatic 0 0 (Real.pi / 2) c.l3) q.q3) *
      (Link.transform (.revolute 0 (-c.d) 0 (-Real.pi / 2)) q.q4 *
        Link.transform (.prismatic (Real.pi / 2) 0 (-Real.pi / 2) 0) 0) := by
    simp only [fkine, inspectorRobot, toFull, List.zipWith_cons_cons, List.zipWith_nil_left,
      List.prod_cons, List.prod_nil, mul_one, mul_assoc]
  rw [hprod, hbase, hrail, hwrist]
  ext i j
  fin_cases i <;> fin_cases j <;>
    simp [Matrix.mul_apply, Fin.sum_univ_four, radial] <;> ring

/-- The joints with their lengths in metres. -/
noncomputable def metres (q : Joints ℝ) : Joints ℝ :=
  { q with q2 := q.q2 / 1000, q3 := q.q3 / 1000 }

theorem decode_surjective : Function.Surjective (Joints.decode : (Axis → ℝ) → Joints ℝ) := by
  intro q
  refine ⟨Axis.rec (-q.q3 - q.q4 / (Arm.yScale * Arm.deg2rad))
    (-q.q3 + q.q4 / (Arm.yScale * Arm.deg2rad)) q.q2 q.q1 0, ?_⟩
  have hscale : (Arm.yScale * Arm.deg2rad : ℝ) ≠ 0 := by
    norm_num [Arm.yScale, Arm.deg2rad, Arm.pi]
  ext
  · rfl
  · rfl
  · simp only [Joints.decode]
    ring
  · simp only [Joints.decode]
    calc _ = q.q4 / (Arm.yScale * Arm.deg2rad) * (Arm.yScale * Arm.deg2rad) := by ring
      _ = q.q4 := div_mul_cancel₀ _ hscale

/-- The firmware computes the position of the chain, whatever the joints are, and the pitch is found
from the rotation. -/
theorem fkine_transformToCartesian :
    Function.Surjective (Joints.decode : (Axis → ℝ) → Joints ℝ) ∧
    ∀ motors : Axis → ℝ,
      let q := Joints.decode motors
      let pose := fkine (inspectorRobot .debug) (toFull (metres q))
      let target := Kinematics.transformToCartesian exactTrig motors
      pose 0 3 * 1000 = target .x ∧ pose 1 3 * 1000 = target .y ∧ pose 2 3 * 1000 = target .z ∧
      pose 2 0 = Real.cos q.q4 ∧ pose 2 2 = -Real.sin q.q4 ∧
      (Polar.angle (-pose 2 2) (pose 2 0) : Real.Angle) = q.q4 ∧
      (q.q4 ∈ Set.Ioc (-Real.pi) Real.pi → Polar.angle (-pose 2 2) (pose 2 0) = q.q4) := by
  refine ⟨decode_surjective, fun motors => ?_⟩
  intro q pose target
  have hpose : pose = _ := fkine_inspectorRobot .debug (metres q)
  have hforward : Pose.ofCoords target = q.forward := Kinematics.transformToCartesian_eq motors
  obtain ⟨hx, hy, hz, -⟩ := Pose.ext_iff.mp hforward
  simp only [Pose.ofCoords, Joints.forward] at hx hy hz
  have hgamma : radial .debug (metres q) = q.gamma := by
    simp only [radial, metres, Lengths.debug, Joints.gamma, Arm.d, Arm.l1, Arm.l3]
    norm_num
  have hsin : pose 2 2 = -Real.sin q.q4 := by
    rw [hpose]
    rfl
  have hcos : pose 2 0 = Real.cos q.q4 := by
    rw [hpose]
    rfl
  refine ⟨?_, ?_, ?_, hcos, hsin, ?_, ?_⟩
  · rw [hx, hpose, hgamma]
    rfl
  · rw [hy, hpose, hgamma]
    rfl
  · rw [hz, hpose]
    change (q.q2 / 1000 + 6 / 100 - (3 / 100 + 0 + 2 / 100) * Real.sin q.q4) * 1000 = _
    norm_num [Arm.l2, Arm.d]
  · rw [hsin, hcos, neg_neg, Polar.coe_angle_sin_cos]
  · intro hq
    rw [hsin, hcos, neg_neg, ← one_mul (Real.sin q.q4), ← one_mul (Real.cos q.q4)]
    exact Polar.angle_mul_cos_sin one_pos hq

end Script

end Inspector
