import Inspector.Kinematics.Chain

/-! # The replica of the inverse kinematics

`ikine_debug.py` repeats the computation of the firmware with lengths in metres, and widens the
limits of the horizontal rail by a millimetre where the firmware widens them by a micrometre. Both
always end on the branch on which the arm reaches backwards, so the wider limits make no difference.
-/

namespace Inspector

namespace Script

/-- `LIMIT_EPS`. -/
noncomputable def limitEps : ℝ := 1 / 1000

/-- `LINK1_LIMITS`. -/
noncomputable def link1Limits : ℝ × ℝ := (-Real.pi, Real.pi)

/-- `LINK3_LIMITS`, in metres. -/
noncomputable def link3Limits : ℝ × ℝ := (0, 18 / 100)

/-- The base angle and the rail of a branch: `c1` and `c3`. -/
noncomputable def candidate (px py q4 r sign : ℝ) : ℝ × ℝ :=
  let gamma := sign * r
  (if |gamma| < 1 / 10 ^ 9 then 0 else Polar.angle (py / gamma) (px / gamma),
    gamma - Lengths.debug.d * Real.cos q4 + Lengths.debug.l1 - Lengths.debug.l3)

/-- `c1_in and c3_in`. -/
def CandidateIn (c : ℝ × ℝ) : Prop :=
  (link1Limits.1 - limitEps ≤ c.1 ∧ c.1 ≤ link1Limits.2 + limitEps) ∧
    link3Limits.1 - limitEps ≤ c.2 ∧ c.2 ≤ link3Limits.2 + limitEps

open Classical in
/-- `_select_branch`: the negative branch is tried first, and kept when none fits. -/
noncomputable def selectBranch (px py pz q4 : ℝ) : Joints ℝ :=
  let q2 := pz - Lengths.debug.l2 + Lengths.debug.d * Real.sin q4
  let r := √(px * px + py * py)
  let c := if CandidateIn (candidate px py q4 r (-1)) then candidate px py q4 r (-1)
    else if CandidateIn (candidate px py q4 r 1) then candidate px py q4 r 1
    else candidate px py q4 r (-1)
  ⟨c.1, q2, c.2, q4⟩

/-- `ikine_firmware`. -/
noncomputable def ikineFirmware (x y z a : ℝ) : Joints ℝ :=
  selectBranch (x / 1000) (y / 1000) (z / 1000) (a * (Real.pi / 180))

theorem candidate_link1 (px py q4 r sign : ℝ) :
    link1Limits.1 - limitEps ≤ (candidate px py q4 r sign).1 ∧
      (candidate px py q4 r sign).1 ≤ link1Limits.2 + limitEps := by
  have hangle : |(candidate px py q4 r sign).1| ≤ Real.pi := by
    rw [candidate]
    dsimp only
    split_ifs
    · rw [abs_zero]
      exact Real.pi_nonneg
    · exact Polar.abs_angle_le_pi _ _
  obtain ⟨hlow, hhigh⟩ := abs_le.mp hangle
  have heps : (0 : ℝ) ≤ limitEps := by norm_num [limitEps]
  simp only [link1Limits]
  constructor <;> linarith

/-- The rail fits on the positive branch only where it fits on the negative one, up to the radius at
which both are on a limit. -/
theorem candidateIn_negative {px py q4 r : ℝ} (hr : 0 ≤ r)
    (h : CandidateIn (candidate px py q4 r 1)) : CandidateIn (candidate px py q4 r (-1)) := by
  have hcos := Real.cos_le_one q4
  refine ⟨candidate_link1 px py q4 r (-1), ?_⟩
  obtain ⟨-, hlow, hhigh⟩ := h
  norm_num [candidate, link3Limits, limitEps, Lengths.debug] at hlow hhigh ⊢
  constructor <;> linarith

theorem selectBranch_eq (px py pz q4 : ℝ) :
    selectBranch px py pz q4 =
      ⟨(candidate px py q4 (√(px * px + py * py)) (-1)).1,
        pz - Lengths.debug.l2 + Lengths.debug.d * Real.sin q4,
        (candidate px py q4 (√(px * px + py * py)) (-1)).2, q4⟩ := by
  rw [selectBranch]
  split_ifs with hneg hpos
  · rfl
  · exact absurd (candidateIn_negative (Real.sqrt_nonneg _) hpos) hneg
  · rfl

end Script

namespace Kinematics

open Arm

/-- The base angle and the rail of a branch are within their limits, with `p` for π. -/
def BranchInWith (p : ℝ) (c : ℝ × ℝ) : Prop :=
  Within (-p) p c.1 ∧ Within link3LimitLow link3LimitHigh (c.2 * 1000)

open Classical in
/-- The joints that the firmware computes for a pose, with `p` for π. -/
noncomputable def inverseWith (p : ℝ) (position : Axis → ℝ) : Joints ℝ :=
  let px := position .x / 1000
  let py := position .y / 1000
  let pz := position .z / 1000
  let q4 := position .a * (p / 180)
  let q2 := pz - l2 + d * Real.sin q4
  let r := √(px * px + py * py)
  let negative := branch exactTrig px py q4 r (-1)
  let positive := branch exactTrig px py q4 r 1
  let c := if BranchInWith p negative then negative
    else if BranchInWith p positive then positive else negative
  ⟨c.1, q2 * 1000, c.2 * 1000, q4⟩

/-- The firmware has a decimal approximation for π. -/
theorem inverseWith_pi (position : Axis → ℝ) :
    inverseWith pi position = inverse exactTrig position := by
  simp only [inverseWith, inverse]
  congr

theorem inverseWith_eq (position : Axis → ℝ) :
    inverseWith Real.pi position =
      ⟨(branch exactTrig (position .x / 1000) (position .y / 1000)
          (position .a * (Real.pi / 180)) (radius position) (-1)).1,
        (position .z / 1000 - l2 + d * Real.sin (position .a * (Real.pi / 180))) * 1000,
        (branch exactTrig (position .x / 1000) (position .y / 1000)
          (position .a * (Real.pi / 180)) (radius position) (-1)).2 * 1000,
        position .a * (Real.pi / 180)⟩ := by
  have hangle : ∀ px py q4 r sign : ℝ,
      Within (-Real.pi) Real.pi (branch exactTrig px py q4 r sign).1 := by
    intro px py q4 r sign
    have h : |(branch exactTrig px py q4 r sign).1| ≤ Real.pi := by
      rw [branch]
      dsimp only
      split_ifs
      · rw [abs_zero]
        exact Real.pi_nonneg
      · exact Polar.abs_angle_le_pi _ _
    obtain ⟨hlow, hhigh⟩ := abs_le.mp h
    have heps : (0 : ℝ) ≤ linkLimitEps := by norm_num [linkLimitEps]
    constructor <;> linarith
  rw [inverseWith]
  split_ifs with hneg hpos
  · rfl
  · exact absurd ⟨hangle _ _ _ _ _, within_negative (Real.sqrt_nonneg _) hpos.2⟩ hneg
  · rfl

end Kinematics

namespace Script

open Kinematics in
/-- The replica gives the joints of the firmware for every input, reachable or not. -/
theorem ikineFirmware_eq (position : Axis → ℝ) :
    ikineFirmware (position .x) (position .y) (position .z) (position .a) =
      metres (inverseWith Real.pi position) := by
  rw [ikineFirmware, selectBranch_eq, inverseWith_eq]
  simp only [metres, candidate, branch, exactTrig, radius, Lengths.debug, Arm.d, Arm.l1, Arm.l2,
    Arm.l3, Arm.singularRadius]
  ext
  · norm_num
  · norm_num
  · norm_num
  · rfl

end Script

end Inspector
