import Inspector.Numerals
import Mathlib.Analysis.SpecialFunctions.Trigonometric.Basic
import Mathlib.LinearAlgebra.Matrix.Notation

/-! # Chains of links

A chain of links is described by the standard parameters of Denavit and Hartenberg: each link turns
about the axis of its joint, moves along it, moves along its own length and turns about that. The
pose at the end of a chain is the product of the transforms of its links.
-/

namespace Denavit

/-- Homogeneous transforms of space. -/
abbrev Transform := Matrix (Fin 4) (Fin 4) ℝ

/-- A turn about the axis of the joint. -/
noncomputable def rotZ (theta : ℝ) : Transform :=
  !![Real.cos theta, -Real.sin theta, 0, 0;
    Real.sin theta, Real.cos theta, 0, 0;
    0, 0, 1, 0;
    0, 0, 0, 1]

/-- A turn about the length of the link. -/
noncomputable def rotX (alpha : ℝ) : Transform :=
  !![1, 0, 0, 0;
    0, Real.cos alpha, -Real.sin alpha, 0;
    0, Real.sin alpha, Real.cos alpha, 0;
    0, 0, 0, 1]

/-- A move along the length of the link and along the axis of the joint. -/
def move (x z : ℝ) : Transform :=
  !![1, 0, 0, x;
    0, 1, 0, 0;
    0, 0, 1, z;
    0, 0, 0, 1]

/-- The transform of a link with given parameters. -/
noncomputable def transform (theta d a alpha : ℝ) : Transform :=
  rotZ theta * move a d * rotX alpha

theorem transform_eq (theta d a alpha : ℝ) : transform theta d a alpha =
    !![Real.cos theta, -(Real.sin theta * Real.cos alpha), Real.sin theta * Real.sin alpha,
        a * Real.cos theta;
      Real.sin theta, Real.cos theta * Real.cos alpha, -(Real.cos theta * Real.sin alpha),
        a * Real.sin theta;
      0, Real.sin alpha, Real.cos alpha, d;
      0, 0, 0, 1] := by
  ext i j
  fin_cases i <;> fin_cases j <;>
    simp [transform, rotZ, move, rotX, Matrix.mul_apply, Fin.sum_univ_four, mul_comm]

/-- A link turns or slides with its joint. -/
inductive Link
  | revolute (d a alpha offset : ℝ)
  | prismatic (theta a alpha offset : ℝ)

/-- The transform of a link at a value of its joint. -/
noncomputable def Link.transform : Link → ℝ → Transform
  | .revolute d a alpha offset, q => Denavit.transform (q + offset) d a alpha
  | .prismatic theta a alpha offset, q => Denavit.transform theta (q + offset) a alpha

/-- The pose at the end of a chain. -/
noncomputable def fkine (links : List Link) (q : List ℝ) : Transform :=
  (List.zipWith Link.transform links q).prod

end Denavit
