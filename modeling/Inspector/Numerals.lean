import Mathlib.Data.Nat.Init
import Mathlib.Algebra.GroupWithZero.Nat

/-! # The numerals of the model

A literal of a field rests on a proof that the numeral is at least two, and one of `Fin n` on a
proof that there is an element. The proofs for the numerals of the firmware's constants have names
here, so that a literal is the same term in all definitions.
-/

namespace Numerals

instance atLeastTwo_2 : Nat.AtLeastTwo (1 + 1) := inferInstance

instance atLeastTwo_3 : Nat.AtLeastTwo (2 + 1) := inferInstance

instance atLeastTwo_4 : Nat.AtLeastTwo (3 + 1) := inferInstance

instance atLeastTwo_5 : Nat.AtLeastTwo (4 + 1) := inferInstance

instance atLeastTwo_6 : Nat.AtLeastTwo (5 + 1) := inferInstance

instance atLeastTwo_10 : Nat.AtLeastTwo (9 + 1) := inferInstance

instance atLeastTwo_18 : Nat.AtLeastTwo (17 + 1) := inferInstance

instance atLeastTwo_20 : Nat.AtLeastTwo (19 + 1) := inferInstance

instance atLeastTwo_100 : Nat.AtLeastTwo (99 + 1) := inferInstance

instance atLeastTwo_113 : Nat.AtLeastTwo (112 + 1) := inferInstance

instance atLeastTwo_160 : Nat.AtLeastTwo (159 + 1) := inferInstance

instance atLeastTwo_180 : Nat.AtLeastTwo (179 + 1) := inferInstance

instance atLeastTwo_676 : Nat.AtLeastTwo (675 + 1) := inferInstance

instance atLeastTwo_710 : Nat.AtLeastTwo (709 + 1) := inferInstance

instance atLeastTwo_1000 : Nat.AtLeastTwo (999 + 1) := inferInstance

instance atLeastTwo_1000000 : Nat.AtLeastTwo (999999 + 1) := inferInstance

instance atLeastTwo_100000000 : Nat.AtLeastTwo (99999999 + 1) := inferInstance

instance neZero_3 : NeZero (2 + 1) := inferInstance

instance neZero_4 : NeZero (3 + 1) := inferInstance

instance neZero_2048 : NeZero (2047 + 1) := inferInstance

/-- The first position of an array that is not empty. -/
instance first (n : ℕ) : OfNat (Fin (n + 1)) 0 := Fin.instOfNat

end Numerals
