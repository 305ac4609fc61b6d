import Mathlib.Data.List.Basic

/-! # Runs of operations that may have no result

An operation gives an answer and a state, or has no result. When a condition on the state in front
of an operation says exactly when its result is as it should be, a run is as it should be exactly
when the condition holds at every operation that it comes to.
-/

namespace Transition

variable {σ ι ω : Type*} (exec : σ → ι → Option (ω × σ))

/-- Every operation of a run has a result, and it is as it should be. -/
def Fine (good : σ → ι → ω → σ → Prop) : σ → List ι → Prop
  | _, [] => True
  | s, i :: is => ∃ o s', exec s i = some (o, s') ∧ good s i o s' ∧ Fine good s' is

/-- Every operation that a run comes to meets a condition. -/
def Guarded (meets : σ → ι → Prop) : σ → List ι → Prop
  | _, [] => True
  | s, i :: is => meets s i ∧ ∀ o s', exec s i = some (o, s') → Guarded meets s' is

variable {exec} {good : σ → ι → ω → σ → Prop} {meets : σ → ι → Prop} {I : σ → Prop} {s : σ}

theorem fine_iff_guarded (hkeep : ∀ s i o s', I s → exec s i = some (o, s') → I s')
    (hmeets : ∀ s i, I s → (meets s i ↔ ∃ o s', exec s i = some (o, s') ∧ good s i o s'))
    (h0 : I s) (is : List ι) : Fine exec good s is ↔ Guarded exec meets s is := by
  induction is generalizing s with
  | nil => exact Iff.rfl
  | cons i is ih =>
    rw [Fine, Guarded, hmeets s i h0]
    constructor
    · rintro ⟨o, s', hexec, hgood, hrest⟩
      refine ⟨⟨o, s', hexec, hgood⟩, fun o' s'' hexec' => ?_⟩
      obtain ⟨rfl, rfl⟩ := Prod.mk.inj (Option.some.inj (hexec.symm.trans hexec'))
      exact (ih (hkeep s i o s' h0 hexec)).mp hrest
    · rintro ⟨⟨o, s', hexec, hgood⟩, hrest⟩
      exact ⟨o, s', hexec, hgood, (ih (hkeep s i o s' h0 hexec)).mpr (hrest o s' hexec)⟩

/-- A condition under which every operation has a result as it should be, and after which it may be
followed by others. -/
theorem fine_of_guarded
    (hstep : ∀ s i, I s → meets s i → ∃ o s', exec s i = some (o, s') ∧ good s i o s' ∧ I s')
    (h0 : I s) {is : List ι} (h : Guarded exec meets s is) : Fine exec good s is := by
  induction is generalizing s with
  | nil => trivial
  | cons i is ih =>
    obtain ⟨hmeets, hrest⟩ := h
    obtain ⟨o, s', hexec, hgood, hI⟩ := hstep s i h0 hmeets
    exact ⟨o, s', hexec, hgood, ih hI (hrest o s' hexec)⟩

/-- Two conditions that are the same in every state that a run may come to. -/
theorem guarded_congr {meets' : σ → ι → Prop}
    (hkeep : ∀ s i o s', I s → exec s i = some (o, s') → I s')
    (hmeets : ∀ s i, I s → (meets s i ↔ meets' s i)) (h0 : I s) (is : List ι) :
    Guarded exec meets s is ↔ Guarded exec meets' s is := by
  induction is generalizing s with
  | nil => exact Iff.rfl
  | cons i is ih =>
    rw [Guarded, Guarded, hmeets s i h0]
    refine and_congr_right fun _ => ?_
    constructor
    · intro h o s' hexec
      exact (ih (hkeep s i o s' h0 hexec)).mp (h o s' hexec)
    · intro h o s' hexec
      exact (ih (hkeep s i o s' h0 hexec)).mpr (h o s' hexec)

instance decidableGuarded [∀ s i, Decidable (meets s i)] :
    ∀ s is, Decidable (Guarded exec meets s is)
  | _, [] => inferInstanceAs (Decidable True)
  | s, i :: is =>
    have : Decidable (∀ o s', exec s i = some (o, s') → Guarded exec meets s' is) :=
      match h : exec s i with
      | none => isTrue (fun _ _ h' => by cases h')
      | some (o, s') =>
        have : Decidable (Guarded exec meets s' is) := decidableGuarded s' is
        decidable_of_iff (Guarded exec meets s' is)
          ⟨fun hrest _ _ h' => by cases h'; exact hrest, fun hall => hall o s' rfl⟩
    inferInstanceAs (Decidable (meets s i ∧
      ∀ o s', exec s i = some (o, s') → Guarded exec meets s' is))

end Transition
