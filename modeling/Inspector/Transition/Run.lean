import Mathlib.Data.List.Basic

/-! # Runs of a deterministic system

A system is given by the function that executes one operation. A run passes through a list of
states, and what every operation preserves holds in all of them, also when the operations keep to
a condition that depends on the state they meet.
-/

namespace Transition

variable {σ ι : Type*} (exec : σ → ι → σ)

/-- The states of a run, the first one included. -/
def states : σ → List ι → List σ
  | s, [] => [s]
  | s, i :: is => s :: states (exec s i) is

/-- Every operation of a run meets a condition in the state it is executed in. -/
def Along (ok : σ → ι → Prop) : σ → List ι → Prop
  | _, [] => True
  | s, i :: is => ok s i ∧ Along ok (exec s i) is

instance decidableAlong {ok : σ → ι → Prop} [∀ s i, Decidable (ok s i)] :
    ∀ s is, Decidable (Along exec ok s is)
  | _, [] => inferInstanceAs (Decidable True)
  | s, i :: is =>
    have : Decidable (Along exec ok (exec s i) is) := decidableAlong (exec s i) is
    inferInstanceAs (Decidable (ok s i ∧ Along exec ok (exec s i) is))

variable {exec} {ok : σ → ι → Prop} {I : σ → Prop} {s : σ} {is : List ι}

theorem along_append {js : List ι} :
    Along exec ok s (is ++ js) ↔ Along exec ok s is ∧ Along exec ok (is.foldl exec s) js := by
  induction is generalizing s with
  | nil => exact (iff_of_eq (true_and _)).symm
  | cons i is ih =>
    rw [List.cons_append, Along, Along, ih, and_assoc]
    rfl

theorem foldl_mem_states : is.foldl exec s ∈ states exec s is := by
  induction is generalizing s with
  | nil => exact List.mem_singleton_self s
  | cons i is ih => exact List.mem_cons_of_mem _ ih

/-- What every permitted operation preserves holds in all states of a run. -/
theorem forall_states (hstep : ∀ s i, ok s i → I s → I (exec s i)) (h0 : I s)
    (h : Along exec ok s is) : ∀ s' ∈ states exec s is, I s' := by
  induction is generalizing s with
  | nil =>
    intro s' hs'
    rwa [List.mem_singleton.mp hs']
  | cons i is ih =>
    obtain ⟨hi, his⟩ := h
    intro s' hs'
    rcases List.mem_cons.mp hs' with rfl | hs'
    · exact h0
    · exact ih (hstep s i hi h0) his s' hs'

/-- Every operation of a run has a property that follows from its condition and from what all
permitted operations preserve. -/
theorem along_of_step {P : σ → ι → Prop} (hstep : ∀ s i, ok s i → I s → I (exec s i))
    (hprop : ∀ s i, ok s i → I s → P s i) (h0 : I s) (h : Along exec ok s is) :
    Along exec P s is := by
  induction is generalizing s with
  | nil => trivial
  | cons i is ih =>
    obtain ⟨hi, his⟩ := h
    exact ⟨hprop s i hi h0, ih (hstep s i hi h0) his⟩

/-- What every operation preserves holds after any run. -/
theorem foldl_of_step (hstep : ∀ s i, I s → I (exec s i)) (h0 : I s) :
    I (is.foldl exec s) := by
  induction is generalizing s with
  | nil => exact h0
  | cons i is ih => exact ih (hstep s i h0)

end Transition
