import Mathlib.Data.List.Pairwise
import Mathlib.Data.List.Perm.Basic
import Mathlib.Data.List.Perm.Lattice

/-! # Runs over exclusive slots

An effect takes slots and changes a state. It is refused when one of its slots is taken already. If
effects on different slots commute, a list of effects is accepted in every order or in none, and
gives the same state.
-/

namespace Exclusive

/-- Effects on a state, with the slots they take. -/
structure System (σ ε S : Type*) where
  slots : ε → List S
  apply : ε → σ → σ
  taken : σ → S → Prop
  taken_apply : ∀ e s x, taken (apply e s) x ↔ taken s x ∨ x ∈ slots e
  comm : ∀ e f s, (slots e).Disjoint (slots f) → apply e (apply f s) = apply f (apply e s)

namespace System

variable {σ ε S : Type*} (M : System σ ε S) {s t : σ} {e f : ε} {es fs : List ε}

/-- The slots of an effect are free. -/
def Free (s : σ) (e : ε) : Prop := ∀ x ∈ M.slots e, ¬M.taken s x

/-- The effects are applied one after the other, each while its slots are free. -/
inductive Run : σ → List ε → σ → Prop
  | nil (s : σ) : Run s [] s
  | cons {s t : σ} {e : ε} {es : List ε} (hfree : M.Free s e) (h : Run (M.apply e s) es t) :
      Run s (e :: es) t

/-- The state after all effects. -/
def after (s : σ) (es : List ε) : σ := es.foldl (fun s e => M.apply e s) s

/-- No two effects share a slot. -/
def Apart (es : List ε) : Prop := es.Pairwise fun e f => (M.slots e).Disjoint (M.slots f)

theorem free_apply :
    M.Free (M.apply e s) f ↔ M.Free s f ∧ (M.slots e).Disjoint (M.slots f) := by
  simp only [Free, M.taken_apply, not_or]
  constructor
  · intro h
    exact ⟨fun x hx => (h x hx).1, fun x he hf => (h x hf).2 he⟩
  · rintro ⟨h, hd⟩ x hx
    exact ⟨h x hx, fun he => hd he hx⟩

theorem run_iff : M.Run s es t ↔ (∀ e ∈ es, M.Free s e) ∧ M.Apart es ∧ t = M.after s es := by
  induction es generalizing s with
  | nil =>
    constructor
    · rintro ⟨⟩
      exact ⟨nofun, List.Pairwise.nil, rfl⟩
    · rintro ⟨-, -, rfl⟩
      exact .nil _
  | cons e es ih =>
    rw [Apart, List.pairwise_cons, List.forall_mem_cons]
    constructor
    · rintro (_ | ⟨hfree, h⟩)
      obtain ⟨hall, hapart, ht⟩ := ih.mp h
      simp only [free_apply] at hall
      exact ⟨⟨hfree, fun f hf => (hall f hf).1⟩, ⟨fun f hf => (hall f hf).2, hapart⟩, ht⟩
    · rintro ⟨⟨hfree, hall⟩, ⟨hd, hapart⟩, ht⟩
      refine .cons hfree (ih.mpr ⟨fun f hf => ?_, hapart, ht⟩)
      exact M.free_apply.mpr ⟨hall f hf, hd f hf⟩

variable {M}

theorem Apart.perm (h : M.Apart es) (hp : es.Perm fs) : M.Apart fs :=
  (hp.pairwise_iff fun hd => hd.symm).mp h

/-- Effects that share no slot may be applied in any order. -/
theorem after_perm (hp : es.Perm fs) (h : M.Apart es) : M.after s es = M.after s fs := by
  have hsymm : Std.Symm fun e f => (M.slots e).Disjoint (M.slots f) := ⟨fun _ _ hd => hd.symm⟩
  refine hp.foldl_eq' (fun e he f hf z => ?_) s
  rcases eq_or_ne e f with rfl | hne
  · rfl
  · exact M.comm f e z (h.forall hf he hne.symm)

/-- Every effect may come last. -/
theorem exists_apply (he : e ∈ es) (h : M.Apart es) : ∃ t, M.after s es = M.apply e t := by
  obtain ⟨l, l', rfl⟩ := List.append_of_mem he
  have hp : (l ++ e :: l').Perm ((l ++ l') ++ [e]) :=
    List.perm_middle.trans (List.perm_append_singleton e (l ++ l')).symm
  refine ⟨M.after s (l ++ l'), ?_⟩
  rw [after_perm hp h, after, List.foldl_append]
  rfl

theorem taken_after (x : S) :
    M.taken (M.after s es) x ↔ M.taken s x ∨ ∃ e ∈ es, x ∈ M.slots e := by
  induction es generalizing s with
  | nil => simp [after]
  | cons e es ih =>
    change M.taken (M.after (M.apply e s) es) x ↔ _
    rw [ih, M.taken_apply, List.exists_mem_cons_iff, or_assoc]

/-- A run may take its effects in any order. -/
theorem Run.perm (h : M.Run s es t) (hp : es.Perm fs) : M.Run s fs t := by
  obtain ⟨hfree, hapart, rfl⟩ := M.run_iff.mp h
  exact M.run_iff.mpr
    ⟨fun e he => hfree e (hp.mem_iff.mpr he), hapart.perm hp, after_perm hp hapart⟩

end System

end Exclusive
