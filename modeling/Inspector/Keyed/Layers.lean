import Mathlib.Data.List.Forall2
import Mathlib.Data.List.Nodup

/-! # Layered scopes

A store is read by the context of an owner and an index. The contexts of nested owners are
distinct, and each of them holds a scope of its own for the local indices; the shared ones are held
by one owner for all. Writing, opening a scope and closing one are steps of the store that keep it
layered.
-/

namespace Keyed

variable {γ ι ω : Type*}

/-- The view of a store holds the scopes of its contexts and what they share. -/
structure Layered (shared : ι → Prop) (dflt : ω) (main : γ) (contexts : List γ)
    (view : γ → ι → ω) (scopes : List (ι → ω)) (common : ι → ω) : Prop where
  nodup : contexts.Nodup
  main_mem : main ∈ contexts
  scopes : List.Forall₂ (fun c f => ∀ i, ¬ shared i → view c i = f i) contexts scopes
  common : ∀ i, shared i → view main i = common i
  stale : ∀ c, c ∉ contexts → ∀ i, view c i = dflt

namespace Layered

variable {shared : ι → Prop} {dflt : ω} {main c : γ} {contexts cs : List γ}
  {view view' : γ → ι → ω} {scopes fs : List (ι → ω)} {common f : ι → ω} {i : ι} {v : ω}

theorem head (h : Layered shared dflt main (c :: cs) view (f :: fs) common) (hi : ¬ shared i) :
    view c i = f i :=
  (List.forall₂_cons.mp h.scopes).1 i hi

variable [DecidableEq ι]

/-- Write a shared index. -/
theorem write_shared (h : Layered shared dflt main contexts view scopes common) (hi : shared i)
    (hself : view' main i = v) (hother : ∀ d j, (d, j) ≠ (main, i) → view' d j = view d j) :
    Layered shared dflt main contexts view' scopes (Function.update common i v) where
  nodup := h.nodup
  main_mem := h.main_mem
  scopes := by
    refine h.scopes.imp fun d g hg j hj => ?_
    rw [hother d j fun heq => hj ((Prod.mk.inj heq).2 ▸ hi)]
    exact hg j hj
  common j hj := by
    by_cases hji : j = i
    · rw [hji, hself, Function.update_self]
    · rw [hother main j fun heq => hji (Prod.mk.inj heq).2, Function.update_of_ne hji]
      exact h.common j hj
  stale d hd j := by
    rw [hother d j fun heq => hd ((Prod.mk.inj heq).1 ▸ h.main_mem)]
    exact h.stale d hd j

/-- Write a local index of the innermost scope. -/
theorem write_local (h : Layered shared dflt main (c :: cs) view (f :: fs) common)
    (hi : ¬ shared i) (hself : view' c i = v)
    (hother : ∀ d j, (d, j) ≠ (c, i) → view' d j = view d j) :
    Layered shared dflt main (c :: cs) view' (Function.update f i v :: fs) common where
  nodup := h.nodup
  main_mem := h.main_mem
  scopes := by
    obtain ⟨hc, hcs⟩ := List.nodup_cons.mp h.nodup
    obtain ⟨hf, hfs⟩ := List.forall₂_cons.mp h.scopes
    refine List.Forall₂.cons (fun j hj => ?_) ?_
    · by_cases hji : j = i
      · rw [hji, hself, Function.update_self]
      · rw [hother c j fun heq => hji (Prod.mk.inj heq).2, Function.update_of_ne hji]
        exact hf j hj
    · rw [List.forall₂_iff_get] at hfs ⊢
      refine ⟨hfs.1, fun k h₁ h₂ j hj => ?_⟩
      rw [hother _ j fun heq => hc ((Prod.mk.inj heq).1 ▸ List.get_mem cs ⟨k, h₁⟩)]
      exact hfs.2 k h₁ h₂ j hj
  common j hj := by
    rw [hother main j fun heq => hi ((Prod.mk.inj heq).2 ▸ hj)]
    exact h.common j hj
  stale d hd j := by
    rw [hother d j fun heq => hd ((Prod.mk.inj heq).1 ▸ List.mem_cons_self)]
    exact h.stale d hd j

omit [DecidableEq ι] in
/-- Open a scope for an owner that has none. -/
theorem push (h : Layered shared dflt main contexts view scopes common) (hc : c ∉ contexts) :
    Layered shared dflt main (c :: contexts) view ((fun _ => dflt) :: scopes) common where
  nodup := List.nodup_cons.mpr ⟨hc, h.nodup⟩
  main_mem := List.mem_cons_of_mem c h.main_mem
  scopes := .cons (fun i _ => h.stale c hc i) h.scopes
  common := h.common
  stale d hd := h.stale d fun hmem => hd (List.mem_cons_of_mem c hmem)

omit [DecidableEq ι] in
/-- Close the innermost scope. -/
theorem pop (h : Layered shared dflt main (c :: cs) view (f :: fs) common) (hmain : main ∈ cs)
    (hself : ∀ i, view' c i = dflt) (hother : ∀ d, d ≠ c → ∀ i, view' d i = view d i) :
    Layered shared dflt main cs view' fs common where
  nodup := (List.nodup_cons.mp h.nodup).2
  main_mem := hmain
  scopes := by
    have hc := (List.nodup_cons.mp h.nodup).1
    have hfs := (List.forall₂_cons.mp h.scopes).2
    rw [List.forall₂_iff_get] at hfs ⊢
    refine ⟨hfs.1, fun k h₁ h₂ j hj => ?_⟩
    rw [hother _ fun heq => hc (heq ▸ List.get_mem cs ⟨k, h₁⟩)]
    exact hfs.2 k h₁ h₂ j hj
  common i hi := by
    rw [hother main fun heq => (List.nodup_cons.mp h.nodup).1 (heq ▸ hmain)]
    exact h.common i hi
  stale d hd i := by
    by_cases hdc : d = c
    · rw [hdc]
      exact hself i
    · rw [hother d hdc]
      exact h.stale d (fun hmem => (List.mem_cons.mp hmem).elim hdc hd) i

end Layered

end Keyed
