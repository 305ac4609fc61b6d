import Inspector.Linked.Chain
import Mathlib.Data.List.Chain

/-! # Doubly linked lists

Every node but the first one points back to the one in front of it.
-/

namespace Linked

variable {ι : Type*} {next prev : ι → Option ι} {h p t i : ι} {l m : List ι}

/-- A list from its first node, linked both ways. -/
structure Double (next prev : ι → Option ι) (h : ι) (l : List ι) : Prop where
  chain : Chain next (some h) l
  back : l.IsChain fun p t => prev t = some p
  nodup : l.Nodup

theorem Double.congr {next' prev' : ι → Option ι} (hd : Double next prev h l)
    (hnext : ∀ i ∈ l, next' i = next i) (hprev : ∀ i ∈ l, prev' i = prev i) :
    Double next' prev' h l := by
  refine ⟨hd.chain.congr hnext, ?_, hd.nodup⟩
  apply hd.back.imp_of_mem_imp
  intro p t _ ht hback
  rw [hprev t ht, hback]

theorem Double.head_mem (hd : Double next prev h l) : h ∈ l := by
  obtain ⟨m, rfl, -⟩ := chain_some_iff.mp hd.chain
  exact List.mem_cons_self

/-- A node points back to the one in front of it. -/
theorem Double.prev_eq (hd : Double next prev h (l ++ p :: t :: m)) : prev t = some p :=
  (List.isChain_append_cons_cons.mp hd.back).2.1

variable [DecidableEq ι]

/-- Putting in a node at the end. -/
theorem Double.append (hd : Double next prev h (l ++ [t])) (hi : i ∉ l ++ [t]) :
    Double (Function.update (Function.update next i none) t (some i))
      (Function.update prev i (some t)) h (l ++ [t, i]) := by
  have hlast : next t = none := chain_nil_iff.mp hd.chain.suffix
  have hinsert := hd.chain.insert hd.nodup hi
  rw [hlast] at hinsert
  have hne : ∀ j ∈ l ++ [t], j ≠ i := fun j hj he => hi (he ▸ hj)
  refine ⟨hinsert, ?_, ?_⟩
  · rw [List.isChain_append_cons_cons]
    refine ⟨?_, Function.update_self _ _ _, List.isChain_singleton i⟩
    apply hd.back.imp_of_mem_imp
    intro p j _ hj hback
    rw [Function.update_of_ne (hne j hj), hback]
  · have hcons : l ++ [t, i] = (l ++ [t]) ++ [i] := by rw [List.append_assoc]; rfl
    rw [hcons]
    exact List.Nodup.append hd.nodup (List.nodup_singleton i) (List.disjoint_singleton.mpr hi)

/-- Taking out a node that is not the first one. -/
theorem Double.unlink (hd : Double next prev h (l ++ p :: t :: m)) :
    Double (Function.update next p (next t))
      ((next t).elim prev fun u => Function.update prev u (some p)) h (l ++ p :: m) := by
  obtain ⟨hfront, hpt, hrear⟩ := List.isChain_append_cons_cons.mp hd.back
  have hnodup : (l ++ p :: m).Nodup := by
    have hsub : (l ++ p :: m).Sublist (l ++ p :: t :: m) :=
      ((List.sublist_cons_self t m).cons_cons p).append_left l
    exact hsub.nodup hd.nodup
  refine ⟨hd.chain.unlink hd.nodup, ?_, hnodup⟩
  have hsplit : l ++ p :: t :: m = (l ++ [p]) ++ t :: m := by rw [List.append_assoc]; rfl
  have hm : Chain next (next t) m := by
    have hchain := hd.chain
    rw [hsplit] at hchain
    exact hchain.suffix
  cases m with
  | nil =>
    rw [chain_nil_iff.mp hm]
    exact hfront
  | cons u m =>
    obtain ⟨hu, -⟩ := chain_cons_iff.mp hm
    rw [hu]
    obtain ⟨-, hdisjoint, hnd⟩ : (l ++ [p]).Nodup ∧ (∀ j ∈ l ++ [p], j ≠ u) ∧ (u :: m).Nodup := by
      have hcons : l ++ p :: u :: m = (l ++ [p]) ++ u :: m := by rw [List.append_assoc]; rfl
      rw [hcons] at hnodup
      obtain ⟨h₁, h₂, h₃⟩ := List.nodup_append.mp hnodup
      exact ⟨h₁, fun j hj => h₃ j hj u List.mem_cons_self, h₂⟩
    rw [List.isChain_append_cons_cons]
    refine ⟨?_, Function.update_self _ _ _, ?_⟩
    · apply hfront.imp_of_mem_imp
      intro q j _ hj hback
      change Function.update prev u (some p) j = some q
      rw [Function.update_of_ne (hdisjoint j hj), hback]
    · have hum : (u :: m).IsChain fun p t => prev t = some p := hrear.tail
      rw [List.isChain_cons] at hum ⊢
      have hkeep : ∀ j ∈ m, Function.update prev u (some p) j = prev j := fun j hj =>
        Function.update_of_ne (fun he : j = u => (List.nodup_cons.mp hnd).1 (he ▸ hj)) _ _
      refine ⟨?_, ?_⟩
      · intro j hj
        change Function.update prev u (some p) j = some u
        rw [hkeep j (List.mem_of_mem_head? hj), hum.1 j hj]
      · apply hum.2.imp_of_mem_imp
        intro q j _ hj hback
        change Function.update prev u (some p) j = some q
        rw [hkeep j hj, hback]

end Linked
