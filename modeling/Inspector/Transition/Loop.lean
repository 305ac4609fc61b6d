import Mathlib.Data.Nat.Basic

/-! # Loops that may not terminate

The body of a loop either continues with a new state or leaves the loop with a result. A loop is
run with fuel; it returns if some fuel suffices. Results satisfy what every pass preserves, and a
loop returns if a rank decreases from pass to pass.
-/

namespace Transition

variable {σ ρ : Type*} (body : σ → σ ⊕ ρ)

/-- Run a loop for a number of passes at most. -/
def loop : ℕ → σ → Option ρ
  | 0, _ => none
  | n + 1, s =>
    match body s with
    | .inl s' => loop n s'
    | .inr r => some r

/-- The loop terminates from a state. -/
def Returns (s : σ) : Prop := ∃ n r, loop body n s = some r

variable {body} {s s' : σ} {r : ρ} {n m : ℕ}

theorem loop_succ_of_inl (h : body s = .inl s') : loop body (n + 1) s = loop body n s' := by
  rw [loop, h]

theorem loop_succ_of_inr (h : body s = .inr r) : loop body (n + 1) s = some r := by
  rw [loop, h]

theorem loop_mono (h : loop body n s = some r) (hnm : n ≤ m) : loop body m s = some r := by
  induction n generalizing s m with
  | zero => cases h
  | succ n ih =>
    obtain ⟨m, rfl⟩ : ∃ k, m = k + 1 := ⟨m - 1, by omega⟩
    cases hb : body s with
    | inl s' =>
      rw [loop_succ_of_inl hb] at h ⊢
      exact ih h (by omega)
    | inr r' =>
      rw [loop_succ_of_inr hb] at h ⊢
      exact h

/-- The fuel does not change the result. -/
theorem loop_unique {r' : ρ} (h : loop body n s = some r) (h' : loop body m s = some r') :
    r = r' := by
  have hn := loop_mono h (le_max_left n m)
  have hm := loop_mono h' (le_max_right n m)
  exact Option.some.inj (hn.symm.trans hm)

/-- What every pass preserves holds when the loop is left. -/
theorem loop_post {I : σ → Prop} {Q : ρ → Prop} (hstep : ∀ s s', I s → body s = .inl s' → I s')
    (hexit : ∀ s r, I s → body s = .inr r → Q r) (h0 : I s) (h : loop body n s = some r) :
    Q r := by
  induction n generalizing s with
  | zero => cases h
  | succ n ih =>
    cases hb : body s with
    | inl s' =>
      rw [loop_succ_of_inl hb] at h
      exact ih (hstep s s' h0 hb) h
    | inr r' =>
      rw [loop_succ_of_inr hb] at h
      cases h
      exact hexit s r h0 hb

theorem Returns.of_inr (h : body s = .inr r) : Returns body s :=
  ⟨1, r, loop_succ_of_inr h⟩

theorem Returns.of_inl (h : body s = .inl s') (hr : Returns body s') : Returns body s := by
  obtain ⟨n, r, hn⟩ := hr
  exact ⟨n + 1, r, (loop_succ_of_inl h).trans hn⟩

/-- One pass leaves the loop or leads to states from which it returns. -/
theorem Returns.of_pass (h : ∀ s', body s = .inl s' → Returns body s') : Returns body s := by
  cases hb : body s with
  | inl s' => exact .of_inl hb (h s' hb)
  | inr r => exact .of_inr hb

/-- A loop returns from all states of a rank if a pass lowers the rank or leads out of them to
states from which it returns. -/
theorem Returns.of_rank {P : ℕ → σ → Prop}
    (hpass : ∀ n s s', P n s → body s = .inl s' → Returns body s' ∨ ∃ m < n, P m s')
    (h : P n s) : Returns body s := by
  induction n using Nat.strong_induction_on generalizing s with
  | _ n ih =>
    apply Returns.of_pass
    intro s' hs'
    rcases hpass n s s' h hs' with hr | ⟨m, hm, hp⟩
    · exact hr
    · exact ih m hm hp

/-- A loop returns within as many passes as the rank of its state, if each pass leaves it with what
is wanted or lowers the rank. -/
theorem loop_of_rank {P : ℕ → σ → Prop} {Q : ρ → Prop}
    (hpass : ∀ k s, P k s →
      (∃ r, body s = .inr r ∧ Q r) ∨ ∃ s', body s = .inl s' ∧ ∃ l < k, P l s')
    (h : P m s) : ∃ r, Q r ∧ ∀ n, m < n → loop body n s = some r := by
  induction m using Nat.strong_induction_on generalizing s with
  | _ m ih =>
    rcases hpass m s h with ⟨r, hr, hq⟩ | ⟨s', hs', l, hl, hp⟩
    · refine ⟨r, hq, fun n hn => ?_⟩
      obtain ⟨n, rfl⟩ : ∃ k, n = k + 1 := ⟨n - 1, by omega⟩
      exact loop_succ_of_inr hr
    · obtain ⟨r, hq, hloop⟩ := ih l hl hp
      refine ⟨r, hq, fun n hn => ?_⟩
      obtain ⟨n, rfl⟩ : ∃ k, n = k + 1 := ⟨n - 1, by omega⟩
      rw [loop_succ_of_inl hs']
      exact hloop n (by omega)

end Transition
