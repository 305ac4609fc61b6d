import Mathlib.Data.List.Basic
import Mathlib.Order.WellFounded

/-! # Systems with output

A step of the system gives the next state and what it puts out, or there is none. The runs from a
state are the beginnings of a single one, so that their outputs are prefixes of one another.
-/

namespace Transition

variable {σ ω : Type*} {step : σ → Option (σ × List ω)} {s s' s'' : σ} {out out' : List ω}

/-- A run from one state to another one, with its output. -/
inductive Leads (step : σ → Option (σ × List ω)) : σ → List ω → σ → Prop
  | refl (s : σ) : Leads step s [] s
  | cons {s s' s'' : σ} {out out' : List ω} (h : step s = some (s', out))
      (h' : Leads step s' out' s'') : Leads step s (out ++ out') s''

theorem Leads.single (h : step s = some (s', out)) : Leads step s out s' := by
  have hrun := Leads.cons h (.refl s')
  rwa [List.append_nil] at hrun

theorem Leads.trans (h : Leads step s out s') (h' : Leads step s' out' s'') :
    Leads step s (out ++ out') s'' := by
  induction h with
  | refl => exact h'
  | cons hstep _ ih =>
    rw [List.append_assoc]
    exact .cons hstep (ih h')

/-- Of two runs one goes on from where the other one stopped. -/
theorem Leads.prefix_or (h : Leads step s out s') (h' : Leads step s out' s'') :
    out <+: out' ∨ out' <+: out := by
  induction h generalizing out' with
  | refl => exact .inl (List.nil_prefix)
  | cons hstep hrest ih =>
    cases h' with
    | refl => exact .inr (List.nil_prefix)
    | cons hstep' hrest' =>
      obtain ⟨rfl, rfl⟩ := Prod.mk.inj (Option.some.inj (hstep.symm.trans hstep'))
      rcases ih hrest' with hp | hp
      · exact .inl ((List.prefix_append_right_inj _).mpr hp)
      · exact .inr ((List.prefix_append_right_inj _).mpr hp)

/-- A number of passes, each from the state that the one before it ended in; `none` when one of them
goes wrong. -/
def passes (f : σ → Option (List ω × σ)) : ℕ → σ → Option (List (List ω) × σ)
  | 0, s => some ([], s)
  | n + 1, s => (f s).bind fun (out, s) => (passes f n s).map fun (outs, s) => (out :: outs, s)

/-- The outputs of passes, each after a mark, and a mark at the end. -/
def marked (a b : ω) (outs : List (List ω)) : List ω := (outs.map (a :: ·)).flatten ++ [b]

theorem marked_cons (a b : ω) (out : List ω) (outs : List (List ω)) :
    marked a b (out :: outs) = a :: (out ++ marked a b outs) := by
  simp [marked]

variable {f : σ → Option (List ω × σ)}

theorem passes_succ {n : ℕ} {outs : List (List ω)} (h : passes f (n + 1) s = some (outs, s')) :
    ∃ out s₁ outs', f s = some (out, s₁) ∧ passes f n s₁ = some (outs', s') ∧
      outs = out :: outs' := by
  obtain ⟨⟨out, s₁⟩, hf, hrest⟩ := Option.bind_eq_some_iff.mp h
  obtain ⟨⟨outs', s₂⟩, hpasses, heq⟩ := Option.map_eq_some_iff.mp hrest
  obtain ⟨rfl, rfl⟩ := Prod.mk.inj heq
  exact ⟨out, s₁, outs', hf, hpasses, rfl⟩

theorem passes_isSome (h : ∀ s, (f s).isSome) (n : ℕ) (s : σ) : (passes f n s).isSome := by
  induction n generalizing s with
  | zero => rfl
  | succ n ih =>
    obtain ⟨⟨out, s₁⟩, hf⟩ := Option.isSome_iff_exists.mp (h s)
    simp [passes, hf, ih s₁]

/-- The marks tell how many passes there were, in a run that goes on as well. -/
theorem eq_of_marked {a b : ω} (hab : a ≠ b) {m n : ℕ} {outs outs' : List (List ω)}
    (hm : passes f m s = some (outs, s')) (hn : passes f n s = some (outs', s''))
    (h : marked a b outs <+: marked a b outs') : m = n := by
  induction m generalizing n s outs outs' with
  | zero =>
    obtain ⟨rfl, -⟩ := Prod.mk.inj (Option.some.inj hm)
    cases n with
    | zero => rfl
    | succ n =>
      obtain ⟨out, s₁, outs₁, -, -, rfl⟩ := passes_succ hn
      rw [marked_cons] at h
      exact absurd (List.cons_prefix_cons.mp h).1.symm hab
  | succ m ih =>
    obtain ⟨out, s₁, outs₁, hf, hm', rfl⟩ := passes_succ hm
    cases n with
    | zero =>
      obtain ⟨rfl, -⟩ := Prod.mk.inj (Option.some.inj hn)
      rw [marked_cons] at h
      exact absurd (List.cons_prefix_cons.mp h).1 hab
    | succ n =>
      obtain ⟨out', s₁', outs₁', hf', hn', rfl⟩ := passes_succ hn
      obtain ⟨rfl, rfl⟩ := Prod.mk.inj (Option.some.inj (hf.symm.trans hf'))
      rw [marked_cons, marked_cons, List.cons_prefix_cons, List.prefix_append_right_inj] at h
      rw [ih hm' hn' h.2]

/-! ### Calls

A reader is called again and again, and each call gives one item or none. When every state owes a
list of items, of which a call gives the first one or none, the calls give the list in order; when
calls that give none come to an end, they give all of it.
-/

section Calls

variable {α : Type*}

/-- What a number of calls gives, and the state after them; `none` when a call goes wrong. -/
def calls (step : σ → Option (σ × Option α)) : ℕ → σ → Option (σ × List α)
  | 0, s => some (s, [])
  | k + 1, s =>
    match step s with
    | none => none
    | some (s, r) =>
      match calls step k s with
      | none => none
      | some (s, out) => some (s, r.toList ++ out)

/-- A call gives the first item that is owed, or none. -/
structure Owing (step : σ → Option (σ × Option α)) (Owes : σ → List α → Prop)
    (measure : σ → ℕ) : Prop where
  step : ∀ s out, Owes s out → ∃ s' r out', step s = some (s', r) ∧ out = r.toList ++ out' ∧
    Owes s' out' ∧ (r = none → out ≠ [] → measure s' < measure s)

variable {step : σ → Option (σ × Option α)} {Owes : σ → List α → Prop} {measure : σ → ℕ} {s : σ}
  {out : List α}

/-- The calls give the items in order. -/
theorem Owing.calls (h : Owing step Owes measure) (hs : Owes s out) (k : ℕ) :
    ∃ s' given out', Transition.calls step k s = some (s', given) ∧ out = given ++ out' ∧
      Owes s' out' := by
  induction k generalizing s out with
  | zero => exact ⟨s, [], out, rfl, rfl, hs⟩
  | succ k ih =>
    obtain ⟨s₁, r, out₁, hstep, rfl, hs₁, -⟩ := h.step s out hs
    obtain ⟨s', given, out', hcalls, rfl, hs'⟩ := ih hs₁
    refine ⟨s', r.toList ++ given, out', ?_, (List.append_assoc _ _ _).symm, hs'⟩
    simp only [Transition.calls, hstep, hcalls]

/-- Enough calls give all items. -/
theorem Owing.exists_calls (h : Owing step Owes measure) : ∀ {s : σ} {out : List α}, Owes s out →
    ∃ k, ∀ m ≥ k, ∃ s', Transition.calls step m s = some (s', out)
  | s, [], hs => by
    refine ⟨0, fun m _ => ?_⟩
    obtain ⟨s', given, out', hcalls, hnil, -⟩ := h.calls hs m
    obtain ⟨rfl, -⟩ := List.append_eq_nil_iff.mp hnil.symm
    exact ⟨s', hcalls⟩
  | s, x :: out, hs => by
    obtain ⟨s₁, r, out₁, hstep, hr, hs₁, hless⟩ := h.step s (x :: out) hs
    obtain ⟨k, hk⟩ := h.exists_calls hs₁
    refine ⟨k + 1, fun m hm => ?_⟩
    obtain ⟨n, rfl⟩ := Nat.exists_eq_add_of_le' (Nat.le_of_add_left_le hm)
    obtain ⟨s', hcalls⟩ := hk n (by omega)
    exact ⟨s', by simp only [Transition.calls, hstep, hcalls, hr]⟩
termination_by s out => (out.length, measure s)
decreasing_by
  cases r with
  | none =>
    obtain rfl : x :: out = out₁ := hr
    exact Prod.Lex.right _ (hless rfl (List.cons_ne_nil x out))
  | some c =>
    obtain ⟨rfl, rfl⟩ := List.cons.inj hr
    exact Prod.Lex.left _ _ (Nat.lt_succ_self _)

/-- The calls give a list: at any time a first part of it, and all of it after enough calls. -/
def Gives (step : σ → Option (σ × Option α)) (s : σ) (out : List α) : Prop :=
  (∀ k, ∃ s' given, calls step k s = some (s', given) ∧ given <+: out) ∧
    ∃ k, ∀ m ≥ k, ∃ s', calls step m s = some (s', out)

theorem Owing.gives (h : Owing step Owes measure) (hs : Owes s out) : Gives step s out := by
  refine ⟨fun k => ?_, h.exists_calls hs⟩
  obtain ⟨s', given, out', hcalls, rfl, -⟩ := h.calls hs k
  exact ⟨s', given, hcalls, List.prefix_append given out'⟩

end Calls

end Transition
