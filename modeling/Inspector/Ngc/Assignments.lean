import Inspector.Ngc.Scopes
import Mathlib.Algebra.Ring.Int.Defs

/-! # Assignments of a block

`gc_execute_block` collects the assignments `#n=expr` of a block while it reads the words, and makes
them in a loop at its end. The loop runs from the last assignment to the first one, and a block that
returns earlier does not come to it. Blocks that flow control skips are not executed and are left
out.
-/

namespace Inspector

namespace Ngc

/-- `NGC_N_ASSIGN_PARAMETERS_PER_BLOCK`. -/
def nAssignParametersPerBlock : ℕ := 10

/-- A word of a block. The expressions are read with the parameters as they are at that moment, and
may be in error; the number of a parameter is the converted one. -/
inductive Word (V : Type*)
  | assign (param : Params V → Option ℕ) (value : Params V → Option V)
  | assignNamed (name : Name) (value : Params V → Option V)
  | other (value : Params V → Option V)

/-- How a block goes on, with what subroutines and macros do to the parameters before the function
returns. -/
inductive Way (V : Type*)
  -- An `O` word with its keyword: `ngc_flowctrl`, while the words are read.
  | flowControl (ops : List (ParamOp V))
  -- An `O` word that the prescan for `M98` is after.
  | prescan
  -- `G66`.
  | modalMacro
  | jog
  -- `G65`, `M98`, and a motion while `G66` or `G66.1` is active.
  | macroCall (ops : List (ParamOp V))
  -- `M98` in check mode.
  | macroAdd
  -- `M99`, with the calls that it ends.
  | macroReturn (pops : ℕ)
  | others

/-- A block; one that is in error has no way to go on. -/
structure GcBlock (V : Type*) where
  words : List (Word V)
  way : Option (Way V)

variable {V : Type*}

namespace Way

/-- What happens to the parameters before the loop of the assignments. -/
def ops : Way V → List (ParamOp V)
  | .flowControl ops | .macroCall ops => ops
  | .macroReturn pops => .replicate pops .pop
  | _ => []

/-- The function returns before that loop. -/
def returns : Way V → Bool
  | .macroReturn _ | .others => false
  | _ => true

end Way

/-- `ngc_param_is_rw`. -/
def ngcParamIsRw (id : ℕ) : Bool := 0 < id ∧ id < 5061

/-- Read a word; `ngc_params` grows by the numbered assignments. -/
def readWord (r : Params V × List (ℕ × V)) : Word V → Option (Params V × List (ℕ × V))
  | .assign param value =>
    (param r.1).bind fun id =>
      if !ngcParamIsRw id then none
      else
        (value r.1).bind fun value =>
          if r.2.length < nAssignParametersPerBlock then some (r.1, r.2 ++ [(id, value)]) else none
  | .assignNamed name value =>
    (value r.1).bind fun value =>
      let (ok, s) := r.1.ngcNamedParamSet name value
      if ok then some (s, r.2) else none
  | .other value => (value r.1).bind fun _ => some r

/-- The numbered assignments of a block, all with the parameters from before the block. -/
def assigned (s : Params V) : List (Word V) → Option (List (ℕ × V))
  | [] => some []
  | .assign param value :: words =>
    (param s).bind fun id => (value s).bind fun value =>
      (assigned s words).map fun l => (id, value) :: l
  | .assignNamed _ _ :: words | .other _ :: words => assigned s words

/-- No numbered assignment reads a named parameter that the same block has assigned before. The
words are read from `s` on, in a block that starts in `s₀`. -/
def Independent (s₀ : Params V) : Params V → List (Word V) → Prop
  | _, [] => True
  | s, .assign param value :: words =>
    param s = param s₀ ∧ value s = value s₀ ∧ Independent s₀ s words
  | s, .assignNamed name value :: words =>
    ∀ x, value s = some x → Independent s₀ (s.ngcNamedParamSet name x).2 words
  | s, .other _ :: words => Independent s₀ s words

theorem readWord_assign {r r' : Params V × List (ℕ × V)} {param : Params V → Option ℕ}
    {value : Params V → Option V} (h : readWord r (.assign param value) = some r') :
    ∃ id v, param r.1 = some id ∧ ngcParamIsRw id ∧ value r.1 = some v ∧
      r' = (r.1, r.2 ++ [(id, v)]) := by
  obtain ⟨id, hid, h⟩ := Option.bind_eq_some_iff.mp h
  by_cases hrw : ngcParamIsRw id = true
  · rw [if_neg (by simp [hrw])] at h
    obtain ⟨v, hv, h⟩ := Option.bind_eq_some_iff.mp h
    split_ifs at h
    exact ⟨id, v, hid, hrw, hv, (Option.some.inj h).symm⟩
  · rw [if_pos (by simp [hrw])] at h
    cases h

theorem readWord_assignNamed {r r' : Params V × List (ℕ × V)} {name : Name}
    {value : Params V → Option V} (h : readWord r (.assignNamed name value) = some r') :
    ∃ v, value r.1 = some v ∧ r' = ((r.1.ngcNamedParamSet name v).2, r.2) := by
  obtain ⟨v, hv, h⟩ := Option.bind_eq_some_iff.mp h
  refine ⟨v, hv, ?_⟩
  cases hset : r.1.ngcNamedParamSet name v with
  | mk ok s =>
    rw [hset] at h
    dsimp only at h
    split_ifs at h
    exact (Option.some.inj h).symm

/-- The numbered parameters and the calls of two states are the same. -/
structure SameNumbered (s t : Params V) : Prop where
  callLevels : t.callLevels = s.callLevels
  callContext : t.callContext = s.callContext
  rwParams : t.rwParams = s.rwParams

namespace SameNumbered

variable {s t u : Params V}

theorem trans (h : SameNumbered s t) (h' : SameNumbered t u) : SameNumbered s u :=
  ⟨h'.1.trans h.1, h'.2.trans h.2, h'.3.trans h.3⟩

theorem setNamed (s : Params V) (name : Name) (value : V) :
    SameNumbered s (s.ngcNamedParamSet name value).2 := by
  unfold Params.ngcNamedParamSet
  dsimp only
  split_ifs <;> exact ⟨rfl, rfl, rfl⟩

theorem push (s : Params V) (globals : List ((Option Context × Name) × V)) (c : Context) :
    SameNumbered (s.ngcCallPush c).2 ({ s with rwGlobalParams := globals }.ngcCallPush c).2 := by
  have hlevel : ({ s with rwGlobalParams := globals } : Params V).ngcCallLevel = s.ngcCallLevel := rfl
  by_cases hlen : s.ngcCallLevel < maxCallLevel
  · rw [Params.ngcCallPush, Params.ngcCallPush, if_pos hlen, if_pos (hlevel ▸ hlen)]
    exact ⟨rfl, rfl, rfl⟩
  · rw [Params.ngcCallPush, Params.ngcCallPush, if_neg hlen, if_neg (hlevel ▸ hlen)]
    exact ⟨rfl, rfl, rfl⟩

end SameNumbered

theorem ngcCallPop_eq {t : Params V} {c : Context} {levels : List Context}
    (hlevels : t.callLevels = c :: levels) (hc : t.callContext = some c) :
    t.ngcCallPop =
      { callLevels := levels
        callContext := levels.head?
        rwParams := Keyed.remove (fun key => key.1 = some c) t.rwParams
        rwGlobalParams := Keyed.remove (fun key => key.1 = some c) t.rwGlobalParams } := by
  rw [Params.ngcCallPop, hlevels, hc]

/-- The first assignment and the last one give a parameter the same value. -/
theorem lookup_reverse_iff (l : List (ℕ × V)) (id : ℕ) (x : V) :
    (l.lookup id).getD x = (l.reverse.lookup id).getD x ↔ l.lookup id = l.reverse.lookup id := by
  refine ⟨fun h => ?_, fun h => by rw [h]⟩
  cases hl : l.lookup id with
  | none =>
    symm
    rw [List.lookup_eq_none_iff] at hl ⊢
    exact fun p hp => hl p (List.mem_reverse.mp hp)
  | some v =>
    cases hr : l.reverse.lookup id with
    | none =>
      rw [List.lookup_eq_none_iff] at hr
      rw [List.lookup_eq_none_iff.mpr fun p hp => hr p (List.mem_reverse.mpr hp)] at hl
      cases hl
    | some w =>
      rw [hl, hr, Option.getD_some, Option.getD_some] at h
      rw [h]

/-- What reading the words of a block does. -/
theorem readWords_spec {words : List (Word V)} {s t : Params V} {acc r : List (ℕ × V)}
    (s₀ : Params V) (h : words.foldlM readWord (s, acc) = some (t, r)) :
    SameNumbered s t ∧ ∃ l, r = acc ++ l ∧ (∀ p ∈ l, ngcParamIsRw p.1) ∧
      (assigned s₀ words = some l ↔ Independent s₀ s words) := by
  induction words generalizing s acc with
  | nil =>
    cases h
    exact ⟨⟨rfl, rfl, rfl⟩, [], (List.append_nil _).symm, by simp, by simp [assigned, Independent]⟩
  | cons word words ih =>
    rw [List.foldlM_cons] at h
    obtain ⟨⟨s₁, acc₁⟩, hword, hwords⟩ := Option.bind_eq_some_iff.mp h
    obtain ⟨hsame, l, hr, hrw, hiff⟩ := ih hwords
    cases word with
    | assign param value =>
      obtain ⟨id, v, hid, hidrw, hv, heq⟩ := readWord_assign hword
      obtain ⟨rfl, rfl⟩ := Prod.mk.inj heq
      refine ⟨hsame, (id, v) :: l, by simp [hr], ?_, ?_⟩
      · intro p hp
        rcases List.mem_cons.mp hp with rfl | hp
        · exact hidrw
        · exact hrw p hp
      · rw [Independent, hid, hv, ← hiff, assigned]
        constructor
        · intro hassigned
          obtain ⟨i, hi, hassigned⟩ := Option.bind_eq_some_iff.mp hassigned
          obtain ⟨x, hx, hassigned⟩ := Option.bind_eq_some_iff.mp hassigned
          obtain ⟨m, hm, heq⟩ := Option.map_eq_some_iff.mp hassigned
          obtain ⟨hhead, rfl⟩ := List.cons.inj heq
          obtain ⟨rfl, rfl⟩ := Prod.mk.inj hhead
          exact ⟨hi.symm, hx.symm, hm⟩
        · rintro ⟨hi, hx, hm⟩
          rw [← hi, ← hx, hm]
          rfl
    | assignNamed name value =>
      obtain ⟨x, hx, heq⟩ := readWord_assignNamed hword
      obtain ⟨rfl, rfl⟩ := Prod.mk.inj heq
      refine ⟨(SameNumbered.setNamed s name x).trans hsame, l, hr, hrw, ?_⟩
      rw [assigned, hiff, Independent]
      constructor
      · intro hi y hy
        rw [hx, Option.some_inj] at hy
        exact hy ▸ hi
      · exact fun hi => hi x hx
    | other value =>
      obtain ⟨x, -, hword⟩ := Option.bind_eq_some_iff.mp hword
      obtain ⟨rfl, rfl⟩ := Prod.mk.inj (Option.some.inj hword)
      exact ⟨hsame, l, hr, hrw, hiff⟩

variable [Zero V]

/-- A numbered parameter of a call. -/
def Params.valueIn (s : Params V) (c : Option Context) (id : ℕ) : V :=
  s.viewParam (if 30 < id then none else c) id

theorem SameNumbered.valueIn {s t : Params V} (h : SameNumbered s t) (c : Option Context) (id : ℕ) :
    t.valueIn c id = s.valueIn c id := by
  rw [Params.valueIn, Params.valueIn, Params.viewParam, Params.viewParam, h.rwParams]

/-- The call of a context has ended, with the parameters of the call. -/
structure Ended (s : Params V) (c : Context) (t : Params V) : Prop where
  callContext : t.callContext = t.callLevels.head?
  not_mem : c ∉ t.callLevels
  zero : ∀ id, t.viewParam (some c) id = 0
  shared : ∀ id, t.viewParam none id = s.viewParam none id

theorem Ended.pop {s t : Params V} {c : Context} (h : Ended s c t) : Ended s c t.ngcCallPop := by
  cases hlevels : t.callLevels with
  | nil => rwa [Params.ngcCallPop, hlevels]
  | cons d levels =>
    have hd : t.callContext = some d := by rw [h.callContext, hlevels, List.head?_cons]
    have hne := h.not_mem
    rw [hlevels, List.mem_cons, not_or] at hne
    rw [ngcCallPop_eq hlevels hd]
    refine ⟨rfl, hne.2, fun id => ?_, fun id => ?_⟩
    · rw [← h.zero id, Params.viewParam, Params.viewParam,
        Keyed.read_remove_of_neg (k := (some c, id)) (decide_eq_false (by simpa using hne.1))]
    · rw [← h.shared id, Params.viewParam, Params.viewParam,
        Keyed.read_remove_of_neg (k := (none, id)) (decide_eq_false (by simp))]

/-- The first call that ends is the one of the block. -/
theorem ended_pop {s t : Params V} {a : Scopes V} {c : Context} (hs : Refines s a)
    (hc : s.callContext = some c) (h : SameNumbered s t) : Ended s c t.ngcCallPop := by
  have hhead := hs.context
  rw [hc] at hhead
  obtain ⟨levels, hlevels⟩ := List.head?_eq_some_iff.mp hhead.symm
  have hnodup := hs.ordered.nodup
  rw [hlevels, List.nodup_cons] at hnodup
  rw [ngcCallPop_eq (h.callLevels.trans hlevels) (h.callContext.trans hc), h.rwParams]
  refine ⟨rfl, hnodup.1, fun id => ?_, fun id => ?_⟩
  · rw [Params.viewParam, Keyed.read_remove_of_pos (k := (some c, id)) (decide_eq_true rfl)]
    rfl
  · rw [Params.viewParam, Params.viewParam,
      Keyed.read_remove_of_neg (k := (none, id)) (decide_eq_false (by simp))]

variable [DecidableEq V]

/-- The loop at the end of `gc_execute_block`. -/
def assignParams (ngcParams : List (ℕ × V)) (s : Params V) : Params V :=
  ngcParams.foldr (fun param s => (s.ngcParamSet param.1 param.2).2) s

/-- `gc_execute_block`, as far as the parameters are concerned. -/
def gcExecuteBlock (b : GcBlock V) (s : Params V) : Option (Params V) := do
  let r ← b.words.foldlM readWord (s, [])
  let way ← b.way
  let s := way.ops.foldl Params.exec r.1
  return if way.returns then s else assignParams r.2 s

/-- The assignments of a block are parallel: all expressions are read with the parameters from
before the block, and a parameter has the value of its last assignment after it, where it has one,
and its old value elsewhere. -/
def Parallel (b : GcBlock V) (s s' : Params V) : Prop :=
  ∃ l, assigned s b.words = some l ∧ (b.words.foldlM readWord (s, [])).map Prod.snd = some l ∧
    ∀ id, ngcParamIsRw id → s'.valueIn s.callContext id =
      (l.reverse.lookup id).getD (s.valueIn s.callContext id)

/-- What a block has to meet in each parameter for its assignments to be parallel. -/
def Way.Meets (way : Way V) (s : Params V) (l : List (ℕ × V)) (id : ℕ) : Prop :=
  let value := (l.reverse.lookup id).getD (s.valueIn s.callContext id)
  match way with
  | .macroReturn pops =>
    if 30 < id ∨ pops = 0 ∨ s.callLevels = [] then l.lookup id = l.reverse.lookup id else value = 0
  | .others => l.lookup id = l.reverse.lookup id
  | way => value = (way.ops.foldl Params.exec s).valueIn s.callContext id

/-- The condition under which the assignments of a block are parallel. -/
def GcBlock.Meets (b : GcBlock V) (s : Params V) : Prop :=
  Independent s s b.words ∧ ∀ l way, assigned s b.words = some l → b.way = some way →
    ∀ id, ngcParamIsRw id → way.Meets s l id

namespace SameNumbered

variable {s t : Params V}

theorem exec (h : SameNumbered s t) (op : ParamOp V) : SameNumbered (s.exec op) (t.exec op) := by
  obtain ⟨globals, rfl⟩ : ∃ globals, t = { s with rwGlobalParams := globals } :=
    ⟨t.rwGlobalParams, by cases t; cases h; simp_all⟩
  cases op with
  | set id value =>
    simp only [Params.exec, Params.ngcParamSet, Params.paramContext]
    split_ifs <;> exact ⟨rfl, rfl, rfl⟩
  | setNamed name value =>
    exact ⟨(setNamed _ name value).1.trans (setNamed s name value).1.symm,
      (setNamed _ name value).2.trans (setNamed s name value).2.symm,
      (setNamed _ name value).3.trans (setNamed s name value).3.symm⟩
  | callMacro =>
    exact push s globals _
  | callSub opened =>
    simp only [Params.exec]
    split_ifs
    · exact push s globals _
    · exact ⟨rfl, rfl, rfl⟩
  | pop =>
    obtain ⟨levels, context, params, globals'⟩ := s
    cases levels with
    | nil => exact ⟨rfl, rfl, rfl⟩
    | cons c levels => cases context <;> exact ⟨rfl, rfl, rfl⟩

theorem foldl (h : SameNumbered s t) (ops : List (ParamOp V)) :
    SameNumbered (ops.foldl Params.exec s) (ops.foldl Params.exec t) := by
  induction ops generalizing s t with
  | nil => exact h
  | cons op ops ih => exact ih (h.exec op)

end SameNumbered

/-- The loop at the end gives a parameter the value of its first assignment. -/
theorem assignParams_spec {l : List (ℕ × V)} (hl : ∀ p ∈ l, ngcParamIsRw p.1) (s : Params V) :
    (assignParams l s).callContext = s.callContext ∧ ∀ c id,
      (assignParams l s).viewParam c id =
        if c = s.paramContext id then (l.lookup id).getD (s.viewParam c id)
        else s.viewParam c id := by
  induction l with
  | nil => exact ⟨rfl, fun c id => by simp [assignParams]⟩
  | cons p l ih =>
    obtain ⟨id, v⟩ := p
    obtain ⟨hcontext, hview⟩ := ih fun q hq => hl q (List.mem_cons_of_mem _ hq)
    have hid : 0 < id ∧ id < 5061 := by simpa [ngcParamIsRw] using hl _ List.mem_cons_self
    obtain ⟨rwParams, hset, hself, hother⟩ := ngcParamSet_spec (assignParams l s) v hid
    have hcons : assignParams ((id, v) :: l) s =
        { assignParams l s with rwParams := rwParams } := hset
    have hkey : (assignParams l s).paramContext id = s.paramContext id := by
      rw [Params.paramContext, Params.paramContext, hcontext]
    rw [hkey] at hself hother
    refine ⟨by rw [hcons]; exact hcontext, fun c i => ?_⟩
    rw [hcons]
    by_cases hi : (c, i) = (s.paramContext id, id)
    · obtain ⟨rfl, rfl⟩ := Prod.mk.inj hi
      rw [if_pos rfl, List.lookup_cons_self, Option.getD_some]
      exact hself
    · have hread : ({ assignParams l s with rwParams := rwParams } : Params V).viewParam c i =
          (assignParams l s).viewParam c i := by
        rw [Params.viewParam, Params.viewParam, hother _ hi]
      rw [hread, hview c i]
      by_cases hne : i = id
      · subst hne
        have hc : c ≠ s.paramContext i := fun hc => hi (by rw [hc])
        rw [if_neg hc, if_neg hc]
      · rw [List.lookup_cons, beq_eq_false_iff_ne.mpr hne]

/-- Where the loop at the end is reached with the parameters as they were. -/
theorem valueIn_assignParams {s t : Params V} {l : List (ℕ × V)}
    (hl : ∀ p ∈ l, ngcParamIsRw p.1) (h : SameNumbered s t) (id : ℕ) :
    (assignParams l t).valueIn s.callContext id =
      (l.lookup id).getD (s.valueIn s.callContext id) := by
  have hkey : (if 30 < id then none else s.callContext) = t.paramContext id := by
    rw [Params.paramContext, h.callContext]
  rw [← h.valueIn, Params.valueIn, (assignParams_spec hl t).2, if_pos hkey, Params.valueIn]

theorem ended_pops {s t : Params V} {a : Scopes V} {c : Context} (hs : Refines s a)
    (hc : s.callContext = some c) (h : SameNumbered s t) (pops : ℕ) :
    Ended s c ((List.replicate (pops + 1) ParamOp.pop).foldl Params.exec t) := by
  have hrest : ∀ {u : Params V}, Ended s c u →
      Ended s c ((List.replicate pops ParamOp.pop).foldl Params.exec u) := by
    induction pops with
    | zero => exact fun hu => hu
    | succ pops ih => exact fun hu => ih hu.pop
  exact hrest (ended_pop hs hc h)

theorem pops_of_nil {t : Params V} (h : t.callLevels = []) (pops : ℕ) :
    (List.replicate pops ParamOp.pop).foldl Params.exec t = t := by
  induction pops with
  | zero => rfl
  | succ pops ih =>
    have hpop : t.exec .pop = t := by rw [Params.exec, Params.ngcCallPop, h]
    rw [List.replicate_succ, List.foldl_cons, hpop, ih]

/-- Where the call of the block has ended before the loop at the end: its own parameters are gone,
and the assignments are made in the call that is left. -/
theorem Ended.valueIn_assignParams {s t : Params V} {c : Context} {l : List (ℕ × V)}
    (h : Ended s c t) (hl : ∀ p ∈ l, ngcParamIsRw p.1) (id : ℕ) :
    (assignParams l t).valueIn (some c) id =
      if 30 < id then (l.lookup id).getD (s.valueIn (some c) id) else 0 := by
  rw [Params.valueIn, (assignParams_spec hl _).2, Params.paramContext, Params.valueIn]
  split_ifs with hid heq heq
  · rw [h.shared]
  · exact absurd rfl heq
  · rw [h.callContext] at heq
    exact absurd (List.mem_of_head? heq.symm) h.not_mem
  · exact h.zero id

/-- What a parameter is after a block, and that it is right exactly under the condition. -/
theorem Way.meets_iff {s t : Params V} {a : Scopes V} {l : List (ℕ × V)} (hs : Refines s a)
    (hl : ∀ p ∈ l, ngcParamIsRw p.1) (h : SameNumbered s t) (way : Way V) (id : ℕ) :
    (if way.returns then way.ops.foldl Params.exec t
      else assignParams l (way.ops.foldl Params.exec t)).valueIn s.callContext id =
        (l.reverse.lookup id).getD (s.valueIn s.callContext id) ↔ way.Meets s l id := by
  have hops := (h.foldl way.ops).valueIn s.callContext id
  have hend := valueIn_assignParams hl h id
  cases way with
  | others => exact (Eq.congr_left hend).trans (lookup_reverse_iff l id _)
  | macroReturn pops =>
    change (assignParams l ((List.replicate pops ParamOp.pop).foldl Params.exec t)).valueIn
      s.callContext id = _ ↔ _
    simp only [Way.Meets]
    cases hc : s.callContext with
    | none =>
      have hnil : s.callLevels = [] := List.head?_eq_none_iff.mp (hs.context ▸ hc)
      rw [pops_of_nil (h.callLevels.trans hnil), if_pos (.inr (.inr hnil))]
      rw [hc] at hend
      exact (Eq.congr_left hend).trans (lookup_reverse_iff l id _)
    | some c =>
      have hcons : s.callLevels ≠ [] := by
        intro hnil
        rw [hs.context, hnil] at hc
        cases hc
      cases pops with
      | zero =>
        rw [hc] at hend
        simp only [true_or, or_true, if_true]
        exact (Eq.congr_left hend).trans (lookup_reverse_iff l id _)
      | succ pops =>
        rw [(ended_pops hs hc h pops).valueIn_assignParams hl]
        simp only [hcons, Nat.succ_ne_zero, or_false]
        split_ifs with hid
        · exact lookup_reverse_iff l id _
        · exact eq_comm
  | flowControl ops => exact (Eq.congr_left hops).trans eq_comm
  | prescan => exact (Eq.congr_left hops).trans eq_comm
  | modalMacro => exact (Eq.congr_left hops).trans eq_comm
  | jog => exact (Eq.congr_left hops).trans eq_comm
  | macroCall ops => exact (Eq.congr_left hops).trans eq_comm
  | macroAdd => exact (Eq.congr_left hops).trans eq_comm

/-- The assignments of a block that is executed, with the parameters of any run so far, are parallel
exactly if no one reads a named parameter assigned before it in the block, the block comes to its
end, or leaves the values that are assigned anyway, and repeated assignments of a parameter begin
and end with the same value. -/
theorem parallel_iff (run : List (ParamOp V)) (b : GcBlock V) {s' : Params V}
    (h : gcExecuteBlock b (Params.run run) = some s') :
    Parallel b (Params.run run) s' ↔ b.Meets (Params.run run) := by
  obtain ⟨⟨t, l⟩, hwords, h⟩ := Option.bind_eq_some_iff.mp h
  obtain ⟨way, hway, h⟩ := Option.bind_eq_some_iff.mp h
  obtain rfl := (Option.some.inj h).symm
  obtain ⟨hsame, m, hm, hrw, hiff⟩ := readWords_spec (Params.run run) hwords
  rw [List.nil_append] at hm
  subst hm
  have hmeets := Way.meets_iff (refines_run run) hrw hsame way
  constructor
  · rintro ⟨m, hassigned, hmap, hvalue⟩
    rw [hwords, Option.map_some, Option.some_inj] at hmap
    subst hmap
    refine ⟨hiff.mp hassigned, fun m way' hassigned' hway' id hid => ?_⟩
    rw [hassigned, Option.some_inj] at hassigned'
    rw [hway, Option.some_inj] at hway'
    subst hassigned' hway'
    exact (hmeets id).mp (hvalue id hid)
  · rintro ⟨hindependent, hall⟩
    have hassigned := hiff.mpr hindependent
    refine ⟨l, hassigned, by rw [hwords, Option.map_some], fun id hid => ?_⟩
    exact (hmeets id).mpr (hall l way hassigned hway id hid)

/-- `#1=10 #2=#1`. -/
def swapBlock : GcBlock ℤ where
  words := [.assign (fun _ => some 1) (fun _ => some 10),
    .assign (fun _ => some 2) fun s => some (s.valueIn s.callContext 1)]
  way := some .others

/-- `#1=2 #1=3`. -/
def repeatBlock : GcBlock ℤ where
  words := [.assign (fun _ => some 1) (fun _ => some 2), .assign (fun _ => some 1) (fun _ => some 3)]
  way := some .others

theorem parallel_iff_swapBlock :
    ∃ s', gcExecuteBlock swapBlock (Params.run [.set 1 5]) = some s' ∧
      Parallel swapBlock (Params.run [.set 1 5]) s' := by
  refine ⟨_, rfl, (parallel_iff [.set 1 5] swapBlock rfl).mpr
    ⟨⟨rfl, rfl, rfl, rfl, trivial⟩, ?_⟩⟩
  rintro l way hl hway id -
  cases hl
  cases hway
  change List.lookup id [(1, 10), (2, 5)] = List.lookup id [(2, 5), (1, 10)]
  rcases eq_or_ne id 1 with rfl | h1
  · rfl
  · simp [List.lookup_cons, beq_eq_false_iff_ne.mpr h1]

/-- The first one of two assignments of a parameter remains. -/
theorem not_parallel :
    ∃ s', gcExecuteBlock repeatBlock {} = some s' ∧ s'.valueIn none 1 = 2 ∧
      ¬ Parallel repeatBlock {} s' := by
  refine ⟨_, rfl, by decide, ?_⟩
  rintro ⟨l, hl, -, hvalue⟩
  cases hl
  exact absurd (hvalue 1 (by decide)) (by decide)

end Ngc

end Inspector
