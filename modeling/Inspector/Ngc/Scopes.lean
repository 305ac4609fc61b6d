import Inspector.Keyed.Layers
import Inspector.Ngc.Params
import Mathlib.Data.List.Induction
import Mathlib.Algebra.GroupWithZero.Nat

/-! # Scopes of parameters

What the parameters are for: every call opens a scope of its own for the local parameters, and the
volatile and the global ones are shared. The two lists of the firmware refine these scopes over
every run, so a caller finds its parameters as it left them when the call returns.
-/

namespace Inspector

namespace Ngc

variable {V : Type*} [Zero V] [DecidableEq V]

/-- The parameters `1` to `30` and the local named parameters of a call. -/
structure Scope (V : Type*) where
  param : ℕ → V
  named : Name → Option V

/-- Nothing has been written. -/
def Scope.fresh : Scope V := ⟨fun _ => 0, fun _ => none⟩

/-- The scopes of the calls, the innermost one first and that of the main program last, and the
parameters that all of them share. -/
structure Scopes (V : Type*) where
  scopes : List (Scope V)
  volatile : ℕ → V
  global : Name → Option V

namespace Scopes

def initial : Scopes V := ⟨[.fresh], fun _ => 0, fun _ => none⟩

def setParam (id : ℕ) (value : V) (a : Scopes V) : Scopes V :=
  if 0 < id ∧ id < 5061 then
    if 30 < id then { a with volatile := Function.update a.volatile id value }
    else
      { a with
        scopes := a.scopes.modifyHead fun f => { f with param := Function.update f.param id value } }
  else a

def setNamed (name : Name) (value : V) (a : Scopes V) : Scopes V :=
  if isGlobal name then { a with global := Function.update a.global name (some value) }
  else
    { a with
      scopes := a.scopes.modifyHead fun f =>
        { f with named := Function.update f.named name (some value) } }

def getParam (id : ℕ) (a : Scopes V) : V :=
  if 30 < id then a.volatile id else ((a.scopes.head?.getD .fresh).param id)

def getNamed (name : Name) (a : Scopes V) : Option V :=
  if isGlobal name then a.global name else (a.scopes.head?.getD .fresh).named name

/-- Read a numbered parameter. The ones from 5061 on are read-only. -/
def readParam (ro : ReadOnly V) (id : ℕ) (a : Scopes V) : Bool × V :=
  if 0 < id ∧ id < 5061 then (true, a.getParam id)
  else if ngcRoParams.any fun row => row.1 ≤ id ∧ id ≤ row.2 then (true, ro.param id)
  else (false, 0)

/-- Read a named parameter. The predefined ones are read-only. -/
def readNamed (ro : ReadOnly V) (name : Name) (a : Scopes V) : Option V :=
  if isBlank name then none
  else if isGlobal name ∧ name ∈ ngcNamedRoParam then some (ro.named name)
  else a.getNamed name

/-- The names that can be written, in lower case. -/
def Writable (name : Name) : Prop :=
  isBlank name = false ∧ ¬ (isGlobal name = true ∧ name ∈ ngcNamedRoParam) ∧
    name.length ≤ maxParamLength

instance (name : Name) : Decidable (Writable name) := inferInstanceAs (Decidable (_ ∧ _ ∧ _))

/-- An operation; a call opens a scope if it is accepted. -/
def exec (a : Scopes V) (op : ParamOp V) (accepted : Bool) : Scopes V :=
  match op with
  | .set id value => a.setParam id value
  | .setNamed name value =>
    if Writable (nameTolower name) then a.setNamed (nameTolower name) value else a
  | .callMacro | .callSub _ =>
    if accepted then { a with scopes := .fresh :: a.scopes } else a
  | .pop => if 1 < a.scopes.length then { a with scopes := a.scopes.tail } else a

end Scopes

/-- The contexts of the calls and of the main program. -/
def Params.contexts (s : Params V) : List (Option Context) := s.callLevels.map some ++ [none]

/-- The numbered parameters of the contexts. -/
def Params.viewParam (s : Params V) (c : Option Context) (id : ℕ) : V :=
  (Keyed.read (c, id) s.rwParams).getD 0

/-- The named parameters of the contexts. -/
def Params.viewNamed (s : Params V) (c : Option Context) (name : Name) : Option V :=
  Keyed.read (c, name) s.rwGlobalParams

/-- The contexts of the calls are those of distinct callers. -/
def Ordered : List Context → Prop
  | [] => True
  | .parser level :: levels => level = levels.length ∧ Ordered levels
  | .flow idx :: levels => Params.flowInUse levels ≤ idx ∧ Ordered levels

theorem Ordered.parser_lt : ∀ {levels : List Context}, Ordered levels →
    ∀ n, Context.parser n ∈ levels → n < levels.length
  | .parser m :: levels, ⟨hm, h⟩, n, hn => by
    rcases List.mem_cons.mp hn with heq | hn
    · cases heq
      exact hm ▸ Nat.lt_succ_self _
    · exact Nat.lt_succ_of_lt (h.parser_lt n hn)
  | .flow _ :: levels, ⟨_, h⟩, n, hn => by
    rcases List.mem_cons.mp hn with heq | hn
    · cases heq
    · exact Nat.lt_succ_of_lt (h.parser_lt n hn)

theorem Ordered.flow_lt : ∀ {levels : List Context}, Ordered levels →
    ∀ i, Context.flow i ∈ levels → i < Params.flowInUse levels
  | .parser _ :: levels, ⟨_, h⟩, i, hi => by
    rcases List.mem_cons.mp hi with heq | hi
    · cases heq
    · exact h.flow_lt i hi
  | .flow j :: levels, ⟨hj, h⟩, i, hi => by
    rcases List.mem_cons.mp hi with heq | hi
    · cases heq
      exact Nat.lt_succ_self _
    · exact Nat.lt_succ_of_lt (Nat.lt_of_lt_of_le (h.flow_lt i hi) hj)

theorem Ordered.nodup : ∀ {levels : List Context}, Ordered levels → levels.Nodup
  | [], _ => List.nodup_nil
  | .parser m :: levels, ⟨hm, h⟩ =>
    List.nodup_cons.mpr ⟨fun hmem => absurd (h.parser_lt m hmem) (by omega), h.nodup⟩
  | .flow i :: levels, ⟨hi, h⟩ =>
    List.nodup_cons.mpr ⟨fun hmem => absurd (h.flow_lt i hmem) (by omega), h.nodup⟩

/-- The lists of the firmware hold the parameters of the scopes and no others. -/
structure Refines (s : Params V) (a : Scopes V) : Prop where
  context : s.callContext = s.callLevels.head?
  ordered : Ordered s.callLevels
  params : Keyed.Layered (fun id => 30 < id) 0 none s.contexts s.viewParam
    (a.scopes.map Scope.param) a.volatile
  named : Keyed.Layered (fun name => isGlobal name = true) none none s.contexts s.viewNamed
    (a.scopes.map Scope.named) a.global

namespace Refines

variable {s s' : Params V} {a : Scopes V}

omit [DecidableEq V] in
/-- The current context is the first one. -/
theorem exists_contexts (h : Refines s a) :
    ∃ cs f fs, s.contexts = s.callContext :: cs ∧ a.scopes = f :: fs := by
  have hlen := h.params.scopes.length_eq
  obtain ⟨cs, hcs⟩ : ∃ cs, s.contexts = s.callContext :: cs := by
    rw [h.context, Params.contexts]
    cases s.callLevels with
    | nil => exact ⟨[], rfl⟩
    | cons c levels => exact ⟨levels.map some ++ [none], rfl⟩
  rw [hcs] at hlen
  cases hs : a.scopes with
  | nil =>
    rw [hs] at hlen
    cases hlen
  | cons f fs => exact ⟨cs, f, fs, hcs, rfl⟩

omit [DecidableEq V] in
theorem read_param (h : Refines s a) {id : ℕ} :
    s.viewParam (s.paramContext id) id = a.getParam id := by
  obtain ⟨cs, f, fs, hcs, ha⟩ := h.exists_contexts
  have hp := h.params
  rw [hcs, ha] at hp
  rw [Params.paramContext, Scopes.getParam, ha]
  split_ifs with hid
  · exact hp.common id hid
  · exact hp.head hid

omit [DecidableEq V] in
theorem read_named (h : Refines s a) {name : Name} :
    s.viewNamed (s.nameContext name) name = a.getNamed name := by
  obtain ⟨cs, f, fs, hcs, ha⟩ := h.exists_contexts
  have hn := h.named
  rw [hcs, ha] at hn
  rw [Params.nameContext, Scopes.getNamed, ha]
  split_ifs with hg
  · exact hn.common name hg
  · exact hn.head hg

end Refines

/-- What writing a numbered parameter does. -/
theorem ngcParamSet_spec (s : Params V) {id : ℕ} (value : V) (hid : 0 < id ∧ id < 5061) :
    ∃ rwParams, (s.ngcParamSet id value).2 = { s with rwParams := rwParams } ∧
      (Keyed.read (s.paramContext id, id) rwParams).getD 0 = value ∧
      ∀ key, key ≠ (s.paramContext id, id) → Keyed.read key rwParams = Keyed.read key s.rwParams := by
  simp only [Params.ngcParamSet]
  rw [if_pos hid]
  split_ifs with hzero
  · refine ⟨s.rwParams, rfl, ?_, fun _ _ => rfl⟩
    rw [Option.isNone_iff_eq_none.mp hzero.1, hzero.2]
    rfl
  · refine ⟨_, rfl, ?_, fun key hkey => Keyed.read_write_of_ne hkey⟩
    rw [Keyed.read_write_self]
    rfl

omit [Zero V] [DecidableEq V] in
/-- What writing a named parameter does. -/
theorem ngcNamedParamSet_spec (s : Params V) {name : Name} (value : V)
    (hw : Scopes.Writable (nameTolower name)) :
    (s.ngcNamedParamSet name value).2 =
      { s with
        rwGlobalParams := Keyed.write (s.nameContext (nameTolower name), nameTolower name) value
          s.rwGlobalParams } := by
  obtain ⟨hb, hro, hlen⟩ := hw
  simp only [Params.ngcNamedParamSet]
  rw [if_neg (Bool.eq_false_iff.mp hb), if_neg hro, if_pos hlen]

omit [Zero V] [DecidableEq V] in
theorem ngcNamedParamSet_of_not (s : Params V) {name : Name} (value : V)
    (hw : ¬ Scopes.Writable (nameTolower name)) : (s.ngcNamedParamSet name value).2 = s := by
  simp only [Params.ngcNamedParamSet]
  split_ifs with hb hro hlen
  · rfl
  · rfl
  · exact absurd ⟨Bool.eq_false_iff.mpr hb, hro, hlen⟩ hw
  · rfl

namespace Refines

variable {s : Params V} {a : Scopes V}

theorem setParam (h : Refines s a) (id : ℕ) (value : V) :
    Refines (s.ngcParamSet id value).2 (a.setParam id value) := by
  by_cases hid : 0 < id ∧ id < 5061
  · obtain ⟨rwParams, hs', hself, hother⟩ := ngcParamSet_spec s value hid
    obtain ⟨cs, f, fs, hcs, ha⟩ := h.exists_contexts
    have hview : ∀ d j, (d, j) ≠ (s.paramContext id, id) →
        (Keyed.read (d, j) rwParams).getD 0 = s.viewParam d j := by
      intro d j hne
      rw [hother (d, j) hne]
      rfl
    rw [hs', Scopes.setParam, if_pos hid]
    split_ifs with hvol
    · have hkey : s.paramContext id = none := if_pos hvol
      rw [hkey] at hself hview
      exact ⟨h.context, h.ordered, h.params.write_shared hvol hself hview, h.named⟩
    · have hkey : s.paramContext id = s.callContext := if_neg hvol
      rw [hkey] at hself hview
      have hp := h.params
      have hn := h.named
      rw [hcs, ha] at hp hn
      have hp' := hp.write_local hvol hself hview
      rw [← hcs] at hp' hn
      refine ⟨h.context, h.ordered, ?_, ?_⟩
      · simp only [ha, List.modifyHead_cons]
        exact hp'
      · simp only [ha, List.modifyHead_cons]
        exact hn
  · rw [Params.ngcParamSet, Scopes.setParam, if_neg hid, if_neg hid]
    exact h

omit [DecidableEq V] in
theorem setNamed (h : Refines s a) (name : Name) (value : V) :
    Refines (s.ngcNamedParamSet name value).2
      (if Scopes.Writable (nameTolower name) then a.setNamed (nameTolower name) value else a) := by
  by_cases hw : Scopes.Writable (nameTolower name)
  · rw [if_pos hw, ngcNamedParamSet_spec s value hw, Scopes.setNamed]
    generalize nameTolower name = name
    obtain ⟨cs, f, fs, hcs, ha⟩ := h.exists_contexts
    have hself : Keyed.read (s.nameContext name, name)
        (Keyed.write (s.nameContext name, name) value s.rwGlobalParams) = some value :=
      Keyed.read_write_self
    have hview : ∀ d j, (d, j) ≠ (s.nameContext name, name) →
        Keyed.read (d, j) (Keyed.write (s.nameContext name, name) value s.rwGlobalParams) =
          s.viewNamed d j :=
      fun d j hne => Keyed.read_write_of_ne hne
    split_ifs with hg
    · have hkey : s.nameContext name = none := if_pos hg
      rw [hkey] at hself hview ⊢
      exact ⟨h.context, h.ordered, h.params, h.named.write_shared hg hself hview⟩
    · have hkey : s.nameContext name = s.callContext := if_neg hg
      rw [hkey] at hself hview ⊢
      have hp := h.params
      have hn := h.named
      rw [hcs, ha] at hp hn
      have hn' := hn.write_local hg hself hview
      rw [← hcs] at hp hn'
      refine ⟨h.context, h.ordered, ?_, ?_⟩
      · simp only [ha, List.modifyHead_cons]
        exact hp
      · simp only [ha, List.modifyHead_cons]
        exact hn'
  · rw [if_neg hw, ngcNamedParamSet_of_not s value hw]
    exact h

omit [DecidableEq V] in
/-- An accepted call opens a scope. -/
theorem push (h : Refines s a) {c : Context} (hc : Ordered (c :: s.callLevels)) :
    Refines { s with callLevels := c :: s.callLevels, callContext := some c }
      { a with scopes := .fresh :: a.scopes } := by
  have hfresh : some c ∉ s.contexts := by
    rw [Params.contexts, List.mem_append, not_or]
    constructor
    · rw [List.mem_map_of_injective fun _ _ heq => Option.some.inj heq]
      exact (List.nodup_cons.mp hc.nodup).1
    · simp
  exact ⟨rfl, hc, h.params.push hfresh, h.named.push hfresh⟩

omit [DecidableEq V] in
theorem pop (h : Refines s a) :
    Refines s.ngcCallPop (if 1 < a.scopes.length then { a with scopes := a.scopes.tail } else a) := by
  obtain ⟨cs, f, fs, hcs, ha⟩ := h.exists_contexts
  have hlen := h.params.scopes.length_eq
  cases hl : s.callLevels with
  | nil =>
    have hpop : s.ngcCallPop = s := by rw [Params.ngcCallPop, hl]
    rw [Params.contexts, hl, List.length_map] at hlen
    rw [hpop, if_neg (by rw [← hlen]; exact Nat.lt_irrefl 1)]
    exact h
  | cons c levels =>
    have hc : s.callContext = some c := by rw [h.context, hl]; rfl
    have hcontexts : s.contexts = some c :: (levels.map some ++ [none]) := by
      rw [Params.contexts, hl]
      rfl
    have hpop : s.ngcCallPop =
        { callLevels := levels
          callContext := levels.head?
          rwParams := Keyed.remove (fun key => key.1 = some c) s.rwParams
          rwGlobalParams := Keyed.remove (fun key => key.1 = some c) s.rwGlobalParams } := by
      rw [Params.ngcCallPop, hl, hc]
    have hlong : 1 < a.scopes.length := by
      rw [hcontexts, List.length_map, List.length_cons, List.length_append] at hlen
      rw [← hlen]
      simp
    have hord : Ordered levels := by
      have := h.ordered
      rw [hl] at this
      cases c <;> exact this.2
    have hp := h.params
    have hn := h.named
    rw [hcontexts, ha] at hp hn
    have hmain : none ∈ levels.map some ++ [none] :=
      List.mem_append_right _ (List.mem_singleton_self none)
    rw [hpop, if_pos hlong, ha]
    refine ⟨rfl, hord, hp.pop hmain (fun i => ?_) fun d hd i => ?_,
      hn.pop hmain (fun i => ?_) fun d hd i => ?_⟩
    · rw [Params.viewParam, Keyed.read_remove_of_pos (k := (some c, i)) (decide_eq_true rfl)]
      rfl
    · rw [Params.viewParam, Keyed.read_remove_of_neg (k := (d, i)) (decide_eq_false hd)]
      rfl
    · rw [Params.viewNamed, Keyed.read_remove_of_pos (k := (some c, i)) (decide_eq_true rfl)]
    · rw [Params.viewNamed, Keyed.read_remove_of_neg (k := (d, i)) (decide_eq_false hd)]
      rfl

omit [DecidableEq V] in
theorem ordered_callMacro (h : Refines s a) : Ordered (.parser s.ngcCallLevel :: s.callLevels) :=
  ⟨rfl, h.ordered⟩

omit [DecidableEq V] in
theorem exec_callPush (h : Refines s a) {c : Context} (hc : Ordered (c :: s.callLevels)) :
    let s' := (s.ngcCallPush c).2
    Refines s' (a.exec .callMacro (s.ngcCallLevel < s'.ngcCallLevel)) := by
  intro s'
  by_cases hl : s.ngcCallLevel < maxCallLevel
  · have hs' : s' = { s with callLevels := c :: s.callLevels, callContext := some c } := by
      simp only [s', Params.ngcCallPush]
      rw [if_pos hl]
    have hlt : s.ngcCallLevel < s'.ngcCallLevel := by
      rw [hs']
      exact Nat.lt_succ_self s.callLevels.length
    rw [Scopes.exec, if_pos (decide_eq_true hlt), hs']
    exact h.push hc
  · have hs' : s' = s := by
      simp only [s', Params.ngcCallPush]
      rw [if_neg hl]
    rw [hs', Scopes.exec, if_neg (by simp)]
    exact h

/-- Every operation of the firmware is one of the scopes. -/
theorem exec (h : Refines s a) (op : ParamOp V) :
    Refines (s.exec op) (a.exec op (s.ngcCallLevel < (s.exec op).ngcCallLevel)) := by
  cases op with
  | set id value => exact h.setParam id value
  | setNamed name value => exact h.setNamed name value
  | callMacro => exact h.exec_callPush h.ordered_callMacro
  | callSub opened =>
    by_cases hidx : Params.flowInUse s.callLevels + opened < stackDepth
    · have hord : Ordered (.flow (Params.flowInUse s.callLevels + opened) :: s.callLevels) :=
        ⟨Nat.le_add_right _ _, h.ordered⟩
      simp only [Params.exec, if_pos hidx]
      exact h.exec_callPush hord
    · simp only [Params.exec, if_neg hidx]
      rw [Scopes.exec, if_neg (by simp)]
      exact h
  | pop => exact h.pop

omit [DecidableEq V] in
theorem initial : Refines ({} : Params V) .initial where
  context := rfl
  ordered := trivial
  params := ⟨List.nodup_singleton none, List.mem_singleton_self none,
    .cons (fun _ _ => rfl) .nil, fun _ _ => rfl, fun _ _ _ => rfl⟩
  named := ⟨List.nodup_singleton none, List.mem_singleton_self none,
    .cons (fun _ _ => rfl) .nil, fun _ _ => rfl, fun _ _ _ => rfl⟩

omit [DecidableEq V] in
theorem length_scopes (h : Refines s a) : a.scopes.length = s.ngcCallLevel + 1 := by
  have hlen := h.params.scopes.length_eq
  rw [List.length_map, Params.contexts, List.length_append, List.length_map] at hlen
  exact hlen.symm

end Refines

/-- The scopes beside a run of the firmware's operations. -/
def lockstep (ops : List (ParamOp V)) : Params V × Scopes V :=
  ops.foldl (fun x op =>
    (x.1.exec op, x.2.exec op (x.1.ngcCallLevel < (x.1.exec op).ngcCallLevel))) ({}, .initial)

/-- The scopes after a run of the firmware's operations. -/
def scopesOf (ops : List (ParamOp V)) : Scopes V := (lockstep ops).2

theorem lockstep_fst (ops : List (ParamOp V)) : (lockstep ops).1 = Params.run ops := by
  induction ops using List.reverseRecOn with
  | nil => rfl
  | append_singleton ops op ih =>
    rw [lockstep, Params.run, List.foldl_concat, List.foldl_concat]
    exact congrArg (Params.exec · op) ih

theorem scopesOf_concat (ops : List (ParamOp V)) (op : ParamOp V) :
    scopesOf (ops ++ [op]) = (scopesOf ops).exec op
      ((Params.run ops).ngcCallLevel < ((Params.run ops).exec op).ngcCallLevel) := by
  rw [← lockstep_fst, scopesOf, lockstep, List.foldl_concat]
  rfl

theorem run_concat (ops : List (ParamOp V)) (op : ParamOp V) :
    Params.run (ops ++ [op]) = (Params.run ops).exec op := List.foldl_concat ..

theorem refines_run (ops : List (ParamOp V)) : Refines (Params.run ops) (scopesOf ops) := by
  induction ops using List.reverseRecOn with
  | nil => exact Refines.initial
  | append_singleton ops op ih =>
    rw [scopesOf_concat, run_concat]
    exact ih.exec op

omit [DecidableEq V] in
/-- An operation leaves the scopes below the innermost one alone. -/
theorem Scopes.exec_suffix {fs : List (Scope V)} {a : Scopes V} (h : fs <:+ a.scopes)
    (hlen : fs.length < a.scopes.length) (op : ParamOp V) (accepted : Bool) :
    fs <:+ (a.exec op accepted).scopes := by
  obtain ⟨f, gs, ha⟩ := List.exists_cons_of_length_pos (Nat.zero_lt_of_lt hlen)
  rw [ha] at h hlen
  have hgs : fs <:+ gs := by
    rcases List.suffix_cons_iff.mp h with rfl | hgs
    · exact absurd hlen (Nat.lt_irrefl _)
    · exact hgs
  cases op with
  | set id value =>
    simp only [Scopes.exec, Scopes.setParam]
    split_ifs
    · rwa [ha]
    · simp only [ha, List.modifyHead_cons]
      exact hgs.trans (List.suffix_cons _ _)
    · rwa [ha]
  | setNamed name value =>
    simp only [Scopes.exec, Scopes.setNamed]
    split_ifs
    · rwa [ha]
    · simp only [ha, List.modifyHead_cons]
      exact hgs.trans (List.suffix_cons _ _)
    · rwa [ha]
  | callMacro | callSub =>
    simp only [Scopes.exec]
    split_ifs
    · rw [ha]
      exact h.trans (List.suffix_cons _ _)
    · rwa [ha]
  | pop =>
    simp only [Scopes.exec]
    split_ifs
    · rwa [ha]
    · rwa [ha]

/-- While a call is active, the scopes of its callers are as they were. -/
theorem scopesOf_body (ops : List (ParamOp V)) (call : ParamOp V) (body : List (ParamOp V))
    (hcall : ∀ p, p <+: body →
      (Params.run ops).ngcCallLevel < (Params.run (ops ++ call :: p)).ngcCallLevel)
    (hopens : (scopesOf ops).scopes <:+ (scopesOf (ops ++ [call])).scopes) :
    (scopesOf ops).scopes <:+ (scopesOf (ops ++ call :: body)).scopes := by
  induction body using List.reverseRecOn with
  | nil => exact hopens
  | append_singleton body op ih =>
    have hbody := ih fun p hp => hcall p (hp.trans (List.prefix_append body [op]))
    have hlevel := hcall body (List.prefix_append body [op])
    have heq : ops ++ call :: (body ++ [op]) = (ops ++ call :: body) ++ [op] := by simp
    rw [heq, scopesOf_concat]
    apply Scopes.exec_suffix hbody
    rw [(refines_run ops).length_scopes, (refines_run _).length_scopes]
    exact Nat.succ_lt_succ hlevel

theorem param_run (ro : ReadOnly V) (ops : List (ParamOp V)) (id : ℕ) :
    (Params.run ops).ngcParamGet ro id = (scopesOf ops).readParam ro id := by
  rw [Scopes.readParam, ← (refines_run ops).read_param]
  rfl

theorem named_run (ro : ReadOnly V) (ops : List (ParamOp V)) (name : Name) :
    (Params.run ops).ngcNamedParamGet ro name =
      (scopesOf ops).readNamed ro (nameTolower name) := by
  rw [Scopes.readNamed, ← (refines_run ops).read_named]
  rfl

/-- A call and the operations until it returns: the level stays above that of the caller, and the
operation behind them pops the last level above it. -/
structure Returns (ops : List (ParamOp V)) (call : ParamOp V) (body : List (ParamOp V)) : Prop where
  opens : call = .callMacro ∨ ∃ opened, call = .callSub opened
  above : ∀ p, p <+: body →
    (Params.run ops).ngcCallLevel < (Params.run (ops ++ call :: p)).ngcCallLevel
  closes : (Params.run (ops ++ call :: body)).ngcCallLevel = (Params.run ops).ngcCallLevel + 1

theorem scopesOf_returns {ops : List (ParamOp V)} {call : ParamOp V} {body : List (ParamOp V)}
    (h : Returns ops call body) :
    scopesOf (ops ++ call :: body ++ [.pop]) =
      { scopesOf (ops ++ call :: body) with scopes := (scopesOf ops).scopes } := by
  have hopens : (scopesOf ops).scopes <:+ (scopesOf (ops ++ [call])).scopes := by
    rw [scopesOf_concat]
    rcases h.opens with rfl | ⟨opened, rfl⟩
    all_goals
      simp only [Scopes.exec]
      split_ifs
      · exact List.suffix_cons _ _
      · exact List.suffix_refl _
  have hbody := scopesOf_body ops call body h.above hopens
  have hlen := (refines_run (ops ++ call :: body)).length_scopes
  have hlen' := (refines_run ops).length_scopes
  rw [h.closes, ← hlen'] at hlen
  have hpos : 0 < (scopesOf (ops ++ call :: body)).scopes.length := by omega
  obtain ⟨f, fs, hfs⟩ := List.exists_cons_of_length_pos hpos
  have heq : (scopesOf ops).scopes = fs := by
    rw [hfs] at hbody hlen
    rcases List.suffix_cons_iff.mp hbody with hself | hbody
    · rw [hself] at hlen
      exact absurd hlen.symm (Nat.succ_ne_self _)
    · exact hbody.eq_of_length (Nat.succ.inj hlen).symm
  rw [scopesOf_concat, Scopes.exec, if_pos (by rw [hlen, hlen']; omega), heq]
  simp only [hfs, List.tail_cons]

/-- After every run of writes, calls and pops, the numbered and the named parameters are read as
the scopes have them: a local one as last written at the same call level, a shared one as last
written at any level. When a call returns, the caller's local parameters are read as before the
call, and the shared ones as they were left. -/
theorem params_scoped (ro : ReadOnly V) (ops : List (ParamOp V)) :
    (∀ id, (Params.run ops).ngcParamGet ro id = (scopesOf ops).readParam ro id) ∧
    (∀ name, (Params.run ops).ngcNamedParamGet ro name =
      (scopesOf ops).readNamed ro (nameTolower name)) ∧
    (∀ call body, Returns ops call body →
      (∀ id, (Params.run (ops ++ call :: body)).ngcCallPop.ngcParamGet ro id =
        if 30 < id then (Params.run (ops ++ call :: body)).ngcParamGet ro id
        else (Params.run ops).ngcParamGet ro id) ∧
      (∀ name, (Params.run (ops ++ call :: body)).ngcCallPop.ngcNamedParamGet ro name =
        if isGlobal (nameTolower name) then
          (Params.run (ops ++ call :: body)).ngcNamedParamGet ro name
        else (Params.run ops).ngcNamedParamGet ro name)) := by
  refine ⟨param_run ro ops, named_run ro ops, ?_⟩
  intro call body h
  have hafter : (Params.run (ops ++ call :: body)).ngcCallPop =
      Params.run (ops ++ call :: body ++ [.pop]) := (run_concat _ .pop).symm
  have hscopes := scopesOf_returns h
  rw [hafter]
  constructor
  · intro id
    rw [param_run, param_run, param_run, hscopes]
    simp only [Scopes.readParam, Scopes.getParam]
    by_cases hid : 30 < id
    · simp only [if_pos hid]
    · simp only [if_neg hid]
  · intro name
    rw [named_run, named_run, named_run, hscopes]
    simp only [Scopes.readNamed, Scopes.getNamed]
    by_cases hname : isGlobal (nameTolower name) = true
    · simp only [if_pos hname]
    · simp only [if_neg hname]

/-- A macro writes a parameter of its caller's number, and the caller finds its own value. -/
theorem params_scoped_macro :
    (Params.run ([.set 5 7] ++ .callMacro :: [.set 5 9])).ngcCallPop.ngcParamGet ⟨id, fun _ => 0⟩ 5 =
      (true, 7) := by
  have hreturns : Returns [.set 5 7] .callMacro [.set 5 9] := by
    refine ⟨.inl rfl, ?_, rfl⟩
    intro p hp
    rcases List.prefix_cons_iff.mp hp with rfl | ⟨q, rfl, hq⟩
    · decide
    · rw [List.prefix_nil.mp hq]
      decide
  have h := ((params_scoped ⟨id, fun _ => 0⟩ [.set 5 7]).2.2 .callMacro [.set 5 9] hreturns).1 5
  exact h.trans (by decide)

end Ngc

end Inspector
