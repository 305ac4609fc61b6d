import Inspector.Macros.Machine

/-! # How often a macro is executed

The passes of a body are defined on their own, by recursion on the free entries of the macro stack
and on the blocks of the body. The machine makes them as often as the narrowed `L` word tells it,
and the entries below that of the call stay as they are.
-/

namespace Inspector

namespace Macros

open Offsets Transition

variable {K A : Type*}

section Passes

/-- What a call executes: an inbuilt macro, or a file from a position on. -/
inductive Body (K A : Type*)
  | inbuilt
  | code (file : ℕ) (code : List (Block K A)) (pos : ℕ)

/-- How often `end_macro` lets a body be read that was pushed with a number of repeats. -/
def readings (repeats : ℕ) : ℕ := if repeats = 0 then 2 ^ 32 else repeats

/-- How often a body is executed. -/
def Body.executions : Body K A → ℕ → ℕ
  | inbuilt, _ => 1
  | code _ _ _, repeats => readings repeats

/-- The levels after a call. -/
def Call.leave (call : Call) (v : Levels) : Body K A → Levels
  | .inbuilt => v.pop
  | .code _ _ _ => if call.dollar then v else v.pop

/-- The body of a call that is accepted, where a number of entries is free on the stack, in a file
with its blocks. -/
def Config.body (c : Config K A) (free file : ℕ) (code : List (Block K A)) (call : Call) :
    Option (Body K A) :=
  if 1 ≤ call.id ∧ call.id ≤ lastInbuilt then
    if 1 < call.repeats ∨ c.inbuilt call.id = false then none else some .inbuilt
  else if call.id < 100 ∨ free = 0 then none
  else if call.dollar ∧ c.macroPos file call.id ≠ 0 then
    some (.code file code (c.macroPos file call.id))
  else (c.fileMacro call.id).map fun code => .code (file + 1) code 0

/-- What calls do in a file with its blocks: their output, and the levels after them. -/
abbrev Effect (K A : Type*) :=
  ℕ → List (Block K A) → Call → Levels → Option (List (Event A) × Levels)

variable [Field K] [LinearOrder K] [FloorRing K]

/-- What a motion does. -/
def motionEffect (f : Call → Levels → Option (List (Event A) × Levels)) (a : A) (v : Levels) :
    Option (List (Event A) × Levels) :=
  match v.modalCall with
  | some call => (f call v).map fun (out, v) => (.block a :: out, v)
  | none => some ([.block a], v)

/-- What a block other than `M99` does. -/
def blockEffect (c : Config K A) (f : Call → Levels → Option (List (Event A) × Levels))
    (v : Levels) : Block K A → Option (List (Event A) × Levels)
  | .other a => some ([.block a], v)
  | .motion a => motionEffect f a v
  | .g65 w => (readCall c .nonModal v w).bind fun call => f call v
  | .g66 w => (readCall c .modal v w).map fun call => ([], v.activate call)
  | .g67 => some ([], v.cancel)
  | .m98 none w => (readCall c .nonModal98 v w).bind fun call => f call v
  | .m98 (some a) w => (readCall c .nonModal98 v w).bind fun _ => motionEffect f a v
  | .m99 => none

/-- What blocks do up to an `M99`, or up to the end of a file that is not the program. -/
def blocksEffect (c : Config K A) (f : Call → Levels → Option (List (Event A) × Levels))
    (file : ℕ) : List (Block K A) → Levels → Option (List (Event A) × Levels)
  | [], v => if 1 < file then some ([], v) else none
  | .m99 :: _, v => some ([], v)
  | block :: rest, v =>
    (blockEffect c f v block).bind fun (out, v) =>
      (blocksEffect c f file rest v).map fun (out', v) => (out ++ out', v)

/-- One pass of a body. -/
def passWith (c : Config K A) (f : Effect K A) : Body K A → Levels →
    Option (List (Event A) × Levels)
  | .inbuilt, v => some ([], v)
  | .code file code pos, v => blocksEffect c (f file code) file (code.drop pos) v

/-- A call makes the passes of its body one after the other, and returns. -/
def callWith (c : Config K A) (f : Effect K A) (free : ℕ) : Effect K A :=
  fun file code call v =>
    (call.enter v).bind fun v => (c.body free file code call).bind fun body =>
    (passes (passWith c f body) (body.executions call.repeats) v).map fun (outs, v) =>
      (marked (.begin call.call call.id) (.return call.call call.id) outs, call.leave v body)

/-- What calls do where a number of entries is free on the stack. -/
def callEffect (c : Config K A) : ℕ → Effect K A
  | 0 => callWith c (fun _ _ _ _ => none) 0
  | free + 1 => callWith c (callEffect c free) (free + 1)

/-- The calls in the body of a call. -/
def innerEffect (c : Config K A) : ℕ → Effect K A
  | 0 => fun _ _ _ _ => none
  | free + 1 => callEffect c free

/-- One pass of the body of a call. -/
def Config.pass (c : Config K A) (free : ℕ) (body : Body K A) :
    Levels → Option (List (Event A) × Levels) :=
  passWith c (innerEffect c free) body

theorem callEffect_eq (c : Config K A) (free : ℕ) :
    callEffect c free = callWith c (innerEffect c free) free := by
  cases free <;> rfl

end Passes

section Machine

variable {c : Config K A} {M : List Entry} {S : List (Stream K A)} {code : List (Block K A)}
  {v v' : Levels} {pos : ℕ} {call : Call} {out : List (Event A)}

/-- Where the reading goes on after a macro. -/
def Entry.returned (e : Entry) (M : List Entry) (v : Levels) (code : List (Block K A))
    (S : List (Stream K A)) : State K A :=
  ⟨M, if e.parameterStack then v.pop else v,
    if e.posReturn = 0 then S else ⟨code, e.posReturn⟩ :: S⟩

theorem endMacro_again {e : Entry} (hfile : e.file = S.length + 1)
    (h : decrement e.repeats ≠ 0) :
    (endMacro ⟨e :: M, v, ⟨code, pos⟩ :: S⟩ : State K A × List (Event A)) =
      (⟨{ e with repeats := decrement e.repeats } :: M, v, ⟨code, e.pos⟩ :: S⟩,
        [.begin e.call e.id]) := by
  simp [endMacro, h, State.streamReposition, hfile]

theorem endMacro_last {e : Entry} (hfile : e.file = S.length + 1) (h : decrement e.repeats = 0) :
    (endMacro ⟨e :: M, v, ⟨code, pos⟩ :: S⟩ : State K A × List (Event A)) =
      (e.returned M v code S, [.return e.call e.id]) := by
  by_cases hpos : e.posReturn = 0 <;>
    simp [endMacro, h, State.streamReposition, State.streamRedirectClose, hfile, hpos,
      Entry.returned]

/-- A body that is accepted is begun. -/
theorem onMacroExecute_of_body {free : ℕ} {body : Body K A}
    (hfree : free = macroStackDepth - M.length) (hpos : pos ≠ 0)
    (h : c.body free (S.length + 1) code call = some body) :
    (body = .inbuilt ∧ onMacroExecute c ⟨M, v, ⟨code, pos⟩ :: S⟩ call =
      some (⟨M, v.pop, ⟨code, pos⟩ :: S⟩,
        [.begin call.call call.id, .return call.call call.id])) ∨
    ∃ (e : Entry) (S' : List (Stream K A)) (code' : List (Block K A)), free ≠ 0 ∧
      body = .code (S'.length + 1) code' e.pos ∧ e.file = S'.length + 1 ∧
      e.call = call.call ∧ e.id = call.id ∧ e.repeats = call.repeats ∧
      onMacroExecute c ⟨M, v, ⟨code, pos⟩ :: S⟩ call =
        some (⟨e :: M, v, ⟨code', e.pos⟩ :: S'⟩, [.begin call.call call.id]) ∧
      ∀ v', e.returned M v' code' S' = ⟨M, call.leave v' body, ⟨code, pos⟩ :: S⟩ := by
  unfold Config.body at h
  split_ifs at h with hin hno hfull hsub
  · left
    obtain rfl := Option.some.inj h
    exact ⟨rfl, by simp only [onMacroExecute, if_pos hin, if_neg hno]⟩
  · right
    obtain ⟨hid, hfree0⟩ := not_or.mp hfull
    have hdepth : ¬ macroStackDepth ≤ M.length := by omega
    refine ⟨⟨call.call, call.id, call.repeats, S.length + 1, c.macroPos (S.length + 1) call.id,
      pos, false⟩, S, code, hfree0, (Option.some.inj h).symm, rfl, rfl, rfl, rfl, ?_, ?_⟩
    · simp only [onMacroExecute, if_neg hin, if_pos (not_lt.mp hid), macroExecute,
        List.length_cons, if_neg hdepth, if_pos hsub]
      simp [State.streamReposition]
    · intro v'
      simp [Entry.returned, hpos, Call.leave, ← Option.some.inj h, hsub.1]
  · right
    obtain ⟨hid, hfree0⟩ := not_or.mp hfull
    have hdepth : ¬ macroStackDepth ≤ M.length := by omega
    obtain ⟨code', hcode, rfl⟩ := Option.map_eq_some_iff.mp h
    refine ⟨⟨call.call, call.id, call.repeats, S.length + 1 + 1, 0, 0, !call.dollar⟩,
      ⟨code, pos⟩ :: S, code', hfree0, rfl, rfl, rfl, rfl, rfl, ?_, ?_⟩
    · simp only [onMacroExecute, if_neg hin, if_pos (not_lt.mp hid), macroExecute,
        List.length_cons, if_neg hdepth, if_neg hsub, hcode, Option.map_some]
    · intro v'
      cases hdollar : call.dollar <;> simp [Entry.returned, Call.leave, hdollar]

variable [Field K] [LinearOrder K] [FloorRing K]

/-- A call is begun, and the run goes on to its return. -/
def Performs (c : Config K A) (s : State K A) (call : Call) (out : List (Event A))
    (s' : State K A) : Prop :=
  ∃ s₁ out₁ out₂, macroCall c s call = some (s₁, out₁) ∧ out₁ ++ out₂ = out ∧
    Leads (step c) s₁ out₂ s'

theorem step_block {block : Block K A} (h : code[pos]? = some block) :
    step c ⟨M, v, ⟨code, pos⟩ :: S⟩ = gcExecuteBlock c ⟨M, v, ⟨code, pos + 1⟩ :: S⟩ block := by
  simp only [step, h]

theorem Performs.leads {s s₁ s' : State K A} (h : Performs c s₁ call out s')
    (pre : List (Event A))
    (hstep : step c s = (macroCall c s₁ call).map fun (s₂, out) => (s₂, pre ++ out)) :
    Leads (step c) s (pre ++ out) s' := by
  obtain ⟨s₂, out₁, out₂, hcall, rfl, hrun⟩ := h
  rw [hcall, Option.map_some] at hstep
  rw [← List.append_assoc]
  exact .cons hstep hrun

/-- A motion does what is said of it. -/
theorem motion_leads {f : Call → Levels → Option (List (Event A) × Levels)} {a : A}
    {s : State K A}
    (hf : ∀ call v out v', f call v = some (out, v') →
      Performs c ⟨M, v, ⟨code, pos⟩ :: S⟩ call out ⟨M, v', ⟨code, pos⟩ :: S⟩)
    (hstep : step c s = executeMotion c ⟨M, v, ⟨code, pos⟩ :: S⟩ a)
    (h : motionEffect f a v = some (out, v')) :
    Leads (step c) s out ⟨M, v', ⟨code, pos⟩ :: S⟩ := by
  unfold motionEffect at h
  unfold executeMotion at hstep
  cases hmodal : v.modalCall with
  | none =>
    simp only [hmodal] at h hstep
    obtain ⟨rfl, rfl⟩ := Prod.mk.inj (Option.some.inj h)
    exact .single hstep
  | some call =>
    simp only [hmodal] at h hstep
    obtain ⟨⟨out', v''⟩, hcall, heq⟩ := Option.map_eq_some_iff.mp h
    obtain ⟨rfl, rfl⟩ := Prod.mk.inj heq
    exact (hf call v out' v'' hcall).leads [.block a] hstep

/-- A block does what is said of it. -/
theorem block_leads {f : Call → Levels → Option (List (Event A) × Levels)} {block : Block K A}
    (hf : ∀ call v out v', f call v = some (out, v') →
      Performs c ⟨M, v, ⟨code, pos + 1⟩ :: S⟩ call out ⟨M, v', ⟨code, pos + 1⟩ :: S⟩)
    (hblock : code[pos]? = some block) (h : blockEffect c f v block = some (out, v')) :
    Leads (step c) ⟨M, v, ⟨code, pos⟩ :: S⟩ out ⟨M, v', ⟨code, pos + 1⟩ :: S⟩ := by
  have hstep := step_block (c := c) (M := M) (S := S) (v := v) hblock
  cases block with
  | other a =>
    obtain ⟨rfl, rfl⟩ := Prod.mk.inj (Option.some.inj h)
    exact .single hstep
  | motion a => exact motion_leads hf hstep h
  | g65 w =>
    obtain ⟨call, hread, hcall⟩ := Option.bind_eq_some_iff.mp h
    refine (hf call v out v' hcall).leads [] ?_
    simp [hstep, gcExecuteBlock, hread]
  | g66 w =>
    obtain ⟨call, hread, heq⟩ := Option.map_eq_some_iff.mp h
    obtain ⟨rfl, rfl⟩ := Prod.mk.inj heq
    refine .single ?_
    simp [hstep, gcExecuteBlock, hread]
  | g67 =>
    obtain ⟨rfl, rfl⟩ := Prod.mk.inj (Option.some.inj h)
    exact .single hstep
  | m98 motion w =>
    cases motion with
    | none =>
      obtain ⟨call, hread, hcall⟩ := Option.bind_eq_some_iff.mp h
      refine (hf call v out v' hcall).leads [] ?_
      simp [hstep, gcExecuteBlock, hread]
    | some a =>
      obtain ⟨call, hread, hmotion⟩ := Option.bind_eq_some_iff.mp h
      refine motion_leads hf ?_ hmotion
      simp [hstep, gcExecuteBlock, hread]
  | m99 => cases h

/-- A state at the end of the body of a macro. -/
def AtEnd (code : List (Block K A)) (pos : ℕ) (S : List (Stream K A)) : Prop :=
  code[pos]? = some .m99 ∨ code[pos]? = none ∧ S ≠ []

/-- Blocks do what is said of them. -/
theorem blocks_leads {f : Call → Levels → Option (List (Event A) × Levels)}
    (hf : ∀ pos call v out v', pos ≠ 0 → f call v = some (out, v') →
      Performs c ⟨M, v, ⟨code, pos⟩ :: S⟩ call out ⟨M, v', ⟨code, pos⟩ :: S⟩)
    {rest : List (Block K A)} (hrest : code.drop pos = rest)
    (h : blocksEffect c f (S.length + 1) rest v = some (out, v')) :
    ∃ pos', Leads (step c) ⟨M, v, ⟨code, pos⟩ :: S⟩ out ⟨M, v', ⟨code, pos'⟩ :: S⟩ ∧
      AtEnd code pos' S := by
  induction rest generalizing pos v out with
  | nil =>
    simp only [blocksEffect] at h
    split_ifs at h with hfile
    obtain ⟨rfl, rfl⟩ := Prod.mk.inj (Option.some.inj h)
    have hnone : code[pos]? = none := List.getElem?_eq_none (List.drop_eq_nil_iff.mp hrest)
    exact ⟨pos, .refl _, .inr ⟨hnone, by rintro rfl; simp at hfile⟩⟩
  | cons block rest ih =>
    have hblock : code[pos]? = some block := by
      rw [← List.head?_drop, hrest, List.head?_cons]
    have hrest' : code.drop (pos + 1) = rest := by
      rw [← List.tail_drop, hrest, List.tail_cons]
    by_cases hm99 : block = .m99
    · subst hm99
      obtain ⟨rfl, rfl⟩ := Prod.mk.inj (Option.some.inj h)
      exact ⟨pos, .refl _, .inl hblock⟩
    · have hcons : blocksEffect c f (S.length + 1) (block :: rest) v =
          (blockEffect c f v block).bind fun (out, v) =>
            (blocksEffect c f (S.length + 1) rest v).map fun (out', v) => (out ++ out', v) := by
        cases block <;> first | rfl | exact absurd rfl hm99
      rw [hcons] at h
      obtain ⟨⟨out₁, v₁⟩, heffect, hmap⟩ := Option.bind_eq_some_iff.mp h
      obtain ⟨⟨out₂, v₂⟩, heffects, heq⟩ := Option.map_eq_some_iff.mp hmap
      obtain ⟨rfl, rfl⟩ := Prod.mk.inj heq
      obtain ⟨pos', hrun, hend⟩ := ih hrest' heffects
      have hfirst := block_leads (fun call v out v' => hf (pos + 1) call v out v' (by omega))
        hblock heffect
      exact ⟨pos', hfirst.trans hrun, hend⟩

/-- At the end of a body the macro ends. -/
theorem step_atEnd {e : Entry} (hfile : e.file = S.length + 1) (h : AtEnd code pos S) :
    ∃ pos', step c ⟨e :: M, v, ⟨code, pos⟩ :: S⟩ =
      some (endMacro ⟨e :: M, v, ⟨code, pos'⟩ :: S⟩) := by
  rcases h with hm99 | ⟨hnone, hS⟩
  · exact ⟨pos + 1, by simp [step_block hm99, gcExecuteBlock]⟩
  · exact ⟨pos, by simp [step, hnone, hS, hfile]⟩

theorem decrement_readings {repeats n : ℕ} (h : readings repeats = n + 1) :
    (n = 0 → decrement repeats = 0) ∧
      (n ≠ 0 → decrement repeats ≠ 0 ∧ readings (decrement repeats) = n) := by
  unfold readings decrement at *
  split_ifs at * <;> omega

/-- From its beginning, a body is read as often as its repeats tell. -/
theorem passes_leads {f : Effect K A} {n : ℕ} {e : Entry} {outs : List (List (Event A))}
    (hf : ∀ (e : Entry) pos call v out v', pos ≠ 0 →
      f (S.length + 1) code call v = some (out, v') →
      Performs c ⟨e :: M, v, ⟨code, pos⟩ :: S⟩ call out ⟨e :: M, v', ⟨code, pos⟩ :: S⟩)
    (hfile : e.file = S.length + 1) (hn : readings e.repeats = n + 1)
    (h : passes (passWith c f (.code (S.length + 1) code e.pos)) (n + 1) v = some (outs, v')) :
    ∃ out, marked (.begin e.call e.id) (.return e.call e.id) outs = .begin e.call e.id :: out ∧
      Leads (step c) ⟨e :: M, v, ⟨code, e.pos⟩ :: S⟩ out (e.returned M v' code S) := by
  induction n generalizing e v outs with
  | zero =>
    obtain ⟨out, v₁, outs', hpass, hrest, rfl⟩ := passes_succ h
    obtain ⟨rfl, rfl⟩ := Prod.mk.inj (Option.some.inj hrest)
    obtain ⟨pos', hrun, hend⟩ := blocks_leads (hf e) rfl hpass
    obtain ⟨pos'', hstep⟩ := step_atEnd (c := c) (M := M) (v := v₁) hfile hend
    rw [endMacro_last hfile ((decrement_readings hn).1 rfl)] at hstep
    exact ⟨_, marked_cons _ _ _ _, hrun.trans (.single hstep)⟩
  | succ n ih =>
    obtain ⟨out, v₁, outs', hpass, hrest, rfl⟩ := passes_succ h
    obtain ⟨pos', hrun, hend⟩ := blocks_leads (hf e) rfl hpass
    obtain ⟨pos'', hstep⟩ := step_atEnd (c := c) (M := M) (v := v₁) hfile hend
    obtain ⟨hne, hreadings⟩ := (decrement_readings hn).2 (by omega)
    rw [endMacro_again hfile hne] at hstep
    obtain ⟨out', hmarked, hrun'⟩ :=
      ih (e := { e with repeats := decrement e.repeats }) hfile hreadings hrest
    refine ⟨_, marked_cons _ _ _ _, hrun.trans ?_⟩
    rw [hmarked]
    exact .cons hstep hrun'

/-- A call does what is said of it when the calls in its body do. -/
theorem performs_callWith {f : Effect K A} {free : ℕ}
    (hf : free ≠ 0 → ∀ (e : Entry) (S : List (Stream K A)) code pos call v out v', pos ≠ 0 →
      f (S.length + 1) code call v = some (out, v') →
      Performs c ⟨e :: M, v, ⟨code, pos⟩ :: S⟩ call out ⟨e :: M, v', ⟨code, pos⟩ :: S⟩)
    (hfree : free = macroStackDepth - M.length) (hpos : pos ≠ 0)
    (h : callWith c f free (S.length + 1) code call v = some (out, v')) :
    Performs c ⟨M, v, ⟨code, pos⟩ :: S⟩ call out ⟨M, v', ⟨code, pos⟩ :: S⟩ := by
  obtain ⟨v₁, henter, hrest⟩ := Option.bind_eq_some_iff.mp h
  obtain ⟨body, hbody, hmap⟩ := Option.bind_eq_some_iff.mp hrest
  obtain ⟨⟨outs, v₂⟩, hpasses, heq⟩ := Option.map_eq_some_iff.mp hmap
  obtain ⟨rfl, rfl⟩ := Prod.mk.inj heq
  rcases onMacroExecute_of_body (v := v₁) hfree hpos hbody with ⟨rfl, hexecute⟩ |
    ⟨e, S', code', hne, rfl, hfile, hcall, hid, hrepeats, hexecute, hreturned⟩
  · obtain ⟨rfl, rfl⟩ := Prod.mk.inj (Option.some.inj hpasses)
    refine ⟨_, _, [], ?_, List.append_nil _, .refl _⟩
    simp only [macroCall, henter, Option.bind_some]
    exact hexecute
  · obtain ⟨n, hn⟩ : ∃ n, readings e.repeats = n + 1 :=
      Nat.exists_eq_add_one_of_ne_zero (by unfold readings; split_ifs <;> omega)
    rw [Body.executions, ← hrepeats, hn] at hpasses
    obtain ⟨out, hmarked, hrun⟩ := passes_leads
      (fun e pos call v out v' => hf hne e S' code' pos call v out v') hfile hn hpasses
    rw [hcall, hid] at hmarked
    rw [hreturned] at hrun
    refine ⟨_, [.begin call.call call.id], out, ?_, ?_, hrun⟩
    · simp only [macroCall, henter, Option.bind_some]
      exact hexecute
    · exact hmarked.symm

/-- Calls do what is said of them, however deep they are nested. -/
theorem performs_callEffect {free : ℕ} (hfree : free = macroStackDepth - M.length)
    (hpos : pos ≠ 0)
    (h : callEffect c free (S.length + 1) code call v = some (out, v')) :
    Performs c ⟨M, v, ⟨code, pos⟩ :: S⟩ call out ⟨M, v', ⟨code, pos⟩ :: S⟩ := by
  induction free generalizing M S code pos call v out v' with
  | zero => exact performs_callWith (fun h0 => absurd rfl h0) hfree hpos h
  | succ free ih =>
    refine performs_callWith (fun _ e S code pos call v out v' hpos hcall => ?_) hfree hpos h
    exact ih (by simp only [List.length_cons]; omega) hpos hcall

end Machine

end Macros

end Inspector
