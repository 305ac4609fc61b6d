import Inspector.Macros.Repeats

/-! # The programmed count

The `L` word of a call is narrowed to eight bits, so that the body is executed as often as it tells
for counts below 256, in nested calls as well, and the run goes on after the block of the call. From
256 on the body is executed less often, or a count of zero wraps around. An `M98` in the block of a
motion is not executed at all.
-/

namespace Inspector

namespace Macros

open Offsets Transition

variable {K A : Type*} [Field K] [LinearOrder K] [FloorRing K]

section Spec

/-- The block that is read next. -/
def State.next (s : State K A) : Option (Block K A) :=
  match s.streams with
  | [] => none
  | stream :: _ => stream.code[stream.pos]?

/-- The blocks of the file that is read. -/
def State.code (s : State K A) : List (Block K A) := (s.streams.head?.map Stream.code).getD []

/-- The free entries of the macro stack. -/
def State.free (s : State K A) : ℕ := macroStackDepth - s.macros.length

/-- The state where the next block is done. -/
def State.after (s : State K A) (v : Levels) : State K A :=
  { s with
    levels := v
    streams := s.streams.modify 0 fun stream => { stream with pos := stream.pos + 1 } }

/-- The words that program the call in the next block, and the levels where they were read; the call
of a motion was programmed by an earlier `G66`. -/
inductive Programmed (c : Config K A) (s : State K A) :
    Levels → Words K → List (Event A) → Call → Prop
  | g65 {w : Words K} {call : Call} (h : s.next = some (.g65 w))
      (hread : readCall c .nonModal s.levels w = some call) : Programmed c s s.levels w [] call
  | g66 {a : A} {v : Levels} {w : Words K} {call : Call} (h : s.next = some (.motion a))
      (hactive : s.levels.modalCall = some call) (hread : readCall c .modal v w = some call) :
      Programmed c s v w [.block a] call
  | m98 {w : Words K} {call : Call} (h : s.next = some (.m98 none w))
      (hread : readCall c .nonModal98 s.levels w = some call) : Programmed c s s.levels w [] call
  | m98Motion {a : A} {w : Words K} {call : Call} (h : s.next = some (.m98 (some a) w))
      (hread : readCall c .nonModal98 s.levels w = some call) :
      Programmed c s s.levels w [.block a] call

/-- A call is accepted: there is a level for it, and room on the stack for its body. -/
structure Accepted (c : Config K A) (s : State K A) (call : Call) (body : Body K A)
    (v : Levels) : Prop where
  enter : call.enter s.levels = some v
  body : c.body s.free s.streams.length s.code call = some body

/-- However often a body is executed, none of its passes fails. -/
def Completes (c : Config K A) (s : State K A) (body : Body K A) (v : Levels) : Prop :=
  ∀ n, (passes (c.pass s.free body) n v).isSome

/-- The next block begins a call, whose body is executed a number of times; then the control returns
to the next one. -/
def Repeats (c : Config K A) (s : State K A) (pre : List (Event A)) (call : Call)
    (body : Body K A) (v : Levels) (k : ℕ) : Prop :=
  ∃ outs v', passes (c.pass s.free body) k v = some (outs, v') ∧
    (∃ s' out, step c s = some (s', out) ∧ .begin call.call call.id ∈ out) ∧
    Leads (step c) s (pre ++ marked (.begin call.call call.id) (.return call.call call.id) outs)
      (s.after (call.leave v' body))

/-- The count survives: the block is not that of a motion with an `M98`, and the count fits in eight
bits. While another `G66` is active a count of zero is not replaced, and wraps around to `2 ^ 32`. -/
structure Kept (c : Config K A) (s : State K A) (v : Levels) (call : Call) (k : ℕ) : Prop where
  noMotion : ∀ a w, s.next ≠ some (.m98 (some a) w)
  count : k < 2 ^ 8 ∨ 100 ≤ call.id ∧ v.g66Args ≠ [] ∧ k = 2 ^ 32 ∧
    c.casts.toUInt32 (2 ^ 32) % 2 ^ 8 = 0

end Spec

section Begins

variable {c : Config K A} {s s' : State K A} {call : Call} {out : List (Event A)}

omit [LinearOrder K] [FloorRing K] [Field K] in
/-- A call that is made begins the macro that it names, and no other one. -/
theorem begin_mem_macroCall (h : macroCall c s call = some (s', out)) (kind : MacroCall) (id : ℕ) :
    .begin kind id ∈ out ↔ kind = call.call ∧ id = call.id := by
  have hout : out = [.begin call.call call.id] ∨
      out = [.begin call.call call.id, .return call.call call.id] := by
    obtain ⟨v, -, hexecute⟩ := Option.bind_eq_some_iff.mp h
    unfold onMacroExecute macroExecute at hexecute
    dsimp only at hexecute
    split_ifs at hexecute
    · exact .inr (Prod.mk.inj (Option.some.inj hexecute)).2.symm
    · exact .inl (Prod.mk.inj (Option.some.inj hexecute)).2.symm
    · obtain ⟨code, -, heq⟩ := Option.map_eq_some_iff.mp hexecute
      exact .inl (Prod.mk.inj heq).2.symm
  rcases hout with rfl | rfl <;> simp

omit [LinearOrder K] [FloorRing K] [Field K] in
/-- A motion begins no `M98`. -/
theorem begin_notMem_executeMotion {a : A} (h : executeMotion c s a = some (s', out)) (id : ℕ) :
    .begin .nonModal98 id ∉ out := by
  unfold executeMotion at h
  cases hmodal : s.levels.modalCall with
  | none =>
    simp only [hmodal] at h
    obtain ⟨-, rfl⟩ := Prod.mk.inj (Option.some.inj h)
    simp
  | some call =>
    simp only [hmodal] at h
    obtain ⟨⟨s₁, out₁⟩, hcall, heq⟩ := Option.map_eq_some_iff.mp h
    obtain ⟨-, rfl⟩ := Prod.mk.inj heq
    have hkind : call.call = .modal := by
      unfold Levels.modalCall at hmodal
      split at hmodal
      · split_ifs at hmodal
        rw [← Option.some.inj hmodal]
      · cases hmodal
    rw [List.mem_cons, begin_mem_macroCall hcall, hkind]
    simp

end Begins

section Words

variable {c : Config K A} {v : Levels} {w : Words K} {kind : MacroCall} {call : Call} {k : ℕ}

/-- What the words of a call give. -/
theorem readCall_ok (h : readCall c kind v w = some call) :
    ∃ l, readL c.casts w.l = .ok l ∧ call.call = kind ∧
      call.repeats = if v.g66Args = [] ∧ (w.l = none ∨ l = 0) then 1 else l := by
  obtain ⟨l, hl, hcall⟩ := Option.bind_eq_some_iff.mp h
  have hread : readL c.casts w.l = .ok l := by
    cases hread : readL c.casts w.l with
    | error status => simp [hread, Except.toOption] at hl
    | ok l' => simpa [hread, Except.toOption] using hl
  refine ⟨l, hread, ?_⟩
  by_cases hactive : v.g66Args = []
  · rw [if_neg (not_not.mpr hactive)] at hcall
    obtain ⟨p, -, hp⟩ := Option.bind_eq_some_iff.mp hcall
    by_cases hrange : 65535 < p
    · simp [hrange] at hp
    · rw [if_neg hrange] at hp
      obtain rfl := Option.some.inj hp
      simp [hactive]
  · rw [if_pos hactive] at hcall
    obtain rfl := Option.some.inj hcall
    simp [hactive]

variable [IsStrictOrderedRing K]

/-- What is left of an integer count. -/
theorem repeats_of_readCall (h : readCall c kind v w = some call) (hl : w.l = some (k : K)) :
    call.repeats = if v.g66Args = [] ∧ c.casts.toUInt32 k % 2 ^ 8 = 0 then 1
      else c.casts.toUInt32 k % 2 ^ 8 := by
  obtain ⟨l, hread, -, hrepeats⟩ := readCall_ok h
  have hl' : l = c.casts.toUInt32 k % 2 ^ 8 := by
    rw [hl] at hread
    simp only [readL, truncf_natCast] at hread
    split_ifs at hread
    exact (Except.ok.inj hread).symm
  simp [hrepeats, hl, hl']

end Words

section Runs

variable {c : Config K A} {s : State K A} {v v₁ : Levels} {w : Words K}
  {pre : List (Event A)} {call : Call} {body : Body K A} {k : ℕ}

omit [LinearOrder K] [FloorRing K] [Field K] in
theorem exists_of_next {block : Block K A} (h : s.next = some block) :
    ∃ M v code pos S, s = ⟨M, v, ⟨code, pos⟩ :: S⟩ ∧ code[pos]? = some block := by
  obtain ⟨M, v, streams⟩ := s
  cases streams with
  | nil => cases h
  | cons stream S => exact ⟨M, v, stream.code, stream.pos, S, rfl, h⟩

/-- Apart from an `M98` with a motion, the next block makes the call. -/
theorem Programmed.step_eq (h : Programmed c s v w pre call)
    (hmotion : ∀ a w, s.next ≠ some (.m98 (some a) w)) :
    step c s = (macroCall c (s.after s.levels) call).map fun (s₁, out) => (s₁, pre ++ out) := by
  cases h with
  | g65 hnext hread | m98 hnext hread =>
    obtain ⟨M, v, code, pos, S, rfl, hblock⟩ := exists_of_next hnext
    rw [step_block hblock]
    simp [gcExecuteBlock, hread, State.after]
  | g66 hnext hactive hread =>
    obtain ⟨M, v, code, pos, S, rfl, hblock⟩ := exists_of_next hnext
    rw [step_block hblock]
    simp [gcExecuteBlock, executeMotion, hactive, State.after]
  | m98Motion hnext hread => exact absurd hnext (hmotion _ _)

/-- The machine makes as many passes as the narrowed word tells. -/
theorem Programmed.repeats_executions (h : Programmed c s v w pre call)
    (hmotion : ∀ a w, s.next ≠ some (.m98 (some a) w)) (haccepted : Accepted c s call body v₁)
    (hcompletes : Completes c s body v₁) :
    Repeats c s pre call body v₁ (body.executions call.repeats) := by
  obtain ⟨⟨outs, v'⟩, hpasses⟩ := Option.isSome_iff_exists.mp
    (hcompletes (body.executions call.repeats))
  have hstep := h.step_eq hmotion
  obtain ⟨block, hnext⟩ : ∃ block, s.next = some block := by
    cases h <;> exact ⟨_, ‹_›⟩
  obtain ⟨M, v, code, pos, S, rfl, hblock⟩ := exists_of_next hnext
  have heffect : callEffect c (macroStackDepth - M.length) (S.length + 1) code call v =
      some (marked (.begin call.call call.id) (.return call.call call.id) outs,
        call.leave v' body) := by
    have henter := haccepted.enter
    have hbody := haccepted.body
    simp only [State.free, State.code, List.length_cons, List.head?_cons, Option.map_some,
      Option.getD_some] at henter hbody
    rw [callEffect_eq, callWith, henter, Option.bind_some, hbody, Option.bind_some]
    exact Option.map_eq_some_iff.mpr ⟨_, hpasses, rfl⟩
  have hperforms := performs_callEffect rfl (Nat.succ_ne_zero pos) heffect
  have hleads := hperforms.leads pre hstep
  obtain ⟨s₁, out₁, out₂, hcall, -, -⟩ := hperforms
  refine ⟨outs, v', hpasses, ⟨s₁, pre ++ out₁, ?_, ?_⟩, hleads⟩
  · rw [hstep]
    exact Option.map_eq_some_iff.mpr ⟨_, hcall, rfl⟩
  · exact List.mem_append_right _ ((begin_mem_macroCall hcall _ _).mpr ⟨rfl, rfl⟩)

/-- A call is executed as often as one count tells. -/
theorem Repeats.unique {m n : ℕ} (hm : Repeats c s pre call body v₁ m)
    (hn : Repeats c s pre call body v₁ n) : m = n := by
  obtain ⟨outs, v', hpasses, -, hrun⟩ := hm
  obtain ⟨outs', v'', hpasses', -, hrun'⟩ := hn
  have hne : (.begin call.call call.id : Event A) ≠ .return call.call call.id := by simp
  rcases hrun.prefix_or hrun' with hp | hp
  · exact eq_of_marked hne hpasses hpasses' ((List.prefix_append_right_inj _).mp hp)
  · exact (eq_of_marked hne hpasses' hpasses ((List.prefix_append_right_inj _).mp hp)).symm

/-- An `M98` in the block of a motion is not executed. -/
theorem Programmed.not_repeats_motion (h : Programmed c s v w pre call) {a : A} {w' : Words K}
    (hmotion : s.next = some (.m98 (some a) w')) : ¬ Repeats c s pre call body v₁ k := by
  rintro ⟨-, -, -, ⟨s', out, hstep, hmem⟩, -⟩
  obtain ⟨M, v, code, pos, S, rfl, hblock⟩ := exists_of_next hmotion
  rw [step_block hblock] at hstep
  obtain ⟨call', -, hexecute⟩ := Option.bind_eq_some_iff.mp hstep
  have hkind : call.call = .nonModal98 := by
    cases h with
    | g65 hnext hread | g66 hnext hactive hread | m98 hnext hread => simp [hmotion] at hnext
    | m98Motion hnext hread => exact (readCall_ok hread).choose_spec.2.1
  rw [hkind] at hmem
  exact begin_notMem_executeMotion hexecute _ hmem

omit [LinearOrder K] [FloorRing K] [Field K] in
/-- The ids of inbuilt macros, which are executed once, are not those of files. -/
theorem body_cases {free file : ℕ} {code : List (Block K A)}
    (h : c.body free file code call = some body) :
    (call.id < 100 ∧ call.repeats ≤ 1 ∧ ∀ n, body.executions n = 1) ∨
      100 ≤ call.id ∧ ∀ n, body.executions n = readings n := by
  unfold Config.body at h
  split_ifs at h with hin hno hfull
  · obtain rfl := Option.some.inj h
    have hlast := hin.2
    simp only [lastInbuilt] at hlast
    exact .inl ⟨by omega, by omega, fun n => rfl⟩
  · obtain rfl := Option.some.inj h
    exact .inr ⟨by omega, fun n => rfl⟩
  · obtain ⟨code, -, rfl⟩ := Option.map_eq_some_iff.mp h
    exact .inr ⟨by omega, fun n => rfl⟩

omit [LinearOrder K] [FloorRing K] [Field K] in
/-- When a body is executed as often as was programmed. -/
theorem eq_executions_iff {free file : ℕ} {code : List (Block K A)}
    (hbody : c.body free file code call = some body) (hk : 1 ≤ k)
    (hrepeats : call.repeats = if v.g66Args = [] ∧ c.casts.toUInt32 k % 2 ^ 8 = 0 then 1
      else c.casts.toUInt32 k % 2 ^ 8) :
    k = body.executions call.repeats ↔ k < 2 ^ 8 ∨ 100 ≤ call.id ∧ v.g66Args ≠ [] ∧
      k = 2 ^ 32 ∧ c.casts.toUInt32 (2 ^ 32) % 2 ^ 8 = 0 := by
  have hsmall : k < 2 ^ 8 → call.repeats = k := by
    intro hlt
    rw [hrepeats, c.casts.toUInt32_of_lt k (by omega), Nat.mod_eq_of_lt hlt]
    exact if_neg (by omega)
  have hbyte : call.repeats < 2 ^ 8 := by
    rw [hrepeats]
    split_ifs <;> omega
  rcases body_cases hbody with ⟨hid, hle, hexecutions⟩ | ⟨hid, hexecutions⟩
  · rw [hexecutions]
    constructor
    · intro h1
      exact .inl (by omega)
    · rintro (hlt | ⟨hid', -⟩)
      · have := hsmall hlt
        omega
      · omega
  · rw [hexecutions, readings]
    constructor
    · intro heq
      split_ifs at heq with h0
      · subst heq
        refine .inr ⟨hid, ?_⟩
        rw [hrepeats] at h0
        split_ifs at h0 with hnil
        have hzero : c.casts.toUInt32 (2 ^ 32) % 2 ^ 8 = 0 := by exact_mod_cast h0
        exact ⟨fun hactive => hnil ⟨hactive, h0⟩, rfl, hzero⟩
      · exact .inl (by omega)
    · rintro (hlt | ⟨-, hactive, rfl, hzero⟩)
      · rw [hsmall hlt, if_neg (by omega)]
      · rw [if_pos]
        rw [hrepeats, if_neg (fun hnil => hactive hnil.1)]
        exact_mod_cast hzero

variable [IsStrictOrderedRing K]

/-- A call is executed as often as its count tells exactly if the count survives. -/
theorem repeats_iff (h : Programmed c s v w pre call) (hl : w.l = some (k : K)) (hk : 1 ≤ k)
    (haccepted : Accepted c s call body v₁) (hcompletes : Completes c s body v₁) :
    Repeats c s pre call body v₁ k ↔ Kept c s v call k := by
  by_cases hmotion : ∀ a w, s.next ≠ some (.m98 (some a) w)
  · have hexecutions := h.repeats_executions hmotion haccepted hcompletes
    have hrepeats : call.repeats = if v.g66Args = [] ∧ c.casts.toUInt32 k % 2 ^ 8 = 0 then 1
        else c.casts.toUInt32 k % 2 ^ 8 := by
      cases h <;> exact repeats_of_readCall ‹_› hl
    have hiff : Repeats c s pre call body v₁ k ↔ k = body.executions call.repeats := by
      constructor
      · intro hrepeats
        exact hrepeats.unique hexecutions
      · rintro rfl
        exact hexecutions
    rw [hiff, eq_executions_iff haccepted.body hk hrepeats]
    constructor
    · intro hcount
      exact ⟨hmotion, hcount⟩
    · intro hkept
      exact hkept.count
  · simp only [not_forall, not_not] at hmotion
    obtain ⟨a, w', hnext⟩ := hmotion
    constructor
    · intro hrepeats
      exact absurd hrepeats (h.not_repeats_motion hnext)
    · intro hkept
      exact absurd hnext (hkept.noMotion a w')

end Runs

section Single

/-- `P100` is a macro with one block. -/
def Config.single : Config ℚ Unit where
  casts := Casts.modular
  toMacroId p := ⌊p⌋₊
  macroPos _ _ := 0
  fileMacro id := if id = 100 then some [.other ()] else none
  inbuilt _ := false

/-- A program of one block, `G65 P100` with a count. -/
def State.g65P100 (k : ℕ) : State ℚ Unit where
  macros := []
  levels := ⟨0, []⟩
  streams := [⟨[.g65 ⟨some 100, some k, false⟩], 0⟩]

theorem readCall_single {k : ℕ} (hk : k < 2 ^ 32) (h0 : k % 2 ^ 8 ≠ 0) :
    readCall Config.single .nonModal ⟨0, []⟩ ⟨some 100, some k, false⟩ =
      some ⟨⟨100, false, k % 2 ^ 8⟩, .nonModal⟩ := by
  have hread := readL_natCast (K := ℚ) Config.single.casts hk
  have hid : Config.single.toMacroId 100 = 100 := by norm_num [Config.single]
  have hrange : ¬ (65535 : ℚ) < 100 := by norm_num
  have hl : k % 256 ≠ 0 := h0
  simp [readCall, hread, Except.toOption, hid, hrange, hl]

theorem accepted_single (k l : ℕ) :
    Accepted Config.single (State.g65P100 k) ⟨⟨100, false, l⟩, .nonModal⟩
      (.code 2 [.other ()] 0) ⟨1, []⟩ :=
  ⟨rfl, rfl⟩

theorem completes_single (k : ℕ) :
    Completes Config.single (State.g65P100 k) (.code 2 [.other ()] 0) ⟨1, []⟩ :=
  fun n => passes_isSome (fun _ => rfl) n _

theorem repeats_l3 :
    Repeats Config.single (State.g65P100 3) [] ⟨⟨100, false, 3⟩, .nonModal⟩
      (.code 2 [.other ()] 0) ⟨1, []⟩ 3 :=
  (repeats_iff (Programmed.g65 rfl (readCall_single (by norm_num) (by norm_num))) rfl
    (by norm_num) (accepted_single 3 3) (completes_single 3)).mpr
    ⟨(by rintro a w ⟨⟩), .inl (by norm_num)⟩

/-- With `L257` the macro is executed once. -/
theorem not_repeats_l257 :
    Programmed Config.single (State.g65P100 257) ⟨0, []⟩ ⟨some 100, some (257 : ℕ), false⟩ []
        ⟨⟨100, false, 1⟩, .nonModal⟩ ∧
      Accepted Config.single (State.g65P100 257) ⟨⟨100, false, 1⟩, .nonModal⟩
        (.code 2 [.other ()] 0) ⟨1, []⟩ ∧
      Completes Config.single (State.g65P100 257) (.code 2 [.other ()] 0) ⟨1, []⟩ ∧
      ¬ Repeats Config.single (State.g65P100 257) [] ⟨⟨100, false, 1⟩, .nonModal⟩
        (.code 2 [.other ()] 0) ⟨1, []⟩ 257 := by
  have hprogrammed : Programmed Config.single (State.g65P100 257) ⟨0, []⟩
      ⟨some 100, some (257 : ℕ), false⟩ [] ⟨⟨100, false, 1⟩, .nonModal⟩ :=
    .g65 rfl (readCall_single (by norm_num) (by norm_num))
  have haccepted := accepted_single 257 1
  have honce := hprogrammed.repeats_executions (fun a w h => by cases h) haccepted
    (completes_single 257)
  refine ⟨hprogrammed, haccepted, completes_single 257, fun h => ?_⟩
  exact absurd (h.unique honce) (by decide)

end Single

end Macros

end Inspector
