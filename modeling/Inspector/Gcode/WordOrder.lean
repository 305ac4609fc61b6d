import Inspector.Exclusive.Run
import Inspector.Gcode.Words
import Mathlib.Algebra.Order.Floor.Semiring
import Mathlib.Data.List.Perm.Basic
import Mathlib.Data.Rat.Floor
import Mathlib.Tactic.NormNum

/-! # The order of the words of a block

Apart from a few commands that are handled out of line, a word does something on its own: it takes
its modal group or its letter, may claim the axis words, and sets fields that no word of another
group or letter sets. So a block of such words is accepted if no two of them take the same, and its
words may stand in any order. Left out are `G50` and `G51`, which claim the axis words unchecked,
the macro calls `G65`, `G66` and `G67`, which take `M` as a value, `M70` to `M73`, which have no
modal group, and words without a number.
-/

namespace Inspector

namespace BlockWords

universe u

variable {K : Type*}

theorem bind_eq_ok {ε : Type*} {α β : Type u} {x : Except ε α} {f : α → Except ε β} {y : β} :
    x >>= f = .ok y ↔ ∃ a, x = .ok a ∧ f a = .ok y := by
  cases x <;> simp [bind, Except.bind]

theorem exists_effect {α β : Type*} {f : α → Option β} {l : List α} {es : List β}
    (h : List.Forall₂ (fun a e => f a = some e) l es) (p : β → Prop) :
    (∃ e ∈ es, p e) ↔ ∃ a ∈ l, ∃ e, f a = some e ∧ p e := by
  induction h with
  | nil => simp
  | cons he _ ih => simp [ih, he]

/-- What is exclusive in a block: the commands of a modal group, the claim on the axis words, and
the values of a letter. -/
inductive Slot
  | group (group : Group)
  | axisCommand
  | param (param : Param)
  deriving DecidableEq, Repr

/-- What a word does on its own: its claim on the axis words, and what it sets. -/
structure Effect (K : Type*) where
  claim : Option AxisCommand
  setting : Setting K

namespace Effect

/-- The slots that an effect takes. -/
def slots (e : Effect K) : List Slot :=
  (e.claim.map fun _ => Slot.axisCommand).toList ++
    (e.setting.group.map .group).toList ++ (e.setting.param.map .param).toList

/-- Take the slots in a block. -/
def mark (e : Effect K) (b : Block K) : Block K :=
  { b with
    axisCommand := e.claim.or b.axisCommand
    commandWords := fun group => b.commandWords group || e.setting.group = some group
    words := fun name => b.words name || e.setting.param = some name }

/-- An effect on a block. -/
def apply (e : Effect K) (b : Block K) : Block K := e.setting.write (e.mark b)

/-- A slot that is taken in a block. -/
def Taken (b : Block K) : Slot → Prop
  | .group group => b.commandWords group = true
  | .axisCommand => b.axisCommand.isSome = true
  | .param name => b.words name = true

theorem taken_write (s : Setting K) (b : Block K) (x : Slot) :
    Taken (s.write b) x ↔ Taken b x := by
  cases s <;> cases x <;> rfl

theorem taken_apply (e : Effect K) (b : Block K) (x : Slot) :
    Taken (e.apply b) x ↔ Taken b x ∨ x ∈ e.slots := by
  rw [apply, taken_write]
  cases x with
  | group group => simp [Taken, mark, slots]
  | axisCommand => cases h : e.claim <;> simp [Taken, mark, slots, h]
  | param name => simp [Taken, mark, slots]

theorem write_mark (s : Setting K) (e : Effect K) (b : Block K) :
    s.write (e.mark b) = e.mark (s.write b) := by
  cases s <;> rfl

/-- Settings of different groups and letters write different fields. -/
theorem write_comm {s t : Setting K} (b : Block K)
    (hg : ∀ group, s.group = some group → t.group ≠ some group)
    (hp : ∀ name, s.param = some name → t.param ≠ some name) :
    s.write (t.write b) = t.write (s.write b) := by
  cases s <;> cases t <;> first
    | exact absurd rfl (hg _ rfl)
    | simp only [Setting.write]
  rename_i name _ name' _
  have hne : name' ≠ name := fun h => hp name rfl (congrArg some h)
  rw [Function.update_comm hne]

theorem mark_comm {e f : Effect K} (b : Block K) (h : ¬(e.claim.isSome ∧ f.claim.isSome)) :
    e.mark (f.mark b) = f.mark (e.mark b) := by
  have haxis : e.claim.or (f.claim.or b.axisCommand) = f.claim.or (e.claim.or b.axisCommand) := by
    cases he : e.claim <;> cases hf : f.claim <;> simp_all
  simp only [mark, haxis, Bool.or_right_comm]

theorem apply_comm {e f : Effect K} (b : Block K) (h : e.slots.Disjoint f.slots) :
    e.apply (f.apply b) = f.apply (e.apply b) := by
  have hclaim : ¬(e.claim.isSome ∧ f.claim.isSome) := by
    rintro ⟨he, hf⟩
    obtain ⟨a, ha⟩ := Option.isSome_iff_exists.mp he
    obtain ⟨a', ha'⟩ := Option.isSome_iff_exists.mp hf
    exact h (a := .axisCommand) (by simp [slots, ha]) (by simp [slots, ha'])
  have hg : ∀ group, e.setting.group = some group → f.setting.group ≠ some group := by
    intro group he hf
    exact h (a := .group group) (by simp [slots, he]) (by simp [slots, hf])
  have hp : ∀ name, e.setting.param = some name → f.setting.param ≠ some name := by
    intro name he hf
    exact h (a := .param name) (by simp [slots, he]) (by simp [slots, hf])
  rw [apply, apply, apply, apply, ← write_mark, ← write_mark, write_comm _ hg hp,
    mark_comm _ hclaim]

end Effect

/-- The words in line, as effects on exclusive slots. -/
def system (K : Type*) : Exclusive.System (Block K) (Effect K) Slot where
  slots := Effect.slots
  apply := Effect.apply
  taken := Effect.Taken
  taken_apply := Effect.taken_apply
  comm _ _ b h := Effect.apply_comm b h

/-- The commands that are handled out of line. -/
def gOutOfLine : List ℕ := [50, 51, 65, 66, 67]
def mOutOfLine : List ℕ := [70, 71, 72, 73]

variable {c : Config} {axis : Option AxisCommand} {g16 : Bool} {n m : ℕ} {r : Action K × ℕ}

theorem claim_map {command : AxisCommand} {s : Setting K} :
    (claim axis command s).map (·, m) = .ok r ↔ axis = none ∧ (.set (some command) s, m) = r := by
  cases axis <;> simp [claim, Except.map]

theorem gWord_set (hn : n ∉ gOutOfLine) (h : gWord c axis g16 n m = .ok r) :
    ∃ a s, r.1 = .set a s ∧ s.param = none := by
  unfold gWord at h
  split at h
  all_goals repeat' split at h
  all_goals try rw [claim_map] at h
  all_goals first
    | exact absurd hn (by decide)
    | obtain ⟨-, rfl⟩ := h
      exact ⟨_, _, rfl, rfl⟩
    | cases h

theorem mWord_set {r : Action K × Option UserMcodeType} (hn : n ∉ mOutOfLine)
    (h : mWord c n m = .ok r) : ∃ s, r.1 = .set none s ∧ s.param = none := by
  unfold mWord at h
  split at h
  all_goals try dsimp only at h
  all_goals repeat' split at h
  all_goals first
    | exact absurd hn (by decide)
    | cases h <;> exact ⟨_, rfl, rfl⟩

/-- The claim on the axis words is all that a command in line asks of the words before it. -/
theorem gWord_iff (hn : n ∉ gOutOfLine) : gWord c axis g16 n m = .ok r ↔
    gWord c none false n m = .ok r ∧ ∀ a s, r.1 = .set a s → a.isSome → axis = none := by
  cases axis with
  | none =>
    have heq : gWord (K := K) c none g16 n m = gWord c none false n m := by
      unfold gWord
      split
      all_goals first | rfl | exact absurd hn (by decide)
    simp [heq]
  | some a =>
    unfold gWord
    split
    all_goals repeat' split
    all_goals first
      | exact absurd hn (by decide)
      | simp only [claim_map]
        grind
      | grind

theorem perform_set {b b' : Block K} {a : Option AxisCommand} {s : Setting K}
    (hs : s.param = none) : b.perform (.set a s) = .ok b' ↔
      (∀ group, s.group = some group → b.commandWords group = false) ∧
        b' = (⟨a, s⟩ : Effect K).apply b := by
  have hparam : ∀ name, s.param ≠ some name := by simp [hs]
  cases hg : s.group with
  | none =>
    have happly : (⟨a, s⟩ : Effect K).apply b =
        s.write { b with axisCommand := a.or b.axisCommand } := by
      simp [Effect.apply, Effect.mark, hg, hparam]
    rw [Block.perform, hg, Block.occupy, happly]
    simp [@eq_comm _ b']
  | some group =>
    have hcommands : (s.write { b with axisCommand := a.or b.axisCommand }).commandWords =
        b.commandWords := by cases s <;> rfl
    have hupdate : (fun group' => b.commandWords group' || decide (some group = some group')) =
        Function.update b.commandWords group true := by
      ext group'
      by_cases h : group' = group
      · simp [h]
      · simp [h, Ne.symm h]
    have happly : (⟨a, s⟩ : Effect K).apply b =
        { s.write { b with axisCommand := a.or b.axisCommand } with
          commandWords := Function.update b.commandWords group true } := by
      simp only [Effect.apply, Effect.mark, hg, hparam, decide_false, Bool.or_false, hupdate]
      cases s <;> rfl
    rw [Block.perform, hg, Block.occupy, hcommands, happly]
    cases hb : b.commandWords group with
    | true =>
      constructor
      · rintro ⟨⟩
      · rintro ⟨hfree, -⟩
        simpa [hb] using hfree group rfl
    | false =>
      constructor
      · rintro ⟨⟩
        exact ⟨fun _ h => Option.some.inj h ▸ hb, rfl⟩
      · rintro ⟨-, rfl⟩
        rfl

theorem free_iff {b : Block K} {e : Effect K} : (system K).Free b e ↔
    (e.claim.isSome → b.axisCommand = none) ∧
      (∀ group, e.setting.group = some group → b.commandWords group = false) ∧
      ∀ name, e.setting.param = some name → b.words name = false := by
  constructor
  · intro h
    refine ⟨fun hc => ?_, fun group hg => ?_, fun name hp => ?_⟩
    · obtain ⟨a, ha⟩ := Option.isSome_iff_exists.mp hc
      have := h .axisCommand (by simp [system, Effect.slots, ha])
      simpa [system, Effect.Taken] using this
    · have := h (.group group) (by simp [system, Effect.slots, hg])
      simpa [system, Effect.Taken] using this
    · have := h (.param name) (by simp [system, Effect.slots, hp])
      simpa [system, Effect.Taken] using this
  · rintro ⟨hc, hg, hp⟩ x hx
    simp only [system, Effect.slots, List.mem_append, Option.mem_toList,
      Option.map_eq_some_iff] at hx
    rcases hx with (⟨a, ha, rfl⟩ | ⟨group, h, rfl⟩) | ⟨name, h, rfl⟩
    · simp [system, Effect.Taken, hc (by simp [ha])]
    · simp [system, Effect.Taken, hg group h]
    · simp [system, Effect.Taken, hp name h]

theorem assign_iff {b b' : Block K} {name : Param} {stored : Stored K} {negative : Bool} :
    b.assign name stored negative = .ok b' ↔ ¬(name.isUint ∧ negative) ∧
      (system K).Free b ⟨none, .value name stored⟩ ∧
        b' = (⟨none, .value name stored⟩ : Effect K).apply b := by
  have happly : (⟨none, .value name stored⟩ : Effect K).apply b =
      { b with
        values := Function.update b.values name stored
        words := Function.update b.words name true } := by
    have hupdate : (fun name' => b.words name' || decide (name = name')) =
        Function.update b.words name true := by
      ext name'
      by_cases h : name' = name
      · simp [h]
      · simp [h, Ne.symm h]
    simpa [Effect.apply, Effect.mark, Setting.write, Setting.group, Setting.param] using hupdate
  have hfree : (system K).Free b ⟨none, .value name stored⟩ ↔ b.words name = false := by
    rw [free_iff]
    simp [Setting.group, Setting.param]
  rw [Block.assign, happly, hfree]
  split_ifs with h1 h2
  · simp [h1]
  · simp [h2]
  · constructor
    · rintro ⟨⟩
      exact ⟨h2, by simpa using h1, rfl⟩
    · rintro ⟨-, -, rfl⟩
      rfl

theorem takesArguments_apply {e : Effect K} {b : Block K}
    (h : b.macroCall.takesArguments = false) : (e.apply b).macroCall.takesArguments = false := by
  obtain ⟨claim, s⟩ := e
  cases s with
  | macroCall98 => rfl
  | _ => exact h

theorem toOption_eq_some {r : Except Status (Scan K)} {b : Block K} :
    r.toOption.map (·.block) = some b ↔ ∃ y, r = .ok y ∧ y.block = b := by
  cases r <;> simp [Except.toOption]

theorem write_write (s : Setting K) (b : Block K) : s.write (s.write b) = s.write b := by
  cases s <;> simp [Setting.write]

variable [LinearOrder K] [Zero K] {k : Casts K}

/-- The words that are handled in line. -/
def Word.InLine (k : Casts K) : Word K → Prop
  | .number letter value => (letter = 'G' → k.intValue value ∉ gOutOfLine) ∧
      (letter = 'M' → k.intValue value ∉ mOutOfLine)
  | .bare _ | .label _ => False

/-- What a word does on its own, if it is valid. -/
def effect (k : Casts K) (c : Config) : Word K → Option (Effect K)
  | .number letter value =>
    if letter = 'G' then
      match gWord c none false (k.intValue value) (k.mantissa value) with
      | .ok (.set claim setting, 0) => some ⟨claim, setting⟩
      | _ => none
    else if letter = 'M' then
      if k.intValue value ≤ 99 ∧ k.mantissa value > 0 then none
      else
        match mWord c (k.intValue value) (k.mantissa value) with
        | .ok (.set claim setting, _) => some ⟨claim, setting⟩
        | _ => none
    else
      match param letter with
      | none => none
      | some name =>
        match store k name (some value) (k.intValue value) (k.mantissa value) with
        | .ok stored =>
          if name.isUint ∧ value < 0 then none else some ⟨none, .value name stored⟩
        | .error _ => none
  | .bare _ | .label _ => none

section Step

variable {x : Scan K} {value : K} {b' : Block K}

theorem gCase_iff (hletter : k.intValue value ∉ gOutOfLine) (hn : x.intValue = k.intValue value)
    (hm : x.mantissa = k.mantissa value) :
    (∃ y, x.gCase c x.block = .ok y ∧ y.block = b') ↔
      ∃ e, effect k c (.number 'G' value) = some e ∧ (system K).Free x.block e ∧
        b' = e.apply x.block := by
  have heffect : effect k c (.number 'G' value) =
    match gWord c none false (k.intValue value) (k.mantissa value) with
    | .ok (.set claim setting, 0) => some ⟨claim, setting⟩
    | _ => none := rfl
  rw [heffect, Scan.gCase, hn, hm]
  simp only [bind_eq_ok]
  constructor
  · rintro ⟨y, ⟨⟨action, mantissa⟩, hg, h⟩, rfl⟩
    obtain ⟨claim, s, hset, hs⟩ := gWord_set hletter hg
    obtain ⟨hg, hclaim⟩ := (gWord_iff hletter).mp hg
    dsimp only at hset h hclaim
    subst hset
    split at h
    · cases h
    · have hzero : mantissa = 0 := by omega
      subst hzero
      obtain ⟨b, hb, hy⟩ := bind_eq_ok.mp h
      obtain ⟨hfree, rfl⟩ := (perform_set hs).mp hb
      cases hy
      refine ⟨⟨claim, s⟩, ?_, free_iff.mpr ⟨hclaim _ _ rfl, hfree, by simp [hs]⟩, rfl⟩
      rw [hg]
      rfl
  · rintro ⟨e, he, hfree, rfl⟩
    obtain ⟨hclaim, hgroup, -⟩ := free_iff.mp hfree
    split at he
    · rename_i claim s hg
      cases he
      obtain ⟨claim', s', hset, hs⟩ := gWord_set hletter hg
      cases hset
      have hword : gWord c x.block.axisCommand (x.block.commandWords .g16) (k.intValue value)
          (k.mantissa value) = .ok (.set claim s, 0) := by
        refine (gWord_iff hletter).mpr ⟨hg, ?_⟩
        rintro _ _ ⟨⟩
        exact hclaim
      refine ⟨⟨_, k.intValue value, 0, none, x.m⟩, ⟨_, hword, ?_⟩, rfl⟩
      exact bind_eq_ok.mpr ⟨_, (perform_set hs).mpr ⟨hgroup, rfl⟩, rfl⟩
    · cases he

theorem mCase_iff (hletter : k.intValue value ∉ mOutOfLine) (hn : x.intValue = k.intValue value)
    (hm : x.mantissa = k.mantissa value) (hx : x.block.macroCall.takesArguments = false) :
    (∃ y, x.mCase c (some value) x.block = .ok y ∧ y.block = b') ↔
      ∃ e, effect k c (.number 'M' value) = some e ∧ (system K).Free x.block e ∧
        b' = e.apply x.block := by
  have heffect : effect k c (.number 'M' value) =
    if k.intValue value ≤ 99 ∧ k.mantissa value > 0 then none
    else
      match mWord c (k.intValue value) (k.mantissa value) with
      | .ok (.set claim setting, _) => some ⟨claim, setting⟩
      | _ => none := rfl
  simp only [heffect, Scan.mCase, hn, hm, hx, Bool.false_eq_true, if_false]
  split_ifs
  · simp
  · simp only [bind_eq_ok]
    constructor
    · rintro ⟨y, ⟨⟨action, type⟩, hw, b, hb, hy⟩, rfl⟩
      obtain ⟨s, hset, hs⟩ := mWord_set hletter hw
      dsimp only at hset hb
      subst hset
      cases hy
      obtain ⟨hfree, rfl⟩ := (perform_set hs).mp hb
      refine ⟨⟨none, s⟩, ?_, free_iff.mpr ⟨nofun, hfree, by simp [hs]⟩, rfl⟩
      rw [hw]
    · rintro ⟨e, he, hfree, rfl⟩
      obtain ⟨-, hgroup, -⟩ := free_iff.mp hfree
      split at he
      · rename_i claim s type hw
        cases he
        obtain ⟨s', hset, hs⟩ := mWord_set hletter hw
        cases hset
        exact ⟨_, ⟨_, hw, _, (perform_set hs).mpr ⟨hgroup, rfl⟩, rfl⟩, rfl⟩
      · cases he

theorem valueCase_iff {letter : Char} (hg : letter ≠ 'G') (hm : letter ≠ 'M')
    (hn : x.intValue = k.intValue value) (hm : x.mantissa = k.mantissa value) :
    (∃ y, x.valueCase k letter (some value) x.block = .ok y ∧ y.block = b') ↔
      ∃ e, effect k c (.number letter value) = some e ∧ (system K).Free x.block e ∧
        b' = e.apply x.block := by
  rw [effect, if_neg hg, if_neg ‹letter ≠ 'M'›, Scan.valueCase, hn, hm]
  cases hp : param letter with
  | none => simp
  | some name =>
    dsimp only
    cases hstore : store k name (some value) (k.intValue value) (k.mantissa value) with
    | error => simp [bind, Except.bind]
    | ok stored =>
      simp only [bind_eq_ok]
      constructor
      · rintro ⟨y, ⟨_, ⟨⟩, b, hb, hy⟩, rfl⟩
        obtain ⟨hneg, hfree, rfl⟩ := assign_iff.mp hb
        cases hy
        refine ⟨_, if_neg ?_, hfree, rfl⟩
        simpa using hneg
      · rintro ⟨e, he, hfree, rfl⟩
        split_ifs at he with hneg
        cases he
        refine ⟨_, ⟨stored, rfl, _, assign_iff.mpr ⟨?_, hfree, rfl⟩, rfl⟩, rfl⟩
        simpa using hneg

end Step

theorem isWordLetter_of_param {letter : Char} {name : Param} (h : param letter = some name) :
    Scan.isWordLetter letter = true := by
  unfold param at h
  split at h
  all_goals first
    | rfl
    | cases h

/-- A word in line is accepted if it is valid and its slots are free, and then it does what it
does on its own. -/
theorem step_iff {x : Scan K} {w : Word K} {b' : Block K} (hw : w.InLine k)
    (hc : c.g66Modal1 = false) (hx : x.block.macroCall.takesArguments = false) :
    (∃ y, x.step k c w = .ok y ∧ y.block = b') ↔
      ∃ e, effect k c w = some e ∧ (system K).Free x.block e ∧ b' = e.apply x.block := by
  cases w with
  | bare => exact hw.elim
  | label => exact hw.elim
  | number letter value =>
    obtain ⟨hg, hm⟩ := hw
    have hword : ∀ z : Scan K, z.word k c letter (some value) =
        if letter = 'G' then z.gCase c z.block
        else if letter = 'M' then z.mCase c (some value) z.block
        else z.valueCase k letter (some value) z.block := by
      intro z
      rw [Scan.word, hc]
      rfl
    by_cases hletter : Scan.isWordLetter letter = true
    · rw [Scan.step, hletter, hword]
      by_cases h1 : letter = 'G'
      · subst h1
        exact gCase_iff (hg rfl) rfl rfl
      · by_cases h2 : letter = 'M'
        · subst h2
          exact mCase_iff (hm rfl) rfl rfl hx
        · rw [if_neg h1, if_neg h2]
          exact valueCase_iff h1 h2 rfl rfl
    · have h1 : letter ≠ 'G' := by
        rintro rfl
        exact hletter rfl
      have h2 : letter ≠ 'M' := by
        rintro rfl
        exact hletter rfl
      have hnone : param letter = none := by
        rw [Option.eq_none_iff_forall_ne_some]
        intro name hp
        exact hletter (isWordLetter_of_param hp)
      simp [Scan.step, hletter, effect, h1, h2, hnone]

/-- The words of a block in line are accepted as their effects are, one after the other. -/
theorem foldlM_iff {x : Scan K} {ws : List (Word K)} {b' : Block K} (hws : ∀ w ∈ ws, w.InLine k)
    (hc : c.g66Modal1 = false) (hx : x.block.macroCall.takesArguments = false) :
    (∃ y, ws.foldlM (Scan.step k c) x = .ok y ∧ y.block = b') ↔
      ∃ es, List.Forall₂ (fun w e => effect k c w = some e) ws es ∧
        (system K).Run x.block es b' := by
  induction ws generalizing x with
  | nil =>
    constructor
    · rintro ⟨y, ⟨⟩, rfl⟩
      exact ⟨[], .nil, .nil _⟩
    · rintro ⟨_, ⟨⟩, ⟨⟩⟩
      exact ⟨x, rfl, rfl⟩
  | cons w ws ih =>
    obtain ⟨hw, hws⟩ := List.forall_mem_cons.mp hws
    simp only [List.foldlM_cons, bind_eq_ok]
    constructor
    · rintro ⟨y, ⟨z, hz, hy⟩, rfl⟩
      obtain ⟨e, he, hfree, hblock⟩ := (step_iff hw hc hx).mp ⟨z, hz, rfl⟩
      have hz' : z.block.macroCall.takesArguments = false := hblock ▸ takesArguments_apply hx
      obtain ⟨es, hes, hrun⟩ := (ih hws hz').mp ⟨y, hy, rfl⟩
      rw [hblock] at hrun
      exact ⟨e :: es, .cons he hes, .cons hfree hrun⟩
    · rintro ⟨_, _ | ⟨he, hes⟩, _ | ⟨hfree, hrun⟩⟩
      obtain ⟨z, hz, hblock⟩ := (step_iff hw hc hx).mpr ⟨_, he, hfree, rfl⟩
      have hz' : z.block.macroCall.takesArguments = false := hblock ▸ takesArguments_apply hx
      obtain ⟨y, hy, hy'⟩ := (ih hws hz').mpr ⟨_, hes, hblock ▸ hrun⟩
      exact ⟨y, ⟨z, hz, hy⟩, hy'⟩

theorem parse_of_perm {b b' : Block K} {ws ws' : List (Word K)} (hws : ∀ w ∈ ws, w.InLine k)
    (hc : c.g66Modal1 = false) (hb : b.macroCall.takesArguments = false) (hp : ws.Perm ws')
    (h : ∃ y, parse k c b ws = .ok y ∧ y.block = b') :
    ∃ y, parse k c b ws' = .ok y ∧ y.block = b' := by
  obtain ⟨es, hes, hrun⟩ := (foldlM_iff hws hc hb).mp h
  obtain ⟨es', hes', hperm⟩ := List.perm_comp_forall₂ hp.symm hes
  have hws' : ∀ w ∈ ws', w.InLine k := fun w hw => hws w (hp.mem_iff.mpr hw)
  exact (foldlM_iff hws' hc hb).mpr ⟨es', hes', hrun.perm hperm.symm⟩

/-- A block of words in line is accepted in every order of its words or in none, and what it sets
does not depend on the order. -/
theorem parse_perm (k : Casts K) (c : Config) (b : Block K) (ws ws' : List (Word K))
    (hws : ∀ w ∈ ws, w.InLine k) (hc : c.g66Modal1 = false)
    (hb : b.macroCall.takesArguments = false) (hp : ws.Perm ws') :
    (parse k c b ws).toOption.map (·.block) = (parse k c b ws').toOption.map (·.block) := by
  have hws' : ∀ w ∈ ws', w.InLine k := fun w hw => hws w (hp.mem_iff.mpr hw)
  ext b'
  simp only [toOption_eq_some]
  exact ⟨parse_of_perm hws hc hb hp, parse_of_perm hws' hc hb hp.symm⟩

/-- Words in line are accepted into a fresh block exactly if each of them is valid on its own and
no two of them claim the axis words, name a command of the same modal group or the same letter. The
block then shows what each word sets, and the flags tell which commands and letters were there. -/
theorem parse_spec (k : Casts K) (c : Config) (b : Block K) (ws : List (Word K))
    (hws : ∀ w ∈ ws, w.InLine k) (hc : c.g66Modal1 = false)
    (hb : b.macroCall.takesArguments = false) (hfresh : ∀ x, ¬Effect.Taken b x) :
    ((parse k c b ws).toOption.isSome ↔ ∃ es,
      List.Forall₂ (fun w e => effect k c w = some e) ws es ∧
        es.Pairwise fun e f => e.slots.Disjoint f.slots) ∧
    ∀ y, parse k c b ws = .ok y →
      (∀ w ∈ ws, ∀ e, effect k c w = some e → e.setting.write y.block = y.block) ∧
        ∀ x, Effect.Taken y.block x ↔ ∃ w ∈ ws, ∃ e, effect k c w = some e ∧ x ∈ e.slots := by
  have hfree : ∀ es : List (Effect K), ∀ e ∈ es, (system K).Free b e :=
    fun _ _ _ x _ => hfresh x
  constructor
  · constructor
    · intro h
      obtain ⟨y, hy⟩ : ∃ y, parse k c b ws = .ok y := by
        cases hr : parse k c b ws with
        | error => simp [hr, Except.toOption] at h
        | ok y => exact ⟨y, rfl⟩
      obtain ⟨es, hes, hrun⟩ := (foldlM_iff hws hc hb).mp ⟨y, hy, rfl⟩
      exact ⟨es, hes, ((system K).run_iff.mp hrun).2.1⟩
    · rintro ⟨es, hes, hapart⟩
      have hrun := (system K).run_iff.mpr ⟨hfree es, hapart, rfl⟩
      obtain ⟨y, hy, -⟩ := (foldlM_iff (x := ⟨b, 0, 0, none, .nan⟩) hws hc hb).mpr ⟨es, hes, hrun⟩
      rw [parse, hy]
      rfl
  · intro y hy
    obtain ⟨es, hes, hrun⟩ := (foldlM_iff hws hc hb).mp ⟨y, hy, rfl⟩
    obtain ⟨-, hapart, hblock⟩ := (system K).run_iff.mp hrun
    constructor
    · intro w hw e he
      obtain ⟨_, he', rfl⟩ := (exists_effect hes (· = e)).mpr ⟨w, hw, e, he, rfl⟩
      obtain ⟨z, hz⟩ := Exclusive.System.exists_apply he' hapart
      rw [hblock, hz]
      exact write_write _ _
    · intro x
      have htaken : Effect.Taken y.block x ↔ Effect.Taken b x ∨ ∃ e ∈ es, x ∈ e.slots :=
        by
          rw [hblock]
          exact Exclusive.System.taken_after (M := system K) x
      rw [htaken, or_iff_right (hfresh x), exists_effect hes]


/-- Numbers that are cut off, and the hundredths that are left. -/
def cutOff : Casts ℚ where
  intValue v := ⌊v⌋₊
  mantissa v := ⌊100 * (v - ⌊v⌋₊) + 1 / 2⌋₊
  toInt32 v := ⌊v⌋
  nanToInt32 := 0

def mill : Config where
  latheMode := false
  probe := true
  nTools := 0
  onMacroExecute := true
  onMacroReturn := true
  streamFile := false
  g66Args := false
  g66Modal1 := false
  motion := .seek
  optionalStop := false
  atc := .none
  toolChangeIgnore := true
  suspendRead := false
  toolChange := false
  mist := true
  overrideControl := false
  digitalOut := false
  waitOnInput := false
  analogOut := false
  unclaimedDigitalOut := 0
  unclaimedDigitalIn := 0
  unclaimedAnalogIn := 0
  unclaimedAnalogOut := 0
  userMcodeCheck _ := none

def blank : Block ℚ where
  nonModalCommand := .noAction
  motion := .seek
  cannedCycleActive := false
  cannedCycleChange := false
  planeSelect := .xy
  distanceIncremental := false
  feedMode := .unitsPerMin
  unitsImperial := false
  diameterMode := false
  toolOffsetMode := .cancel
  g5xOffset := 0
  rpmMode := false
  retractMode := .previous
  scalingActive := false
  programFlow := .running
  spindleOn := false
  spindleCcw := false
  mist := false
  flood := false
  setCoolant := false
  toolAction := .none
  overrideCommand := .none
  portCommand := .none
  stateAction := .noAction
  userMcode := 0
  macroCall := .none
  axisCommand := none
  commandWords _ := false
  words _ := false
  values _ := .real 0

/-- `G1 X10 F100 M3 S1000`. -/
def feedMove : List (Word ℚ) :=
  [.number 'G' 1, .number 'X' 10, .number 'F' 100, .number 'M' 3, .number 'S' 1000]

theorem inLine_feedMove : ∀ w ∈ feedMove, w.InLine cutOff := by
  intro w hw
  simp only [feedMove, List.mem_cons, List.not_mem_nil, or_false] at hw
  rcases hw with rfl | rfl | rfl | rfl | rfl <;>
    norm_num [Word.InLine, cutOff, gOutOfLine, mOutOfLine]

theorem parse_perm_feedMove :
    (parse cutOff mill blank feedMove).toOption.map (·.block) =
      (parse cutOff mill blank feedMove.reverse).toOption.map (·.block) :=
  parse_perm _ _ _ _ _ inLine_feedMove rfl rfl (List.reverse_perm _).symm

def feedMoveEffects : List (Effect ℚ) :=
  [⟨some .motionMode, .motion .linear⟩, ⟨none, .value .x (.real 10)⟩,
    ⟨none, .value .f (.real 100)⟩, ⟨none, .spindle true false⟩, ⟨none, .value .s (.real 1000)⟩]

theorem effect_linear :
    effect cutOff mill (.number 'G' 1) = some ⟨some .motionMode, .motion .linear⟩ := by
  have h : cutOff.intValue 1 = 1 ∧ cutOff.mantissa 1 = 0 := by norm_num [cutOff]
  rw [effect, if_pos rfl, h.1, h.2]
  rfl

theorem effect_spindle :
    effect cutOff mill (.number 'M' 3) = some ⟨none, .spindle true false⟩ := by
  have h : cutOff.intValue 3 = 3 ∧ cutOff.mantissa 3 = 0 := by norm_num [cutOff]
  rw [effect, if_neg (by decide), if_pos rfl, h.1, h.2]
  rfl

theorem effect_feedMove :
    List.Forall₂ (fun w e => effect cutOff mill w = some e) feedMove feedMoveEffects :=
  .cons effect_linear (.cons rfl (.cons rfl (.cons effect_spindle (.cons rfl .nil))))

/-- The block is accepted. It shows the motion and the spindle, and has no `Y`. -/
theorem parse_spec_feedMove : ∃ y, parse cutOff mill blank feedMove = .ok y ∧
    y.block.motion = .linear ∧ y.block.spindleOn = true ∧ ¬Effect.Taken y.block (.param .y) := by
  have hfresh : ∀ x, ¬Effect.Taken blank x := by
    intro x
    cases x <;> simp [Effect.Taken, blank]
  obtain ⟨haccepted, hshows⟩ :=
    parse_spec cutOff mill blank feedMove inLine_feedMove rfl rfl hfresh
  have hapart : feedMoveEffects.Pairwise fun e f => e.slots.Disjoint f.slots := by
    simp [feedMoveEffects, Effect.slots, Setting.group, Setting.param]
  have hok := haccepted.mpr ⟨_, effect_feedMove, hapart⟩
  cases hy : parse cutOff mill blank feedMove with
  | error => simp [hy, Except.toOption] at hok
  | ok y =>
    obtain ⟨hwrites, htaken⟩ := hshows y hy
    refine ⟨y, rfl, ?_, ?_, ?_⟩
    · exact (congrArg Block.motion (hwrites _ (by simp [feedMove]) _ effect_linear)).symm
    · exact (congrArg Block.spindleOn (hwrites _ (by simp [feedMove]) _ effect_spindle)).symm
    · rw [htaken, ← exists_effect effect_feedMove]
      simp [feedMoveEffects, Effect.slots, Setting.group, Setting.param]

end BlockWords

end Inspector
