import Inspector.Ngc.FlowControl
import Inspector.Transition.Partial

/-! # The control stack

Which lines use an entry of the control stack, an argument or an expression that is not there, and
which are answered without an error though they name no loop. In all other runs the stack is used
as it should be.
-/

namespace Inspector

namespace Ngc

open Json (Bytes)
open Streams (Allocator)

variable {V : Type*} {f : FloatOps V} {nearbyint : V → V} {alloc : Allocator} {out : Outside V}
variable {oLabel : UInt32} {lineNumber : ℕ} {text : Bytes} {skipping : Bool} {lastOp : Cmd}

/-- A loop that is not skipped has an expression. -/
def StackEntry.Runnable (e : StackEntry) : Prop :=
  e.operation = .opWhile → e.skip = false → e.expr.isSome

namespace FlowCtrl

variable {s s' : FlowCtrl V} {e : StackEntry} {stack : List StackEntry}

/-- The stack has room for its entries, and its loops can be run. -/
structure Sound (s : FlowCtrl V) : Prop where
  length_le : s.stack.length ≤ stackDepth
  runnable : ∀ e ∈ s.stack, e.Runnable

theorem sound_init : Sound ({} : FlowCtrl V) := ⟨Nat.zero_le _, by simp⟩

theorem Sound.congr (h : s.Sound) (heq : s'.stack = s.stack) : s'.Sound :=
  ⟨heq ▸ h.length_le, heq ▸ h.runnable⟩

theorem Sound.of_suffix (h : s.Sound) (hs : s'.stack <:+ s.stack) : s'.Sound :=
  ⟨hs.length_le.trans h.length_le, fun e he => h.runnable e (hs.subset he)⟩

/-- The top entry is changed. -/
theorem Sound.cons (h : s.Sound) (hs : s.stack = e :: stack) {e' : StackEntry} (he : e'.Runnable)
    (heq : s'.stack = e' :: stack) : s'.Sound where
  length_le := by
    have hle := h.length_le
    rw [hs] at hle
    rw [heq]
    exact hle
  runnable a ha := by
    rw [heq] at ha
    rcases List.mem_cons.mp ha with rfl | ha
    · exact he
    · exact h.runnable a (hs ▸ List.mem_cons_of_mem e ha)

/-- An entry is pushed. -/
theorem Sound.push (h : s.Sound) (hlen : s.stack.length < stackDepth) (he : e.Runnable)
    (heq : s'.stack = e :: s.stack) : s'.Sound where
  length_le := heq ▸ hlen
  runnable a ha := by
    rw [heq] at ha
    rcases List.mem_cons.mp ha with rfl | ha
    · exact he
    · exact h.runnable a ha

theorem setTop_eq (hs : s.stack = e :: stack) (g : StackEntry → StackEntry) :
    s.setTop g = some { s with stack := g e :: stack } := by
  rw [setTop, hs]

theorem top_eq (hs : s.stack = e :: stack) : s.top = some e := by
  rw [top, hs]
  rfl

section Pull

@[simp] theorem stack_emit (s : FlowCtrl V) (effect : Effect V) : (s.emit effect).stack = s.stack :=
  rfl

@[simp] theorem stack_clearSubs (s : FlowCtrl V) (file : Option ℕ) :
    (s.clearSubs file).stack = s.stack := rfl

@[simp] theorem stack_goBack (s : FlowCtrl V) (e : StackEntry) : (s.goBack e).stack = s.stack := rfl

@[simp] theorem stack_returnValue (s : FlowCtrl V) : (s.returnValue out text).stack = s.stack := rfl

@[simp] theorem stack_stackPull (s : FlowCtrl V) : s.stackPull.stack = s.stack.tail := by
  rw [stackPull]
  split
  · next hs => rw [hs]; rfl
  · next e stack hs => rw [hs]; rfl

theorem stack_pullWhile (p : StackEntry → Bool) (stack : List StackEntry) (s : FlowCtrl V)
    (hs : s.stack = stack) : (pullWhile p stack s).stack = stack.dropWhile p := by
  induction stack generalizing s with
  | nil => exact hs
  | cons e stack ih =>
    rw [pullWhile, List.dropWhile_cons]
    split_ifs with he
    · exact ih s.stackPull (by rw [stack_stackPull, hs, List.tail_cons])
    · exact hs

/-- The loop of `BREAK` and `CONTINUE` stops at the first entry with the label. -/
theorem pullToLabel_eq (oLabel : UInt32) (stack : List StackEntry) (s : FlowCtrl V)
    (hs : s.stack = stack) :
    (∀ e ∈ stack, e.oLabel ≠ oLabel) ∧ pullToLabel oLabel stack s = none ∨
    ∃ s' e rest, pullToLabel oLabel stack s = some s' ∧ s'.stack = e :: rest ∧
      e :: rest <:+ stack ∧ e.oLabel = oLabel := by
  induction stack generalizing s with
  | nil => exact .inl ⟨by simp, rfl⟩
  | cons e stack ih =>
    rw [pullToLabel]
    by_cases he : oLabel = e.oLabel
    · rw [if_neg (fun hne => hne he)]
      exact .inr ⟨s, e, stack, rfl, hs, List.suffix_rfl, he.symm⟩
    · rw [if_pos he]
      rcases ih s.stackPull (by rw [stack_stackPull, hs, List.tail_cons]) with
        ⟨hall, hnone⟩ | ⟨s', e', rest, hpull, hstack, hsuffix, hlabel⟩
      · refine .inl ⟨fun a ha => ?_, hnone⟩
        rcases List.mem_cons.mp ha with rfl | ha
        · exact fun heq => he heq.symm
        · exact hall a ha
      · exact .inr ⟨s', e', rest, hpull, hstack,
          hsuffix.trans (List.suffix_cons e stack), hlabel⟩

theorem suffix_stackUnwindSub (s : FlowCtrl V) (oLabel : UInt32) :
    (s.stackUnwindSub oLabel).stack <:+ s.stack := by
  have hpull := stack_pullWhile (fun e => e.oLabel ≠ oLabel) s.stack s rfl
  have hdrop := List.dropWhile_suffix (l := s.stack) (fun e : StackEntry => e.oLabel ≠ oLabel)
  rw [← hpull] at hdrop
  rw [stackUnwindSub]
  simp only
  split
  · exact hdrop
  · refine List.IsSuffix.trans ?_ hdrop
    rw [stack_stackPull]
    split_ifs <;> exact List.tail_suffix _

theorem suffix_ngcFlowctrlUnwindStack (s : FlowCtrl V) (file : Option ℕ) :
    (s.ngcFlowctrlUnwindStack file).stack <:+ s.stack := by
  rw [ngcFlowctrlUnwindStack, stack_pullWhile _ _ _ rfl]
  exact List.dropWhile_suffix _

theorem stack_ngcFlowctrlInit (s : FlowCtrl V) : s.ngcFlowctrlInit.stack = [] := by
  rw [ngcFlowctrlInit, stack_pullWhile _ _ _ rfl]
  exact List.dropWhile_eq_nil_iff.mpr fun _ _ => rfl

end Pull

/-- A statement has a result, and leaves the stack sound unless it fails. -/
def Keeps (r : Option (Status × FlowCtrl V)) : Prop :=
  ∃ status s', r = some (status, s') ∧ (status = .ok → s'.Sound)

section Keeps

theorem keeps_some (status : Status) (h : s.Sound) : Keeps (some (status, s)) :=
  ⟨status, s, rfl, fun _ => h⟩

theorem Keeps.map {r : Option (Status × FlowCtrl V)} (h : Keeps r)
    {g : Status × FlowCtrl V → Status × FlowCtrl V}
    (hg : ∀ status s, (status = .ok → s.Sound) → (g (status, s)).1 = .ok →
      (g (status, s)).2.Sound) : Keeps (r.map g) := by
  obtain ⟨status, s', rfl, hs'⟩ := h
  exact ⟨_, _, rfl, hg status s' hs'⟩

theorem keeps_withValue (h : s.Sound) (eval : Except Status (V × Bytes))
    {next : V → Option (Status × FlowCtrl V)} (hnext : ∀ value, Keeps (next value)) :
    Keeps (withValue eval s next) := by
  cases eval with
  | ok r => exact hnext r.1
  | error status => exact keeps_some status h

theorem keeps_withPush (operation : Cmd) {next : FlowCtrl V → Option (Status × FlowCtrl V)}
    (hnext : ∀ s' e, s'.stack = e :: s.stack → s.stack.length < stackDepth →
      e.operation = operation → Keeps (next s')) :
    Keeps (withPush out oLabel lineNumber s operation next) := by
  rw [withPush, stackPush]
  by_cases h : s.stack.length < stackDepth ∧ (operation = .opCall → out.callPush = true)
  · rw [if_pos h]
    exact hnext _ _ rfl h.1 rfl
  · rw [if_neg h]
    exact ⟨_, _, rfl, fun hok => by cases hok⟩

theorem keeps_inFile (h : s.Sound) {next : ℕ → Option (Status × FlowCtrl V)}
    (hnext : ∀ file, out.file = some file → Keeps (next file)) : Keeps (inFile out s next) := by
  rw [inFile]
  split
  · next file hfile => exact hnext file hfile
  · exact keeps_some _ h

theorem keeps_misplaced (h : s.Sound) : Keeps (misplaced skipping s) := keeps_some _ h

/-- The top entry is there when the last operation is that of an entry. -/
theorem exists_top (hlast : s.lastOp = lastOp) (h₁ : lastOp ≠ .opSub) (h₂ : lastOp ≠ .noOp) :
    ∃ e stack, s.stack = e :: stack ∧ e.operation = lastOp := by
  rw [FlowCtrl.lastOp, top] at hlast
  cases hs : s.stack with
  | nil =>
    rw [hs, List.head?_nil] at hlast
    simp only at hlast
    split_ifs at hlast
    · exact absurd hlast.symm h₁
    · exact absurd hlast.symm h₂
  | cons e stack =>
    rw [hs, List.head?_cons] at hlast
    exact ⟨e, stack, rfl, hlast⟩

theorem keeps_withTop (hs : s.stack = e :: stack) {next : StackEntry → Option (Status × FlowCtrl V)}
    (hnext : Keeps (next e)) : Keeps (s.withTop next) := by
  rw [withTop, top_eq hs]
  exact hnext

/-- The top entry is changed, and the statement goes on. -/
theorem keeps_setTop (h : s.Sound) (hs : s.stack = e :: stack) {g : StackEntry → StackEntry}
    (hg : (g e).Runnable) {next : FlowCtrl V → Option (Status × FlowCtrl V)}
    (hnext : ∀ s' : FlowCtrl V, s'.Sound → s'.stack = g e :: stack → Keeps (next s')) :
    Keeps ((s.setTop g).bind next) := by
  rw [setTop_eq hs]
  exact hnext _ (h.cons hs hg rfl) rfl

end Keeps

section Statements

theorem keeps_ifStatement (h : s.Sound) :
    Keeps (ifStatement f out oLabel lineNumber text skipping s) := by
  rw [ifStatement]
  split_ifs
  · exact keeps_some _ h
  · refine keeps_withValue h _ fun value => keeps_withPush _ fun s' e hs' hlen he => ?_
    rw [setTop_eq hs', Option.map_some]
    refine keeps_some _ (h.push hlen ?_ rfl)
    intro hop
    rw [he] at hop
    cases hop

theorem keeps_elseIfStatement (h : s.Sound) (hlast : s.lastOp = lastOp) :
    Keeps (elseIfStatement f out oLabel text skipping lastOp s) := by
  rw [elseIfStatement]
  split_ifs with hop
  · obtain ⟨e, stack, hs, he⟩ := exists_top hlast (by rintro rfl; simp at hop)
      (by rintro rfl; simp at hop)
    have hrun : ∀ e' : StackEntry, e'.operation = lastOp → e'.Runnable := by
      intro e' he' hwhile
      rw [he'] at hwhile
      subst hwhile
      simp at hop
    refine keeps_withTop hs ?_
    split_ifs with hlabel hhandled
    · exact keeps_setTop h hs (hrun _ he) fun s' h' hs' => keeps_some _ h'
    · refine keeps_setTop h hs (hrun _ he) fun s' h' hs' => ?_
      refine keeps_withValue h' _ fun value => ?_
      rw [setTop_eq hs', Option.map_some]
      refine keeps_some _ (h'.cons hs' ?_ rfl)
      split_ifs
      · exact hrun _ he
      · intro hwhile
        cases hwhile
    · exact keeps_some _ h
  · exact keeps_misplaced h

theorem keeps_elseStatement (h : s.Sound) (hlast : s.lastOp = lastOp) :
    Keeps (elseStatement oLabel skipping lastOp s) := by
  rw [elseStatement]
  split_ifs with hop
  · obtain ⟨e, stack, hs, he⟩ := exists_top hlast (by rintro rfl; simp at hop)
      (by rintro rfl; simp at hop)
    refine keeps_withTop hs ?_
    split_ifs with hlabel
    · rw [setTop_eq hs, Option.map_some]
      refine keeps_some _ (h.cons hs ?_ rfl)
      split_ifs
      · intro hwhile hskip
        cases hskip
      · intro hwhile
        cases hwhile
    · exact keeps_some _ h
  · exact keeps_misplaced h

theorem Sound.stackPull (h : s.Sound) : s.stackPull.Sound :=
  h.of_suffix (by rw [stack_stackPull]; exact List.tail_suffix _)

theorem keeps_endIfStatement (h : s.Sound) (hlast : s.lastOp = lastOp) :
    Keeps (endIfStatement oLabel skipping lastOp s) := by
  rw [endIfStatement]
  split_ifs with hop
  · obtain ⟨e, stack, hs, he⟩ := exists_top hlast (by rintro rfl; simp at hop)
      (by rintro rfl; simp at hop)
    refine keeps_withTop hs ?_
    split_ifs
    · exact keeps_some _ h.stackPull
    · exact keeps_some _ h
  · exact keeps_misplaced h

theorem keeps_doStatement (h : s.Sound) :
    Keeps (doStatement out oLabel lineNumber skipping s) := by
  refine keeps_inFile h fun file hfile => ?_
  split_ifs
  · exact keeps_some _ h
  · refine keeps_withPush _ fun s' e hs' hlen he => ?_
    rw [setTop_eq hs', Option.map_some]
    refine keeps_some _ (h.push hlen ?_ rfl)
    intro hop
    rw [he] at hop
    cases hop

theorem keeps_whileOfLoop (h : s.Sound) (file : ℕ) (value : V) :
    Keeps (whileOfLoop f out oLabel lineNumber text file value s) := by
  refine keeps_withPush _ fun s' e hs' hlen he => ?_
  rw [setTop_eq hs', Option.bind_some]
  split_ifs with hzero halloc
  · refine keeps_some _ (h.push hlen ?_ rfl)
    intro hwhile hskip
    rw [hzero] at hskip
    cases hskip
  · rw [setTop_eq rfl, Option.map_some]
    refine keeps_some _ (h.push hlen ?_ rfl)
    intro hwhile hskip
    rfl
  · exact ⟨_, _, rfl, fun hok => by cases hok⟩

theorem keeps_whileStatement (h : s.Sound) (hlast : s.lastOp = lastOp) :
    Keeps (whileStatement f out oLabel lineNumber text skipping lastOp s) := by
  refine keeps_inFile h fun file hfile => ?_
  split_ifs with hbrk hskip hop
  · cases hs : s.stack with
    | nil =>
      rw [top, hs] at hbrk
      cases hbrk
    | cons e stack =>
      refine keeps_withTop hs ?_
      split_ifs
      · exact keeps_some _ h.stackPull
      · exact keeps_some _ h
  · exact keeps_some _ h
  · refine keeps_withValue h _ fun value => ?_
    obtain ⟨e, stack, hs, he⟩ := exists_top hlast (by rintro rfl; cases hop)
      (by rintro rfl; cases hop)
    refine keeps_withTop hs ?_
    split_ifs with hlabel
    · rw [whileOfDo]
      split_ifs
      · exact keeps_some _ h.stackPull
      · exact keeps_some _ (h.congr rfl)
    · exact keeps_whileOfLoop h file value
  · refine keeps_withValue h _ fun value => ?_
    exact keeps_whileOfLoop h file value

/-- The expression of a loop that is not skipped is there. -/
theorem keeps_whileAgain (f : FloatOps V) (out : Outside V) (h : s.Sound)
    (hs : s.stack = e :: stack) (he : e.operation = .opWhile) : Keeps (whileAgain f out s e) := by
  rw [whileAgain]
  split_ifs with hskip
  · exact keeps_some _ h
  · have hrun := h.runnable e (hs ▸ List.mem_cons_self) he (Bool.eq_false_iff.mpr hskip)
    obtain ⟨expr, hexpr⟩ := Option.isSome_iff_exists.mp hrun
    rw [hexpr, Option.bind_some]
    refine keeps_withValue h _ fun value => ?_
    rw [setTop_eq hs, Option.map_some]
    have hrunnable : StackEntry.Runnable { e with skip := f.isZero value } := fun _ _ => hrun
    refine keeps_some _ (h.cons hs hrunnable ?_)
    split_ifs <;> rfl

theorem Keeps.pullSkipped {r : Option (Status × FlowCtrl V)} (h : Keeps r) :
    Keeps (r.map FlowCtrl.pullSkipped) := by
  refine h.map fun status s' hs' hok => ?_
  rw [FlowCtrl.pullSkipped] at hok ⊢
  simp only at hok ⊢
  split_ifs
  · exact (hs' hok).stackPull
  · exact hs' hok

theorem keeps_endWhileStatement (h : s.Sound) (hlast : s.lastOp = lastOp) :
    Keeps (endWhileStatement f out oLabel skipping lastOp s) := by
  refine keeps_inFile h fun file hfile => ?_
  split_ifs with hop hskip
  · obtain ⟨e, stack, hs, he⟩ := exists_top hlast (by rintro rfl; cases hop)
      (by rintro rfl; cases hop)
    refine keeps_withTop hs ?_
    split_ifs
    · exact (keeps_some _ h).pullSkipped
    · exact keeps_some _ h
  · obtain ⟨e, stack, hs, he⟩ := exists_top hlast (by rintro rfl; cases hop)
      (by rintro rfl; cases hop)
    refine keeps_withTop hs ?_
    split_ifs
    · exact (keeps_whileAgain f out h hs (he.trans hop)).pullSkipped
    · exact keeps_some _ h
  · exact keeps_misplaced h

theorem keeps_repeatStatement (h : s.Sound) :
    Keeps (repeatStatement f nearbyint out oLabel lineNumber text skipping s) := by
  refine keeps_inFile h fun file hfile => ?_
  split_ifs
  · exact keeps_some _ h
  · refine keeps_withValue h _ fun value => keeps_withPush _ fun s' e hs' hlen he => ?_
    simp only
    rw [setTop_eq hs', Option.map_some]
    refine keeps_some _ (h.push hlen ?_ rfl)
    intro hop
    split_ifs at hop
    · rw [he] at hop
      cases hop
    · rw [he] at hop
      cases hop

theorem keeps_endRepeatStatement (h : s.Sound) (hlast : s.lastOp = lastOp) :
    Keeps (endRepeatStatement out oLabel skipping lastOp s) := by
  refine keeps_inFile h fun file hfile => ?_
  split_ifs with hop hskip
  · obtain ⟨e, stack, hs, he⟩ := exists_top hlast (by rintro rfl; cases hop)
      (by rintro rfl; cases hop)
    refine keeps_withTop hs ?_
    split_ifs
    · exact keeps_some _ h.stackPull
    · exact keeps_some _ h
  · obtain ⟨e, stack, hs, he⟩ := exists_top hlast (by rintro rfl; cases hop)
      (by rintro rfl; cases hop)
    refine keeps_withTop hs ?_
    by_cases hlabel : oLabel = e.oLabel
    · rw [if_pos hlabel, setTop_eq hs, Option.map_some]
      have hrun : StackEntry.Runnable { e with repeats := e.repeats - 1 } :=
        h.runnable e (hs ▸ List.mem_cons_self)
      have hsound : Sound { s with stack := { e with repeats := e.repeats - 1 } :: stack } :=
        h.cons hs hrun rfl
      split_ifs
      · exact keeps_some _ (hsound.congr rfl)
      · exact keeps_some _ hsound.stackPull
    · rw [if_neg hlabel]
      exact keeps_some _ h
  · exact keeps_misplaced h

theorem keeps_alarmStatement (h : s.Sound) : Keeps (alarmStatement f out text skipping s) := by
  rw [alarmStatement]
  split_ifs
  · exact keeps_some _ h
  · split
    · exact keeps_some _ (h.congr rfl)
    · exact keeps_some _ h

theorem keeps_errorStatement (h : s.Sound) : Keeps (errorStatement f out text skipping s) := by
  rw [errorStatement]
  split_ifs
  · exact keeps_some _ h
  · split
    · exact keeps_some _ h
    · exact keeps_some _ h

theorem stack_addSub (s : FlowCtrl V) (file : ℕ) :
    (s.addSub alloc out oLabel lineNumber file).2.stack = s.stack := by
  rw [addSub]
  split_ifs <;> rfl

theorem keeps_subStatement (h : s.Sound) :
    Keeps (subStatement alloc out oLabel lineNumber s) := by
  refine keeps_inFile h fun file hfile => ?_
  by_cases hnamed : maxParamId < oLabel
  · rw [if_pos hnamed]
    exact keeps_some _ h
  · rw [if_neg hnamed]
    exact keeps_some _ (h.congr (stack_addSub s file))

theorem Sound.stackUnwindSub (h : s.Sound) (oLabel : UInt32) : (s.stackUnwindSub oLabel).Sound :=
  h.of_suffix (suffix_stackUnwindSub s oLabel)

theorem keeps_endSubStatement (h : s.Sound) : Keeps (endSubStatement out oLabel text s) := by
  refine keeps_inFile h fun file hfile => ?_
  refine keeps_some _ ?_
  split_ifs
  · exact h.congr rfl
  · exact (h.stackUnwindSub oLabel).congr rfl

end Statements

/-- A loop with the label is open. -/
def NamesLoop (s : FlowCtrl V) (oLabel : UInt32) : Prop :=
  ∃ e ∈ s.stack, e.oLabel = oLabel ∧
    (e.operation = .opDo ∨ e.operation = .opWhile ∨ e.operation = .opRepeat)

section Jumps

/-- The label of a `BREAK` or a `CONTINUE` is on the stack, and is that of a loop if the line is
skipped. -/
def JumpMeets (out : Outside V) (oLabel : UInt32) (skipping : Bool) (s : FlowCtrl V) : Prop :=
  out.file.isSome →
    if skipping then s.NamesLoop oLabel else ∃ e ∈ s.stack, e.oLabel = oLabel

/-- What a `BREAK` or a `CONTINUE` does. -/
inductive Jump (out : Outside V) (oLabel : UInt32) (skipping : Bool) (s : FlowCtrl V) :
    Option (Status × FlowCtrl V) → Prop
  | noFile (h : out.file = none) :
      Jump out oLabel skipping s (some (.flowControlNotExecutingMacro, s))
  | skipped (h : out.file.isSome) (hskip : skipping = true) :
      Jump out oLabel skipping s (some (.ok, s))
  | stray (h : out.file.isSome) (hskip : skipping = false)
      (hall : ∀ e ∈ s.stack, e.oLabel ≠ oLabel) : Jump out oLabel skipping s none
  | done (status : Status) (s' : FlowCtrl V) (hskip : skipping = false)
      (hlabel : ∃ e ∈ s.stack, e.oLabel = oLabel) (hsound : status = .ok → s'.Sound)
      (hloop : status = .ok → s.NamesLoop oLabel) : Jump out oLabel skipping s (some (status, s'))

variable {r : Option (Status × FlowCtrl V)}

theorem Jump.sound (h : Jump out oLabel skipping s r) (hs : s.Sound) {status : Status}
    (hr : r = some (status, s')) (hok : status = .ok) : s'.Sound := by
  cases h with
  | noFile hfile =>
    obtain ⟨rfl, rfl⟩ := Prod.mk.inj (Option.some.inj hr)
    exact hs
  | skipped hfile hskip =>
    obtain ⟨rfl, rfl⟩ := Prod.mk.inj (Option.some.inj hr)
    exact hs
  | stray hfile hskip hall => cases hr
  | done status' s'' hskip hlabel hsound hloop =>
    obtain ⟨rfl, rfl⟩ := Prod.mk.inj (Option.some.inj hr)
    exact hsound hok

theorem Jump.meets_iff (h : Jump out oLabel skipping s r) :
    JumpMeets out oLabel skipping s ↔
      ∃ status s', r = some (status, s') ∧ (status = .ok → s.NamesLoop oLabel) := by
  cases h with
  | noFile hfile =>
    refine iff_of_true (fun hsome => ?_) ⟨_, s, rfl, fun hok => by cases hok⟩
    rw [hfile] at hsome
    cases hsome
  | skipped hfile hskip =>
    subst hskip
    constructor
    · intro hmeets
      exact ⟨.ok, s, rfl, fun _ => hmeets hfile⟩
    · rintro ⟨status, s', hr, hloop⟩ -
      obtain ⟨rfl, rfl⟩ := Prod.mk.inj (Option.some.inj hr)
      exact hloop rfl
  | stray hfile hskip hall =>
    subst hskip
    refine iff_of_false (fun hmeets => ?_) ?_
    · obtain ⟨e, he, hlabel⟩ := hmeets hfile
      exact hall e he hlabel
    · rintro ⟨status, s', hr, -⟩
      cases hr
  | done status s' hskip hlabel hsound hloop =>
    subst hskip
    exact iff_of_true (fun _ => hlabel) ⟨status, s', rfl, hloop⟩

/-- What follows the loop that looks for the label. -/
theorem jump_of_pull (h : s.Sound) (hfile : out.file.isSome) (hskip : skipping = false)
    {next : FlowCtrl V → Option (Status × FlowCtrl V)}
    (hnext : ∀ s' e rest, s'.Sound → s'.stack = e :: rest → e ∈ s.stack → e.oLabel = oLabel →
      ∃ status s'', next s' = some (status, s'') ∧ (status = .ok → s''.Sound) ∧
        (status = .ok → s.NamesLoop oLabel)) :
    Jump out oLabel skipping s ((pullToLabel oLabel s.stack s).bind next) := by
  rcases pullToLabel_eq oLabel s.stack s rfl with
    ⟨hall, hpull⟩ | ⟨s', e, rest, hpull, hs', hsuffix, hlabel⟩
  · rw [hpull]
    exact .stray hfile hskip hall
  · have he : e ∈ s.stack := hsuffix.subset List.mem_cons_self
    obtain ⟨status, s'', hnext, hsound, hloop⟩ :=
      hnext s' e rest (h.of_suffix (hs' ▸ hsuffix)) hs' he hlabel
    rw [hpull, Option.bind_some, hnext]
    exact .done status s'' hskip ⟨e, he, hlabel⟩ hsound hloop

theorem jump_inFile {next : ℕ → Option (Status × FlowCtrl V)}
    (hnext : ∀ file, out.file = some file → Jump out oLabel skipping s (next file)) :
    Jump out oLabel skipping s (inFile out s next) := by
  rw [inFile]
  split
  · next file hfile => exact hnext file hfile
  · next hfile => exact .noFile hfile

theorem jump_breakStatement (h : s.Sound) :
    Jump out oLabel skipping s (breakStatement out oLabel skipping s) := by
  refine jump_inFile fun file hfile => ?_
  have hsome : out.file.isSome := by
    rw [hfile]
    rfl
  cases hskip : skipping with
  | true => exact .skipped hsome rfl
  | false =>
    refine jump_of_pull h hsome rfl fun s' e rest hsound hs' he hlabel => ?_
    rw [top_eq hs']
    simp only
    split_ifs with hloop hsame
    · rw [setTop_eq hs', Option.map_some]
      refine ⟨.ok, _, rfl, fun _ => hsound.cons hs' ?_ rfl, fun _ => ⟨e, he, hlabel, hloop⟩⟩
      intro hwhile hskip
      cases hskip
    · exact absurd hlabel.symm hsame
    · exact ⟨_, _, rfl, (fun hok => by cases hok), fun hok => by cases hok⟩

theorem jump_continueStatement (h : s.Sound) :
    Jump out oLabel skipping s (continueStatement f out oLabel skipping s) := by
  refine jump_inFile fun file hfile => ?_
  have hsome : out.file.isSome := by
    rw [hfile]
    rfl
  cases hskip : skipping with
  | true => exact .skipped hsome rfl
  | false =>
    refine jump_of_pull h hsome rfl fun s' e rest hsound hs' he hlabel => ?_
    rw [top_eq hs']
    simp only
    rw [if_pos hlabel.symm, continueLoop]
    split
    · next hop =>
      rw [setTop_eq hs', Option.map_some]
      have hrun : ∀ e' : StackEntry, e'.operation = e.operation → e'.Runnable := by
        intro e' he' hwhile
        rw [he', hop] at hwhile
        cases hwhile
      refine ⟨.ok, _, rfl, fun _ => ?_, fun _ => ⟨e, he, hlabel, .inr (.inr hop)⟩⟩
      split_ifs
      · exact hsound.cons hs' (hrun { e with repeats := e.repeats - 1 } rfl) rfl
      · exact hsound.cons hs' (hrun { e with repeats := e.repeats - 1, skip := true } rfl) rfl
    · next hop =>
      exact ⟨.ok, _, rfl, fun _ => hsound.congr rfl, fun _ => ⟨e, he, hlabel, .inl hop⟩⟩
    · next hop =>
      obtain ⟨status, s'', hr, hkeep⟩ :=
        (keeps_whileAgain f out hsound hs' hop).pullSkipped
      exact ⟨status, s'', hr, hkeep, fun _ => ⟨e, he, hlabel, .inr (.inl hop)⟩⟩
    · exact ⟨_, _, rfl, (fun hok => by cases hok), fun hok => by cases hok⟩

end Jumps

section Calls

/-- A call does not have exactly 29 arguments, unless it is not executed or fails for another
reason. -/
def CallMeets (alloc : Allocator) (out : Outside V) (oLabel : UInt32) (lineNumber : ℕ)
    (text : Bytes) (skipping : Bool) (s : FlowCtrl V) : Prop :=
  out.file.isSome ∨ maxParamId < oLabel → skipping = false →
    (calledSub alloc out oLabel lineNumber s).1.isSome →
      s.stack.length < stackDepth → out.callPush = true →
        ∀ values, readArguments out 30 text = .ok values → values.length ≠ 29

theorem length_readArguments_le (n : ℕ) (text : Bytes) {values : List V}
    (h : readArguments out n text = .ok values) : values.length ≤ n := by
  induction n generalizing text values with
  | zero =>
    obtain rfl := Except.ok.inj h
    exact le_rfl
  | succ n ih =>
    rw [readArguments] at h
    split_ifs at h with hnil
    · obtain rfl := Except.ok.inj h
      exact Nat.zero_le _
    · split at h
      · next value rest hvalue =>
        cases hrest : readArguments out n rest with
        | error status =>
          rw [hrest] at h
          cases h
        | ok values =>
          rw [hrest] at h
          obtain rfl := Except.ok.inj h
          exact Nat.succ_le_succ (ih rest hrest)
      · cases h

/-- All elements of the array are assigned, except the last one behind 29 arguments. -/
theorem callParams_isSome_iff {values : List V} (h : values.length ≤ 30) :
    (∀ param ∈ callParams out values, param.isSome) ↔ values.length ≠ 29 := by
  rw [callParams]
  constructor
  · intro hall heq
    have hnone : none ∈ values.map some ++ List.replicate 1 none :=
      List.mem_append_right _ (List.mem_singleton_self none)
    rw [heq] at hall
    exact absurd (hall none hnone) Bool.false_ne_true
  · intro hne param hparam
    rcases List.mem_append.mp hparam with hparam | hparam
    · obtain ⟨value, -, rfl⟩ := List.mem_map.mp hparam
      rfl
    · split_ifs at hparam with hlt
      · obtain ⟨id, -, rfl⟩ := List.mem_map.mp hparam
        rfl
      · have hlen : 30 - values.length = 0 := by omega
        rw [hlen] at hparam
        cases hparam

theorem setParams_eq_some (f : FloatOps V) (params : List (Option V)) (id : ℕ)
    (r : Status × FlowCtrl V) (h : ∀ param ∈ params, param.isSome) :
    ∃ status s', setParams f out params id r = some (status, s') ∧ s'.stack = r.2.stack := by
  induction params generalizing id r with
  | nil => exact ⟨r.1, r.2, rfl, rfl⟩
  | cons param params ih =>
    obtain ⟨value, rfl⟩ := Option.isSome_iff_exists.mp (h param List.mem_cons_self)
    rw [setParams, Option.bind_some]
    obtain ⟨status, s', hset, hstack⟩ := ih (id + 1)
      (if f.isZero value then r
        else if out.paramSet id value then (r.1, r.2.emit (.paramSet id value))
        else (.flowControlOutOfMemory, r.2))
      (fun param hparam => h param (List.mem_cons_of_mem _ hparam))
    refine ⟨status, s', hset, hstack.trans ?_⟩
    split_ifs <;> rfl

theorem isSome_of_setParams (params : List (Option V)) (id : ℕ) (r : Status × FlowCtrl V)
    (h : (setParams f out params id r).isSome) : ∀ param ∈ params, param.isSome := by
  induction params generalizing id r with
  | nil => simp
  | cons param params ih =>
    rw [setParams] at h
    cases param with
    | none => cases h
    | some value =>
      intro a ha
      rcases List.mem_cons.mp ha with rfl | ha
      · rfl
      · exact ih _ _ h a ha

theorem stack_calledSub (alloc : Allocator) (out : Outside V) (oLabel : UInt32) (lineNumber : ℕ)
    (s : FlowCtrl V) :
    (calledSub alloc out oLabel lineNumber s).2.2.stack = s.stack := by
  rw [calledSub]
  split_ifs
  · split
    · exact stack_addSub _ _
    · rfl
  · rfl

/-- A call with 29 arguments uses the one that is not assigned, once its entry is pushed. -/
theorem callWith_spec (f : FloatOps V) (out : Outside V) (oLabel : UInt32) (lineNumber : ℕ)
    (h : s.Sound) (sub : ℕ × Sub) (file : Option ℕ) {values : List V} (hle : values.length ≤ 30) :
    ((s.stack.length < stackDepth ∧ out.callPush = true ∧ values.length = 29) ∧
      callWith f out oLabel lineNumber sub file values s = none) ∨
    ((s.stack.length < stackDepth → out.callPush = true → values.length ≠ 29) ∧
      Keeps (callWith f out oLabel lineNumber sub file values s)) := by
  rw [callWith, stackPush]
  by_cases hpush : s.stack.length < stackDepth ∧ (Cmd.opCall = .opCall → out.callPush = true)
  · rw [if_pos hpush]
    simp only
    rw [setTop_eq rfl, Option.bind_some]
    by_cases hlen : values.length = 29
    · left
      refine ⟨⟨hpush.1, hpush.2 rfl, hlen⟩, ?_⟩
      rw [Option.map_eq_none_iff, ← Option.not_isSome_iff_eq_none]
      exact fun hsome =>
        (callParams_isSome_iff hle).mp (isSome_of_setParams _ _ _ hsome) hlen
    · right
      obtain ⟨status, s', hset, hstack⟩ := setParams_eq_some f (callParams out values) 1 _
        ((callParams_isSome_iff hle).mpr hlen)
      refine ⟨fun _ _ => hlen, ?_⟩
      rw [hset, Option.map_some]
      have hsound : s'.Sound := by
        refine h.push hpush.1 ?_ hstack
        intro hwhile
        cases hwhile
      split_ifs
      · exact keeps_some _ (hsound.congr rfl)
      · exact keeps_some _ hsound
  · rw [if_neg hpush]
    right
    refine ⟨fun hlt hcall => absurd ⟨hlt, fun _ => hcall⟩ hpush, ?_⟩
    exact ⟨_, _, rfl, fun hok => by cases hok⟩

theorem callStatement_spec (h : s.Sound) :
    (¬ CallMeets alloc out oLabel lineNumber text skipping s ∧
      callStatement f alloc out oLabel lineNumber text skipping s = none) ∨
    (CallMeets alloc out oLabel lineNumber text skipping s ∧
      Keeps (callStatement f alloc out oLabel lineNumber text skipping s)) := by
  rw [callStatement]
  by_cases huse : out.file.isSome ∨ maxParamId < oLabel
  · rw [if_pos huse]
    cases skipping with
    | true => exact .inr ⟨fun _ hskip => (by cases hskip), keeps_some _ h⟩
    | false =>
      rw [if_neg Bool.false_ne_true]
      have hstack := stack_calledSub alloc out oLabel lineNumber s
      rw [CallMeets]
      generalize calledSub alloc out oLabel lineNumber s = called at hstack ⊢
      obtain ⟨sub, file, s'⟩ := called
      have h' : s'.Sound := h.congr hstack
      have hstack' : s'.stack = s.stack := hstack
      cases sub with
      | none =>
        refine .inr ⟨fun _ _ hsome => (by cases hsome), ?_⟩
        exact ⟨_, _, rfl, fun hok => by cases hok⟩
      | some sub =>
        simp only
        cases hargs : readArguments out 30 text with
        | error status =>
          exact .inr ⟨fun _ _ _ _ _ values hvalues => (by cases hvalues), keeps_some _ h'⟩
        | ok values =>
          simp only
          rcases callWith_spec f out oLabel lineNumber h' sub file
            (length_readArguments_le 30 text hargs) with
            ⟨⟨hlt, hpush, hlen⟩, hnone⟩ | ⟨hne, hkeeps⟩
          · refine .inl ⟨fun hmeets => ?_, hnone⟩
            exact hmeets huse trivial rfl (hstack' ▸ hlt) hpush values rfl hlen
          · refine .inr ⟨fun _ _ _ hlt hpush values' hvalues => ?_, hkeeps⟩
            obtain rfl := Except.ok.inj hvalues
            exact hne (hstack' ▸ hlt) hpush
  · rw [if_neg huse]
    refine .inr ⟨fun hin => absurd hin huse, ?_⟩
    exact ⟨_, _, rfl, fun hok => by cases hok⟩

/-- There is an entry when a macro returns that is not a subroutine. -/
def ReturnMeets (out : Outside V) (skipping : Bool) (s : FlowCtrl V) : Prop :=
  out.file.isSome → skipping = false → s.execSub = none → out.onMacroReturn.isSome → s.stack ≠ []

theorem Sound.unwindStack (h : s.Sound) (file : Option ℕ) :
    (s.ngcFlowctrlUnwindStack file).Sound :=
  h.of_suffix (suffix_ngcFlowctrlUnwindStack s file)

theorem Sound.unwindStacks (h : s.Sound) (files : List (Option ℕ)) :
    (files.foldl ngcFlowctrlUnwindStack s).Sound := by
  induction files generalizing s with
  | nil => exact h
  | cons file files ih => exact ih (h.unwindStack file)

theorem returnStatement_spec (h : s.Sound) :
    (¬ ReturnMeets out skipping s ∧ returnStatement out oLabel text skipping s = none) ∨
    (ReturnMeets out skipping s ∧ Keeps (returnStatement out oLabel text skipping s)) := by
  rw [returnStatement, inFile, ReturnMeets]
  cases hfile : out.file with
  | none =>
    refine .inr ⟨fun hsome => (by cases hsome), ?_⟩
    exact ⟨_, _, rfl, fun hok => by cases hok⟩
  | some file =>
    cases skipping with
    | true => exact .inr ⟨fun _ hskip => (by cases hskip), keeps_some _ h⟩
    | false =>
      simp only
      rw [if_neg Bool.false_ne_true]
      cases hexec : s.execSub with
      | some sub =>
        refine .inr ⟨fun _ _ hnone => (by cases hnone), ?_⟩
        exact keeps_some _ ((h.stackUnwindSub oLabel).congr rfl)
      | none =>
        rw [if_neg (by exact Bool.false_ne_true)]
        cases hmacro : out.onMacroReturn with
        | none =>
          exact .inr ⟨fun _ _ _ hsome => (by cases hsome), keeps_some _ (h.congr rfl)⟩
        | some files =>
          cases hs : s.stack with
          | nil =>
            refine .inl ⟨fun hmeets => hmeets rfl trivial rfl rfl rfl, ?_⟩
            simp only
            rw [top, hs]
            rfl
          | cons e stack =>
            refine .inr ⟨fun _ _ _ _ => List.cons_ne_nil e stack, ?_⟩
            simp only
            rw [top_eq hs, Option.map_some]
            have hunwind : (returnValue out text (s.ngcFlowctrlUnwindStack e.file)).Sound :=
              (h.unwindStack e.file).congr rfl
            exact keeps_some _ (hunwind.unwindStacks files)

end Calls

/-- The condition of a statement. -/
def Meets (alloc : Allocator) (out : Outside V) (oLabel : UInt32) (lineNumber : ℕ) (text : Bytes)
    (skipping : Bool) (operation : Cmd) (s : FlowCtrl V) : Prop :=
  match operation with
  | .opBreak | .opContinue => JumpMeets out oLabel skipping s
  | .opCall => CallMeets alloc out oLabel lineNumber text skipping s
  | .opReturn => ReturnMeets out skipping s
  | _ => True

/-- A `BREAK` or a `CONTINUE` that names no loop fails. -/
def Answers (oLabel : UInt32) (operation : Cmd) (s : FlowCtrl V) (status : Status) : Prop :=
  operation = .opBreak ∨ operation = .opContinue → status = .ok → s.NamesLoop oLabel

theorem Keeps.spec {r : Option (Status × FlowCtrl V)} (h : Keeps r) {operation : Cmd}
    (hop : ¬ (operation = .opBreak ∨ operation = .opContinue)) :
    (∀ s', r = some (.ok, s') → s'.Sound) ∧
      ∃ status s', r = some (status, s') ∧ Answers oLabel operation s status := by
  obtain ⟨status, s', rfl, hsound⟩ := h
  refine ⟨fun s'' hr => ?_, status, s', rfl, fun hjump => absurd hjump hop⟩
  obtain ⟨rfl, rfl⟩ := Prod.mk.inj (Option.some.inj hr)
  exact hsound rfl

/-- A statement that succeeds leaves the stack sound, and it has a result that is as it should be
exactly when its condition is met. -/
theorem statement_spec (f : FloatOps V) (nearbyint : V → V) (alloc : Allocator) (out : Outside V)
    (oLabel : UInt32) (lineNumber : ℕ) (text : Bytes) (skipping : Bool) (operation : Cmd)
    (h : s.Sound) (hlast : s.lastOp = lastOp) :
    (∀ s', statement f nearbyint alloc out oLabel lineNumber text skipping operation lastOp s =
      some (.ok, s') → s'.Sound) ∧
    (Meets alloc out oLabel lineNumber text skipping operation s ↔
      ∃ status s', statement f nearbyint alloc out oLabel lineNumber text skipping operation lastOp
        s = some (status, s') ∧ Answers oLabel operation s status) := by
  have hkeeps : ∀ {r : Option (Status × FlowCtrl V)}, Keeps r →
      ¬ (operation = .opBreak ∨ operation = .opContinue) →
      (∀ s', r = some (.ok, s') → s'.Sound) ∧
        (True ↔ ∃ status s', r = some (status, s') ∧ Answers oLabel operation s status) := by
    intro r hr hop
    obtain ⟨hsound, hresult⟩ := hr.spec hop
    exact ⟨hsound, iff_of_true trivial hresult⟩
  have hjump : ∀ {r : Option (Status × FlowCtrl V)}, Jump out oLabel skipping s r →
      (operation = .opBreak ∨ operation = .opContinue) →
      (∀ s', r = some (.ok, s') → s'.Sound) ∧
        (JumpMeets out oLabel skipping s ↔
          ∃ status s', r = some (status, s') ∧ Answers oLabel operation s status) := by
    intro r hr hop
    refine ⟨fun s' hs' => hr.sound h hs' rfl, hr.meets_iff.trans ?_⟩
    refine exists_congr fun status => exists_congr fun s' => and_congr_right fun _ => ?_
    exact ⟨fun hloop _ => hloop, fun hanswer => hanswer hop⟩
  have hpartial : ∀ {r : Option (Status × FlowCtrl V)} {P : Prop},
      (¬ P ∧ r = none ∨ P ∧ Keeps r) → ¬ (operation = .opBreak ∨ operation = .opContinue) →
      (∀ s', r = some (.ok, s') → s'.Sound) ∧
        (P ↔ ∃ status s', r = some (status, s') ∧ Answers oLabel operation s status) := by
    rintro r P (⟨hnot, rfl⟩ | ⟨hP, hr⟩) hop
    · refine ⟨fun s' hs' => (by cases hs'), iff_of_false hnot ?_⟩
      rintro ⟨status, s', hs', -⟩
      cases hs'
    · obtain ⟨hsound, hresult⟩ := hr.spec hop
      exact ⟨hsound, iff_of_true hP hresult⟩
  cases operation with
  | noOp => exact hkeeps (keeps_some _ h) (by simp)
  | opIf => exact hkeeps (keeps_ifStatement h) (by simp)
  | opElseIf => exact hkeeps (keeps_elseIfStatement h hlast) (by simp)
  | opElse => exact hkeeps (keeps_elseStatement h hlast) (by simp)
  | opEndIf => exact hkeeps (keeps_endIfStatement h hlast) (by simp)
  | opDo => exact hkeeps (keeps_doStatement h) (by simp)
  | opContinue => exact hjump (jump_continueStatement h) (by simp)
  | opBreak => exact hjump (jump_breakStatement h) (by simp)
  | opWhile => exact hkeeps (keeps_whileStatement h hlast) (by simp)
  | opEndWhile => exact hkeeps (keeps_endWhileStatement h hlast) (by simp)
  | opRepeat => exact hkeeps (keeps_repeatStatement h) (by simp)
  | opEndRepeat => exact hkeeps (keeps_endRepeatStatement h hlast) (by simp)
  | opSub => exact hkeeps (keeps_subStatement h) (by simp)
  | opEndSub => exact hkeeps (keeps_endSubStatement h) (by simp)
  | opCall => exact hpartial (callStatement_spec h) (by simp)
  | opReturn => exact hpartial (returnStatement_spec h) (by simp)
  | raiseAlarm => exact hkeeps (keeps_alarmStatement h) (by simp)
  | raiseError => exact hkeeps (keeps_errorStatement h) (by simp)

end FlowCtrl

/-- The condition of an operation in the state in front of it. -/
def FlowOp.Meets (alloc : Allocator) (s : FlowCtrl V) : FlowOp V → Prop
  | .line out oLabel lineNumber block =>
    ∀ operation text, readCommand block = some (operation, text) →
      FlowCtrl.Meets alloc out oLabel lineNumber text s.skipping operation s
  | _ => True

/-- The stack has room for its entries, and a `BREAK` or a `CONTINUE` that names no loop fails. -/
def FlowOp.Good (s : FlowCtrl V) (op : FlowOp V) (status : Status) (s' : FlowCtrl V) : Prop :=
  s'.stack.length ≤ stackDepth ∧
    match op with
    | .line _ oLabel _ block =>
      ∀ operation text, readCommand block = some (operation, text) →
        operation = .opBreak ∨ operation = .opContinue → ¬ s.NamesLoop oLabel → status ≠ .ok
    | _ => True

namespace FlowCtrl

variable {s s' : FlowCtrl V}

theorem sound_finish {r : Status × FlowCtrl V} (h : r.1 = .ok → r.2.Sound) :
    (finish r).2.Sound := by
  rw [finish]
  split_ifs with hok
  · exact (h hok).congr rfl
  · have hempty : ({ r.2.ngcFlowctrlInit with skipBlocks := false } : FlowCtrl V).stack = [] :=
      stack_ngcFlowctrlInit r.2
    exact ⟨hempty ▸ Nat.zero_le _, hempty ▸ by simp⟩

theorem fst_finish (r : Status × FlowCtrl V) : (finish r).1 = r.1 := by
  rw [finish]
  split_ifs with hok
  · exact hok.symm
  · rfl

/-- The stack stays sound. -/
theorem sound_exec (h : s.Sound) (op : FlowOp V) {status : Status}
    (hexec : op.exec f nearbyint alloc s = some (status, s')) : s'.Sound := by
  cases op with
  | line out oLabel lineNumber line =>
    rw [FlowOp.exec, ngcFlowctrl] at hexec
    split at hexec
    · obtain ⟨rfl, rfl⟩ := Prod.mk.inj (Option.some.inj hexec)
      exact h
    · next operation text hread =>
      obtain ⟨r, hr, heq⟩ := Option.map_eq_some_iff.mp hexec
      have hsound := sound_finish (r := r) fun hok =>
        (statement_spec f nearbyint alloc out oLabel lineNumber text s.skipping operation h rfl).1
          r.2 (by rw [hr, ← hok])
      rw [heq] at hsound
      exact hsound
  | unwindStack file =>
    obtain ⟨-, rfl⟩ := Prod.mk.inj (Option.some.inj hexec)
    exact h.unwindStack file
  | unwindSub oLabel =>
    obtain ⟨-, rfl⟩ := Prod.mk.inj (Option.some.inj hexec)
    exact h.stackUnwindSub oLabel
  | init =>
    obtain ⟨-, rfl⟩ := Prod.mk.inj (Option.some.inj hexec)
    have hempty := stack_ngcFlowctrlInit s
    exact ⟨hempty ▸ Nat.zero_le _, hempty ▸ by simp⟩

/-- The condition of an operation says exactly when its result is as it should be. -/
theorem meets_iff (h : s.Sound) (op : FlowOp V) :
    op.Meets alloc s ↔
      ∃ status s', op.exec f nearbyint alloc s = some (status, s') ∧ op.Good s status s' := by
  have hsound : ∀ status s', op.exec f nearbyint alloc s = some (status, s') → s'.Sound :=
    fun _ _ hexec => sound_exec h op hexec
  cases op with
  | line out oLabel lineNumber line =>
    cases hread : readCommand line with
    | none =>
      refine iff_of_true (fun operation text heq => ?_)
        ⟨.flowControlSyntaxError, s, ?_, h.length_le, ?_⟩
      · rw [hread] at heq
        cases heq
      · rw [FlowOp.exec, ngcFlowctrl, hread]
      · intro operation text heq
        rw [hread] at heq
        cases heq
    | some r =>
      obtain ⟨operation, text⟩ := r
      have hiff := (statement_spec f nearbyint alloc out oLabel lineNumber text s.skipping
        operation h rfl).2
      have hmeets : (FlowOp.line out oLabel lineNumber line).Meets alloc s ↔
          Meets alloc out oLabel lineNumber text s.skipping operation s := by
        constructor
        · exact fun hall => hall operation text hread
        · intro hone operation' text' heq
          obtain ⟨rfl, rfl⟩ := Prod.mk.inj (Option.some.inj (hread.symm.trans heq))
          exact hone
      have hexec : (FlowOp.line out oLabel lineNumber line).exec f nearbyint alloc s =
          (statement f nearbyint alloc out oLabel lineNumber text s.skipping operation s.lastOp
            s).map finish := by
        rw [FlowOp.exec, ngcFlowctrl, hread]
      rw [hmeets, hiff]
      constructor
      · rintro ⟨status, s', hstatement, hanswer⟩
        have hresult : (FlowOp.line out oLabel lineNumber line).exec f nearbyint alloc s =
            some ((finish (status, s')).1, (finish (status, s')).2) := by
          rw [hexec, hstatement]
          rfl
        refine ⟨_, _, hresult, (hsound _ _ hresult).length_le, ?_⟩
        intro operation' text' heq hjump hloop hok
        obtain ⟨rfl, rfl⟩ := Prod.mk.inj (Option.some.inj (hread.symm.trans heq))
        rw [fst_finish] at hok
        exact hloop (hanswer hjump hok)
      · rintro ⟨status, s', hresult, -, hgood⟩
        rw [hexec] at hresult
        obtain ⟨r, hr, heq⟩ := Option.map_eq_some_iff.mp hresult
        refine ⟨r.1, r.2, hr, fun hjump hok => ?_⟩
        by_contra hloop
        refine hgood operation text hread hjump hloop ?_
        have hfst := fst_finish r
        rw [heq] at hfst
        exact hfst.trans hok
  | unwindStack file => exact iff_of_true trivial ⟨_, _, rfl, (hsound _ _ rfl).length_le, trivial⟩
  | unwindSub oLabel => exact iff_of_true trivial ⟨_, _, rfl, (hsound _ _ rfl).length_le, trivial⟩
  | init => exact iff_of_true trivial ⟨_, _, rfl, (hsound _ _ rfl).length_le, trivial⟩

end FlowCtrl

/-- A run is as it should be exactly when all its lines meet their conditions. -/
theorem flowctrl_fine_iff (f : FloatOps V) (nearbyint : V → V) (alloc : Allocator)
    (ops : List (FlowOp V)) :
    Transition.Fine (FlowOp.exec f nearbyint alloc) FlowOp.Good {} ops ↔
      Transition.Guarded (FlowOp.exec f nearbyint alloc) (fun s op => op.Meets alloc s) {} ops :=
  Transition.fine_iff_guarded (I := FlowCtrl.Sound)
    (fun _ op _ _ h hexec => FlowCtrl.sound_exec h op hexec)
    (fun _ op h => FlowCtrl.meets_iff h op) FlowCtrl.sound_init ops

/-- The operations on a single value. -/
def FloatOps.single : FloatOps Unit where
  lit _ := ()
  ofInt _ := ()
  toInt _ := 0
  toUint _ := 0
  add _ _ := ()
  sub _ _ := ()
  mul _ _ := ()
  div _ _ := ()
  fmod _ _ := ()
  pow _ _ := ()
  atan2 _ _ := ()
  neg _ := ()
  fabs _ := ()
  floor _ := ()
  ceil _ := ()
  acos _ := ()
  asin _ := ()
  cos _ := ()
  exp _ := ()
  log _ := ()
  sin _ := ()
  sqrt _ := ()
  tan _ := ()
  lt _ _ := false
  le _ _ := true
  eq _ _ := true
  invalid _ := false
  invalid_neg _ := rfl

/-- A file is read, and nothing else is there. -/
def Outside.inFile {V : Type*} (zero : V) : Outside V where
  file := some 0
  tell _ := 0
  eval _ := .error .gcodeUnsupportedCommand
  evalReturned _ := .error .gcodeUnsupportedCommand
  param _ := zero
  paramSet _ _ := true
  stringParam _ := none
  redirect _ := none
  callPush := true
  subAllocated := true
  exprAllocated := true
  onMacroReturn := none

/-- A `BREAK` without any entry looks at the label of the entry in front of the first one. -/
theorem not_flowctrl_fine :
    ¬ ∀ (V : Type) (f : FloatOps V) (nearbyint : V → V) (alloc : Allocator)
      (ops : List (FlowOp V)),
        Transition.Fine (FlowOp.exec f nearbyint alloc) FlowOp.Good {} ops := by
  intro h
  obtain ⟨status, s', hexec, -, -⟩ := h Unit .single id Streams.firstFit
    [.line (.inFile ()) 1 0 (['B', 'R', 'E', 'A', 'K'].map Char.toUInt8)]
  cases hexec

end Ngc

end Inspector
