import Inspector.Ngc.Grammar

/-! # Evaluating expressions

What is written for an expression is read as the value of the expression. The loops of
`ngc_eval_expression` are those of a stack whose levels increase, and the levels are fewer than the
slots. The texts of operands and operators are told apart by their first characters.
-/

namespace Inspector

namespace Ngc

open Json (Bytes isDigit)

variable {V α β : Type*} {f : FloatOps V} {store : Store V} {unset : Bytes → V}

/-- A reading comes to a value that may be missing, in front of `rest`. -/
def Agrees (r : Reading α) (v : Option α) (rest : Bytes) : Prop :=
  match v with
  | some v => r = .ok v rest
  | none => ∃ status, status ≠ Status.ok ∧ r = .error status

/-- Errors have a status of their own. -/
def Faulty (r : Except Status α) : Prop := r ≠ .error .ok

section Agreement

variable {r : Reading α} {v : Option α} {rest rest' : Bytes}

theorem agrees_error {status : Status} (h : status ≠ .ok) (rest : Bytes) :
    Agrees (.error status : Reading α) none rest := ⟨status, h, rfl⟩

theorem Agrees.bind {g : α → Bytes → Reading β} {h : α → Option β} (hr : Agrees r v rest)
    (hg : ∀ a, Agrees (g a rest) (h a) rest') : Agrees (r.bind g) (v.bind h) rest' := by
  cases v with
  | some a =>
    obtain rfl : r = .ok a rest := hr
    exact hg a
  | none =>
    obtain ⟨status, hstatus, rfl⟩ := hr
    exact ⟨status, hstatus, rfl⟩

theorem Agrees.map {g : α → β} (hr : Agrees r v rest) :
    Agrees (r.bind fun a rest => .ok (g a) rest) (v.map g) rest := by
  rw [Option.map_eq_bind]
  exact hr.bind fun a => rfl

theorem agrees_ofExcept {e : Except Status α} (h : Faulty e) (rest : Bytes) :
    Agrees (.ofExcept e rest) e.toOption rest := by
  cases e with
  | ok a => exact rfl
  | error status =>
    refine agrees_error ?_ rest
    rintro rfl
    exact h rfl

/-- Finite numbers are let through. -/
theorem Agrees.checked {r : Reading V} {v : Option V} (h : Agrees r v rest) (u : V) :
    Agrees (checked f u r) (finite f v) rest := by
  cases v with
  | some a =>
    obtain rfl : r = .ok a rest := h
    rw [Ngc.checked, finite, Option.filter_some]
    cases f.invalid a
    · exact rfl
    · exact agrees_error (by decide) rest
  | none =>
    obtain ⟨status, hstatus, rfl⟩ := h
    rw [Ngc.checked]
    split_ifs
    · exact agrees_error (by decide) rest
    · exact agrees_error hstatus rest

end Agreement

section Statuses

@[simp] theorem faulty_ok (a : α) : Faulty (.ok a : Except Status α) := by
  rintro ⟨⟩

@[simp] theorem faulty_error {status : Status} :
    Faulty (.error status : Except Status α) ↔ status ≠ .ok := by
  simp [Faulty]

@[simp] theorem faulty_ite {p : Prop} [Decidable p] {e e' : Except Status α} :
    Faulty (if p then e else e') ↔ (p → Faulty e) ∧ (¬ p → Faulty e') := by
  split_ifs with h <;> simp [h]

theorem faulty_executeBinary (v w : V) (o : BinaryOp) : Faulty (f.executeBinary v o w) := by
  cases o <;> simp [FloatOps.executeBinary, FloatOps.executeBinary1, FloatOps.executeBinary2]

theorem faulty_executeUnary (v : V) (o : UnaryOp) : Faulty (f.executeUnary v o) := by
  cases o <;> simp [FloatOps.executeUnary]

theorem faulty_integerOf (v : V) : Faulty (integerOf f v) := by
  simp [integerOf]

theorem faulty_namedParam (name : Name) : Faulty (namedParam store name) := by
  unfold namedParam
  cases store.namedParamGet name <;> simp

theorem faulty_numberedParam (check : Bool) (n : ℤ) : Faulty (numberedParam store check n) := by
  unfold numberedParam
  cases store.paramGet (toParamId n) <;> simp

theorem faulty_settingValue (n : ℤ) (bit : Option ℕ) : Faulty (settingValue f store n bit) := by
  unfold settingValue
  cases store.setting n with
  | none => simp
  | some found => cases found <;> cases bit <;> simp

theorem faulty_bitOf (n : ℤ) : Faulty (bitOf n) := by
  simp [bitOf]

end Statuses

section Texts

theorem lookup_append {Op : Type*} (names names' : List (Bytes × Op)) (s : Bytes) :
    lookup (names ++ names') s = (lookup names s).or (lookup names' s) :=
  List.findSome?_append

/-- A multiplication is found in front of what does not make it a power. -/
theorem lookup_times {c : UInt8} (hc : c ≠ '*'.toUInt8) (t : Bytes) :
    lookup binaryNames ('*'.toUInt8 :: c :: t) = some (.times, c :: t) := by
  have hsplit : binaryNames =
      (binaryNames.take 3 ++ [(BinaryOp.power.text, .power)]) ++ binaryNames.drop 4 := rfl
  have hbefore : lookup (binaryNames.take 3) ('*'.toUInt8 :: c :: t) = none := rfl
  have hafter : lookup (binaryNames.drop 4) ('*'.toUInt8 :: c :: t) = some (.times, c :: t) := rfl
  have hbegins : BinaryOp.power.text.isPrefixOf ('*'.toUInt8 :: c :: t) = false := by
    have hne : ('*'.toUInt8 == c) = false := beq_false_of_ne hc.symm
    change ('*'.toUInt8 == '*'.toUInt8 && ('*'.toUInt8 == c && true)) = false
    rw [hne]
    rfl
  have hpower : lookup [(BinaryOp.power.text, BinaryOp.power)] ('*'.toUInt8 :: c :: t) = none := by
    rw [lookup, List.findSome?_singleton]
    exact if_neg (by rw [hbegins]; exact Bool.false_ne_true)
  rw [hsplit, lookup_append, lookup_append, hbefore, hpower, hafter]
  rfl

/-- An operator is found behind its text; the text of a multiplication begins that of a power. -/
theorem readOperation_text {o : BinaryOp} (ho : o ≠ .noOp) {t : Bytes}
    (ht : o = .times → t.head? ≠ some '*'.toUInt8) : readOperation (o.text ++ t) = .ok (o, t) := by
  cases o with
  | noOp => exact absurd rfl ho
  | times =>
    cases t with
    | nil => rfl
    | cons c t =>
      have hc : c ≠ '*'.toUInt8 := fun h => ht rfl (congrArg some h)
      change readOperation ('*'.toUInt8 :: c :: t) = _
      rw [readOperation, lookup_times hc]
  | _ => rfl

theorem readOperationUnary_text (o : UnaryOp) (t : Bytes) :
    readOperationUnary (o.text ++ t) = .ok (o, t) := by
  cases o <;> rfl

theorem ends_text {o : BinaryOp} (ho : o ≠ .noOp) (t : Bytes) : Ends (o.text ++ t) := by
  have hall : ∀ o : BinaryOp, o ≠ .noOp → ∃ c cs, o.text = c :: cs ∧
      isDigit c = false ∧ c ≠ '.'.toUInt8 := by
    intro o ho
    cases o with
    | noOp => exact absurd rfl ho
    | _ => exact ⟨_, _, rfl, by decide, by decide⟩
  obtain ⟨c, cs, htext, hc⟩ := hall o ho
  intro d hd
  rw [htext] at hd
  obtain rfl := Option.some.inj hd
  exact hc

end Texts

section Stack

open Precedence (Increasing reduce run)

/-- The arrays hold a stack, whose top is at the highest index. -/
def Holds (a : Arrays V) : List (V × BinaryOp) → Prop
  | [] => True
  | (v, o) :: s => a.values s.length = v ∧ a.operators s.length = o ∧ Holds a s

variable {a a' : Arrays V} {s s' : List (V × BinaryOp)} {v w : V} {o : BinaryOp}

/-- What is above a stack may be changed. -/
theorem Holds.congr (h : Holds a s)
    (hsame : ∀ i < s.length, a'.values i = a.values i ∧ a'.operators i = a.operators i) :
    Holds a' s := by
  induction s with
  | nil => trivial
  | cons b s ih =>
    obtain ⟨hv, ho, hs⟩ := h
    obtain ⟨hv', ho'⟩ := hsame s.length (Nat.lt_succ_self _)
    exact ⟨hv'.trans hv, ho'.trans ho, ih hs fun i hi => hsame i (Nat.lt_succ_of_lt hi)⟩

/-- Something is put on top of a stack. -/
theorem Holds.push (h : Holds a s) (v : V) (o : BinaryOp) :
    Holds ⟨Function.update a.values s.length v, Function.update a.operators s.length o⟩
      ((v, o) :: s) := by
  refine ⟨Function.update_self _ _ _, Function.update_self _ _ _, h.congr fun i hi => ?_⟩
  exact ⟨Function.update_of_ne hi.ne _ _, Function.update_of_ne hi.ne _ _⟩

theorem Holds.operators_zero (h : Holds a s) : ∀ b ∈ s.getLast?, a.operators 0 = b.2 := by
  induction s with
  | nil => exact fun b hb => by cases hb
  | cons c s ih =>
    obtain ⟨-, ho, hs⟩ := h
    cases s with
    | nil =>
      intro b hb
      obtain rfl := Option.some.inj hb
      exact ho
    | cons d s =>
      rw [List.getLast?_cons_cons]
      exact ih hs

/-- The inner loop takes from the stack what is applied before an operator. -/
theorem collapse_eq (hs : Holds a s) (hhead : ∀ b ∈ s.head?, precedence o ≤ precedence b.2)
    (hne : s ≠ []) (hv : a.values s.length = v) (ho : a.operators s.length = o) :
    match reduce precedence (operation f) s v o with
    | some s' => ∃ a', collapse f a s.length = .ok (a', s'.length) ∧ Holds a' s'
    | none => ∃ status, status ≠ .ok ∧ collapse f a s.length = .error status := by
  induction s generalizing a v with
  | nil => exact absurd rfl hne
  | cons b s ih =>
    obtain ⟨u, o'⟩ := b
    obtain ⟨hu, ho', hs⟩ := hs
    have hle : precedence o ≤ precedence o' := hhead (u, o') rfl
    rw [List.length_cons] at hv ho
    rw [List.length_cons, reduce, if_pos hle]
    cases hexec : f.executeBinary u o' v with
    | error status =>
      have hoperation : operation f o' u v = none := by rw [operation, hexec]; rfl
      rw [hoperation, collapse, hv, ho, hu, ho', if_pos hle, hexec]
      refine ⟨status, ?_, rfl⟩
      rintro rfl
      exact faulty_executeBinary u v o' hexec
    | ok w =>
      have hoperation : operation f o' u v = some w := by rw [operation, hexec]; rfl
      let a₁ : Arrays V :=
        ⟨Function.update a.values s.length w, Function.update a.operators s.length o⟩
      have hpushed : Holds a₁ ((w, o) :: s) := hs.push w o
      obtain ⟨hw, htop, hbelow⟩ := hpushed
      have hstep : collapse f a (s.length + 1) =
          if 1 < s.length + 1 ∧
              precedence (a₁.operators s.length) ≤ precedence (a₁.operators (s.length - 1)) then
            collapse f a₁ s.length
          else .ok (a₁, s.length + 1) := by
        rw [collapse, hv, ho, hu, ho', if_pos hle, hexec]
        rfl
      rw [hoperation, Option.bind_some, hstep, htop]
      cases s with
      | nil =>
        rw [if_neg fun h => absurd h.1 (lt_irrefl 1)]
        exact ⟨a₁, rfl, hs.push w o⟩
      | cons c s =>
        obtain ⟨u', o''⟩ := c
        have hnext : a₁.operators (((u', o'') :: s).length - 1) = o'' := hbelow.2.1
        rw [hnext]
        by_cases hmore : precedence o ≤ precedence o''
        · rw [if_pos ⟨by simp, hmore⟩]
          refine ih hbelow ?_ (List.cons_ne_nil _ _) hw htop
          rintro b ⟨⟩
          exact hmore
        · rw [if_neg fun h => hmore h.2, reduce, if_neg hmore]
          exact ⟨a₁, rfl, hs.push w o⟩

/-- The operators on a stack are between operands, and their levels increase. -/
structure Stacked (s : List (V × BinaryOp)) : Prop where
  increasing : Increasing precedence s
  operators : ∀ b ∈ s, IsOperator b.2

theorem precedence_of_isOperator (h : IsOperator o) : 1 < precedence o ∧ precedence o ≤ topLevel := by
  obtain ⟨hno, hbracket⟩ := h
  cases o with
  | noOp => exact absurd rfl hno
  | rightBracket => exact absurd rfl hbracket
  | _ => decide

theorem Stacked.within (h : Stacked s) :
    ∀ b ∈ s, 0 < precedence b.2 ∧ precedence b.2 ≤ topLevel := by
  intro b hb
  obtain ⟨hlt, hle⟩ := precedence_of_isOperator (h.operators b hb)
  exact ⟨Nat.zero_lt_of_lt hlt, hle⟩

/-- There is a slot above the stack. -/
theorem Stacked.length_lt (h : Stacked s) : s.length < maxStack := by
  cases s with
  | nil => exact Nat.zero_lt_succ _
  | cons b s =>
    have hlen := h.increasing.length_le (fun c hc => (h.within c hc).1) b rfl
    exact Nat.lt_succ_of_le (hlen.trans (h.within b List.mem_cons_self).2)

theorem Stacked.ne_rightBracket (h : Stacked s) (hne : s ≠ []) (hs : Holds a s) :
    a.operators 0 ≠ .rightBracket := by
  have hlast := hs.operators_zero (s.getLast hne) (List.getLast?_eq_some_getLast hne)
  rw [hlast]
  exact (h.operators _ (List.getLast_mem hne)).2

/-- An iteration of the outer loop reads an operand and an operator, and takes from the stack what is
applied before this operator. -/
theorem evalLoop_step {read : Bytes → Reading V} {text t : Bytes} {x : Option V} (n : ℕ)
    (hs : Holds a s) (h : Stacked s) (hne : s ≠ [])
    (hread : Agrees (read (text ++ (o.text ++ t))) x (o.text ++ t)) (ho : o ≠ .noOp)
    (ht : o = .times → t.head? ≠ some '*'.toUInt8) :
    match x.bind fun v => reduce precedence (operation f) s v o with
    | some s' => ∃ a', evalLoop f read (n + 1) a s.length (text ++ (o.text ++ t)) =
        evalLoop f read n a' s'.length t ∧ Holds a' s'
    | none => ∃ status, status ≠ .ok ∧
        evalLoop f read (n + 1) a s.length (text ++ (o.text ++ t)) = .error status := by
  have hslot : 0 < s.length ∧ s.length < maxStack := ⟨List.length_pos_of_ne_nil hne, h.length_lt⟩
  rw [evalLoop, if_neg (h.ne_rightBracket hne hs), if_pos hslot]
  cases x with
  | none =>
    obtain ⟨status, hstatus, herror⟩ := hread
    exact ⟨status, hstatus, by rw [herror]; rfl⟩
  | some v =>
    have hvalue : read (text ++ (o.text ++ t)) = .ok v (o.text ++ t) := hread
    obtain ⟨b, u, rfl⟩ := List.exists_cons_of_ne_nil hne
    obtain ⟨v', o'⟩ := b
    let a₁ : Arrays V := ⟨Function.update a.values ((v', o') :: u).length v,
      Function.update a.operators ((v', o') :: u).length o⟩
    have hpushed : Holds a₁ ((v, o) :: (v', o') :: u) := hs.push v o
    obtain ⟨hv, htop, hbelow⟩ := hpushed
    have hnext : a₁.operators (((v', o') :: u).length - 1) = o' := hbelow.2.1
    rw [hvalue, Option.bind_some, Reading.bind, readOperation_text ho ht]
    simp only [Reading.ofExcept, Reading.bind]
    have hadvance : advance f (evalLoop f read n) a ((v', o') :: u).length v o t =
        if precedence o' < precedence o then
          evalLoop f read n a₁ (((v', o') :: u).length + 1) t
        else
          (Reading.ofExcept (collapse f a₁ ((v', o') :: u).length) t).bind
            fun r rest => evalLoop f read n r.1 r.2 rest := by
      rw [advance]
      simp only
      change (if precedence (a₁.operators _) < precedence (a₁.operators _) then _ else _) = _
      rw [htop, hnext]
    rw [hadvance]
    by_cases hlt : precedence o' < precedence o
    · rw [if_pos hlt, reduce, if_neg (Nat.not_le.mpr hlt)]
      exact ⟨a₁, rfl, hs.push v o⟩
    · have hhead : ∀ b ∈ ((v', o') :: u).head?, precedence o ≤ precedence b.2 := by
        rintro b ⟨⟩
        exact Nat.not_lt.mp hlt
      have hcollapse := collapse_eq (f := f) hbelow hhead hne hv htop
      rw [if_neg hlt]
      cases hreduce : reduce precedence (operation f) ((v', o') :: u) v o with
      | some s' =>
        rw [hreduce] at hcollapse
        obtain ⟨a', heq, ha'⟩ := hcollapse
        exact ⟨a', by rw [heq]; rfl, ha'⟩
      | none =>
        rw [hreduce] at hcollapse
        obtain ⟨status, hstatus, heq⟩ := hcollapse
        exact ⟨status, hstatus, by rw [heq]; rfl⟩

end Stack

section Expressions

open Precedence (run reduce)

/-- An operand is read as its value. -/
def Operand.Reads (f : FloatOps V) (store : Store V) (read : Bytes → Reading V) (x : Operand) :
    Prop :=
  ∀ rest, Ends rest → Agrees (read (x.text ++ rest)) (x.value f store) rest

/-- The operands of a chain are read as their values. -/
def Chain.Reads (f : FloatOps V) (store : Store V) (read : Bytes → Reading V) : Chain → Prop
  | .nil => True
  | .link _ _ x l => x.Reads f store read ∧ l.Reads f store read

variable {read : Bytes → Reading V} {a : Arrays V} {s : List (V × BinaryOp)} {n : ℕ}

theorem ends_bracket (rest : Bytes) : Ends (']'.toUInt8 :: rest) :=
  ends_text (o := .rightBracket) (by decide) rest

/-- The text of an operand does not begin like a multiplication or a name. -/
theorem Operand.head?_text (x : Operand) :
    ∃ c t, x.text = c :: t ∧ c ≠ '*'.toUInt8 ∧ c ≠ '<'.toUInt8 := by
  cases x with
  | number n =>
    obtain ⟨c, hc, hdigit⟩ := n.digits
    obtain ⟨d, t, ht⟩ := List.exists_cons_of_ne_nil (List.ne_nil_of_mem hc)
    have hchars := n.chars d (ht ▸ List.mem_cons_self)
    refine ⟨d, t, by rw [Operand.text, ht], ?_, ?_⟩ <;>
    · rintro rfl
      revert hchars
      decide
  | signed minus x => cases minus <;> exact ⟨_, _, rfl, by decide, by decide⟩
  | function o h x l => cases o <;> exact ⟨_, _, rfl, by decide, by decide⟩
  | _ => exact ⟨_, _, rfl, by decide, by decide⟩

theorem length_text_pos {o : BinaryOp} (h : IsOperator o) : 0 < o.text.length := by
  cases o with
  | noOp => exact absurd rfl h.1
  | _ => decide

theorem isOperator_of_links : ∀ (l : Chain), ∀ q ∈ l.links f store, IsOperator q.1
  | .nil, q, hq => by
    rw [Chain.links] at hq
    cases hq
  | .link o ho x l, q, hq => by
    rw [Chain.links] at hq
    rcases List.mem_cons.mp hq with rfl | hq
    · exact ho
    · exact isOperator_of_links l q hq

theorem text_link_append {o : BinaryOp} (ho : IsOperator o) (y : Operand) (l : Chain) (t : Bytes) :
    (Chain.link o ho y l).text ++ t = o.text ++ (y.text ++ (l.text ++ t)) := by
  rw [Chain.text, List.append_assoc, List.append_assoc]

/-- No operand starts with the second star of a power. -/
theorem Operand.head?_text_append_ne (y : Operand) (t : Bytes) :
    (y.text ++ t).head? ≠ some '*'.toUInt8 := by
  obtain ⟨c, u, hc, hne, -⟩ := y.head?_text
  rw [hc]
  exact fun h => hne (Option.some.inj h)

/-- The outer loop reads the value of an expression, its first operand behind a stack. -/
theorem evalLoop_agrees : ∀ (l : Chain) (x : Operand) (rest : Bytes) {a : Arrays V}
    {s : List (V × BinaryOp)} {n : ℕ}, Holds a s → Stacked s → s ≠ [] → x.Reads f store read →
    l.Reads f store read → l.text.length + 2 ≤ n →
    Agrees (evalLoop f read n a s.length (x.text ++ (l.text ++ ']'.toUInt8 :: rest)))
      (run precedence (operation f) .rightBracket s (x.value f store) (l.links f store)) rest
  | .nil, x, rest, a, s, n, hs, h, hne, hx, hl, hn => by
    obtain ⟨m, rfl⟩ : ∃ m, n = m + 2 := ⟨n - 2, by omega⟩
    have hstep := evalLoop_step (f := f) (o := .rightBracket) (t := rest) (m + 1) hs h hne
      (hx _ (ends_bracket rest)) (by decide) (by rintro ⟨⟩)
    rw [Chain.text, Chain.links, run, ← Option.bind_assoc]
    cases hreduce : (x.value f store).bind
        fun v => reduce precedence (operation f) s v .rightBracket with
    | none =>
      rw [hreduce] at hstep
      exact hstep
    | some s' =>
      rw [hreduce] at hstep
      obtain ⟨a', heq, ha'⟩ := hstep
      obtain ⟨v, -, hv⟩ := Option.bind_eq_some_iff.mp hreduce
      obtain ⟨w, s'', rfl, hsuffix, hincreasing, -⟩ :=
        Precedence.reduce_some (l := []) h.increasing h.within (fun q hq => by cases hq) hv
      have hempty : s'' = [] := by
        by_contra hne
        obtain ⟨b, u, rfl⟩ := List.exists_cons_of_ne_nil hne
        have hlt := (List.pairwise_cons.mp hincreasing).1 b List.mem_cons_self
        have hgt := precedence_of_isOperator (h.operators b (hsuffix.subset List.mem_cons_self))
        exact absurd hlt (Nat.not_lt.mpr hgt.1.le)
      subst hempty
      obtain ⟨hw, hbracket, -⟩ := ha'
      have hend : evalLoop f read (m + 1) a' 1 rest = .ok w rest := by
        have hzero : a'.operators 0 = .rightBracket := hbracket
        rw [evalLoop, if_pos hzero]
        exact congrArg (Reading.ok · rest) hw
      exact heq.trans hend
  | .link o ho y l, x, rest, a, s, n, hs, h, hne, hx, hl, hn => by
    have hlen : (Chain.link o ho y l).text.length =
        o.text.length + (y.text.length + l.text.length) := by
      rw [Chain.text, List.length_append, List.length_append]
    have hpos := length_text_pos ho
    obtain ⟨m, rfl⟩ : ∃ m, n = m + 1 := ⟨n - 1, by omega⟩
    have htext := text_link_append ho y l (']'.toUInt8 :: rest)
    have hhead := y.head?_text_append_ne (l.text ++ ']'.toUInt8 :: rest)
    have hstep := evalLoop_step (f := f) (o := o) m hs h hne (hx _ (ends_text ho.1 _)) ho.1
      fun _ => hhead
    rw [htext, Chain.links, run, ← Option.bind_assoc]
    cases hreduce : (x.value f store).bind fun v => reduce precedence (operation f) s v o with
    | none =>
      rw [hreduce] at hstep
      exact hstep
    | some s' =>
      rw [hreduce] at hstep
      obtain ⟨a', heq, ha'⟩ := hstep
      obtain ⟨v, -, hv⟩ := Option.bind_eq_some_iff.mp hreduce
      obtain ⟨w, s'', rfl, hsuffix, hincreasing, -⟩ :=
        Precedence.reduce_some (l := []) h.increasing h.within (fun q hq => by cases hq) hv
      have hstacked : Stacked ((w, o) :: s'') := by
        refine ⟨hincreasing, fun b hb => ?_⟩
        rcases List.mem_cons.mp hb with rfl | hb
        · exact ho
        · exact h.operators b (hsuffix.subset hb)
      rw [heq, Option.bind_some]
      exact evalLoop_agrees l y rest ha' hstacked (List.cons_ne_nil _ _) hl.1 hl.2 (by omega)

/-- An expression in brackets is read as its value. -/
theorem evalExpression_agrees {x : Operand} {l : Chain} (hx : x.Reads f store read)
    (hl : l.Reads f store read) (rest : Bytes) :
    Agrees (evalExpression f read ('['.toUInt8 :: (x.text ++ (l.text ++ ']'.toUInt8 :: rest))))
      (expressionValue f (x.value f store) (l.links f store)) rest := by
  have hwithin : Precedence.Within precedence topLevel (l.links f store) := by
    intro q hq
    obtain ⟨hlt, hle⟩ := precedence_of_isOperator (isOperator_of_links l q hq)
    exact ⟨Nat.zero_lt_of_lt hlt, hle⟩
  have hstop : ∀ q ∈ l.links f store, precedence .rightBracket ≤ precedence q.1 :=
    fun q hq => (precedence_of_isOperator (isOperator_of_links l q hq)).1.le
  rw [expressionValue, ← Precedence.run_eq hwithin hstop, evalExpression]
  cases l with
  | nil =>
    have hread := hx _ (ends_bracket rest)
    rw [Chain.text, Chain.links, run, List.nil_append, if_pos (by rfl)]
    exact hread.bind fun v => rfl
  | link o ho y l =>
    have htext := text_link_append ho y l (']'.toUInt8 :: rest)
    have hhead := y.head?_text_append_ne (l.text ++ ']'.toUInt8 :: rest)
    have hread := hx _ (ends_text ho.1 (y.text ++ (l.text ++ ']'.toUInt8 :: rest)))
    rw [Chain.links, run, if_pos (by rfl), htext]
    refine hread.bind fun v => ?_
    rw [readOperation_text ho.1 fun _ => hhead]
    have hholds : Holds (⟨fun _ => v, fun _ => o⟩ : Arrays V) [(v, o)] := ⟨rfl, rfl, trivial⟩
    have hstacked : Stacked [(v, o)] := by
      refine ⟨List.pairwise_singleton _ _, ?_⟩
      rintro b hb
      rw [List.mem_singleton.mp hb]
      exact ho
    refine evalLoop_agrees l y rest hholds hstacked (List.cons_ne_nil _ _) hl.1 hl.2 ?_
    have hpos : 0 < y.text.length := by
      obtain ⟨c, t, hc, -, -⟩ := y.head?_text
      rw [hc]
      exact Nat.succ_pos _
    rw [List.length_append, List.length_append, List.length_cons]
    omega

end Expressions

end Ngc

end Inspector
