import Inspector.Ngc.Evaluation

/-! # The values of expressions

Every operand is read as its value from what it is written as, by induction on the length of this
text, and the nesting is never deeper than the text is long. `ngc_eval_expression` reads every
expression in brackets as its value.
-/

namespace Inspector

namespace Ngc

open Json (Bytes isDigit)

variable {V : Type*} {f : FloatOps V} {store : Store V} {unset : Bytes → V}
variable {read : Bytes → Reading V} {rest : Bytes}

section Numbers

/-- A character of a number. -/
abbrev InNumber (c : UInt8) : Prop := isDigit c ∨ c = '.'.toUInt8

theorem floatDigit_kept (s : Scan) (d : ℕ) :
    (s.floatDigit d).isDecimal = s.isDecimal ∧ (s.floatDigit d).ok = true := by
  rw [Scan.floatDigit]
  split_ifs <;> exact ⟨rfl, rfl⟩

/-- Digits and one decimal point are scanned to their end. -/
theorem scanFloat_append {text : Bytes} (hchars : ∀ c ∈ text, InNumber c) (hends : Ends rest) :
    ∀ s : Scan, text.count '.'.toUInt8 ≤ (if s.isDecimal then 0 else 1) →
      scanFloat s (text ++ rest) = ((scanFloat s text).1, rest) ∧
        (s.ok = true ∨ (∃ c ∈ text, isDigit c) → (scanFloat s text).1.ok = true) := by
  induction text with
  | nil =>
    intro s _
    refine ⟨scanFloat_ends s hends, ?_⟩
    rintro (hok | ⟨c, hc, -⟩)
    · exact hok
    · exact absurd hc List.not_mem_nil
  | cons c text ih =>
    intro s hpoints
    have hrest := ih fun d hd => hchars d (List.mem_cons_of_mem c hd)
    rw [List.cons_append, scanFloat, scanFloat]
    by_cases hdigit : isDigit c = true
    · have hne : c ≠ '.'.toUInt8 := by
        rintro rfl
        exact absurd hdigit (by decide)
      obtain ⟨hdecimal, hok⟩ := floatDigit_kept s (digitValue c)
      rw [List.count_cons_of_ne hne] at hpoints
      obtain ⟨hscan, hscanned⟩ := hrest (s.floatDigit (digitValue c)) (by rwa [hdecimal])
      rw [if_pos hdigit, if_pos hdigit]
      exact ⟨hscan, fun _ => hscanned (.inl hok)⟩
    · obtain rfl : c = '.'.toUInt8 := (hchars c List.mem_cons_self).resolve_left hdigit
      rw [List.count_cons_self] at hpoints
      have hdecimal : s.isDecimal = false := by
        cases hs : s.isDecimal
        · rfl
        · rw [hs, if_pos rfl] at hpoints
          exact absurd hpoints (Nat.not_succ_le_zero _)
      rw [hdecimal, if_neg Bool.false_ne_true] at hpoints
      obtain ⟨hscan, hscanned⟩ := hrest { s with isDecimal := true } (Nat.le_of_succ_le_succ hpoints)
      rw [if_neg hdigit, if_neg hdigit, if_pos ⟨rfl, hdecimal⟩, if_pos ⟨rfl, hdecimal⟩]
      refine ⟨hscan, ?_⟩
      rintro (hok | ⟨d, hd, hd'⟩)
      · exact hscanned (.inl hok)
      · rcases List.mem_cons.mp hd with rfl | hd
        · exact absurd hd' hdigit
        · exact hscanned (.inr ⟨d, hd, hd'⟩)

/-- A number begins with a digit or its decimal point. -/
theorem Numeral.head?_text (n : Numeral) : ∃ c t, n.text = c :: t ∧ InNumber c := by
  obtain ⟨c, hc, -⟩ := n.digits
  obtain ⟨d, t, ht⟩ := List.exists_cons_of_ne_nil (List.ne_nil_of_mem hc)
  exact ⟨d, t, ht, n.chars d (ht ▸ List.mem_cons_self)⟩

theorem sign_of_inNumber {c : UInt8} (hc : InNumber c) (t : Bytes) :
    sign (c :: t) = (false, c :: t) := by
  rcases hc with hc | rfl
  · exact sign_of_digit hc t
  · rfl

theorem scanFloat_numeral (n : Numeral) (hends : Ends rest) :
    scanFloat {} (n.text ++ rest) = ((scanFloat {} n.text).1, rest) ∧
      (scanFloat {} n.text).1.ok = true := by
  obtain ⟨hscan, hok⟩ := scanFloat_append n.chars hends {} n.points
  exact ⟨hscan, hok (.inr n.digits)⟩

/-- A number is read up to what does not go on with it. -/
theorem readNumber_numeral (n : Numeral) (hends : Ends rest) :
    readNumber f (n.text ++ rest) = .ok (numeralValue f n) rest := by
  obtain ⟨c, t, ht, hc⟩ := n.head?_text
  have hsign : sign (n.text ++ rest) = (false, n.text ++ rest) := by
    rw [ht]
    exact sign_of_inNumber hc _
  obtain ⟨hscan, hok⟩ := scanFloat_numeral n hends
  rw [readNumber, FloatOps.readFloat, hsign]
  simp only
  rw [hscan]
  simp only [hok, if_true]
  rfl

/-- A sign in front of a number. -/
theorem readNumber_signed (minus : Bool) (n : Numeral) (hends : Ends rest) :
    readNumber f ((if minus then '-'.toUInt8 else '+'.toUInt8) :: (n.text ++ rest)) =
      .ok (if minus then f.neg (numeralValue f n) else numeralValue f n) rest := by
  obtain ⟨hscan, hok⟩ := scanFloat_numeral n hends
  have hsign : sign ((if minus then '-'.toUInt8 else '+'.toUInt8) :: (n.text ++ rest)) =
      (minus, n.text ++ rest) := by
    cases minus <;> rfl
  rw [readNumber, FloatOps.readFloat, hsign]
  simp only
  rw [hscan]
  simp only [hok, if_true]
  rfl

end Numbers

section Characters

/-- What tells a number apart from the other operands. -/
theorem ne_of_inNumber {c : UInt8} (hc : InNumber c) :
    c ≠ '['.toUInt8 ∧ c ≠ '#'.toUInt8 ∧ c ≠ '+'.toUInt8 ∧ c ≠ '-'.toUInt8 ∧
      ¬ ('A'.toUInt8 ≤ c ∧ c ≤ 'Z'.toUInt8) := by
  have hne : ∀ d, ¬ InNumber d → c ≠ d := by
    rintro d hd rfl
    exact hd hc
  refine ⟨hne _ (by decide), hne _ (by decide), hne _ (by decide), hne _ (by decide), ?_⟩
  rintro ⟨hle, -⟩
  rcases hc with hdigit | rfl
  · obtain ⟨-, hnine⟩ := of_decide_eq_true hdigit
    exact absurd (UInt8.le_trans hle hnine) (by decide)
  · exact absurd hle (by decide)

theorem realValue_number {c : UInt8} (hc : InNumber c) (t : Bytes) :
    realValue f store unset read (c :: t) =
      checked f (unset (c :: t)) (readNumber f (c :: t)) := by
  obtain ⟨hbracket, hhash, hplus, hminus, hletter⟩ := ne_of_inNumber hc
  rw [realValue, if_neg hbracket, if_neg hhash, if_neg fun h => hplus h.1,
    if_neg fun h => hminus h.1, if_neg hletter]

/-- A sign that belongs to a number. -/
theorem realValue_sign_number (minus : Bool) {t : Bytes} (ht : signs t = false) :
    realValue f store unset read ((if minus then '-'.toUInt8 else '+'.toUInt8) :: t) =
      checked f (unset ((if minus then '-'.toUInt8 else '+'.toUInt8) :: t))
        (readNumber f ((if minus then '-'.toUInt8 else '+'.toUInt8) :: t)) := by
  cases minus <;> simp only [realValue, ht, Bool.false_eq_true, and_false, if_false, if_true] <;>
    rfl

/-- A sign in front of another operand. -/
theorem realValue_sign (minus : Bool) {t : Bytes} (ht : signs t = true) :
    realValue f store unset read ((if minus then '-'.toUInt8 else '+'.toUInt8) :: t) =
      checked f (unset ((if minus then '-'.toUInt8 else '+'.toUInt8) :: t))
        ((read t).bind fun value rest => .ok (if minus then f.neg value else value) rest) := by
  cases minus
  · have hbind : (read t).bind (fun value rest => .ok value rest) = read t := by
      cases read t <;> rfl
    simp only [realValue, ht, Bool.false_eq_true, and_true, if_false]
    rw [hbind]
    rfl
  · simp only [realValue, ht, and_true, if_true]
    rfl

theorem realValue_letter (o : UnaryOp) (t : Bytes) :
    realValue f store unset read (o.text ++ t) =
      checked f (unset (o.text ++ t)) (readUnary f store read (o.text ++ t)) := by
  cases o <;> rfl

theorem signs_numeral (n : Numeral) (rest : Bytes) : signs (n.text ++ rest) = false := by
  obtain ⟨c, t, ht, hc⟩ := n.head?_text
  rw [ht]
  rcases hc with hdigit | rfl
  · simp [signs, hdigit]
  · rfl

theorem signs_text {x : Operand} (h : ∀ n, x ≠ .number n) (rest : Bytes) :
    signs (x.text ++ rest) = true := by
  cases x with
  | number n => exact absurd rfl (h n)
  | signed minus x => cases minus <;> rfl
  | function o ho x l => cases o <;> rfl
  | _ => rfl

end Characters

section Operands

variable {x : Operand} {l : Chain}

theorem agrees_integer (hx : x.Reads f store read) (hends : Ends rest) :
    Agrees (ngcReadIntegerValue f read (x.text ++ rest)) (toInteger f (x.value f store)) rest :=
  (hx rest hends).bind fun v => agrees_ofExcept (faulty_integerOf v) rest

theorem readName_text (name : ParamName) (rest : Bytes) :
    readName ('<'.toUInt8 :: (name.text ++ '>'.toUInt8 :: rest)) = .ok name.text rest := by
  have hat : NameAt ('<'.toUInt8 :: (name.text ++ '>'.toUInt8 :: rest)) 0 name.text := by
    refine ⟨name.not_mem, rest, ?_⟩
    simp
  have hlen := name.length_le
  have hfits : ¬ maxParamLength + 1 < (name.text ++ [0]).length := by
    rw [List.length_append, List.length_singleton]
    omega
  have htext : (name.text ++ [0]).takeWhile (fun c => c ≠ 0) = name.text := by
    rw [List.takeWhile_append_of_pos, List.takeWhile_cons_of_neg (by simp), List.append_nil]
    intro c hc
    exact decide_eq_true fun h => name.ne_zero (h ▸ hc)
  rw [readName, ngcReadName_of_le hat (hlen.trans (Nat.le_succ _))]
  simp only [if_neg hfits, htext, if_true]
  congr 1
  rw [Nat.zero_add, Nat.add_comm 1, List.drop_succ_cons, ← List.drop_drop, List.drop_left]
  rfl

theorem readUnary_function {o : UnaryOp} (ho : IsFunction o) (t : Bytes) :
    readUnary f store read (o.text ++ '['.toUInt8 :: t) =
      (evalExpression f read ('['.toUInt8 :: t)).bind fun value rest =>
        .ofExcept (f.executeUnary value o) rest := by
  rw [readUnary, readOperationUnary_text]
  obtain ⟨hatan, hexist, hparameter⟩ := ho
  cases o with
  | atan => exact absurd rfl hatan
  | exist => exact absurd rfl hexist
  | parameter => exact absurd rfl hparameter
  | _ => rfl

theorem readUnary_atan (t : Bytes) :
    readUnary f store read (UnaryOp.atan.text ++ '['.toUInt8 :: t) =
      (evalExpression f read ('['.toUInt8 :: t)).bind fun value rest =>
        readAtan f read value rest := by
  rw [readUnary, readOperationUnary_text]
  rfl

theorem readUnary_exist (t : Bytes) :
    readUnary f store read (UnaryOp.exist.text ++ '['.toUInt8 :: t) = readExists f store t := by
  rw [readUnary, readOperationUnary_text]
  rfl

theorem readUnary_parameter (t : Bytes) :
    readUnary f store read (UnaryOp.parameter.text ++ '['.toUInt8 :: t) = readPrm f store read t := by
  rw [readUnary, readOperationUnary_text]
  rfl

theorem readExists_text (name : ParamName) (h : ']'.toUInt8 ∉ name.text) (rest : Bytes) :
    readExists f store
        ('#'.toUInt8 :: '<'.toUInt8 :: (name.text ++ '>'.toUInt8 :: ']'.toUInt8 :: rest)) =
      .ok (f.truth (store.namedParamExists name.text)) rest := by
  have harg : (name.text ++ '>'.toUInt8 :: ']'.toUInt8 :: rest).takeWhile
      (fun c => c ≠ ']'.toUInt8) = name.text ++ ['>'.toUInt8] := by
    have hname : ∀ c ∈ name.text, decide (c ≠ ']'.toUInt8) = true :=
      fun c hc => decide_eq_true fun heq => h (heq ▸ hc)
    rw [List.takeWhile_append_of_pos hname, List.takeWhile_cons_of_pos (by decide),
      List.takeWhile_cons_of_neg (by decide)]
  have hdrop : (name.text ++ '>'.toUInt8 :: ']'.toUInt8 :: rest).drop
      (name.text ++ ['>'.toUInt8]).length = ']'.toUInt8 :: rest := by
    have hsplit : name.text ++ '>'.toUInt8 :: ']'.toUInt8 :: rest =
        (name.text ++ ['>'.toUInt8]) ++ ']'.toUInt8 :: rest := by
      rw [List.append_assoc]
      rfl
    rw [hsplit, List.drop_left]
  rw [readExists]
  simp only [List.drop_succ_cons, List.drop_zero, harg, hdrop, List.getLast?_concat,
    List.dropLast_concat, List.head?_cons, List.tail_cons]
  exact if_pos ⟨rfl, trivial, trivial⟩

/-- The operands of a chain are shorter than the chain. -/
theorem Chain.reads_of_length {n : ℕ}
    (h : ∀ y : Operand, y.text.length < n → y.Reads f store read) :
    ∀ l : Chain, l.text.length < n → l.Reads f store read
  | .nil, _ => trivial
  | .link o ho x l, hl => by
    rw [Chain.text, List.length_append, List.length_append] at hl
    exact ⟨h x (by omega), Chain.reads_of_length h l (by omega)⟩

/-- A sign makes no difference to whether a number is finite. -/
theorem agrees_signed (minus : Bool) (v u : V) :
    Agrees (checked f u (.ok (if minus then f.neg v else v) rest))
      (finite f ((finite f (some v)).map fun v => if minus then f.neg v else v)) rest := by
  have hinvalid : f.invalid (if minus then f.neg v else v) = f.invalid v := by
    split_ifs
    · exact f.invalid_neg v
    · rfl
  have hvalue : Agrees (.ok (if minus then f.neg v else v) rest : Reading V)
      (some (if minus then f.neg v else v)) rest := rfl
  have hchecked := hvalue.checked (f := f) u
  convert hchecked using 1
  rw [finite, finite, finite, Option.filter_some, Option.filter_some, hinvalid]
  cases hv : f.invalid v
  · rw [Bool.not_false, if_pos rfl, Option.map_some, Option.filter_some, hinvalid, hv]
    rfl
  · rfl

/-- An operand is read as its value when the shorter ones are. -/
theorem realValue_agrees (x : Operand)
    (hread : ∀ y : Operand, y.text.length < x.text.length → y.Reads f store read)
    (hends : Ends rest) :
    Agrees (realValue f store unset read (x.text ++ rest)) (x.value f store) rest := by
  cases x with
  | number n =>
    obtain ⟨c, t, ht, hc⟩ := n.head?_text
    have hnumber := readNumber_numeral (f := f) n hends
    rw [Operand.text, Operand.value]
    rw [ht] at hnumber ⊢
    rw [List.cons_append] at hnumber ⊢
    rw [realValue_number hc, hnumber]
    exact Agrees.checked (v := some (numeralValue f n)) rfl _
  | signed minus x =>
    have hx := hread x (by rw [Operand.text, List.length_cons]; exact Nat.lt_succ_self _)
    rw [Operand.text, Operand.value, List.cons_append]
    by_cases hnumber : ∃ n, x = .number n
    · obtain ⟨n, rfl⟩ := hnumber
      rw [Operand.text, Operand.value, realValue_sign_number minus (signs_numeral n rest),
        readNumber_signed minus n hends]
      exact agrees_signed minus _ _
    · rw [realValue_sign minus (signs_text (fun n hn => hnumber ⟨n, hn⟩) rest)]
      exact (hx rest hends).map.checked _
  | named name =>
    have htext : (Operand.named name).text ++ rest =
        '#'.toUInt8 :: '<'.toUInt8 :: (name.text ++ '>'.toUInt8 :: rest) := by
      simp [Operand.text]
    have hread : ngcReadParameter f store read false
        ('#'.toUInt8 :: '<'.toUInt8 :: (name.text ++ '>'.toUInt8 :: rest)) =
        .ofExcept (namedParam store name.text) rest := by
      rw [ngcReadParameter, if_pos (by rfl), if_pos (by rfl), List.tail_cons, readName_text]
      rfl
    rw [htext, Operand.value]
    exact (hread ▸ agrees_ofExcept (faulty_namedParam name.text) rest).checked _
  | numbered x =>
    have hx := hread x (by rw [Operand.text, List.length_cons]; exact Nat.lt_succ_self _)
    have hhead : (x.text ++ rest).head? ≠ some '<'.toUInt8 := by
      obtain ⟨c, t, hc, -, hne⟩ := x.head?_text
      rw [hc]
      exact fun h => hne (Option.some.inj h)
    have hparam : ngcReadParameter f store read false ('#'.toUInt8 :: (x.text ++ rest)) =
        (ngcReadIntegerValue f read (x.text ++ rest)).bind fun param rest =>
          .ofExcept (numberedParam store false param) rest := by
      rw [ngcReadParameter, if_pos (by rfl), List.tail_cons, if_neg hhead]
    rw [Operand.text, Operand.value, List.cons_append]
    have hagrees := (agrees_integer hx hends).bind fun n =>
      agrees_ofExcept (faulty_numberedParam false n : Faulty (numberedParam store false n)) rest
    exact (hparam ▸ hagrees).checked _
  | function o ho x l =>
    have hx := hread x (by
      simp only [Operand.text, List.length_append, List.length_cons]
      omega)
    have hl := Chain.reads_of_length hread l (by
      simp only [Operand.text, List.length_append, List.length_cons]
      omega)
    have htext : (Operand.function o ho x l).text ++ rest =
        o.text ++ '['.toUInt8 :: (x.text ++ (l.text ++ ']'.toUInt8 :: rest)) := by
      simp [Operand.text]
    rw [htext, Operand.value, realValue_letter, readUnary_function ho]
    refine Agrees.checked ?_ _
    exact (evalExpression_agrees hx hl rest).bind fun v =>
      agrees_ofExcept (faulty_executeUnary v o) rest
  | atan x l y m =>
    have hx := hread x (by
      simp only [Operand.text, List.length_append, List.length_cons]
      omega)
    have hl := Chain.reads_of_length hread l (by
      simp only [Operand.text, List.length_append, List.length_cons]
      omega)
    have hy := hread y (by
      simp only [Operand.text, List.length_append, List.length_cons]
      omega)
    have hm := Chain.reads_of_length hread m (by
      simp only [Operand.text, List.length_append, List.length_cons]
      omega)
    have htext : (Operand.atan x l y m).text ++ rest =
        UnaryOp.atan.text ++ '['.toUInt8 :: (x.text ++ (l.text ++ ']'.toUInt8 :: '/'.toUInt8 ::
          '['.toUInt8 :: (y.text ++ (m.text ++ ']'.toUInt8 :: rest)))) := by
      simp [Operand.text]
    rw [htext, Operand.value, realValue_letter, readUnary_atan]
    refine Agrees.checked ?_ _
    refine (evalExpression_agrees hx hl _).bind fun v => ?_
    rw [readAtan, if_pos ⟨rfl, rfl⟩, List.tail_cons]
    exact (evalExpression_agrees hy hm rest).map
  | exist name h =>
    have htext : (Operand.exist name h).text ++ rest =
        UnaryOp.exist.text ++ '['.toUInt8 :: '#'.toUInt8 :: '<'.toUInt8 ::
          (name.text ++ '>'.toUInt8 :: ']'.toUInt8 :: rest) := by
      simp [Operand.text]
    rw [htext, Operand.value, realValue_letter, readUnary_exist, readExists_text name h]
    exact Agrees.checked (v := some (f.truth (store.namedParamExists name.text))) rfl _
  | setting settingId =>
    have hid := hread settingId (by
      simp only [Operand.text, List.length_append, List.length_cons]
      omega)
    have htext : (Operand.setting settingId).text ++ rest =
        UnaryOp.parameter.text ++ '['.toUInt8 :: (settingId.text ++ ']'.toUInt8 :: rest) := by
      simp [Operand.text]
    rw [htext, Operand.value, realValue_letter, readUnary_parameter, readPrm]
    refine Agrees.checked ?_ _
    refine (agrees_integer hid (ends_bracket rest)).bind fun n => ?_
    exact agrees_ofExcept (faulty_settingValue n none) rest
  | settingBit settingId bitnum =>
    have hid := hread settingId (by
      simp only [Operand.text, List.length_append, List.length_cons]
      omega)
    have hbit := hread bitnum (by
      simp only [Operand.text, List.length_append, List.length_cons]
      omega)
    have htext : (Operand.settingBit settingId bitnum).text ++ rest =
        UnaryOp.parameter.text ++ '['.toUInt8 ::
          (settingId.text ++ ','.toUInt8 :: (bitnum.text ++ ']'.toUInt8 :: rest)) := by
      simp [Operand.text]
    have hcomma : Ends (','.toUInt8 :: (bitnum.text ++ ']'.toUInt8 :: rest)) :=
      ends_cons (by decide) _
    rw [htext, Operand.value, realValue_letter, readUnary_parameter, readPrm]
    refine Agrees.checked ?_ _
    refine (agrees_integer hid hcomma).bind fun n => ?_
    have hbitOf := (agrees_integer hbit (ends_bracket rest)).bind fun bit =>
      agrees_ofExcept (faulty_bitOf bit) (']'.toUInt8 :: rest)
    rw [readBit, if_pos (by rfl), List.tail_cons, ← Option.bind_assoc]
    refine hbitOf.bind fun bit => ?_
    exact agrees_ofExcept (faulty_settingValue n bit) rest
  | bracket x l =>
    have hx := hread x (by
      simp only [Operand.text, List.length_append, List.length_cons]
      omega)
    have hl := Chain.reads_of_length hread l (by
      simp only [Operand.text, List.length_append, List.length_cons]
      omega)
    have htext : (Operand.bracket x l).text ++ rest =
        '['.toUInt8 :: (x.text ++ (l.text ++ ']'.toUInt8 :: rest)) := by
      simp [Operand.text]
    rw [htext, Operand.value]
    exact (evalExpression_agrees hx hl rest).checked _

/-- An operand is read as its value with a nesting that is not deeper than its text is long. -/
theorem Operand.reads {n : ℕ} : ∀ {x : Operand}, x.text.length < n →
    x.Reads f store (readReal f store unset n) := by
  induction n with
  | zero => exact fun h => absurd h (Nat.not_lt_zero _)
  | succ n ih =>
    intro x hx rest hends
    exact realValue_agrees x (fun y hy => ih (hy.trans_le (Nat.le_of_lt_succ hx))) hends

/-- `ngc_eval_expression` reads an expression in brackets as its value, up to its closing bracket;
without a value there is an error. No slot outside of the stack is used. -/
theorem ngcEvalExpression_agrees (f : FloatOps V) (store : Store V) (unset : Bytes → V)
    (x : Operand) (l : Chain) (rest : Bytes) :
    Agrees (ngcEvalExpression f store unset
        ('['.toUInt8 :: (x.text ++ (l.text ++ ']'.toUInt8 :: rest))))
      (expressionValue f (x.value f store) (l.links f store)) rest := by
  have hlen : ∀ y : Operand, y.text.length < x.text.length + l.text.length + 1 →
      y.Reads f store (readReal f store unset
        ('['.toUInt8 :: (x.text ++ (l.text ++ ']'.toUInt8 :: rest))).length) := by
    intro y hy
    refine Operand.reads ?_
    simp only [List.length_append, List.length_cons]
    omega
  exact evalExpression_agrees (hlen x (by omega)) (Chain.reads_of_length hlen l (by omega)) rest

end Operands

end Ngc

end Inspector
