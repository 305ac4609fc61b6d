import Inspector.Ngc.Expressions
import Inspector.Ngc.Substitution

/-! # Where readings end

A reading that succeeds ends behind where it began. This makes `ngc_read_parameter` a reader for the
parameters in messages; where it ends when it fails is left open.
-/

namespace Inspector

namespace Ngc

open Json (Bytes isDigit)

namespace Reading

variable {α β : Type*}

/-- What is behind a reading is the end of a text. -/
def Within (s : Bytes) (r : Reading α) : Prop := ∀ v rest, r = .ok v rest → rest <:+ s

theorem within_ok {s rest : Bytes} {v : α} (h : rest <:+ s) : (Reading.ok v rest).Within s := by
  rintro _ _ ⟨⟩
  exact h

theorem within_error {s : Bytes} (status : Status) :
    (Reading.error status : Reading α).Within s := by
  rintro _ _ ⟨⟩

theorem within_fault {s : Bytes} : (Reading.fault : Reading α).Within s := by
  rintro _ _ ⟨⟩

theorem Within.mono {s t : Bytes} {r : Reading α} (h : r.Within t) (hs : t <:+ s) : r.Within s :=
  fun v rest hr => (h v rest hr).trans hs

theorem Within.bind {s : Bytes} {r : Reading α} {f : α → Bytes → Reading β} (h : r.Within s)
    (hf : ∀ v rest, rest <:+ s → (f v rest).Within s) : (r.bind f).Within s := by
  cases r with
  | ok v rest => exact hf v rest (h v rest rfl)
  | error status => exact within_error status
  | fault => exact within_fault

theorem within_ofExcept {s rest : Bytes} (r : Except Status α) (h : rest <:+ s) :
    (Reading.ofExcept r rest).Within s := by
  cases r with
  | ok v => exact within_ok h
  | error status => exact within_error status

end Reading

open Reading

section Readers

variable {V : Type*} (f : FloatOps V) (store : Store V) (unset : Bytes → V)
variable {read : Bytes → Reading V}

theorem within_ngcReadIntegerValue (hread : ∀ s, (read s).Within s) (s : Bytes) :
    (ngcReadIntegerValue f read s).Within s :=
  (hread s).bind fun _ _ h => within_ofExcept _ h

theorem within_readName (s : Bytes) : (readName s).Within s := by
  rw [readName]
  split_ifs
  · exact within_fault
  · exact within_ok (List.drop_suffix _ _)
  · exact within_error _

theorem within_ngcReadParameter (hread : ∀ s, (read s).Within s) (check : Bool) (s : Bytes) :
    (ngcReadParameter f store read check s).Within s.tail := by
  rw [ngcReadParameter]
  split_ifs
  · exact (within_readName s.tail).bind fun _ _ h => within_ofExcept _ h
  · exact (within_ngcReadIntegerValue f hread s.tail).bind fun _ _ h => within_ofExcept _ h
  · exact within_error _

theorem lookup_suffix {Op : Type*} {names : List (Bytes × Op)} {s rest : Bytes} {o : Op}
    (h : lookup names s = some (o, rest)) : rest <:+ s := by
  obtain ⟨⟨text, o'⟩, -, hname⟩ := List.exists_of_findSome?_eq_some h
  simp only at hname
  split_ifs at hname
  obtain ⟨-, rfl⟩ := Prod.mk.inj (Option.some.inj hname)
  exact List.drop_suffix _ _

theorem readOperation_suffix {s rest : Bytes} {o : BinaryOp}
    (h : readOperation s = .ok (o, rest)) : rest <:+ s := by
  rw [readOperation] at h
  cases hlookup : lookup binaryNames s with
  | none =>
    rw [hlookup] at h
    exact absurd h (by simp)
  | some found =>
    rw [hlookup] at h
    obtain rfl := Except.ok.inj h
    exact lookup_suffix hlookup

theorem readOperationUnary_suffix {s rest : Bytes} {o : UnaryOp}
    (h : readOperationUnary s = .ok (o, rest)) : rest <:+ s := by
  rw [readOperationUnary] at h
  cases hlookup : lookup unaryNames s with
  | none =>
    rw [hlookup] at h
    exact absurd h (by simp)
  | some found =>
    rw [hlookup] at h
    obtain rfl := Except.ok.inj h
    exact lookup_suffix hlookup

/-- What follows an operation. -/
theorem within_readOperation {β : Type*} {s t : Bytes} (hs : s <:+ t)
    {g : BinaryOp → Bytes → Reading β} (hg : ∀ o rest, rest <:+ t → (g o rest).Within t) :
    ((Reading.ofExcept (readOperation s) []).bind fun (o, rest) _ => g o rest).Within t := by
  cases h : readOperation s with
  | error status => exact within_error status
  | ok found => exact hg found.1 found.2 ((readOperation_suffix h).trans hs)

theorem within_advance {next : Arrays V → ℕ → Bytes → Reading V} {t : Bytes}
    (hnext : ∀ a k s, s <:+ t → (next a k s).Within t) (a : Arrays V) (stackIndex : ℕ) (value : V)
    (operation : BinaryOp) {rest : Bytes} (h : rest <:+ t) :
    (advance f next a stackIndex value operation rest).Within t := by
  rw [advance]
  simp only
  split_ifs
  · exact hnext _ _ _ h
  · exact (within_ofExcept _ h).bind fun _ _ h => hnext _ _ _ h

theorem within_evalLoop (hread : ∀ s, (read s).Within s) {t : Bytes} :
    ∀ (n : ℕ) (a : Arrays V) (stackIndex : ℕ) (s : Bytes), s <:+ t →
      (evalLoop f read n a stackIndex s).Within t
  | 0, _, _, _, _ => within_fault
  | n + 1, a, stackIndex, s, hs => by
    rw [evalLoop]
    split_ifs
    · exact within_ok hs
    · exact ((hread s).mono hs).bind fun value rest h => within_readOperation h fun o rest h =>
        within_advance f (fun a k s hs => within_evalLoop hread n a k s hs) a stackIndex value o h
    · exact within_fault

theorem within_evalExpression (hread : ∀ s, (read s).Within s) (s : Bytes) :
    (evalExpression f read s).Within s := by
  rw [evalExpression]
  split_ifs
  · refine ((hread s.tail).mono (List.tail_suffix s)).bind fun value rest h => ?_
    refine within_readOperation h (g := fun o rest =>
      evalLoop f read (rest.length + 1) ⟨fun _ => value, fun _ => o⟩ 1 rest) fun o rest h => ?_
    exact within_evalLoop f hread _ _ _ _ h
  · exact within_error _

theorem within_readAtan (hread : ∀ s, (read s).Within s) (value : V) (s : Bytes) :
    (readAtan f read value s).Within s := by
  rw [readAtan]
  split_ifs
  · exact ((within_evalExpression f hread s.tail).mono (List.tail_suffix s)).bind
      fun argument2 rest h => within_ok h
  · exact within_error _

theorem within_readExists (s : Bytes) : (readExists f store s).Within s := by
  rw [readExists]
  split_ifs
  · refine within_ok (.trans ?_ (List.drop_suffix 2 s))
    exact (List.tail_suffix _).trans (List.drop_suffix _ _)
  · exact within_error _

theorem within_readBit (hread : ∀ s, (read s).Within s) (s : Bytes) :
    (readBit f read s).Within s := by
  rw [readBit]
  split_ifs
  · exact ((within_ngcReadIntegerValue f hread s.tail).mono (List.tail_suffix s)).bind
      fun bitnum rest h => within_ofExcept _ h
  · exact within_ok List.suffix_rfl

theorem within_readPrm (hread : ∀ s, (read s).Within s) (s : Bytes) :
    (readPrm f store read s).Within s := by
  rw [readPrm]
  refine (within_ngcReadIntegerValue f hread s).bind fun settingId rest h => ?_
  refine ((within_readBit f hread rest).mono h).bind fun bitnum rest h => ?_
  split_ifs
  · exact within_ofExcept _ ((List.tail_suffix rest).trans h)
  · exact within_error _

theorem within_readUnary (hread : ∀ s, (read s).Within s) (s : Bytes) :
    (readUnary f store read s).Within s := by
  rw [readUnary]
  cases hop : readOperationUnary s with
  | error status => exact within_error status
  | ok found =>
    have hrest := readOperationUnary_suffix hop
    have htail := (List.tail_suffix found.2).trans hrest
    have hvalue := (within_evalExpression f hread found.2).mono hrest
    have hfun : ∀ o, ((evalExpression f read found.2).bind fun value rest =>
        .ofExcept (f.executeUnary value o) rest).Within s := fun o =>
      hvalue.bind fun value rest h => within_ofExcept _ h
    change (if found.2.head? = some '['.toUInt8 then _ else _ : Reading V).Within s
    split_ifs
    · cases found.1 with
      | exist => exact (within_readExists f store _).mono htail
      | parameter => exact (within_readPrm f store hread _).mono htail
      | atan => exact hvalue.bind fun value rest h => (within_readAtan f hread value rest).mono h
      | _ => exact hfun _
    · exact within_error _

theorem sign_suffix (s : Bytes) : (sign s).2 <:+ s := by
  unfold sign
  split
  · exact List.suffix_cons _ _
  · exact List.suffix_cons _ _
  · exact List.suffix_rfl

theorem scanFloat_suffix (scan : Scan) (s : Bytes) : (scanFloat scan s).2 <:+ s := by
  induction s generalizing scan with
  | nil => exact List.suffix_rfl
  | cons b s ih =>
    rw [scanFloat]
    split_ifs
    · exact (ih _).trans (List.suffix_cons b s)
    · exact (ih _).trans (List.suffix_cons b s)
    · exact List.suffix_rfl

theorem within_readNumber (s : Bytes) : (readNumber f s).Within s := by
  rw [readNumber]
  cases hfloat : f.readFloat s with
  | none => exact within_error _
  | some found =>
    rw [FloatOps.readFloat] at hfloat
    simp only at hfloat
    split_ifs at hfloat
    · obtain rfl := Option.some.inj hfloat
      exact within_ok ((scanFloat_suffix _ _).trans (sign_suffix s))
    · obtain rfl := Option.some.inj hfloat
      exact within_ok ((scanFloat_suffix _ _).trans (sign_suffix s))

theorem within_checked {s : Bytes} {r : Reading V} (h : r.Within s) (v : V) :
    (checked f v r).Within s := by
  cases r with
  | ok value rest =>
    rw [checked]
    split_ifs
    · exact within_error _
    · exact h
  | error status => exact within_error _
  | fault => exact within_fault

theorem within_realValue (hread : ∀ s, (read s).Within s) (s : Bytes) :
    (realValue f store unset read s).Within s := by
  cases s with
  | nil => exact within_error _
  | cons c t =>
    have ht : t <:+ c :: t := List.suffix_cons c t
    rw [realValue]
    refine within_checked f ?_ _
    split_ifs
    · exact within_evalExpression f hread _
    · exact (within_ngcReadParameter f store hread false _).mono ht
    · exact (hread t).mono ht
    · exact ((hread t).mono ht).bind fun value rest h => within_ok h
    · exact within_readUnary f store hread _
    · exact within_readNumber f _

theorem within_readReal : ∀ (n : ℕ) (s : Bytes), (readReal f store unset n s).Within s
  | 0, _ => within_fault
  | n + 1, s => within_realValue f store unset (within_readReal n) s

end Readers

/-- `ngc_read_parameter` for the references in messages, with the number that a value is. Behind a
reference that is not read, `skip` characters are left out. -/
def ParamReader.ofStore {V : Type*} (f : FloatOps V) (store : Store V) (unset : Bytes → V)
    (number : V → ℚ) (skip : Bytes → ℕ) : ParamReader where
  read s :=
    match ngcReadParameter f store (ngcReadRealValue f store unset) true s with
    | .ok value rest => (some (number value), rest)
    | _ => (none, s.drop (skip s + 1))
  suffix text := by
    have hread : ∀ s, (ngcReadRealValue f store unset s).Within s :=
      fun s => within_readReal f store unset _ s
    have hwithin := within_ngcReadParameter f store hread true ('#'.toUInt8 :: text)
    cases h : ngcReadParameter f store (ngcReadRealValue f store unset) true
        ('#'.toUInt8 :: text) with
    | ok value rest => exact hwithin value rest h
    | error status => exact List.drop_suffix (skip ('#'.toUInt8 :: text)) text
    | fault => exact List.drop_suffix (skip ('#'.toUInt8 :: text)) text

end Ngc

end Inspector
