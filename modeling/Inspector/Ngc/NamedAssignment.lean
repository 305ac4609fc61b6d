import Inspector.Ngc.Names

/-! # Assignments to named parameters

The word `#<name>=value` of `gc_execute_block`. The value is whatever a reader finds behind the
equals sign, and memory for a new parameter may have run out. A name that overruns the buffer of its
reader leaves no result. Blocks that flow control skips are not executed and are left out.
-/

namespace Inspector

namespace Ngc

variable {V : Type*}

/-- The reader of a value: it is given the parameters, the block and a position. -/
abbrev ReadValue (V : Type*) := Params V → List UInt8 → ℕ → Except Status (V × ℕ)

/-- `ngc_named_param_set`, which may need memory. -/
def ngcNamedParamSetIn (malloc : Bool) (name : Name) (value : V) (s : Params V) : Bool × Params V :=
  let key := (s.nameContext (nameTolower name), nameTolower name)
  let predefined := isGlobal (nameTolower name) ∧ nameTolower name ∈ ngcNamedRoParam
  if ¬ malloc ∧ ¬ predefined ∧ (Keyed.read key s.rwGlobalParams).isNone then (false, s)
  else s.ngcNamedParamSet name value

/-- The word of `gc_execute_block` with its number sign just in front of `pos`. -/
def assignNamed (readValue : ReadValue V) (malloc : Bool) (block : List UInt8) (pos : ℕ)
    (s : Params V) : Option (Status × Params V) :=
  let r := ngcReadName block pos
  if maxParamLength + 1 < r.written.length then none
  else if r.status ≠ .ok then some (r.status, s)
  else if block[r.pos]? ≠ some '='.toUInt8 then some (.badNumberFormat, s)
  else
    match readValue s block (r.pos + 1) with
    | .error e => some (e, s)
    | .ok (value, _) =>
      let (ok, s) := ngcNamedParamSetIn malloc r.written.dropLast value s
      some (if ok then .ok else .badNumberFormat, s)

/-- A name without the characters that do not count, in lower case. -/
def spelled (name : Name) : Name := (visible name).map lcaps

/-- The name of a predefined parameter. -/
def Predefined (name : Name) : Prop := spelled name ∈ ngcNamedRoParam

/-- No name, the name of a predefined parameter, or one that is too long. -/
def Forbidden (name : Name) : Prop :=
  isBlank (spelled name) ∨ Predefined name ∨ maxParamLength < (spelled name).length

/-- A value is assigned to a name at a position of a block. -/
structure Assignment (readValue : ReadValue V) (block : List UInt8) (pos : ℕ) (s : Params V)
    (name : Name) (value : V) (behind : ℕ) : Prop where
  nameAt : NameAt block pos name
  equals : block[pos + name.length + 2]? = some '='.toUInt8
  valueAt : readValue s block (pos + name.length + 3) = .ok (value, behind)

/-- An assignment to a forbidden name is rejected and changes nothing, and any other one is made,
under every spelling of the name. -/
def Handled (ro : ReadOnly V) (readValue : ReadValue V) (malloc : Bool) (block : List UInt8)
    (pos : ℕ) (s : Params V) (name : Name) (value : V) : Prop :=
  ∃ status s', assignNamed readValue malloc block pos s = some (status, s') ∧
    (Forbidden name → status ≠ .ok ∧ s' = s) ∧
    (¬ Forbidden name → status = .ok ∧
      ∀ name', spelled name' = spelled name → s'.ngcNamedParamGet ro name' = some value)

/-- The names that are handled: predefined ones are accepted, and those that are not too long
without the characters that do not count are not. -/
def Handleable (malloc : Bool) (s : Params V) (name : Name) : Prop :=
  if name.length ≤ maxParamLength then
    ¬ Predefined name ∧ (malloc ∨ isBlank (spelled name) ∨
      (Keyed.read (s.nameContext (spelled name), spelled name) s.rwGlobalParams).isSome)
  else maxParamLength + 1 < name.length ∧ Forbidden name

section Spelling

theorem length_spelled_le (name : Name) : (spelled name).length ≤ name.length := by
  rw [spelled, List.length_map]
  exact List.length_filter_le _ _

theorem nameTolower_of_le (name : Name) (h : (spelled name).length ≤ maxParamLength + 1) :
    nameTolower name = spelled name := by
  rw [nameTolower_eq, lowerName_eq, Nat.sub_zero, spelled]
  rw [spelled, List.length_map] at h
  rw [List.take_of_length_le h]

theorem isGlobal_of_mem {name : Name} (h : name ∈ ngcNamedRoParam) : isGlobal name = true := by
  revert name
  decide

theorem not_isBlank_of_mem {name : Name} (h : name ∈ ngcNamedRoParam) : isBlank name = false := by
  revert name
  decide

end Spelling

section Assign

variable {readValue : ReadValue V} {malloc : Bool} {block : List UInt8} {pos : ℕ} {s : Params V}
  {name : Name} {value : V} {behind : ℕ} {ro : ReadOnly V}

theorem assignNamed_of_le (malloc : Bool)
    (h : Assignment readValue block pos s name value behind)
    (hlen : name.length ≤ maxParamLength) :
    assignNamed readValue malloc block pos s =
      some (if (ngcNamedParamSetIn malloc name value s).1 then .ok else .badNumberFormat,
        (ngcNamedParamSetIn malloc name value s).2) := by
  have hpos : pos + 1 + name.length + 1 = pos + name.length + 2 := by omega
  have hread := ngcReadName_of_le h.nameAt (by omega)
  have hfits : ¬ maxParamLength + 1 < (name ++ [0]).length := by
    rw [List.length_append, List.length_singleton]
    omega
  rw [assignNamed, hread, hpos]
  dsimp only
  rw [if_neg hfits, if_neg (by simp), if_neg (not_not_intro h.equals), h.valueAt]
  simp

theorem assignNamed_of_eq (h : NameAt block pos name) (hlen : name.length = maxParamLength + 1) :
    assignNamed readValue malloc block pos s = none := by
  have hread := ngcReadName_of_le h hlen.le
  rw [assignNamed, hread]
  dsimp only
  rw [if_pos]
  rw [List.length_append, List.length_singleton]
  omega

theorem assignNamed_of_lt (h : NameAt block pos name) (hlen : maxParamLength + 1 < name.length) :
    assignNamed readValue malloc block pos s = some (.flowControlSyntaxError, s) := by
  have hread := ngcReadName_of_lt h hlen
  have hfits : ¬ maxParamLength + 1 < (name.take (maxParamLength + 1)).length := by
    rw [List.length_take_of_le hlen.le]
    omega
  rw [assignNamed, hread]
  dsimp only
  rw [if_neg hfits, if_pos (by simp)]

end Assign

section Set

variable {malloc : Bool} {s : Params V} {name : Name} {value : V}

/-- What setting a name does when the name is not cut. -/
theorem ngcNamedParamSetIn_eq (hlen : name.length ≤ maxParamLength) :
    ngcNamedParamSetIn malloc name value s =
      let key := (s.nameContext (spelled name), spelled name)
      if isBlank (spelled name) then (false, s)
      else if spelled name ∈ ngcNamedRoParam then (true, s)
      else if malloc ∨ (Keyed.read key s.rwGlobalParams).isSome then
        (true, { s with rwGlobalParams := Keyed.write key value s.rwGlobalParams })
      else (false, s) := by
  have hshort := (length_spelled_le name).trans hlen
  have hspelled := nameTolower_of_le name (by omega)
  have hglobal : (isGlobal (spelled name) = true ∧ spelled name ∈ ngcNamedRoParam) ↔
      spelled name ∈ ngcNamedRoParam := ⟨fun h => h.2, fun h => ⟨isGlobal_of_mem h, h⟩⟩
  simp only [ngcNamedParamSetIn, Params.ngcNamedParamSet, hspelled, hglobal, if_pos hshort]
  by_cases hblank : isBlank (spelled name) = true
  · rw [if_pos hblank, if_pos hblank, ite_self]
  rw [if_neg hblank, if_neg hblank]
  by_cases hpre : spelled name ∈ ngcNamedRoParam
  · rw [if_pos hpre, if_pos hpre, if_neg fun hno => hno.2.1 hpre]
  rw [if_neg hpre, if_neg hpre]
  by_cases hmem : malloc = true ∨
      (Keyed.read (s.nameContext (spelled name), spelled name) s.rwGlobalParams).isSome = true
  · rw [if_pos hmem, if_neg]
    rintro ⟨hno, -, hnone⟩
    rcases hmem with hmem | hmem
    · exact hno hmem
    · rw [Option.isNone_iff_eq_none.mp hnone] at hmem
      exact absurd hmem (by simp)
  · obtain ⟨hno, hnone⟩ := not_or.mp hmem
    rw [if_neg hmem, if_pos ⟨hno, hpre, by simpa using hnone⟩]

/-- Every spelling of a name reads what has been written. -/
theorem ngcNamedParamGet_write {ro : ReadOnly V} {name' : Name} (h : ¬ Forbidden name)
    (hname : spelled name' = spelled name) :
    let key := (s.nameContext (spelled name), spelled name)
    ({ s with rwGlobalParams := Keyed.write key value s.rwGlobalParams } : Params V).ngcNamedParamGet
      ro name' = some value := by
  obtain ⟨hblank, hrest⟩ := not_or.mp h
  obtain ⟨hpre, hshort⟩ := not_or.mp hrest
  have hspelled : nameTolower name' = spelled name := by
    rw [nameTolower_of_le name' (by rw [hname]; omega), hname]
  simp only [Params.ngcNamedParamGet, hspelled]
  rw [if_neg hblank, if_neg fun hno => hpre hno.2]
  exact Keyed.read_write_self

end Set

section Handled

variable {ro : ReadOnly V} {readValue : ReadValue V} {malloc : Bool} {block : List UInt8} {pos : ℕ}
  {s : Params V} {name : Name} {value : V} {behind : ℕ}

theorem handled_iff_of_le (h : Assignment readValue block pos s name value behind)
    (hlen : name.length ≤ maxParamLength) :
    Handled ro readValue malloc block pos s name value ↔
      ¬ Predefined name ∧ (malloc ∨ isBlank (spelled name) ∨
        (Keyed.read (s.nameContext (spelled name), spelled name) s.rwGlobalParams).isSome) := by
  have hassign := assignNamed_of_le malloc h hlen
  have hshort := (length_spelled_le name).trans hlen
  rw [ngcNamedParamSetIn_eq hlen] at hassign
  dsimp only at hassign
  unfold Handled
  rw [hassign]
  by_cases hblank : isBlank (spelled name) = true
  · have hpre : ¬ Predefined name := fun hno => by
      rw [not_isBlank_of_mem hno] at hblank
      cases hblank
    rw [if_pos hblank]
    refine iff_of_true ⟨_, _, rfl, fun _ => ⟨by simp, rfl⟩, fun hno => ?_⟩
      ⟨hpre, .inr (.inl hblank)⟩
    exact absurd (.inl hblank) hno
  rw [if_neg hblank]
  by_cases hpre : Predefined name
  · rw [if_pos (show spelled name ∈ ngcNamedRoParam from hpre)]
    refine iff_of_false ?_ fun hno => hno.1 hpre
    rintro ⟨status, s', heq, hbad, -⟩
    obtain ⟨rfl, rfl⟩ := Prod.mk.inj (Option.some.inj heq)
    exact (hbad (.inr (.inl hpre))).1 rfl
  have hgood : ¬ Forbidden name := by
    rintro (hno | hno | hno)
    · exact hblank hno
    · exact hpre hno
    · omega
  rw [if_neg (show spelled name ∉ ngcNamedRoParam from hpre)]
  by_cases hmem : malloc = true ∨
      (Keyed.read (s.nameContext (spelled name), spelled name) s.rwGlobalParams).isSome = true
  · rw [if_pos hmem]
    refine iff_of_true ⟨_, _, rfl, fun hno => absurd hno hgood, fun _ => ⟨rfl, ?_⟩⟩
      ⟨hpre, hmem.imp_right .inr⟩
    exact fun name' hname => ngcNamedParamGet_write hgood hname
  · rw [if_neg hmem]
    refine iff_of_false ?_ fun hno => hmem (hno.2.imp_right fun h => h.resolve_left hblank)
    rintro ⟨status, s', heq, -, hok⟩
    obtain ⟨rfl, rfl⟩ := Prod.mk.inj (Option.some.inj heq)
    exact absurd (hok hgood).1 (by simp)

/-- An assignment to a named parameter is handled as it should be exactly for these names. -/
theorem handled_iff (h : Assignment readValue block pos s name value behind) :
    Handled ro readValue malloc block pos s name value ↔ Handleable malloc s name := by
  by_cases hlen : name.length ≤ maxParamLength
  · rw [Handleable, if_pos hlen]
    exact handled_iff_of_le h hlen
  rw [Handleable, if_neg hlen]
  rcases Nat.eq_or_lt_of_le (not_le.mp hlen) with heq | hlt
  · refine iff_of_false ?_ fun hno => absurd hno.1 (by omega)
    rintro ⟨status, s', hno, -⟩
    rw [assignNamed_of_eq h.nameAt heq.symm] at hno
    cases hno
  · unfold Handled
    rw [assignNamed_of_lt h.nameAt hlt]
    constructor
    · rintro ⟨status, s', hassign, -, hok⟩
      obtain ⟨rfl, rfl⟩ := Prod.mk.inj (Option.some.inj hassign)
      refine ⟨hlt, by_contra fun hgood => absurd (hok hgood).1 (by simp)⟩
    · rintro ⟨-, hbad⟩
      exact ⟨_, _, rfl, fun _ => ⟨by simp, rfl⟩, fun hno => absurd hbad hno⟩

end Handled

section Digit

/-- A reader of one digit. -/
def readDigit : ReadValue ℤ := fun _ block pos =>
  match block[pos]? with
  | some c => .ok (c.toNat - 0x30, pos + 1)
  | none => .error .expressionSyntaxError

/-- The text of an assignment behind its number sign. -/
def assignText (name : String) : List UInt8 :=
  ('<' :: name.toList ++ ['>', '=', '5']).map Char.toUInt8

def zeros : ReadOnly ℤ := ⟨fun _ => 0, fun _ => 0⟩

/-- The word `#<A>=5`, read in lower case. -/
theorem handled_a :
    Handled zeros readDigit true (assignText "A") 0 {} ("A".toList.map Char.toUInt8) 5 :=
  (handled_iff ⟨⟨by decide, by decide⟩, by decide, rfl⟩).mpr (by
    rw [Handleable, if_pos (by decide)]
    exact ⟨by unfold Predefined; decide, .inl rfl⟩)

/-- The word `#<_X>=5` is accepted, and nothing is assigned. -/
theorem not_handled_x :
    assignNamed readDigit true (assignText "_X") 0 {} = some (.ok, {}) ∧
    ¬ Handled zeros readDigit true (assignText "_X") 0 {} ("_X".toList.map Char.toUInt8) 5 := by
  have hassign : assignNamed readDigit true (assignText "_X") 0 {} = some (.ok, {}) := by rfl
  refine ⟨hassign, ?_⟩
  rintro ⟨status, s', heq, hbad, -⟩
  rw [hassign] at heq
  obtain ⟨rfl, rfl⟩ := Prod.mk.inj (Option.some.inj heq)
  exact (hbad (.inr (.inl (by unfold Predefined; decide)))).1 rfl

end Digit

end Ngc

end Inspector
