import Inspector.Gcode.MotionBlock

/-! # Blocks that set offsets

`G92` sets the coordinate offset, `G10 L2` and `G10 L20` the data of a coordinate system. Both are
computed while a block is checked and take effect when it is executed, after a tool length offset
and a coordinate system that the same block selects. `G92` and `G10 L20` give the named axes the
programmed work positions unless the tool length offset of these changes in between. The words `L`
and `P` are narrowed to eight bits before they are compared, which lets some large numbers pass.
-/

namespace Inspector

namespace Offsets

/-- `N_WorkCoordinateSystems`. -/
abbrev nWorkCoordinateSystems : ℕ := 9

/-- `CoordinateSystem_G92`, where the coordinate offset is stored. -/
def coordinateSystemG92 : ℕ := 11

/-- The conversions of C from a float, truncated, to an unsigned integer. What they give for a
number outside of the range of the type is not defined. -/
structure Casts where
  toUInt32 : ℤ → ℕ
  toUInt8 : ℤ → ℕ
  toUInt32_of_lt : ∀ n : ℕ, n < 2 ^ 32 → toUInt32 n = n
  toUInt8_of_lt : ∀ n : ℕ, n < 2 ^ 8 → toUInt8 n = n

/-- Conversions that keep the low bits. -/
def Casts.modular : Casts where
  toUInt32 z := (z % 2 ^ 32).toNat
  toUInt8 z := (z % 2 ^ 8).toNat
  toUInt32_of_lt n hn := by omega
  toUInt8_of_lt n hn := by omega

/-- The errors of these blocks. -/
inductive Status
  | gcodeCommandValueNotInteger
  | negativeValue
  | gcodeNoAxisWords
  | gcodeValueWordMissing
  | gcodeUnsupportedCommand
  | gcodeUnsupportedCoordSys
  | settingReadFail
  | gcodeCoordSystemLocked
  | gcodeIllegalToolTableEntry
  | gcodeUnusedWords
  deriving DecidableEq

/-- `coord_system_t`. -/
structure CoordSystem (K : Type*) where
  id : Fin nWorkCoordinateSystems
  data : Axis → K

/-- The coordinate data in the non-volatile storage, where they can be read. -/
abbrev Store (K : Type*) := ℕ → Option (Axis → K)

/-- The settings, and the tool table. -/
structure Config (K : Type*) where
  isRotary : Axis → Bool
  offsetLock : ℕ → Bool
  g92IsVolatile : Bool
  nTools : ℕ
  getTool : ℕ → Option (Axis → K)

/-- The parts of `gc_state` that offsets depend on, and the stored data. -/
structure State (K : Type*) where
  position : Axis → K
  g5xOffset : CoordSystem K
  g92Offset : Axis → K
  toolLengthOffset : Axis → K
  coordData : Store K

/-- `G10` and `G92`. -/
inductive NonModal
  | settings
  | setCoordinateOffset
  deriving DecidableEq

/-- `G49`, `G43` and `G43.2`. `G43.1` is refused in a block with `G10` or `G92`. -/
inductive ToolOffset
  | cancel
  | enable (tool : ℕ)
  | applyAdditional (tool : ℕ)

/-- A block with `G10` or `G92`, its words as programmed. -/
structure Block (K : Type*) where
  command : NonModal
  axisWords : Axis → Option K
  l : Option K
  p : Option K
  r : Option K
  g5x : Option (Fin nWorkCoordinateSystems)
  toolOffset : Option ToolOffset
  unitsImperial : Bool
  diameterMode : Bool

/-- What an accepted block does. The commands for the tool table are `G10` with `L0`, `L1`, `L10`
and `L11`; their own checks and effects are left out. -/
inductive Effect (K : Type*)
  | coordSystem (system : CoordSystem K)
  | toolTable
  | offset (xyz : Axis → K)

variable {K : Type*} [Field K]

/-- An axis word in millimetres or degrees. -/
def Block.value (c : Config K) (b : Block K) (i : Axis) (word : K) : K :=
  let word := if b.unitsImperial && !c.isRotary i then word * mmPerInch else word
  if b.diameterMode && i = .x then word / 2 else word

/-- `gc_get_offset`, and `gc_get_block_offset` of a block that selects no coordinate system. -/
def State.gcGetOffset (st : State K) (i : Axis) : K :=
  st.g5xOffset.data i + st.g92Offset i + st.toolLengthOffset i

/-- The work position. -/
def State.workPosition (st : State K) (i : Axis) : K := st.position i - st.gcGetOffset i

/-- `settings_read_coord_data`; data that cannot be read are set to zero. -/
def settingsReadCoordData (store : Store K) (id : ℕ) : Except (Status × Store K) (Axis → K) :=
  match store id with
  | some data => .ok data
  | none => .error (.settingReadFail, Function.update store id (some 0))

/-- Step 14 of the checks, for the tool of a tool length offset. -/
def ToolOffset.check (c : Config K) : ToolOffset → Except Status Unit
  | cancel => .ok ()
  | enable tool =>
    if c.nTools = 0 then .error .gcodeUnsupportedCommand
    else if c.getTool tool = none then .error .gcodeIllegalToolTableEntry
    else .ok ()
  | applyAdditional tool =>
    if c.nTools = 0 then .error .gcodeUnsupportedCommand
    else if tool = 0 ∨ c.getTool tool = none then .error .gcodeIllegalToolTableEntry
    else .ok ()

/-- `tool_offset_apply`. -/
def ToolOffset.apply (c : Config K) (tlo : Axis → K) : ToolOffset → Axis → K
  | cancel => 0
  | enable tool => (c.getTool tool).getD tlo
  | applyAdditional tool => tlo + (c.getTool tool).getD 0

/-- The tool length offset after step 14 of the execution. -/
def Block.toolLengthOffset (c : Config K) (st : State K) (b : Block K) : Axis → K :=
  match b.toolOffset with
  | some toolOffset => toolOffset.apply c st.toolLengthOffset
  | none => st.toolLengthOffset

/-- Step 15 of the checks: the coordinate system of the block. -/
def Block.g5xOffset (st : State K) (b : Block K) : Except (Status × Store K) (CoordSystem K) :=
  match b.g5x with
  | some id =>
    if id = st.g5xOffset.id then .ok st.g5xOffset
    else (settingsReadCoordData st.coordData id).map fun data => ⟨id, data⟩
  | none => .ok st.g5xOffset

/-- A bit of `settings.offset_lock`, for `G59.1` to `G59.3`. -/
def Config.locked (c : Config K) (id : Fin nWorkCoordinateSystems) : Bool :=
  6 ≤ id.val && c.offsetLock (id - 6)

/-- The new data of a coordinate system. -/
def Block.coordData (c : Config K) (st : State K) (b : Block K) (l : ℕ) (data : Axis → K)
    (i : Axis) : K :=
  match b.axisWords i with
  | some word =>
    if l = 20 then
      st.position i - b.value c i word - st.g92Offset i - st.toolLengthOffset i
    else b.value c i word
  | none => data i

/-- The new coordinate offset, with the coordinate system of the block. -/
def Block.g92Offset (c : Config K) (st : State K) (b : Block K) (g5x : CoordSystem K)
    (i : Axis) : K :=
  match b.axisWords i with
  | some word => st.position i - g5x.data i - b.value c i word - st.toolLengthOffset i
  | none => st.g92Offset i

/-- The block has no axis words. -/
def Block.NoAxisWords (b : Block K) : Prop := ∀ i ∈ Axis.down, b.axisWords i = none

instance (b : Block K) : Decidable b.NoAxisWords :=
  inferInstanceAs (Decidable (∀ i ∈ Axis.down, b.axisWords i = none))

/-- `coord_system.id`, for a `P` that is not greater than the number of coordinate systems. -/
def coordSystemId (active : Fin nWorkCoordinateSystems) (pValue : ℕ)
    (h : pValue ≤ nWorkCoordinateSystems) : Fin nWorkCoordinateSystems :=
  if h0 : pValue = 0 then active else ⟨pValue - 1, by omega⟩

theorem coordSystemId_spec (active : Fin nWorkCoordinateSystems) (pValue : ℕ)
    (h : pValue ≤ nWorkCoordinateSystems) :
    if pValue = 0 then coordSystemId active pValue h = active
    else pValue = (coordSystemId active pValue h).val + 1 := by
  unfold coordSystemId
  split_ifs with h0
  · rfl
  · exact (Nat.succ_pred_eq_of_ne_zero h0).symm

/-- Step 19 of the checks, for `G10` with `L2` or `L20`. -/
def checkCoordSystem (c : Config K) (st : State K) (b : Block K) (g5x : CoordSystem K)
    (l pValue : ℕ) : Except (Status × Store K) (Effect K) :=
  if l = 2 ∧ b.r.isSome then .error (.gcodeUnsupportedCommand, st.coordData)
  else if h : pValue ≤ nWorkCoordinateSystems then
    let id := coordSystemId g5x.id pValue h
    match settingsReadCoordData st.coordData id with
    | .error e => .error e
    | .ok data =>
      if c.locked id then .error (.gcodeCoordSystemLocked, st.coordData)
      else if b.r.isSome then .error (.gcodeUnusedWords, st.coordData)
      else .ok (.coordSystem ⟨id, b.coordData c st l data⟩)
  else .error (.gcodeUnsupportedCoordSys, st.coordData)

/-- Step 19 of the checks, for `G92`. -/
def checkCoordinateOffset (c : Config K) (st : State K) (b : Block K) (g5x : CoordSystem K) :
    Except (Status × Store K) (Effect K) :=
  if b.NoAxisWords then .error (.gcodeNoAxisWords, st.coordData)
  else if b.l.isSome ∨ b.p.isSome ∨ b.r.isSome then .error (.gcodeUnusedWords, st.coordData)
  else .ok (.offset (b.g92Offset c st g5x))

/-- Steps 14, 15 and 19 of the execution. -/
def execute (c : Config K) (st : State K) (b : Block K) (g5x : CoordSystem K) :
    Effect K → State K
  | .coordSystem system =>
    { st with
      toolLengthOffset := b.toolLengthOffset c st
      coordData := Function.update st.coordData system.id (some system.data)
      g5xOffset := if g5x.id = system.id then system else g5x }
  | .offset xyz =>
    { st with
      toolLengthOffset := b.toolLengthOffset c st
      g5xOffset := g5x
      g92Offset := xyz
      coordData :=
        if c.g92IsVolatile then st.coordData
        else Function.update st.coordData coordinateSystemG92 (some xyz) }
  | .toolTable => { st with toolLengthOffset := b.toolLengthOffset c st, g5xOffset := g5x }

/-- The coordinate system that is active after the block. -/
def Block.activeId (st : State K) (b : Block K) : Fin nWorkCoordinateSystems :=
  b.g5x.getD st.g5xOffset.id

section Checked

variable {c : Config K} {st : State K} {b : Block K} {g5x : CoordSystem K} {effect : Effect K}
  {l : ℕ}

theorem settingsReadCoordData_ok {store : Store K} {id : ℕ} {data : Axis → K}
    (h : settingsReadCoordData store id = .ok data) : store id = some data := by
  unfold settingsReadCoordData at h
  cases hdata : store id with
  | none => simp [hdata] at h
  | some data' => simpa [hdata] using h

/-- The coordinate system of an accepted block. -/
theorem g5xOffset_ok (h : b.g5xOffset st = .ok g5x) :
    g5x.id = b.activeId st ∧
      (if b.activeId st = st.g5xOffset.id then g5x = st.g5xOffset
        else st.coordData (b.activeId st) = some g5x.data) := by
  unfold Block.g5xOffset at h
  unfold Block.activeId
  cases hid : b.g5x with
  | none =>
    obtain rfl : st.g5xOffset = g5x := by simpa [hid] using h
    simp
  | some id =>
    simp only [hid] at h
    by_cases heq : id = st.g5xOffset.id
    · obtain rfl : st.g5xOffset = g5x := by simpa [heq] using h
      simp [heq]
    · rw [if_neg heq] at h
      cases hread : settingsReadCoordData st.coordData id with
      | error status => simp [hread, Except.map] at h
      | ok data =>
        obtain rfl : (⟨id, data⟩ : CoordSystem K) = g5x := by simpa [hread, Except.map] using h
        simp [heq, settingsReadCoordData_ok hread]

/-- The coordinate system that a `G10` changes. -/
theorem checkCoordSystem_ok {pValue : ℕ}
    (h : checkCoordSystem c st b g5x l pValue = .ok effect) :
    ∃ id data, effect = .coordSystem ⟨id, b.coordData c st l data⟩ ∧
      pValue ≤ nWorkCoordinateSystems ∧
      (if pValue = 0 then id = g5x.id else pValue = id.val + 1) ∧
      st.coordData id = some data := by
  unfold checkCoordSystem at h
  by_cases hr : l = 2 ∧ b.r.isSome
  · simp [hr] at h
  by_cases hpValue : pValue ≤ nWorkCoordinateSystems
  · have hid := coordSystemId_spec g5x.id pValue hpValue
    simp only [if_neg hr, dif_pos hpValue] at h
    cases hread : settingsReadCoordData st.coordData (coordSystemId g5x.id pValue hpValue) with
    | error e => simp [hread] at h
    | ok data =>
      simp only [hread] at h
      split_ifs at h
      refine ⟨_, data, by simpa using h.symm, hpValue, hid, settingsReadCoordData_ok hread⟩
  · simp [if_neg hr, dif_neg hpValue] at h

/-- What a `G92` does. -/
theorem checkCoordinateOffset_ok (h : checkCoordinateOffset c st b g5x = .ok effect) :
    effect = .offset (b.g92Offset c st g5x) := by
  unfold checkCoordinateOffset at h
  split_ifs at h
  simpa using h.symm

end Checked

variable [LinearOrder K] [FloorRing K]

/-- `truncf`. -/
def truncf (x : K) : ℤ := if 0 ≤ x then ⌊x⌋ else ⌈x⌉

/-- `values.l`. -/
def readL (m : Casts) : Option K → Except Status ℕ
  | some value =>
    let intValue := m.toUInt32 (truncf value)
    let mantissa := m.toUInt32 (lroundf (100 * (value - intValue)))
    if mantissa > 0 then .error .gcodeCommandValueNotInteger
    else if value < 0 then .error .negativeValue
    else .ok (intValue % 2 ^ 8)
  | none => .ok 0

/-- Step 19 of the checks, for `G10`. -/
def checkSettings (m : Casts) (c : Config K) (st : State K) (b : Block K) (g5x : CoordSystem K)
    (l : ℕ) : Except (Status × Store K) (Effect K) :=
  let p := b.p.getD 0
  if l > 0 ∧ b.NoAxisWords ∧ (l = 20 ∨ b.r = none) then
    .error (.gcodeNoAxisWords, st.coordData)
  else if l > 0 ∧ b.p = none ∧ b.l = none then .error (.gcodeValueWordMissing, st.coordData)
  else if l > 0 ∧ p < 0 then .error (.negativeValue, st.coordData)
  else
    let pValue := if l > 0 then m.toUInt8 (truncf p) else 0
    if l = 2 ∨ l = 20 then checkCoordSystem c st b g5x l pValue
    else if l = 0 ∨ l = 1 ∨ l = 10 ∨ l = 11 then .ok .toolTable
    else .error (.gcodeUnsupportedCommand, st.coordData)

/-- `gc_execute_block`: an error with the stored data, or the effect and the new state. -/
def gcExecuteBlock (m : Casts) (c : Config K) (st : State K) (b : Block K) :
    Except (Status × Store K) (Effect K × State K) :=
  ((readL m b.l).mapError fun status => (status, st.coordData)).bind fun l =>
  ((b.toolOffset.elim (.ok ()) (ToolOffset.check c)).mapError
    fun status => (status, st.coordData)).bind fun _ =>
  (b.g5xOffset st).bind fun g5x =>
  (match b.command with
    | .settings => checkSettings m c st b g5x l
    | .setCoordinateOffset => checkCoordinateOffset c st b g5x).map fun effect =>
  (effect, execute c st b g5x effect)

/-- The number of a coordinate system, zero for the active one. -/
def Block.Numbers (st : State K) (b : Block K) (p : K) (id : Fin nWorkCoordinateSystems) : Prop :=
  if ⌊p⌋ = 0 then id = b.activeId st else ⌊p⌋ = id.val + 1

section Accepted

variable {m : Casts} {c : Config K} {st st' : State K} {b : Block K} {g5x : CoordSystem K}
  {effect : Effect K} {l : ℕ}

/-- What there is to an accepted block. -/
theorem gcExecuteBlock_ok (h : gcExecuteBlock m c st b = .ok (effect, st')) :
    ∃ l g5x, readL m b.l = .ok l ∧ b.g5xOffset st = .ok g5x ∧
      (match b.command with
        | .settings => checkSettings m c st b g5x l
        | .setCoordinateOffset => checkCoordinateOffset c st b g5x) = .ok effect ∧
      st' = execute c st b g5x effect := by
  unfold gcExecuteBlock at h
  cases hl : readL m b.l with
  | error status => simp [hl, Except.mapError, Except.bind] at h
  | ok l =>
    cases htool : b.toolOffset.elim (.ok ()) (ToolOffset.check c) with
    | error status => simp [hl, htool, Except.mapError, Except.bind] at h
    | ok u =>
      cases hg5x : b.g5xOffset st with
      | error status => simp [hl, htool, hg5x, Except.mapError, Except.bind] at h
      | ok g5x =>
        simp only [hl, htool, hg5x, Except.mapError, Except.bind] at h
        generalize hcheck : (match b.command with
          | .settings => checkSettings m c st b g5x l
          | .setCoordinateOffset => checkCoordinateOffset c st b g5x) = check at h
        cases check with
        | error status => simp [Except.map] at h
        | ok effect' =>
          obtain ⟨rfl, rfl⟩ : effect' = effect ∧ execute c st b g5x effect' = st' := by
            simpa [Except.map] using h
          exact ⟨l, g5x, rfl, rfl, hcheck, rfl⟩

/-- What a `G10` does. -/
theorem checkSettings_ok (h : checkSettings m c st b g5x l = .ok effect) :
    ¬ (l = 2 ∨ l = 20) ∧ effect = .toolTable ∨ (l = 2 ∨ l = 20) ∧ 0 ≤ b.p.getD 0 ∧
      checkCoordSystem c st b g5x l (m.toUInt8 (truncf (b.p.getD 0))) = .ok effect := by
  unfold checkSettings at h
  dsimp only at h
  split_ifs at h with hwords hp hneg hl hpos htool
  · exact .inr ⟨hl, not_lt.mp fun h0 => hneg ⟨hpos, h0⟩, h⟩
  · omega
  · exact .inl ⟨hl, by simpa using h.symm⟩

end Accepted

section Narrowing

variable [IsStrictOrderedRing K] {m : Casts} {c : Config K} {st st' : State K} {b : Block K}

omit [IsStrictOrderedRing K] in
theorem truncf_of_nonneg {x : K} (h : 0 ≤ x) : truncf x = (⌊x⌋₊ : ℤ) := by
  rw [truncf, if_pos h, Int.natCast_floor_eq_floor h]

theorem truncf_natCast (n : ℕ) : truncf (n : K) = n := by
  rw [truncf_of_nonneg (Nat.cast_nonneg n), Nat.floor_natCast]

/-- Of an integer, the low eight bits are read. -/
theorem readL_natCast (m : Casts) {n : ℕ} (hn : n < 2 ^ 32) :
    readL m (some (n : K)) = .ok (n % 2 ^ 8) := by
  have hint : m.toUInt32 (truncf (n : K)) = n := by
    rw [truncf_natCast, m.toUInt32_of_lt n hn]
  have hmantissa : m.toUInt32 (lroundf (100 * ((n : K) - (n : ℕ)))) = 0 := by
    have hround : lroundf (0 : K) = (0 : ℕ) := by norm_num [lroundf]
    rw [sub_self, mul_zero, hround, m.toUInt32_of_lt 0 (by norm_num)]
  simp only [readL, hint, hmantissa, gt_iff_lt, lt_self_iff_false, if_false,
    if_neg (not_lt.mpr (Nat.cast_nonneg (α := K) n))]

omit [IsStrictOrderedRing K] in
/-- A number that fits is narrowed to its integer part. -/
theorem toUInt8_truncf (m : Casts) {p : K} (h0 : 0 ≤ p) (hp : p < 2 ^ 8) :
    (m.toUInt8 (truncf p) : ℤ) = ⌊p⌋ := by
  have hlt : ⌊p⌋₊ < 2 ^ 8 := (Nat.floor_lt h0).mpr (by exact_mod_cast hp)
  rw [truncf_of_nonneg h0, m.toUInt8_of_lt _ hlt, Int.natCast_floor_eq_floor h0]

/-- A `G10` does what its words say: `L` is 2 or 20, the integer part of `P` is that of a
coordinate system, and the data of this one alone are changed. -/
structure Selects (c : Config K) (st : State K) (b : Block K) (l p : K) (st' : State K) :
    Prop where
  l_eq : l = 2 ∨ l = 20
  p_mem : 0 ≤ ⌊p⌋ ∧ ⌊p⌋ ≤ nWorkCoordinateSystems
  changed : ∃ id data, b.Numbers st p id ∧ st.coordData id = some data ∧
    st'.coordData = Function.update st.coordData id (some (b.coordData c st ⌊l⌋₊ data))

/-- The words are not changed when they are narrowed: `L` is an integer, and both fit in eight
bits. -/
structure Fits (l p : K) : Prop where
  l_eq : ∃ n : ℕ, l = n ∧ n < 2 ^ 8
  p_lt : p < 2 ^ 8

omit [IsStrictOrderedRing K] in
/-- What an accepted `G10` changes, in terms of the narrowed words. -/
theorem coordSystem_of_accepted {system : CoordSystem K} (hb : b.command = .settings)
    (h : gcExecuteBlock m c st b = .ok (.coordSystem system, st')) :
    ∃ l g5x data, readL m b.l = .ok l ∧ (l = 2 ∨ l = 20) ∧ 0 ≤ b.p.getD 0 ∧
      m.toUInt8 (truncf (b.p.getD 0)) ≤ nWorkCoordinateSystems ∧
      (if m.toUInt8 (truncf (b.p.getD 0)) = 0 then system.id = b.activeId st
        else m.toUInt8 (truncf (b.p.getD 0)) = system.id.val + 1) ∧
      st.coordData system.id = some data ∧ system.data = b.coordData c st l data ∧
      g5x.id = b.activeId st ∧ st' = execute c st b g5x (.coordSystem system) := by
  obtain ⟨l, g5x, hl, hg5x, hcheck, hst⟩ := gcExecuteBlock_ok h
  simp only [hb] at hcheck
  rcases checkSettings_ok hcheck with ⟨-, htool⟩ | ⟨hl2, hp, hcheck⟩
  · cases htool
  · obtain ⟨id, data, hsystem, hle, hid, hdata⟩ := checkCoordSystem_ok hcheck
    obtain rfl : system = ⟨id, b.coordData c st l data⟩ := by simpa using hsystem
    have hactive := (g5xOffset_ok hg5x).1
    rw [hactive] at hid
    exact ⟨l, g5x, data, hl, hl2, hp, hle, hid, hdata, rfl, hactive, hst⟩

/-- An accepted `G10` with the effect of `L2` or `L20` selects what was programmed exactly if the
narrowing does not change its words. -/
theorem selects_iff {system : CoordSystem K} {l p : K} (hb : b.command = .settings)
    (hl : b.l = some l) (hp : b.p = some p)
    (h : gcExecuteBlock m c st b = .ok (.coordSystem system, st')) :
    Selects c st b l p st' ↔ Fits l p := by
  obtain ⟨n, g5x, data, hread, hn, hp0, hle, hid, hdata, hsystem, -, hst⟩ :=
    coordSystem_of_accepted hb h
  rw [hp, Option.getD_some] at hp0 hle hid
  constructor
  · rintro ⟨hl2, ⟨-, hp9⟩, -⟩
    constructor
    · rcases hl2 with rfl | rfl
      · exact ⟨2, by norm_num⟩
      · exact ⟨20, by norm_num⟩
    · have hlt := Int.floor_lt.mp (Int.lt_add_one_of_le hp9)
      norm_num [nWorkCoordinateSystems] at hlt
      linarith
  · rintro ⟨⟨k, rfl, hk⟩, hp8⟩
    have hread' := readL_natCast (K := K) m (hk.trans (by norm_num))
    rw [Nat.mod_eq_of_lt hk, ← hl, hread] at hread'
    obtain rfl : n = k := by simpa using hread'
    have hnarrow := toUInt8_truncf m hp0 hp8
    refine ⟨?_, ⟨Int.floor_nonneg.mpr hp0, by omega⟩, system.id, data, ?_, hdata, ?_⟩
    · rcases hn with rfl | rfl
      · exact .inl (by norm_num)
      · exact .inr (by norm_num)
    · rw [Block.Numbers, ← hnarrow]
      split_ifs at hid ⊢ <;> omega
    · rw [hst, Nat.floor_natCast, ← hsystem]
      rfl

omit [IsStrictOrderedRing K] in
/-- A `G10` that is accepted. -/
theorem gcExecuteBlock_coordSystem {l : ℕ} {data : Axis → K} (hb : b.command = .settings)
    (hread : readL m b.l = .ok l) (hl : l = 2 ∨ l = 20) (hwords : ¬ b.NoAxisWords)
    (hr : b.r = none) (htool : b.toolOffset = none) (hg5x : b.g5x = none) (hp0 : 0 ≤ b.p.getD 0)
    (hp : m.toUInt8 (truncf (b.p.getD 0)) ≤ nWorkCoordinateSystems)
    (hdata : st.coordData (coordSystemId st.g5xOffset.id _ hp) = some data)
    (hlock : c.locked (coordSystemId st.g5xOffset.id _ hp) = false) :
    let effect := .coordSystem ⟨coordSystemId st.g5xOffset.id _ hp, b.coordData c st l data⟩
    gcExecuteBlock m c st b = .ok (effect, execute c st b st.g5xOffset effect) := by
  have hpos : l > 0 := by omega
  have hsome : b.l ≠ none := by
    rintro hnone
    simp only [hnone, readL, Except.ok.injEq] at hread
    omega
  have hcheck : checkSettings m c st b st.g5xOffset l =
      .ok (.coordSystem ⟨coordSystemId st.g5xOffset.id _ hp, b.coordData c st l data⟩) := by
    simp [checkSettings, checkCoordSystem, settingsReadCoordData, hpos, hwords, hsome,
      not_lt.mpr hp0, hl, hr, hp, hdata, hlock]
  simp [gcExecuteBlock, Block.g5xOffset, hread, htool, hg5x, hb, hcheck, Except.bind, Except.map,
    Except.mapError]

end Narrowing

section Examples

/-- A machine without a tool table and without rotary axes. -/
def plain : Config ℚ where
  isRotary _ := false
  offsetLock _ := false
  g92IsVolatile := true
  nTools := 0
  getTool _ := none

/-- At the origin of `G54`, with no offsets. -/
def atOrigin : State ℚ where
  position := 0
  g5xOffset := ⟨0, 0⟩
  g92Offset := 0
  toolLengthOffset := 0
  coordData _ := some 0

/-- `G10 P1 X5` with an `L` word. -/
def g10 (l : ℚ) : Block ℚ where
  command := .settings
  axisWords i := if i = .x then some 5 else none
  l := some l
  p := some 1
  r := none
  g5x := none
  toolOffset := none
  unitsImperial := false
  diameterMode := false

theorem gcExecuteBlock_g10 {n : ℕ} (hn : n < 2 ^ 32) (hl : n % 2 ^ 8 = 2) :
    let system : CoordSystem ℚ := ⟨0, (g10 n).coordData plain atOrigin 2 0⟩
    gcExecuteBlock .modular plain atOrigin (g10 n) =
      .ok (.coordSystem system, execute plain atOrigin (g10 n) ⟨0, 0⟩ (.coordSystem system)) := by
  have hp : Casts.modular.toUInt8 (truncf ((g10 n).p.getD 0)) = 1 := by
    change Casts.modular.toUInt8 (truncf (1 : ℚ)) = 1
    rw [← Nat.cast_one, truncf_natCast, Casts.modular.toUInt8_of_lt 1 (by norm_num)]
  have hread : readL .modular (g10 n).l = .ok 2 := by
    change readL .modular (some (n : ℚ)) = .ok 2
    rw [readL_natCast _ hn, hl]
  have hle : Casts.modular.toUInt8 (truncf ((g10 n).p.getD 0)) ≤ nWorkCoordinateSystems := by
    rw [hp]
    decide
  have hid : coordSystemId atOrigin.g5xOffset.id _ hle = 0 := by
    simp only [hp]
    rfl
  have hwords : ¬ (g10 n).NoAxisWords := fun h => Option.some_ne_none _ (h .x (Axis.mem_down .x))
  have hdata : atOrigin.coordData (coordSystemId atOrigin.g5xOffset.id _ hle) = some 0 := rfl
  have h := gcExecuteBlock_coordSystem (c := plain) rfl hread (.inl rfl) hwords rfl rfl rfl
    (by norm_num [g10]) hle hdata rfl
  simp only [hid] at h
  exact h

/-- `G10 L2 P1 X5` sets the `X` of `G54`. -/
theorem selects_g10 : Selects plain atOrigin (g10 2) 2 1
    (execute plain atOrigin (g10 2) ⟨0, 0⟩
      (.coordSystem ⟨0, (g10 2).coordData plain atOrigin 2 0⟩)) :=
  (selects_iff rfl rfl rfl (gcExecuteBlock_g10 (n := 2) (by norm_num) rfl)).mpr
    ⟨⟨2, by norm_num⟩, by norm_num⟩

/-- `G10 L258 P1 X5` does so, too. -/
theorem not_selects_g10 : ∃ st', gcExecuteBlock .modular plain atOrigin (g10 258) =
      .ok (.coordSystem ⟨0, (g10 258).coordData plain atOrigin 2 0⟩, st') ∧
    ¬ Selects plain atOrigin (g10 258) 258 1 st' := by
  refine ⟨_, gcExecuteBlock_g10 (n := 258) (by norm_num) rfl, fun h => ?_⟩
  rcases h.l_eq with h | h <;> norm_num at h

end Examples

end Offsets

end Inspector
