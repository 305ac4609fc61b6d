import Inspector.Gcode.Offsets

/-! # Setting the work position

`G92` and `G10 L20` choose an offset such that the work positions of the named axes become the
programmed values. They subtract the tool length offset from before the block, but one that the
same block changes is in force when they are executed. The work positions come out right exactly if
the offsets that are not set are the same before and after.
-/

namespace Inspector

namespace Offsets

variable {K : Type*} [Field K] [LinearOrder K] [FloorRing K]

/-- The block is a `G92`, or a `G10 L20` on the active coordinate system. -/
def Block.SetsPosition (st : State K) (b : Block K) : Prop :=
  b.command = .setCoordinateOffset ∨
    b.command = .settings ∧ b.l = some 20 ∧ b.Numbers st (b.p.getD 0) (b.activeId st)

/-- An absolute `G0` or `G1` to the values of the block, when the state is `st`. -/
structure Block.MovesTo (c : Config K) (b : Block K) (st : State K) (move : MotionBlock K) :
    Prop where
  axisWords : ∀ i, move.axisWords i = (b.axisWords i).map (b.value c i)
  absolute : move.distanceIncremental = false
  offsets : move.absoluteOverride = false
  offset : move.offset = st.gcGetOffset

/-- What the block is for: the work positions of the named axes are the programmed values, and
nothing else moves. -/
structure PositionLaw (c : Config K) (st : State K) (b : Block K) (st' : State K) : Prop where
  named : ∀ i word, b.axisWords i = some word → st'.workPosition i = b.value c i word
  others : ∀ i, b.axisWords i = none → st'.workPosition i = st.workPosition i
  machine : st'.position = st.position
  zeroLength : ∀ move, b.MovesTo c st' move → ∀ i word, b.axisWords i = some word →
    move.target st'.position i = st'.position i

/-- The data of the active coordinate system after the block, for an axis without a word: the
stored ones, if the block reads them. -/
def Block.activeData (st : State K) (b : Block K) : Axis → K :=
  if b.command = .settings ∨ b.activeId st ≠ st.g5xOffset.id then
    (st.coordData (b.activeId st)).getD 0
  else st.g5xOffset.data

/-- The block does not change the tool length offsets of the named axes, and for the other axes
not the sum of the offset of the coordinate system and that of the tool. -/
structure Steady (c : Config K) (st : State K) (b : Block K) : Prop where
  named : ∀ i, b.axisWords i ≠ none → b.toolLengthOffset c st i = st.toolLengthOffset i
  others : ∀ i, b.axisWords i = none →
    b.activeData st i + b.toolLengthOffset c st i =
      st.g5xOffset.data i + st.toolLengthOffset i

section Law

variable [IsStrictOrderedRing K] {m : Casts} {c : Config K} {st st' : State K} {b : Block K}
  {effect : Effect K}

/-- The offsets after a block, with the tool length offsets from before and after it. -/
def Block.offsetAfter (c : Config K) (st : State K) (b : Block K) (i : Axis) : K :=
  match b.axisWords i with
  | some word =>
    st.position i - b.value c i word - st.toolLengthOffset i + b.toolLengthOffset c st i
  | none => b.activeData st i + st.g92Offset i + b.toolLengthOffset c st i

omit [IsStrictOrderedRing K] in
/-- An accepted `G92`. -/
theorem setCoordinateOffset_spec (hb : b.command = .setCoordinateOffset)
    (h : gcExecuteBlock m c st b = .ok (effect, st')) :
    st'.position = st.position ∧ ∀ i, st'.gcGetOffset i = b.offsetAfter c st i := by
  obtain ⟨l, g5x, -, hg5x, hcheck, rfl⟩ := gcExecuteBlock_ok h
  simp only [hb] at hcheck
  obtain rfl := checkCoordinateOffset_ok hcheck
  have hdata : g5x.data = b.activeData st := by
    have hsystem := (g5xOffset_ok hg5x).2
    by_cases hid : b.activeId st = st.g5xOffset.id
    · rw [if_pos hid] at hsystem
      simp [Block.activeData, hb, hid, hsystem]
    · rw [if_neg hid] at hsystem
      simp [Block.activeData, hid, hsystem]
  refine ⟨rfl, fun i => ?_⟩
  cases hword : b.axisWords i with
  | some word =>
    simp only [execute, State.gcGetOffset, Block.g92Offset, Block.offsetAfter, hword]
    ring
  | none => simp only [execute, State.gcGetOffset, Block.g92Offset, Block.offsetAfter, hword, hdata]

/-- An accepted `G10 L20` on the active coordinate system. -/
theorem settings_spec (hb : b.command = .settings) (hl : b.l = some 20)
    (hp : b.Numbers st (b.p.getD 0) (b.activeId st))
    (h : gcExecuteBlock m c st b = .ok (effect, st')) :
    st'.position = st.position ∧ ∀ i, st'.gcGetOffset i = b.offsetAfter c st i := by
  obtain ⟨l, g5x, hread, hg5x, hcheck, rfl⟩ := gcExecuteBlock_ok h
  simp only [hb] at hcheck
  have hl20 := readL_natCast (K := K) (n := 20) m (by norm_num)
  rw [Nat.cast_ofNat, ← hl, hread] at hl20
  obtain rfl : l = 20 := by simpa using hl20
  rcases checkSettings_ok hcheck with ⟨hne, -⟩ | ⟨-, hp0, hcheck⟩
  · exact absurd (.inr rfl) hne
  obtain ⟨id, data, rfl, -, hid, hdata⟩ := checkCoordSystem_ok hcheck
  have hactive := (g5xOffset_ok hg5x).1
  have hlt : b.p.getD 0 < 2 ^ 8 := by
    have hid9 : (b.activeId st).val < 9 := (b.activeId st).isLt
    have hfloor : ⌊b.p.getD 0⌋ < (2 ^ 8 : ℕ) := by
      unfold Block.Numbers at hp
      split_ifs at hp <;> omega
    exact_mod_cast Int.floor_lt.mp hfloor
  have hnarrow := toUInt8_truncf m hp0 hlt
  obtain rfl : id = b.activeId st := by
    unfold Block.Numbers at hp
    rw [← hnarrow] at hp
    split_ifs at hid hp
    · rw [hid, hactive]
    · omega
    · omega
    · exact Fin.ext (by omega)
  have hstored : data = b.activeData st := by
    simp [Block.activeData, hb, hdata]
  refine ⟨rfl, fun i => ?_⟩
  cases hword : b.axisWords i with
  | some word =>
    simp only [execute, State.gcGetOffset, Block.coordData, Block.offsetAfter, hword, hactive,
      if_true]
    ring
  | none =>
    simp only [execute, State.gcGetOffset, Block.coordData, Block.offsetAfter, hword, hactive,
      if_true, hstored]

theorem offset_of_accepted (hb : b.SetsPosition st)
    (h : gcExecuteBlock m c st b = .ok (effect, st')) :
    st'.position = st.position ∧ ∀ i, st'.gcGetOffset i = b.offsetAfter c st i := by
  rcases hb with hb | ⟨hb, hl, hp⟩
  · exact setCoordinateOffset_spec hb h
  · exact settings_spec hb hl hp h

/-- An accepted block does what it is for exactly if the other offsets stay as they are. -/
theorem positionLaw_iff (hb : b.SetsPosition st)
    (h : gcExecuteBlock m c st b = .ok (effect, st')) : PositionLaw c st b st' ↔ Steady c st b := by
  obtain ⟨hposition, hoffset⟩ := offset_of_accepted hb h
  have hwork : ∀ i, st'.workPosition i = st.position i - b.offsetAfter c st i := by
    intro i
    rw [State.workPosition, hposition, hoffset]
  constructor
  · intro hlaw
    refine ⟨fun i hi => ?_, fun i hi => ?_⟩
    · obtain ⟨word, hword⟩ := Option.ne_none_iff_exists'.mp hi
      have hnamed := hlaw.named i word hword
      simp only [hwork, Block.offsetAfter, hword] at hnamed
      linear_combination -hnamed
    · have hothers := hlaw.others i hi
      rw [hwork] at hothers
      simp only [Block.offsetAfter, hi, State.workPosition, State.gcGetOffset] at hothers
      linear_combination -hothers
  · intro hsteady
    have hnamed : ∀ i word, b.axisWords i = some word →
        b.offsetAfter c st i = st.position i - b.value c i word := by
      intro i word hword
      simp only [Block.offsetAfter, hword]
      linear_combination hsteady.named i (by simp [hword])
    refine ⟨fun i word hword => ?_, fun i hi => ?_, hposition, fun move hmove i word hword => ?_⟩
    · rw [hwork, hnamed i word hword]
      ring
    · rw [hwork]
      simp only [Block.offsetAfter, hi, State.workPosition, State.gcGetOffset]
      linear_combination -hsteady.others i hi
    · simp only [MotionBlock.target, hmove.axisWords, hword, Option.map_some, hmove.absolute,
        hmove.offsets, hmove.offset, hoffset, hnamed i word hword, hposition]
      simp

end Law

/-- `G92 Z0` at the height 10 of `G54`. -/
def g92 (toolOffset : Option ToolOffset) : Block ℚ where
  command := .setCoordinateOffset
  axisWords i := if i = .z then some 0 else none
  l := none
  p := none
  r := none
  g5x := none
  toolOffset := toolOffset
  unitsImperial := false
  diameterMode := false

/-- At the origin, with a tool that is 10 mm long. -/
def withTool : State ℚ := { atOrigin with toolLengthOffset := fun i => if i = .z then 10 else 0 }

theorem gcExecuteBlock_g92 (toolOffset : Option ToolOffset)
    (h : toolOffset.elim (.ok ()) (ToolOffset.check plain) = .ok ()) :
    let effect := .offset ((g92 toolOffset).g92Offset plain withTool ⟨0, 0⟩)
    gcExecuteBlock .modular plain withTool (g92 toolOffset) =
      .ok (effect, execute plain withTool (g92 toolOffset) ⟨0, 0⟩ effect) := by
  have hwords : ¬ (g92 toolOffset).NoAxisWords :=
    fun h => Option.some_ne_none _ (h .z (Axis.mem_down .z))
  have htool : (g92 toolOffset).toolOffset.elim (.ok ()) (ToolOffset.check plain) = .ok () := h
  simp only [gcExecuteBlock, htool, checkCoordinateOffset, if_neg hwords]
  rfl

theorem positionLaw_g92 : PositionLaw plain withTool (g92 none)
    (execute plain withTool (g92 none) ⟨0, 0⟩
      (.offset ((g92 none).g92Offset plain withTool ⟨0, 0⟩))) :=
  (positionLaw_iff (.inl rfl) (gcExecuteBlock_g92 none rfl)).mpr
    ⟨fun _ _ => rfl, fun _ _ => rfl⟩

/-- With `G49` in the same block, the work position becomes 10 instead of 0. -/
theorem not_positionLaw_g92 : ∃ effect st',
    gcExecuteBlock .modular plain withTool (g92 (some .cancel)) = .ok (effect, st') ∧
      st'.workPosition .z = 10 ∧ ¬ PositionLaw plain withTool (g92 (some .cancel)) st' := by
  have hwork : (execute plain withTool (g92 (some .cancel)) ⟨0, 0⟩
      (.offset ((g92 (some .cancel)).g92Offset plain withTool ⟨0, 0⟩))).workPosition .z = 10 := by
    norm_num [execute, State.workPosition, State.gcGetOffset, Block.g92Offset, g92, withTool,
      atOrigin, Block.value, Block.toolLengthOffset, ToolOffset.apply]
  refine ⟨_, _, gcExecuteBlock_g92 (some .cancel) rfl, hwork, fun h => ?_⟩
  have h0 := h.named .z 0 rfl
  rw [hwork] at h0
  norm_num [Block.value, g92] at h0

end Offsets

end Inspector
