import Inspector.Gcode.MotionBlock
import Inspector.MotionControl.Drill

/-! # Blocks with a canned cycle

`gc_execute_block` keeps the words of a canned cycle for the blocks that follow. An accepted block
with the retract position above the final depth has a positive peck of its own, unless it is the
one of an earlier block, and drills its holes as `mc_canned_drill` does.
-/

namespace Inspector

namespace Drill

/-- The errors of a block with a canned cycle. -/
inductive Status
  | invalidStatement
  | gcodeValueWordMissing
  | gcodeAxisCommandConflict
  | nonPositiveValue
  | gcodeInvalidRetractPosition
  | gcodeUnsupportedCommand
  | negativeValue
  | gcodeUnusedWords
  deriving DecidableEq

/-- The settings, and `at_speed` of the spindle's capabilities. -/
structure Config (K : Type*) where
  isRotary : Axis → Bool
  atSpeed : Bool
  g73Retract : K

/-- The parts of `gc_state` that a canned cycle uses; there is no motion if the mode is another
one. -/
structure Parser (K : Type*) where
  position : Axis → K
  canned : Canned K
  motion : Option Cycle
  inverseTime : Bool

/-- A block with a canned cycle, with the target from its axis words and the offset of the linear
axis. -/
structure Block (K : Type*) where
  motion : Cycle
  plane : Plane
  axisWords : Axis → Bool
  xyz : Axis → K
  r : Option K
  q : Option K
  p : Option K
  l : Option ℕ
  blockOffset : K
  distanceIncremental : Bool
  unitsImperial : Bool
  retractMode : RetractMode

/-- The cycles that drill by pecks of a `Q` word. -/
def Cycle.pecks : Cycle → Bool
  | drillChipBreak => true
  | cannedCycle83 => true
  | _ => false

/-- The cycles that `gc_execute_block` executes. -/
def Cycle.executed : Cycle → Bool
  | cannedCycle85 => false
  | cannedCycle86 => false
  | cannedCycle89 => false
  | _ => true

variable {K : Type*} [Field K]

/-- Set an entry of `xyz`. The array has three of them; what is stored beyond lands in the fields
that follow it. -/
def Canned.store (canned : Canned K) (i : Axis) (value : K) : Canned K :=
  match i with
  | .a => { canned with delta := value }
  | .b => { canned with dwell := value }
  | _ => { canned with xyz := Function.update canned.xyz i value }

namespace Block

variable (b : Block K)

/-- Millimetres for a length of the block. -/
def toMm (value : K) : K := value * if b.unitsImperial then mmPerInch else 1

/-- A new cycle starts from defaults. -/
def reset (change : Bool) (canned : Canned K) : Canned K :=
  if change then
    { canned with
      dwell := 0
      xyz := Function.update (Function.update canned.xyz b.plane.axis0 0) b.plane.axis1 0
      rapidRetract := true
      spindleOff := false }
  else canned

/-- The canned data with the retract position and the axis words of the block. -/
def storeWords (position : Axis → K) (canned : Canned K) : Canned K :=
  let canned := match b.r with
    | some r =>
      { canned with
        retractPosition := b.toMm r +
          if b.distanceIncremental then position b.plane.axisLinear else b.blockOffset }
    | none => canned
  Axis.down.foldl
    (fun canned i =>
      if b.axisWords i then
        canned.store i
          (if i ≠ b.plane.axisLinear then b.xyz i - position i
          else if b.distanceIncremental then canned.retractPosition + (b.xyz i - position i)
          else b.xyz i)
      else canned)
    canned

variable [LinearOrder K]

/-- The `P` word of a dwell, which may be that of an earlier block of the same cycle. -/
def checkDwell (change : Bool) (canned : Canned K) : Except Status (Canned K) :=
  match b.p with
  | some p => if p < 0 then .error .negativeValue else .ok { canned with dwell := p }
  | none => if change then .error .gcodeValueWordMissing else .ok canned

/-- The whole way down in one peck. -/
def wholeDepth (canned : Canned K) : Canned K :=
  { canned with delta := -canned.xyz b.plane.axisLinear + canned.retractPosition }

/-- The `Q` word, which may be that of an earlier block of the same cycle. -/
def checkPeck (change : Bool) (canned : Canned K) : Except Status (Canned K) :=
  match b.q with
  | some q =>
    if q ≤ 0 then .error .negativeValue
    else .ok { canned with delta := b.toMm q, dwell := 1 / 4 }
  | none =>
    if change then .error .gcodeValueWordMissing else .ok { canned with dwell := 1 / 4 }

/-- The words of the cycle, and words that it does not use. -/
def checkCycle (c : Config K) (change : Bool) (canned : Canned K) : Except Status (Canned K) :=
  match b.motion with
  | .cannedCycle81 =>
    if b.p.isSome || b.q.isSome then .error .gcodeUnusedWords else .ok (b.wholeDepth canned)
  | .cannedCycle85 =>
    if b.p.isSome || b.q.isSome then .error .gcodeUnusedWords
    else .ok { b.wholeDepth canned with rapidRetract := false }
  | .cannedCycle82 =>
    if b.q.isSome then .error .gcodeUnusedWords
    else (b.checkDwell change canned).map b.wholeDepth
  | .cannedCycle84 =>
    if !c.atSpeed then .error .gcodeUnsupportedCommand
    else if b.q.isSome then .error .gcodeUnusedWords
    else (b.checkDwell change { canned with rapidRetract := false }).map b.wholeDepth
  | .cannedCycle86 =>
    if b.q.isSome then .error .gcodeUnusedWords
    else (b.checkDwell change { canned with spindleOff := true, rapidRetract := true }).map
      b.wholeDepth
  | .cannedCycle89 =>
    if b.q.isSome then .error .gcodeUnusedWords
    else (b.checkDwell change { canned with spindleOff := false, rapidRetract := false }).map
      b.wholeDepth
  | .drillChipBreak | .cannedCycle83 =>
    if b.p.isSome then .error .gcodeUnusedWords else b.checkPeck change canned

end Block

section Check

variable [LinearOrder K]

/-- The checks of `gc_execute_block` for a canned cycle: the data for it, and the repeats. What a
refused block leaves behind in `gc_state` is not told; the data before a block are any. -/
def Block.check (c : Config K) (st : Parser K) (b : Block K) : Except Status (Canned K × ℕ) :=
  let change := decide (st.motion ≠ some b.motion)
  if change ∧ st.inverseTime then .error .invalidStatement
  else if change ∧ b.r = none then .error .gcodeValueWordMissing
  else if change ∧ b.axisWords b.plane.axisLinear = false then .error .gcodeValueWordMissing
  else if ∃ i ∈ Axis.down, b.axisWords i && c.isRotary i then .error .gcodeAxisCommandConflict
  else if b.l = some 0 then .error .nonPositiveValue
  else
    let canned := b.storeWords st.position (b.reset change st.canned)
    if canned.retractPosition < canned.xyz b.plane.axisLinear then
      .error .gcodeInvalidRetractPosition
    else
      (b.checkCycle c change canned).map fun canned =>
        ({ canned with retractMode := b.retractMode }, b.l.getD 1)

/-- The call of `mc_canned_drill`. -/
def Block.call (c : Config K) (st : Parser K) (b : Block K) (canned : Canned K) (repeats : ℕ) :
    Call K where
  motion := b.motion
  target := b.xyz
  position := st.position
  plane := b.plane
  repeats := repeats
  canned := canned
  g73Retract := c.g73Retract
  distanceIncremental := b.distanceIncremental

/-- The execution of an accepted block: its answer, and the calls of `mc_line`. `G85`, `G86` and
`G89` are not implemented. -/
def Block.execute (c : Config K) (st : Parser K) (b : Block K) (a : Answers K) (fuel : ℕ)
    (canned : Canned K) (repeats : ℕ) : Option (Bool × State K) :=
  if b.motion.executed then (b.call c st canned repeats).mcCannedDrill a fuel
  else some (true, ⟨st.position, []⟩)

variable {c : Config K} {st : Parser K} {b : Block K} {canned canned' : Canned K} {repeats : ℕ}
  {change : Bool}

theorem checkDwell_ok (h : b.checkDwell change canned = .ok canned') :
    ∃ dwell, canned' = { canned with dwell := dwell } := by
  unfold Block.checkDwell at h
  cases hp : b.p with
  | none =>
    rw [hp] at h
    cases change with
    | true => cases h
    | false => exact ⟨canned.dwell, by simpa using h.symm⟩
  | some p =>
    rw [hp] at h
    by_cases hneg : p < 0
    · simp [hneg] at h
    · exact ⟨p, by simpa [hneg] using h.symm⟩

/-- What an accepted cycle says about the peck. -/
structure Peck (b : Block K) (canned canned' : Canned K) : Prop where
  xyz : canned'.xyz = canned.xyz
  retractPosition : canned'.retractPosition = canned.retractPosition
  whole : b.motion.pecks = false →
    canned'.delta = canned.retractPosition - canned.xyz b.plane.axisLinear
  own : b.motion.pecks = true → ∀ q, b.q = some q → 0 < q ∧ canned'.delta = b.toMm q

/-- A cycle without pecks goes all the way down. -/
theorem Peck.of_checkDwell (hb : b.motion.pecks = false)
    (h : (b.checkDwell change canned).map b.wholeDepth = .ok canned') : Peck b canned canned' := by
  cases hd : b.checkDwell change canned with
  | error e => simp [hd, Except.map] at h
  | ok canned'' =>
    obtain ⟨dwell, rfl⟩ := checkDwell_ok hd
    obtain rfl := by simpa [hd, Except.map] using h
    exact ⟨rfl, rfl, fun _ => neg_add_eq_sub _ _, fun hp => absurd (hb.symm.trans hp) (by decide)⟩

/-- A cycle with pecks takes its own or the one of an earlier block. -/
theorem Peck.of_checkPeck (hb : b.motion.pecks = true)
    (h : b.checkPeck change canned = .ok canned') : Peck b canned canned' := by
  unfold Block.checkPeck at h
  cases hq : b.q with
  | none =>
    rw [hq] at h
    cases change with
    | true => cases h
    | false =>
      obtain rfl := by simpa using h
      exact ⟨rfl, rfl, fun hp => absurd (hb.symm.trans hp) (by decide), fun _ q hq' => by
        simp [hq] at hq'⟩
  | some q =>
    rw [hq] at h
    by_cases hneg : q ≤ 0
    · simp [hneg] at h
    · obtain rfl := by simpa [hneg] using h
      refine ⟨rfl, rfl, fun hp => absurd (hb.symm.trans hp) (by decide), fun _ q' hq' => ?_⟩
      obtain rfl : q = q' := by simpa [hq] using hq'
      exact ⟨not_le.mp hneg, rfl⟩

theorem checkCycle_ok (h : b.checkCycle c change canned = .ok canned') :
    Peck b canned canned' := by
  unfold Block.checkCycle at h
  cases hb : b.motion with
  | drillChipBreak | cannedCycle83 =>
    rw [hb] at h
    dsimp only at h
    split_ifs at h
    exact .of_checkPeck (by rw [hb]; rfl) h
  | cannedCycle81 | cannedCycle85 =>
    rw [hb] at h
    dsimp only at h
    split_ifs at h
    obtain rfl := by simpa using h
    exact ⟨rfl, rfl, fun _ => neg_add_eq_sub _ _, fun hp => by simp [hb, Cycle.pecks] at hp⟩
  | cannedCycle82 =>
    rw [hb] at h
    dsimp only at h
    split_ifs at h
    exact .of_checkDwell (by rw [hb]; rfl) h
  | cannedCycle84 | cannedCycle86 | cannedCycle89 =>
    rw [hb] at h
    dsimp only at h
    split_ifs at h
    obtain ⟨hxyz, hretract, hwhole, hown⟩ := Peck.of_checkDwell (by rw [hb]; rfl) h
    exact ⟨hxyz, hretract, hwhole, hown⟩

/-- An accepted block: its repeats, and its peck if the retract position is above the final
depth. -/
theorem check_ok (h : b.check c st = .ok (canned, repeats)) :
    0 < repeats ∧ ∃ before, Peck b before canned := by
  unfold Block.check at h
  dsimp only at h
  split_ifs at h with h1 h2 h3 h4 hl hlow
  cases hcycle : b.checkCycle c (decide (st.motion ≠ some b.motion))
      (b.storeWords st.position (b.reset (decide (st.motion ≠ some b.motion)) st.canned)) with
  | error e =>
    rw [hcycle] at h
    cases h
  | ok words =>
    obtain ⟨rfl, rfl⟩ : _ ∧ b.l.getD 1 = repeats := by
      simpa only [hcycle, Except.map, Except.ok.injEq, Prod.mk.injEq] using h
    obtain ⟨hxyz, hretract, hwhole, hown⟩ := checkCycle_ok hcycle
    refine ⟨?_, _, hxyz, hretract, hwhole, hown⟩
    cases hrepeats : b.l with
    | none => exact Nat.one_pos
    | some n => exact Nat.pos_of_ne_zero fun h0 => hl (hrepeats.trans (congrArg some h0))

variable [IsStrictOrderedRing K]

/-- The peck of an accepted block is positive, if it is not that of an earlier block. -/
theorem delta_pos (h : b.check c st = .ok (canned, repeats))
    (hR : canned.xyz b.plane.axisLinear < canned.retractPosition)
    (hsticky : b.motion.pecks = true → b.q = none → 0 < canned.delta) : 0 < canned.delta := by
  obtain ⟨-, before, hpeck⟩ := check_ok h
  rw [hpeck.xyz, hpeck.retractPosition] at hR
  cases hmotion : b.motion.pecks with
  | false =>
    rw [hpeck.whole hmotion]
    exact sub_pos.mpr hR
  | true =>
    cases hq : b.q with
    | none => exact hsticky hmotion hq
    | some q =>
      obtain ⟨hpos, hdelta⟩ := hpeck.own hmotion q hq
      rw [hdelta, Block.toMm]
      split_ifs
      · exact mul_pos hpos (by norm_num [mmPerInch])
      · rwa [mul_one]

variable [FloorRing K]

/-- The last depth is the final one. -/
theorem getLast_depths {c : Call K} (hδ : 0 < c.canned.delta)
    (hR : c.bottom < c.canned.retractPosition) :
    (c.depths c.pecks).getLast? = some c.bottom := by
  have hpos : 0 < c.pecks := (lt_depth_iff hδ).mp ((depth_zero hR).symm ▸ hR)
  obtain ⟨n, hn⟩ := Nat.exists_eq_succ_of_ne_zero hpos.ne'
  rw [Call.depths, hn, List.range_succ, List.map_append, List.map_singleton,
    List.getLast?_concat, ← Nat.succ_eq_add_one, ← hn, depth_pecks hδ]

/-- The drilling of an accepted block: its depths end at the final one, and `mc_canned_drill`
returns; unless it is aborted it feeds to these depths for each hole, retracts by feed moves only if
the cycle does not do so by rapid ones, and ends at the level of `G98` or `G99`. -/
theorem drills_of_accepted (a : Answers K) (h : b.check c st = .ok (canned, repeats))
    (hexecuted : b.motion.executed = true)
    (hR : canned.xyz b.plane.axisLinear < canned.retractPosition)
    (hsticky : b.motion.pecks = true → b.q = none → 0 < canned.delta) :
    let call := b.call c st canned repeats
    0 < repeats ∧ (call.depths call.pecks).getLast? = some call.bottom ∧
      ∃ r, Ends call a st.position
          (List.replicate repeats (call.feeds call.retractLevel call.pecks)).flatten
          call.retractLevel r ∧
        ∀ fuel, call.pecks < fuel → b.execute c st a fuel canned repeats = some r := by
  have hδ := delta_pos h hR hsticky
  obtain ⟨hrepeats, -⟩ := check_ok h
  obtain ⟨r, hr, hdrill⟩ := mcCannedDrill_spec (b.call c st canned repeats) a hδ hR hrepeats
  exact ⟨hrepeats, getLast_depths hδ hR, r, hr, fun fuel hfuel =>
    (if_pos hexecuted).trans (hdrill fuel hfuel)⟩

/-- The feed moves are those to the depths. -/
def FeedsToDepths (call : Call K) (s : State K) : Prop :=
  Trace call.plane.axisLinear call.canned.retractPosition call.position s
    (List.replicate call.repeats (call.depths call.pecks)).flatten

omit [FloorRing K] [IsStrictOrderedRing K] in
/-- A cycle that retracts by feed has two feed moves for each peck. -/
theorem length_feeds {call : Call K} (h : call.canned.rapidRetract = false) (retractTo : K) (n : ℕ) :
    (call.feeds retractTo n).length = 2 * n := by
  induction n with
  | zero => rfl
  | succ n ih => simp [feeds_succ, ih, h, Nat.mul_succ]

end Check

section Examples

/-- A machine with a spindle that tells when it is at speed. -/
def machine : Config ℚ where
  isRotary _ := false
  atSpeed := true
  g73Retract := 0

/-- At the origin, before any canned cycle. -/
def atRest : Parser ℚ where
  position := 0
  canned := ⟨0, 0, 0, 0, false, false, .previous⟩
  motion := none
  inverseTime := false

/-- `G99 Z-1 R1 P0` with `G82` or `G84`. -/
def toMinusOne (motion : Cycle) : Block ℚ where
  motion := motion
  plane := .xy
  axisWords i := i = .z
  xyz i := if i = .z then -1 else 0
  r := some 1
  q := none
  p := some 0
  l := none
  blockOffset := 0
  distanceIncremental := false
  unitsImperial := false
  retractMode := .rPos

/-- The data of such a block. -/
def toMinusOneCanned (rapidRetract : Bool) : Canned ℚ where
  xyz := Function.update 0 .z (-1)
  delta := 2
  dwell := 0
  retractPosition := 1
  rapidRetract := rapidRetract
  spindleOff := false
  retractMode := .rPos

theorem check_toMinusOne {motion : Cycle}
    (h : motion = .cannedCycle82 ∨ motion = .cannedCycle84) :
    (toMinusOne motion).check machine atRest =
      .ok (toMinusOneCanned (motion = .cannedCycle82), 1) := by
  rcases h with rfl | rfl
  all_goals
    simp [Block.check, toMinusOne, machine, atRest, Block.storeWords, Block.reset, Axis.down,
      Plane.xy, Canned.store, Block.toMm, Block.checkCycle, Block.checkDwell, Block.wholeDepth,
      Except.map, toMinusOneCanned]
    norm_num

/-- No call fails. -/
def noAbort : Answers ℚ := ⟨fun _ => true, fun _ => true⟩

/-- `G82` feeds to the depth of -1 and ends at the level of `R`. -/
theorem drills_toMinusOne :
    let call := (toMinusOne .cannedCycle82).call machine atRest (toMinusOneCanned true) 1
    0 < 1 ∧ (call.depths call.pecks).getLast? = some call.bottom ∧
      ∃ r, Ends call noAbort atRest.position
          (List.replicate 1 (call.feeds call.retractLevel call.pecks)).flatten
          call.retractLevel r ∧
        ∀ fuel, call.pecks < fuel →
          (toMinusOne .cannedCycle82).execute machine atRest noAbort fuel
            (toMinusOneCanned true) 1 = some r :=
  drills_of_accepted noAbort (check_toMinusOne (.inl rfl)) rfl
    (by norm_num [toMinusOneCanned, toMinusOne, Plane.xy]) (by simp [toMinusOne, Cycle.pecks])

/-- `G84` feeds back to the level of `R`, too. -/
theorem not_feedsToDepths_toMinusOne :
    ∃ canned, (toMinusOne .cannedCycle84).check machine atRest = .ok (canned, 1) ∧
      canned.xyz .z < canned.retractPosition ∧
      ¬ ∃ s, (∀ fuel, ((toMinusOne .cannedCycle84).call machine atRest canned 1).pecks < fuel →
          (toMinusOne .cannedCycle84).execute machine atRest noAbort fuel canned 1 =
            some (true, s)) ∧
        FeedsToDepths ((toMinusOne .cannedCycle84).call machine atRest canned 1) s := by
  have hR : (toMinusOneCanned false).xyz .z < (toMinusOneCanned false).retractPosition := by
    norm_num [toMinusOneCanned]
  refine ⟨toMinusOneCanned false, check_toMinusOne (.inr rfl), hR, ?_⟩
  rintro ⟨s, hs, hfeeds⟩
  set call := (toMinusOne .cannedCycle84).call machine atRest (toMinusOneCanned false) 1 with hcall
  have hδ : (0 : ℚ) < call.canned.delta := by norm_num [hcall, Block.call, toMinusOneCanned]
  obtain ⟨r, hr, hdrill⟩ := mcCannedDrill_spec call noAbort hδ hR Nat.one_pos
  obtain rfl : (true, s) = r :=
    Option.some_injective _ ((hs _ (Nat.lt_succ_self _)).symm.trans (hdrill _ (Nat.lt_succ_self _)))
  rcases hr with ⟨-, htrace, -⟩ | ⟨hfalse, -⟩
  · have hlist := hfeeds.feeds.symm.trans htrace.feeds
    have hlength := congrArg List.length hlist
    have hlow : call.bottom < call.canned.retractPosition := hR
    have hpos : 0 < call.pecks := (lt_depth_iff hδ).mp ((depth_zero hlow).symm ▸ hlow)
    have hrepeats : call.repeats = 1 := rfl
    have hrapid : call.canned.rapidRetract = false := rfl
    simp only [hrepeats, List.replicate_one, List.flatten_singleton, length_feeds hrapid,
      Call.depths, List.length_map, List.length_range] at hlength
    omega
  · cases hfalse

end Examples

end Drill

end Inspector
