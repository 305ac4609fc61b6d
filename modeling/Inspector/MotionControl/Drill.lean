import Inspector.MotionControl.Arc
import Inspector.Transition.Loop

/-! # Canned drill cycles

`mc_canned_drill` drills holes by pecks: it feeds to a depth, retracts and feeds deeper until the
final depth is reached. The moves it makes are described by a trace, which goes to one depth after
the other along the linear axis and moves sideways only at the retract position or above it. With
a positive peck the loop over the pecks ends.
-/

namespace Inspector

namespace Drill

/-- The canned cycles of `motion_mode_t`. -/
inductive Cycle
  | drillChipBreak
  | cannedCycle81
  | cannedCycle82
  | cannedCycle83
  | cannedCycle84
  | cannedCycle85
  | cannedCycle86
  | cannedCycle89
  deriving DecidableEq

/-- `cc_retract_mode_t`: `G98` and `G99`. -/
inductive RetractMode
  | previous
  | rPos
  deriving DecidableEq

/-- `gc_canned_t`. -/
structure Canned (K : Type*) where
  xyz : Axis → K
  delta : K
  dwell : K
  retractPosition : K
  rapidRetract : Bool
  spindleOff : Bool
  retractMode : RetractMode

/-- A call of `mc_line`, by a rapid move or a feed move. -/
structure Move (K : Type*) where
  point : Axis → K
  rapid : Bool

/-- The arguments of `mc_canned_drill`, and the setting and the parser mode that it reads. -/
structure Call (K : Type*) where
  motion : Cycle
  target : Axis → K
  position : Axis → K
  plane : Plane
  repeats : ℕ
  canned : Canned K
  g73Retract : K
  distanceIncremental : Bool

/-- What `mc_line` and `spindle_set_state_synced` answer after the calls of `mc_line` made so
far. -/
structure Answers (K : Type*) where
  mcLine : List (Move K) → Bool
  spindleSetStateSynced : List (Move K) → Bool

/-- `position`, and the calls of `mc_line`. -/
structure State (K : Type*) where
  position : Axis → K
  moves : List (Move K)

section Moves

variable {K : Type*}

/-- Some call fails, for an abort. -/
def Answers.Aborts (a : Answers K) : Prop :=
  ∃ moves, a.mcLine moves = false ∨ a.spindleSetStateSynced moves = false

variable {a : Answers K} {moves : List (Move K)}

theorem Answers.Aborts.of_mcLine (h : (!a.mcLine moves) = true) : a.Aborts :=
  ⟨moves, .inl (by simpa using h)⟩

theorem Answers.Aborts.of_spindle {b : Bool}
    (h : (b && !a.spindleSetStateSynced moves) = true) : a.Aborts :=
  ⟨moves, .inr (by simpa using (Bool.and_eq_true_iff.mp h).2)⟩

/-- A call of `mc_line`. -/
def State.line (s : State K) (position : Axis → K) (rapid : Bool) : State K :=
  ⟨position, s.moves ++ [⟨position, rapid⟩]⟩

variable [LE K] (axis : Axis) (level : K)

/-- The moves lead from a point to another one. The feed moves go along the axis, to the given
depths one after the other; the rapid moves go along the axis, or sideways at the level or above
it. -/
inductive Trace (start : Axis → K) : State K → List K → Prop
  | refl : Trace start ⟨start, []⟩ []
  | feed {s : State K} {depths : List K} (h : Trace start s depths) (z : K) :
      Trace start (s.line (Function.update s.position axis z) false) (depths ++ [z])
  | rapid {s : State K} {depths : List K} (h : Trace start s depths) (z : K) :
      Trace start (s.line (Function.update s.position axis z) true) depths
  | sideways {s : State K} {depths : List K} (h : Trace start s depths) (point : Axis → K)
      (hlevel : level ≤ s.position axis) (hpoint : point axis = s.position axis) :
      Trace start (s.line point true) depths

variable {axis level} {start : Axis → K} {s : State K} {depths : List K}

/-- The depths are those of the feed moves. -/
theorem Trace.feeds (h : Trace axis level start s depths) :
    (s.moves.filter fun m => !m.rapid).map (fun m => m.point axis) = depths := by
  induction h with
  | refl => rfl
  | feed _ z ih => simp [State.line, ih]
  | rapid _ z ih => simp [State.line, ih]
  | sideways _ point _ _ ih => simp [State.line, ih]

/-- A move along the axis, by rapid or feed. -/
theorem Trace.along (h : Trace axis level start s depths) (z : K) (rapid : Bool) :
    Trace axis level start (s.line (Function.update s.position axis z) rapid)
      (depths ++ if rapid then [] else [z]) := by
  cases rapid with
  | false => exact h.feed z
  | true => simpa using h.rapid z

end Moves

variable {K : Type*} [Field K] [LinearOrder K]

namespace Call

variable (c : Call K)

/-- `position[plane.axis_linear]` set to a depth. -/
def atDepth (position : Axis → K) (z : K) : Axis → K :=
  Function.update position c.plane.axisLinear z

/-- The final depth. -/
def bottom : K := c.canned.xyz c.plane.axisLinear

/-- Where to retract to after a depth. -/
def retract (retractTo z : K) : K :=
  match c.motion with
  | .drillChipBreak => if z = c.bottom then retractTo else z + c.g73Retract
  | _ => retractTo

/-- A pass of the loop over the pecks, with `position_linear`. -/
def peckPass (a : Answers K) (retractTo : K) (x : State K × K) : State K × K ⊕ Bool × State K :=
  if x.2 > c.bottom then
    let z := if x.2 - c.canned.delta < c.bottom then c.bottom else x.2 - c.canned.delta
    let s := x.1.line (c.atDepth x.1.position z) false
    if !a.mcLine s.moves then .inr (false, s)
    else if c.motion = .cannedCycle84 && !a.spindleSetStateSynced s.moves then .inr (false, s)
    else
      let s := s.line (c.atDepth s.position (c.retract retractTo z)) c.canned.rapidRetract
      if !a.mcLine s.moves then .inr (false, s)
      else if (c.canned.spindleOff || c.motion = .cannedCycle84) &&
          !a.spindleSetStateSynced s.moves then .inr (false, s)
      else .inl (s, z)
  else .inr (true, x.1)

/-- The loop over the holes. -/
def holes (a : Answers K) (retractTo : K) (fuel : ℕ) : ℕ → State K → Option (Bool × State K)
  | 0, s => some (true, s)
  | repeats + 1, s =>
    let low := s.position c.plane.axisLinear > c.canned.retractPosition
    let s := if low then s.line (c.atDepth s.position c.canned.retractPosition) true else s
    if low ∧ !a.mcLine s.moves then some (false, s)
    else
      match Transition.loop (c.peckPass a retractTo) fuel (s, s.position c.plane.axisLinear) with
      | none => none
      | some (false, s) => some (false, s)
      | some (true, s) =>
        let next := repeats ≠ 0 ∧ c.distanceIncremental
        let s :=
          if next then
            s.line (fun i =>
              if i = c.plane.axis0 ∨ i = c.plane.axis1 then s.position i + c.canned.xyz i
              else s.position i) true
          else s
        if next ∧ !a.mcLine s.moves then some (false, s)
        else holes a retractTo fuel repeats s

/-- `mc_canned_drill`: its answer, the last position and the calls of `mc_line`. -/
def mcCannedDrill (a : Answers K) (fuel : ℕ) : Option (Bool × State K) :=
  let s : State K := ⟨c.position, []⟩
  let raise := s.position c.plane.axisLinear < c.canned.retractPosition
  let s := if raise then s.line (c.atDepth s.position c.canned.retractPosition) true else s
  if raise ∧ !a.mcLine s.moves then some (false, s)
  else
    let positionLinear := s.position c.plane.axisLinear
    let retractTo :=
      if c.canned.retractMode = .rPos then c.canned.retractPosition else positionLinear
    let s := s.line (c.atDepth c.target positionLinear) true
    if !a.mcLine s.moves then some (false, s)
    else c.holes a retractTo fuel c.repeats s

/-- The `k`-th depth. -/
def depth (k : ℕ) : K := max (c.canned.retractPosition - k * c.canned.delta) c.bottom

/-- The number of pecks for a hole. -/
def pecks [FloorRing K] : ℕ := ⌈(c.canned.retractPosition - c.bottom) / c.canned.delta⌉₊

/-- The first depths of a hole. -/
def depths (n : ℕ) : List K := (List.range n).map fun k => c.depth (k + 1)

/-- The feed moves of these pecks: to the depths, and also back if the cycle retracts by feed. -/
def feeds (retractTo : K) (n : ℕ) : List K :=
  (c.depths n).flatMap fun z => z :: if c.canned.rapidRetract then [] else [c.retract retractTo z]

/-- The level that `G98` or `G99` selects. -/
def retractLevel : K :=
  match c.canned.retractMode with
  | .previous => max c.canned.retractPosition (c.position c.plane.axisLinear)
  | .rPos => c.canned.retractPosition

end Call

section Pecks

variable {c : Call K} {a : Answers K} {start : Axis → K} {s : State K} {depths : List K}
  {retractTo : K} {k : ℕ}

theorem feeds_succ (retractTo : K) (n : ℕ) :
    c.feeds retractTo (n + 1) = c.feeds retractTo n ++ (c.depth (n + 1) ::
      if c.canned.rapidRetract then [] else [c.retract retractTo (c.depth (n + 1))]) := by
  simp [Call.feeds, Call.depths, List.range_succ]

variable [IsStrictOrderedRing K]

omit [IsStrictOrderedRing K] in
theorem depth_zero (hR : c.bottom < c.canned.retractPosition) :
    c.depth 0 = c.canned.retractPosition := by
  simp [Call.depth, hR.le]

variable [FloorRing K]

theorem lt_depth_iff (hδ : 0 < c.canned.delta) : c.bottom < c.depth k ↔ k < c.pecks := by
  rw [Call.pecks, Nat.lt_ceil, lt_div_iff₀ hδ, Call.depth, lt_max_iff, or_iff_left (lt_irrefl _),
    lt_sub_comm]

/-- The next depth as the loop computes it. -/
theorem depth_succ (hδ : 0 < c.canned.delta) (hk : k < c.pecks) :
    (if c.depth k - c.canned.delta < c.bottom then c.bottom else c.depth k - c.canned.delta) =
      c.depth (k + 1) := by
  have hlt := (lt_depth_iff hδ).mpr hk
  have hdepth : c.depth k = c.canned.retractPosition - k * c.canned.delta := by
    rcases max_choice (c.canned.retractPosition - k * c.canned.delta) c.bottom with h | h
    · exact h
    · exact absurd (h ▸ hlt) (lt_irrefl _)
  have hnext : c.depth (k + 1) = max (c.depth k - c.canned.delta) c.bottom := by
    rw [hdepth, Call.depth, Nat.cast_succ]
    congr 1
    ring
  rw [hnext]
  split_ifs with h
  · rw [max_eq_right h.le]
  · rw [max_eq_left (not_lt.mp h)]

theorem depth_pecks (hδ : 0 < c.canned.delta) : c.depth c.pecks = c.bottom :=
  le_antisymm (not_lt.mp fun h => absurd ((lt_depth_iff hδ).mp h) (lt_irrefl _))
    (le_max_right _ _)

/-- After `k` pecks of a hole. -/
structure Pecked (c : Call K) (start : Axis → K) (retractTo : K) (depths : List K) (k : ℕ)
    (x : State K × K) : Prop where
  le : k ≤ c.pecks
  depth : x.2 = c.depth k
  trace : Trace c.plane.axisLinear c.canned.retractPosition start x.1
    (depths ++ c.feeds retractTo k)
  level : k = c.pecks → x.1.position c.plane.axisLinear = retractTo

/-- A call of the drill ends as it should, or because it is aborted. -/
def Ends (c : Call K) (a : Answers K) (start : Axis → K) (depths : List K) (level : K)
    (r : Bool × State K) : Prop :=
  r.1 = true ∧ Trace c.plane.axisLinear c.canned.retractPosition start r.2 depths ∧
      r.2.position c.plane.axisLinear = level ∨
    r.1 = false ∧ a.Aborts

/-- A pass of the loop over the pecks. -/
theorem peckPass_spec {x : State K × K} (hδ : 0 < c.canned.delta)
    (hx : Pecked c start retractTo depths k x) :
    (∃ r, c.peckPass a retractTo x = .inr r ∧
      Ends c a start (depths ++ c.feeds retractTo c.pecks) retractTo r) ∨
    ∃ x', c.peckPass a retractTo x = .inl x' ∧ k < c.pecks ∧
      Pecked c start retractTo depths (k + 1) x' := by
  rw [Call.peckPass]
  by_cases hlow : x.2 > c.bottom
  · have hk : k < c.pecks := (lt_depth_iff hδ).mp (hx.depth ▸ hlow)
    have hz := depth_succ hδ hk
    rw [← hx.depth] at hz
    simp only [if_pos hlow, hz]
    set s1 := x.1.line (c.atDepth x.1.position (c.depth (k + 1))) false with hs1
    set s2 := s1.line (c.atDepth s1.position (c.retract retractTo (c.depth (k + 1))))
      c.canned.rapidRetract with hs2
    have htrace1 := hx.trace.feed (c.depth (k + 1))
    have htrace2 := htrace1.along (c.retract retractTo (c.depth (k + 1))) c.canned.rapidRetract
    by_cases hline1 : (!a.mcLine s1.moves) = true
    · exact .inl ⟨_, if_pos hline1, .inr ⟨rfl, .of_mcLine hline1⟩⟩
    rw [if_neg hline1]
    by_cases hspindle1 : (c.motion = .cannedCycle84 && !a.spindleSetStateSynced s1.moves) = true
    · exact .inl ⟨_, if_pos hspindle1, .inr ⟨rfl, .of_spindle hspindle1⟩⟩
    rw [if_neg hspindle1]
    by_cases hline2 : (!a.mcLine s2.moves) = true
    · exact .inl ⟨_, if_pos hline2, .inr ⟨rfl, .of_mcLine hline2⟩⟩
    rw [if_neg hline2]
    by_cases hspindle2 : ((c.canned.spindleOff || c.motion = .cannedCycle84) &&
        !a.spindleSetStateSynced s2.moves) = true
    · exact .inl ⟨_, if_pos hspindle2, .inr ⟨rfl, .of_spindle hspindle2⟩⟩
    rw [if_neg hspindle2]
    refine .inr ⟨(s2, c.depth (k + 1)), rfl, hk, hk, rfl, ?_, fun hlast => ?_⟩
    · rw [List.append_assoc, List.append_assoc, List.singleton_append] at htrace2
      rw [feeds_succ]
      exact htrace2
    · have hbottom : c.depth (k + 1) = c.bottom := hlast ▸ depth_pecks hδ
      change Function.update s1.position c.plane.axisLinear _ c.plane.axisLinear = retractTo
      rw [Function.update_self, Call.retract, hbottom]
      cases c.motion <;> simp
  · have hk : k = c.pecks :=
      le_antisymm hx.le (not_lt.mp fun h => hlow (hx.depth ▸ (lt_depth_iff hδ).mpr h))
    refine .inl ⟨(true, x.1), if_neg hlow, .inl ⟨rfl, hk ▸ hx.trace, hx.level hk⟩⟩

/-- The loop over the pecks of a hole. -/
theorem pecks_spec (a : Answers K) (retractTo : K) (hδ : 0 < c.canned.delta)
    (hR : c.bottom < c.canned.retractPosition)
    (h : Trace c.plane.axisLinear c.canned.retractPosition start s depths)
    (hs : s.position c.plane.axisLinear = c.canned.retractPosition) :
    ∃ r, Ends c a start (depths ++ c.feeds retractTo c.pecks) retractTo r ∧
      ∀ fuel, c.pecks < fuel →
        Transition.loop (c.peckPass a retractTo) fuel (s, s.position c.plane.axisLinear) =
          some r := by
  apply Transition.loop_of_rank
    (P := fun n x => ∃ k, n = c.pecks - k ∧ Pecked c start retractTo depths k x)
  · rintro n x ⟨k, rfl, hx⟩
    rcases peckPass_spec (a := a) hδ hx with ⟨r, hr, hends⟩ | ⟨x', hx', hk, hpecked⟩
    · exact .inl ⟨r, hr, hends⟩
    · exact .inr ⟨x', hx', c.pecks - (k + 1), by omega, k + 1, rfl, hpecked⟩
  · have hpos : 0 < c.pecks := (lt_depth_iff hδ).mp ((depth_zero hR).symm ▸ hR)
    refine ⟨0, rfl, Nat.zero_le _, ?_, ?_, fun h0 => absurd h0 hpos.ne⟩
    · rw [depth_zero hR]
      exact hs
    · simpa [Call.feeds, Call.depths] using h

/-- The loop over the holes. -/
theorem holes_spec (a : Answers K) {retractTo : K} (hδ : 0 < c.canned.delta)
    (hR : c.bottom < c.canned.retractPosition) (hlevel : c.canned.retractPosition ≤ retractTo)
    (n : ℕ) (h : Trace c.plane.axisLinear c.canned.retractPosition start s depths)
    (hs : c.canned.retractPosition ≤ s.position c.plane.axisLinear)
    (hlast : n = 0 → s.position c.plane.axisLinear = retractTo) :
    ∃ r, Ends c a start
        (depths ++ (List.replicate n (c.feeds retractTo c.pecks)).flatten) retractTo r ∧
      ∀ fuel, c.pecks < fuel → c.holes a retractTo fuel n s = some r := by
  induction n generalizing s depths with
  | zero => exact ⟨(true, s), .inl ⟨rfl, by simpa using h, hlast rfl⟩, fun _ _ => rfl⟩
  | succ n ih =>
    set s1 := if s.position c.plane.axisLinear > c.canned.retractPosition then
      s.line (c.atDepth s.position c.canned.retractPosition) true else s with hs1
    have hlow : Trace c.plane.axisLinear c.canned.retractPosition start s1 depths ∧
        s1.position c.plane.axisLinear = c.canned.retractPosition := by
      rw [hs1]
      split_ifs with hgt
      · exact ⟨h.rapid _, Function.update_self ..⟩
      · exact ⟨h, le_antisymm (not_lt.mp hgt) hs⟩
    by_cases hfail : s.position c.plane.axisLinear > c.canned.retractPosition ∧ !a.mcLine s1.moves
    · refine ⟨(false, s1), .inr ⟨rfl, .of_mcLine hfail.2⟩, fun fuel _ => ?_⟩
      exact if_pos hfail
    obtain ⟨⟨ok, s2⟩, hends, hloop⟩ := pecks_spec a retractTo hδ hR hlow.1 hlow.2
    rcases hends with ⟨rfl, htrace2, hpos2⟩ | ⟨rfl, habort⟩
    · set next := n ≠ 0 ∧ c.distanceIncremental with hnext
      set s3 := if next then s2.line (fun i =>
        if i = c.plane.axis0 ∨ i = c.plane.axis1 then s2.position i + c.canned.xyz i
        else s2.position i) true else s2 with hs3
      have hmoved : Trace c.plane.axisLinear c.canned.retractPosition start s3
          (depths ++ c.feeds retractTo c.pecks) ∧
          s3.position c.plane.axisLinear = retractTo := by
        have haxis : ¬ (c.plane.axisLinear = c.plane.axis0 ∨ c.plane.axisLinear = c.plane.axis1) :=
          not_or.mpr ⟨c.plane.linear_ne0, c.plane.linear_ne1⟩
        rw [hs3]
        split_ifs
        · refine ⟨htrace2.sideways _ (hpos2 ▸ hlevel) (if_neg haxis), ?_⟩
          exact (if_neg haxis).trans hpos2
        · exact ⟨htrace2, hpos2⟩
      by_cases hfail3 : next ∧ !a.mcLine s3.moves
      · refine ⟨(false, s3), .inr ⟨rfl, .of_mcLine hfail3.2⟩, fun fuel hfuel => ?_⟩
        rw [Call.holes]
        dsimp only
        rw [if_neg hfail, hloop fuel hfuel]
        exact if_pos hfail3
      · obtain ⟨r, hr, hrest⟩ := ih hmoved.1 (hmoved.2 ▸ hlevel) fun _ => hmoved.2
        refine ⟨r, ?_, fun fuel hfuel => ?_⟩
        · rw [List.replicate_succ, List.flatten_cons, ← List.append_assoc]
          exact hr
        · rw [Call.holes]
          dsimp only
          rw [if_neg hfail, hloop fuel hfuel]
          exact (if_neg hfail3).trans (hrest fuel hfuel)
    · refine ⟨(false, s2), .inr ⟨rfl, habort⟩, fun fuel hfuel => ?_⟩
      rw [Call.holes]
      dsimp only
      rw [if_neg hfail, hloop fuel hfuel]

/-- The drill returns. Unless it is aborted, it feeds to the depths of each hole in turn, moves
sideways at the retract position or above it only, and ends at the level that is selected. -/
theorem mcCannedDrill_spec (c : Call K) (a : Answers K) (hδ : 0 < c.canned.delta)
    (hR : c.bottom < c.canned.retractPosition) (hrepeats : 0 < c.repeats) :
    ∃ r, Ends c a c.position
        (List.replicate c.repeats (c.feeds c.retractLevel c.pecks)).flatten c.retractLevel r ∧
      ∀ fuel, c.pecks < fuel → c.mcCannedDrill a fuel = some r := by
  set s1 : State K := if c.position c.plane.axisLinear < c.canned.retractPosition then
    (⟨c.position, []⟩ : State K).line (c.atDepth c.position c.canned.retractPosition) true
    else ⟨c.position, []⟩ with hs1
  have hraise : Trace c.plane.axisLinear c.canned.retractPosition c.position s1 [] ∧
      s1.position c.plane.axisLinear =
        max c.canned.retractPosition (c.position c.plane.axisLinear) := by
    rw [hs1]
    split_ifs with hlt
    · exact ⟨Trace.refl.rapid _, (Function.update_self ..).trans (max_eq_left hlt.le).symm⟩
    · exact ⟨.refl, (max_eq_right (not_lt.mp hlt)).symm⟩
  have hlevel : (if c.canned.retractMode = .rPos then c.canned.retractPosition
      else s1.position c.plane.axisLinear) = c.retractLevel := by
    rw [hraise.2, Call.retractLevel]
    cases c.canned.retractMode <;> simp
  have hle : c.canned.retractPosition ≤ c.retractLevel := by
    rw [Call.retractLevel]
    cases c.canned.retractMode
    · exact le_max_left _ _
    · exact le_rfl
  set s2 := s1.line (c.atDepth c.target (s1.position c.plane.axisLinear)) true with hs2
  have habove : c.canned.retractPosition ≤ s1.position c.plane.axisLinear :=
    hraise.2 ▸ le_max_left _ _
  have htrace2 := hraise.1.sideways (c.atDepth c.target (s1.position c.plane.axisLinear)) habove
    (Function.update_self ..)
  have hpos2 : s2.position c.plane.axisLinear = s1.position c.plane.axisLinear :=
    Function.update_self ..
  obtain ⟨r, hr, hholes⟩ := holes_spec a hδ hR hle c.repeats htrace2 (habove.trans hpos2.ge)
    fun h0 => absurd h0 hrepeats.ne'
  by_cases hfail1 : c.position c.plane.axisLinear < c.canned.retractPosition ∧ !a.mcLine s1.moves
  · refine ⟨(false, s1), .inr ⟨rfl, .of_mcLine hfail1.2⟩, fun fuel _ => ?_⟩
    exact if_pos hfail1
  by_cases hfail2 : (!a.mcLine s2.moves) = true
  · refine ⟨(false, s2), .inr ⟨rfl, .of_mcLine hfail2⟩, fun fuel _ => ?_⟩
    exact (if_neg hfail1).trans (if_pos hfail2)
  · refine ⟨r, hr, fun fuel hfuel => ?_⟩
    rw [Call.mcCannedDrill]
    dsimp only
    rw [if_neg hfail1, if_neg hfail2, hlevel]
    exact hholes fuel hfuel

end Pecks

end Drill

end Inspector
