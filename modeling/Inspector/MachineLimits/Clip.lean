import Inspector.Geometry.Segment
import Inspector.Planner.Block

/-! # Clipping of jog motions

`clip_3d_target` of `machine_limits.c` moves the target of a jog back along its line to the side
of the work envelope, and `apply_travel_limits` limits each axis by itself after that. A division
by zero has no value here.
-/

namespace Inspector

/-- `work_envelope_t`. -/
structure WorkEnvelope (K : Type*) where
  min : Axis → K
  max : Axis → K

namespace MachineLimits

variable {K : Type*} [Field K] [LinearOrder K]

/-- A division, where it has a value. -/
def quot (a b : K) : Option K := if b = 0 then none else some (a / b)

/-- One branch of `clip_3d_target`: the axis `i` is set to a bound, and the axes `j` and `k` are
derived from the direction `d` of the motion. -/
def clipTo (position d : Axis → K) (i j k : Axis) (bound : K) (target : Axis → K) :
    Option (Axis → K) := do
  let tj := (← quot (d j) (d i)) * (bound - position i) + position j
  let tk := (← quot (d k) (d i)) * (bound - position i) + position k
  return Function.update (Function.update (Function.update target j tj) k tk) i bound

/-- The two branches of `clip_3d_target` for the axis `i`. -/
def clipAxis (position d : Axis → K) (envelope : WorkEnvelope K) (i j k : Axis)
    (target : Axis → K) : Option (Axis → K) :=
  if target i < envelope.min i then clipTo position d i j k (envelope.min i) target
  else if target i > envelope.max i then clipTo position d i j k (envelope.max i) target
  else some target

/-- `clip_3d_target`. -/
def clip3dTarget (position target : Axis → K) (envelope : WorkEnvelope K) :
    Option (Axis → K) := do
  let d := fun i => target i - position i
  let target ← clipAxis position d envelope .x .y .z target
  let target ← clipAxis position d envelope .y .x .z target
  clipAxis position d envelope .z .x .y target

/-- The last loop of `apply_travel_limits`. -/
def clampAxes (homed : Axis → Bool) (maxTravel : Axis → K) (envelope : WorkEnvelope K)
    (target : Axis → K) : Axis → K :=
  fun i => if homed i && decide (maxTravel i < 0) then
    max (min (target i) (envelope.max i)) (envelope.min i) else target i

/-- `n_axes > 1` in `apply_travel_limits`; its loop stops at the second axis it counts. -/
def movesTwoAxes (position target : Axis → K) : Bool :=
  1 < [Axis.z, .y, .x].countP fun i => decide (|target i - position i| > 1 / 1000)

/-- `apply_travel_limits`, where `position` may be a null pointer. -/
def applyTravelLimits (homed : Axis → Bool) (maxTravel : Axis → K) (envelope : WorkEnvelope K)
    (position : Option (Axis → K)) (target : Axis → K) : Option (Axis → K) := do
  if Axis.down.all (! homed ·) then
    return target
  let target ← match position with
    | some position =>
      if homed .x && homed .y && homed .z && movesTwoAxes position target then
        clip3dTarget position target envelope
      else some target
    | none => some target
  return clampAxes homed maxTravel envelope target

/-- The axes of `clip_3d_target`. -/
def xyz : Set Axis := {.x, .y, .z}

variable {position goal target : Axis → K} {envelope : WorkEnvelope K} {s : Set Axis}
  {i j k : Axis} {t b : K}

/-- A branch of `clip_3d_target` moves the target to where the motion crosses the bound. -/
theorem clipTo_eq (hd : goal i ≠ position i) (hxyz : xyz = {i, j, k}) (hij : j ≠ i) (hik : k ≠ i)
    (hrest : ∀ l ∉ xyz, target l = goal l) :
    ∃ r, clipTo position (fun l => goal l - position l) i j k b target = some r ∧
      (∀ l ∈ xyz, r l = AffineMap.lineMap (position l) (goal l)
        (Segment.crossing position goal i b)) ∧ ∀ l ∉ xyz, r l = goal l := by
  have hne : goal i - position i ≠ 0 := sub_ne_zero.mpr hd
  refine ⟨_, by simp only [clipTo, quot, if_neg hne]; rfl, fun l hl => ?_, fun l hl => ?_⟩
  · rw [Segment.lineMap_coord, Segment.crossing]
    rw [hxyz] at hl
    rcases hl with rfl | rfl | rfl
    · rw [Function.update_self]
      field_simp
      ring
    · rw [Function.update_of_ne hij]
      rcases eq_or_ne l k with rfl | hlk
      · rw [Function.update_self]
        ring
      · rw [Function.update_of_ne hlk, Function.update_self]
        ring
    · rw [Function.update_of_ne hik, Function.update_self]
      ring
  · rw [hxyz] at hl
    simp only [Set.mem_insert_iff, Set.mem_singleton_iff, not_or] at hl
    rw [Function.update_of_ne hl.1, Function.update_of_ne hl.2.2, Function.update_of_ne hl.2.1]
    exact hrest l (by simp [hxyz, hl])

theorem clampAxes_of_mem (homed : Axis → Bool) (maxTravel : Axis → K)
    (h : target i ∈ Set.Icc (envelope.min i) (envelope.max i)) :
    clampAxes homed maxTravel envelope target i = target i := by
  unfold clampAxes
  split_ifs
  · rw [min_eq_left h.2, max_eq_left h.1]
  · rfl

/-- `apply_travel_limits` on a motion of two axes: the clipped target, limited on each axis. -/
theorem applyTravelLimits_clip {homed : Axis → Bool} (maxTravel : Axis → K)
    {r : Axis → K} (h : clip3dTarget position goal envelope = some r)
    (hhomed : ∀ i ∈ xyz, homed i = true) (hmoves : movesTwoAxes position goal = true) :
    applyTravelLimits homed maxTravel envelope (some position) goal =
      some (clampAxes homed maxTravel envelope r) := by
  have hx := hhomed .x (by simp [xyz])
  have hy := hhomed .y (by simp [xyz])
  have hz := hhomed .z (by simp [xyz])
  simp [applyTravelLimits, Axis.down, hx, hy, hz, hmoves, h]

variable [IsStrictOrderedRing K]

/-- What is left of the motion to `goal` once the axes of `s` have been clipped. -/
structure Clipped (position goal : Axis → K) (envelope : WorkEnvelope K) (s : Set Axis) (t : K)
    (target : Axis → K) : Prop where
  greatest : IsGreatest (Segment.Inside envelope.min envelope.max position goal s) t
  point : ∀ i ∈ xyz, target i = AffineMap.lineMap (position i) (goal i) t
  rest : ∀ i ∉ xyz, target i = goal i

/-- Clipping one more axis. -/
theorem Clipped.clipAxis (h : Clipped position goal envelope s t target)
    (hp : ∀ l ∈ xyz, position l ∈ Set.Icc (envelope.min l) (envelope.max l)) (hs : s ⊆ xyz)
    (hxyz : xyz = {i, j, k}) (hij : j ≠ i) (hik : k ≠ i) :
    ∃ t' r, MachineLimits.clipAxis position (fun l => goal l - position l) envelope i j k target =
      some r ∧ Clipped position goal envelope (insert i s) t' r := by
  have hi : i ∈ xyz := by simp [hxyz]
  have hps : ∀ l ∈ s, position l ∈ Set.Icc (envelope.min l) (envelope.max l) :=
    fun l hl => hp l (hs hl)
  unfold MachineLimits.clipAxis
  split_ifs with hlow hhigh
  · rw [h.point i hi] at hlow
    obtain ⟨hd, hg⟩ := Segment.cut_low hps h.greatest (hp i hi) hlow
    obtain ⟨r, hr, hpoint, hrest⟩ := clipTo_eq (b := envelope.min i) hd hxyz hij hik h.rest
    exact ⟨_, r, hr, hg, hpoint, hrest⟩
  · rw [gt_iff_lt, h.point i hi] at hhigh
    obtain ⟨hd, hg⟩ := Segment.cut_high hps h.greatest (hp i hi) hhigh
    obtain ⟨r, hr, hpoint, hrest⟩ := clipTo_eq (b := envelope.max i) hd hxyz hij hik h.rest
    exact ⟨_, r, hr, hg, hpoint, hrest⟩
  · have hmem : AffineMap.lineMap (position i) (goal i) t ∈
        Set.Icc (envelope.min i) (envelope.max i) := by
      rw [← h.point i hi]
      exact ⟨not_lt.mp hlow, not_lt.mp hhigh⟩
    exact ⟨t, target, rfl, Segment.isGreatest_insert_of_mem h.greatest hmem, h.point, h.rest⟩

theorem clipped_refl (goal : Axis → K) : Clipped position goal envelope ∅ 1 goal where
  greatest := Segment.isGreatest_empty
  point _ _ := (AffineMap.lineMap_apply_one _ _).symm
  rest _ _ := rfl

/-- All three axes are clipped at the end. -/
theorem clip3dTarget_clipped (goal : Axis → K)
    (hp : ∀ l ∈ xyz, position l ∈ Set.Icc (envelope.min l) (envelope.max l)) :
    ∃ t r, clip3dTarget position goal envelope = some r ∧
      Clipped position goal envelope xyz t r := by
  obtain ⟨t₁, r₁, h₁, c₁⟩ := (clipped_refl goal).clipAxis hp (Set.empty_subset _)
    (i := .x) (j := .y) (k := .z) rfl (by decide) (by decide)
  obtain ⟨t₂, r₂, h₂, c₂⟩ := c₁.clipAxis hp (by simp [xyz]) (i := .y) (j := .x) (k := .z)
    (by simp [xyz, Set.insert_comm]) (by decide) (by decide)
  obtain ⟨t₃, r₃, h₃, c₃⟩ := c₂.clipAxis hp (by simp [xyz, Set.insert_subset_iff]) (i := .z)
    (j := .x) (k := .y) (by ext l; simp [xyz]; tauto) (by decide) (by decide)
  refine ⟨t₃, r₃, ?_, ?_⟩
  · simp [clip3dTarget, h₁, h₂, h₃]
  · have hall : insert Axis.z (insert Axis.y (insert Axis.x ∅)) = xyz := by
      ext l
      simp [xyz]
      tauto
    rwa [hall] at c₃

/-- A jog is clipped at the farthest point of its motion in the work envelope, without a division
by zero, and the limits of the single axes leave that point alone. -/
theorem clip_farthest (position goal : Axis → K) (envelope : WorkEnvelope K)
    (hp : ∀ i ∈ xyz, position i ∈ Set.Icc (envelope.min i) (envelope.max i)) :
    ∃ t r, clip3dTarget position goal envelope = some r ∧
      IsGreatest (Segment.Inside envelope.min envelope.max position goal xyz) t ∧
      (∀ i ∈ xyz, r i = AffineMap.lineMap (position i) (goal i) t ∧
        r i ∈ Set.Icc (envelope.min i) (envelope.max i)) ∧
      (∀ i ∉ xyz, r i = goal i) ∧
      ((∀ i ∈ xyz, goal i ∈ Set.Icc (envelope.min i) (envelope.max i)) → r = goal) ∧
      ∀ homed maxTravel, (∀ i ∈ xyz, clampAxes homed maxTravel envelope r i = r i) ∧
        ((∀ i ∈ xyz, homed i = true) → movesTwoAxes position goal = true →
          applyTravelLimits homed maxTravel envelope (some position) goal =
            some (clampAxes homed maxTravel envelope r)) := by
  obtain ⟨t, r, hr, hg, hpoint, hrest⟩ := clip3dTarget_clipped goal hp
  have hin : ∀ i ∈ xyz, r i ∈ Set.Icc (envelope.min i) (envelope.max i) := by
    intro i hi
    rw [hpoint i hi]
    exact hg.1.2 i hi
  refine ⟨t, r, hr, hg, fun i hi => ⟨hpoint i hi, hin i hi⟩, hrest, ?_, ?_⟩
  · intro hgoal
    have ht := Segment.eq_one_of_isGreatest hg hgoal
    ext i
    by_cases hi : i ∈ xyz
    · rw [hpoint i hi, ht, AffineMap.lineMap_apply_one]
    · exact hrest i hi
  · intro homed maxTravel
    exact ⟨fun i hi => clampAxes_of_mem homed maxTravel (hin i hi),
      applyTravelLimits_clip maxTravel hr⟩

/-- A jog to the right of a cube, clipped at its side. -/
theorem clip_farthest_cube :
    ∃ t r, clip3dTarget (fun _ => (0 : ℚ)) (Axis.rec 4 2 0 0 0) ⟨fun _ => 0, fun _ => 1⟩ = some r ∧
      IsGreatest (Segment.Inside (fun _ => (0 : ℚ)) (fun _ => 1) (fun _ => 0)
        (Axis.rec 4 2 0 0 0) xyz) t ∧ r .x = 1 ∧ r .y = 1 / 2 := by
  obtain ⟨t, r, hr, hg, -⟩ := clip_farthest (fun _ => (0 : ℚ)) (Axis.rec 4 2 0 0 0)
    ⟨fun _ => 0, fun _ => 1⟩ (by simp)
  refine ⟨t, r, hr, hg, ?_⟩
  have h : (clip3dTarget (fun _ => (0 : ℚ)) (Axis.rec 4 2 0 0 0) ⟨fun _ => 0, fun _ => 1⟩).map
      (fun r => (r .x, r .y)) = some (1, 1 / 2) := by decide +kernel
  simpa [hr] using h

end MachineLimits

end Inspector
