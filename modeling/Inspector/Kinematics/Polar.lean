import Inspector.Geometry.Polar
import Inspector.Geometry.Winding
import Inspector.Planner.Block
import Inspector.Transition.Run

/-! # The kinematics of a polar robot

`polar.c` divides a line into segments and takes each of their ends to a radius and to an angle
that counts its turns. The angle goes the short way from the last one. Through the centre it is
asked for the last angle itself, which is a request for more turns if it has made more than one,
and a work offset moves the points that the angles belong to.
-/

namespace Inspector

namespace PolarRobot

/-- The library functions and the constant that the kinematics uses. -/
structure PolarMath (K : Type*) where
  sqrtf : K → K
  atan2f : K → K → K
  cosf : K → K
  sinf : K → K
  pi : K

/-- The variables that `polar_segment_line` keeps. -/
structure Segments (K : Type*) where
  iterations : ℕ
  segmented : Bool
  rOffset : K
  distance : K
  delta : Axis → K
  segmentTarget : Axis → K
  finalTarget : Axis → K
  cpos : Axis → K
  lastPos : Axis → K
  jogCancel : Bool

section Model

variable {K : Type*} [Field K] [LinearOrder K] [FloorRing K] (F : PolarMath K)

/-- `fmodf`. -/
def fmodf (x y : K) : K := x - y * (if 0 ≤ x / y then ⌊x / y⌋ else ⌈x / y⌉)

/-- `abs_angle`. -/
def absAngle (ang : K) : K :=
  let ang := fmodf ang 360
  if ang < 0 then 360 + ang else ang

/-- `RADDEG`. -/
def raddeg : K := F.pi / 180

/-- `DEGRAD`. -/
def degrad : K := 180 / F.pi

/-- `hypot_f`. -/
def hypotF (x y : K) : K := F.sqrtf (x * x + y * y)

/-- `transform_to_cartesian`. -/
def transformToCartesian (position : Axis → K) : Axis → K
  | .x => F.cosf (position .y * raddeg F) * position .x
  | .y => F.sinf (position .y * raddeg F) * position .x
  | i => position i

/-- `transform_from_cartesian`. -/
def transformFromCartesian (lastPos position : Axis → K) : Axis → K :=
  let radius := hypotF F (position .x) (position .y)
  let angle := if radius = 0 then lastPos .y
    else absAngle (F.atan2f (position .y) (position .x) * degrad F)
  let deltaAng := angle - absAngle (lastPos .y)
  let angle := if |deltaAng| ≤ 180 then lastPos .y + deltaAng
    else lastPos .y + if deltaAng > 0 then -(360 - deltaAng) else deltaAng + 360
  Function.update (Function.update position .y angle) .x radius

/-- `get_distance`. -/
def getDistance (p0 p1 : Axis → K) : K :=
  F.sqrtf (Axis.down.map fun i => (p0 i - p1 i) * (p0 i - p1 i)).sum

/-- A point with its radius axis moved. -/
def shift (point : Axis → K) (offset : K) : Axis → K := Function.update point .x (point .x - offset)

/-- `polar_segment_line` for a new line, where `offset` is `gc_get_offset(RADIUS_AXIS, false)`. The
axes that are not of the plane or the height have no `delta`. -/
def initLine (s : Segments K) (target position : Axis → K) (rapidMotion : Bool) (offset : K) :
    Segments K :=
  let start := transformToCartesian F position
  let delta : Axis → K
    | .x => target .x - start .x
    | .y => target .y - start .y
    | .z => target .z - start .z
    | _ => 0
  let distance := F.sqrtf (delta .x * delta .x + delta .y * delta .y + delta .z * delta .z)
  let segmented := !rapidMotion && decide (distance > 1 / 2) &&
    !(decide (delta .x = 0) && decide (delta .y = 0))
  let iterations := if segmented then ⌈distance / (1 / 2)⌉₊ else 1
  { s with
    iterations := iterations + 1
    segmented := segmented
    rOffset := offset * 2
    distance := if segmented then distance / iterations else distance
    delta := if segmented then fun i => delta i / iterations else delta
    segmentTarget := if segmented then start else target
    finalTarget := target
    jogCancel := false }

/-- `polar_segment_line` for the next segment of a line, with the feed rate that it sets. -/
def nextSegment (s : Segments K) (plData : PlanLineData K) :
    Option (Axis → K) × Segments K × PlanLineData K :=
  let iterations := s.iterations - 1
  let segmentTarget := if s.segmented && decide (iterations > 1) then
    fun i => s.segmentTarget i + s.delta i else s.finalTarget
  let cpos := transformFromCartesian F s.lastPos (shift segmentTarget s.rOffset)
  let plData :=
    if !plData.condition.rapidMotion && s.segmented then
      let rateMultiplier := getDistance F s.lastPos cpos / s.distance
      let rateMultiplier := if rateMultiplier = 0 then 1
        else if rateMultiplier < 1 / 2 then 1 / 2 else rateMultiplier
      { plData with
        feedRate := plData.feedRate * rateMultiplier
        rateMultiplier := 1 / rateMultiplier }
    else plData
  let s := { s with
    iterations := iterations
    segmentTarget := segmentTarget
    cpos := cpos
    lastPos := cpos }
  (if iterations = 0 || s.jogCancel then none else some cpos, s, plData)

/-- `cancel_jog`. -/
def cancelJog (s : Segments K) : Segments K := { s with jogCancel := true }

/-- A motor target, the point of the segment that it was computed for, and the data that it is
planned with. -/
structure Emitted (K : Type*) where
  point : Axis → K
  motor : Axis → K
  plData : PlanLineData K

/-- The loop of `mc_line` that asks for segments, with fuel. -/
def lineLoop (plData : PlanLineData K) : ℕ → Segments K → List (Emitted K) × Segments K
  | 0, s => ([], s)
  | n + 1, s =>
    match nextSegment F s plData with
    | (none, s', _) => ([], s')
    | (some motor, s', plData') =>
      let rest := lineLoop plData n s'
      (⟨s'.segmentTarget, motor, plData'⟩ :: rest.1, rest.2)

/-- A line that is given to `mc_line`, with the position of the planner and the work offset. -/
structure Line (K : Type*) where
  target : Axis → K
  position : Axis → K
  offset : K
  plData : PlanLineData K

/-- What `mc_line` asks the kinematics for. -/
def mcLine (s : Segments K) (line : Line K) : List (Emitted K) × Segments K :=
  let s := initLine F s line.target line.position line.plData.condition.rapidMotion line.offset
  lineLoop F { line.plData with rateMultiplier := 1 } s.iterations s

/-- The emitted targets of lines that follow each other. -/
def mcLines (s : Segments K) : List (Line K) → List (List (Emitted K))
  | [] => []
  | line :: lines => (mcLine F s line).1 :: mcLines (mcLine F s line).2 lines

/-- The points of the segments that are left of a line. -/
def segmentPoints (segmented : Bool) (delta finalTarget : Axis → K) :
    ℕ → (Axis → K) → List (Axis → K)
  | 0, _ => []
  | n + 1, p =>
    let p' := if segmented && decide (n + 1 > 1) then fun i => p i + delta i else finalTarget
    p' :: segmentPoints segmented delta finalTarget n p'

omit [LinearOrder K] [FloorRing K] in
/-- The points of a line that is divided up are evenly spaced, up to its target. -/
theorem segmentPoints_true (delta finalTarget p : Axis → K) (n : ℕ) :
    segmentPoints true delta finalTarget (n + 1) p =
      (List.range n).map (fun (k : ℕ) i => p i + (k + 1) * delta i) ++ [finalTarget] := by
  induction n generalizing p with
  | zero => rfl
  | succ n ih =>
    rw [segmentPoints, if_pos (by simp), ih, List.range_succ_eq_map, List.map_cons, List.map_map,
      List.cons_append]
    congr 2
    · funext i
      rw [Nat.cast_zero, zero_add, one_mul]
    · refine List.map_congr_left fun k _ => funext fun i => ?_
      simp only [Function.comp_apply]
      push_cast
      ring

/-- The static variables before the first line. -/
def blank : Segments K where
  iterations := 0
  segmented := false
  rOffset := 0
  distance := 0
  delta := fun _ => 0
  segmentTarget := fun _ => 0
  finalTarget := fun _ => 0
  cpos := fun _ => 0
  lastPos := fun _ => 0
  jogCancel := false

/-- The points at the ends of the segments of a line. -/
def linePoints (line : Line K) : List (Axis → K) :=
  let s := initLine F blank line.target line.position line.plData.condition.rapidMotion line.offset
  segmentPoints s.segmented s.delta s.finalTarget (s.iterations - 1) s.segmentTarget

/-- A motor target maps to its point, and the angle is at most half a turn from the one before. -/
def Good (last : K) (e : Emitted K) : Prop :=
  transformToCartesian F e.motor = e.point ∧ |e.motor .y - last| ≤ 180

/-- Lines are followed when all their targets are good, and when the last one of each is for the
target of the line. -/
structure Follows (s : Segments K) (lines : List (Line K)) : Prop where
  path : Transition.Along (fun _ e => e.motor .y) (Good F) (s.lastPos .y)
    (mcLines F s lines).flatten
  ends : List.Forall₂ (fun line es => es.getLast?.map Emitted.point = some line.target) lines
    (mcLines F s lines)

/-- At the centre the angle has made at most one turn. -/
def AtMostOneTurn (last point : Axis → K) : Prop :=
  point .x = 0 → point .y = 0 → -360 ≤ last .y ∧ last .y < 720

/-- There is no work offset, and where the segments come to the centre the angle has made at most
one turn. -/
def Unwound (s : Segments K) (lines : List (Line K)) : Prop :=
  (∀ line ∈ lines, line.offset = 0) ∧
    Transition.Along (transformFromCartesian F) AtMostOneTurn s.lastPos
      (lines.flatMap (linePoints F))

variable {F}

section Loop

variable {s : Segments K} {plData : PlanLineData K} {n : ℕ}

/-- The target of a point, where the radius axis is moved by an offset. -/
def wind (F : PolarMath K) (r : K) (last point : Axis → K) : Axis → K :=
  transformFromCartesian F last (shift point r)

/-- The points that are left in a state. -/
def rest (s : Segments K) (n : ℕ) : List (Axis → K) :=
  segmentPoints s.segmented s.delta s.finalTarget n s.segmentTarget

/-- What is left of a line after a segment. -/
structure Next (F : PolarMath K) (s s' : Segments K) (n : ℕ) : Prop where
  iterations : s'.iterations = n
  segmented : s'.segmented = s.segmented
  rOffset : s'.rOffset = s.rOffset
  delta : s'.delta = s.delta
  finalTarget : s'.finalTarget = s.finalTarget
  jogCancel : s'.jogCancel = s.jogCancel
  segmentTarget : s'.segmentTarget = if s.segmented && decide (n > 1) then
    fun i => s.segmentTarget i + s.delta i else s.finalTarget
  lastPos : s'.lastPos = wind F s.rOffset s.lastPos s'.segmentTarget

theorem next_nextSegment (F : PolarMath K) (plData : PlanLineData K)
    (hiter : s.iterations = n + 1) :
    Next F s (nextSegment F s plData).2.1 n := by
  have hn : s.iterations - 1 = n := by omega
  refine ⟨hn, rfl, rfl, rfl, rfl, rfl, ?_, rfl⟩
  rw [← hn]
  rfl

theorem Next.rest {s' : Segments K} (h : Next F s s' (n + 1)) :
    rest s (n + 1) = s'.segmentTarget :: rest s' n := by
  unfold PolarRobot.rest
  rw [segmentPoints, h.segmented, h.delta, h.finalTarget, ← h.segmentTarget]

theorem nextSegment_fst : (nextSegment F s plData).1 =
    if (nextSegment F s plData).2.1.iterations = 0 || s.jogCancel then none
      else some (nextSegment F s plData).2.1.lastPos := rfl

/-- A jog that is cancelled is given no target any more. -/
theorem nextSegment_cancelJog : (nextSegment F (cancelJog s) plData).1 = none := by
  rw [nextSegment_fst, cancelJog, Bool.or_true]
  rfl

/-- The last call answers nothing, and computes the end of the line again. -/
theorem lineLoop_one (F : PolarMath K) (plData : PlanLineData K) (hiter : s.iterations = 1) :
    (lineLoop F plData 1 s).1 = [] ∧
      (lineLoop F plData 1 s).2.lastPos = wind F s.rOffset s.lastPos s.finalTarget := by
  have hnext := next_nextSegment F plData hiter
  have hnone : (nextSegment F s plData).1 = none := by
    rw [nextSegment_fst, hnext.iterations]
    rfl
  have htarget : (nextSegment F s plData).2.1.segmentTarget = s.finalTarget := by
    rw [hnext.segmentTarget, decide_eq_false (by omega), Bool.and_false,
      if_neg Bool.false_ne_true]
  rw [← htarget, ← hnext.lastPos]
  rcases h : nextSegment F s plData with ⟨o, s', plData'⟩
  rw [h] at hnone
  obtain rfl : o = none := hnone
  rw [lineLoop, h]
  exact ⟨rfl, rfl⟩

/-- A call in front of it answers the target of a point. -/
theorem lineLoop_succ (F : PolarMath K) (plData : PlanLineData K)
    (hiter : s.iterations = n + 2) (hjog : s.jogCancel = false) :
    ∃ s' plData', Next F s s' (n + 1) ∧
      lineLoop F plData (n + 2) s =
        (⟨s'.segmentTarget, s'.lastPos, plData'⟩ :: (lineLoop F plData (n + 1) s').1,
          (lineLoop F plData (n + 1) s').2) := by
  have hnext := next_nextSegment F plData hiter
  have hsome : (nextSegment F s plData).1 = some (nextSegment F s plData).2.1.lastPos := by
    rw [nextSegment_fst, hnext.iterations, hjog]
    rfl
  rcases h : nextSegment F s plData with ⟨o, s', plData'⟩
  rw [h] at hnext hsome
  obtain rfl : o = some s'.lastPos := hsome
  refine ⟨s', plData', hnext, ?_⟩
  rw [lineLoop, h]

/-- The targets of a line are good exactly if each of the points that are left is. -/
theorem along_lineLoop (plData : PlanLineData K) {P : (Axis → K) → (Axis → K) → Prop}
    (hP : ∀ last point plData, Good F (last .y) ⟨point, wind F s.rOffset last point, plData⟩ ↔
      P last point) (hiter : s.iterations = n + 1) (hjog : s.jogCancel = false) :
    (Transition.Along (fun _ e => e.motor .y) (Good F) (s.lastPos .y)
        (lineLoop F plData (n + 1) s).1 ↔
      Transition.Along (wind F s.rOffset) P s.lastPos (rest s n)) ∧
    (lineLoop F plData (n + 1) s).1.foldl (fun _ e => e.motor .y) (s.lastPos .y) =
      (rest s n).foldl (wind F s.rOffset) s.lastPos .y ∧
    (lineLoop F plData (n + 1) s).2.lastPos =
      wind F s.rOffset ((rest s n).foldl (wind F s.rOffset) s.lastPos) s.finalTarget ∧
    (lineLoop F plData (n + 1) s).1.map Emitted.point = rest s n := by
  induction n generalizing s with
  | zero =>
    obtain ⟨hnil, hlast⟩ := lineLoop_one F plData hiter
    rw [hnil]
    exact ⟨Iff.rfl, rfl, hlast, rfl⟩
  | succ n ih =>
    obtain ⟨s', plData', hnext, hloop⟩ := lineLoop_succ F plData hiter hjog
    have hgood := hP s.lastPos s'.segmentTarget plData'
    rw [← hnext.rOffset] at hP
    obtain ⟨hpath, hfold, hlast, hpoints⟩ := ih hP hnext.iterations (hnext.jogCancel.trans hjog)
    rw [hnext.rOffset, hnext.lastPos] at hpath hfold hlast
    rw [hnext.finalTarget] at hlast
    rw [hloop, hnext.rest, hnext.lastPos]
    refine ⟨?_, hfold, hlast, congrArg (List.cons _) hpoints⟩
    exact and_congr hgood hpath

end Loop

end Model

/-- The functions and the constant in exact arithmetic. -/
noncomputable def exactPolar : PolarMath ℝ where
  sqrtf := Real.sqrt
  atan2f := Polar.angle
  cosf := Real.cos
  sinf := Real.sin
  pi := Real.pi

section Exact

open Winding

variable {s : Segments ℝ} {line : Line ℝ} {last point : Axis → ℝ}

/-- `abs_angle` leaves out the turns. -/
theorem absAngle_eq (a : ℝ) : absAngle a = wrapped 360 a := by
  have hlow := wrapped_nonneg (by norm_num : (0 : ℝ) < 360) a
  have hhigh := wrapped_lt (by norm_num : (0 : ℝ) < 360) a
  unfold absAngle fmodf
  dsimp only
  rw [wrapped] at hlow hhigh ⊢
  by_cases hpos : 0 ≤ a / 360
  · rw [if_pos hpos, if_neg (not_lt.mpr hlow)]
  · rw [if_neg hpos]
    have hle : (⌈a / 360⌉ : ℤ) ≤ ⌊a / 360⌋ + 1 := Int.ceil_le_floor_add_one _
    split_ifs with hneg
    · have hlt : ⌊a / 360⌋ < ⌈a / 360⌉ := by
        rw [Int.floor_lt, div_lt_iff₀ (by norm_num)]
        linarith
      have heq : ⌈a / 360⌉ = ⌊a / 360⌋ + 1 := by omega
      rw [heq]
      push_cast
      ring
    · have hge : (⌈a / 360⌉ : ℝ) ≤ a / 360 := by
        rw [le_div_iff₀ (by norm_num)]
        linarith
      have heq : ⌈a / 360⌉ = ⌊a / 360⌋ :=
        le_antisymm (Int.le_floor.mpr hge) (Int.floor_le_ceil _)
      rw [heq]

/-- The direction of a point that is not the centre. -/
noncomputable def direction (point : Axis → ℝ) : ℝ :=
  wrapped 360 (Polar.angle (point .y) (point .x) * (180 / Real.pi))

noncomputable def radius (point : Axis → ℝ) : ℝ :=
  √(point .x * point .x + point .y * point .y)

theorem radius_eq_zero_iff : radius point = 0 ↔ point .x = 0 ∧ point .y = 0 := by
  have hx := mul_self_nonneg (point .x)
  have hy := mul_self_nonneg (point .y)
  rw [radius, Real.sqrt_eq_zero (add_nonneg hx hy)]
  constructor
  · intro h
    exact ⟨mul_self_eq_zero.mp (by linarith), mul_self_eq_zero.mp (by linarith)⟩
  · rintro ⟨h1, h2⟩
    rw [h1, h2]
    norm_num

/-- The angle of a target goes the short way from the last one. -/
theorem transformFromCartesian_eq (last point : Axis → ℝ) :
    transformFromCartesian exactPolar last point =
      Function.update (Function.update point .y (toward 360 (last .y)
        (if radius point = 0 then last .y else direction point))) .x (radius point) := by
  unfold transformFromCartesian toward turn direction
  dsimp only
  rw [absAngle_eq, absAngle_eq]
  have hhalf : (360 : ℝ) / 2 = 180 := by norm_num
  have hradius : hypotF exactPolar (point .x) (point .y) = radius point := rfl
  have hangle : exactPolar.atan2f (point .y) (point .x) * degrad exactPolar =
      Polar.angle (point .y) (point .x) * (180 / Real.pi) := rfl
  rw [hhalf, hradius, hangle]
  generalize (if radius point = 0 then last .y
    else wrapped 360 (Polar.angle (point .y) (point .x) * (180 / Real.pi))) -
      wrapped 360 (last .y) = d
  split_ifs <;> rfl

theorem wind_zero : wind exactPolar 0 = transformFromCartesian exactPolar := by
  funext last point
  rw [wind, shift, sub_zero, Function.update_eq_self]

theorem angle_transform (last point : Axis → ℝ) :
    transformFromCartesian exactPolar last point .y = toward 360 (last .y)
      (if radius point = 0 then last .y else direction point) := by
  rw [transformFromCartesian_eq, Function.update_of_ne (by decide), Function.update_self]

/-- An angle in the direction of a point, turns included. -/
theorem exists_angle_eq (last : Axis → ℝ) (h : radius point ≠ 0) :
    ∃ k : ℤ, transformFromCartesian exactPolar last point .y * (Real.pi / 180) =
      Polar.angle (point .y) (point .x) + k * (2 * Real.pi) := by
  obtain ⟨k, hk⟩ := exists_toward_eq 360 (last .y) (direction point)
  refine ⟨k - ⌊Polar.angle (point .y) (point .x) * (180 / Real.pi) / 360⌋, ?_⟩
  rw [angle_transform, if_neg h, hk, direction, wrapped]
  have hpi := Real.pi_ne_zero
  push_cast
  field_simp
  ring

/-- A target maps to its point. -/
theorem transformToCartesian_from (last point : Axis → ℝ) :
    transformToCartesian exactPolar (transformFromCartesian exactPolar last point) = point := by
  have hangle : transformFromCartesian exactPolar last point .x = radius point := by
    rw [transformFromCartesian_eq, Function.update_self]
  have hrest : ∀ i, i ≠ .x → i ≠ .y → transformFromCartesian exactPolar last point i = point i := by
    intro i hx hy
    rw [transformFromCartesian_eq, Function.update_of_ne hx, Function.update_of_ne hy]
  have hxy : Real.cos (transformFromCartesian exactPolar last point .y * (Real.pi / 180)) *
        radius point = point .x ∧
      Real.sin (transformFromCartesian exactPolar last point .y * (Real.pi / 180)) *
        radius point = point .y := by
    by_cases hzero : radius point = 0
    · obtain ⟨hx, hy⟩ := radius_eq_zero_iff.mp hzero
      rw [hzero, mul_zero, mul_zero, hx, hy]
      exact ⟨rfl, rfl⟩
    · obtain ⟨k, hk⟩ := exists_angle_eq last hzero
      rw [hk, Real.cos_add_int_mul_two_pi, Real.sin_add_int_mul_two_pi, mul_comm, radius,
        Polar.sqrt_mul_cos_angle, mul_comm, Polar.sqrt_mul_sin_angle]
      exact ⟨rfl, rfl⟩
  funext i
  cases i with
  | x =>
    rw [← hangle] at hxy
    exact hxy.1
  | y =>
    rw [← hangle] at hxy
    exact hxy.2
  | z => exact hrest _ (by decide) (by decide)
  | a => exact hrest _ (by decide) (by decide)
  | b => exact hrest _ (by decide) (by decide)

/-- The angle turns by at most half a turn, unless it has turns and the point is the centre. -/
theorem abs_angle_sub_le_iff (last point : Axis → ℝ) :
    |transformFromCartesian exactPolar last point .y - last .y| ≤ 180 ↔
      AtMostOneTurn last point := by
  have hturn : (0 : ℝ) < 360 := by norm_num
  have hhalf : (360 : ℝ) / 2 = 180 := by norm_num
  rw [angle_transform, toward, add_sub_cancel_left, ← hhalf]
  by_cases hzero : radius point = 0
  · obtain ⟨hx, hy⟩ := radius_eq_zero_iff.mp hzero
    rw [if_pos hzero, abs_turn_self_le_iff hturn, AtMostOneTurn]
    norm_num [hx, hy]
  · rw [if_neg hzero]
    refine iff_of_true (abs_turn_le hturn _ (wrapped_nonneg hturn _) (wrapped_lt hturn _)) ?_
    intro hx hy
    exact absurd (radius_eq_zero_iff.mpr ⟨hx, hy⟩) hzero

/-- To compute a target again does not change it, unless the point is the centre. -/
theorem transform_again (h : AtMostOneTurn last point) :
    transformFromCartesian exactPolar (transformFromCartesian exactPolar last point) point =
      transformFromCartesian exactPolar last point := by
  have hturn : (0 : ℝ) < 360 := by norm_num
  have hangle : toward 360 (transformFromCartesian exactPolar last point .y)
        (if radius point = 0 then transformFromCartesian exactPolar last point .y
          else direction point) =
      toward 360 (last .y) (if radius point = 0 then last .y else direction point) := by
    rw [angle_transform]
    by_cases hzero : radius point = 0
    · obtain ⟨hx, hy⟩ := radius_eq_zero_iff.mp hzero
      have hlast := h hx hy
      have hkeep : toward 360 (last .y) (last .y) = last .y :=
        toward_self hturn (by norm_num; exact hlast)
      rw [if_pos hzero, if_pos hzero, hkeep, hkeep]
    · rw [if_neg hzero, if_neg hzero]
      exact toward_toward hturn (wrapped_nonneg hturn _) (wrapped_lt hturn _)
  rw [transformFromCartesian_eq (transformFromCartesian exactPolar last point) point, hangle,
    ← transformFromCartesian_eq]

/-- A target that is emitted is good if the radius axis is not moved and if the angle has made at
most one turn at the centre. -/
theorem good_iff (r : ℝ) (last point : Axis → ℝ) (plData : PlanLineData ℝ) :
    Good exactPolar (last .y) ⟨point, wind exactPolar r last point, plData⟩ ↔
      r = 0 ∧ AtMostOneTurn last point := by
  have hshift : shift point r = point ↔ r = 0 := by
    rw [shift, Function.update_eq_self_iff, sub_eq_self]
  rw [Good, wind, transformToCartesian_from, hshift]
  refine and_congr_right ?_
  rintro rfl
  rw [hshift.mpr rfl, abs_angle_sub_le_iff]

/-- A line has at least one segment. -/
theorem two_le_iterations {b : Bool} {d : ℝ} (h : b = true → 1 / 2 < d) :
    2 ≤ (if b then ⌈d / (1 / 2)⌉₊ else 1) + 1 := by
  cases b with
  | true =>
    have hpos : 0 < d / (1 / 2) := div_pos (lt_trans (by norm_num) (h rfl)) (by norm_num)
    have hceil := Nat.ceil_pos.mpr hpos
    rw [if_pos rfl]
    omega
  | false => exact le_rfl

/-- The variables at the start of a line. -/
theorem initLine_spec (s : Segments ℝ) (line : Line ℝ) :
    let s' := initLine exactPolar s line.target line.position
      line.plData.condition.rapidMotion line.offset
    ∃ n, s'.iterations = n + 2 ∧ s'.jogCancel = false ∧ s'.rOffset = line.offset * 2 ∧
      s'.lastPos = s.lastPos ∧ s'.finalTarget = line.target ∧
      rest s' (n + 1) = linePoints exactPolar line := by
  intro s'
  have hpos : 2 ≤ s'.iterations := by
    refine two_le_iterations fun h => ?_
    simp only [Bool.and_eq_true, decide_eq_true_eq] at h
    exact h.1.2
  refine ⟨s'.iterations - 2, by omega, rfl, rfl, rfl, rfl, ?_⟩
  have hn : s'.iterations - 2 + 1 = s'.iterations - 1 := by omega
  rw [hn]
  rfl

/-- The last point of a line is its target. -/
theorem exists_segmentPoints_eq (segmented : Bool) (delta finalTarget p : Axis → ℝ) (n : ℕ) :
    ∃ ps, segmentPoints segmented delta finalTarget (n + 1) p = ps ++ [finalTarget] := by
  induction n generalizing p with
  | zero => exact ⟨[], by simp [segmentPoints]⟩
  | succ n ih =>
    obtain ⟨ps, hps⟩ := ih (if segmented && decide (n + 2 > 1) then fun i => p i + delta i
      else finalTarget)
    exact ⟨_ :: ps, by rw [segmentPoints, hps, List.cons_append]⟩

theorem linePoints_eq (line : Line ℝ) : ∃ ps, linePoints exactPolar line = ps ++ [line.target] := by
  obtain ⟨n, -, -, -, -, hfinal, hrest⟩ := initLine_spec blank line
  rw [← hrest, ← hfinal]
  exact exists_segmentPoints_eq _ _ _ _ n

theorem along_wind_iff {r : ℝ} {ps : List (Axis → ℝ)} (hne : ps ≠ []) :
    Transition.Along (wind exactPolar r) (fun last p => r = 0 ∧ AtMostOneTurn last p) last ps ↔
      r = 0 ∧ Transition.Along (transformFromCartesian exactPolar) AtMostOneTurn last ps := by
  constructor
  · intro h
    obtain rfl : r = 0 := by
      cases ps with
      | nil => exact absurd rfl hne
      | cons p ps => exact h.1.1
    rw [wind_zero] at h
    exact ⟨rfl, Transition.along_of_step (I := fun _ => True) (fun _ _ _ _ => trivial)
      (fun _ _ hok _ => hok.2) trivial h⟩
  · rintro ⟨rfl, h⟩
    rw [wind_zero]
    exact Transition.along_of_step (I := fun _ => True) (fun _ _ _ _ => trivial)
      (fun _ _ hok _ => ⟨rfl, hok⟩) trivial h

/-- The targets of a line are good exactly if there is no work offset and its points do not come to
the centre with turns. -/
theorem along_mcLine_iff (s : Segments ℝ) (line : Line ℝ) :
    Transition.Along (fun _ e => e.motor .y) (Good exactPolar) (s.lastPos .y)
        (mcLine exactPolar s line).1 ↔
      line.offset = 0 ∧ Transition.Along (transformFromCartesian exactPolar) AtMostOneTurn s.lastPos
        (linePoints exactPolar line) := by
  obtain ⟨n, hiter, hjog, hr, hlast, -, hrest⟩ := initLine_spec s line
  obtain ⟨ps, hps⟩ := linePoints_eq line
  have hoffset : line.offset * 2 = 0 ↔ line.offset = 0 := by simp
  rw [mcLine]
  dsimp only
  rw [hiter, ← hoffset, ← hr, ← hlast, ← hrest, ← along_wind_iff (by simp [hrest, hps])]
  exact (along_lineLoop _ (fun last point plData => good_iff _ last point plData) hiter hjog).1

/-- Then the position that is remembered is the one of the last target. -/
theorem lastPos_mcLine (s : Segments ℝ) (line : Line ℝ) (hoffset : line.offset = 0)
    (hpoints : Transition.Along (transformFromCartesian exactPolar) AtMostOneTurn s.lastPos
      (linePoints exactPolar line)) :
    (mcLine exactPolar s line).2.lastPos =
        (linePoints exactPolar line).foldl (transformFromCartesian exactPolar) s.lastPos ∧
      (mcLine exactPolar s line).1.foldl (fun _ e => e.motor .y) (s.lastPos .y) =
        (mcLine exactPolar s line).2.lastPos .y := by
  obtain ⟨n, hiter, hjog, hr, hlast, hfinal, hrest⟩ := initLine_spec s line
  obtain ⟨ps, hps⟩ := linePoints_eq line
  have hr0 : line.offset * 2 = 0 := by rw [hoffset, zero_mul]
  obtain ⟨-, hfold, hend, -⟩ := along_lineLoop { line.plData with rateMultiplier := 1 }
    (fun last point plData => good_iff _ last point plData) hiter hjog
  rw [hr, hr0, wind_zero, hlast, hrest] at hfold hend
  rw [hfinal, hps, List.foldl_append, List.foldl_cons, List.foldl_nil] at hend
  rw [hps, Transition.along_append] at hpoints
  rw [transform_again hpoints.2.1] at hend
  have hmc : mcLine exactPolar s line = lineLoop exactPolar
      { line.plData with rateMultiplier := 1 } (n + 2) (initLine exactPolar s line.target
        line.position line.plData.condition.rapidMotion line.offset) := by
    rw [mcLine]
    dsimp only
    rw [hiter]
  rw [hmc, hend, hfold, hps, List.foldl_append]
  exact ⟨rfl, rfl⟩

/-- The last target of a line is for the target of the line. -/
theorem getLast_mcLine (s : Segments ℝ) (line : Line ℝ) :
    (mcLine exactPolar s line).1.getLast?.map Emitted.point = some line.target := by
  obtain ⟨n, hiter, hjog, -, -, -, hrest⟩ := initLine_spec s line
  obtain ⟨ps, hps⟩ := linePoints_eq line
  have hpoints := (along_lineLoop { line.plData with rateMultiplier := 1 }
    (fun last point plData => good_iff _ last point plData) hiter hjog).2.2.2
  rw [mcLine]
  dsimp only
  rw [hiter, ← List.getLast?_map, hpoints, hrest, hps, List.getLast?_concat]

theorem path_iff (s : Segments ℝ) (lines : List (Line ℝ)) :
    Transition.Along (fun _ e => e.motor .y) (Good exactPolar) (s.lastPos .y)
      (mcLines exactPolar s lines).flatten ↔ Unwound exactPolar s lines := by
  induction lines generalizing s with
  | nil => exact ⟨fun _ => ⟨fun _ h => absurd h List.not_mem_nil, trivial⟩, fun _ => trivial⟩
  | cons line lines ih =>
    rw [mcLines, List.flatten_cons, Transition.along_append, along_mcLine_iff]
    unfold Unwound
    rw [List.forall_mem_cons, List.flatMap_cons, Transition.along_append]
    constructor
    · rintro ⟨⟨hoffset, hpoints⟩, hlines⟩
      obtain ⟨hlast, hfold⟩ := lastPos_mcLine s line hoffset hpoints
      rw [hfold, ih, Unwound, hlast] at hlines
      exact ⟨⟨hoffset, hlines.1⟩, hpoints, hlines.2⟩
    · rintro ⟨⟨hoffset, hoffsets⟩, hpoints, hlines⟩
      obtain ⟨hlast, hfold⟩ := lastPos_mcLine s line hoffset hpoints
      rw [hfold, ih, Unwound, hlast]
      exact ⟨⟨hoffset, hpoints⟩, hoffsets, hlines⟩

theorem ends_mcLines (s : Segments ℝ) (lines : List (Line ℝ)) :
    List.Forall₂ (fun line es => es.getLast?.map Emitted.point = some line.target) lines
      (mcLines exactPolar s lines) := by
  induction lines generalizing s with
  | nil => exact .nil
  | cons line lines ih => exact .cons (getLast_mcLine s line) (ih _)

/-- A run follows its lines exactly if it is unwound. -/
theorem follows_iff (s : Segments ℝ) (lines : List (Line ℝ)) :
    Follows exactPolar s lines ↔ Unwound exactPolar s lines :=
  ⟨fun h => (path_iff s lines).mp h.path, fun h => ⟨(path_iff s lines).mpr h, ends_mcLines s lines⟩⟩

/-- A point of the circle of radius one. -/
noncomputable def onCircle (θ : ℝ) : Axis → ℝ
  | .x => Real.cos (θ * (Real.pi / 180))
  | .y => Real.sin (θ * (Real.pi / 180))
  | _ => 0

theorem radius_onCircle (θ : ℝ) : radius (onCircle θ) = 1 := by
  have hsq := Real.cos_sq_add_sin_sq (θ * (Real.pi / 180))
  rw [sq, sq] at hsq
  rw [radius, onCircle, onCircle, hsq, Real.sqrt_one]

theorem direction_onCircle (θ : ℝ) : direction (onCircle θ) = wrapped 360 θ := by
  have hpi := Real.pi_ne_zero
  have hangle := Polar.coe_angle_sin_cos (θ * (Real.pi / 180))
  obtain ⟨k, hk⟩ := Real.Angle.angle_eq_iff_two_pi_dvd_sub.mp hangle
  have hdegrees : Polar.angle (Real.sin (θ * (Real.pi / 180))) (Real.cos (θ * (Real.pi / 180))) *
      (180 / Real.pi) = θ + 360 * k := by
    rw [sub_eq_iff_eq_add.mp hk]
    field_simp
    ring
  rw [direction, onCircle, onCircle, hdegrees, wrapped_add_turns (by norm_num)]

/-- A path on the circle that turns by less than half a turn from target to target is followed. -/
theorem angle_onCircle {θ : ℝ} (h : |θ - last .y| < 180) :
    transformFromCartesian exactPolar last (onCircle θ) .y = θ := by
  have hhalf : (360 : ℝ) / 2 = 180 := by norm_num
  rw [angle_transform, if_neg (by rw [radius_onCircle]; exact one_ne_zero), direction_onCircle]
  exact toward_wrapped (by norm_num) (by rwa [hhalf])

end Exact

section TwoTurns

/-- A rapid motion without a work offset. -/
def rapid (target : Axis → ℝ) : Line ℝ where
  target := target
  position := fun _ => 0
  offset := 0
  plData :=
    { feedRate := 1
      rateMultiplier := 1
      spindle := { rpm := 0, synchronized := false, css := none }
      condition := { rapidMotion := true }
      lineNumber := 0
      message := none
      outputCommands := [] }

/-- A rapid motion is not divided up. -/
theorem linePoints_rapid (target : Axis → ℝ) : linePoints exactPolar (rapid target) = [target] :=
  rfl

/-- Quarter turns. -/
noncomputable def quarters (n : ℕ) : List (Axis → ℝ) :=
  (List.range n).map fun k : ℕ => onCircle (90 * (k + 1))

theorem angle_quarters (n : ℕ) :
    (quarters n).foldl (transformFromCartesian exactPolar) (fun _ => 0) .y = 90 * n := by
  induction n with
  | zero => simp [quarters]
  | succ n ih =>
    rw [quarters] at ih ⊢
    rw [List.range_succ, List.map_append, List.foldl_append, List.map_singleton, List.foldl_cons,
      List.foldl_nil, Nat.cast_succ, angle_onCircle]
    rw [ih]
    norm_num [mul_add]

/-- After two turns, a motion to the centre turns the angle on. -/
theorem not_follows : (∀ line ∈ (quarters 8 ++ [fun _ => 0]).map rapid, line.offset = 0) ∧
    ¬Follows exactPolar blank ((quarters 8 ++ [fun _ => 0]).map rapid) := by
  constructor
  · intro line hline
    obtain ⟨target, -, rfl⟩ := List.mem_map.mp hline
    rfl
  · intro h
    have hunwound := ((path_iff blank _).mp h.path).2
    have hpoints : ((quarters 8 ++ [fun _ => 0]).map rapid).flatMap (linePoints exactPolar) =
        quarters 8 ++ [fun _ => 0] := by
      rw [List.flatMap_map]
      simp only [linePoints_rapid, List.flatMap_singleton']
    rw [hpoints, Transition.along_append] at hunwound
    have hcentre := hunwound.2.1 rfl rfl
    have hangle := angle_quarters 8
    have hblank : (blank : Segments ℝ).lastPos = fun _ => 0 := rfl
    rw [hblank, hangle] at hcentre
    norm_num at hcentre

/-- A work offset moves the target of a point. -/
theorem not_follows_offset :
    ¬Follows exactPolar blank [{ rapid (onCircle 0) with offset := 1 }] := by
  intro h
  have hoffset := ((path_iff blank _).mp h.path).1 _ List.mem_cons_self
  norm_num at hoffset

end TwoTurns

end PolarRobot

end Inspector
