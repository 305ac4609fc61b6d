import Inspector.Geometry.Rotation

/-! # The outermost points that an arc passes

`check_arc_travel_limits` tells from the quadrants of the ends of a counter-clockwise arc which of
the four outermost points of the circle it passes. The table is right for an arc of at most a turn.
From it a box is made, which holds the arc when the ends are on the same side of the centre or have
the same height, and which holds the whole circle when the arc goes round.
-/

namespace Inspector

namespace ArcTravel

/-- `arc_x_t`, the outermost points of the circle that are passed. -/
structure Crossings where
  posX : Bool
  negY : Bool
  negX : Bool
  posY : Bool
  deriving DecidableEq

section Table

variable {K : Type*} [Field K] [LinearOrder K]

/-- The table of `check_arc_travel_limits`, for a counter-clockwise arc around the origin. The bits
are written as in `0b0001`, which is `posY`. In `labs(turns > 1)` the comparison comes first. -/
def crossings (turns : ℤ) (start end_ : K × K) : Crossings :=
  if turns > 1 then ⟨true, true, true, true⟩
  else if start.2 ≥ 0 then
    if start.1 > 0 then
      if end_.2 ≥ 0 then
        if end_.1 ≤ 0 then ⟨false, false, false, true⟩
        else if end_.1 ≥ start.1 then ⟨true, true, true, true⟩
        else ⟨false, false, false, false⟩
      else if end_.1 ≤ 0 then ⟨false, false, true, true⟩
      else ⟨false, true, true, true⟩
    else if end_.2 ≥ 0 then
      if end_.1 > 0 then ⟨true, true, true, false⟩
      else if end_.1 ≥ start.1 then ⟨true, true, true, true⟩
      else ⟨false, false, false, false⟩
    else if end_.1 ≤ 0 then ⟨false, false, true, false⟩
    else ⟨false, true, true, false⟩
  else if start.1 < 0 then
    if end_.2 < 0 then
      if end_.1 > 0 then ⟨false, true, false, false⟩
      else if end_.1 ≤ start.1 then ⟨true, true, true, true⟩
      else ⟨false, false, false, false⟩
    else if end_.1 > 0 then ⟨true, true, false, false⟩
    else ⟨true, true, false, true⟩
  else if end_.2 < 0 then
    if end_.1 < 0 then ⟨true, false, true, true⟩
    else if end_.1 ≤ start.1 then ⟨true, true, true, true⟩
    else ⟨false, false, false, false⟩
  else if end_.1 > 0 then ⟨true, false, false, false⟩
  else ⟨true, false, false, true⟩

end Table

section Quadrants

variable {K : Type*} [Field K] [LinearOrder K]

/-- The quadrants that the comments of the table speak of. -/
inductive Quadrant
  | first
  | second
  | third
  | fourth
  deriving DecidableEq

/-- The right half. -/
def Quadrant.Right (q : Quadrant) : Prop := q = first ∨ q = fourth

instance (q : Quadrant) : Decidable q.Right := inferInstanceAs (Decidable (_ ∨ _))

/-- The quadrant that an arc starts in. -/
def startQuadrant (s : K × K) : Quadrant :=
  if s.2 ≥ 0 then if s.1 > 0 then .first else .second
  else if s.1 < 0 then .third else .fourth

/-- The quadrant that an arc ends in. The point between the third and the fourth one belongs to the
fourth one for arcs that start there. -/
def endQuadrant (s e : K × K) : Quadrant :=
  if e.2 ≥ 0 then if e.1 > 0 then .first else .second
  else if e.1 < 0 ∨ e.1 = 0 ∧ startQuadrant s ≠ .fourth then .third
  else .fourth

/-- In one quadrant, the end is not after the start. -/
def NotAfter (s e : K × K) : Prop := if s.2 ≥ 0 then e.1 ≥ s.1 else e.1 ≤ s.1

instance (s e : K × K) : Decidable (NotAfter s e) := by
  unfold NotAfter
  infer_instance

/-- The arc goes round: it comes back to its quadrant, or it reaches the second point of the first
axis from the other side. -/
def Around (r : K) (s e : K × K) : Prop :=
  startQuadrant s = endQuadrant s e ∧ NotAfter s e ∨
    s = (r, 0) ∧ endQuadrant s e = .fourth ∨ startQuadrant s = .third ∧ e = (-r, 0)

/-- The ends lie on the same side of the centre, or at the same height. -/
def Level (s e : K × K) : Prop :=
  ((startQuadrant s).Right ↔ (endQuadrant s e).Right) ∨ s.2 = e.2

/-- What is passed between two quadrants. -/
def Quadrant.crossings (notAfter : Bool) : Quadrant → Quadrant → Crossings
  | first, second => ⟨false, false, false, true⟩
  | first, third => ⟨false, false, true, true⟩
  | first, fourth => ⟨false, true, true, true⟩
  | second, first => ⟨true, true, true, false⟩
  | second, third => ⟨false, false, true, false⟩
  | second, fourth => ⟨false, true, true, false⟩
  | third, first => ⟨true, true, false, false⟩
  | third, second => ⟨true, true, false, true⟩
  | third, fourth => ⟨false, true, false, false⟩
  | fourth, first => ⟨true, false, false, false⟩
  | fourth, second => ⟨true, false, false, true⟩
  | fourth, third => ⟨true, false, true, true⟩
  | first, first | second, second | third, third | fourth, fourth =>
    ⟨notAfter, notAfter, notAfter, notAfter⟩

/-- The table, by quadrants. -/
theorem crossings_eq (s e : K × K) {turns : ℤ} (hturns : ¬ turns > 1) :
    crossings turns s e =
      Quadrant.crossings (decide (NotAfter s e)) (startQuadrant s) (endQuadrant s e) := by
  rw [crossings, if_neg hturns]
  unfold endQuadrant startQuadrant NotAfter
  split_ifs <;> simp_all [Quadrant.crossings] <;> grind

end Quadrants

section Angles

open Real Rotation

variable {r a b t ψ : ℝ} {s e : ℝ × ℝ} {q q' : Quadrant} {notAfter : Bool}

/-- The angles in a quadrant. -/
def Quadrant.Contains : Quadrant → ℝ → Prop
  | first, a => 0 ≤ a ∧ a < π / 2
  | second, a => π / 2 ≤ a
  | third, a => a ≤ -(π / 2)
  | fourth, a => -(π / 2) ≤ a ∧ a < 0

theorem contains_startQuadrant (h : Rotation.OnCircle s r) (hr : 0 < r) :
    (startQuadrant s).Contains (angle s) ∧ (startQuadrant s = .third → angle s < -(π / 2)) := by
  have h1 := h.fst_pos_iff hr
  have h1' := fst_nonneg_iff (p := s)
  have h2 := snd_nonneg_iff (p := s)
  have hpi := Real.pi_pos
  unfold startQuadrant
  split_ifs <;> simp [Quadrant.Contains] <;> grind

theorem contains_endQuadrant (h : Rotation.OnCircle e r) (hr : 0 < r) (s : ℝ × ℝ) :
    (endQuadrant s e).Contains (angle e) := by
  have h1 := h.fst_pos_iff hr
  have h1' := fst_nonneg_iff (p := e)
  have h2 := snd_nonneg_iff (p := e)
  have hpi := Real.pi_pos
  unfold endQuadrant
  split_ifs <;> simp [Quadrant.Contains] <;> grind

theorem notAfter_iff (hs : Rotation.OnCircle s r) (he : Rotation.OnCircle e r) (hr : 0 < r)
    (h : startQuadrant s = endQuadrant s e) : NotAfter s e ↔ angle e ≤ angle s := by
  unfold NotAfter
  split_ifs with hs2
  · have he2 : 0 ≤ e.2 := by
      unfold startQuadrant endQuadrant at h
      grind
    exact hs.fst_le_iff_of_nonneg he hr hs2 he2
  · have he2 : e.2 < 0 := by
      unfold startQuadrant endQuadrant at h
      grind
    exact he.fst_le_iff_of_neg hs hr he2 (not_le.mp hs2)

/-- An arc from an angle on does not pass a direction. -/
def Avoids (d a t : ℝ) : Prop := a + t ≤ d ∨ d ≤ a ∧ a + t ≤ d + 2 * π

/-- The points of the circle that an arc passes are flagged. -/
theorem avoids_of_crossings (hq : q.Contains a) (hq3 : q = .third → a < -(π / 2))
    (hq' : q'.Contains b) (ha : a ≤ π) (ha' : -π < a) (hb : b ≤ π)
    (hpass : a < b ∧ a + t = b ∨ b ≤ a ∧ a + t = b + 2 * π)
    (hafter : q = q' → notAfter = false → a < b) :
    ((q.crossings notAfter q').posX = false → Avoids 0 a t) ∧
    ((q.crossings notAfter q').posY = false → Avoids (π / 2) a t) ∧
    ((q.crossings notAfter q').negX = false → Avoids π a t) ∧
    ((q.crossings notAfter q').negY = false → Avoids (-(π / 2)) a t) := by
  have hpi := Real.pi_pos
  unfold Avoids
  cases q <;> cases q' <;> simp [Quadrant.Contains, Quadrant.crossings] at * <;> grind

/-- An arc that avoids a direction has its largest coordinate there at an end. -/
theorem Avoids.coord_le {d : ℝ} (h : Avoids d (angle s) t) (hd : d ≤ π)
    (hs : Rotation.OnCircle s r) (hr : 0 < r) (hψ : ψ ∈ Set.Icc 0 t) :
    coord d (turn s ψ) ≤ max (coord d s) (coord d (turn s t)) := by
  rcases h with hle | ⟨hle, hlt⟩
  · exact hs.coord_le hr (-1) (by push_cast; linarith [neg_pi_lt_angle s])
      (by push_cast; linarith) hψ
  · exact hs.coord_le hr 0 (by push_cast; linarith) (by push_cast; linarith) hψ

end Angles

section Box

open Rotation

variable {x : Crossings} {r t : ℝ} {s e p : ℝ × ℝ} {turns : ℤ}

/-- The sides of the box around the centre that the corners span. -/
def Crossings.x1 (x : Crossings) (r : ℝ) (s e : ℝ × ℝ) : ℝ := if x.negX then -r else min s.1 e.1

def Crossings.x2 (x : Crossings) (r : ℝ) (s e : ℝ × ℝ) : ℝ := if x.posX then r else max s.1 e.1

def Crossings.y1 (x : Crossings) (r : ℝ) (s e : ℝ × ℝ) : ℝ := if x.negY then -r else max s.2 e.2

def Crossings.y2 (x : Crossings) (r : ℝ) (s e : ℝ × ℝ) : ℝ := if x.posY then r else min s.2 e.2

/-- The box holds a point. -/
structure Crossings.Holds (x : Crossings) (r : ℝ) (s e p : ℝ × ℝ) : Prop where
  fst : p.1 ∈ Set.uIcc (x.x1 r s e) (x.x2 r s e)
  snd : p.2 ∈ Set.uIcc (x.y1 r s e) (x.y2 r s e)

/-- The two sides of the second axis belong together when both of its outermost points are passed or
none is, or when the ends have one height. -/
theorem Crossings.holds_of (hr : 0 ≤ r) (hp : Rotation.OnCircle p r)
    (hlevel : x.negY = x.posY ∨ s.2 = e.2)
    (hx1 : x.negX = false → min s.1 e.1 ≤ p.1) (hx2 : x.posX = false → p.1 ≤ max s.1 e.1)
    (hy1 : x.negY = false → min s.2 e.2 ≤ p.2) (hy2 : x.posY = false → p.2 ≤ max s.2 e.2) :
    x.Holds r s e p := by
  have h1 := abs_le.mp (hp.abs_fst_le hr)
  have h2 := abs_le.mp (hp.abs_snd_le hr)
  constructor
  · apply Set.mem_uIcc_of_le
    · unfold Crossings.x1
      split_ifs with hflag
      · exact h1.1
      · exact hx1 (Bool.eq_false_of_not_eq_true hflag)
    · unfold Crossings.x2
      split_ifs with hflag
      · exact h1.2
      · exact hx2 (Bool.eq_false_of_not_eq_true hflag)
  · unfold Crossings.y1 Crossings.y2
    rw [Set.mem_uIcc]
    cases hneg : x.negY <;> cases hpos : x.posY
    · exact .inr ⟨hy1 hneg, hy2 hpos⟩
    · have heq : s.2 = e.2 := by simpa [hneg, hpos] using hlevel
      exact .inl ⟨by simpa [heq] using hy1 hneg, h2.2⟩
    · have heq : s.2 = e.2 := by simpa [hneg, hpos] using hlevel
      exact .inl ⟨h2.1, by simpa [heq] using hy2 hpos⟩
    · exact .inl h2

/-- When the box holds the ends, its two sides belong together. -/
theorem Crossings.level_of_holds (hs : Rotation.OnCircle s r) (he : Rotation.OnCircle e r)
    (hr : 0 ≤ r) (h : x.Holds r s e s) (h' : x.Holds r s e e) :
    x.negY = x.posY ∨ s.2 = e.2 := by
  have h1 := abs_le.mp (hs.abs_snd_le hr)
  have h2 := abs_le.mp (he.abs_snd_le hr)
  have h3 := h.snd
  have h4 := h'.snd
  unfold Crossings.y1 Crossings.y2 at h3 h4
  rw [Set.mem_uIcc] at h3 h4
  cases hneg : x.negY <;> cases hpos : x.posY
  · exact .inl rfl
  · right
    simp only [hneg, hpos, if_true, Bool.false_eq_true, if_false, max_le_iff, le_max_iff] at h3 h4
    grind
  · right
    simp only [hneg, hpos, if_true, Bool.false_eq_true, if_false, le_min_iff, min_le_iff] at h3 h4
    grind
  · exact .inl rfl

/-- The table has both outermost points of the second axis, or none, for ends on the same side. -/
theorem Quadrant.crossings_level (notAfter : Bool) (q q' : Quadrant) :
    (q.crossings notAfter q').negY = (q.crossings notAfter q').posY ↔ (q.Right ↔ q'.Right) := by
  cases q <;> cases q' <;> simp [Quadrant.crossings, Quadrant.Right]

theorem level_iff (hturns : ¬ turns > 1) :
    ((crossings turns s e).negY = (crossings turns s e).posY ∨ s.2 = e.2) ↔ Level s e := by
  rw [crossings_eq s e hturns, Quadrant.crossings_level]
  rfl

/-- The box holds an arc of less than a turn exactly if the ends are level. -/
theorem holds_arc_iff (hturns : ¬ turns > 1) (hr : 0 < r) (hs : Rotation.OnCircle s r)
    (ht : 0 < t) (ht' : t < 2 * Real.pi) :
    (∀ ψ ∈ Set.Icc 0 t, (crossings turns s (turn s t)).Holds r s (turn s t) (turn s ψ)) ↔
      Level s (turn s t) := by
  have he := onCircle_turn hs t
  rw [← level_iff hturns]
  constructor
  · intro h
    have h0 := h 0 ⟨le_rfl, ht.le⟩
    rw [turn_zero] at h0
    exact Crossings.level_of_holds hs he hr.le h0 (h t ⟨ht.le, le_rfl⟩)
  · intro hlevel ψ hψ
    obtain ⟨hstart, hthird⟩ := contains_startQuadrant hs hr
    have hpass := hs.angle_turn hr ht ht'.le
    have hafter : startQuadrant s = endQuadrant s (turn s t) →
        decide (NotAfter s (turn s t)) = false → angle s < angle (turn s t) := by
      intro hquadrant hnot
      rw [decide_eq_false_iff_not, notAfter_iff hs he hr hquadrant] at hnot
      exact not_le.mp hnot
    have havoids := avoids_of_crossings hstart hthird (contains_endQuadrant he hr s)
      (angle_le_pi s) (neg_pi_lt_angle s) (angle_le_pi _) hpass hafter
    rw [← crossings_eq s _ hturns] at havoids
    obtain ⟨hright, htop, hleft, hbottom⟩ := havoids
    have hpi := Real.pi_pos
    refine Crossings.holds_of hr.le (onCircle_turn hs ψ) hlevel ?_ ?_ ?_ ?_
    · intro hflag
      have := (hleft hflag).coord_le le_rfl hs hr hψ
      simpa [coord, max_neg_neg] using this
    · intro hflag
      have := (hright hflag).coord_le hpi.le hs hr hψ
      simpa [coord] using this
    · intro hflag
      have := (hbottom hflag).coord_le (by linarith) hs hr hψ
      simpa [coord, max_neg_neg] using this
    · intro hflag
      have := (htop hflag).coord_le (by linarith) hs hr hψ
      simpa [coord] using this

theorem startQuadrant_signs (s : ℝ × ℝ) :
    match startQuadrant s with
    | .first => 0 < s.1 ∧ 0 ≤ s.2
    | .second => s.1 ≤ 0 ∧ 0 ≤ s.2
    | .third => s.1 < 0 ∧ s.2 < 0
    | .fourth => 0 ≤ s.1 ∧ s.2 < 0 := by
  unfold startQuadrant
  split_ifs <;> grind

theorem endQuadrant_signs (s e : ℝ × ℝ) :
    match endQuadrant s e with
    | .first => 0 < e.1 ∧ 0 ≤ e.2
    | .second => e.1 ≤ 0 ∧ 0 ≤ e.2
    | .third => e.1 ≤ 0 ∧ e.2 < 0 ∧ (startQuadrant s = .fourth → e.1 < 0)
    | .fourth => 0 ≤ e.1 ∧ e.2 < 0 := by
  unfold endQuadrant
  split_ifs <;> grind

/-- What the sides of a box are that holds the outermost points of the circle. -/
theorem Crossings.sides_of_holds (hr : 0 < r) (hs : Rotation.OnCircle s r)
    (he : Rotation.OnCircle e r) (h : ∀ p, Rotation.OnCircle p r → x.Holds r s e p) :
    (x.negX = false → s.1 = -r ∨ e.1 = -r) ∧ (x.posX = false → s.1 = r ∨ e.1 = r) ∧
      (x.negY = false → s.2 = -r ∨ e.2 = -r) ∧ (x.posY = false → s.2 = r ∨ e.2 = r) ∧
      (x.negY = x.posY ∨ s.2 = e.2) := by
  have hs1 := abs_le.mp (hs.abs_fst_le hr.le)
  have hs2 := abs_le.mp (hs.abs_snd_le hr.le)
  have he1 := abs_le.mp (he.abs_fst_le hr.le)
  have he2 := abs_le.mp (he.abs_snd_le hr.le)
  have hx1 := (h (-r, 0) (by simp [Rotation.OnCircle])).fst
  have hx2 := (h (r, 0) (by simp [Rotation.OnCircle])).fst
  have hy1 := (h (0, -r) (by simp [Rotation.OnCircle])).snd
  have hy2 := (h (0, r) (by simp [Rotation.OnCircle])).snd
  have hlevel := level_of_holds hs he hr.le (h s hs) (h e he)
  simp only [x1, x2, y1, y2, Set.mem_uIcc] at hx1 hx2 hy1 hy2
  refine ⟨?_, ?_, ?_, ?_, hlevel⟩ <;> intro hflag
  · rw [hflag] at hx1
    grind
  · rw [hflag] at hx2
    grind
  · rw [hflag] at hy1 hlevel
    grind
  · rw [hflag] at hy2 hlevel
    grind

/-- The box holds the whole circle exactly if the arc goes round. -/
theorem holds_circle_iff (hturns : ¬ turns > 1) (hr : 0 < r) (hs : Rotation.OnCircle s r)
    (he : Rotation.OnCircle e r) :
    (∀ p, Rotation.OnCircle p r → (crossings turns s e).Holds r s e p) ↔ Around r s e := by
  have hsigns := startQuadrant_signs s
  have hsigns' := endQuadrant_signs s e
  rw [crossings_eq s e hturns]
  constructor
  · intro h
    obtain ⟨hx1, hx2, hy1, hy2, hlevel⟩ := Crossings.sides_of_holds hr hs he h
    have hs1 : s.1 = r ∨ s.1 = -r → s.2 = 0 := by
      rintro (h1 | h1) <;> exact hs.snd_eq_zero (by simp [h1])
    have he1 : e.1 = r ∨ e.1 = -r → e.2 = 0 := by
      rintro (h1 | h1) <;> exact he.snd_eq_zero (by simp [h1])
    have hs2 : s.2 = r ∨ s.2 = -r → s.1 = 0 := by
      rintro (h1 | h1) <;> exact hs.fst_eq_zero (by simp [h1])
    have he2 : e.2 = r ∨ e.2 = -r → e.1 = 0 := by
      rintro (h1 | h1) <;> exact he.fst_eq_zero (by simp [h1])
    unfold Around
    rw [Prod.ext_iff, Prod.ext_iff]
    cases hq : startQuadrant s <;> cases hq' : endQuadrant s e <;>
      simp only [hq, hq', Quadrant.crossings] at * <;> grind
  · rintro (⟨hquadrant, hafter⟩ | ⟨rfl, hfourth⟩ | ⟨hthird, rfl⟩) p hp
    · rw [hquadrant, decide_eq_true hafter]
      cases endQuadrant s e <;>
        exact Crossings.holds_of hr.le hp (.inl rfl) nofun nofun nofun nofun
    · have hfirst : startQuadrant (r, (0 : ℝ)) = .first := by simp [startQuadrant, hr]
      rw [hfirst, hfourth]
      refine Crossings.holds_of hr.le hp (.inl rfl) nofun ?_ nofun nofun
      exact fun _ => le_max_of_le_left (abs_le.mp (hp.abs_fst_le hr.le)).2
    · have hsecond : endQuadrant s (-r, (0 : ℝ)) = .second := by simp [endQuadrant, hr.le]
      rw [hthird, hsecond]
      refine Crossings.holds_of hr.le hp (.inl rfl) ?_ nofun nofun nofun
      exact fun _ => min_le_of_right_le (abs_le.mp (hp.abs_fst_le hr.le)).1

end Box

end ArcTravel

end Inspector
