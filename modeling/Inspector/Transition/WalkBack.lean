import Inspector.Numerals
import Inspector.Transition.Loop
import Mathlib.Algebra.Order.Archimedean.Basic
import Mathlib.Logic.Relation
import Mathlib.Tactic.FieldSimp
import Mathlib.Tactic.Linarith

/-! # Walking back with a step that grows and halves

A search begins at a length and walks back while a test fails. The step grows by a constant up to a
resolution and is halved above it, and a length that passes the test is left upwards while the step
is above the resolution. The search only ends at a length that passes the test. It ends if its tries
have a lower bound, and it cannot walk over a stretch of such lengths that is as long as its largest
step.
-/

namespace Transition

/-- Whether the last length passed the test, the last length, and the step. -/
@[ext] structure WalkBack (K : Type*) where
  ok : Bool
  length : K
  dist : K

namespace WalkBack

variable {K : Type*} [Field K] [LinearOrder K]

/-- The length that is tried next. -/
def next (s : WalkBack K) : K := if s.ok then s.length + s.dist else s.length - s.dist

/-- One pass of the search. -/
def pass (test : K → Bool) (res grow : K) (s : WalkBack K) : WalkBack K ⊕ WalkBack K :=
  let length := s.next
  let ok := test length
  if s.dist > res then
    let dist := s.dist * (1 / 2)
    if !ok || decide (dist > res) then .inl ⟨ok, length, dist⟩ else .inr ⟨ok, length, dist⟩
  else if !ok then .inl ⟨ok, length, s.dist + grow⟩
  else .inr ⟨ok, length, s.dist⟩

/-- The search from a length. -/
def start (top : K) : WalkBack K := ⟨false, top, 0⟩

/-- How high the search may come before it has to walk back. -/
def ceiling (s : WalkBack K) : K := if s.ok then s.length + 2 * s.dist else s.length

variable {test : K → Bool} {res grow m top : K} {s s' r : WalkBack K}

/-- What a pass does that does not end the search. -/
theorem pass_inl (h : pass test res grow s = .inl s') :
    s'.ok = test s.next ∧ s'.length = s.next ∧
      (res < s.dist ∧ s'.dist = s.dist * (1 / 2) ∧ (s'.ok = true → res < s'.dist) ∨
        s.dist ≤ res ∧ s'.dist = s.dist + grow ∧ s'.ok = false) := by
  unfold pass at h
  dsimp only at h
  split_ifs at h with hdist hgo hok
  · cases h
    refine ⟨rfl, rfl, .inl ⟨hdist, rfl, fun htest => ?_⟩⟩
    have htest' : test s.next = true := htest
    rw [htest', Bool.not_true, Bool.false_or] at hgo
    exact of_decide_eq_true hgo
  · cases h
    exact ⟨rfl, rfl, .inr ⟨not_lt.mp hdist, rfl, by simpa using hok⟩⟩

/-- The search ends at a length that passes the test. -/
theorem pass_inr (h : pass test res grow s = .inr r) :
    r.ok = true ∧ r.length = s.next ∧ test r.length = true := by
  unfold pass at h
  dsimp only at h
  split_ifs at h with hdist hgo hok
  · cases h
    have htest : test s.next = true := by
      by_contra hn
      simp [hn] at hgo
    exact ⟨htest, rfl, htest⟩
  · cases h
    have htest : test s.next = true := by simpa using hok
    exact ⟨htest, rfl, htest⟩

/-- A length that passes the test at once ends the search. -/
theorem pass_start (hres : 0 ≤ res) (h : test top = true) :
    pass test res grow (start top) = .inr ⟨true, top, 0⟩ := by
  have hnext : (start top).next = top := sub_zero top
  unfold pass
  dsimp only
  rw [hnext, h]
  simp [start, hres.not_gt]

omit [LinearOrder K] in
theorem next_add_dist (s : WalkBack K) : s.next + s.dist = s.ceiling := by
  unfold next ceiling
  split_ifs <;> ring

/-- A search goes from one state to another. -/
def Passes (test : K → Bool) (res grow : K) : WalkBack K → WalkBack K → Prop :=
  Relation.ReflTransGen fun s s' => pass test res grow s = .inl s'

variable [IsStrictOrderedRing K]

/-- The steps are not longer than the largest one, and the search stays below its start. -/
structure Bounded (res grow top : K) (s : WalkBack K) : Prop where
  dist_nonneg : 0 ≤ s.dist
  dist_le : s.dist ≤ res + grow
  ceiling_le : s.ceiling ≤ top

theorem Bounded.next_le (h : Bounded res grow top s) : s.next ≤ top := by
  linarith [next_add_dist s, h.ceiling_le, h.dist_nonneg]

theorem bounded_start (hres : 0 ≤ res) (hgrow : 0 ≤ grow) : Bounded res grow top (start top) :=
  ⟨le_rfl, add_nonneg hres hgrow, le_rfl⟩

/-- A pass lowers the ceiling by a step that fails. -/
theorem ceiling_pass (h : pass test res grow s = .inl s') :
    s'.ok = true ∧ s'.ceiling = s.ceiling + 2 * s'.dist - s.dist ∨
      s'.ok = false ∧ s'.ceiling = s.ceiling - s.dist := by
  have hsum := next_add_dist s
  obtain ⟨-, hlength, -⟩ := pass_inl h
  cases htest : s'.ok with
  | true =>
    refine .inl ⟨rfl, ?_⟩
    rw [ceiling, if_pos htest, hlength]
    linarith
  | false =>
    refine .inr ⟨rfl, ?_⟩
    rw [ceiling, if_neg (Bool.eq_false_iff.mp htest), hlength]
    linarith

theorem Bounded.pass (hgrow : 0 ≤ grow) (hb : Bounded res grow top s)
    (h : WalkBack.pass test res grow s = .inl s') : Bounded res grow top s' := by
  obtain ⟨hnonneg, hle, htop⟩ := hb
  obtain ⟨-, -, ⟨-, hhalf, -⟩ | ⟨hlow, hgrown, hfail⟩⟩ := pass_inl h
  · refine ⟨by linarith, by linarith, ?_⟩
    rcases ceiling_pass h with ⟨-, hceiling⟩ | ⟨-, hceiling⟩
    · linarith
    · linarith
  · refine ⟨by linarith, by linarith, ?_⟩
    rcases ceiling_pass h with ⟨hok, -⟩ | ⟨-, hceiling⟩
    · rw [hfail] at hok
      cases hok
    · linarith

theorem Bounded.passes (hgrow : 0 ≤ grow) (hb : Bounded res grow top s)
    (h : Passes test res grow s s') : Bounded res grow top s' := by
  induction h with
  | refl => exact hb
  | tail _ hpass ih => exact ih.pass hgrow hpass

/-- A pass stays above a stretch of lengths that pass the test. -/
theorem Bounded.le_next (hgrow : 0 ≤ grow)
    (hstretch : ∀ l, m ≤ l → l ≤ top → l ≤ m + (res + grow) → test l = true)
    (hb : Bounded res grow top s) (hlow : m ≤ s.next)
    (h : WalkBack.pass test res grow s = .inl s') : m ≤ s'.next := by
  have hb' := hb.pass hgrow h
  obtain ⟨hok, hlength, -⟩ := pass_inl h
  cases htest : s'.ok with
  | true =>
    rw [next, if_pos htest, hlength]
    linarith [hb'.dist_nonneg]
  | false =>
    have habove : m + (res + grow) < s.next := by
      by_contra hn
      rw [hstretch s.next hlow hb.next_le (not_lt.mp hn), htest] at hok
      cases hok
    rw [next, if_neg (Bool.eq_false_iff.mp htest), hlength]
    linarith [hb'.dist_le]

theorem le_next_of_stretch (hres : 0 ≤ res) (hgrow : 0 ≤ grow) (hm : m ≤ top)
    (hstretch : ∀ l, m ≤ l → l ≤ top → l ≤ m + (res + grow) → test l = true)
    (h : Passes test res grow (start top) s) : m ≤ s.next := by
  induction h with
  | refl => exact hm.trans_eq (sub_zero top).symm
  | tail hpasses hpass ih =>
    exact ((bounded_start hres hgrow).passes hgrow hpasses).le_next hgrow hstretch ih hpass

section Energy

/-- What every pass takes from: the ceiling, and a share of the step. -/
def energy (share : K) (s : WalkBack K) : K := s.ceiling + share * s.dist

/-- With a step that is not too short, a pass takes at least a constant. -/
theorem energy_pass {c share : K} (hshare : 0 < share) (hgrow : share * grow ≤ c / 2)
    (hc : c ≤ s.dist) (hc0 : 0 ≤ c) (h : WalkBack.pass test res grow s = .inl s') :
    s'.energy share ≤ s.energy share - min (share * res / 2) (c / 2) := by
  have hmin := min_le_left (share * res / 2) (c / 2)
  have hmin' := min_le_right (share * res / 2) (c / 2)
  obtain ⟨-, -, ⟨hdist, hhalf, -⟩ | ⟨hdist, hgrown, hfail⟩⟩ := pass_inl h
  · have hprod : share * res < share * s.dist := mul_lt_mul_of_pos_left hdist hshare
    rw [energy, energy, hhalf]
    rcases ceiling_pass h with ⟨-, hceiling⟩ | ⟨-, hceiling⟩
    · rw [hhalf] at hceiling
      linarith
    · linarith
  · rw [energy, energy, hgrown, mul_add]
    rcases ceiling_pass h with ⟨hok, -⟩ | ⟨-, hceiling⟩
    · rw [hfail] at hok
      cases hok
    · linarith

/-- The step stays long enough. -/
theorem le_dist_pass {c : K} (hres : c ≤ res / 2) (hgrow : c ≤ grow) (hdist : 0 ≤ s.dist)
    (h : WalkBack.pass test res grow s = .inl s') : c ≤ s'.dist := by
  obtain ⟨-, -, ⟨hlt, hhalf, -⟩ | ⟨-, hgrown, -⟩⟩ := pass_inl h
  · linarith
  · linarith

/-- A search with enough energy left for some passes ends within them. -/
theorem returns_of_energy {c share e : K} (hshare : 0 < share)
    (hpass : ∀ s s', WalkBack.pass test res grow s = .inl s' → 0 ≤ s.dist → c ≤ s.dist →
      0 ≤ s'.dist ∧ c ≤ s'.dist ∧ s'.energy share ≤ s.energy share - e)
    (n : ℕ) (hstays : ∀ s', Passes test res grow s s' → m ≤ s'.next) (h0 : 0 ≤ s.dist)
    (hc : c ≤ s.dist) (hn : s.energy share - m < n * e) :
    Returns (WalkBack.pass test res grow) s := by
  induction n generalizing s with
  | zero =>
    have hprod := mul_nonneg hshare.le h0
    have hsum := next_add_dist s
    have hlow := hstays s .refl
    rw [energy, Nat.cast_zero, zero_mul] at hn
    linarith
  | succ n ih =>
    refine Returns.of_pass fun s' hs' => ?_
    obtain ⟨h0', hc', henergy⟩ := hpass s s' hs' h0 hc
    refine ih (fun t ht => hstays t (ht.head hs')) h0' hc' ?_
    rw [Nat.cast_succ, add_mul, one_mul] at hn
    linarith

end Energy

variable [Archimedean K]

/-- A search whose tries have a lower bound returns. -/
theorem returns_start (hres : 0 < res) (hgrow : 0 < grow)
    (hstays : ∀ s, Passes test res grow (start top) s → m ≤ s.next) :
    Returns (WalkBack.pass test res grow) (start top) := by
  obtain ⟨c, hcpos, hcres, hcgrow⟩ : ∃ c : K, 0 < c ∧ c ≤ res / 2 ∧ c ≤ grow :=
    ⟨min (res / 2) grow, lt_min (by linarith) hgrow, min_le_left _ _, min_le_right _ _⟩
  obtain ⟨share, hshare, hsharegrow⟩ : ∃ share : K, 0 < share ∧ share * grow ≤ c / 2 :=
    ⟨c / 2 / grow, by positivity, (div_mul_cancel₀ _ hgrow.ne').le⟩
  obtain ⟨e, he⟩ : ∃ e, e = min (share * res / 2) (c / 2) := ⟨_, rfl⟩
  have hepos : 0 < e := by
    rw [he]
    exact lt_min (by positivity) (by linarith)
  have hpass : ∀ s s', WalkBack.pass test res grow s = .inl s' → 0 ≤ s.dist → c ≤ s.dist →
      0 ≤ s'.dist ∧ c ≤ s'.dist ∧ s'.energy share ≤ s.energy share - e := by
    intro s s' h h0 hc
    have hc' := le_dist_pass hcres hcgrow h0 h
    rw [he]
    exact ⟨hcpos.le.trans hc', hc', energy_pass hshare hsharegrow hc hcpos.le h⟩
  -- the first step is zero, and the second one is long enough
  refine Returns.of_pass fun s' hs' => ?_
  have hc' : c ≤ s'.dist := le_dist_pass hcres hcgrow le_rfl hs'
  obtain ⟨n, hn⟩ := exists_nat_gt ((s'.energy share - m) / e)
  exact returns_of_energy hshare hpass n (fun t ht => hstays t (ht.head hs')) (hcpos.le.trans hc')
    hc' ((div_lt_iff₀ hepos).mp hn)

/-- A search whose tries have a lower bound ends at one that passes the test. -/
theorem exists_result (hres : 0 ≤ res) (hgrow : 0 < grow) (hmiddle : 0 < res ∨ test top = true)
    (hstays : ∀ s, Passes test res grow (start top) s → m ≤ s.next) :
    ∃ n r s, loop (WalkBack.pass test res grow) n (start top) = some r ∧ r.ok = true ∧
      Passes test res grow (start top) s ∧ r.length = s.next ∧ test s.next = true ∧
      s.next ≤ top := by
  have hreturns : Returns (WalkBack.pass test res grow) (start top) := by
    rcases hmiddle with hpos | htest
    · exact returns_start hpos hgrow hstays
    · exact .of_inr (pass_start hres htest)
  obtain ⟨n, r, hr⟩ := hreturns
  obtain ⟨s, hpasses, hlast⟩ : ∃ s, Passes test res grow (start top) s ∧
      WalkBack.pass test res grow s = .inr r :=
    loop_post (I := Passes test res grow (start top))
      (Q := fun r => ∃ s, Passes test res grow (start top) s ∧
        WalkBack.pass test res grow s = .inr r)
      (fun s s' h hpass => h.tail hpass) (fun s r h hpass => ⟨s, h, hpass⟩) .refl hr
  obtain ⟨hok, hlength, htest⟩ := pass_inr hlast
  exact ⟨n, r, s, hr, hok, hpasses, hlength, hlength ▸ htest,
    ((bounded_start hres hgrow.le).passes hgrow.le hpasses).next_le⟩

end WalkBack

end Transition
