import Mathlib.Algebra.BigOperators.Group.List.Basic
import Mathlib.Algebra.Order.Group.Nat
import Mathlib.Algebra.GroupWithZero.Nat

/-! # Bresenham counters

A counter of machine words is advanced by a list of increments and gives a pulse each time it
passes the event count. As long as no sum overflows, counter and pulses together account for the
increments; the number of pulses is the intended one exactly when no sum overflows.
-/

namespace Bresenham

variable (M E : ℕ)

/-- One increment of a counter with words below `M`: the new counter and the pulses given. -/
def bump (c s : ℕ) : ℕ × ℕ :=
  if E < (c + s) % M then ((c + s) % M - E, 1) else ((c + s) % M, 0)

/-- The counter and the number of pulses after a list of increments. -/
def trace : ℕ → List ℕ → ℕ × ℕ
  | c, [] => (c, 0)
  | c, s :: ss =>
    ((trace (bump M E c s).1 ss).1, (bump M E c s).2 + (trace (bump M E c s).1 ss).2)

/-- No increment overflows the word. -/
def Fits : ℕ → List ℕ → Prop
  | _, [] => True
  | c, s :: ss => c + s < M ∧ Fits (bump M E c s).1 ss

variable {M E} {c s n B : ℕ} {ss ts : List ℕ}

theorem bump_conserve (h : c + s < M) : (bump M E c s).1 + E * (bump M E c s).2 = c + s := by
  unfold bump
  rw [Nat.mod_eq_of_lt h]
  split_ifs <;> omega

theorem bump_pos (hc : 0 < c) (h : c + s < M) : 0 < (bump M E c s).1 := by
  unfold bump
  rw [Nat.mod_eq_of_lt h]
  split_ifs <;> omega

theorem bump_le (hc : c ≤ E) (hs : s ≤ E) : (bump M E c s).1 ≤ E := by
  have := Nat.mod_le (c + s) M
  unfold bump
  split_ifs <;> omega

/-- An increment by the event count itself gives a pulse and leaves the counter alone. -/
theorem bump_self (hc : 0 < c) (h : c + E < M) : bump M E c E = (c, 1) := by
  unfold bump
  rw [Nat.mod_eq_of_lt h, if_pos (by omega)]
  simp

@[simp] theorem trace_nil : trace M E c [] = (c, 0) := rfl

theorem trace_append : trace M E c (ss ++ ts) =
    ((trace M E (trace M E c ss).1 ts).1,
      (trace M E c ss).2 + (trace M E (trace M E c ss).1 ts).2) := by
  induction ss generalizing c with
  | nil => simp
  | cons s ss ih => simp [trace, ih, Nat.add_assoc]

theorem fits_append :
    Fits M E c (ss ++ ts) ↔ Fits M E c ss ∧ Fits M E (trace M E c ss).1 ts := by
  induction ss generalizing c with
  | nil => simp [Fits]
  | cons s ss ih => simp [Fits, trace, ih, and_assoc]

theorem Fits.lt {j : ℕ} (h : Fits M E c ss) (hj : ss[j]? = some s) :
    (trace M E c (ss.take j)).1 + s < M := by
  induction j generalizing c ss with
  | zero =>
    cases ss with
    | nil => cases hj
    | cons t ts =>
      cases hj
      exact h.1
  | succ j ih =>
    cases ss with
    | nil => cases hj
    | cons t ts => exact ih h.2 hj

theorem trace_conserve (h : Fits M E c ss) :
    (trace M E c ss).1 + E * (trace M E c ss).2 = c + ss.sum := by
  induction ss generalizing c with
  | nil => simp
  | cons s ss ih =>
    obtain ⟨hs, h⟩ := h
    have hb := bump_conserve (E := E) hs
    have := ih h
    simp only [trace, List.sum_cons, Nat.mul_add]
    omega

theorem trace_pos (hc : 0 < c) (h : Fits M E c ss) : 0 < (trace M E c ss).1 := by
  induction ss generalizing c with
  | nil => exact hc
  | cons s ss ih => exact ih (bump_pos hc h.1) h.2

theorem trace_le (hc : c ≤ E) (hss : ∀ s ∈ ss, s ≤ E) : (trace M E c ss).1 ≤ E := by
  induction ss generalizing c with
  | nil => exact hc
  | cons s ss ih =>
    rw [List.forall_mem_cons] at hss
    exact ih (bump_le hc hss.1) hss.2

/-- The increments make up `n` times the event count: there are `n` pulses, and the counter is back
where it was. -/
theorem trace_eq (hpos : 0 < c) (hc : c ≤ E) (hss : ∀ s ∈ ss, s ≤ E) (h : Fits M E c ss)
    (hsum : ss.sum = E * n) : trace M E c ss = (c, n) := by
  have hcon := trace_conserve h
  have hp := trace_pos hpos h
  have hle := trace_le (M := M) hc hss
  rw [hsum] at hcon
  have hn : (trace M E c ss).2 = n := by
    rcases lt_trichotomy (trace M E c ss).2 n with hlt | heq | hgt
    · have := Nat.mul_le_mul_left E (Nat.succ_le_of_lt hlt)
      rw [Nat.mul_succ] at this
      omega
    · exact heq
    · have := Nat.mul_le_mul_left E (Nat.succ_le_of_lt hgt)
      rw [Nat.mul_succ] at this
      omega
  rw [hn] at hcon
  ext
  · simpa using hcon
  · exact hn

/-- What overflows is lost in multiples of the word. -/
theorem bump_overflow (hM : 0 < M) (E c s : ℕ) : ∃ o,
    (bump M E c s).1 + E * (bump M E c s).2 + M * o = c + s ∧ (o = 0 → c + s < M) := by
  refine ⟨(c + s) / M, ?_, (Nat.div_eq_zero_iff_lt hM).mp⟩
  have := Nat.mod_add_div (c + s) M
  unfold bump
  split_ifs <;> omega

theorem trace_overflow (hM : 0 < M) (E c : ℕ) (ss : List ℕ) : ∃ o,
    (trace M E c ss).1 + E * (trace M E c ss).2 + M * o = c + ss.sum ∧
      (o = 0 → Fits M E c ss) := by
  induction ss generalizing c with
  | nil => exact ⟨0, by simp, fun _ => trivial⟩
  | cons s ss ih =>
    obtain ⟨o, ho, hlt⟩ := bump_overflow hM E c s
    obtain ⟨o', ho', hfit⟩ := ih (bump M E c s).1
    refine ⟨o + o', ?_, ?_⟩
    · simp only [trace, List.sum_cons, Nat.mul_add]
      omega
    · intro h0
      exact ⟨hlt (by omega), hfit (by omega)⟩

/-- When the increments make up `n` times the event count, there are `n` pulses exactly when no
sum overflows. -/
theorem pulses_eq_iff (hpos : 0 < c) (hc : c ≤ E) (hM : c < M) (hss : ∀ s ∈ ss, s ≤ E)
    (hsum : ss.sum = E * n) : (trace M E c ss).2 = n ↔ Fits M E c ss := by
  constructor
  · intro hn
    obtain ⟨o, ho, hfit⟩ := trace_overflow (Nat.zero_lt_of_lt hM) E c ss
    rw [hn, hsum] at ho
    apply hfit
    rcases Nat.eq_zero_or_pos o with rfl | hpos
    · rfl
    · have := Nat.le_mul_of_pos_right M hpos
      omega
  · intro h
    rw [trace_eq hpos hc hss h hsum]

theorem fits_of_le (hc : c ≤ E) (hss : ∀ s ∈ ss, s ≤ B) (hB : B ≤ E) (hM : E + B < M) :
    Fits M E c ss := by
  induction ss generalizing c with
  | nil => trivial
  | cons s ss ih =>
    rw [List.forall_mem_cons] at hss
    have hlt : c + s < M := by omega
    exact ⟨hlt, ih (bump_le hc (Nat.le_trans hss.1 hB)) hss.2⟩

theorem fits_replicate (hc : 0 < c) (h : c + E < M) : Fits M E c (List.replicate n E) := by
  induction n with
  | zero => trivial
  | succ n ih =>
    refine ⟨h, ?_⟩
    rwa [bump_self hc h]

end Bresenham
