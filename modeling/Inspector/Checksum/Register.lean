import Mathlib.Data.BitVec
import Mathlib.Data.FinEnum
import Mathlib.Data.Fintype.BigOperators
import Mathlib.Data.Nat.Prime.Basic
import Mathlib.Dynamics.PeriodicPts.Defs
import Mathlib.Logic.Function.Conjugate
import Mathlib.Tactic.NormNum.Prime

/-! # Shift registers

A register with feedback takes in a word bit by bit. What it holds in the end depends linearly on
what it held and on the word. So two words of one length that leave the same differ in more than
`w` places in a row, in an even number of places if the feedback has an odd number of bits, and
not in two places that are less than a period of the register apart.
-/

namespace Checksum

/-- A shift register of `w` bits with feedback. -/
structure Register (w : ℕ) where
  shift : BitVec w → BitVec w
  out : BitVec w → Bool
  feedback : BitVec w
  shift_xor : ∀ r s, shift (r ^^^ s) = shift r ^^^ shift s
  out_xor : ∀ r s, out (r ^^^ s) = (out r ^^ out s)
  eq_zero_of_shift : ∀ r, shift r = 0#w → out r = false → r = 0#w
  shift_ne_feedback : ∀ r, shift r ≠ feedback
  iterate_shift : ∀ r, shift^[w] r = 0#w

/-- The places at which two words differ. -/
def difference (l m : List Bool) : List Bool := List.zipWith xor l m

def parity : List Bool → Bool
  | [] => false
  | b :: l => b ^^ parity l

theorem parity_difference {l m : List Bool} (h : l.length = m.length) :
    parity (difference l m) = (parity l ^^ parity m) := by
  induction l generalizing m with
  | nil =>
    obtain rfl := List.eq_nil_of_length_eq_zero h.symm
    rfl
  | cons b l ih =>
    obtain ⟨c, m, rfl⟩ := List.exists_cons_of_length_eq_add_one h.symm
    simp only [difference, List.zipWith_cons_cons, parity] at ih ⊢
    rw [ih (Nat.succ.inj h)]
    cases b <;> cases c <;> simp

theorem parity_append (l m : List Bool) : parity (l ++ m) = (parity l ^^ parity m) := by
  induction l with
  | nil => simp [parity]
  | cons b l ih => simp [parity, ih]

theorem parity_eq_true_iff (l : List Bool) : parity l = true ↔ Odd (l.count true) := by
  induction l with
  | nil => simp [parity]
  | cons b l ih => cases b <;> simp [parity, ← ih, Nat.odd_add_one]

namespace Register

variable {w : ℕ} (M : Register w) {r s : BitVec w} {b c : Bool} {l m : List Bool}

/-- The register takes a bit in. -/
def step (r : BitVec w) (b : Bool) : BitVec w :=
  if (M.out r ^^ b) = true then M.shift r ^^^ M.feedback else M.shift r

/-- The register takes a word in. -/
def run (r : BitVec w) (l : List Bool) : BitVec w := l.foldl M.step r

/-- The bits that `n` shifts put out. -/
def bits : ℕ → BitVec w → List Bool
  | 0, _ => []
  | n + 1, r => M.out r :: bits n (M.shift r)

@[simp] theorem run_nil : M.run r [] = r := rfl

@[simp] theorem run_cons : M.run r (b :: l) = M.run (M.step r b) l := rfl

@[simp] theorem run_append : M.run r (l ++ m) = M.run (M.run r l) m := List.foldl_append

theorem step_xor (r s : BitVec w) (b c : Bool) :
    M.step (r ^^^ s) (b ^^ c) = M.step r b ^^^ M.step s c := by
  have hcancel : ∀ x y : BitVec w, x ^^^ y = x ^^^ M.feedback ^^^ (y ^^^ M.feedback) := by
    intro x y
    rw [BitVec.xor_assoc, ← BitVec.xor_assoc M.feedback, BitVec.xor_comm M.feedback,
      BitVec.xor_assoc y, BitVec.xor_self, BitVec.xor_zero]
  have hout : (M.out r ^^ M.out s ^^ (b ^^ c)) = ((M.out r ^^ b) ^^ (M.out s ^^ c)) := by
    cases b <;> cases c <;> simp
  simp only [step, M.shift_xor, M.out_xor, hout]
  cases M.out r ^^ b <;> cases M.out s ^^ c
  · rfl
  · exact BitVec.xor_assoc _ _ _
  · simp only [Bool.xor_false, if_true, Bool.false_eq_true, if_false]
    ac_rfl
  · exact hcancel _ _

/-- The contents in the end depend linearly on the first ones and on the word. -/
theorem run_difference (h : l.length = m.length) :
    M.run (r ^^^ s) (difference l m) = M.run r l ^^^ M.run s m := by
  induction l generalizing m r s with
  | nil =>
    obtain rfl := List.eq_nil_of_length_eq_zero h.symm
    rfl
  | cons b l ih =>
    obtain ⟨c, m, rfl⟩ := List.exists_cons_of_length_eq_add_one h.symm
    rw [difference, List.zipWith_cons_cons, run_cons, run_cons, run_cons, step_xor]
    exact ih (Nat.succ.inj h)

theorem eq_zero_of_step (h : M.step r false = 0#w) : r = 0#w := by
  unfold step at h
  split_ifs at h with hout
  · exact absurd (BitVec.xor_eq_zero_iff.mp h) (M.shift_ne_feedback r)
  · exact M.eq_zero_of_shift r h (by simpa using hout)

theorem step_injective (h : M.step r b = M.step s b) : r = s := by
  have hxor := M.step_xor r s b b
  rw [h, BitVec.xor_self, Bool.xor_self] at hxor
  exact BitVec.xor_eq_zero_iff.mp (M.eq_zero_of_step hxor)

/-- Nothing of what the register held is lost. -/
theorem run_injective (h : M.run r l = M.run s l) : r = s := by
  induction l generalizing r s with
  | nil => exact h
  | cons b l ih => exact M.step_injective (ih h)

@[simp] theorem length_bits (n : ℕ) (r : BitVec w) : (M.bits n r).length = n := by
  induction n generalizing r with
  | zero => rfl
  | succ n ih => simp [bits, ih]

/-- The bits that the register itself puts out clear it. -/
theorem run_bits (n : ℕ) (r : BitVec w) : M.run r (M.bits n r) = M.shift^[n] r := by
  induction n generalizing r with
  | zero => rfl
  | succ n ih => simp [bits, step, ih]

theorem run_bits_self (r : BitVec w) : M.run r (M.bits w r) = 0#w := by
  rw [run_bits, M.iterate_shift]

theorem run_replicate (n : ℕ) (r : BitVec w) :
    M.run r (List.replicate n false) = (M.step · false)^[n] r := by
  induction n generalizing r with
  | zero => rfl
  | succ n ih => rw [List.replicate_succ, run_cons, ih, Function.iterate_succ_apply]

theorem iterate_step_xor (n : ℕ) (r s : BitVec w) :
    (M.step · false)^[n] (r ^^^ s) = (M.step · false)^[n] r ^^^ (M.step · false)^[n] s := by
  have hzeros : difference (List.replicate n false) (List.replicate n false) =
      List.replicate n false := by
    simp [difference]
  rw [← run_replicate, ← run_replicate, ← run_replicate, ← M.run_difference rfl, hzeros]

/-- A word taken in bit by bit, or all at once. -/
theorem run_bits_eq_iterate {n : ℕ} (h : M.shift^[n] s = 0#w) :
    M.run r (M.bits n s) = (M.step · false)^[n] (r ^^^ s) := by
  have hself : difference (M.bits n s) (M.bits n s) = List.replicate n false := by
    simp [difference, List.zipWith_self, List.map_const']
  have hrun := M.run_difference (r := r) (s := s) (l := M.bits n s) rfl
  rw [hself, run_replicate, run_bits, h, BitVec.xor_zero] at hrun
  exact hrun.symm

theorem bits_injective (h : M.bits w r = M.bits w s) : r = s := by
  refine M.run_injective (l := M.bits w r) ?_
  rw [run_bits_self, h, run_bits_self]

theorem exists_bits (h : l.length = w) : ∃ r, M.bits w r = l := by
  let f : BitVec w → List.Vector Bool w := fun r => ⟨M.bits w r, M.length_bits w r⟩
  have hf : Function.Bijective f := by
    rw [Fintype.bijective_iff_injective_and_card]
    refine ⟨fun r s hrs => M.bits_injective (congrArg Subtype.val hrs), ?_⟩
    rw [Fintype.card_congr BitVec.equivFin.toEquiv, Fintype.card_fin, card_vector,
      Fintype.card_bool]
  obtain ⟨r, hr⟩ := hf.2 ⟨l, h⟩
  exact ⟨r, congrArg Subtype.val hr⟩

/-- Only its own bits clear the register. -/
theorem run_eq_zero_iff (h : l.length = w) : M.run r l = 0#w ↔ l = M.bits w r := by
  constructor
  · intro hrun
    obtain ⟨s, rfl⟩ := M.exists_bits h
    rw [← M.run_bits_self s] at hrun
    rw [M.run_injective hrun]
  · rintro rfl
    exact M.run_bits_self r

theorem out_zero : M.out 0#w = false := by
  have h := M.out_xor 0#w 0#w
  rwa [BitVec.xor_self, Bool.xor_self] at h

theorem shift_zero : M.shift 0#w = 0#w := by
  have h := M.shift_xor 0#w 0#w
  rwa [BitVec.xor_self, BitVec.xor_self] at h

theorem step_zero_true : M.step 0#w true = M.feedback := by
  simp [step, M.out_zero, M.shift_zero]

theorem step_true (r : BitVec w) : M.step r true = M.step r false ^^^ M.feedback := by
  have h := M.step_xor r 0#w false true
  rwa [BitVec.xor_zero, step_zero_true] at h

theorem run_zero_replicate (n : ℕ) : M.run 0#w (List.replicate n false) = 0#w := by
  have hfix : M.step 0#w false = 0#w := by simp [step, M.out_zero, M.shift_zero]
  rw [run_replicate, Function.iterate_fixed hfix]

/-! ### Errors in a row -/

theorem eq_replicate_of_run (h : l.length ≤ w) (hrun : M.run 0#w l = 0#w) :
    l = List.replicate l.length false := by
  have hpad : M.run 0#w (l ++ List.replicate (w - l.length) false) = 0#w := by
    rw [run_append, hrun, run_zero_replicate]
  rw [M.run_eq_zero_iff (by simp [h]),
    ← (M.run_eq_zero_iff (by simp)).mp (M.run_zero_replicate w)] at hpad
  refine List.eq_replicate_iff.mpr ⟨rfl, fun b hb => ?_⟩
  exact List.eq_of_mem_replicate (hpad ▸ List.mem_append_left _ hb)

theorem eq_of_difference {l m : List Bool} (h : l.length = m.length)
    (hd : difference l m = List.replicate l.length false) : l = m := by
  induction l generalizing m with
  | nil => exact (List.eq_nil_of_length_eq_zero h.symm).symm
  | cons b l ih =>
    obtain ⟨c, m, rfl⟩ := List.exists_cons_of_length_eq_add_one h.symm
    simp only [difference, List.zipWith_cons_cons, List.length_cons, List.replicate_succ,
      List.cons.injEq] at hd ih
    have hbc : b = c := by simpa using hd.1
    rw [ih (Nat.succ.inj h) hd.2, hbc]

/-- Words that differ in at most `w` places in a row. -/
theorem eq_of_run_eq_of_window {a c x y : List Bool} (hlen : x.length = y.length)
    (hw : x.length ≤ w) (h : M.run r (a ++ x ++ c) = M.run r (a ++ y ++ c)) : x = y := by
  simp only [run_append] at h
  have hrun := M.run_injective h
  have hdiff := M.run_difference (r := M.run r a) (s := M.run r a) hlen
  rw [hrun, BitVec.xor_self, BitVec.xor_self] at hdiff
  have hlength : (difference x y).length = x.length := by simp [difference, hlen]
  have hzero := M.eq_replicate_of_run (hlength.trans_le hw) hdiff
  rw [hlength] at hzero
  exact eq_of_difference hlen hzero

/-! ### Parity -/

theorem bits_xor (n : ℕ) (r s : BitVec w) :
    M.bits n (r ^^^ s) = difference (M.bits n r) (M.bits n s) := by
  induction n generalizing r s with
  | zero => rfl
  | succ n ih => simp [bits, M.out_xor, M.shift_xor, ih, difference]

theorem bits_succ (n : ℕ) (r : BitVec w) :
    M.bits (n + 1) r = M.bits n r ++ [M.out (M.shift^[n] r)] := by
  induction n generalizing r with
  | zero => rfl
  | succ n ih => rw [bits, ih, bits, List.cons_append, Function.iterate_succ_apply]

theorem parity_bits_shift (r : BitVec w) :
    parity (M.bits w (M.shift r)) = (M.out r ^^ parity (M.bits w r)) := by
  have h : parity (M.out r :: M.bits w (M.shift r)) = parity (M.bits w r) := by
    have hbits := M.bits_succ w r
    rw [M.iterate_shift, M.out_zero, bits] at hbits
    rw [hbits, parity_append]
    simp [parity]
  rw [← h, parity]
  simp

/-- The feedback has an odd number of bits. -/
def OddFeedback : Prop := parity (M.bits w M.feedback) = true

theorem parity_step (hodd : M.OddFeedback) (r : BitVec w) (b : Bool) :
    parity (M.bits w (M.step r b)) = (parity (M.bits w r) ^^ b) := by
  unfold step
  split_ifs with hout
  · rw [bits_xor, parity_difference (by simp), hodd, parity_bits_shift]
    cases hr : M.out r <;> cases b <;> simp_all
  · rw [parity_bits_shift]
    cases hr : M.out r <;> cases b <;> simp_all

theorem parity_run (hodd : M.OddFeedback) (r : BitVec w) (l : List Bool) :
    parity (M.bits w (M.run r l)) = (parity (M.bits w r) ^^ parity l) := by
  induction l generalizing r with
  | nil => simp [parity]
  | cons b l ih => rw [run_cons, ih, M.parity_step hodd, parity, Bool.xor_assoc]

/-- Words that leave the same differ in an even number of places. -/
theorem not_odd_of_run_eq (hodd : M.OddFeedback) (hlen : l.length = m.length)
    (h : M.run r l = M.run r m) : ¬Odd ((difference l m).count true) := by
  have hl := M.parity_run hodd r l
  rw [h, M.parity_run hodd, Bool.xor_right_inj] at hl
  rw [← parity_eq_true_iff, parity_difference hlen, hl]
  simp

/-! ### Errors in two places -/

/-- The contents that come back after a period. -/
noncomputable def period : ℕ := Function.minimalPeriod (M.step · false) M.feedback

theorem exists_first {n : ℕ} (h : l.count true = n + 1) :
    ∃ k m, l = List.replicate k false ++ true :: m ∧ m.count true = n := by
  induction l with
  | nil => simp at h
  | cons b l ih =>
    cases b with
    | true => exact ⟨0, l, rfl, by simpa using h⟩
    | false =>
      obtain ⟨k, m, rfl, hm⟩ := ih (by simpa using h)
      exact ⟨k + 1, m, rfl, hm⟩

theorem eq_replicate_of_count (h : l.count true = 0) : l = List.replicate l.length false := by
  refine List.eq_replicate_iff.mpr ⟨rfl, fun b hb => ?_⟩
  cases b with
  | false => rfl
  | true => exact absurd hb (List.count_eq_zero.mp h)

theorem run_two (j k n : ℕ) (h : M.run 0#w (List.replicate j false ++ true ::
      (List.replicate k false ++ true :: List.replicate n false)) = 0#w) :
    (M.step · false)^[k + 1] M.feedback = M.feedback := by
  rw [run_append, run_zero_replicate, run_cons, step_zero_true, run_append, run_replicate, run_cons,
    step_true, ← M.run_zero_replicate n] at h
  have hxor := M.run_injective h
  rw [Function.iterate_succ_apply']
  exact BitVec.xor_eq_zero_iff.mp hxor

/-- Words no longer than the period do not differ in two places. -/
theorem count_ne_two_of_run_eq (hlen : l.length = m.length) (hperiod : l.length ≤ M.period)
    (h : M.run r l = M.run r m) : (difference l m).count true ≠ 2 := by
  intro hcount
  have hdiff := M.run_difference (r := r) (s := r) hlen
  rw [h, BitVec.xor_self, BitVec.xor_self] at hdiff
  have hlength : (difference l m).length = l.length := by simp [difference, hlen]
  obtain ⟨j, l₁, hl₁, hcount₁⟩ := exists_first hcount
  obtain ⟨k, l₂, hl₂, hcount₂⟩ := exists_first hcount₁
  rw [hl₁, hl₂, eq_replicate_of_count hcount₂] at hdiff
  have hle : M.period ≤ k + 1 :=
    Function.IsPeriodicPt.minimalPeriod_le k.succ_pos (M.run_two j k l₂.length hdiff)
  rw [hl₁, hl₂] at hlength
  simp only [List.length_append, List.length_cons, List.length_replicate] at hlength
  omega

/-- Errors that a register finds in words of up to `n` bits. -/
inductive Detectable (w n : ℕ) (l m : List Bool) : Prop
  | window (a x y c : List Bool) (hl : l = a ++ x ++ c) (hm : m = a ++ y ++ c)
      (hlen : x.length = y.length) (hw : x.length ≤ w) (hne : x ≠ y)
  | odd (hlen : l.length = m.length) (h : Odd ((difference l m).count true))
  | two (hlen : l.length = m.length) (h : (difference l m).count true = 2) (hn : l.length ≤ n)

theorem run_ne_of_detectable (hodd : M.OddFeedback) (h : Detectable w M.period l m) :
    M.run r l ≠ M.run r m := by
  intro hrun
  cases h with
  | window a x y c hl hm hlen hw hne =>
    subst hl hm
    exact hne (M.eq_of_run_eq_of_window hlen hw hrun)
  | odd hlen h => exact M.not_odd_of_run_eq hodd hlen hrun h
  | two hlen h hn => exact M.count_ne_two_of_run_eq hlen hn hrun h

/-! ### Registers of both directions -/

theorem iterate_ushiftRight (n : ℕ) (r : BitVec w) : (fun r : BitVec w => r >>> 1)^[n] r = r >>> n := by
  induction n with
  | zero => simp
  | succ n ih => rw [Function.iterate_succ_apply', ih, BitVec.shiftRight_add]

theorem iterate_shiftLeft (n : ℕ) (r : BitVec w) : (fun r : BitVec w => r <<< 1)^[n] r = r <<< n := by
  induction n with
  | zero => simp
  | succ n ih => rw [Function.iterate_succ_apply', ih, BitVec.shiftLeft_add]

/-- Bits come out at the low end. -/
def lsbFirst (p : BitVec w) (hp : p.msb = true) : Register w where
  shift r := r >>> 1
  out r := r.getLsbD 0
  feedback := p
  shift_xor r s := BitVec.ushiftRight_xor_distrib r s 1
  out_xor r s := BitVec.getLsbD_xor
  eq_zero_of_shift := by
    intro r hshift hout
    refine BitVec.eq_of_getLsbD_eq fun i hi => ?_
    cases i with
    | zero => simpa using hout
    | succ i =>
      have hbit := congrArg (·.getLsbD i) hshift
      simpa [Nat.add_comm] using hbit
  shift_ne_feedback := by
    rintro r rfl
    rw [BitVec.msb_eq_getLsbD_last, BitVec.getLsbD_ushiftRight,
      BitVec.getLsbD_of_ge _ _ (by omega)] at hp
    exact absurd hp (by simp)
  iterate_shift r := by rw [iterate_ushiftRight, BitVec.ushiftRight_eq_zero (Nat.le_refl w)]

/-- Bits come out at the high end. -/
def msbFirst (p : BitVec w) (hp : p.getLsbD 0 = true) : Register w where
  shift r := r <<< 1
  out r := r.msb
  feedback := p
  shift_xor r s := BitVec.shiftLeft_xor_distrib r s 1
  out_xor r s := BitVec.msb_xor
  eq_zero_of_shift := by
    intro r hshift hout
    refine BitVec.eq_of_getLsbD_eq fun i hi => ?_
    by_cases hlast : i = w - 1
    · rw [hlast, ← BitVec.msb_eq_getLsbD_last]
      simpa using hout
    · have hbit := congrArg (·.getLsbD (i + 1)) hshift
      simp only [BitVec.getLsbD_shiftLeft, BitVec.getLsbD_zero] at hbit
      simpa [show i + 1 < w by omega] using hbit
  shift_ne_feedback := by
    rintro r rfl
    simp at hp
  iterate_shift r := by rw [iterate_shiftLeft, BitVec.shiftLeft_eq_zero (Nat.le_refl w)]

theorem bits_lsbFirst {p : BitVec w} (hp : p.msb = true) (n : ℕ) (r : BitVec w) :
    (lsbFirst p hp).bits n r = (List.range n).map r.getLsbD := by
  induction n generalizing r with
  | zero => rfl
  | succ n ih =>
    rw [bits, ih, List.range_succ_eq_map, List.map_cons, List.map_map]
    refine congrArg _ (List.map_congr_left fun i _ => ?_)
    simp [lsbFirst, Nat.add_comm]

theorem bits_msbFirst {p : BitVec w} (hp : p.getLsbD 0 = true) (n : ℕ) (r : BitVec w) :
    (msbFirst p hp).bits n r = (List.range n).map r.getMsbD := by
  induction n generalizing r with
  | zero => rfl
  | succ n ih =>
    rw [bits, ih, List.range_succ_eq_map, List.map_cons, List.map_map]
    refine congrArg₂ _ ?_ (List.map_congr_left fun i _ => ?_)
    · simp [msbFirst, BitVec.msb]
    · simp [msbFirst]

end Register

/-! ### Periods -/

/-- A function of numbers, applied many times. The match has the number evaluated each time. -/
def times (f : ℕ → ℕ) : ℕ → ℕ → ℕ
  | 0, x => x
  | n + 1, 0 => times f n (f 0)
  | n + 1, x + 1 => times f n (f (x + 1))

theorem times_eq_iterate (f : ℕ → ℕ) (n x : ℕ) : times f n x = f^[n] x := by
  induction n generalizing x with
  | zero => simp [times]
  | succ n ih => cases x <;> rw [times, ih, Function.iterate_succ_apply]

theorem times_times (f : ℕ → ℕ) (m n x : ℕ) : times (times f m) n x = f^[m * n] x := by
  rw [times_eq_iterate, Function.iterate_mul]
  congr 2
  exact funext fun y => times_eq_iterate f m y

/-- A period of which no part by a prime is one. -/
theorem minimalPeriod_eq_of_prime {α : Type*} {f : α → α} {x : α} {n : ℕ}
    (hn : Function.IsPeriodicPt f n x)
    (hprime : ∀ p, p.Prime → p ∣ n → ¬Function.IsPeriodicPt f (n / p) x) :
    Function.minimalPeriod f x = n := by
  obtain ⟨k, hk⟩ := hn.minimalPeriod_dvd
  by_contra hne
  have hk1 : k ≠ 1 := by
    rintro rfl
    exact hne (by rw [hk, mul_one])
  obtain ⟨p, hp, j, rfl⟩ := Nat.exists_prime_and_dvd hk1
  have hpart : n = Function.minimalPeriod f x * j * p := by rw [hk]; ac_rfl
  refine hprime p hp ⟨_, hpart.trans (Nat.mul_comm _ _)⟩ ?_
  rw [Function.isPeriodicPt_iff_minimalPeriod_dvd]
  exact ⟨j, Nat.div_eq_of_eq_mul_left hp.pos hpart⟩

theorem eq_of_prime_dvd {p : ℕ} (hp : p.Prime) (h : p ∣ 32767) : p = 7 ∨ p = 31 ∨ p = 151 := by
  have h7 : Nat.Prime 7 := by norm_num
  have h31 : Nat.Prime 31 := by norm_num
  have h151 : Nat.Prime 151 := by norm_num
  rw [show 32767 = 7 * 31 * 151 from rfl, hp.dvd_mul, hp.dvd_mul, Nat.prime_dvd_prime_iff_eq hp h7,
    Nat.prime_dvd_prime_iff_eq hp h31, Nat.prime_dvd_prime_iff_eq hp h151] at h
  tauto

/-- The period of a register whose steps are those of a function of numbers. -/
theorem Register.period_eq {w : ℕ} (M : Register w) {f : ℕ → ℕ}
    (hf : ∀ r, (M.step r false).toNat = f r.toNat)
    (h : times (times f 217) 151 M.feedback.toNat = M.feedback.toNat)
    (h7 : times (times f 31) 151 M.feedback.toNat ≠ M.feedback.toNat)
    (h31 : times (times f 7) 151 M.feedback.toNat ≠ M.feedback.toNat)
    (h151 : times (times f 7) 31 M.feedback.toNat ≠ M.feedback.toNat) : M.period = 32767 := by
  have hiff : ∀ n, Function.IsPeriodicPt (M.step · false) n M.feedback ↔
      f^[n] M.feedback.toNat = M.feedback.toNat := by
    intro n
    have hn : Function.Semiconj BitVec.toNat (M.step · false)^[n] f^[n] :=
      Function.Semiconj.iterate_right hf n
    rw [← hn.eq, BitVec.toNat_inj]
    rfl
  rw [times_times] at h h7 h31 h151
  refine minimalPeriod_eq_of_prime ((hiff _).mpr h) fun p hp hdvd => ?_
  rw [hiff]
  obtain rfl | rfl | rfl := eq_of_prime_dvd hp hdvd
  · exact h7
  · exact h31
  · exact h151

end Checksum
