import Inspector.NutsBolts.FloatText
import Mathlib.Tactic.Linarith
import Mathlib.Tactic.Positivity

/-! # Pulse width modulation

`spindle_control.c` and `ioports.c` each convert an input to a compare value. The two copies differ
when the output is inverted: one subtracts from the period, the other one takes one more away, which
leaves nothing for a value as large as the period. Values are of the width of a register. Floats are
exact, and the conversion to an integer is known when the result fits. The overdrive of a laser,
which the value does not depend on, is left out.
-/

namespace Inspector

namespace Pwm

variable {K : Type*} [Field K] [LinearOrder K] [FloorRing K]

/-- The difference of two registers. -/
def sub32 (a b : ℕ) : ℕ := (a + (2 ^ 32 - b)) % 2 ^ 32

/-- A percentage of the period. -/
def percentOf (conv : ToUint32 K) (period : ℕ) (percent : K) : ℕ :=
  conv.toFun (period * percent / 100)

/-- `spindle_pwm_settings_t`, with percentages in their order and a maximum above the minimum. -/
structure SpindlePwmSettings (K : Type*) [Field K] [LinearOrder K] where
  rpmMin : K
  rpmMax : K
  pwmFreq : K
  pwmOffValue : K
  pwmMinValue : K
  pwmMaxValue : K
  rpm_lt : rpmMin < rpmMax
  off_nonneg : 0 ≤ pwmOffValue
  off_le : pwmOffValue ≤ 100
  min_nonneg : 0 ≤ pwmMinValue
  min_le_max : pwmMinValue ≤ pwmMaxValue
  max_le : pwmMaxValue ≤ 100

/-- `spindle_pwm_t`, without a linearisation. -/
structure SpindlePwm (K : Type*) where
  period : ℕ
  offValue : ℕ
  minValue : ℕ
  maxValue : ℕ
  invertPwm : Bool
  rpmMin : K
  pwmGradient : K

/-- The value that is linear in the input between the least and the greatest one. A value from
`limit` on is replaced by `top`. -/
def scaled (conv : ToUint32 K) (low gradient : K) (minValue limit top : ℕ) (x : K) : ℕ :=
  let value := (conv.toFun (⌊(x - low) * gradient⌋ : K) + minValue) % 2 ^ 32
  if limit ≤ value then top else if value < minValue then minValue else value

namespace SpindlePwm

/-- `invert_pwm` of `spindle_control.c`. -/
def invert (d : SpindlePwm K) (value : ℕ) : ℕ :=
  if d.invertPwm then sub32 d.period value else value

/-- `spindle_precompute_pwm_values`, with an offset of zero. -/
def precompute (conv : ToUint32 K) (s : SpindlePwmSettings K) (invertPwm : Bool) (clockHz : ℕ) :
    SpindlePwm K :=
  let period := conv.toFun (clockHz / s.pwmFreq)
  let offValue :=
    if s.pwmOffValue = 0 then if invertPwm then period else 0
    else if invertPwm then sub32 period (percentOf conv period s.pwmOffValue)
    else percentOf conv period s.pwmOffValue
  let maxValue := percentOf conv period s.pwmMaxValue
  let minValue :=
    if percentOf conv period s.pwmMinValue = 0 ∧ 0 < s.rpmMin then
      conv.toFun (maxValue * (4 / 1000))
    else percentOf conv period s.pwmMinValue
  { period := period
    offValue := offValue
    minValue := minValue
    maxValue := maxValue
    invertPwm := invertPwm
    rpmMin := s.rpmMin
    pwmGradient := (sub32 maxValue minValue : ℕ) / (s.rpmMax - s.rpmMin) }

/-- `spindle_compute_pwm_value`. -/
def compute (conv : ToUint32 K) (d : SpindlePwm K) (rpm : K) (pidLimit : Bool) : ℕ :=
  if d.rpmMin < rpm then
    d.invert (if pidLimit then
        scaled conv d.rpmMin d.pwmGradient d.minValue d.period (sub32 d.period 1) rpm
      else scaled conv d.rpmMin d.pwmGradient d.minValue d.maxValue d.maxValue rpm)
  else if rpm = 0 then d.offValue
  else d.invert d.minValue

end SpindlePwm

/-- `pwm_config_t`, with percentages in their order and a maximum above the minimum. -/
structure PwmConfig (K : Type*) [Field K] [LinearOrder K] where
  freqHz : K
  min : K
  max : K
  offValue : K
  minValue : K
  maxValue : K
  servoMode : Bool
  min_lt_max : min < max
  off_le : offValue ≤ 100
  min_nonneg : 0 ≤ minValue
  min_le_max : minValue ≤ maxValue
  max_le : maxValue ≤ 100

/-- `ioports_pwm_t`. -/
structure IoportsPwm (K : Type*) where
  period : ℕ
  offValue : ℕ
  minValue : ℕ
  maxValue : ℕ
  min : K
  pwmGradient : K
  invertPwm : Bool

namespace IoportsPwm

/-- `invert_pwm` of `ioports.c`. -/
def invert (d : IoportsPwm K) (value : ℕ) : ℕ :=
  if d.invertPwm then sub32 (sub32 d.period value) 1 else value

/-- `ioports_precompute_pwm_values`. -/
def precompute (conv : ToUint32 K) (c : PwmConfig K) (invertPwm : Bool) (clockHz : ℕ) :
    IoportsPwm K :=
  let period := conv.toFun (clockHz / c.freqHz)
  let minValue := percentOf conv period c.minValue
  let maxValue := percentOf conv period c.maxValue
  let offValue :=
    if c.offValue = 0 then if invertPwm then period else 0
    else if c.servoMode = false ∧ 0 < c.offValue then
      if invertPwm then sub32 (sub32 period (percentOf conv period c.offValue)) 1
      else percentOf conv period c.offValue
    else minValue
  { period := period
    offValue := offValue
    minValue := minValue
    maxValue := maxValue
    min := c.min
    pwmGradient := (sub32 maxValue minValue : ℕ) / (c.max - c.min)
    invertPwm := invertPwm }

/-- `ioports_compute_pwm_value`. -/
def compute (conv : ToUint32 K) (d : IoportsPwm K) (value : K) : ℕ :=
  if d.min < value then
    d.invert (scaled conv d.min d.pwmGradient d.minValue d.maxValue d.maxValue value)
  else if value = 0 then d.offValue
  else d.invert d.minValue

end IoportsPwm

/-- The scaled input fits in a register. -/
def Fits (low gradient : K) (minValue : ℕ) (x : K) : Prop :=
  low < x → ⌊(x - low) * gradient⌋₊ + minValue < 2 ^ 32

/-- What a conversion is to do. -/
structure Converts (high : K) (fits : K → Prop) (period minValue maxValue : ℕ) (inverted : Bool)
    (result : K → ℕ) : Prop where
  le_period : ∀ x, result x ≤ period
  mono : inverted = false → ∀ x y, 0 < x → x ≤ y → fits y → result x ≤ result y
  within : inverted = false → ∀ x, 0 < x → minValue ≤ result x ∧ result x ≤ maxValue
  top : inverted = false → ∀ x, high ≤ x → fits x → result x = maxValue
  anti : inverted = true → ∀ x y, 0 < x → x ≤ y → fits y → result y ≤ result x

section Register

variable {a b : ℕ}

theorem sub32_of_le (h : b ≤ a) (ha : a < 2 ^ 32) : sub32 a b = a - b := by
  unfold sub32
  omega

theorem sub32_sub32_of_lt (h : b < a) (ha : a < 2 ^ 32) : sub32 (sub32 a b) 1 = a - b - 1 := by
  rw [sub32_of_le h.le ha, sub32_of_le (by omega) (by omega)]

/-- Nothing is left of the period. -/
theorem sub32_sub32_self (ha : a < 2 ^ 32) : sub32 (sub32 a a) 1 = 2 ^ 32 - 1 := by
  rw [sub32_of_le le_rfl ha, Nat.sub_self]
  rfl

theorem sub32_lt (a b : ℕ) : sub32 a b < 2 ^ 32 := Nat.mod_lt _ (by decide)

end Register

variable [IsStrictOrderedRing K] {conv : ToUint32 K}

section Percent

variable {period : ℕ} {p q : K}

theorem percent_lt (hperiod : period < 2 ^ 32) (hp : p ≤ 100) :
    (period * p / 100 : K) < 2 ^ 32 := by
  have hcast : (period : K) < 2 ^ 32 := by exact_mod_cast hperiod
  have hle : (period * p / 100 : K) ≤ period := by
    rw [div_le_iff₀ (by norm_num)]
    exact mul_le_mul_of_nonneg_left hp (Nat.cast_nonneg _)
  exact hle.trans_lt hcast

theorem percentOf_eq (hperiod : period < 2 ^ 32) (h0 : 0 ≤ p) (hp : p ≤ 100) :
    percentOf conv period p = ⌊(period * p / 100 : K)⌋₊ :=
  conv.eq_floor _ (by positivity) (percent_lt hperiod hp)

theorem percentOf_le (hperiod : period < 2 ^ 32) (h0 : 0 ≤ p) (hp : p ≤ 100) :
    percentOf conv period p ≤ period := by
  rw [percentOf_eq hperiod h0 hp]
  refine Nat.floor_le_of_le ?_
  rw [div_le_iff₀ (by norm_num)]
  exact mul_le_mul_of_nonneg_left hp (Nat.cast_nonneg _)

theorem percentOf_mono (hperiod : period < 2 ^ 32) (h0 : 0 ≤ p) (hpq : p ≤ q) (hq : q ≤ 100) :
    percentOf conv period p ≤ percentOf conv period q := by
  rw [percentOf_eq hperiod h0 (hpq.trans hq), percentOf_eq hperiod (h0.trans hpq) hq]
  refine Nat.floor_le_floor (div_le_div_of_nonneg_right ?_ (by norm_num))
  exact mul_le_mul_of_nonneg_left hpq (Nat.cast_nonneg _)

/-- The whole period is only reached by a hundred percent. -/
theorem percentOf_lt_iff (hperiod : period < 2 ^ 32) (h0 : 0 ≤ p) (hp : p ≤ 100) :
    percentOf conv period p < period ↔ 0 < period ∧ p < 100 := by
  rw [percentOf_eq hperiod h0 hp, Nat.floor_lt (by positivity), div_lt_iff₀ (by norm_num)]
  constructor
  · intro h
    have hpos : (0 : K) < period := by
      by_contra hle
      have hzero : (period : K) = 0 := le_antisymm (not_lt.mp hle) (Nat.cast_nonneg _)
      rw [hzero, zero_mul, zero_mul] at h
      exact lt_irrefl _ h
    exact ⟨Nat.cast_pos.mp hpos, lt_of_mul_lt_mul_left h hpos.le⟩
  · rintro ⟨hpos, hlt⟩
    exact mul_lt_mul_of_pos_left hlt (Nat.cast_pos.mpr hpos)

end Percent

section Scale

/-- A scale from the least value at one input to the greatest value at another one. -/
structure Scale (low high gradient : K) (minValue maxValue : ℕ) : Prop where
  low_lt : low < high
  le : minValue ≤ maxValue
  lt : maxValue < 2 ^ 32
  gradient_eq : gradient = (sub32 maxValue minValue : ℕ) / (high - low)

/-- The value for an input that fits. -/
def ramp (low gradient : K) (minValue maxValue : ℕ) (x : K) : ℕ :=
  min maxValue (⌊(x - low) * gradient⌋₊ + minValue)

/-- The value from the least one up. -/
def level (conv : ToUint32 K) (low gradient : K) (minValue maxValue : ℕ) (x : K) : ℕ :=
  if low < x then scaled conv low gradient minValue maxValue maxValue x else minValue

variable {low high gradient x y : K} {minValue maxValue : ℕ}

omit [FloorRing K] in
theorem Scale.gradient_nonneg (h : Scale low high gradient minValue maxValue) : 0 ≤ gradient := by
  rw [h.gradient_eq]
  exact div_nonneg (Nat.cast_nonneg _) (sub_nonneg.mpr h.low_lt.le)

omit [FloorRing K] in
theorem Scale.high_mul (h : Scale low high gradient minValue maxValue) :
    (high - low) * gradient = ((maxValue - minValue : ℕ) : K) := by
  rw [h.gradient_eq, sub32_of_le h.le h.lt, mul_div_cancel₀]
  exact (sub_pos.mpr h.low_lt).ne'

omit [IsStrictOrderedRing K] in
theorem level_within (h : minValue ≤ maxValue) (x : K) :
    minValue ≤ level conv low gradient minValue maxValue x ∧
      level conv low gradient minValue maxValue x ≤ maxValue := by
  unfold level scaled
  dsimp only
  split_ifs <;> omega

theorem Scale.level_eq (h : Scale low high gradient minValue maxValue)
    (hfits : Fits low gradient minValue x) :
    level conv low gradient minValue maxValue x = ramp low gradient minValue maxValue x := by
  unfold level ramp
  split_ifs with hlow
  · have hfit := hfits hlow
    have hnonneg : 0 ≤ (x - low) * gradient :=
      mul_nonneg (sub_nonneg.mpr hlow.le) h.gradient_nonneg
    have hconv : conv.toFun (⌊(x - low) * gradient⌋ : K) = ⌊(x - low) * gradient⌋₊ := by
      rw [← natCast_floor_eq_intCast_floor hnonneg, conv.eq_floor _ (Nat.cast_nonneg _) ?_,
        Nat.floor_natCast]
      exact_mod_cast (Nat.le_add_right _ _).trans_lt hfit
    unfold scaled
    rw [hconv, Nat.mod_eq_of_lt hfit]
    dsimp only
    split_ifs <;> omega
  · have hle : (x - low) * gradient ≤ 0 :=
      mul_nonpos_of_nonpos_of_nonneg (sub_nonpos.mpr (not_lt.mp hlow)) h.gradient_nonneg
    rw [Nat.floor_of_nonpos hle, Nat.zero_add, Nat.min_eq_right h.le]

theorem Scale.ramp_mono (h : Scale low high gradient minValue maxValue) (hxy : x ≤ y) :
    ramp low gradient minValue maxValue x ≤ ramp low gradient minValue maxValue y := by
  have hmul : (x - low) * gradient ≤ (y - low) * gradient :=
    mul_le_mul_of_nonneg_right (sub_le_sub_right hxy low) h.gradient_nonneg
  exact min_le_min_left _ (Nat.add_le_add_right (Nat.floor_le_floor hmul) _)

theorem Scale.ramp_top (h : Scale low high gradient minValue maxValue) (hx : high ≤ x) :
    ramp low gradient minValue maxValue x = maxValue := by
  have hmul : ((maxValue - minValue : ℕ) : K) ≤ (x - low) * gradient := by
    rw [← h.high_mul]
    exact mul_le_mul_of_nonneg_right (sub_le_sub_right hx low) h.gradient_nonneg
  have hle := Nat.le_floor hmul
  have hmax := h.le
  unfold ramp
  omega

/-- The greatest value is not reached before the end of the scale. -/
theorem Scale.ramp_lt (h : Scale low high gradient minValue maxValue) (hlt : minValue < maxValue)
    (hx : x < high) : ramp low gradient minValue maxValue x < maxValue := by
  have hgradient : 0 < gradient := by
    rw [h.gradient_eq, sub32_of_le h.le h.lt]
    exact div_pos (Nat.cast_pos.mpr (by omega)) (sub_pos.mpr h.low_lt)
  have hmul : (x - low) * gradient < ((maxValue - minValue : ℕ) : K) := by
    rw [← h.high_mul]
    exact mul_lt_mul_of_pos_right (sub_lt_sub_right hx low) hgradient
  have hfloor : ⌊(x - low) * gradient⌋₊ < maxValue - minValue :=
    (Nat.floor_lt' (by omega)).mpr hmul
  unfold ramp
  omega

theorem Scale.fits_of_le (h : Scale low high gradient minValue maxValue) (hxy : x ≤ y)
    (hfits : Fits low gradient minValue y) : Fits low gradient minValue x := by
  intro hlow
  have hmul : (x - low) * gradient ≤ (y - low) * gradient :=
    mul_le_mul_of_nonneg_right (sub_le_sub_right hxy low) h.gradient_nonneg
  have hfloor := Nat.floor_le_floor hmul
  have hfit := hfits (hlow.trans_le hxy)
  omega

theorem Scale.fits_high (h : Scale low high gradient minValue maxValue) :
    Fits low gradient minValue high := by
  intro _
  have hle := h.le
  have hlt := h.lt
  rw [h.high_mul, Nat.floor_natCast]
  omega

variable {period : ℕ} {inverted : Bool} {result : K → ℕ}

variable (conv) in
/-- A conversion that inverts the value of a scale. -/
theorem Scale.converts (h : Scale low high gradient minValue maxValue) (inv : ℕ → ℕ)
    (hresult : ∀ x, low < x ∨ x ≠ 0 →
      result x = inv (level conv low gradient minValue maxValue x))
    (hoff : ¬low < 0 → result 0 ≤ period)
    (hle : ∀ x, inv (level conv low gradient minValue maxValue x) ≤ period)
    (hplain : inverted = false → ∀ v, inv v = v)
    (hanti : inverted = true → ∀ x y, 0 < x → x ≤ y → Fits low gradient minValue y →
      inv (level conv low gradient minValue maxValue y) ≤
        inv (level conv low gradient minValue maxValue x)) :
    Converts high (Fits low gradient minValue) period minValue maxValue inverted result := by
  have hpos : ∀ x, 0 < x → result x = inv (level conv low gradient minValue maxValue x) :=
    fun x hx => hresult x (.inr hx.ne')
  refine ⟨fun x => ?_, fun hplain' x y hx hxy hfits => ?_, fun hplain' x hx => ?_,
    fun hplain' x hx hfits => ?_, fun hinverted x y hx hxy hfits => ?_⟩
  · by_cases hx : low < x ∨ x ≠ 0
    · rw [hresult x hx]
      exact hle x
    · obtain ⟨hlow, hzero⟩ := not_or.mp hx
      obtain rfl := not_not.mp hzero
      exact hoff hlow
  · rw [hpos x hx, hpos y (hx.trans_le hxy), hplain hplain', hplain hplain',
      h.level_eq (h.fits_of_le hxy hfits), h.level_eq hfits]
    exact h.ramp_mono hxy
  · rw [hpos x hx, hplain hplain']
    exact level_within h.le x
  · rw [hresult x (.inl (h.low_lt.trans_le hx)), hplain hplain', h.level_eq hfits, h.ramp_top hx]
  · rw [hpos x hx, hpos y (hx.trans_le hxy)]
    exact hanti hinverted x y hx hxy hfits

/-- An inversion that turns the order of the values around. -/
theorem Scale.anti (h : Scale low high gradient minValue maxValue) {inv : ℕ → ℕ}
    (hinv : ∀ v w, minValue ≤ v → v ≤ w → w ≤ maxValue → inv w ≤ inv v) (hxy : x ≤ y)
    (hfits : Fits low gradient minValue y) :
    inv (level conv low gradient minValue maxValue y) ≤
      inv (level conv low gradient minValue maxValue x) := by
  refine hinv _ _ (level_within h.le x).1 ?_ (level_within h.le y).2
  rw [h.level_eq (h.fits_of_le hxy hfits), h.level_eq hfits]
  exact h.ramp_mono hxy

end Scale

section Spindle

namespace SpindlePwm

omit [IsStrictOrderedRing K] in
/-- The value of an input that is above the minimum or not zero. -/
theorem compute_eq (d : SpindlePwm K) {rpm : K} (h : d.rpmMin < rpm ∨ rpm ≠ 0) :
    d.compute conv rpm false =
      d.invert (level conv d.rpmMin d.pwmGradient d.minValue d.maxValue rpm) := by
  rw [compute, level]
  by_cases hlow : d.rpmMin < rpm
  · rw [if_pos hlow, if_pos hlow]
    rfl
  · rw [if_neg hlow, if_neg hlow, if_neg (h.resolve_left hlow)]

omit [IsStrictOrderedRing K] in
theorem compute_zero (d : SpindlePwm K) (h : ¬d.rpmMin < 0) (pidLimit : Bool) :
    d.compute conv 0 pidLimit = d.offValue := by
  rw [compute, if_neg h, if_pos rfl]

variable (conv : ToUint32 K) (s : SpindlePwmSettings K) (invertPwm : Bool) (clockHz : ℕ)

theorem maxValue_le : (precompute conv s invertPwm clockHz).maxValue ≤
    (precompute conv s invertPwm clockHz).period :=
  percentOf_le (conv.lt _) (s.min_nonneg.trans s.min_le_max) s.max_le

theorem minValue_le : (precompute conv s invertPwm clockHz).minValue ≤
    (precompute conv s invertPwm clockHz).maxValue := by
  have hlt := (maxValue_le conv s invertPwm clockHz).trans_lt (conv.lt _)
  have hmono : percentOf conv (conv.toFun (clockHz / s.pwmFreq)) s.pwmMinValue ≤
      percentOf conv (conv.toFun (clockHz / s.pwmFreq)) s.pwmMaxValue :=
    percentOf_mono (conv.lt _) s.min_nonneg s.min_le_max s.max_le
  simp only [precompute] at hlt ⊢
  generalize percentOf conv _ s.pwmMaxValue = maxValue at hlt hmono ⊢
  split_ifs
  · have hcast : (maxValue : K) < 2 ^ 32 := by exact_mod_cast hlt
    have hle : (maxValue * (4 / 1000) : K) ≤ maxValue :=
      mul_le_of_le_one_right (Nat.cast_nonneg _) (by norm_num)
    rw [conv.eq_floor _ (by positivity) (hle.trans_lt hcast)]
    exact Nat.floor_le_of_le hle
  · exact hmono

theorem scale : Scale s.rpmMin s.rpmMax (precompute conv s invertPwm clockHz).pwmGradient
    (precompute conv s invertPwm clockHz).minValue (precompute conv s invertPwm clockHz).maxValue :=
  ⟨s.rpm_lt, minValue_le conv s invertPwm clockHz,
    (maxValue_le conv s invertPwm clockHz).trans_lt (conv.lt _), rfl⟩

theorem offValue_le : (precompute conv s invertPwm clockHz).offValue ≤
    (precompute conv s invertPwm clockHz).period := by
  have hperiod : conv.toFun (clockHz / s.pwmFreq) < 2 ^ 32 := conv.lt _
  have hle : percentOf conv (conv.toFun (clockHz / s.pwmFreq)) s.pwmOffValue ≤
      conv.toFun (clockHz / s.pwmFreq) := percentOf_le hperiod s.off_nonneg s.off_le
  simp only [precompute]
  split_ifs
  · exact le_rfl
  · exact Nat.zero_le _
  · rw [sub32_of_le hle hperiod]
    exact Nat.sub_le _ _
  · exact hle

/-- The conversion of a spindle. -/
def SpindleConverts : Prop :=
  let d := precompute conv s invertPwm clockHz
  Converts s.rpmMax (Fits s.rpmMin d.pwmGradient d.minValue) d.period d.minValue d.maxValue
    invertPwm fun rpm => d.compute conv rpm false

theorem converts : SpindleConverts conv s invertPwm clockHz := by
  let d := precompute conv s invertPwm clockHz
  have hscale := scale conv s invertPwm clockHz
  have hmax := maxValue_le conv s invertPwm clockHz
  have hperiod : d.period < 2 ^ 32 := conv.lt _
  have hinvert : ∀ v ≤ d.maxValue, d.invert v = if invertPwm then d.period - v else v := by
    intro v hv
    exact if_congr Iff.rfl (sub32_of_le (hv.trans hmax) hperiod) rfl
  refine hscale.converts conv d.invert (fun rpm hrpm => compute_eq d hrpm)
    (fun hlow => (compute_zero d hlow false).trans_le (offValue_le conv s invertPwm clockHz))
    (fun rpm => ?_) (fun hplain v => if_neg (Bool.eq_false_iff.mp hplain))
    (fun hinverted x y _ hxy hfits => hscale.anti ?_ hxy hfits)
  · rw [hinvert _ (level_within hscale.le rpm).2]
    split_ifs
    · exact Nat.sub_le _ _
    · exact (level_within hscale.le rpm).2.trans hmax
  · intro v w _ hvw hw
    rw [hinvert w hw, hinvert v (hvw.trans hw), if_pos hinverted, if_pos hinverted]
    exact Nat.sub_le_sub_left hvw _

end SpindlePwm

end Spindle

section Ioports

namespace IoportsPwm

omit [IsStrictOrderedRing K] in
/-- The value of an input that is above the minimum or not zero. -/
theorem compute_eq (d : IoportsPwm K) {value : K} (h : d.min < value ∨ value ≠ 0) :
    d.compute conv value =
      d.invert (level conv d.min d.pwmGradient d.minValue d.maxValue value) := by
  rw [compute, level]
  by_cases hlow : d.min < value
  · rw [if_pos hlow, if_pos hlow]
  · rw [if_neg hlow, if_neg hlow, if_neg (h.resolve_left hlow)]

omit [IsStrictOrderedRing K] in
theorem compute_zero (d : IoportsPwm K) (h : ¬d.min < 0) : d.compute conv 0 = d.offValue := by
  rw [compute, if_neg h, if_pos rfl]

omit [Field K] [LinearOrder K] [FloorRing K] [IsStrictOrderedRing K] in
theorem invert_of_inverted {d : IoportsPwm K} (h : d.invertPwm = true) (v : ℕ) :
    d.invert v = sub32 (sub32 d.period v) 1 := if_pos h

variable (conv : ToUint32 K) (c : PwmConfig K) (invertPwm : Bool) (clockHz : ℕ)

theorem maxValue_le : (precompute conv c invertPwm clockHz).maxValue ≤
    (precompute conv c invertPwm clockHz).period :=
  percentOf_le (conv.lt _) (c.min_nonneg.trans c.min_le_max) c.max_le

theorem scale : Scale c.min c.max (precompute conv c invertPwm clockHz).pwmGradient
    (precompute conv c invertPwm clockHz).minValue (precompute conv c invertPwm clockHz).maxValue :=
  ⟨c.min_lt_max, percentOf_mono (conv.lt _) c.min_nonneg c.min_le_max c.max_le,
    (maxValue_le conv c invertPwm clockHz).trans_lt (conv.lt _), rfl⟩

/-- The conversion of an output port. -/
def PortConverts : Prop :=
  let d := precompute conv c invertPwm clockHz
  Converts c.max (Fits c.min d.pwmGradient d.minValue) d.period d.minValue d.maxValue
    invertPwm fun value => d.compute conv value

theorem offValue_le_of_plain : (precompute conv c false clockHz).offValue ≤
    (precompute conv c false clockHz).period := by
  have hperiod : conv.toFun (clockHz / c.freqHz) < 2 ^ 32 := conv.lt _
  have hmin := (scale conv c false clockHz).le.trans (maxValue_le conv c false clockHz)
  simp only [precompute, Bool.false_eq_true, if_false] at hmin ⊢
  split_ifs with hzero hoff
  · exact Nat.zero_le _
  · exact percentOf_le hperiod hoff.2.le c.off_le
  · exact hmin

omit [IsStrictOrderedRing K] in
theorem offValue_eq : (precompute conv c true clockHz).offValue =
    if c.offValue = 0 then (precompute conv c true clockHz).period
    else if c.servoMode = false ∧ 0 < c.offValue then
      sub32 (sub32 (precompute conv c true clockHz).period
        (percentOf conv (precompute conv c true clockHz).period c.offValue)) 1
    else (precompute conv c true clockHz).minValue := by
  simp only [precompute, if_true]

/-- The value for an input of zero, unless it is a hundred percent. -/
theorem offValue_le_of_inverted (hpos : 0 < (precompute conv c true clockHz).period)
    (h : c.servoMode = true ∨ c.offValue < 100) : (precompute conv c true clockHz).offValue ≤
      (precompute conv c true clockHz).period := by
  have hperiod : (precompute conv c true clockHz).period < 2 ^ 32 := conv.lt _
  have hmin := (scale conv c true clockHz).le.trans (maxValue_le conv c true clockHz)
  rw [offValue_eq]
  split_ifs with hzero hoff
  · exact le_rfl
  · have hlt : c.offValue < 100 := h.resolve_left (Bool.eq_false_iff.mp hoff.1)
    rw [sub32_sub32_of_lt ((percentOf_lt_iff hperiod hoff.2.le c.off_le).mpr ⟨hpos, hlt⟩) hperiod]
    omega
  · exact hmin

theorem offValue_of_hundred (hservo : c.servoMode = false) (hoff : c.offValue = 100) :
    (precompute conv c true clockHz).offValue = 2 ^ 32 - 1 := by
  have hperiod : (precompute conv c true clockHz).period < 2 ^ 32 := conv.lt _
  have hpos : (0 : K) < c.offValue := by
    rw [hoff]
    norm_num
  have hfull : percentOf conv (precompute conv c true clockHz).period c.offValue =
      (precompute conv c true clockHz).period := by
    refine le_antisymm (percentOf_le hperiod hpos.le c.off_le) (not_lt.mp fun hlt => ?_)
    exact ((percentOf_lt_iff hperiod hpos.le c.off_le).mp hlt).2.ne hoff
  rw [offValue_eq, if_neg hpos.ne', if_pos ⟨hservo, hpos⟩, hfull, sub32_sub32_self hperiod]

theorem offValue_lt : (precompute conv c true clockHz).offValue < 2 ^ 32 := by
  have hperiod : (precompute conv c true clockHz).period < 2 ^ 32 := conv.lt _
  have hmin := (scale conv c true clockHz).le.trans (maxValue_le conv c true clockHz)
  rw [offValue_eq]
  split_ifs
  · exact hperiod
  · exact sub32_lt _ _
  · exact hmin.trans_lt hperiod

/-- Without inversion. -/
theorem converts_plain : PortConverts conv c false clockHz := by
  have hscale := scale conv c false clockHz
  exact hscale.converts conv id (fun value hvalue => compute_eq _ hvalue)
    (fun hlow => (compute_zero _ hlow).trans_le (offValue_le_of_plain conv c clockHz))
    (fun value => (level_within hscale.le value).2.trans (maxValue_le conv c false clockHz))
    (fun _ v => rfl) (fun hinverted => absurd hinverted Bool.false_ne_true)

variable {conv c clockHz}

/-- With inversion, when something is left of the period. -/
theorem converts_inverted
    (hmax : (precompute conv c true clockHz).maxValue < (precompute conv c true clockHz).period)
    (hoff : ¬c.min < 0 → (precompute conv c true clockHz).offValue ≤
      (precompute conv c true clockHz).period) :
    PortConverts conv c true clockHz := by
  have hscale := scale conv c true clockHz
  have hperiod : (precompute conv c true clockHz).period < 2 ^ 32 := conv.lt _
  have hinvert : ∀ v ≤ (precompute conv c true clockHz).maxValue,
      (precompute conv c true clockHz).invert v =
        (precompute conv c true clockHz).period - v - 1 := by
    intro v hv
    rw [invert_of_inverted rfl, sub32_sub32_of_lt (hv.trans_lt hmax) hperiod]
  refine hscale.converts conv (precompute conv c true clockHz).invert
    (fun value hvalue => compute_eq _ hvalue)
    (fun hlow => (compute_zero _ hlow).trans_le (hoff hlow)) (fun value => ?_)
    (fun hplain => absurd hplain.symm Bool.false_ne_true)
    (fun _ x y _ hxy hfits => hscale.anti ?_ hxy hfits)
  · rw [hinvert _ (level_within hscale.le value).2]
    omega
  · intro v w _ hvw hw
    rw [hinvert w hw, hinvert v (hvw.trans hw)]
    omega

/-- The value at the configured maximum. -/
theorem compute_max (d : IoportsPwm K)
    (hd : Scale d.min c.max d.pwmGradient d.minValue d.maxValue) :
    d.compute conv c.max = d.invert d.maxValue := by
  rw [compute_eq d (.inl hd.low_lt), hd.level_eq hd.fits_high, hd.ramp_top le_rfl]

/-- With inversion, when nothing is left of the period at the maximum: all values are in the range
of a register that the period fills, and their order is only kept when there is one of them. -/
theorem converts_full_iff
    (hmax : (precompute conv c true clockHz).maxValue = (precompute conv c true clockHz).period) :
    PortConverts conv c true clockHz ↔
      (precompute conv c true clockHz).period = 2 ^ 32 - 1 ∧
        ((precompute conv c true clockHz).minValue = (precompute conv c true clockHz).period ∨
          c.max ≤ 0) := by
  have hscale := scale conv c true clockHz
  have hperiod : (precompute conv c true clockHz).period < 2 ^ 32 := conv.lt _
  have htop : (precompute conv c true clockHz).compute conv c.max = 2 ^ 32 - 1 := by
    rw [compute_max _ hscale, hmax, invert_of_inverted rfl, sub32_sub32_self hperiod]
  constructor
  · intro h
    have hle := h.le_period c.max
    rw [htop] at hle
    refine ⟨by omega, ?_⟩
    by_contra hne
    obtain ⟨hmin, hpos⟩ := not_or.mp hne
    have hhalf : 0 < c.max / 2 := half_pos (not_le.mp hpos)
    have hanti := h.anti rfl (c.max / 2) c.max hhalf (half_le_self (not_le.mp hpos).le)
      hscale.fits_high
    have hbelow : level conv c.min (precompute conv c true clockHz).pwmGradient
        (precompute conv c true clockHz).minValue (precompute conv c true clockHz).maxValue
        (c.max / 2) < (precompute conv c true clockHz).period := by
      rw [hscale.level_eq (hscale.fits_of_le (half_le_self (not_le.mp hpos).le) hscale.fits_high),
        ← hmax]
      exact hscale.ramp_lt (lt_of_le_of_ne hscale.le (hmax ▸ hmin)) (half_lt_self (not_le.mp hpos))
    rw [htop, compute_eq _ (.inr hhalf.ne'), invert_of_inverted rfl] at hanti
    have hinvert := sub32_sub32_of_lt hbelow hperiod
    change _ ≤ sub32 (sub32 _ (level conv c.min _ _ _ _)) 1 at hanti
    rw [hinvert] at hanti
    omega
  · rintro ⟨hfull, hconst⟩
    refine hscale.converts conv (precompute conv c true clockHz).invert
      (fun value hvalue => compute_eq _ hvalue) (fun hlow => ?_) (fun value => ?_)
      (fun hplain => absurd hplain.symm Bool.false_ne_true)
      (fun _ x y hx hxy hfits => (congrArg _ ?_).le)
    · rw [compute_zero _ hlow, hfull]
      exact Nat.le_sub_one_of_lt (offValue_lt conv c clockHz)
    · rw [invert_of_inverted rfl, hfull]
      exact Nat.le_sub_one_of_lt (sub32_lt _ _)
    · rcases hconst with hmin | hneg
      · have hlevel : ∀ z, level conv c.min (precompute conv c true clockHz).pwmGradient
            (precompute conv c true clockHz).minValue (precompute conv c true clockHz).maxValue z =
              (precompute conv c true clockHz).period := by
          intro z
          exact le_antisymm ((level_within hscale.le z).2.trans hmax.le)
            (hmin.ge.trans (level_within hscale.le z).1)
        exact (hlevel y).trans (hlevel x).symm
      · rw [hscale.level_eq hfits, hscale.level_eq (hscale.fits_of_le hxy hfits),
          hscale.ramp_top (hneg.trans (hx.trans_le hxy).le), hscale.ramp_top (hneg.trans hx.le)]

variable (conv c clockHz)

/-- A duty cycle of nothing. -/
theorem zero_duty : (0 : ℚ) ≤ 0 := le_rfl

/-- The configuration that the driver has for its outputs. -/
def defaultConfig : PwmConfig ℚ where
  freqHz := 5000
  min := 0
  max := 100
  offValue := 0
  minValue := 0
  maxValue := 100
  servoMode := false
  min_lt_max := by norm_num
  off_le := by norm_num
  min_nonneg := zero_duty
  min_le_max := by norm_num
  max_le := le_rfl

/-- The settings that a spindle has by default. -/
def defaultSettings : SpindlePwmSettings ℚ where
  rpmMin := 0
  rpmMax := 1000
  pwmFreq := 5000
  pwmOffValue := 0
  pwmMinValue := 0
  pwmMaxValue := 100
  rpm_lt := by norm_num
  off_nonneg := zero_duty
  off_le := by norm_num
  min_nonneg := zero_duty
  min_le_max := by norm_num
  max_le := le_rfl

end IoportsPwm

end Ioports

end Pwm

end Inspector
