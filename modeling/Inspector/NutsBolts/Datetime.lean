import Inspector.NutsBolts.Ftoa
import Inspector.NutsBolts.Spelling
import Inspector.Numerals
import Mathlib.Data.Int.Bitwise

/-! # Dates and times

`get_datetime` reads six numbers, each up to a separator, and stores a number if the separator and
the range are those of its place. Nothing looks at how many digits there are, numbers are kept in 32
bits, and 29 February 2000 is no date for it.
-/

namespace Inspector

open Json

/-- The fields of `struct tm` that are read; a field that has not been read is -1. -/
@[ext]
structure Tm where
  year : ℤ := -1
  mon : ℤ := -1
  mday : ℤ := -1
  hour : ℤ := -1
  min : ℤ := -1
  sec : ℤ := -1
  deriving DecidableEq, Repr

/-- `mdays`. -/
def mdays : List ℕ := [31, 28, 31, 30, 31, 30, 31, 31, 30, 31, 30, 31]

/-- The days of the month that has been read, as far as it has been. -/
def Tm.days (dt : Tm) : ℕ :=
  mdays.getD (if 0 ≤ dt.mon then dt.mon.toNat else 0) 0 +
    if dt.mon = 1 ∧ dt.year ≠ 100 ∧ dt.year % 4 = 0 then 1 else 0

/-- The variables of the loop. -/
structure DateScan where
  dt : Tm := {}
  idx : ℕ := 0
  value : ℕ := 0

/-- `-`, `:`, `T` and `Z`. -/
def isDateSeparator (c : UInt8) : Bool := c = 0x2D ∨ c = 0x3A ∨ c = 0x54 ∨ c = 0x5A

namespace DateScan

variable (s : DateScan) (c : UInt8)

def digit : DateScan := { s with value := (s.value * 10 + digitValue c) % 2 ^ 32 }

/-- The number in front of a separator goes to its place. -/
def store : Tm :=
  match s.idx with
  | 0 =>
    if c = 0x2D ∧ 1970 ≤ s.value ∧ s.value ≤ 2099 then { s.dt with year := s.value - 1900 }
    else s.dt
  | 1 =>
    if c = 0x2D ∧ 1 ≤ s.value ∧ s.value ≤ 12 then { s.dt with mon := s.value - 1 } else s.dt
  | 2 =>
    if c = 0x54 ∧ 1 ≤ s.value ∧ s.value ≤ s.dt.days then { s.dt with mday := s.value } else s.dt
  | 3 => if c = 0x3A ∧ s.value ≤ 23 then { s.dt with hour := s.value } else s.dt
  | 4 => if c = 0x3A ∧ s.value ≤ 59 then { s.dt with min := s.value } else s.dt
  | 5 => if (c = 0x5A ∨ c = 0) ∧ s.value ≤ 59 then { s.dt with sec := s.value } else s.dt
  | _ => s.dt

/-- When the number in front of a separator has a place. -/
def Takes : Prop :=
  match s.idx with
  | 0 => c = 0x2D ∧ 1970 ≤ s.value ∧ s.value ≤ 2099
  | 1 => c = 0x2D ∧ 1 ≤ s.value ∧ s.value ≤ 12
  | 2 => c = 0x54 ∧ 1 ≤ s.value ∧ s.value ≤ s.dt.days
  | 3 => c = 0x3A ∧ s.value ≤ 23
  | 4 => c = 0x3A ∧ s.value ≤ 59
  | 5 => (c = 0x5A ∨ c = 0) ∧ s.value ≤ 59
  | _ => False

def separator : DateScan := { dt := s.store c, idx := s.idx + 1, value := 0 }

/-- The loop, up to the end of the string or the first character that has no place in a date. -/
def run : DateScan → Bytes → DateScan
  | s, [] => s.separator 0
  | s, c :: text =>
    if isDigit c then run (s.digit c) text
    else if c = 0 then s.separator 0
    else if isDateSeparator c then run (s.separator c) text
    else s

end DateScan

/-- `get_datetime`. -/
def getDatetime (s : Bytes) : Option Tm :=
  let dt := (DateScan.run {} s).dt
  if 0 < dt.year.lor (dt.mon.lor (dt.mday.lor (dt.hour.lor (dt.min.lor dt.sec)))) then some dt
  else none

/-- A point in time by its numbers. -/
structure Stamp where
  year : ℕ
  month : ℕ
  day : ℕ
  hour : ℕ
  minute : ℕ
  second : ℕ

namespace Stamp

variable (t : Stamp)

def IsLeapYear (year : ℕ) : Prop := 4 ∣ year ∧ ¬100 ∣ year ∨ 400 ∣ year

instance (year : ℕ) : Decidable (IsLeapYear year) := inferInstanceAs (Decidable (_ ∨ _))

/-- The days of a month of the Gregorian calendar. -/
def daysInMonth (year month : ℕ) : ℕ :=
  if month = 2 then if IsLeapYear year then 29 else 28
  else if month = 4 ∨ month = 6 ∨ month = 9 ∨ month = 11 then 30
  else 31

/-- A date of the calendar from 1970 to 2099, with a time of day. -/
structure Valid : Prop where
  year : 1970 ≤ t.year ∧ t.year ≤ 2099
  month : 1 ≤ t.month ∧ t.month ≤ 12
  day : 1 ≤ t.day ∧ t.day ≤ daysInMonth t.year t.month
  hour : t.hour ≤ 23
  minute : t.minute ≤ 59
  second : t.second ≤ 59

/-- The day that is left out. -/
def IsLeapDay2000 : Prop := t.year = 2000 ∧ t.month = 2 ∧ t.day = 29

def toTm : Tm := ⟨t.year - 1900, t.month - 1, t.day, t.hour, t.minute, t.second⟩

end Stamp

/-- Six runs of digits. -/
structure DateFields where
  year : Bytes
  month : Bytes
  day : Bytes
  hour : Bytes
  minute : Bytes
  second : Bytes

namespace DateFields

variable (f : DateFields)

def text : Bytes :=
  f.year ++ 0x2D :: (f.month ++ 0x2D :: (f.day ++ 0x54 :: (f.hour ++ 0x3A ::
    (f.minute ++ 0x3A :: f.second))))

def parts : List Bytes := [f.year, f.month, f.day, f.hour, f.minute, f.second]

/-- The string, up to its terminator, is made of the runs of digits, and may go on behind a `Z`. -/
structure Spelled (s : Bytes) : Prop where
  digits : ∀ part ∈ f.parts, ∀ b ∈ part, isDigit b = true
  text : ∃ rest : Bytes, s.takeWhile (· ≠ 0) = f.text ++ rest ∧ (rest = [] ∨ rest.head? = some 0x5A)

/-- `YYYY-MM-DDTHH:MM:SS`. -/
def Exact : Prop := f.parts.map List.length = [4, 2, 2, 2, 2, 2]

def stamp : Stamp :=
  ⟨digitsValue f.year, digitsValue f.month, digitsValue f.day, digitsValue f.hour,
    digitsValue f.minute, digitsValue f.second⟩

/-- The numbers in 32 bits. -/
def wrapped : Stamp :=
  ⟨digitsValue f.year % 2 ^ 32, digitsValue f.month % 2 ^ 32, digitsValue f.day % 2 ^ 32,
    digitsValue f.hour % 2 ^ 32, digitsValue f.minute % 2 ^ 32, digitsValue f.second % 2 ^ 32⟩

end DateFields

/-- A time is returned exactly for the date-times, and is the one that is named. -/
def ReadsDatetime (s : Bytes) : Prop :=
  ∀ tm, getDatetime s = some tm ↔
    ∃ f : DateFields, f.Spelled s ∧ f.Exact ∧ f.stamp.Valid ∧ tm = f.stamp.toTm

section Scan

variable {s : DateScan} {text : Bytes} {k : ℕ}

/-- The fields in the order in which they are read. -/
def Tm.field (dt : Tm) : ℕ → ℤ
  | 0 => dt.year
  | 1 => dt.mon
  | 2 => dt.mday
  | 3 => dt.hour
  | 4 => dt.min
  | 5 => dt.sec
  | _ => 0

theorem field_store_ne (c : UInt8) (h : k ≠ s.idx) : (s.store c).field k = s.dt.field k := by
  rw [DateScan.store]
  split
  case h_7 => rfl
  all_goals
    split_ifs
    · rcases k with _ | _ | _ | _ | _ | _ | k <;> first | rfl | omega
    · rfl

/-- Fields that have been passed do not change. -/
theorem field_run (h : k < s.idx) (text : Bytes) : (s.run text).dt.field k = s.dt.field k := by
  induction text generalizing s with
  | nil => exact field_store_ne 0 h.ne
  | cons c text ih =>
    rw [DateScan.run]
    split_ifs
    · exact ih h
    · exact field_store_ne 0 h.ne
    · exact (ih (Nat.lt_succ_of_lt h)).trans (field_store_ne c h.ne)
    · rfl

theorem dt_run (h : 6 ≤ s.idx) (text : Bytes) : (s.run text).dt = s.dt := by
  have hfield : ∀ k < 6, (s.run text).dt.field k = s.dt.field k :=
    fun k hk => field_run (hk.trans_le h) text
  exact Tm.ext (hfield 0 (by decide)) (hfield 1 (by decide)) (hfield 2 (by decide))
    (hfield 3 (by decide)) (hfield 4 (by decide)) (hfield 5 (by decide))

theorem run_takeWhile (s : DateScan) (text : Bytes) :
    s.run text = s.run (text.takeWhile (· ≠ 0)) := by
  induction text generalizing s with
  | nil => rfl
  | cons c text ih =>
    by_cases hc : c = 0
    · subst hc
      rw [List.takeWhile_cons_of_neg (by decide)]
      rfl
    · rw [List.takeWhile_cons_of_pos (by simpa using hc), DateScan.run, DateScan.run]
      split_ifs
      · exact ih _
      · exact ih _
      · rfl

/-- A run of digits has been read. -/
def DateScan.read (s : DateScan) (digits : Bytes) : DateScan :=
  { s with value := digitsValue digits % 2 ^ 32 }

theorem run_digits (h : s.value = 0) {digits : Bytes} (hdigits : ∀ b ∈ digits, isDigit b = true)
    (text : Bytes) : s.run (digits ++ text) = (s.read digits).run text := by
  have hfold : ∀ {s : DateScan} {digits : Bytes}, (∀ b ∈ digits, isDigit b = true) →
      s.run (digits ++ text) = (digits.foldl DateScan.digit s).run text := by
    intro s digits
    induction digits generalizing s with
    | nil => exact fun _ => rfl
    | cons b digits ih =>
      intro hdigits
      rw [List.cons_append, DateScan.run, if_pos (hdigits b List.mem_cons_self),
        ih fun b' hb' => hdigits b' (List.mem_cons_of_mem b hb'), List.foldl_cons]
  have hvalue : digits.foldl DateScan.digit s = s.read digits := by
    clear hdigits
    induction digits using List.reverseRecOn with
    | nil =>
      rw [DateScan.read, digitsValue_nil, Nat.zero_mod, ← h]
      rfl
    | append_singleton digits b ih =>
      rw [List.foldl_append, List.foldl_cons, List.foldl_nil, ih, DateScan.read, DateScan.read,
        DateScan.digit, digitsValue_concat]
      congr 1
      simp only
      omega
  rw [hfold hdigits, hvalue]

/-- The place of the number with it. -/
def DateScan.taken (s : DateScan) : Tm :=
  match s.idx with
  | 0 => { s.dt with year := s.value - 1900 }
  | 1 => { s.dt with mon := s.value - 1 }
  | 2 => { s.dt with mday := s.value }
  | 3 => { s.dt with hour := s.value }
  | 4 => { s.dt with min := s.value }
  | 5 => { s.dt with sec := s.value }
  | _ => s.dt

theorem separator_eq {c : UInt8} (h : s.Takes c) : s.separator c = ⟨s.taken, s.idx + 1, 0⟩ := by
  refine congrArg (DateScan.mk · (s.idx + 1) 0) ?_
  obtain ⟨dt, idx, value⟩ := s
  rw [DateScan.Takes] at h
  rw [DateScan.store, DateScan.taken]
  rcases idx with _ | _ | _ | _ | _ | _ | idx
  case succ.succ.succ.succ.succ.succ => exact h.elim
  all_goals exact if_pos h

theorem takes_of_field {c : UInt8} (hfield : s.dt.field s.idx = -1)
    (h : 0 ≤ (s.store c).field s.idx) : s.Takes c := by
  obtain ⟨dt, idx, value⟩ := s
  rw [DateScan.Takes]
  rw [DateScan.store] at h
  rcases idx with _ | _ | _ | _ | _ | _ | idx
  case succ.succ.succ.succ.succ.succ =>
    simp only at h hfield
    omega
  all_goals
    simp only at h hfield ⊢
    by_contra hnot
    rw [if_neg hnot] at h
    omega

/-- A place that has been filled in the end has been filled by the separator behind its digits. -/
theorem stage (hvalue : s.value = 0) (hfield : s.dt.field s.idx = -1) (htext : (0 : UInt8) ∉ text)
    (hfilled : 0 ≤ (s.run text).dt.field s.idx) :
    ∃ digits : Bytes, (∀ b ∈ digits, isDigit b = true) ∧
      ((∃ c rest, text = digits ++ c :: rest ∧ c ≠ 0 ∧ (0 : UInt8) ∉ rest ∧
          (s.read digits).Takes c ∧
          s.run text = ((s.read digits).separator c).run rest) ∨
        text = digits ∧ (s.read digits).Takes 0 ∧ s.run text = (s.read digits).separator 0) := by
  have hdigits : ∀ b ∈ text.takeWhile isDigit, isDigit b = true :=
    fun b hb => List.mem_takeWhile_imp hb
  have hsplit := List.takeWhile_append_dropWhile (p := isDigit) (l := text)
  have hrun := run_digits hvalue hdigits (text.dropWhile isDigit)
  rw [hsplit] at hrun
  refine ⟨text.takeWhile isDigit, hdigits, ?_⟩
  cases hdrop : text.dropWhile isDigit with
  | nil =>
    rw [hdrop, DateScan.run] at hrun
    rw [hrun] at hfilled
    rw [hdrop, List.append_nil] at hsplit
    exact .inr ⟨hsplit.symm, takes_of_field hfield hfilled, hrun⟩
  | cons c rest =>
    have hc : ¬isDigit c = true := by
      have hhead := List.head?_dropWhile_not isDigit text
      rw [hdrop] at hhead
      simpa using hhead
    have hc0 : c ≠ 0 := by
      rintro rfl
      exact htext (hsplit ▸ List.mem_append_right _ (hdrop ▸ List.mem_cons_self))
    rw [hdrop, DateScan.run, if_neg hc, if_neg hc0] at hrun
    rw [hrun] at hfilled
    split_ifs at hrun hfilled
    · left
      have hrest : (0 : UInt8) ∉ rest := fun h =>
        htext (hsplit ▸ List.mem_append_right _ (hdrop ▸ List.mem_cons_of_mem c h))
      refine ⟨c, rest, by rw [← hdrop, hsplit], hc0, hrest, takes_of_field hfield ?_, hrun⟩
      have hsame := field_run (s := (s.read (text.takeWhile isDigit)).separator c) (k := s.idx)
        (Nat.lt_succ_self _) rest
      rw [hsame] at hfilled
      exact hfilled
    · have hsame : (s.read (text.takeWhile isDigit)).dt.field s.idx = -1 := hfield
      omega

end Scan

namespace Stamp

/-- The ranges of `get_datetime`. -/
structure Accepted (t : Stamp) : Prop where
  year : 1970 ≤ t.year ∧ t.year ≤ 2099
  month : 1 ≤ t.month ∧ t.month ≤ 12
  day : 1 ≤ t.day ∧ t.day ≤ ({ year := t.year - 1900, mon := t.month - 1 } : Tm).days
  hour : t.hour ≤ 23
  minute : t.minute ≤ 59
  second : t.second ≤ 59

variable {t : Stamp}

/-- The ranges are those of the calendar, but for one day. -/
theorem accepted_iff : t.Accepted ↔ t.Valid ∧ ¬t.IsLeapDay2000 := by
  have hdays : 1970 ≤ t.year → t.year ≤ 2099 → 1 ≤ t.month → t.month ≤ 12 →
      (t.day ≤ ({ year := t.year - 1900, mon := t.month - 1 } : Tm).days ↔
        t.day ≤ daysInMonth t.year t.month ∧ ¬t.IsLeapDay2000) := by
    obtain ⟨year, month, day, hour, minute, second⟩ := t
    intro hlow hhigh hmonth hmonth'
    simp only at hlow hhigh hmonth hmonth' ⊢
    have hleap : IsLeapYear year ↔ year % 4 = 0 := by
      rw [IsLeapYear]
      omega
    simp only [Tm.days, daysInMonth, hleap, IsLeapDay2000]
    by_cases hfebruary : month = 2
    · subst hfebruary
      simp only [mdays]
      norm_num
      split_ifs <;> omega
    · interval_cases month <;> simp [mdays] at hfebruary ⊢
  constructor
  · rintro ⟨hyear, hmonth, hday, hhour, hminute, hsecond⟩
    obtain ⟨hle, hleap⟩ := (hdays hyear.1 hyear.2 hmonth.1 hmonth.2).mp hday.2
    exact ⟨⟨hyear, hmonth, ⟨hday.1, hle⟩, hhour, hminute, hsecond⟩, hleap⟩
  · rintro ⟨⟨hyear, hmonth, hday, hhour, hminute, hsecond⟩, hleap⟩
    have hle := (hdays hyear.1 hyear.2 hmonth.1 hmonth.2).mpr ⟨hday.2, hleap⟩
    exact ⟨hyear, hmonth, ⟨hday.1, hle⟩, hhour, hminute, hsecond⟩

end Stamp

section Language

variable {s : DateScan} {text : Bytes}

/-- Only the last place may end with the string. -/
theorem stage_of_lt {k : ℕ} (hidx : s.idx = k) (hvalue : s.value = 0) (hfield : s.dt.field k = -1)
    (htext : (0 : UInt8) ∉ text) (hfilled : 0 ≤ (s.run text).dt.field k) (hk : k < 5) :
    ∃ digits : Bytes, (∀ b ∈ digits, isDigit b = true) ∧
      ∃ c rest, text = digits ++ c :: rest ∧ (0 : UInt8) ∉ rest ∧ (s.read digits).Takes c ∧
        s.run text = DateScan.run ⟨(s.read digits).taken, k + 1, 0⟩ rest := by
  obtain rfl := hidx
  obtain ⟨digits, hdigits, ⟨c, rest, heq, -, hrest, htakes, hrun⟩ | ⟨-, htakes, -⟩⟩ :=
    stage hvalue hfield htext hfilled
  · exact ⟨digits, hdigits, c, rest, heq, hrest, htakes, separator_eq htakes ▸ hrun⟩
  · obtain ⟨dt, idx, value⟩ := s
    simp only at hk
    rw [DateScan.Takes] at htakes
    rcases idx with _ | _ | _ | _ | _ | idx
    case succ.succ.succ.succ.succ => omega
    all_goals exact absurd htakes.1 (by decide)

/-- A string that fills all places is made of six runs of digits. -/
theorem exists_fields (htext : (0 : UInt8) ∉ text)
    (hfilled : ∀ k < 6, 0 ≤ (DateScan.run {} text).dt.field k) :
    ∃ f : DateFields, (∀ part ∈ f.parts, ∀ b ∈ part, isDigit b = true) ∧
      (∃ rest : Bytes, text = f.text ++ rest ∧ (rest = [] ∨ rest.head? = some 0x5A)) ∧
      f.wrapped.Accepted ∧ (DateScan.run {} text).dt = f.wrapped.toTm := by
  obtain ⟨year, hyear, c, text₁, rfl, htext₁, htakes, hrun⟩ :=
    stage_of_lt (k := 0) rfl rfl rfl htext (hfilled 0 (by decide)) (by decide)
  rw [hrun] at hfilled ⊢
  obtain ⟨rfl, hyear'⟩ := htakes
  obtain ⟨month, hmonth, c, text₂, rfl, htext₂, htakes, hrun⟩ :=
    stage_of_lt (k := 1) rfl rfl rfl htext₁ (hfilled 1 (by decide)) (by decide)
  rw [hrun] at hfilled ⊢
  obtain ⟨rfl, hmonth'⟩ := htakes
  obtain ⟨day, hday, c, text₃, rfl, htext₃, htakes, hrun⟩ :=
    stage_of_lt (k := 2) rfl rfl rfl htext₂ (hfilled 2 (by decide)) (by decide)
  rw [hrun] at hfilled ⊢
  obtain ⟨rfl, hday'⟩ := htakes
  obtain ⟨hour, hhour, c, text₄, rfl, htext₄, htakes, hrun⟩ :=
    stage_of_lt (k := 3) rfl rfl rfl htext₃ (hfilled 3 (by decide)) (by decide)
  rw [hrun] at hfilled ⊢
  obtain ⟨rfl, hhour'⟩ := htakes
  obtain ⟨minute, hminute, c, text₅, rfl, htext₅, htakes, hrun⟩ :=
    stage_of_lt (k := 4) rfl rfl rfl htext₄ (hfilled 4 (by decide)) (by decide)
  rw [hrun] at hfilled ⊢
  obtain ⟨rfl, hminute'⟩ := htakes
  have hparts : ∀ second : Bytes, (∀ b ∈ second, isDigit b = true) →
      ∀ part ∈ (⟨year, month, day, hour, minute, second⟩ : DateFields).parts,
        ∀ b ∈ part, isDigit b = true := by
    intro second hsecond
    simp only [DateFields.parts, List.forall_mem_cons, List.not_mem_nil, false_imp_iff,
      implies_true]
    exact ⟨hyear, hmonth, hday, hhour, hminute, hsecond, trivial⟩
  obtain ⟨second, hsecond, ⟨c, text₆, rfl, hc, -, htakes, hrun⟩ | ⟨rfl, htakes, hrun⟩⟩ :=
    stage rfl rfl htext₅ (hfilled 5 (by decide))
  · rw [separator_eq htakes] at hrun
    rw [hrun]
    obtain ⟨hc', hsecond'⟩ := htakes
    obtain rfl := hc'.resolve_right hc
    refine ⟨⟨year, month, day, hour, minute, second⟩, hparts second hsecond,
      ⟨0x5A :: text₆, ?_, .inr rfl⟩, ⟨hyear', hmonth', hday', hhour', hminute', hsecond'⟩, ?_⟩
    · simp [DateFields.text]
    · exact dt_run le_rfl text₆
  · rw [separator_eq htakes] at hrun
    rw [hrun]
    refine ⟨⟨year, month, day, hour, minute, text₅⟩, hparts text₅ hsecond, ⟨[], ?_, .inl rfl⟩,
      ⟨hyear', hmonth', hday', hhour', hminute', htakes.2⟩, rfl⟩
    simp [DateFields.text]

/-- A place takes its number and the separator behind it. -/
theorem run_place {k : ℕ} (hidx : s.idx = k) (hvalue : s.value = 0) {digits : Bytes}
    (hdigits : ∀ b ∈ digits, isDigit b = true) {c : UInt8} (hc : isDateSeparator c = true)
    (htakes : (s.read digits).Takes c) (rest : Bytes) :
    s.run (digits ++ c :: rest) = DateScan.run ⟨(s.read digits).taken, k + 1, 0⟩ rest := by
  have hdigit : ¬isDigit c = true := by
    intro hd
    simp only [isDateSeparator, decide_eq_true_eq] at hc
    rcases hc with rfl | rfl | rfl | rfl <;> exact absurd hd (by decide)
  have hzero : c ≠ 0 := by
    rintro rfl
    exact absurd hc (by decide)
  obtain rfl := hidx
  rw [run_digits hvalue hdigits, DateScan.run, if_neg hdigit, if_neg hzero, if_pos hc,
    separator_eq htakes]
  rfl

theorem DateFields.dt_run {f : DateFields}
    (hdigits : ∀ part ∈ f.parts, ∀ b ∈ part, isDigit b = true)
    (h : f.wrapped.Accepted) {rest : Bytes} (hrest : rest = [] ∨ rest.head? = some 0x5A) :
    (DateScan.run {} (f.text ++ rest)).dt = f.wrapped.toTm := by
  obtain ⟨year, month, day, hour, minute, second⟩ := f
  simp only [DateFields.parts, List.forall_mem_cons, List.not_mem_nil, false_imp_iff, implies_true,
    and_true] at hdigits
  obtain ⟨hyear, hmonth, hday, hhour, hminute, hsecond⟩ := hdigits
  simp only [DateFields.text, List.append_assoc, List.cons_append]
  rw [run_place (k := 0) rfl rfl hyear rfl, run_place (k := 1) rfl rfl hmonth rfl,
    run_place (k := 2) rfl rfl hday rfl, run_place (k := 3) rfl rfl hhour rfl,
    run_place (k := 4) rfl rfl hminute rfl]
  rotate_left
  · exact ⟨rfl, h.minute⟩
  · exact ⟨rfl, h.hour⟩
  · exact ⟨rfl, h.day⟩
  · exact ⟨rfl, h.month⟩
  · exact ⟨rfl, h.year⟩
  rcases hrest with rfl | hhead
  · rw [run_digits rfl hsecond, DateScan.run, separator_eq]
    · rfl
    · exact ⟨.inr rfl, h.second⟩
  · obtain ⟨rest, rfl⟩ := List.head?_eq_some_iff.mp hhead
    have hZ : isDateSeparator 0x5A = true := rfl
    rw [run_place (k := 5) rfl rfl hsecond hZ, Inspector.dt_run le_rfl]
    · rfl
    · exact ⟨.inl rfl, h.second⟩

theorem lor_nonneg_iff {a b : ℤ} : 0 ≤ a.lor b ↔ 0 ≤ a ∧ 0 ≤ b := by
  have hneg : ∀ {n : ℕ}, ¬0 ≤ Int.negSucc n := Int.negSucc_not_nonneg _ |>.mp
  cases a with
  | ofNat m =>
    cases b with
    | ofNat n =>
      exact iff_of_true (Int.natCast_nonneg _) ⟨Int.natCast_nonneg m, Int.natCast_nonneg n⟩
    | negSucc n => exact iff_of_false hneg fun h => hneg h.2
  | negSucc m =>
    refine iff_of_false ?_ fun h => hneg h.1
    cases b with
    | ofNat n => exact hneg
    | negSucc n => exact hneg

theorem lor_pos {a b : ℤ} (ha : 0 < a) (hb : 0 ≤ b) : 0 < a.lor b := by
  obtain ⟨m, rfl⟩ := Int.eq_ofNat_of_zero_le ha.le
  obtain ⟨n, rfl⟩ := Int.eq_ofNat_of_zero_le hb
  have hle : m ≤ m ||| n := Nat.left_le_or
  have hm : 0 < m := Int.natCast_pos.mp ha
  exact Int.natCast_pos.mpr (hm.trans_le hle)

/-- `get_datetime` returns the numbers that it accepts, wherever six runs of digits are found. -/
theorem getDatetime_eq_some_iff {s : Bytes} {tm : Tm} :
    getDatetime s = some tm ↔
      ∃ f : DateFields, f.Spelled s ∧ f.wrapped.Accepted ∧ tm = f.wrapped.toTm := by
  have hzero : (0 : UInt8) ∉ s.takeWhile (· ≠ 0) := fun h => by
    simpa using List.mem_takeWhile_imp h
  rw [getDatetime, run_takeWhile]
  constructor
  · intro h
    split_ifs at h with hpos
    obtain ⟨hyear, hrest⟩ := lor_nonneg_iff.mp hpos.le
    obtain ⟨hmon, hrest⟩ := lor_nonneg_iff.mp hrest
    obtain ⟨hmday, hrest⟩ := lor_nonneg_iff.mp hrest
    obtain ⟨hhour, hrest⟩ := lor_nonneg_iff.mp hrest
    obtain ⟨hmin, hsec⟩ := lor_nonneg_iff.mp hrest
    obtain ⟨f, hdigits, htext, haccepted, hdt⟩ := exists_fields hzero fun k hk => by
      interval_cases k
      · exact hyear
      · exact hmon
      · exact hmday
      · exact hhour
      · exact hmin
      · exact hsec
    exact ⟨f, ⟨hdigits, htext⟩, haccepted, (Option.some.inj h).symm.trans hdt⟩
  · rintro ⟨f, ⟨hdigits, rest, htext, hrest⟩, haccepted, rfl⟩
    rw [htext, f.dt_run hdigits haccepted hrest, if_pos]
    have hyear := haccepted.year.1
    have hmonth := haccepted.month.1
    have hmon : (0 : ℤ) ≤ f.wrapped.month - 1 := by omega
    have hnonneg : ∀ n : ℕ, (0 : ℤ) ≤ n := fun n => Int.natCast_nonneg n
    refine lor_pos (by simp only [Stamp.toTm]; omega) ?_
    exact lor_nonneg_iff.mpr ⟨hmon, lor_nonneg_iff.mpr ⟨hnonneg _, lor_nonneg_iff.mpr
      ⟨hnonneg _, lor_nonneg_iff.mpr ⟨hnonneg _, hnonneg _⟩⟩⟩⟩

/-- A string is made of runs of digits in one way only. -/
theorem DateFields.Spelled.eq {f f' : DateFields} {s : Bytes} (h : f.Spelled s)
    (h' : f'.Spelled s) : f = f' := by
  obtain ⟨hdigits, rest, htext, hrest⟩ := h
  obtain ⟨hdigits', rest', htext', hrest'⟩ := h'
  obtain ⟨year, month, day, hour, minute, second⟩ := f
  obtain ⟨year', month', day', hour', minute', second'⟩ := f'
  have hcut : ∀ {l l' t t' : Bytes}, (∀ b ∈ l, isDigit b = true) → (∀ b ∈ l', isDigit b = true) →
      (∀ b ∈ t.head?, isDigit b = false) → (∀ b ∈ t'.head?, isDigit b = false) →
      l ++ t = l' ++ t' → l = l' ∧ t = t' := by
    intro l l' t t' hl hl' ht ht' heq
    have hsplit := takeWhile_digits hl ht
    rw [heq, (takeWhile_digits hl' ht').1, (takeWhile_digits hl' ht').2] at hsplit
    exact ⟨hsplit.1.symm, hsplit.2.symm⟩
  have hhead : ∀ {c : UInt8} {t : Bytes}, isDigit c = false → ∀ b ∈ (c :: t).head?,
      isDigit b = false := by
    rintro c t hc b ⟨⟩
    exact hc
  have hlast : ∀ {t : Bytes}, t = [] ∨ t.head? = some 0x5A → ∀ b ∈ t.head?, isDigit b = false := by
    rintro t (rfl | hZ) b hb
    · cases hb
    · rw [hZ] at hb
      cases hb
      rfl
  simp only [DateFields.parts, List.forall_mem_cons, List.not_mem_nil, false_imp_iff, implies_true,
    and_true] at hdigits hdigits'
  simp only [DateFields.text, List.append_assoc, List.cons_append] at htext htext'
  rw [htext] at htext'
  obtain ⟨rfl, heq₁⟩ := hcut hdigits.1 hdigits'.1 (hhead rfl) (hhead rfl) htext'
  obtain ⟨rfl, heq₂⟩ := hcut hdigits.2.1 hdigits'.2.1 (hhead rfl) (hhead rfl) (List.cons.inj heq₁).2
  obtain ⟨rfl, heq₃⟩ := hcut hdigits.2.2.1 hdigits'.2.2.1 (hhead rfl) (hhead rfl)
    (List.cons.inj heq₂).2
  obtain ⟨rfl, heq₄⟩ := hcut hdigits.2.2.2.1 hdigits'.2.2.2.1 (hhead rfl) (hhead rfl)
    (List.cons.inj heq₃).2
  obtain ⟨rfl, heq₅⟩ := hcut hdigits.2.2.2.2.1 hdigits'.2.2.2.2.1 (hhead rfl) (hhead rfl)
    (List.cons.inj heq₄).2
  obtain ⟨rfl, -⟩ := hcut hdigits.2.2.2.2.2 hdigits'.2.2.2.2.2 (hlast hrest) (hlast hrest')
    (List.cons.inj heq₅).2
  rfl

/-- Numbers of two or four digits need no more than 32 bits. -/
theorem DateFields.Exact.wrapped_eq {f : DateFields} (h : f.Exact)
    (hdigits : ∀ part ∈ f.parts, ∀ b ∈ part, isDigit b = true) : f.wrapped = f.stamp := by
  have hlt : ∀ {l : Bytes}, (∀ b ∈ l, isDigit b = true) → digitsValue l < 10 ^ l.length := by
    intro l
    induction l using List.reverseRecOn with
    | nil => exact fun _ => by decide
    | append_singleton l b ih =>
      intro hl
      have hvalue := ih fun b' hb' => hl b' (List.mem_append_left _ hb')
      have hb : digitValue b < 10 := by
        have hdigit := hl b (List.mem_append_right _ (List.mem_singleton_self b))
        rw [isDigit, decide_eq_true_iff] at hdigit
        have hle : b.toNat ≤ 0x39 := hdigit.2
        rw [digitValue]
        omega
      rw [digitsValue_concat, List.length_append, List.length_singleton, pow_succ]
      omega
  have hmod : ∀ {l : Bytes}, (∀ b ∈ l, isDigit b = true) → l.length ≤ 4 →
      digitsValue l % 2 ^ 32 = digitsValue l := by
    intro l hl hlen
    have hpow := Nat.pow_le_pow_right (n := 10) (by decide) hlen
    exact Nat.mod_eq_of_lt ((hlt hl).trans_le (hpow.trans (by decide)))
  obtain ⟨year, month, day, hour, minute, second⟩ := f
  simp only [DateFields.Exact, DateFields.parts, List.map_cons, List.map_nil, List.cons.injEq] at h
  simp only [DateFields.parts, List.forall_mem_cons, List.not_mem_nil, false_imp_iff, implies_true,
    and_true] at hdigits
  obtain ⟨hyear, hmonth, hday, hhour, hminute, hsecond, -⟩ := h
  simp only [DateFields.wrapped, DateFields.stamp]
  rw [hmod hdigits.1 (by omega), hmod hdigits.2.1 (by omega), hmod hdigits.2.2.1 (by omega),
    hmod hdigits.2.2.2.1 (by omega), hmod hdigits.2.2.2.2.1 (by omega),
    hmod hdigits.2.2.2.2.2 (by omega)]

/-- Reading is right exactly for the strings that are no six runs of digits, or runs as long as
those of a date-time but not the day that is left out, or runs of other lengths whose numbers are out
of range. -/
theorem readsDatetime_iff (s : Bytes) :
    ReadsDatetime s ↔ ∀ f : DateFields, f.Spelled s →
      (f.Exact → f.stamp.Valid → ¬f.stamp.IsLeapDay2000) ∧ (¬f.Exact → ¬f.wrapped.Accepted) := by
  constructor
  · intro h f hf
    refine ⟨fun hexact hvalid hleap => ?_, fun hexact haccepted => ?_⟩
    · have hsome := (h f.stamp.toTm).mpr ⟨f, hf, hexact, hvalid, rfl⟩
      obtain ⟨f', hf', haccepted, -⟩ := getDatetime_eq_some_iff.mp hsome
      obtain rfl := hf.eq hf'
      rw [hexact.wrapped_eq hf.digits] at haccepted
      exact (Stamp.accepted_iff.mp haccepted).2 hleap
    · have hsome := getDatetime_eq_some_iff.mpr ⟨f, hf, haccepted, rfl⟩
      obtain ⟨f', hf', hexact', -⟩ := (h _).mp hsome
      obtain rfl := hf.eq hf'
      exact hexact hexact'
  · intro h tm
    rw [getDatetime_eq_some_iff]
    constructor
    · rintro ⟨f, hf, haccepted, rfl⟩
      have hexact : f.Exact := by
        by_contra hexact
        exact (h f hf).2 hexact haccepted
      rw [hexact.wrapped_eq hf.digits] at haccepted ⊢
      exact ⟨f, hf, hexact, (Stamp.accepted_iff.mp haccepted).1, rfl⟩
    · rintro ⟨f, hf, hexact, hvalid, rfl⟩
      refine ⟨f, hf, ?_, ?_⟩
      · rw [hexact.wrapped_eq hf.digits]
        exact Stamp.accepted_iff.mpr ⟨hvalid, (h f hf).1 hexact hvalid⟩
      · rw [hexact.wrapped_eq hf.digits]

/-- `2000-02-29T12:30:00`. -/
def leapDay : DateFields :=
  ⟨[0x32, 0x30, 0x30, 0x30], [0x30, 0x32], [0x32, 0x39], [0x31, 0x32], [0x33, 0x30], [0x30, 0x30]⟩

/-- There is no time for it. -/
theorem not_readsDatetime_leapDay : ¬ReadsDatetime leapDay.text := by
  intro h
  have hspelled : leapDay.Spelled leapDay.text := ⟨by decide +kernel, [], by decide +kernel, .inl rfl⟩
  have hvalid : leapDay.stamp.Valid :=
    ⟨by decide, by decide, by decide, by decide, by decide, by decide⟩
  have hsome := (h leapDay.stamp.toTm).mpr ⟨leapDay, hspelled, rfl, hvalid, rfl⟩
  have hnone : getDatetime leapDay.text = none := by decide +kernel
  rw [hnone] at hsome
  cases hsome

end Language

end Inspector
