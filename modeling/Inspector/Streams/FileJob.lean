import Inspector.NutsBolts.Numbers

/-! # Jobs from files

`stream_read` of `fs_stream.c` hands out a file character by character. The second character of a
line end is left out, and so is every other one like it in the same run of line ends; a byte 0xFF is
no data, which ends the job; and a line feed is put behind the last character, whether or not it
ends a line.
-/

namespace Inspector

namespace FileStream

open Json

abbrev ASCII_LF : UInt8 := 0x0A
abbrev ASCII_CR : UInt8 := 0x0D

/-- `SERIAL_NO_DATA`. -/
def noData : ℤ := -1

/-- A byte as a signed character. -/
def signed (b : UInt8) : ℤ := if b.toNat < 128 then b.toNat else b.toNat - 256

/-- The character in the lower byte of what is returned. -/
def character (c : ℤ) : UInt8 := UInt8.ofNat (c % 256).toNat

/-- `STATE_IDLE`. -/
def stateIdle : UInt16 := 0

/-- `STATE_CYCLE|STATE_HOLD|STATE_CHECK_MODE|STATE_TOOL_CHANGE`. -/
def readingStates : UInt16 := 0x21A

/-- The states in which a job is read. -/
def Permitted (state : UInt16) : Prop := state = stateIdle ∨ state &&& readingStates ≠ 0

instance (state : UInt16) : Decidable (Permitted state) := inferInstanceAs (Decidable (_ ∨ _))

/-- `file_t`, with the bytes of the file and those that have not been read, and the flag of the
stream that is set in a scan for subprograms. -/
structure File where
  handle : Bool
  content : Bytes
  unread : Bytes
  lineNumber : ℕ := 1
  eol : UInt8 := 0
  scanSubs : Bool := false
  prescan : Bool := false

/-- `file_open`, and what `stream_file` does before it hands out the file. -/
def openFile (content : Bytes) (scanSubs : Bool) : File :=
  { handle := true, content := content, unread := content, scanSubs := scanSubs }

/-- `file_read`: the character, the memory of a line end, and the bytes that are left. -/
def fileRead (eol : UInt8) : Bytes → ℤ × UInt8 × Bytes
  | [] => (noData, 0, [])
  | b :: unread =>
    if isLineEnd b then
      if eol ≠ 0 ∧ b ≠ eol then fileRead eol unread else (signed b, b, unread)
    else (signed b, 0, unread)

namespace File

variable (s : File)

/-- `file_rewind`. -/
def rewind : File := { s with unread := s.content, eol := 0, lineNumber := 1 }

/-- The end of a file: a scan for subprograms begins again, a job is over. -/
def endOfFile : File :=
  if s.scanSubs then { s.rewind with scanSubs := false, prescan := false }
  else { s with handle := false }

/-- The memory of a line end decides whether a line feed is returned at the end. -/
def lastCharacter : ℤ × File := (if s.eol = 0 then (ASCII_LF.toNat : ℤ) else noData, s)

/-- `stream_read`. What it does when there is no file any more is left out. -/
def streamRead (state : UInt16) : ℤ × File :=
  let s := { s with lineNumber := if s.eol ≠ 0 then s.lineNumber + 1 else s.lineNumber }
  if s.handle then
    let r := if Permitted state then fileRead s.eol s.unread else (noData, s.eol, s.unread)
    let s := { s with eol := r.2.1, unread := r.2.2 }
    if r.1 = noData then s.endOfFile.lastCharacter else (r.1, s)
  else (noData, s)

/-- The file after so many calls, in the states that grblHAL is in. -/
def after (states : ℕ → UInt16) : ℕ → File → File
  | 0, s => s
  | n + 1, s => after (fun i => states (i + 1)) n (s.streamRead (states 0)).2

/-- What these calls return. -/
def delivered (states : ℕ → UInt16) : ℕ → File → List ℤ
  | 0, _ => []
  | n + 1, s =>
    (s.streamRead (states 0)).1 :: delivered (fun i => states (i + 1)) n (s.streamRead (states 0)).2

/-- A job ends with a call, and has delivered these characters. -/
def Delivers (states : ℕ → UInt16) (s : File) (characters : Bytes) : Prop :=
  ∃ n, (∀ i < n, (after states i s).handle = true) ∧ (after states n s).handle = false ∧
    (delivered states n s).map character = characters ∧ noData ∉ delivered states n s

end File

/-- Line ends of two characters are joined. -/
def joined : Bytes → Bytes
  | [] => []
  | [b] => [b]
  | a :: b :: text =>
    if isLineEnd a ∧ isLineEnd b ∧ a ≠ b then a :: joined text else a :: joined (b :: text)

/-- A text without a line end at its end gets one. -/
def terminated (content : Bytes) : Bytes :=
  joined content ++ if isLineEnd (content.getLast?.getD 0) then [] else [ASCII_LF]

/-- A job is to deliver its file, with joined line ends and a line end behind the last line; a scan
for subprograms in front of it delivers the same. -/
def DeliversFile (content : Bytes) (scanSubs : Bool) : Prop :=
  ∀ states : ℕ → UInt16, (∀ i, Permitted (states i)) →
    (openFile content scanSubs).Delivers states
      (if scanSubs then terminated content ++ terminated content else terminated content)

/-- What a job makes of the rest of a file, behind a run of line ends that began with `eol`. -/
def pass (eol : UInt8) : Bytes → Bytes
  | [] => [ASCII_LF]
  | b :: unread =>
    if b = 0xFF then [ASCII_LF]
    else if isLineEnd b then
      if eol ≠ 0 ∧ b ≠ eol then pass eol unread else b :: pass b unread
    else b :: pass 0 unread

section Reading

variable {s : File} {states : ℕ → UInt16} {l l' : Bytes} {eol b : UInt8}

theorem character_signed (b : UInt8) : character (signed b) = b := by
  have hlt := b.toNat_lt
  have hmod : (signed b % 256).toNat = b.toNat := by
    rw [signed]
    split_ifs <;> omega
  rw [character, hmod, UInt8.ofNat_toNat]

theorem signed_eq_noData_iff : signed b = noData ↔ b = 0xFF := by
  have hlt := b.toNat_lt
  have hff : (0xFF : UInt8).toNat = 255 := rfl
  rw [signed, noData, ← UInt8.toNat_inj, hff]
  by_cases hsmall : b.toNat < 128
  · rw [if_pos hsmall]
    constructor <;> intro h <;> omega
  · rw [if_neg hsmall]
    constructor <;> intro h <;> omega

/-- What one call of `file_read` has to do with the rest of the job. -/
theorem pass_fileRead (eol : UInt8) (unread : Bytes) :
    (fileRead eol unread).1 = noData ∧ (fileRead eol unread).2.1 = 0 ∧
        pass eol unread = [ASCII_LF] ∨
      (fileRead eol unread).1 ≠ noData ∧ (fileRead eol unread).2.2.length < unread.length ∧
        pass eol unread = character (fileRead eol unread).1 ::
          pass (fileRead eol unread).2.1 (fileRead eol unread).2.2 := by
  induction unread with
  | nil => exact .inl ⟨rfl, rfl, rfl⟩
  | cons b unread ih =>
    rw [fileRead, pass]
    by_cases hff : b = 0xFF
    · rw [if_pos hff, hff]
      exact .inl ⟨rfl, rfl, rfl⟩
    · have hdata : signed b ≠ noData := fun h => hff (signed_eq_noData_iff.mp h)
      rw [if_neg hff]
      split_ifs
      · rcases ih with ⟨hread, heol, hpass⟩ | ⟨hread, hlen, hpass⟩
        · exact .inl ⟨hread, heol, hpass⟩
        · exact .inr ⟨hread, hlen.trans (Nat.lt_succ_self _), hpass⟩
      · exact .inr ⟨hdata, Nat.lt_succ_self _, by rw [character_signed]⟩
      · exact .inr ⟨hdata, Nat.lt_succ_self _, by rw [character_signed]⟩

theorem File.delivers_cons (hs : s.handle = true)
    (hdata : (s.streamRead (states 0)).1 ≠ noData)
    (h : (s.streamRead (states 0)).2.Delivers (fun i => states (i + 1)) l) :
    s.Delivers states (character (s.streamRead (states 0)).1 :: l) := by
  obtain ⟨n, hopen, hclosed, hchars, hnodata⟩ := h
  refine ⟨n + 1, fun i hi => ?_, hclosed, congrArg (_ :: ·) hchars, fun hmem => ?_⟩
  · cases i with
    | zero => exact hs
    | succ i => exact hopen i (Nat.lt_of_succ_lt_succ hi)
  · rcases List.mem_cons.mp hmem with heq | hmem
    · exact hdata heq.symm
    · exact hnodata hmem

theorem File.delivers_nil (hs : s.handle = false) : s.Delivers states [] :=
  ⟨0, fun _ h => absurd h (Nat.not_lt_zero _), hs, rfl, List.not_mem_nil⟩

/-- A job ends once. -/
theorem File.Delivers.eq (h : s.Delivers states l) (h' : s.Delivers states l') : l = l' := by
  obtain ⟨n, hopen, hclosed, rfl, -⟩ := h
  obtain ⟨m, hopen', hclosed', rfl, -⟩ := h'
  have hnm : n = m := by
    rcases lt_trichotomy n m with hlt | heq | hlt
    · rw [hopen' n hlt] at hclosed
      cases hclosed
    · exact heq
    · rw [hopen m hlt] at hclosed'
      cases hclosed'
  rw [hnm]

/-- The file behind some characters. -/
def File.at (s : File) (lineNumber : ℕ) (eol : UInt8) (unread : Bytes) : File :=
  { s with lineNumber := lineNumber, eol := eol, unread := unread }

/-- One call of `stream_read` while a job is read. -/
theorem File.streamRead_cases (hs : s.handle = true) (hstate : Permitted (states 0)) :
    ((s.streamRead (states 0)).1 ≠ noData ∧ ∃ lineNumber eol unread,
        unread.length < s.unread.length ∧
        (s.streamRead (states 0)).2 = s.at lineNumber eol unread ∧
        pass s.eol s.unread = character (s.streamRead (states 0)).1 :: pass eol unread) ∨
      (s.streamRead (states 0)).1 = ASCII_LF.toNat ∧ pass s.eol s.unread = [ASCII_LF] ∧
        ∃ lineNumber unread,
          (s.streamRead (states 0)).2 = (s.at lineNumber 0 unread).endOfFile := by
  rw [File.streamRead]
  simp only [hs, if_true, if_pos hstate]
  rcases pass_fileRead s.eol s.unread with ⟨hread, heol, hpass⟩ | ⟨hread, hlen, hpass⟩
  · right
    have hend : ∀ lineNumber unread, (s.at lineNumber 0 unread).endOfFile.eol = 0 := by
      intro lineNumber unread
      rw [File.endOfFile]
      split_ifs <;> rfl
    simp only [if_pos hread, heol, File.lastCharacter]
    refine ⟨if_pos ?_, hpass, (if s.eol ≠ 0 then s.lineNumber + 1 else s.lineNumber),
      (fileRead s.eol s.unread).2.2, ?_⟩
    · rw [← hs]
      exact hend _ _
    · rw [← hs]
      rfl
  · left
    simp only [if_neg hread]
    refine ⟨hread, (if s.eol ≠ 0 then s.lineNumber + 1 else s.lineNumber), _, _, hlen, ?_, hpass⟩
    rw [← hs]
    rfl

/-- The rest of a file is delivered, and what there is to do at its end is left. -/
theorem File.delivers_append (hs : s.handle = true) (hstates : ∀ i, Permitted (states i))
    (hend : ∀ states lineNumber unread, (∀ i, Permitted (states i)) →
      (s.at lineNumber 0 unread).endOfFile.Delivers states l) :
    s.Delivers states (pass s.eol s.unread ++ l) := by
  have hnodata : (ASCII_LF.toNat : ℤ) ≠ noData := by decide
  have hlast : character ASCII_LF.toNat = ASCII_LF := by decide
  generalize hlen : s.unread.length = k
  induction k using Nat.strong_induction_on generalizing s states with
  | _ k ih =>
    rcases s.streamRead_cases hs (hstates 0) with
      ⟨hdata, lineNumber, eol, unread, hlt, hnext, hpass⟩ |
        ⟨hdata, hpass, lineNumber, unread, hnext⟩
    · rw [hpass]
      apply File.delivers_cons hs hdata
      rw [hnext]
      exact ih unread.length (hlen ▸ hlt) (s := s.at lineNumber eol unread) hs
        (fun i => hstates (i + 1)) hend rfl
    · have hrest := hend (fun i => states (i + 1)) lineNumber unread fun i => hstates (i + 1)
      rw [← hnext] at hrest
      have hcons := File.delivers_cons hs (by rw [hdata]; exact hnodata) hrest
      rw [hdata, hlast] at hcons
      rw [hpass]
      exact hcons

/-- A job delivers its file, and does so again behind a scan for subprograms. -/
theorem delivers_openFile (content : Bytes) (scanSubs : Bool)
    (hstates : ∀ i, Permitted (states i)) :
    (openFile content scanSubs).Delivers states
      (pass 0 content ++ if scanSubs then pass 0 content else []) := by
  have hclosed : ∀ {s : File}, s.handle = true → s.scanSubs = false → ∀ {states},
      (∀ i, Permitted (states i)) → s.Delivers states (pass s.eol s.unread ++ []) := by
    intro s hs hscan states hstates
    refine File.delivers_append hs hstates fun states lineNumber unread _ => File.delivers_nil ?_
    have hscan : (s.at lineNumber 0 unread).scanSubs = false := hscan
    rw [File.endOfFile, if_neg (by rw [hscan]; exact Bool.false_ne_true)]
  cases scanSubs with
  | false => exact hclosed rfl rfl hstates
  | true =>
    refine File.delivers_append rfl hstates fun states lineNumber unread hstates => ?_
    have hagain := hclosed (s := ((openFile content true).at lineNumber 0 unread).endOfFile) rfl rfl
      hstates
    rwa [List.append_nil] at hagain

/-- Whether a job delivers its file is decided by one pass over it. -/
theorem deliversFile_iff_pass (content : Bytes) (scanSubs : Bool) :
    DeliversFile content scanSubs ↔ pass 0 content = terminated content := by
  constructor
  · intro h
    have hidle : ∀ i : ℕ, Permitted ((fun _ => stateIdle) i) := fun _ => .inl rfl
    have heq := (delivers_openFile content scanSubs hidle).eq (h _ hidle)
    cases scanSubs with
    | false => simpa using heq
    | true =>
      simp only [if_true] at heq
      have hlen := congrArg List.length heq
      rw [List.length_append, List.length_append] at hlen
      exact (List.append_inj heq (by omega)).1
  · intro h states hstates
    have hdelivers := delivers_openFile content scanSubs hstates
    rw [h] at hdelivers
    cases scanSubs with
    | false => simpa using hdelivers
    | true => exact hdelivers

end Reading

/-- The rest of a file is delivered as it is to be. `eol` is the first one of the line ends in front
of it, if it follows any, and `second` says that the last one of these is left out: no byte is 0xFF,
no line end that differs from the first one of its run follows another one like it, and the last
byte is no line end; but a line feed that follows such a one may be the last byte. -/
def Clean (eol : UInt8) (second : Bool) : Bytes → Prop
  | [] => eol = 0
  | b :: unread =>
    b ≠ 0xFF ∧
      if isLineEnd b then
        if eol ≠ 0 ∧ b ≠ eol then
          if second then b = ASCII_LF ∧ unread = [] else Clean eol true unread
        else Clean b false unread
      else Clean 0 false unread

section Texts

variable {a b e : UInt8} {l t : Bytes}

theorem ne_zero_of_isLineEnd (h : isLineEnd b = true) : b ≠ 0 := by
  rintro rfl
  exact absurd h (by decide)

theorem ne_ff_of_isLineEnd (h : isLineEnd b = true) : b ≠ 0xFF := by
  rintro rfl
  exact absurd h (by decide)

theorem isLineEnd_lf : isLineEnd ASCII_LF = true := by decide

/-- The line end that is supplied. -/
def supplied (eol : UInt8) (l : Bytes) : Bytes :=
  if isLineEnd (l.getLast?.getD eol) then [] else [ASCII_LF]

@[simp] theorem supplied_cons (eol b : UInt8) (l : Bytes) :
    supplied eol (b :: l) = supplied b l := by
  rw [supplied, supplied, List.getLast?_cons]
  rfl

theorem supplied_congr (h : isLineEnd a = isLineEnd b) (l : Bytes) :
    supplied a l = supplied b l := by
  cases l with
  | nil => exact if_congr (by simp [h]) rfl rfl
  | cons c l => rw [supplied_cons, supplied_cons]

theorem joined_ne_nil (b : UInt8) (l : Bytes) : joined (b :: l) ≠ [] := by
  cases l with
  | nil => exact List.cons_ne_nil _ _
  | cons c l =>
    rw [joined]
    split_ifs <;> exact List.cons_ne_nil _ _

theorem joined_pair (ha : isLineEnd a = true) (hb : isLineEnd b = true) (hne : a ≠ b) (l : Bytes) :
    joined (a :: b :: l) = a :: joined l := by
  rw [joined, if_pos ⟨ha, hb, hne⟩]

theorem joined_single (h : ¬(isLineEnd a = true ∧ isLineEnd b = true ∧ a ≠ b)) (l : Bytes) :
    joined (a :: b :: l) = a :: joined (b :: l) := by
  rw [joined, if_neg h]

theorem joined_ordinary (ha : ¬isLineEnd a = true) (l : Bytes) :
    joined (a :: l) = a :: joined l := by
  cases l with
  | nil => rfl
  | cons b l => exact joined_single (fun h => ha h.1) l

/-- Behind a pair, a job delivers a line end of the second kind only at the end of the file. -/
theorem eq_nil_of_pass (he : isLineEnd e = true) (hb : isLineEnd b = true) (hne : b ≠ e)
    (h : pass e l = b :: t) : t = [] := by
  induction l with
  | nil => exact (List.cons.inj h).2.symm
  | cons c l ih =>
    rw [pass] at h
    split_ifs at h with hff hc hdrop
    · exact (List.cons.inj h).2.symm
    · exact ih h
    · have hce : c = e := by
        by_contra hce
        exact hdrop ⟨ne_zero_of_isLineEnd he, hce⟩
      exact absurd ((List.cons.inj h).1.symm.trans hce) hne
    · rw [(List.cons.inj h).1] at hc
      exact absurd hb hc

theorem pass_eq_joined_iff (he : isLineEnd e = true) (hb : isLineEnd b = true) (hne : b ≠ e) :
    pass e l = joined (b :: l) ++ supplied b l ↔ b = ASCII_LF ∧ l = [] := by
  constructor
  · intro h
    cases l with
    | nil =>
      have hsupplied : supplied b [] = [] := if_pos hb
      rw [hsupplied] at h
      exact ⟨(List.cons.inj h).1.symm, rfl⟩
    | cons c l =>
      exfalso
      by_cases hpair : isLineEnd c = true ∧ b ≠ c
      · have hce : c = e := by
          simp only [isLineEnd, decide_eq_true_eq] at hb hpair he
          obtain ⟨hc, hbc⟩ := hpair
          rcases hb with rfl | rfl <;> rcases he with rfl | rfl <;> rcases hc with rfl | rfl
          all_goals first | rfl | exact absurd rfl hbc | exact absurd rfl hne
        have hstay : ¬(e ≠ 0 ∧ e ≠ e) := fun h => h.2 rfl
        rw [joined_pair hb hpair.1 hpair.2, hce, pass, if_neg (ne_ff_of_isLineEnd he), if_pos he,
          if_neg hstay] at h
        exact hne (List.cons.inj h).1.symm
      · rw [joined_single fun h => hpair h.2, List.cons_append] at h
        have hnil := eq_nil_of_pass he hb hne h
        exact joined_ne_nil c l (List.append_eq_nil_iff.mp hnil).1
  · rintro ⟨rfl, rfl⟩
    have hsupplied : supplied ASCII_LF [] = [] := if_pos isLineEnd_lf
    rw [hsupplied]
    rfl

/-- What is delivered of the rest of a file is right: behind a line end that may be the first of a
pair, behind a pair, and behind anything else. -/
structure Right (l : Bytes) : Prop where
  single : ∀ a, isLineEnd a = true →
    (a :: pass a l = joined (a :: l) ++ supplied a l ↔ Clean a false l)
  pair : ∀ e, isLineEnd e = true → (pass e l = joined l ++ supplied e l ↔ Clean e true l)
  ordinary : pass 0 l = joined l ++ supplied 0 l ↔ Clean 0 false l

theorem right_nil : Right [] := by
  have hzero : supplied 0 [] = [ASCII_LF] := rfl
  refine ⟨fun a ha => ?_, fun e he => ?_, iff_of_true rfl rfl⟩
  · have hsupplied : supplied a [] = [] := if_pos ha
    rw [hsupplied]
    exact iff_of_false (fun h => List.cons_ne_nil _ _ (List.cons.inj h).2) (ne_zero_of_isLineEnd ha)
  · have hsupplied : supplied e [] = [] := if_pos he
    rw [hsupplied]
    exact iff_of_false (List.cons_ne_nil _ _) (ne_zero_of_isLineEnd he)

/-- A byte 0xFF ends a job, and is not delivered. -/
theorem right_ff (l : Bytes) : Right (0xFF :: l) := by
  have hff : ¬isLineEnd 0xFF = true := by decide
  have hpass : ∀ eol, pass eol (0xFF :: l) = [ASCII_LF] := fun eol => if_pos rfl
  have hclean : ∀ eol second, ¬Clean eol second (0xFF :: l) := fun eol second h => h.1 rfl
  have hne : ASCII_LF ≠ (0xFF : UInt8) := by decide
  refine ⟨fun a _ => iff_of_false ?_ (hclean a false), fun e _ => iff_of_false ?_ (hclean e true),
    iff_of_false ?_ (hclean 0 false)⟩
  · rw [hpass, joined_single fun h => hff h.2.1, joined_ordinary hff]
    exact fun h => hne (List.cons.inj (List.cons.inj h).2).1
  · rw [hpass, joined_ordinary hff]
    exact fun h => hne (List.cons.inj h).1
  · rw [hpass, joined_ordinary hff]
    exact fun h => hne (List.cons.inj h).1

theorem Right.cons_lineEnd (h : Right l) (hb : isLineEnd b = true) : Right (b :: l) := by
  have hff := ne_ff_of_isLineEnd hb
  have hfirst : ∀ second, pass 0 (b :: l) = b :: pass b l ∧
      (Clean 0 second (b :: l) ↔ Clean b false l) := by
    intro second
    rw [pass, if_neg hff, if_pos hb, if_neg fun h => h.1 rfl, Clean, if_pos hb,
      if_neg fun h => h.1 rfl]
    exact ⟨rfl, and_iff_right hff⟩
  have hsame : ∀ second, pass b (b :: l) = b :: pass b l ∧
      (Clean b second (b :: l) ↔ Clean b false l) := by
    intro second
    rw [pass, if_neg hff, if_pos hb, if_neg fun h => h.2 rfl, Clean, if_pos hb,
      if_neg fun h => h.2 rfl]
    exact ⟨rfl, and_iff_right hff⟩
  have hother : ∀ {e}, isLineEnd e = true → b ≠ e → ∀ second, pass e (b :: l) = pass e l ∧
      (Clean e second (b :: l) ↔
        if second then b = ASCII_LF ∧ l = [] else Clean e true l) := by
    intro e he hne second
    rw [pass, if_neg hff, if_pos hb, if_pos ⟨ne_zero_of_isLineEnd he, hne⟩, Clean, if_pos hb,
      if_pos ⟨ne_zero_of_isLineEnd he, hne⟩]
    exact ⟨rfl, and_iff_right hff⟩
  refine ⟨fun a ha => ?_, fun e he => ?_, ?_⟩
  · rw [supplied_cons]
    by_cases hne : b = a
    · subst hne
      rw [(hsame false).1, (hsame false).2, joined_single fun h => h.2.2 rfl, List.cons_append,
        List.cons_inj_right]
      exact h.single b hb
    · rw [(hother ha hne false).1, (hother ha hne false).2, joined_pair ha hb fun h => hne h.symm,
        List.cons_append, List.cons_inj_right, supplied_congr (hb.trans ha.symm)]
      exact h.pair a ha
  · rw [supplied_cons]
    by_cases hne : b = e
    · subst hne
      rw [(hsame true).1, (hsame true).2]
      exact h.single b hb
    · rw [(hother he hne true).1, (hother he hne true).2]
      exact pass_eq_joined_iff he hb hne
  · rw [supplied_cons, (hfirst false).1, (hfirst false).2]
    exact h.single b hb

theorem Right.cons_ordinary (h : Right l) (hff : b ≠ 0xFF) (hb : ¬isLineEnd b = true) :
    Right (b :: l) := by
  have hpass : ∀ eol, pass eol (b :: l) = b :: pass 0 l := by
    intro eol
    rw [pass, if_neg hff, if_neg hb]
  have hclean : ∀ eol second, Clean eol second (b :: l) ↔ Clean 0 false l := by
    intro eol second
    rw [Clean, if_neg hb]
    exact and_iff_right hff
  have hsupplied : supplied b l = supplied 0 l :=
    supplied_congr ((Bool.not_eq_true _).mp hb) l
  have hrest : b :: pass 0 l = b :: joined l ++ supplied 0 l ↔ Clean 0 false l := by
    rw [List.cons_append, List.cons_inj_right]
    exact h.ordinary
  refine ⟨fun a _ => ?_, fun e _ => ?_, ?_⟩
  · rw [hpass, hclean, supplied_cons, hsupplied, joined_single fun h => hb h.2.1,
      joined_ordinary hb, List.cons_append, List.cons_inj_right]
    exact hrest
  · rw [hpass, hclean, supplied_cons, hsupplied, joined_ordinary hb]
    exact hrest
  · rw [hpass, hclean, supplied_cons, hsupplied, joined_ordinary hb]
    exact hrest

theorem right (l : Bytes) : Right l := by
  induction l with
  | nil => exact right_nil
  | cons b l ih =>
    by_cases hff : b = 0xFF
    · rw [hff]
      exact right_ff l
    · by_cases hb : isLineEnd b = true
      · exact ih.cons_lineEnd hb
      · exact ih.cons_ordinary hff hb

/-- A job delivers its file exactly if the file is clean. -/
theorem deliversFile_iff (content : Bytes) (scanSubs : Bool) :
    DeliversFile content scanSubs ↔ Clean 0 false content :=
  (deliversFile_iff_pass content scanSubs).trans (right content).ordinary

/-- A line with its end: another line feed is delivered. -/
theorem not_deliversFile : ¬DeliversFile [0x47, 0x30, 0x0A] false := by
  rw [deliversFile_iff_pass]
  decide

end Texts

end FileStream

end Inspector
