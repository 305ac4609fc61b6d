import Inspector.Gcode.NormalizeBlock
import Mathlib.Data.FinEnum

/-! # The text of a normalised block

The text that is left depends on the line and on block delete alone: what stands outside of
comments, without blanks and closing parentheses, in upper case. Whatever handles comments writes
between the text that is left and what is still to be read.
-/

namespace Inspector

namespace Gcode

open Json (Bytes)
open ToolTable (caps)

/-- What stands outside of comments. A comment begins with an opening parenthesis and ends with the
first closing one, or it begins with a semicolon. -/
def uncommented : Bool → Bytes → Bytes
  | _, [] => []
  | true, c :: cs => uncommented (c ≠ ')'.toUInt8) cs
  | false, c :: cs =>
    if c = ';'.toUInt8 then []
    else if c = '('.toUInt8 then uncommented true cs
    else c :: uncommented false cs

/-- The characters that are kept, from a place inside or outside of a comment. -/
def executable (inside : Bool) (text : Bytes) : Bytes :=
  ((uncommented inside text).filter fun c => ' '.toUInt8 < c ∧ c ≠ ')'.toUInt8).map caps

/-- The line without blanks in front and the slash of block delete; nothing of a line that is a
comment or deleted. -/
def body (blockDelete : Bool) (line : Bytes) : Bytes :=
  match line.dropWhile fun c => c ≤ ' '.toUInt8 with
  | [] => []
  | c :: cs =>
    if c = ';'.toUInt8 ∨ c = '/'.toUInt8 ∧ blockDelete then []
    else if c = '/'.toUInt8 then cs
    else c :: cs

/-- A comment ends with the first closing parenthesis. -/
theorem uncommented_true (text : Bytes) :
    uncommented true text = uncommented false ((text.dropWhile fun c => c ≠ ')'.toUInt8).drop 1) := by
  induction text with
  | nil => rfl
  | cons c cs ih =>
    rw [uncommented]
    by_cases hc : c = ')'.toUInt8
    · simp [hc]
    · simp [hc, ih]

theorem executable_nil (inside : Bool) : executable inside [] = [] := by
  cases inside <;> rfl

theorem executable_true_cons (c : UInt8) (cs : Bytes) :
    executable true (c :: cs) = executable (c ≠ ')'.toUInt8) cs := rfl

theorem executable_false_cons (c : UInt8) (cs : Bytes) :
    executable false (c :: cs) =
      if c = ';'.toUInt8 then []
      else if c = '('.toUInt8 then executable true cs
      else if ' '.toUInt8 < c ∧ c ≠ ')'.toUInt8 then caps c :: executable false cs
      else executable false cs := by
  rw [executable, uncommented]
  split_ifs with hsemicolon hopening hkept
  · rfl
  · rfl
  · rw [List.filter_cons_of_pos (by exact decide_eq_true hkept)]
    rfl
  · rw [List.filter_cons_of_neg (by simpa using hkept)]
    rfl

/-- One character of a text, as the loop tells them apart. -/
theorem executable_cons (inside : Bool) (c : UInt8) (cs : Bytes) :
    executable inside (c :: cs) =
      if c ≤ ' '.toUInt8 then executable inside cs
      else if c = ';'.toUInt8 then if inside then executable inside cs else []
      else if c = '('.toUInt8 then executable true cs
      else if c = ')'.toUInt8 then executable false cs
      else if inside then executable inside cs else caps c :: executable inside cs := by
  have hvisible : ∀ d ∈ [';'.toUInt8, '('.toUInt8, ')'.toUInt8], ¬ d ≤ ' '.toUInt8 := by
    decide +kernel
  cases inside with
  | true =>
    rw [executable_true_cons]
    by_cases hclosing : c = ')'.toUInt8
    · subst hclosing
      rfl
    · rw [decide_eq_true hclosing, if_neg hclosing, if_pos rfl, if_pos rfl, ite_self, ite_self,
        ite_self]
  | false =>
    rw [executable_false_cons]
    by_cases hblank : c ≤ ' '.toUInt8
    · have hne : ∀ d ∈ [';'.toUInt8, '('.toUInt8, ')'.toUInt8], c ≠ d := by
        rintro d hd rfl
        exact hvisible c hd hblank
      rw [if_pos hblank, if_neg (hne _ (by simp)), if_neg (hne _ (by simp)),
        if_neg fun h => UInt8.not_lt.mpr hblank h.1]
    · rw [if_neg hblank, if_neg Bool.false_ne_true, if_neg Bool.false_ne_true]
      by_cases hclosing : c = ')'.toUInt8
      · subst hclosing
        rfl
      · have hkept : ' '.toUInt8 < c ∧ c ≠ ')'.toUInt8 := ⟨UInt8.not_le.mp hblank, hclosing⟩
        rw [if_neg hclosing, if_pos hkept]

theorem caps_ne_zero : ∀ {c : UInt8}, ' '.toUInt8 < c → caps c ≠ 0 := by
  decide +kernel

/-- What is kept has no terminator. -/
theorem ne_zero_of_mem_executable {inside : Bool} {text : Bytes} {c : UInt8}
    (hc : c ∈ executable inside text) : c ≠ 0 := by
  obtain ⟨d, hd, rfl⟩ := List.mem_map.mp hc
  exact caps_ne_zero (of_decide_eq_true (List.mem_filter.mp hd).2).1

namespace Scan

variable {S R : Type*} {env : Setting S} {n n' n'' : Scan S} {k : ℕ} {tail : Bytes}

/-- The comment at `k` is handled: only its text may have changed. -/
structure Kept (k : ℕ) (n n' : Scan S) : Prop where
  s1 : n'.s1 = n.s1
  s2 : n'.s2 = n.s2
  before : n'.mem.take k = n.mem.take k
  behind : n'.mem.drop n.s1 = n.mem.drop n.s1

theorem Kept.refl (k : ℕ) (n : Scan S) : Kept k n n := ⟨rfl, rfl, rfl, rfl⟩

theorem Kept.trans (h : Kept k n n') (h' : Kept k n' n'') : Kept k n n'' where
  s1 := h'.s1.trans h.s1
  s2 := h'.s2.trans h.s2
  before := h'.before.trans h.before
  behind := by
    have hbehind := h'.behind
    rw [h.s1] at hbehind
    exact hbehind.trans h.behind

/-- A text ends in front of the next terminator. -/
theorem length_cstring_le (hk : k ≤ n.s1) (hend : n.mem.drop n.s1 = 0 :: tail) :
    k + (cstring n.mem k).length ≤ n.s1 := by
  have hsplit : n.mem.drop k = (n.mem.drop k).take (n.s1 - k) ++ 0 :: tail := by
    rw [← hend, ← Nat.add_sub_cancel' hk, ← List.drop_drop, Nat.add_sub_cancel_left,
      List.take_append_drop]
  have hlen : (cstring n.mem k).length ≤ ((n.mem.drop k).take (n.s1 - k)).length := by
    rw [cstring, hsplit, List.takeWhile_append]
    split_ifs with hall
    · rw [List.takeWhile_cons_of_neg (by simp), List.append_nil, ← hsplit]
    · rw [← hsplit]
      exact (List.takeWhile_prefix _).length_le
  have htake := List.length_take_le (n.s1 - k) (n.mem.drop k)
  omega

theorem kept_handle (f : CommentHandler R) (hk : k ≤ n.s1) (hend : n.mem.drop n.s1 = 0 :: tail) :
    Kept k n (n.handle f k).2 := by
  have hlen := length_cstring_le hk hend
  have hmem : n.s1 < n.mem.length := by
    by_contra hge
    rw [List.drop_eq_nil_of_le (Nat.le_of_not_lt hge)] at hend
    cases hend
  have htake : (n.mem.take k).length = k := List.length_take_of_le (by omega)
  refine ⟨rfl, rfl, ?_, ?_⟩
  · change (n.mem.take k ++ _ ++ _).take k = _
    rw [List.append_assoc, List.take_left' htake]
  · change (n.mem.take k ++ (f.call (cstring n.mem k)).2 ++ _).drop n.s1 = _
    have hlength : (n.mem.take k ++ (f.call (cstring n.mem k)).2).length =
        k + (cstring n.mem k).length := by
      rw [List.length_append, htake, f.length_call]
    rw [List.drop_append, List.drop_eq_nil_of_le (hlength.trans_le hlen), hlength, List.drop_drop,
      List.nil_append, Nat.add_sub_cancel' hlen]

theorem Kept.end (h : Kept k n n') (hend : n.mem.drop n.s1 = 0 :: tail) :
    n'.mem.drop n'.s1 = 0 :: tail := by
  rw [h.s1, h.behind, hend]

theorem kept_extract (hk : k ≤ n.s1) (hend : n.mem.drop n.s1 = 0 :: tail) :
    Kept k n (n.extract env k) := by
  have hprocess : Kept k n (n.process env k) := by
    rw [process]
    split
    · rename_i f _
      exact (kept_handle f hk hend).trans ⟨rfl, rfl, rfl, rfl⟩
    · exact .refl k n
  have hcopy : Kept k (n.process env k) ((n.process env k).copyMessage env k) := by
    rw [copyMessage]
    split_ifs
    · exact ⟨rfl, rfl, rfl, rfl⟩
    · exact .refl k _
  rw [extract]
  split_ifs
  · exact hprocess.trans hcopy
  · exact .refl k n

theorem kept_event (hk : k ≤ n.s1) (hend : n.mem.drop n.s1 = 0 :: tail) :
    Kept k n (n.event env k) := by
  rw [event]
  split
  · rename_i f _
    split_ifs
    · exact (kept_handle f hk hend).trans ⟨rfl, rfl, rfl, rfl⟩
    · exact .refl k n
  · exact .refl k n

/-- The loop has written `out` behind `pre`, and `rest` is what it reads up to the terminator. A
comment is between the two. -/
structure Scanned (pre out rest : Bytes) (n : Scan S) : Prop where
  written : n.mem.take n.s2 = pre ++ out
  unread : ∃ tail, n.mem.drop n.s1 = rest ++ 0 :: tail
  le : n.s2 ≤ n.s1
  comment : ∀ k ∈ n.comment, n.s2 < k ∧ k ≤ n.s1

variable {pre out rest : Bytes} {c : UInt8}

theorem Scanned.s1_lt (h : Scanned pre out rest n) : n.s1 < n.mem.length := by
  obtain ⟨tail, htail⟩ := h.unread
  by_contra hge
  rw [List.drop_eq_nil_of_le (Nat.le_of_not_lt hge)] at htail
  exact absurd htail.symm (by simp)

theorem Scanned.length_written (h : Scanned pre out rest n) :
    pre.length + out.length = n.s2 := by
  rw [← List.length_append, ← h.written, List.length_take, min_eq_left (h.le.trans h.s1_lt.le)]

/-- The next character. -/
theorem Scanned.getElem? (h : Scanned pre out (c :: rest) n) : n.mem[n.s1]? = some c := by
  obtain ⟨tail, htail⟩ := h.unread
  rw [← Nat.add_zero n.s1, ← List.getElem?_drop, htail]
  rfl

theorem Scanned.drop_succ (h : Scanned pre out (c :: rest) n) :
    ∃ tail, n.mem.drop (n.s1 + 1) = rest ++ 0 :: tail := by
  obtain ⟨tail, htail⟩ := h.unread
  refine ⟨tail, ?_⟩
  rw [← List.drop_drop, htail]
  rfl

/-- A character is read over. -/
theorem Scanned.skip (h : Scanned pre out (c :: rest) n) :
    Scanned pre out rest { n with s1 := n.s1 + 1 } where
  written := h.written
  unread := h.drop_succ
  le := h.le.trans (Nat.le_succ _)
  comment := fun k hk => ⟨(h.comment k hk).1, (h.comment k hk).2.trans (Nat.le_succ _)⟩

/-- A terminator is put in the place of a character. -/
theorem Scanned.plant (h : Scanned pre out (c :: rest) n) :
    Scanned pre out (0 :: rest) (n.put n.s1 0) where
  written := by
    rw [← h.written]
    exact List.take_set_of_le h.le
  unread := by
    obtain ⟨tail, htail⟩ := h.drop_succ
    refine ⟨tail, ?_⟩
    have hlt : n.s1 < (n.mem.set n.s1 0).length := h.s1_lt.trans_eq List.length_set.symm
    change (n.mem.set n.s1 0).drop n.s1 = _
    rw [List.drop_eq_getElem_cons hlt, List.getElem_set_self, List.drop_set_of_lt (Nat.lt_succ_self _),
      htail]
    rfl
  le := h.le
  comment := h.comment

/-- The line ends at a terminator. -/
theorem Scanned.cut (h : Scanned pre out (0 :: rest) n) : Scanned pre out [] n where
  written := h.written
  unread := h.unread.imp' (fun tail => rest ++ 0 :: tail) fun _ htail => htail
  le := h.le
  comment := h.comment

/-- The comment at `k` has been handled. -/
theorem Scanned.kept (h : Scanned pre out rest n) (hk : n.s2 < k) (hkept : Kept k n n') :
    Scanned pre out rest { n' with comment := none } where
  written := by
    have htake : n'.mem.take n.s2 = n.mem.take n.s2 := by
      rw [← min_eq_left hk.le, ← List.take_take, hkept.before, List.take_take]
    exact hkept.s2 ▸ htake.trans h.written
  unread := by
    obtain ⟨tail, htail⟩ := h.unread
    exact ⟨tail, hkept.s1 ▸ hkept.behind.trans htail⟩
  le := hkept.s1 ▸ hkept.s2 ▸ h.le
  comment := fun _ hk => by cases hk

/-- A comment begins. -/
theorem Scanned.enter (h : Scanned pre out (c :: rest) n) :
    Scanned pre out rest { n with comment := some (n.s1 + 1), s1 := n.s1 + 1 } where
  written := h.written
  unread := h.drop_succ
  le := h.le.trans (Nat.le_succ _)
  comment := by
    rintro k hk
    obtain rfl := Option.some.inj hk
    exact ⟨Nat.lt_succ_of_le h.le, le_rfl⟩

/-- A character is kept. -/
theorem Scanned.keep (h : Scanned pre out (c :: rest) n) (d : UInt8) (hcomment : n.comment = none) :
    Scanned pre (out ++ [d]) rest { n.put n.s2 d with s2 := n.s2 + 1, s1 := n.s1 + 1 } where
  written := by
    have hlt : n.s2 < n.mem.length := h.le.trans_lt h.s1_lt
    change (n.mem.set n.s2 d).take (n.s2 + 1) = _
    rw [List.take_add_one, List.take_set_of_le le_rfl, h.written, List.getElem?_set_self hlt,
      List.append_assoc]
    rfl
  unread := by
    obtain ⟨tail, htail⟩ := h.drop_succ
    refine ⟨tail, ?_⟩
    rw [← htail]
    exact List.drop_set_of_lt (Nat.lt_succ_of_le h.le)
  le := Nat.succ_le_succ h.le
  comment := by
    intro k hk
    rw [put, hcomment] at hk
    cases hk

/-- A comment is handled. -/
theorem Scanned.close (h : Scanned pre out (c :: rest) n) :
    Scanned pre out rest { n.close env with s1 := n.s1 + 1 } := by
  rw [Scan.close]
  cases hcomment : n.comment with
  | none => exact h.skip
  | some k =>
    dsimp only
    split_ifs
    · exact (h.kept (h.comment k hcomment).1 (.refl k n)).skip
    · obtain ⟨hs2, hs1⟩ := h.comment k hcomment
      obtain ⟨tail, hend⟩ := h.plant.unread
      have hextract : Kept k (n.put n.s1 0) ((n.put n.s1 0).extract env k) :=
        kept_extract hs1 hend
      have hevent : Kept k ((n.put n.s1 0).extract env k)
          (((n.put n.s1 0).extract env k).event env k) :=
        kept_event (hs1.trans_eq hextract.s1.symm) (hextract.end hend)
      have hskip := (h.plant.kept hs2 (hextract.trans hevent)).skip
      rw [hextract.trans hevent |>.s1] at hskip
      exact hskip

theorem comment_close : (n.close env).comment = none := by
  rw [Scan.close]
  split
  · split_ifs <;> rfl
  · assumption

/-- A character is read, and what is kept of the line stays the same. -/
theorem Scanned.step (h : Scanned pre out (c :: rest) n) :
    ∃ out' rest', rest' <:+ rest ∧ Scanned pre out' rest' (n.step env c) ∧
      out' ++ executable (n.step env c).comment.isSome rest' =
        out ++ executable n.comment.isSome (c :: rest) := by
  have hinside : n.comment.isSome = true ↔ ¬ n.comment = none := Option.isSome_iff_ne_none
  rw [executable_cons, Scan.step]
  simp only [hinside, ite_not]
  split_ifs with hblank hsemicolon hnone hopening hclosing hnone
  · exact ⟨out, rest, List.suffix_rfl, h.skip, rfl⟩
  · refine ⟨out, [], List.nil_suffix, h.plant.cut, ?_⟩
    rw [executable_nil]
  · exact ⟨out, rest, List.suffix_rfl, h.skip, rfl⟩
  · exact ⟨out, rest, List.suffix_rfl, h.enter, rfl⟩
  · refine ⟨out, rest, List.suffix_rfl, h.close, ?_⟩
    change out ++ executable (n.close env).comment.isSome rest = _
    rw [comment_close]
    rfl
  · refine ⟨out ++ [caps c], rest, List.suffix_rfl, h.keep (caps c) hnone, ?_⟩
    rw [List.append_assoc]
    rfl
  · exact ⟨out, rest, List.suffix_rfl, h.skip, rfl⟩

/-- The loop ends, and has written what is kept of the line. -/
theorem Scanned.loop (env : ℕ → Setting S) {fuel : ℕ} (hrest : (0 : UInt8) ∉ rest)
    (hfuel : rest.length < fuel) (h : Scanned pre out rest n) :
    ∃ n', n.loop env fuel = some n' ∧
      Scanned pre (out ++ executable n.comment.isSome rest) [] n' := by
  induction fuel generalizing n out rest with
  | zero => exact absurd hfuel (Nat.not_lt_zero _)
  | succ fuel ih =>
    rw [Scan.loop]
    cases rest with
    | nil =>
      obtain ⟨tail, htail⟩ := h.unread
      have hend : n.mem[n.s1]? = some 0 := by
        rw [← Nat.add_zero n.s1, ← List.getElem?_drop, htail]
        rfl
      refine ⟨n, ?_, ?_⟩
      · rw [hend]
        rfl
      · rwa [executable_nil, List.append_nil]
    | cons c rest =>
      obtain ⟨hc, hrest⟩ := not_or.mp (List.mem_cons.not.mp hrest)
      obtain ⟨out', rest', hsuffix, hscanned, hout⟩ := h.step
      have hlen : rest'.length < fuel :=
        hsuffix.length_le.trans_lt (Nat.succ_lt_succ_iff.mp hfuel)
      obtain ⟨n', hloop, hn'⟩ := ih (fun hmem => hrest (hsuffix.subset hmem)) hlen hscanned
      refine ⟨n', ?_, hout ▸ hn'⟩
      rw [h.getElem?, Option.bind_some, if_neg (Ne.symm hc), hloop]

/-- The text behind `pre` is what has been written. -/
theorem Scanned.cstring_eq (h : Scanned pre out rest n) (hout : ∀ c ∈ out, c ≠ 0) :
    cstring (n.mem.set n.s2 0) pre.length = out := by
  have hlt : n.s2 < n.mem.length := h.le.trans_lt h.s1_lt
  rw [cstring, List.set_eq_take_append_cons_drop, if_pos hlt, h.written, List.append_assoc,
    List.drop_left, List.takeWhile_append_of_pos (by simpa using hout),
    List.takeWhile_cons_of_neg (by simp), List.append_nil]

end Scan

section Line

variable {S : Type*} (env : ℕ → Setting S) {line : Bytes} {block : ℕ} (status : S)
  (message : Option Bytes)

/-- The loop begins at `block`. -/
theorem scanned_start (hblock : block ≤ line.length) :
    Scan.Scanned (line.take block) [] (line.drop block)
      ⟨line ++ [0], block, block, none, status, message⟩ where
  written := by rw [List.take_append_of_le_length hblock, List.append_nil]
  unread := ⟨[], List.drop_append_of_le_length hblock⟩
  le := le_rfl
  comment := fun k hk => by cases hk

/-- The text from `block` on is normalised. -/
theorem loop_start (hline : (0 : UInt8) ∉ line) (hblock : block ≤ line.length) :
    ∃ n : Scan S,
      Scan.loop env (line.length + 2) ⟨line ++ [0], block, block, none, status, message⟩ = some n ∧
        cstring (n.mem.set n.s2 0) block = executable false (line.drop block) := by
  have hrest : (0 : UInt8) ∉ line.drop block := fun h => hline (List.mem_of_mem_drop h)
  have hfuel : (line.drop block).length < line.length + 2 := by
    rw [List.length_drop]
    omega
  obtain ⟨n, hn, hscanned⟩ := (scanned_start status message hblock).loop env hrest hfuel
  have htext := hscanned.cstring_eq fun c hc => ne_zero_of_mem_executable hc
  rw [List.length_take_of_le hblock] at htext
  exact ⟨n, hn, htext⟩

/-- A line is normalised, whatever is met at the closing parentheses: the text that is returned is
what stands outside of comments behind the blanks in front and the slash of block delete, without
blanks and closing parentheses, in upper case. -/
theorem gcNormalizeBlock_eq (blockDelete : Bool) (hline : (0 : UInt8) ∉ line) :
    ∃ status' message', gcNormalizeBlock env blockDelete line status message =
      some ⟨executable false (body blockDelete line), status', message'⟩ := by
  have hblanks : (line.takeWhile fun c => c ≤ ' '.toUInt8).length ≤ line.length :=
    (List.takeWhile_prefix _).length_le
  have hdrop : line.drop (line.takeWhile fun c => c ≤ ' '.toUInt8).length =
      line.dropWhile fun c => c ≤ ' '.toUInt8 := by
    have hleft := @List.drop_left _ (line.takeWhile fun c => c ≤ ' '.toUInt8)
      (line.dropWhile fun c => c ≤ ' '.toUInt8)
    rwa [List.takeWhile_append_dropWhile] at hleft
  have hfirst : (line)[(line.takeWhile fun c => c ≤ ' '.toUInt8).length]? =
      (line.dropWhile fun c => c ≤ ' '.toUInt8).head? := by
    rw [← hdrop, List.head?_drop]
  rw [gcNormalizeBlock, body]
  simp only [hfirst]
  generalize (line.takeWhile fun c => c ≤ ' '.toUInt8).length = blanks at hblanks hdrop ⊢
  cases hrest : line.dropWhile fun c => c ≤ ' '.toUInt8 with
  | nil =>
    obtain ⟨n, hn, htext⟩ := loop_start env status message hline hblanks
    rw [hdrop, hrest] at htext
    refine ⟨n.status, n.message, ?_⟩
    simp [hn, htext]
  | cons c cs =>
    simp only [List.head?_cons, Option.some.injEq]
    split_ifs with hnone hslash
    · have htext := (scanned_start status message hblanks).cstring_eq (by simp)
      rw [List.length_take_of_le hblanks] at htext
      exact ⟨status, message, by rw [htext, executable_nil]⟩
    · have hlt : blanks + 1 ≤ line.length := by
        by_contra hge
        rw [List.drop_eq_nil_of_le (by omega), hrest] at hdrop
        cases hdrop
      obtain ⟨n, hn, htext⟩ := loop_start env status message hline hlt
      rw [← List.drop_drop, hdrop, hrest] at htext
      refine ⟨n.status, n.message, ?_⟩
      rw [hn, Option.map_some, htext]
      rfl
    · obtain ⟨n, hn, htext⟩ := loop_start env status message hline hblanks
      rw [hdrop, hrest] at htext
      refine ⟨n.status, n.message, ?_⟩
      rw [hn, Option.map_some, htext]

end Line

/-- The line `/g1 (a) x;b`. -/
def commented : Bytes :=
  ['/', 'g', '1', ' ', '(', 'a', ')', ' ', 'x', ';', 'b'].map Char.toUInt8

/-- A handler that ends the text of a comment in front of its first character. -/
def silenced : CommentHandler Bool where
  call text := (true, text.set 0 0)
  length_call _ := List.length_set

theorem gcNormalizeBlock_eq_commented :
    ∃ status' message',
      gcNormalizeBlock (fun _ => { onGcodeComment := some silenced }) false commented false none =
        some ⟨['G'.toUInt8, '1'.toUInt8, 'X'.toUInt8], status', message'⟩ :=
  gcNormalizeBlock_eq (fun _ => { onGcodeComment := some silenced }) false none false
    (by decide)

/-- A closing parenthesis outside of a comment is taken out although it is none. -/
theorem not_gcNormalizeBlock_keeps :
    ¬ ∀ line : Bytes, (0 : UInt8) ∉ line →
      (gcNormalizeBlock (fun _ => ({} : Setting Unit)) false line () none).map Normalized.block =
        some (((uncommented false (body false line)).filter fun c => ' '.toUInt8 < c).map caps) := by
  intro h
  have hclosing := h [')'.toUInt8] (by decide)
  revert hclosing
  decide

end Gcode

end Inspector
