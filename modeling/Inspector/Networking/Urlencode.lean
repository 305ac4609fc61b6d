import Inspector.Memory.Range
import Inspector.Strutils.Stristr

/-! # Percent-encoding

`urlencode` counts three bytes for an escaped character, and its call of `itoa` writes the digits
and a terminator behind them. The escape of a byte below 16 has one digit, so that the terminator
stays in the text. What is left of the size is only compared with zero, and it is unsigned.
-/

namespace Inspector

open Json

namespace Networking

open Strutils (Letter Text char)

/-- `isalnum`. -/
def isalnum (c : UInt8) : Bool :=
  (0x30 ≤ c && c ≤ 0x39) || (0x41 ≤ c && c ≤ 0x5A) || (0x61 ≤ c && c ≤ 0x7A)

/-- `isxdigit`. -/
def isxdigit (c : UInt8) : Bool :=
  (0x30 ≤ c && c ≤ 0x39) || (0x41 ≤ c && c ≤ 0x46) || (0x61 ≤ c && c ≤ 0x66)

/-- The table of the characters that are escaped. -/
def encode (c : UInt8) : Bool :=
  126 < c || !(isalnum c || c == 0x7E || c == 0x2D || c == 0x2E || c == 0x5F)

def hexDigit (n : UInt8) : UInt8 := if n < 10 then 0x30 + n else 0x57 + n

/-- The text of `itoa(c, s, 16)`. -/
def itoa (c : UInt8) : Bytes :=
  if c < 16 then [hexDigit c] else [hexDigit (c / 16), hexDigit (c % 16)]

/-- The bytes that are written from `encoded` on, and the pointer to the next one. -/
structure Output where
  bytes : ℕ → Option UInt8
  s2 : ℕ

def Output.write (o : Output) (offset : ℕ) (cs : Bytes) : ℕ → Option UInt8 :=
  Memory.write (o.s2 + offset) (cs.map some) o.bytes

/-- The loop of `urlencode`. -/
def encodeLoop : Text → BitVec 32 → Output → BitVec 32 × Output
  | [], size, o => (size, o)
  | c :: s1, size, o =>
    if size = 0 then (size, o)
    else if encode c then
      encodeLoop s1 (size - 2 - 1) ⟨o.write 0 (0x25 :: (itoa c ++ [0])), o.s2 + 3⟩
    else encodeLoop s1 (size - 1) ⟨o.write 0 [c.val], o.s2 + 1⟩

/-- `urlencode`: its result, and what it has written. -/
def urlencode (uri : Text) (size : BitVec 32) : ℤ × (ℕ → Option UInt8) :=
  let r := encodeLoop uri size ⟨fun _ => none, 0⟩
  if r.1 ≠ 0 then (0, r.2.write 0 [0]) else (-1, r.2.bytes)

/-- The value of a digit in `urldecode`. -/
def digitValue (a : UInt8) : UInt8 :=
  let a := if 0x61 ≤ a then a - 0x20 else a
  if 0x41 ≤ a then a - 0x37 else a - 0x30

/-- A character outside of an escape. -/
def unescaped (c : UInt8) : UInt8 := if c = 0x2B then 0x20 else c

/-- `urldecode`, for the string in front of a terminator: what it writes in front of its own. -/
def urldecode : Bytes → Bytes
  | [] => []
  | [c] => [unescaped c]
  | [c, a] => [unescaped c, unescaped a]
  | c :: a :: b :: rest =>
    if c = 0x25 ∧ isxdigit a ∧ isxdigit b then
      (16 * digitValue a + digitValue b) :: urldecode rest
    else unescaped c :: urldecode (a :: b :: rest)

/-- A string has been written, with its terminator. -/
structure Holds (out : ℕ → Option UInt8) (t : Bytes) : Prop where
  not_mem : 0 ∉ t
  bytes : ∀ i ≤ t.length, out i = (t ++ [0])[i]?

/-- What an encoded string is to be. -/
structure Encodes (uri : Text) (size : BitVec 32) : Prop where
  bounded : ∀ i, size.toNat ≤ i → (urlencode uri size).2 i = none
  decodes : (urlencode uri size).1 = 0 →
    ∃ t, Holds (urlencode uri size).2 t ∧ urldecode t = uri.map Subtype.val

/-- The bytes that are counted for a character. -/
def width (c : Letter) : ℕ := if encode c then 3 else 1

/-- The bytes that are counted for a string. -/
def widths (s : Text) : ℕ := (s.map width).sum

/-- The escapes that begin inside of a size have room, with the terminator that is written behind
their digits. -/
def HasRoom (uri : Text) (size : ℕ) : Prop :=
  ∀ (pre : Text) (c : Letter) (post : Text), uri = pre ++ c :: post → encode c = true →
    widths pre < size → widths pre + (itoa c).length + 2 ≤ size

/-- The bytes of a character that the next one leaves. -/
def block (c : Letter) : Bytes := if encode c then 0x25 :: (itoa c ++ [0]).take 2 else [c.val]

variable {c : Letter} {s uri : Text} {bs : Bytes} {n : ℕ} {o : Output}

theorem length_itoa (c : UInt8) : (itoa c).length = if c < 16 then 1 else 2 := by
  unfold itoa
  split_ifs <;> rfl

theorem length_itoa_pos (c : UInt8) : 1 ≤ (itoa c).length := by
  rw [length_itoa]
  split_ifs <;> omega

@[simp] theorem length_block (c : Letter) : (block c).length = width c := by
  unfold block width
  split_ifs
  · rw [List.length_cons, List.length_take, List.length_append, length_itoa, List.length_singleton]
    split_ifs <;> rfl
  · rfl

@[simp] theorem length_flatMap_block (s : Text) : (s.flatMap block).length = widths s := by
  rw [List.length_flatMap, widths]
  exact congrArg List.sum (List.map_congr_left fun c _ => length_block c)

/-- Behind the bytes of a string: nothing is written from `n` on. -/
structure Written (o : Output) (bs : Bytes) (n : ℕ) : Prop where
  s2_eq : o.s2 = bs.length
  bytes : ∀ i < bs.length, o.bytes i = bs[i]?
  bounded : ∀ i, n ≤ i → o.bytes i = none

theorem write_of_none {i k : ℕ} {cs : Bytes} (h : o.write k cs i = none) :
    o.bytes i = none ∧ ¬(o.s2 + k ≤ i ∧ i < o.s2 + k + cs.length) := by
  rw [Output.write, Memory.write_apply] at h
  split_ifs at h with hle
  · rw [List.getElem?_map] at h
    rcases hget : cs[i - (o.s2 + k)]? with - | v
    · rw [hget] at h
      rw [List.getElem?_eq_none_iff] at hget
      exact ⟨h, by omega⟩
    · rw [hget] at h
      cases h
  · exact ⟨h, fun hin => hle hin.1⟩

/-- Bytes are written behind those that are there, and some of them are kept. -/
theorem Written.write (h : Written o bs n) {cs kept : Bytes} (hpre : kept <+: cs)
    (hfit : bs.length + cs.length ≤ n) :
    Written ⟨o.write 0 cs, o.s2 + kept.length⟩ (bs ++ kept) n := by
  have hlen := hpre.length_le
  refine ⟨?_, fun i hi => ?_, fun i hi => ?_⟩
  · rw [List.length_append, h.s2_eq]
  · rw [List.length_append] at hi
    simp only [Output.write, Memory.write_apply, Nat.add_zero, h.s2_eq]
    split_ifs with hle
    · have hlt : i - bs.length < kept.length := by omega
      have hget : cs[i - bs.length]? = kept[i - bs.length]? := by
        rw [List.getElem?_eq_getElem hlt]
        exact List.prefix_iff_getElem?.mp hpre _ hlt
      rw [List.getElem?_map, hget, List.getElem?_append_right hle,
        List.getElem?_eq_getElem hlt]
      rfl
    · rw [h.bytes i (not_le.mp hle), List.getElem?_append_left (not_le.mp hle)]
  · simp only [Output.write, Memory.write_apply, Nat.add_zero, h.s2_eq]
    rw [if_pos (by omega), List.getElem?_map, List.getElem?_eq_none (by omega), h.bounded i hi]
    rfl

theorem block_isPrefix (h : encode c = true) : block c <+: 0x25 :: (itoa c ++ [0]) := by
  rw [block, if_pos h]
  exact List.cons_prefix_cons.mpr ⟨rfl, List.take_prefix 2 _⟩

theorem width_of_encode (h : encode c = true) : width c = 3 := if_pos h

theorem width_of_not_encode (h : ¬encode c = true) : width c = 1 := if_neg h

@[simp] theorem widths_nil : widths [] = 0 := rfl

@[simp] theorem widths_cons (c : Letter) (s : Text) : widths (c :: s) = width c + widths s := by
  simp [widths]

/-- An escape that has room. -/
theorem Written.escape (h : Written o bs n) (hc : encode c = true)
    (hroom : bs.length + (itoa c).length + 2 ≤ n) :
    Written ⟨o.write 0 (0x25 :: (itoa c ++ [0])), o.s2 + 3⟩ (bs ++ block c) n := by
  have hlen : (block c).length = 3 := (length_block c).trans (width_of_encode hc)
  rw [← hlen]
  refine h.write (block_isPrefix hc) ?_
  rw [List.length_cons, List.length_append, List.length_singleton]
  omega

theorem Written.plain (h : Written o bs n) (hc : ¬encode c = true) (hroom : bs.length < n) :
    Written ⟨o.write 0 [c.val], o.s2 + 1⟩ (bs ++ block c) n := by
  have hblock : block c = [c.val] := if_neg hc
  rw [hblock]
  exact h.write (List.prefix_refl _) hroom

/-- What the loop has not written before it ends. -/
theorem encodeLoop_none {size : BitVec 32} {i : ℕ}
    (h : (encodeLoop s size o).2.bytes i = none) : o.bytes i = none := by
  induction s generalizing size o with
  | nil => exact h
  | cons c s ih =>
    rw [encodeLoop] at h
    split_ifs at h
    · exact h
    · exact (write_of_none (ih h)).1
    · exact (write_of_none (ih h)).1

/-- What is left of the size behind an escape that has room. -/
theorem toNat_sub_three {size : BitVec 32} (h : 3 ≤ size.toNat) :
    (size - 2 - 1).toNat = size.toNat - 3 := by
  bv_omega

theorem toNat_pos {size : BitVec 32} (h : size ≠ 0) : 0 < size.toNat := by
  rw [Nat.pos_iff_ne_zero]
  exact fun hzero => h (BitVec.eq_of_toNat_eq hzero)

theorem toNat_sub_one {size : BitVec 32} (h : 1 ≤ size.toNat) :
    (size - 1).toNat = size.toNat - 1 := by
  bv_omega

/-- The escapes in the rest of a string have room. -/
def RoomBehind (s : Text) (k n : ℕ) : Prop :=
  ∀ (pre : Text) (c : Letter) (post : Text), s = pre ++ c :: post → encode c = true →
    k + widths pre < n → k + widths pre + (itoa c).length + 2 ≤ n

theorem roomBehind_cons {k : ℕ} : RoomBehind (c :: s) k n ↔
    (encode c = true → k < n → k + (itoa c).length + 2 ≤ n) ∧ RoomBehind s (k + width c) n := by
  constructor
  · intro h
    refine ⟨fun hc hlt => h [] c s rfl hc hlt, fun pre d post heq hd hlt => ?_⟩
    have hroom := h (c :: pre) d post (by rw [heq]; rfl) hd
    rw [widths_cons, ← Nat.add_assoc] at hroom
    exact hroom hlt
  · rintro ⟨hfirst, hrest⟩ (- | ⟨d, pre⟩) e post heq he hlt
    · obtain ⟨rfl, rfl⟩ := List.cons.inj heq
      exact hfirst he hlt
    · obtain ⟨rfl, rfl⟩ := List.cons.inj heq
      rw [widths_cons, ← Nat.add_assoc] at hlt ⊢
      exact hrest pre e post rfl he hlt

/-- The loop ends behind the string, or with nothing left of the size. -/
theorem encodeLoop_of_room {size : BitVec 32} (h : Written o bs n)
    (hsize : size.toNat + bs.length = n) (hroom : RoomBehind s bs.length n) :
    (encodeLoop s size o).1.toNat = n - (bs.length + widths s) ∧
      (∀ i, n ≤ i → (encodeLoop s size o).2.bytes i = none) ∧
      (bs.length + widths s < n →
        Written (encodeLoop s size o).2 (bs ++ s.flatMap block) n) := by
  induction s generalizing size o bs with
  | nil =>
    rw [encodeLoop, List.flatMap_nil, List.append_nil]
    refine ⟨?_, h.bounded, fun _ => h⟩
    change size.toNat = _
    rw [widths_nil]
    omega
  | cons c s ih =>
    obtain ⟨hfirst, hrest⟩ := roomBehind_cons.mp hroom
    have hlen : (bs ++ block c).length = bs.length + width c := by
      rw [List.length_append, length_block]
    rw [← hlen] at hrest
    rw [encodeLoop, List.flatMap_cons, ← List.append_assoc, widths_cons, ← Nat.add_assoc, ← hlen]
    by_cases hzero : size = 0
    · rw [if_pos hzero]
      have hnothing : size.toNat = 0 := congrArg BitVec.toNat hzero
      refine ⟨?_, h.bounded, fun hlt => ?_⟩
      · change size.toNat = _
        omega
      · omega
    · have hpos := toNat_pos hzero
      rw [if_neg hzero]
      by_cases hc : encode c = true
      · have hfit := hfirst hc (by omega)
        have hdigits := length_itoa_pos c
        have hthree : 3 ≤ size.toNat := by omega
        rw [if_pos hc]
        refine ih (h.escape hc hfit) ?_ hrest
        rw [toNat_sub_three hthree, hlen, width_of_encode hc]
        omega
      · rw [if_neg hc]
        refine ih (h.plain hc (by omega)) ?_ hrest
        rw [toNat_sub_one hpos, hlen, width_of_not_encode hc]
        omega

/-- A loop that writes nothing behind the size. -/
theorem room_of_encodeLoop {size : BitVec 32} (h : Written o bs n)
    (hsize : size.toNat + bs.length = n)
    (hbounded : ∀ i, n ≤ i → (encodeLoop s size o).2.bytes i = none) :
    RoomBehind s bs.length n := by
  induction s generalizing size o bs with
  | nil =>
    intro pre c post heq
    cases pre <;> cases heq
  | cons c s ih =>
    have hlen : (bs ++ block c).length = bs.length + width c := by
      rw [List.length_append, length_block]
    rw [roomBehind_cons, ← hlen]
    rw [encodeLoop] at hbounded
    by_cases hzero : size = 0
    · have hnothing : size.toNat = 0 := congrArg BitVec.toNat hzero
      refine ⟨fun _ hlt => by omega, fun pre d post _ _ hlt => ?_⟩
      omega
    · have hpos := toNat_pos hzero
      rw [if_neg hzero] at hbounded
      by_cases hc : encode c = true
      · rw [if_pos hc] at hbounded
        have hfit : bs.length + (itoa c).length + 2 ≤ n := by
          by_contra hgt
          have hnone :=
            write_of_none (encodeLoop_none (hbounded (max n bs.length) (le_max_left _ _)))
          refine hnone.2 ?_
          rw [h.s2_eq, List.length_cons, List.length_append, List.length_singleton]
          omega
        have hdigits := length_itoa_pos c
        have hthree : 3 ≤ size.toNat := by omega
        refine ⟨fun _ _ => hfit, ih (h.escape hc hfit) ?_ hbounded⟩
        rw [toNat_sub_three hthree, hlen, width_of_encode hc]
        omega
      · rw [if_neg hc] at hbounded
        refine ⟨fun hc' => absurd hc' hc, ih (h.plain hc (by omega)) ?_ hbounded⟩
        rw [toNat_sub_one hpos, hlen, width_of_not_encode hc]
        omega

section Decoding

/-- What holds of every byte. -/
theorem forall_byte {p : UInt8 → Prop} (h : ∀ n < 256, p (UInt8.ofNat n)) (c : UInt8) : p c := by
  rw [← UInt8.ofNat_toNat (x := c)]
  exact h c.toNat c.toNat_lt

theorem digits_decode : ∀ c : UInt8, 16 ≤ c →
    isxdigit (hexDigit (c / 16)) ∧ isxdigit (hexDigit (c % 16)) ∧
      16 * digitValue (hexDigit (c / 16)) + digitValue (hexDigit (c % 16)) = c :=
  forall_byte (by decide +kernel)

theorem hexDigit_ne_zero : ∀ c : UInt8, hexDigit (c / 16) ≠ 0 ∧ hexDigit (c % 16) ≠ 0 :=
  forall_byte (by decide +kernel)

theorem encode_of_lt : ∀ c : UInt8, c < 16 → encode c = true ∧ hexDigit c ≠ 0 :=
  forall_byte (by decide +kernel)

theorem urldecode_cons_of_ne {c : UInt8} (h : c ≠ 0x25) (t : Bytes) :
    urldecode (c :: t) = unescaped c :: urldecode t := by
  rcases t with - | ⟨a, - | ⟨b, t⟩⟩
  · rfl
  · rfl
  · rw [urldecode, if_neg (fun hc => h hc.1)]

theorem urldecode_escape {c : UInt8} (hc : 16 ≤ c) (t : Bytes) :
    urldecode (0x25 :: (itoa c ++ t)) = c :: urldecode t := by
  obtain ⟨hhigh, hlow, hvalue⟩ := digits_decode c hc
  rw [itoa, if_neg (UInt8.not_lt.mpr hc)]
  change urldecode (0x25 :: hexDigit (c / 16) :: hexDigit (c % 16) :: t) = _
  rw [urldecode, if_pos ⟨rfl, hhigh, hlow⟩, hvalue]

theorem block_of_le (hc : 16 ≤ c.val) (h : encode c = true) : block c = 0x25 :: itoa c := by
  rw [block, if_pos h, itoa, if_neg (UInt8.not_lt.mpr hc)]
  rfl

theorem block_of_lt (hc : c.val < 16) : block c = [0x25, hexDigit c, 0] := by
  rw [block, if_pos (encode_of_lt c hc).1, itoa, if_pos hc]
  rfl

theorem urldecode_block (hc : 16 ≤ c.val) (t : Bytes) :
    urldecode (block c ++ t) = c.val :: urldecode t := by
  by_cases h : encode c = true
  · rw [block_of_le hc h, List.cons_append, urldecode_escape hc]
  · have hplus : c.val ≠ 0x2B := fun heq => h (heq ▸ by decide)
    have hpercent : c.val ≠ 0x25 := fun heq => h (heq ▸ by decide)
    rw [block, if_neg h, List.singleton_append, urldecode_cons_of_ne hpercent, unescaped,
      if_neg hplus]

theorem urldecode_flatMap (hs : ∀ c ∈ s, 16 ≤ c.val) (t : Bytes) :
    urldecode (s.flatMap block ++ t) = s.map Subtype.val ++ urldecode t := by
  induction s with
  | nil => rfl
  | cons c s ih =>
    rw [List.flatMap_cons, List.append_assoc, urldecode_block (hs c List.mem_cons_self),
      ih fun d hd => hs d (List.mem_cons_of_mem c hd), List.map_cons, List.cons_append]

theorem not_mem_block (hc : 16 ≤ c.val) : 0 ∉ block c := by
  by_cases h : encode c = true
  · obtain ⟨hhigh, hlow⟩ := hexDigit_ne_zero c
    rw [block_of_le hc h, itoa, if_neg (UInt8.not_lt.mpr hc)]
    simp only [List.mem_cons, List.not_mem_nil, or_false, not_or]
    exact ⟨by decide, hhigh.symm, hlow.symm⟩
  · rw [block, if_neg h, List.mem_singleton]
    exact c.2.symm

theorem not_mem_flatMap (hs : ∀ c ∈ s, 16 ≤ c.val) : 0 ∉ s.flatMap block := by
  rw [List.mem_flatMap]
  rintro ⟨c, hc, hmem⟩
  exact not_mem_block (hs c hc) hmem

/-- A string ends at its first zero. -/
theorem Holds.length_le {out : ℕ → Option UInt8} {t t' : Bytes} (h : Holds out t)
    (h' : Holds out t') : t'.length ≤ t.length := by
  by_contra hlt
  rw [not_le] at hlt
  have hzero := h.bytes t.length le_rfl
  rw [h'.bytes t.length hlt.le, List.getElem?_append_left hlt, List.getElem?_append_right le_rfl,
    Nat.sub_self, List.getElem?_cons_zero] at hzero
  exact h'.not_mem (List.mem_of_getElem? hzero)

theorem Holds.unique {out : ℕ → Option UInt8} {t t' : Bytes} (h : Holds out t)
    (h' : Holds out t') : t = t' := by
  have hlen : t.length = t'.length := le_antisymm (h'.length_le h) (h.length_le h')
  refine List.ext_getElem? fun i => ?_
  by_cases hi : i < t.length
  · have hget := (h.bytes i hi.le).symm.trans (h'.bytes i (by omega))
    rwa [List.getElem?_append_left hi, List.getElem?_append_left (by omega)] at hget
  · rw [List.getElem?_eq_none (by omega), List.getElem?_eq_none (by omega)]

end Decoding

variable {size : BitVec 32}

theorem written_nothing : Written ⟨fun _ => none, 0⟩ [] n :=
  ⟨rfl, fun _ hi => absurd hi (Nat.not_lt_zero _), fun _ _ => rfl⟩

theorem roomBehind_zero : RoomBehind s 0 n ↔ HasRoom s n := by
  simp only [RoomBehind, HasRoom, Nat.zero_add]

/-- A string that is shorter than the size, with its terminator. -/
theorem urlencode_of_lt (hroom : HasRoom uri size.toNat) (hlt : widths uri < size.toNat) :
    (urlencode uri size).1 = 0 ∧
      Written ⟨(urlencode uri size).2, widths uri + 1⟩ (uri.flatMap block ++ [0]) size.toNat := by
  obtain ⟨hsize, -, hwritten⟩ :=
    encodeLoop_of_room (n := size.toNat) written_nothing (Nat.add_zero _)
      (roomBehind_zero.mpr hroom)
  rw [List.length_nil, Nat.zero_add] at hsize hwritten
  have hne : (encodeLoop uri size ⟨fun _ => none, 0⟩).1 ≠ 0 := by
    intro hzero
    have hnothing := congrArg BitVec.toNat hzero
    rw [hsize] at hnothing
    change size.toNat - widths uri = 0 at hnothing
    omega
  have hend := (hwritten hlt).write (List.prefix_refl [0])
    (by rw [List.nil_append, length_flatMap_block]; exact hlt)
  rw [(hwritten hlt).s2_eq, List.nil_append, length_flatMap_block] at hend
  rw [urlencode, if_pos hne]
  exact ⟨rfl, hend⟩

/-- A string that fills the size. -/
theorem urlencode_of_le (hroom : HasRoom uri size.toNat) (hle : size.toNat ≤ widths uri) :
    (urlencode uri size).1 = -1 ∧ ∀ i, size.toNat ≤ i → (urlencode uri size).2 i = none := by
  obtain ⟨hsize, hbounded, -⟩ :=
    encodeLoop_of_room (n := size.toNat) written_nothing (Nat.add_zero _)
      (roomBehind_zero.mpr hroom)
  rw [List.length_nil, Nat.zero_add, Nat.sub_eq_zero_of_le hle] at hsize
  have hzero : (encodeLoop uri size ⟨fun _ => none, 0⟩).1 = 0 := BitVec.eq_of_toNat_eq hsize
  rw [urlencode, if_neg (not_not.mpr hzero)]
  exact ⟨rfl, hbounded⟩

theorem hasRoom_of_bounded (h : ∀ i, size.toNat ≤ i → (urlencode uri size).2 i = none) :
    HasRoom uri size.toNat := by
  refine roomBehind_zero.mp (room_of_encodeLoop written_nothing (Nat.add_zero _) fun i hi => ?_)
  have hnone := h i hi
  rw [urlencode] at hnone
  split_ifs at hnone
  · exact (write_of_none hnone).1
  · exact hnone

/-- The text ends behind the one digit of the first byte below 16. -/
theorem holds_of_digit {pre post : Text} (huri : uri = pre ++ c :: post)
    (hpre : ∀ d ∈ pre, 16 ≤ d.val) (hc : c.val < 16) (hroom : HasRoom uri size.toNat)
    (hlt : widths uri < size.toNat) :
    Holds (urlencode uri size).2 (pre.flatMap block ++ [0x25, hexDigit c]) := by
  obtain ⟨-, hwritten⟩ := urlencode_of_lt hroom hlt
  have hbytes : uri.flatMap block ++ [0] =
      (pre.flatMap block ++ [0x25, hexDigit c] ++ [0]) ++ (post.flatMap block ++ [0]) := by
    rw [huri, List.flatMap_append, List.flatMap_cons, block_of_lt hc]
    simp only [List.append_assoc, List.cons_append, List.nil_append]
  rw [hbytes] at hwritten
  refine ⟨?_, fun i hi => ?_⟩
  · rw [List.mem_append, not_or]
    refine ⟨not_mem_flatMap hpre, ?_⟩
    simp only [List.mem_cons, List.not_mem_nil, or_false, not_or]
    exact ⟨by decide, (encode_of_lt c hc).2.symm⟩
  · have hlen : i < (pre.flatMap block ++ [0x25, hexDigit c] ++ [0]).length := by
      rw [List.length_append, List.length_singleton]
      omega
    have hi' := hwritten.bytes i (by rw [List.length_append]; omega)
    rwa [List.getElem?_append_left hlen] at hi'

theorem decodes_iff (hroom : HasRoom uri size.toNat) (hlt : widths uri < size.toNat) :
    (∃ t, Holds (urlencode uri size).2 t ∧ urldecode t = uri.map Subtype.val) ↔
      ∀ c ∈ uri, 16 ≤ c.val := by
  constructor
  · rintro ⟨t, ht, hdecode⟩
    cases hfind : uri.find? fun c => decide (c.val < 16) with
    | none =>
      intro c hc
      have hle := List.find?_eq_none.mp hfind c hc
      rwa [decide_eq_true_eq, UInt8.not_lt] at hle
    | some c =>
      obtain ⟨hc, pre, post, huri, hpre⟩ := List.find?_eq_some_iff_append.mp hfind
      rw [decide_eq_true_eq] at hc
      have hpre' : ∀ d ∈ pre, 16 ≤ d.val := by
        intro d hd
        have hle := hpre d hd
        rwa [Bool.not_eq_true', decide_eq_false_iff_not, UInt8.not_lt] at hle
      rw [ht.unique (holds_of_digit huri hpre' hc hroom hlt), urldecode_flatMap hpre', huri,
        List.map_append, List.append_cancel_left_eq, List.map_cons] at hdecode
      have hpercent : (0x25 : UInt8) = c.val := (List.cons.inj hdecode).1
      exact absurd (hpercent ▸ hc) (by decide)
  · intro hall
    obtain ⟨-, hwritten⟩ := urlencode_of_lt hroom hlt
    refine ⟨uri.flatMap block, ⟨not_mem_flatMap hall, fun i hi => hwritten.bytes i ?_⟩, ?_⟩
    · rw [List.length_append, List.length_singleton]
      omega
    · have hdecode := urldecode_flatMap hall []
      rwa [List.append_nil, urldecode, List.append_nil] at hdecode

/-- What `urlencode` is to do. -/
theorem encodes_iff (uri : Text) (size : BitVec 32) :
    Encodes uri size ↔
      HasRoom uri size.toNat ∧ (widths uri < size.toNat → ∀ c ∈ uri, 16 ≤ c.val) := by
  constructor
  · intro h
    have hroom := hasRoom_of_bounded h.bounded
    refine ⟨hroom, fun hlt => ?_⟩
    exact (decodes_iff hroom hlt).mp (h.decodes (urlencode_of_lt hroom hlt).1)
  · rintro ⟨hroom, hdigits⟩
    by_cases hlt : widths uri < size.toNat
    · obtain ⟨-, hwritten⟩ := urlencode_of_lt hroom hlt
      exact ⟨hwritten.bounded, fun _ => (decodes_iff hroom hlt).mpr (hdigits hlt)⟩
    · obtain ⟨hresult, hbounded⟩ := urlencode_of_le hroom (not_lt.mp hlt)
      refine ⟨hbounded, fun hzero => ?_⟩
      rw [hresult] at hzero
      cases hzero

/-- A space, and three bytes for its escape: the terminator is the fourth one. -/
theorem not_encodes : ¬Encodes [⟨0x20, by decide⟩] 3 := by
  intro h
  exact absurd (h.bounded 3 le_rfl) (by decide)

end Networking

end Inspector
