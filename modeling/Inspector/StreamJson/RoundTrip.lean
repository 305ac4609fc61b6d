import Inspector.StreamJson.Text
import Mathlib.Data.FinEnum
import Mathlib.Data.List.TakeWhile

/-! # Reading back what has been written

A document is read back as the tree it was written from if and only if every string in it is plain,
or a single character that has an escape, and no object or array has so many elements that their
number overflows. Otherwise it is read as another tree or not at all.
-/

namespace Inspector

namespace StreamJson

open Json

open JsonOut (escape escaped scan uitoa)

/-- What the text of a string is read as. -/
def readBack (s : Bytes) : Option Bytes :=
  if ∀ b ∈ s, escape b = none then
    if ∀ b ∈ s, 0x20 ≤ b then some s else none
  else
    match s.getLast? with
    | some b => if (escape b).isSome then some [b] else none
    | none => none

/-- A string that is written as it should be. -/
def Writable (s : Bytes) : Prop := (∀ b ∈ s, Plain b) ∨ ∃ b, s = [b] ∧ (escape b).isSome

theorem unescape_escape {b c : UInt8} (h : escape b = some c) : unescape c = some b := by
  unfold escape at h
  split at h <;> cases h <;> rfl

theorem plain_iff {b : UInt8} (h : escape b = none) : Plain b ↔ 0x20 ≤ b := by
  constructor
  · exact fun hb => hb.1
  · intro hb
    refine ⟨hb, ?_, ?_⟩
    · rintro rfl
      cases h
    · rintro rfl
      cases h

theorem escape_eq_none_of_plain {b : UInt8} (h : Plain b) : escape b = none := by
  obtain ⟨hcontrol, hquote, hbackslash⟩ := h
  cases he : escape b with
  | none => rfl
  | some c =>
    exfalso
    unfold escape at he
    split at he
    · exact hquote rfl
    · exact hbackslash rfl
    all_goals first | exact absurd hcontrol (by decide) | cases he

theorem scan_concat (s : Bytes) (c : UInt8) :
    scan (s ++ [c]) = match escape c with
      | some letter => (some 0, letter)
      | none => ((scan s).1, 0) := by
  rw [scan, List.foldl_append]
  rfl

/-- The loop over a string finds whether there is an escape, and the one of the last character. -/
theorem scan_eq (s : Bytes) (h : ¬ ∀ b ∈ s, escape b = none) :
    scan s = (some 0, (s.getLast?.bind escape).getD 0) := by
  have hfst : ∀ s : Bytes, (¬ ∀ b ∈ s, escape b = none) → (scan s).1 = some 0 := by
    intro s
    induction s using List.reverseRecOn with
    | nil => exact fun h => absurd (fun b => nofun) h
    | append_singleton s c ih =>
      intro h
      rw [scan_concat]
      cases hc : escape c with
      | some letter => rfl
      | none =>
        apply ih
        intro hs
        apply h
        intro b hb
        rcases List.mem_append.mp hb with hb | hb
        · exact hs b hb
        · rw [List.mem_singleton.mp hb, hc]
  have hone := hfst s h
  cases s using List.reverseRecOn with
  | nil => exact absurd (fun b => nofun) h
  | append_singleton s c =>
    rw [scan_concat] at hone ⊢
    rw [List.getLast?_concat]
    cases hc : escape c with
    | some letter => simp [hc]
    | none =>
      rw [hc] at hone
      simp only at hone
      simp [hc, hone]

/-- The text of a string is read back as `readBack` says. -/
theorem parseChars_escaped (s text : Bytes) :
    parseChars (escaped s ++ 0x22 :: text) = (readBack s).map fun s => (s, text) := by
  by_cases h : ∀ b ∈ s, escape b = none
  · have hany : s.any (fun c => (escape c).isSome) = false := by
      rw [List.any_eq_false]
      intro b hb
      rw [h b hb]
      exact Bool.false_ne_true
    have hescaped : escaped s = s := by
      rw [escaped, hany]
      rfl
    rw [hescaped, readBack, if_pos h]
    by_cases hplain : ∀ b ∈ s, Plain b
    · rw [parseChars_of_plain hplain, if_pos fun b hb => (hplain b hb).1]
      rfl
    · have hcontrol : ¬ ∀ b ∈ s, 0x20 ≤ b := fun hall =>
        hplain fun b hb => (plain_iff (h b hb)).mpr (hall b hb)
      rw [if_neg hcontrol]
      -- The string is read up to its first control character.
      have hsplit := List.takeWhile_append_dropWhile (p := fun b => decide (Plain b)) (l := s)
      cases hdrop : s.dropWhile fun b => decide (Plain b) with
      | nil =>
        exfalso
        apply hplain
        intro b hb
        exact of_decide_eq_true (List.dropWhile_eq_nil_iff.mp hdrop b hb)
      | cons b rest =>
        rw [hdrop] at hsplit
        have hb : ¬ Plain b := by
          have hhead := List.head?_dropWhile_not (fun b => decide (Plain b)) s
          rw [hdrop] at hhead
          exact of_decide_eq_false hhead
        have hlt : b < 0x20 := by
          have hmem : b ∈ s := by
            rw [← hsplit]
            exact List.mem_append_right _ List.mem_cons_self
          exact UInt8.not_le.mp fun hle => hb ((plain_iff (h b hmem)).mpr hle)
        have htake : ∀ b ∈ s.takeWhile (fun b => decide (Plain b)), Plain b := fun b hb =>
          of_decide_eq_true
            (List.mem_takeWhile_imp (p := fun b => decide (Plain b)) hb)
        rw [← hsplit, List.append_assoc]
        exact parseChars_of_control htake hlt _
  · have hany : s.any (fun c => (escape c).isSome) = true := by
      rw [List.any_eq_true]
      push Not at h
      obtain ⟨b, hb, hne⟩ := h
      exact ⟨b, hb, Option.isSome_iff_ne_none.mpr hne⟩
    have hescaped : escaped s = [0x5C, (s.getLast?.bind escape).getD 0] := by
      rw [escaped, hany, scan_eq s h]
      simp
    rw [hescaped, readBack, if_neg h]
    change parseChars (0x5C :: _ :: 0x22 :: text) = _
    rw [parseChars_escape]
    cases hlast : s.getLast? with
    | none => rfl
    | some b =>
      cases hb : escape b with
      | none =>
        have hzero : unescape 0 = none := rfl
        simp [hb, hzero]
      | some c =>
        have hc := unescape_escape hb
        simp [hb, hc, parseChars_cons]

theorem readBack_eq_iff (s : Bytes) : readBack s = some s ↔ Writable s := by
  unfold readBack Writable
  by_cases h : ∀ b ∈ s, escape b = none
  · rw [if_pos h]
    constructor
    · intro hs
      split_ifs at hs with hall
      exact .inl fun b hb => (plain_iff (h b hb)).mpr (hall b hb)
    · rintro (hplain | ⟨b, rfl, hb⟩)
      · exact if_pos fun b hb => (hplain b hb).1
      · rw [h b (List.mem_singleton_self b)] at hb
        cases hb
  · rw [if_neg h]
    constructor
    · intro hs
      cases hlast : s.getLast? with
      | none =>
        rw [hlast] at hs
        cases hs
      | some b =>
        rw [hlast] at hs
        simp only at hs
        split_ifs at hs with hb
        exact .inr ⟨b, (Option.some.inj hs).symm, hb⟩
    · rintro (hplain | ⟨b, rfl, hb⟩)
      · exact absurd (fun b hb => escape_eq_none_of_plain (hplain b hb)) h
      · exact if_pos hb

mutual

/-- What a member is read as. -/
def Member.read : Member → Option (Bytes × Value)
  | .string tag s => (readBack s.bytes).map fun s => (tag.bytes, .string s)
  | .int tag value => some (tag.bytes, .int value.toInt)
  | .object tag members => (members.read 0).map fun v => (tag.bytes, .object v)
  | .array tag objects => (objects.read 0).map fun v => (tag.bytes, .array v)

/-- What members are read as that follow a number of others. A comma is missing where that number
has overflown. -/
def Members.read (c : ℕ) : Members → Option (List (Bytes × Value))
  | .nil => some []
  | .cons m ms =>
    if c ≠ 0 ∧ c % 2 ^ 32 = 0 then none
    else m.read.bind fun v => (ms.read (c + 1)).map fun vs => v :: vs

/-- What objects are read as that follow a number of others. -/
def Objects.read (c : ℕ) : Objects → Option (List Value)
  | .nil => some []
  | .cons members os =>
    if c ≠ 0 ∧ c % 2 ^ 32 = 0 then none
    else (members.read 0).bind fun v => (os.read (c + 1)).map fun vs => .object v :: vs

end

theorem Tag.text_append (tag : Tag) (text : Bytes) :
    tag.text ++ text = 0x22 :: (tag.bytes ++ 0x22 :: 0x3A :: text) := by
  simp [Tag.text]

/-- A number that no digit follows. -/
theorem parseInt_intText (value : BitVec 32) {text : Bytes}
    (h : ∀ b ∈ text.head?, isDigit b = false) :
    parseInt (intText value ++ text) = some (value.toInt, text) := by
  have huitoa : ∀ n, uitoa n = decimal n := fun _ => rfl
  unfold intText
  split_ifs with hneg
  · have hvalue : -((-value).toNat : ℤ) = value.toInt := by
      have hne : value ≠ 0 := by
        rintro rfl
        exact absurd hneg (by decide)
      have hlt := value.isLt
      rw [BitVec.toInt_eq_toNat_cond] at hneg ⊢
      split_ifs at hneg ⊢ with hsmall
      · omega
      · rw [BitVec.toNat_neg]
        omega
    rw [huitoa, List.append_assoc]
    change (parseNat (decimal (-value).toNat ++ text)).map (fun p => (-(p.1 : ℤ), p.2)) = _
    rw [parseNat_decimal _ h, Option.map_some, hvalue]
  · have hvalue : (value.toNat : ℤ) = value.toInt := by
      have hlt := value.isLt
      rw [BitVec.toInt_eq_toNat_cond] at hneg ⊢
      split_ifs at hneg ⊢ <;> omega
    rw [huitoa, List.nil_append]
    have hhead : ∀ t, decimal value.toNat ++ text ≠ 0x2D :: t := by
      intro t ht
      cases hd : decimal value.toNat with
      | nil => exact decimal_ne_nil _ hd
      | cons b ds =>
        rw [hd, List.cons_append] at ht
        obtain ⟨rfl, -⟩ := List.cons.inj ht
        have hdigit := isDigit_of_mem_decimal (n := value.toNat) (b := 0x2D)
          (by rw [hd]; exact List.mem_cons_self)
        cases hdigit
    rw [parseInt]
    · rw [parseNat_decimal _ h, Option.map_some, hvalue]
    · exact hhead

theorem intText_head (value : BitVec 32) :
    ∃ b text, intText value = b :: text ∧ (b = 0x2D ∨ isDigit b = true) := by
  unfold intText
  split_ifs
  · exact ⟨0x2D, _, rfl, .inl rfl⟩
  · cases hd : decimal value.toNat with
    | nil => exact absurd hd (decimal_ne_nil _)
    | cons b text =>
      exact ⟨b, text, hd, .inr (isDigit_of_mem_decimal (by rw [hd]; exact List.mem_cons_self))⟩

theorem not_isDigit_comma_append {c : ℕ} {b : UInt8} {text : Bytes} (h : isDigit b = false) :
    ∀ a ∈ (comma c ++ b :: text).head?, isDigit a = false := by
  unfold comma
  split_ifs
  · intro a ha
    exact Option.some.inj ha ▸ h
  · intro a ha
    exact Option.some.inj ha ▸ rfl

/-- The text of members, and of what follows them, does not begin with a digit. -/
theorem Members.not_isDigit (ms : Members) (c : ℕ) (rest : Bytes) :
    ∀ a ∈ (ms.text c ++ 0x7D :: rest).head?, isDigit a = false := by
  cases ms with
  | nil =>
    intro a ha
    exact Option.some.inj ha ▸ rfl
  | cons m ms =>
    have htext : ∃ text, m.text = 0x22 :: text := by cases m <;> exact ⟨_, rfl⟩
    obtain ⟨text, htext⟩ := htext
    rw [Members.text, htext, List.append_assoc, List.cons_append, List.cons_append]
    exact not_isDigit_comma_append rfl

mutual

theorem Member.parse : ∀ (m : Member) {n : ℕ} {r : Bytes}, m.text.length ≤ n →
    (∀ b ∈ r.head?, isDigit b = false) →
    parseMember (parseValue n) (m.text ++ r) = m.read.map fun v => (v, r)
  | .string tag s, n, rest, hn, _ => by
    obtain ⟨n, rfl⟩ : ∃ k, n = k + 1 := ⟨n - 1, by simp [Member.text, Tag.text] at hn; omega⟩
    have htext : (Member.string tag s).text ++ rest =
        tag.text ++ 0x22 :: (escaped s.bytes ++ 0x22 :: rest) := by simp [Member.text]
    rw [htext, Tag.text_append, parseMember_tag tag.plain, parseValue_string, parseChars_escaped,
      Member.read]
    simp only [Option.map_map]
    rfl
  | .int tag value, n, rest, hn, hrest => by
    obtain ⟨n, rfl⟩ : ∃ k, n = k + 1 := ⟨n - 1, by simp [Member.text, Tag.text] at hn; omega⟩
    obtain ⟨b, text, htext, hb⟩ := intText_head value
    rw [Member.text, List.append_assoc, Tag.text_append, parseMember_tag tag.plain, htext,
      List.cons_append, parseValue_int hb, ← List.cons_append, ← htext,
      parseInt_intText value hrest]
    rfl
  | .object tag members, n, rest, hn, _ => by
    simp only [Member.text, Tag.text, List.length_append, List.length_cons,
      List.length_nil] at hn
    obtain ⟨n, rfl⟩ : ∃ k, n = k + 1 := ⟨n - 1, by omega⟩
    have htext : (Member.object tag members).text ++ rest =
        tag.text ++ 0x7B :: (members.text 0 ++ 0x7D :: rest) := by simp [Member.text]
    rw [htext, Tag.text_append, parseMember_tag tag.plain, parseValue_object,
      Members.parse members (by omega), Member.read]
    simp only [Option.map_map]
    rfl
  | .array tag objects, n, rest, hn, _ => by
    simp only [Member.text, Tag.text, List.length_append, List.length_cons,
      List.length_nil] at hn
    obtain ⟨n, rfl⟩ : ∃ k, n = k + 1 := ⟨n - 1, by omega⟩
    have htext : (Member.array tag objects).text ++ rest =
        tag.text ++ 0x5B :: (objects.text 0 ++ 0x5D :: rest) := by simp [Member.text]
    rw [htext, Tag.text_append, parseMember_tag tag.plain, parseValue_array,
      Objects.parse objects (by omega), Member.read]
    simp only [Option.map_map]
    rfl

/-- The members of an object, behind its opening brace. -/
theorem Members.parse : ∀ (ms : Members) {n : ℕ} {r : Bytes}, (ms.text 0).length ≤ n →
    parseList (parseMember (parseValue n)) 0x7D n (ms.text 0 ++ 0x7D :: r) =
      (ms.read 0).map fun v => (v, r)
  | .nil, n, rest, _ => by
    rw [Members.text, List.nil_append, parseList, skipSpace_cons (by decide)]
    exact if_pos rfl
  | .cons m ms, n, rest, hn => by
    have hcomma : comma 0 = [] := rfl
    rw [Members.text, hcomma, List.nil_append] at hn ⊢
    rw [List.length_append, Nat.zero_add] at hn
    have htext : ∃ text, m.text = 0x22 :: text := by cases m <;> exact ⟨_, rfl⟩
    obtain ⟨text, htext⟩ := htext
    obtain ⟨n, rfl⟩ : ∃ k, n = k + 1 := ⟨n - 1, by rw [htext, List.length_cons] at hn; omega⟩
    rw [List.append_assoc, parseList, htext, List.cons_append, skipSpace_cons (by decide)]
    refine (if_neg (by decide)).trans ?_
    rw [← List.cons_append, ← htext, parseItems,
      Member.parse m (by omega) (ms.not_isDigit _ _), Members.read]
    have hzero : ¬ ((0 : ℕ) ≠ 0 ∧ 0 % 2 ^ 32 = 0) := fun h => h.1 rfl
    rw [if_neg hzero]
    cases m.read with
    | none => rfl
    | some v =>
      have hmore := Members.more ms (m := v) (n := n + 1) (k := n) (c := 1) (r := rest)
        one_ne_zero (by rw [htext, List.length_cons] at hn; omega) (by omega)
      simp only [Option.map_some, Option.bind_some, Nat.zero_add, Option.map_map]
      exact hmore

/-- The members that follow others. -/
theorem Members.more : ∀ (ms : Members) {m : Bytes × Value} {n k c : ℕ} {r : Bytes}, c ≠ 0 →
    (ms.text c).length ≤ k → (ms.text c).length ≤ n →
    parseRest 0x7D (parseItems (parseMember (parseValue n)) 0x7D k) m
      (ms.text c ++ 0x7D :: r) = (ms.read c).map fun vs => (m :: vs, r)
  | .nil, _, _, _, _, _, _, _, _ => parseRest_close (by decide) (by decide) _
  | .cons m' ms, m, n, k, c, rest, hc, hk, hn => by
    have htext : ∃ text, m'.text = 0x22 :: text := by cases m' <;> exact ⟨_, rfl⟩
    obtain ⟨text, htext⟩ := htext
    rw [Members.text] at hk hn ⊢
    rw [Members.read]
    by_cases hcount : c % 2 ^ 32 = 0
    · rw [comma, if_pos hcount, List.nil_append, htext, List.append_assoc, List.cons_append,
        if_pos ⟨hc, hcount⟩, parseRest_other (by decide) (by decide) (by decide)]
      rfl
    · rw [comma, if_neg hcount] at hk hn ⊢
      simp only [List.length_append, List.length_cons, List.length_nil] at hk hn
      obtain ⟨k, rfl⟩ : ∃ j, k = j + 1 := ⟨k - 1, by omega⟩
      have hcons : [0x2C] ++ (m'.text ++ ms.text (c + 1)) ++ 0x7D :: rest =
          0x2C :: (m'.text ++ (ms.text (c + 1) ++ 0x7D :: rest)) := by simp
      rw [hcons, parseRest_comma, parseItems,
        Member.parse m' (by omega) (ms.not_isDigit _ _), if_neg fun h => hcount h.2]
      cases m'.read with
      | none => rfl
      | some v =>
        have hmore := Members.more ms (m := v) (n := n) (k := k) (c := c + 1) (r := rest)
          (Nat.succ_ne_zero c) (by omega) (by omega)
        simp only [Option.map_some, Option.bind_some, hmore, Option.map_map]
        rfl

/-- The objects of an array, behind its opening bracket. -/
theorem Objects.parse : ∀ (os : Objects) {n : ℕ} {r : Bytes}, (os.text 0).length ≤ n →
    parseList (parseValue n) 0x5D n (os.text 0 ++ 0x5D :: r) =
      (os.read 0).map fun v => (v, r)
  | .nil, n, rest, _ => by
    rw [Objects.text, List.nil_append, parseList, skipSpace_cons (by decide)]
    exact if_pos rfl
  | .cons members os, n, rest, hn => by
    have hcomma : comma 0 = [] := rfl
    rw [Objects.text, hcomma, List.nil_append] at hn ⊢
    simp only [List.length_append, List.length_cons, Nat.zero_add] at hn
    obtain ⟨n, rfl⟩ : ∃ k, n = k + 1 := ⟨n - 1, by omega⟩
    have hcons : (0x7B :: (members.text 0 ++ 0x7D :: os.text (0 + 1))) ++ 0x5D :: rest =
        0x7B :: (members.text 0 ++ 0x7D :: (os.text 1 ++ 0x5D :: rest)) := by simp
    rw [hcons, parseList, skipSpace_cons (by decide)]
    refine (if_neg (by decide)).trans ?_
    rw [parseItems, parseValue_object, Members.parse members (by omega), Objects.read]
    have hzero : ¬ ((0 : ℕ) ≠ 0 ∧ 0 % 2 ^ 32 = 0) := fun h => h.1 rfl
    rw [if_neg hzero]
    cases members.read 0 with
    | none => rfl
    | some v =>
      have hmore := Objects.more os (v := .object v) (n := n + 1) (k := n) (c := 1) (r := rest)
        one_ne_zero (by omega) (by omega)
      simp only [Option.map_some, Option.bind_some, Nat.zero_add, Option.map_map]
      exact hmore

/-- The objects that follow others. -/
theorem Objects.more : ∀ (os : Objects) {v : Value} {n k c : ℕ} {r : Bytes}, c ≠ 0 →
    (os.text c).length ≤ k → (os.text c).length ≤ n →
    parseRest 0x5D (parseItems (parseValue n) 0x5D k) v (os.text c ++ 0x5D :: r) =
      (os.read c).map fun vs => (v :: vs, r)
  | .nil, _, _, _, _, _, _, _, _ => parseRest_close (by decide) (by decide) _
  | .cons members os, v, n, k, c, rest, hc, hk, hn => by
    rw [Objects.text] at hk hn ⊢
    rw [Objects.read]
    by_cases hcount : c % 2 ^ 32 = 0
    · rw [comma, if_pos hcount, List.nil_append, List.cons_append, if_pos ⟨hc, hcount⟩,
        parseRest_other (by decide) (by decide) (by decide)]
      rfl
    · rw [comma, if_neg hcount] at hk hn ⊢
      simp only [List.length_append, List.length_cons, List.length_nil] at hk hn
      obtain ⟨k, rfl⟩ : ∃ j, k = j + 1 := ⟨k - 1, by omega⟩
      obtain ⟨n, rfl⟩ : ∃ j, n = j + 1 := ⟨n - 1, by omega⟩
      have hcons :
          [0x2C] ++ (0x7B :: (members.text 0 ++ 0x7D :: os.text (c + 1))) ++ 0x5D :: rest =
            0x2C :: 0x7B :: (members.text 0 ++ 0x7D :: (os.text (c + 1) ++ 0x5D :: rest)) := by
        simp
      rw [hcons, parseRest_comma, parseItems, parseValue_object,
        Members.parse members (by omega), if_neg fun h => hcount h.2]
      cases members.read 0 with
      | none => rfl
      | some ms =>
        have hmore := Objects.more os (v := .object ms) (n := n + 1) (k := k) (c := c + 1)
          (r := rest) (Nat.succ_ne_zero c) (by omega) (by omega)
        simp only [Option.map_some, Option.bind_some, hmore, Option.map_map]
        rfl

end

/-- The text of a document is read as what its members are read as. -/
theorem parse_document {root : Members} {maxLevels : ℕ} (h : root.depth < maxLevels) :
    parse (document maxLevels root) = (root.read 0).map .object := by
  rw [document_eq h, parse, parseValue_object, Members.parse root
    (by simp only [List.length_cons, List.length_append]; omega)]
  cases root.read 0 <;> rfl

mutual

/-- Every string is written as it should be, and numbers of elements do not overflow. -/
def Member.Writable : Member → Prop
  | .string _ s => StreamJson.Writable s.bytes
  | .int _ _ => True
  | .object _ members => members.length ≤ 2 ^ 32 ∧ members.Writable
  | .array _ objects => objects.length ≤ 2 ^ 32 ∧ objects.Writable

def Members.Writable : Members → Prop
  | .nil => True
  | .cons m ms => m.Writable ∧ ms.Writable

def Objects.Writable : Objects → Prop
  | .nil => True
  | .cons members os => (members.length ≤ 2 ^ 32 ∧ members.Writable) ∧ os.Writable

end

theorem map_eq_some_iff_of_injective {α β : Type*} {f : α → β} (hf : Function.Injective f)
    {a : α} {o : Option α} : o.map f = some (f a) ↔ o = some a := by
  constructor
  · exact fun h => Option.map_injective hf h
  · rintro rfl
    rfl

theorem bind_eq_cons_iff {α : Type*} {o : Option α} {p : Option (List α)} {a : α} {l : List α} :
    (o.bind fun x => p.map fun xs => x :: xs) = some (a :: l) ↔ o = some a ∧ p = some l := by
  cases o <;> cases p <;> simp

/-- There is a comma before an element, unless their number overflows. -/
theorem separated_iff {c n : ℕ} (hc : c ≤ 2 ^ 32) :
    c + (n + 1) ≤ 2 ^ 32 ↔ ¬ (c ≠ 0 ∧ c % 2 ^ 32 = 0) ∧ c + 1 ≤ 2 ^ 32 ∧ c + 1 + n ≤ 2 ^ 32 := by
  omega

mutual

theorem Member.read_iff : ∀ m : Member, m.read = some m.value ↔ m.Writable
  | .string tag s => by
    rw [Member.Writable, ← readBack_eq_iff]
    apply map_eq_some_iff_of_injective (f := fun s => (tag.bytes, Value.string s))
    exact fun s s' hs => Value.string.inj (congrArg Prod.snd hs)
  | .int _ _ => iff_of_true rfl trivial
  | .object tag members => by
    have hmembers := Members.read_iff members (Nat.zero_le (2 ^ 32))
    rw [Nat.zero_add] at hmembers
    rw [Member.Writable, ← hmembers]
    apply map_eq_some_iff_of_injective (f := fun v => (tag.bytes, Value.object v))
    exact fun v v' hv => Value.object.inj (congrArg Prod.snd hv)
  | .array tag objects => by
    have hobjects := Objects.read_iff objects (Nat.zero_le (2 ^ 32))
    rw [Nat.zero_add] at hobjects
    rw [Member.Writable, ← hobjects]
    apply map_eq_some_iff_of_injective (f := fun v => (tag.bytes, Value.array v))
    exact fun v v' hv => Value.array.inj (congrArg Prod.snd hv)

theorem Members.read_iff : ∀ (ms : Members) {c : ℕ}, c ≤ 2 ^ 32 →
    (ms.read c = some ms.values ↔ c + ms.length ≤ 2 ^ 32 ∧ ms.Writable)
  | .nil, c, hc => iff_of_true rfl ⟨hc, trivial⟩
  | .cons m ms, c, hc => by
    rw [Members.length, separated_iff hc, Members.read, Members.values, Members.Writable]
    by_cases hcount : c ≠ 0 ∧ c % 2 ^ 32 = 0
    · rw [if_pos hcount]
      exact iff_of_false nofun fun h => h.1.1 hcount
    · have hlt : c + 1 ≤ 2 ^ 32 := by omega
      rw [if_neg hcount, bind_eq_cons_iff, Member.read_iff m, Members.read_iff ms hlt]
      tauto

theorem Objects.read_iff : ∀ (os : Objects) {c : ℕ}, c ≤ 2 ^ 32 →
    (os.read c = some os.values ↔ c + os.length ≤ 2 ^ 32 ∧ os.Writable)
  | .nil, c, hc => iff_of_true rfl ⟨hc, trivial⟩
  | .cons members os, c, hc => by
    rw [Objects.length, separated_iff hc, Objects.read, Objects.values, Objects.Writable]
    by_cases hcount : c ≠ 0 ∧ c % 2 ^ 32 = 0
    · rw [if_pos hcount]
      exact iff_of_false nofun fun h => h.1.1 hcount
    · have hlt : c + 1 ≤ 2 ^ 32 := by omega
      have hmembers := Members.read_iff members (Nat.zero_le (2 ^ 32))
      rw [Nat.zero_add] at hmembers
      have hbind : ((members.read 0).bind fun v => (os.read (c + 1)).map fun vs =>
          Value.object v :: vs) =
          ((members.read 0).map Value.object).bind fun v => (os.read (c + 1)).map fun vs =>
            v :: vs := by
        cases members.read 0 <;> rfl
      rw [if_neg hcount, hbind, bind_eq_cons_iff,
        map_eq_some_iff_of_injective fun v v' hv => Value.object.inj hv, hmembers,
        Objects.read_iff os hlt]
      tauto

end

/-- A document is read back as the tree it was written from if and only if every string in it is
plain or a single character that has an escape, and no object or array has more than `2 ^ 32`
elements. -/
theorem document_parses (root : Members) (maxLevels : ℕ) (h : root.depth < maxLevels) :
    parse (document maxLevels root) = some (.object root.values) ↔
      root.length ≤ 2 ^ 32 ∧ root.Writable := by
  have hroot := root.read_iff (Nat.zero_le (2 ^ 32))
  rw [Nat.zero_add] at hroot
  rw [parse_document h, ← hroot]
  exact map_eq_some_iff_of_injective fun v v' hv => Value.object.inj hv

/-- A list of one file, with its name and its size. -/
def listing : Members :=
  .cons (.array ⟨[0x66], List.forall_mem_singleton.mpr (by decide)⟩ (.cons
    (.cons (.string ⟨[0x6E], List.forall_mem_singleton.mpr (by decide)⟩ ⟨[0x61, 0x62], by simp⟩)
      (.cons (.int ⟨[0x73], List.forall_mem_singleton.mpr (by decide)⟩ (-1)) .nil)) .nil)) .nil

theorem document_parses_listing :
    parse (document 10 listing) = some (.object listing.values) ↔
      listing.length ≤ 2 ^ 32 ∧ listing.Writable :=
  document_parses listing 10 (by decide)

/-- A name with a quote in it. -/
def quoted : Members :=
  .cons (.string ⟨[0x6E], List.forall_mem_singleton.mpr (by decide)⟩ ⟨[0x22, 0x61], by simp⟩) .nil

/-- Of a string with a quote in it, a backslash and a zero byte are written. -/
theorem not_document_parses :
    document 10 quoted = [0x7B, 0x22, 0x6E, 0x22, 0x3A, 0x22, 0x5C, 0x00, 0x22, 0x7D] ∧
      parse (document 10 quoted) = none := by
  constructor <;> rfl

end StreamJson

end Inspector
