import Inspector.Websocket.Parse
import Mathlib.Tactic.IntervalCases

/-! # Frames of a websocket client

A client sends masked frames that are not fragmented. The parser collects the header of a frame byte
by byte.
-/

namespace Inspector

namespace Websocket

/-- The kinds of frames. -/
inductive Kind
  | text
  | binary
  | close
  | ping
  | pong
  deriving DecidableEq, Repr

def Kind.opcode : Kind → UInt8
  | .text => opText
  | .binary => opBinary
  | .close => opClose
  | .ping => opPing
  | .pong => opPong

/-- A masked frame, which is not a fragment. -/
structure Frame where
  kind : Kind
  mask : Bytes
  payload : Bytes
  mask_length : mask.length = 4
  payload_le : payload.length ≤ 65535

namespace Frame

variable (f : Frame)

/-- The length of the payload, after the first byte. -/
def lengthBytes : Bytes :=
  if f.payload.length < 126 then [0x80 ||| UInt8.ofNat f.payload.length]
  else [0xFE, UInt8.ofNat (f.payload.length / 256), UInt8.ofNat (f.payload.length % 256)]

def header : Bytes := (0x80 ||| f.kind.opcode) :: (f.lengthBytes ++ f.mask)

/-- What the client sends. -/
def bytes : Bytes := f.header ++ unmask f.mask 0 f.payload

/-- The header when all of it is collected. -/
def collected : Header where
  payloadLen := f.payload.length
  payloadRem := f.payload.length
  mask := f.mask
  masked := true
  complete := true
  data := f.header

/-- The header when a number of its bytes are collected. -/
def headerAt (o : ℕ) : Header :=
  if o < f.header.length then
    { payloadLen := if 2 ≤ o then min f.payload.length 126 else 0
      masked := decide (2 ≤ o)
      data := f.header.take o }
  else f.collected

theorem length_header : f.header.length = if f.payload.length < 126 then 6 else 8 := by
  simp only [header, lengthBytes]
  split_ifs <;> simp [f.mask_length]

section Masks

theorem unmask_unmask (mask : Bytes) (i : ℕ) (l : Bytes) :
    unmask mask i (unmask mask i l) = l := by
  induction l generalizing i with
  | nil => rfl
  | cons b l ih => rw [unmask, unmask, ih, UInt8.xor_assoc, UInt8.xor_self, UInt8.xor_zero]

@[simp] theorem length_unmask (mask : Bytes) (i : ℕ) (l : Bytes) :
    (unmask mask i l).length = l.length := by
  induction l generalizing i with
  | nil => rfl
  | cons b l ih => simp [unmask, ih]

end Masks

section Lengths

theorem and_length {n : ℕ} (h : n < 126) :
    ((0x80 ||| UInt8.ofNat n) &&& 0x80 ≠ 0) ∧ ((0x80 ||| UInt8.ofNat n) &&& 0x7F).toNat = n := by
  revert n
  decide +kernel

theorem length_eq_or {n : ℕ} (h : n ≤ 65535) : (n / 256 % 256) <<< 8 ||| n % 256 = n := by
  have hlo : n % 256 < 2 ^ 8 := by omega
  rw [← Nat.shiftLeft_add_eq_or_of_lt hlo, Nat.shiftLeft_eq]
  omega

end Lengths

/-- A byte of a short header is collected. -/
theorem store_short {o : ℕ} (hshort : f.payload.length < 126) (ho : o < f.header.length) :
    (f.headerAt o).store f.header[o] = f.headerAt (o + 1) := by
  have hlength : f.header.length = 6 := by rw [length_header, if_pos hshort]
  obtain ⟨m₀, m₁, m₂, m₃, hmask⟩ := List.length_eq_four.mp f.mask_length
  obtain ⟨hmasked, hlow⟩ := and_length hshort
  have hmin : min f.payload.length 126 = f.payload.length := min_eq_left hshort.le
  have hheader : f.header = [0x80 ||| f.kind.opcode, 0x80 ||| UInt8.ofNat f.payload.length,
      m₀, m₁, m₂, m₃] := by
    rw [header, lengthBytes, if_pos hshort, hmask]
    rfl
  have hne : f.payload.length ≠ 126 := hshort.ne
  rw [hlength] at ho
  simp only [headerAt, hlength, collected, hmask]
  simp only [hheader, hmin]
  interval_cases o <;>
    simp [Header.store, Header.setLength, Header.checkComplete, Header.finish, Header.idx,
      Header.byte, hmasked, hlow, hne]

/-- A byte of a long header is collected. -/
theorem store_long {o : ℕ} (hlong : ¬f.payload.length < 126) (ho : o < f.header.length) :
    (f.headerAt o).store f.header[o] = f.headerAt (o + 1) := by
  have hlength : f.header.length = 8 := by rw [length_header, if_neg hlong]
  obtain ⟨m₀, m₁, m₂, m₃, hmask⟩ := List.length_eq_four.mp f.mask_length
  have hor := length_eq_or f.payload_le
  have hmin : min f.payload.length 126 = 126 := min_eq_right (not_lt.mp hlong)
  have hheader : f.header = [0x80 ||| f.kind.opcode, 0xFE, UInt8.ofNat (f.payload.length / 256),
      UInt8.ofNat (f.payload.length % 256), m₀, m₁, m₂, m₃] := by
    rw [header, lengthBytes, if_neg hlong, hmask]
    rfl
  rw [hlength] at ho
  simp only [headerAt, hlength, collected, hmask]
  simp only [hheader, hmin]
  interval_cases o <;>
    simp [Header.store, Header.setLength, Header.checkComplete, Header.finish, Header.idx,
      Header.byte]
  · decide
  · exact hor

theorem store_headerAt {o : ℕ} (ho : o < f.header.length) :
    (f.headerAt o).store f.header[o] = f.headerAt (o + 1) := by
  by_cases hshort : f.payload.length < 126
  · exact f.store_short hshort ho
  · exact f.store_long hshort ho

theorem headerAt_of_lt {o : ℕ} (ho : o < f.header.length) : (f.headerAt o).complete = false := by
  rw [headerAt, if_pos ho]

@[simp] theorem headerAt_length : f.headerAt f.header.length = f.collected :=
  if_neg (lt_irrefl _)

/-- A part of the header is collected. -/
theorem collect_take {o k : ℕ} (hk : k ≤ f.header.length) (ho : o ≤ k) (rest : Bytes) :
    (f.headerAt o).collect ((f.header.take k).drop o ++ rest) = (f.headerAt k).collect rest := by
  induction h : k - o generalizing o with
  | zero =>
    obtain rfl : o = k := by omega
    rw [List.drop_eq_nil_of_le (List.length_take_le _ _), List.nil_append]
  | succ n ih =>
    have hlt : o < f.header.length := by omega
    have htake : o < (f.header.take k).length := by
      rw [List.length_take]
      omega
    rw [List.drop_eq_getElem_cons htake, List.cons_append, Header.collect, f.headerAt_of_lt hlt,
      if_neg Bool.false_ne_true, List.getElem_take, f.store_headerAt hlt]
    exact ih (by omega) (by omega)

theorem collect_collected (rest : Bytes) : f.collected.collect rest = (f.collected, rest) := by
  cases rest <;> rfl

end Frame

end Websocket

end Inspector
