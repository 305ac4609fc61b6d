import Inspector.Checksum.Register
import Inspector.Modbus.Rtu

/-! # The checksum of a message

The checksum of `modbus_rtu.c` is a shift register, and it comes last in a message. The poll takes
no reply for the one that was sent when few bits of it were inverted on the line.
-/

namespace Inspector

namespace Modbus

open Checksum

/-- The shift register of `modbus_crc16x`. -/
def crcRegister : Register 16 := .lsbFirst 0xA001#16 (by decide)

/-- The bits of bytes in the order in which they are sent. -/
def lineBits (l : List UInt8) : List Bool :=
  l.flatMap fun c => (List.range 8).map c.toBitVec.getLsbD

theorem toBitVec_crcBit (crc : UInt16) :
    (crcBit crc).toBitVec = crcRegister.step crc.toBitVec false := by
  have hbit : crc &&& 1 ≠ 0 ↔ (crcRegister.out crc.toBitVec ^^ false) = true := by
    rw [Bool.xor_false, Ne, ← UInt16.toBitVec_inj]
    simp [← BitVec.toNat_inj, BitVec.getLsbD, crcRegister, Register.lsbFirst]
  unfold crcBit Register.step
  by_cases h : crc &&& 1 ≠ 0
  · rw [if_pos h, if_pos (hbit.mp h)]
    rfl
  · rw [if_neg h, if_neg (mt hbit.mpr h)]
    rfl

theorem toBitVec_iterate_crcBit (n : ℕ) (crc : UInt16) :
    (crcBit^[n] crc).toBitVec = (crcRegister.step · false)^[n] crc.toBitVec :=
  have hsemiconj : Function.Semiconj UInt16.toBitVec crcBit (crcRegister.step · false) :=
    toBitVec_crcBit
  (hsemiconj.iterate_right n).eq crc

/-- A byte is taken in bit by bit, the low bit first. -/
theorem toBitVec_crcByte (crc : UInt16) (c : UInt8) :
    (crcBit^[8] (crc ^^^ c.toUInt16)).toBitVec = crcRegister.run crc.toBitVec (lineBits [c]) := by
  have hbits : lineBits [c] = crcRegister.bits 8 c.toUInt16.toBitVec := by
    rw [crcRegister, Register.bits_lsbFirst]
    simp only [lineBits, List.flatMap_cons, List.flatMap_nil, List.append_nil]
    refine List.map_congr_left fun i hi => ?_
    have hi := List.mem_range.mp hi
    simp only [UInt8.toBitVec_toUInt16, BitVec.getLsbD_setWidth, Bool.eq_and_self,
      decide_eq_true_eq]
    omega
  have hshift : crcRegister.shift^[8] c.toUInt16.toBitVec = 0#16 := by
    have h := Register.iterate_ushiftRight 8 c.toUInt16.toBitVec
    refine Eq.trans h ?_
    rw [← BitVec.toNat_inj]
    have := c.toNat_lt
    simp [Nat.shiftRight_eq_div_pow]
    omega
  rw [hbits, Register.run_bits_eq_iterate _ hshift, toBitVec_iterate_crcBit]
  rfl

theorem toBitVec_modbusCrc16x (buf : List UInt8) :
    (modbusCrc16x buf).toBitVec = crcRegister.run 0xFFFF#16 (lineBits buf) := by
  have hfold : ∀ crc : UInt16,
      (buf.foldl (fun crc c => crcBit^[8] (crc ^^^ c.toUInt16)) crc).toBitVec =
        crcRegister.run crc.toBitVec (lineBits buf) := by
    induction buf with
    | nil => exact fun _ => rfl
    | cons c buf ih =>
      intro crc
      rw [List.foldl_cons, ih, toBitVec_crcByte, ← Register.run_append]
      simp [lineBits]
  exact hfold 0xFFFF

/-- The checksum as it is sent after the bytes. -/
def sealing (buf : List UInt8) : List UInt8 :=
  [(modbusCrc16x buf).toUInt8, (modbusCrc16x buf >>> 8).toUInt8]

theorem lineBits_append (l m : List UInt8) : lineBits (l ++ m) = lineBits l ++ lineBits m :=
  List.flatMap_append

/-- A frame that ends with its checksum clears the register. -/
theorem run_sealing (buf : List UInt8) :
    crcRegister.run 0xFFFF#16 (lineBits (buf ++ sealing buf)) = 0#16 := by
  have hbits : lineBits (sealing buf) = crcRegister.bits 16 (modbusCrc16x buf).toBitVec := by
    rw [crcRegister, Register.bits_lsbFirst, sealing]
    generalize modbusCrc16x buf = crc
    simp [lineBits, List.range_succ]
  rw [lineBits_append, Register.run_append, ← toBitVec_modbusCrc16x, hbits,
    Register.run_bits_self]

theorem period_crcRegister : crcRegister.period = 32767 := by
  refine crcRegister.period_eq (f := fun r => (r >>> 1) ^^^ (r % 2 * 0xA001)) (fun r => ?_)
    (by decide +kernel) (by decide +kernel) (by decide +kernel) (by decide +kernel)
  have hout : crcRegister.out r = decide (r.toNat % 2 = 1) := by
    simp [crcRegister, Register.lsbFirst, BitVec.getLsbD, Nat.testBit_zero]
  simp only [Register.step, hout, Bool.xor_false, decide_eq_true_eq]
  split_ifs with h
  · rw [h, one_mul, BitVec.toNat_xor]
    rfl
  · rw [Nat.mod_two_ne_one.mp h, zero_mul, Nat.xor_zero]
    rfl

theorem oddFeedback_crcRegister : crcRegister.OddFeedback := by
  unfold Register.OddFeedback
  decide

namespace Message

variable {msg : Message} {rx : List UInt8}

theorem bytes_readReply (hadu : msg.rxLength ≤ maxAduSize) (hrx : msg.rxLength ≤ rx.length) {k : ℕ}
    (hk : k ≤ msg.rxLength) : (msg.readReply rx).bytes k = rx.take k := by
  refine List.ext_getElem ?_ fun i hi hi' => ?_
  · simp only [bytes, List.length_take, List.length_ofFn]
    omega
  · simp only [bytes, List.length_take, List.length_ofFn] at hi
    simp only [bytes, readReply, List.getElem_take, List.getElem_ofFn]
    rw [if_pos (by omega), List.getD_eq_getElem?_getD, List.getElem?_eq_getElem (by omega),
      Option.getD_some]

/-- The checksum of a reply is found to be right when the reply ends with that of its bytes. -/
theorem crcOk_readReply (hadu : msg.rxLength ≤ maxAduSize) (hrx : msg.rxLength ≤ rx.length) :
    (msg.readReply rx).crcOk msg.rxLength = true ↔ (rx.take msg.rxLength).drop (msg.rxLength - 2) =
      sealing (rx.take (msg.rxLength - 2)) := by
  rw [crcOk, bytes_readReply hadu hrx le_rfl, bytes_readReply hadu hrx (Nat.sub_le _ _), sealing,
    decide_eq_true_eq]

/-- A reply whose checksum is found to be right clears the register. -/
theorem run_of_crcOk (hadu : msg.rxLength ≤ maxAduSize) (hrx : msg.rxLength ≤ rx.length)
    (h : (msg.readReply rx).crcOk msg.rxLength = true) :
    crcRegister.run 0xFFFF#16 (lineBits (rx.take msg.rxLength)) = 0#16 := by
  have hsplit := List.take_append_drop (msg.rxLength - 2) (rx.take msg.rxLength)
  rw [List.take_take, min_eq_left (Nat.sub_le _ _), (crcOk_readReply hadu hrx).mp h] at hsplit
  rw [← hsplit]
  exact run_sealing _

end Message

theorem State.entry_setEntry {n : ℕ} (s : State n) (e : Entry) (slot : Slot n) :
    (s.setEntry e slot).entry slot = e := by
  cases slot <;> simp [setEntry, entry]

/-- A reply that should be `body` with its checksum. As it was sent, it is taken. Altered in one or
two bits, in any odd number of bits or in up to 16 bits in a row, it is a checksum error. -/
theorem modbusPoll_altered {n : ℕ} (env : Env) (s : State n) (slot : Slot n) (body : List UInt8)
    (hstate : s.state = .AwaitReply) (hpacket : s.packet = some slot)
    (hcheck : (s.entry slot).msg.crcCheck = true)
    (hlength : (s.entry slot).msg.rxLength = body.length + 2)
    (hadu : body.length + 2 ≤ maxAduSize) (hrx : body.length + 2 ≤ env.rx.length)
    (htimeout : s.rxTimeout ≠ 1) :
    let t := ({ s with rxTimeout := s.rxTimeout - 1 } : State n).setEntry
      { s.entry slot with msg := (s.entry slot).msg.readReply env.rx } slot
    (env.rx.take (body.length + 2) = body ++ sealing body →
        s.modbusPoll env = some (t.gotReply env slot (body.length + 2), none)) ∧
      (Register.Detectable 16 32767 (lineBits (body ++ sealing body))
          (lineBits (env.rx.take (body.length + 2))) →
        s.modbusPoll env = some (t.crcError env slot, none)) := by
  intro t
  let msg := (s.entry slot).msg
  have hlength' : msg.rxLength = body.length + 2 := hlength
  have hadu' : msg.rxLength ≤ maxAduSize := hlength.trans_le hadu
  have hrx' : msg.rxLength ≤ env.rx.length := hlength.trans_le hrx
  have hpoll : s.modbusPoll env = some (t.checkReply env slot (body.length + 2), none) := by
    have hfit : ¬((s.entry slot).msg.rxLength = 0 ∨ maxAduSize < (s.entry slot).msg.rxLength) := by
      omega
    have hawait : s.modbusPoll env =
        s.packet.bind fun slot => (s.pollReply env slot).map fun s => (s, none) := by
      simp only [State.modbusPoll, hstate]
    have hreply : ({ s with rxTimeout := s.rxTimeout - 1 } : State n).reply env slot =
        some (t.checkReply env slot (s.entry slot).msg.rxLength) := if_neg hfit
    rw [hawait, hpacket, Option.bind_some, State.pollReply, if_neg htimeout, if_pos hrx', hreply,
      hlength]
    rfl
  have hread : (t.entry slot).msg = msg.readReply env.rx := by rw [State.entry_setEntry]
  rw [hpoll, State.checkReply, hread]
  constructor
  · intro h
    have hok : (msg.readReply env.rx).crcOk msg.rxLength = true := by
      rw [Message.crcOk_readReply hadu' hrx', hlength', h, Nat.add_sub_cancel,
        show env.rx.take body.length = (body ++ sealing body).take body.length by
          rw [← h, List.take_take, min_eq_left (Nat.le_add_right _ 2)]]
      simp
    rw [hlength'] at hok
    rw [if_neg (by simp [hok])]
  · intro h
    have hbad : ¬(msg.readReply env.rx).crcOk msg.rxLength = true := by
      intro hok
      have hrun := Message.run_of_crcOk hadu' hrx' hok
      rw [hlength', ← run_sealing body] at hrun
      rw [← period_crcRegister] at h
      exact crcRegister.run_ne_of_detectable oddFeedback_crcRegister h hrun.symm
    rw [hlength'] at hbad
    rw [if_pos ⟨hcheck, hbad⟩]

/-- A blocking send awaits four bytes, with their checksum. -/
def awaiting : State 0 :=
  { packet := some .sync
    state := .AwaitReply
    isBlocking := true
    rxTimeout := 5
    syncMsg := { msg := { crcCheck := true, txLength := 4, rxLength := 4 } } }

/-- A bit of the first byte is wrong. -/
def noisy : Env := { rx := 3 :: 6 :: sealing [1, 6] }

theorem modbusPoll_altered_noisy :
    (awaiting.modbusPoll noisy).map (fun r => r.1.state) = some .Exception := by
  have h := (modbusPoll_altered noisy awaiting .sync [1, 6] rfl rfl rfl rfl (by decide) (by decide)
    (by decide)).2
    (.window [] (lineBits [1]) (lineBits [3]) (lineBits (6 :: sealing [1, 6])) rfl rfl rfl
      (by decide) (by decide))
  rw [h]
  rfl

end Modbus

end Inspector
