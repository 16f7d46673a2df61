import MiniLsm.Bits.ShiftRegister
import MiniLsm.Wal.Writer

/-! # The checksum, bit by bit

CRC-32C by its definition is a shift register. The table holds what becomes of the
lowest eight bits in eight steps; the others only move down meanwhile.
-/

namespace MiniLsm.Crc32c

open ShiftRegister

/-- The Castagnoli polynomial in reflected form. -/
def polynomial : BitVec 32 := 0x82f63b78#32

/-- A byte in the lowest bits of the register. -/
def chunk (byte : UInt8) : BitVec 32 := byte.toBitVec.setWidth 32

/-- Invert the state, feed the bytes one bit after the other, and invert it again. -/
def reference (crc : UInt32) (data : Bytes) : UInt32 :=
  UInt32.ofBitVec (~~~ (data.map chunk).foldl (feed polynomial 8) (~~~ crc.toBitVec))

/-- The check value again. -/
example : reference 0 [0x31, 0x32, 0x33, 0x34, 0x35, 0x36, 0x37, 0x38, 0x39] = 0xe3069283 := by
  decide +kernel

theorem chunk_low (byte : UInt8) : Low 8 (chunk byte) := by
  intro i high
  rw [chunk, BitVec.getLsbD_setWidth, BitVec.getLsbD_of_ge _ _ high, Bool.and_false]

theorem chunk_injective {b b' : UInt8} (same : chunk b = chunk b') : b = b' := by
  have narrow (c : UInt8) : (chunk c).setWidth 8 = c.toBitVec :=
    BitVec.setWidth_setWidth_of_le _ (by decide)
  have bits := congrArg (fun c => c.setWidth 8) same
  simp only [narrow] at bits
  exact UInt8.toBitVec_inj.mp bits

/-! ## The table -/

theorem shiftStep_eq (c : UInt32) : (shiftStep c).toBitVec = step polynomial c.toBitVec := by
  have low : (c &&& 1).toBitVec = (BitVec.ofBool (c.toBitVec.getLsbD 0)).setWidth 32 := by
    rw [UInt32.toBitVec_and]
    exact BitVec.and_one_eq_setWidth_ofBool_getLsbD
  have falls : c &&& 1 ≠ 0 ↔ c.toBitVec.getLsbD 0 = true := by
    rw [Ne, ← UInt32.toBitVec_inj, low]
    cases c.toBitVec.getLsbD 0 <;> decide
  rw [shiftStep, step]
  by_cases bit : c.toBitVec.getLsbD 0 = true
  · rw [if_pos (falls.mpr bit), if_pos bit]
    simp [polynomial]
  · rw [if_neg (mt falls.mp bit), if_neg bit]
    simp

theorem repeat_eq (n : Nat) (c : UInt32) :
    (Nat.repeat shiftStep n c).toBitVec = steps polynomial n c.toBitVec := by
  induction n with
  | zero => rfl
  | succ n ih => rw [Nat.repeat, shiftStep_eq, ih, steps, steps, Function.iterate_succ_apply']

/-- The index into the table. -/
def tableIndex (s : UInt32) (b : UInt8) : UInt32 := (s ^^^ b.toUInt32) &&& 0xff

theorem tableIndex_lt (s : UInt32) (b : UInt8) : (tableIndex s b).toNat < 256 := by
  rw [tableIndex, UInt32.toNat_and]
  exact Nat.lt_succ_of_le Nat.and_le_right

theorem kTable_entry (s : UInt32) (b : UInt8) :
    kTable.getD (tableIndex s b).toNat 0 = tableEntry (tableIndex s b) := by
  rw [kTable, List.getD_eq_getElem?_getD, List.getElem?_map,
    List.getElem?_range (tableIndex_lt s b), Option.map_some, Option.getD_some, UInt32.ofNat_toNat]

/-- Folding a byte by the table feeds it to the register. -/
theorem foldByte_eq (s : UInt32) (b : UInt8) :
    (foldByte s b).toBitVec = feed polynomial 8 s.toBitVec (chunk b) := by
  have index (i : Nat) : (tableIndex s b).toBitVec.getLsbD i =
      ((s.toBitVec ^^^ chunk b).getLsbD i && decide (i < 8)) := by
    have mask : (0xff#32).getLsbD i = decide (i < 8) := by
      rw [BitVec.getLsbD_ofNat, show (0xff : Nat) = 2 ^ 8 - 1 from rfl, Nat.testBit_two_pow_sub_one]
      by_cases low : i < 8
      · simp [low, show i < 32 by omega]
      · simp [low]
    rw [← mask, ← BitVec.getLsbD_and]
    rfl
  have low : Low 8 (tableIndex s b).toBitVec := by
    intro i high
    rw [index, decide_eq_false (Nat.not_lt.mpr high), Bool.and_false]
  have same : ∀ i < 8, (tableIndex s b).toBitVec.getLsbD i = (s.toBitVec ^^^ chunk b).getLsbD i := by
    intro i inside
    rw [index, decide_eq_true inside, Bool.and_true]
  have shifted : (s.toBitVec ^^^ chunk b) >>> 8 = (s >>> 8).toBitVec := by
    rw [BitVec.ushiftRight_xor_distrib, (chunk_low b).shiftRight, BitVec.xor_zero]
    rfl
  rw [feed, steps_split low same, ← repeat_eq, shifted, ← tableEntry, ← kTable_entry]
  rfl

theorem foldl_foldByte (data : Bytes) (s : UInt32) :
    (data.foldl foldByte s).toBitVec = (data.map chunk).foldl (feed polynomial 8) s.toBitVec := by
  induction data generalizing s with
  | nil => rfl
  | cons b later ih => rw [List.foldl_cons, ih, foldByte_eq, List.map_cons, List.foldl_cons]

/-- `Extend` in terms of the register. -/
theorem extend_toBitVec (crc : UInt32) (data : Bytes) :
    (extend crc data).toBitVec =
      ~~~ (data.map chunk).foldl (feed polynomial 8) (~~~ crc.toBitVec) := by
  have ones : (0xffffffff : UInt32).toBitVec = BitVec.allOnes 32 := rfl
  rw [extend, UInt32.toBitVec_xor, foldl_foldByte, UInt32.toBitVec_xor, ones, BitVec.xor_allOnes,
    BitVec.xor_allOnes]

/-- The checksum by the table is the one by the definition; it can be taken in
    pieces, so that the writer's and the reader's way of taking it meet. -/
theorem crc_reference :
    (∀ crc data, extend crc data = reference crc data) ∧
    (∀ a b, extend (value a) b = value (a ++ b)) ∧
    ∀ (type : Wal.RecordType) (payload : Bytes),
      extend (Wal.typeCrc type) payload = value (type.toByte :: payload) := by
  refine ⟨fun crc data => ?_, extend_append 0, fun type payload => ?_⟩
  · apply UInt32.eq_of_toBitVec_eq
    exact extend_toBitVec crc data
  · exact extend_append 0 [type.toByte] payload

end MiniLsm.Crc32c
