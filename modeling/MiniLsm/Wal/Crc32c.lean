import MiniLsm.Env.Bytes

/-! # CRC-32C

`src/crc32c.cc` and the masking of `mlsm/crc32c.h`.
-/

namespace MiniLsm.Crc32c

/-- One shift step of the reflected Castagnoli polynomial. -/
def shiftStep (c : UInt32) : UInt32 :=
  if c &&& 1 ≠ 0 then (0x82f63b78 : UInt32) ^^^ (c >>> 1) else c >>> 1

/-- The body of the loop of `MakeTable`: eight shift steps. -/
def tableEntry (i : UInt32) : UInt32 := Nat.repeat shiftStep 8 i

def kTable : List UInt32 := (List.range 256).map fun i => tableEntry (UInt32.ofNat i)

/-- Fold one byte into the state. -/
def foldByte (c : UInt32) (byte : UInt8) : UInt32 :=
  kTable.getD ((c ^^^ byte.toUInt32) &&& 0xff).toNat 0 ^^^ (c >>> 8)

def extend (crc : UInt32) (data : Bytes) : UInt32 :=
  data.foldl foldByte (crc ^^^ 0xffffffff) ^^^ 0xffffffff

def value (data : Bytes) : UInt32 := extend 0 data

def kMaskDelta : UInt32 := 0xa282ead8

def mask (crc : UInt32) : UInt32 := ((crc >>> 15) ||| (crc <<< 17)) + kMaskDelta

def unmask (maskedCrc : UInt32) : UInt32 :=
  let rot := maskedCrc - kMaskDelta
  (rot >>> 17) ||| (rot <<< 15)

/-- The check value of CRC-32C for the nine digits. -/
example : value [0x31, 0x32, 0x33, 0x34, 0x35, 0x36, 0x37, 0x38, 0x39] = 0xe3069283 := by
  decide +kernel

theorem extend_append (crc : UInt32) (a b : Bytes) :
    extend (extend crc a) b = extend crc (a ++ b) := by
  rw [extend, extend, extend, UInt32.xor_assoc, UInt32.xor_self, UInt32.xor_zero, List.foldl_append]

@[simp] theorem unmask_mask (crc : UInt32) : unmask (mask crc) = crc := by
  have undo : mask crc - kMaskDelta = (crc >>> 15) ||| (crc <<< 17) := by
    simp [mask]
  simp only [unmask, undo]
  apply UInt32.eq_of_toBitVec_eq
  apply BitVec.eq_of_getLsbD_eq
  intro i inside
  simp [inside]
  grind

end MiniLsm.Crc32c
