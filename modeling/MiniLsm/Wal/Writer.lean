import MiniLsm.Env.Files
import MiniLsm.Wal.Crc32c

/-! # The log writer

`mlsm/wal_writer.h` and `src/wal_writer.cc`: the format constants, and a
`Writer` that cuts a record into fragments, none of which crosses the end of a
block.
-/

namespace MiniLsm.Wal

def kBlockSize : Nat := 32768

def kHeaderSize : Nat := 7

inductive RecordType where
  | zero
  | full
  | first
  | middle
  | last
  deriving Repr, DecidableEq

/-- The type byte of a header. -/
def RecordType.toByte : RecordType → UInt8
  | .zero => 0
  | .full => 1
  | .first => 2
  | .middle => 3
  | .last => 4

/-- `type_crc_`: the checksum of the type byte alone. -/
def typeCrc (type : RecordType) : UInt32 := Crc32c.value [type.toByte]

structure Writer where
  dest : WritableFile
  /-- Bytes written into the current block. -/
  blockOffset : Nat
  deriving Repr, DecidableEq

namespace Writer

/-- Resume a log that already holds `destLength` bytes. -/
def new (dest : WritableFile) (destLength : Nat) : Writer :=
  { dest, blockOffset := destLength % kBlockSize }

/-- The seven bytes in front of a fragment. -/
def header (type : RecordType) (payload : Bytes) : Bytes :=
  encodeFixed32 (Crc32c.mask (Crc32c.extend (typeCrc type) payload)) ++
    [UInt8.ofNat (payload.length % 256), UInt8.ofNat (payload.length / 256 % 256), type.toByte]

def emitPhysicalRecord (w : Writer) (type : RecordType) (payload : Bytes) : Status × Writer :=
  let blockOffset := w.blockOffset + kHeaderSize + payload.length
  let (s, dest) := w.dest.append (header type payload)
  if s.isOk then
    let (s, dest) := dest.append payload
    if s.isOk then
      let (s, dest) := dest.flush
      (s, { dest, blockOffset })
    else (s, { dest, blockOffset })
  else (s, { dest, blockOffset })

/-- Fill the block with zeros and switch to the next one if no header fits. -/
def switchBlock (w : Writer) : Status × Writer :=
  let leftover := kBlockSize - w.blockOffset
  if leftover < kHeaderSize then
    if leftover > 0 then
      let (s, dest) := w.dest.append (List.replicate leftover 0)
      if s.isOk then (s, { dest, blockOffset := 0 }) else (s, { w with dest })
    else (.ok, { w with blockOffset := 0 })
  else (.ok, w)

/-- Bytes for a payload that are left in the current block. -/
def avail (w : Writer) : Nat := kBlockSize - w.blockOffset - kHeaderSize

def fragmentType (isBegin isEnd : Bool) : RecordType :=
  if isBegin && isEnd then .full
  else if isBegin then .first
  else if isEnd then .last
  else .middle

theorem emitPhysicalRecord_blockOffset (w : Writer) (type : RecordType) (payload : Bytes) :
    (w.emitPhysicalRecord type payload).2.blockOffset =
      w.blockOffset + kHeaderSize + payload.length := by
  simp only [emitPhysicalRecord]
  split
  · split <;> rfl
  · rfl

theorem switchBlock_blockOffset {w : Writer} (good : w.switchBlock.1.isOk = true) :
    kBlockSize - w.blockOffset < kHeaderSize ∧ w.switchBlock.2.blockOffset = 0 ∨
      kHeaderSize ≤ kBlockSize - w.blockOffset ∧
        w.switchBlock.2.blockOffset = w.blockOffset := by
  simp only [switchBlock] at good ⊢
  by_cases small : kBlockSize - w.blockOffset < kHeaderSize
  · refine Or.inl ⟨small, ?_⟩
    rw [if_pos small] at good ⊢
    split at good
    · split at good
      · simp_all
      · simp_all
    · simp_all
  · rw [if_neg small]
    exact Or.inr ⟨by omega, rfl⟩

/-- The loop of `AddRecord`: emit the part of the payload that fits into the
    block, and go on with what is left of it. -/
def addRecordLoop (w : Writer) (left : Bytes) (isBegin : Bool) : Status × Writer :=
  if w.switchBlock.1.isOk then
    let w' := w.switchBlock.2
    let fragmentLength := min left.length w'.avail
    let type := fragmentType isBegin (left.length = fragmentLength)
    let emitted := w'.emitPhysicalRecord type (left.take fragmentLength)
    if emitted.1.isOk ∧ (left.drop fragmentLength).length > 0 then
      emitted.2.addRecordLoop (left.drop fragmentLength) false
    else emitted
  else w.switchBlock
termination_by 2 * left.length + if kBlockSize - w.blockOffset = kHeaderSize then 1 else 0
decreasing_by
  -- a fragment is empty only when exactly a header fits, and then the next block is fresh
  rename_i good more
  have offset' := switchBlock_blockOffset good
  rw [emitPhysicalRecord_blockOffset]
  simp only [List.length_drop, List.length_take, fragmentLength, avail, w'] at *
  have block : kBlockSize = 32768 := rfl
  have head : kHeaderSize = 7 := rfl
  split <;> split <;> omega

def addRecord (w : Writer) (slice : Bytes) : Status × Writer := w.addRecordLoop slice true

end Writer

end MiniLsm.Wal
