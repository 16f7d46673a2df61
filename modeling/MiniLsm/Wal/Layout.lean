import MiniLsm.Wal.Writer

/-! # The layout of a log file

What the writer appends, as a function of the file length and the payload: a
list of fragments, each behind the zero bytes that fill up a block. The writer
of any session produces exactly this, because its block cursor always agrees
with the file length.
-/

namespace MiniLsm.Wal

/-- Bytes between a file position and the next block boundary. -/
def room (pos : Nat) : Nat := (kBlockSize - pos % kBlockSize) % kBlockSize

/-- Zero bytes in front of a fragment: the rest of a block without room for a
    header. -/
def padding (pos : Nat) : Nat := if room pos < kHeaderSize then room pos else 0

/-- Room of the block in which a fragment starts. -/
def blockRoom (pos : Nat) : Nat := if room pos < kHeaderSize then kBlockSize else room pos

theorem room_eq (pos : Nat) : room pos = (32768 - pos % 32768) % 32768 := rfl

theorem block_cases (pos : Nat) :
    room pos < kHeaderSize ∧ padding pos = room pos ∧ blockRoom pos = kBlockSize ∨
      kHeaderSize ≤ room pos ∧ padding pos = 0 ∧ blockRoom pos = room pos := by
  by_cases small : room pos < kHeaderSize
  · exact Or.inl ⟨small, if_pos small, if_pos small⟩
  · exact Or.inr ⟨Nat.le_of_not_lt small, if_neg small, if_neg small⟩

theorem blockRoom_bounds (pos : Nat) : kHeaderSize ≤ blockRoom pos ∧ blockRoom pos ≤ kBlockSize := by
  have block : kBlockSize = 32768 := rfl
  have head : kHeaderSize = 7 := rfl
  have size := room_eq pos
  have cases := block_cases pos
  omega

structure Fragment where
  pad : Nat
  type : RecordType
  payload : Bytes
  deriving Repr, DecidableEq

namespace Fragment

def bytes (f : Fragment) : Bytes :=
  List.replicate f.pad 0 ++ Writer.header f.type f.payload ++ f.payload

@[simp] theorem header_length (type : RecordType) (payload : Bytes) :
    (Writer.header type payload).length = kHeaderSize := by
  simp [Writer.header, kHeaderSize]

@[simp] theorem bytes_length (f : Fragment) :
    f.bytes.length = f.pad + kHeaderSize + f.payload.length := by
  simp [bytes, Nat.add_assoc]

/-- The fragment may stand at a position: it starts where a header fits and
    ends inside its block. -/
structure Fits (f : Fragment) (pos : Nat) : Prop where
  pad : f.pad = padding pos
  inside : kHeaderSize + f.payload.length ≤ blockRoom pos

theorem Fits.small {f : Fragment} {pos : Nat} (h : f.Fits pos) : f.payload.length < 65536 := by
  have block : kBlockSize = 32768 := rfl
  have inside := h.inside
  obtain ⟨-, high⟩ := blockRoom_bounds pos
  omega

theorem Fits.room_after {f : Fragment} {pos : Nat} (h : f.Fits pos) :
    room (pos + f.bytes.length) = blockRoom pos - (kHeaderSize + f.payload.length) := by
  obtain ⟨pad, inside⟩ := h
  have block : kBlockSize = 32768 := rfl
  have head : kHeaderSize = 7 := rfl
  have cases := block_cases pos
  have before := room_eq pos
  have after := room_eq (pos + f.bytes.length)
  rw [bytes_length, pad] at *
  omega

end Fragment

/-- The first fragment of what is left of a record. -/
def fragmentAt (pos : Nat) (left : Bytes) (isBegin : Bool) : Fragment :=
  let length := min left.length (blockRoom pos - kHeaderSize)
  { pad := padding pos
    type := Writer.fragmentType isBegin (left.length = length)
    payload := left.take length }

theorem fragmentAt_fits (pos : Nat) (left : Bytes) (isBegin : Bool) :
    (fragmentAt pos left isBegin).Fits pos := by
  obtain ⟨low, -⟩ := blockRoom_bounds pos
  refine ⟨rfl, ?_⟩
  simp only [fragmentAt, List.length_take]
  omega

/-- What the type of a fragment tells: whether its record starts and ends in it. -/
theorem fragmentAt_type (pos : Nat) (left : Bytes) (isBegin : Bool) :
    (fragmentAt pos left isBegin).type =
      if (fragmentAt pos left isBegin).payload.length < left.length then
        if isBegin then .first else .middle
      else if isBegin then .full else .last := by
  have ends : left.length = min left.length (blockRoom pos - kHeaderSize) ↔
      ¬ (fragmentAt pos left isBegin).payload.length < left.length := by
    simp only [fragmentAt, List.length_take]
    omega
  have type : (fragmentAt pos left isBegin).type = Writer.fragmentType isBegin
      (decide (¬ (fragmentAt pos left isBegin).payload.length < left.length)) := by
    rw [← decide_eq_decide.mpr ends]
    rfl
  rw [type, Writer.fragmentType]
  by_cases more : (fragmentAt pos left isBegin).payload.length < left.length
  · simp [more]
  · cases isBegin <;> simp [more]

theorem fragmentAt_nonzero (pos : Nat) (left : Bytes) (isBegin : Bool) :
    (fragmentAt pos left isBegin).type ≠ .zero := by
  rw [fragmentAt_type]
  cases isBegin <;> split <;> simp

theorem fragmentAt_payload_append (pos : Nat) (left : Bytes) (isBegin : Bool) :
    (fragmentAt pos left isBegin).payload ++
      left.drop (fragmentAt pos left isBegin).payload.length = left := by
  have cut : (fragmentAt pos left isBegin).payload.length =
      min left.length (blockRoom pos - kHeaderSize) := by
    simp only [fragmentAt, List.length_take]
    omega
  rw [cut]
  exact List.take_append_drop _ _

/-- After a fragment that does not end its record the block is full. -/
theorem blockRoom_after {pos : Nat} {left : Bytes} {isBegin : Bool}
    (more : (fragmentAt pos left isBegin).payload.length < left.length) :
    blockRoom (pos + (fragmentAt pos left isBegin).bytes.length) = kBlockSize := by
  obtain ⟨low, -⟩ := blockRoom_bounds pos
  have after := (fragmentAt_fits pos left isBegin).room_after
  simp only [fragmentAt, List.length_take] at more after
  rw [blockRoom, if_pos]
  rw [show room (pos + (fragmentAt pos left isBegin).bytes.length) = 0 by
    rw [(fragmentAt_fits pos left isBegin).room_after]
    simp only [fragmentAt, List.length_take]
    omega]
  decide

/-- The fragments of what is left of a record, written at a file position. -/
def fragments (pos : Nat) (left : Bytes) (isBegin : Bool) : List Fragment :=
  if (fragmentAt pos left isBegin).payload.length < left.length then
    fragmentAt pos left isBegin ::
      fragments (pos + (fragmentAt pos left isBegin).bytes.length)
        (left.drop (fragmentAt pos left isBegin).payload.length) false
  else [fragmentAt pos left isBegin]
termination_by 2 * left.length + if blockRoom pos = kHeaderSize then 1 else 0
decreasing_by
  rename_i more
  rw [blockRoom_after more]
  have block : kBlockSize = 32768 := rfl
  have head : kHeaderSize = 7 := rfl
  obtain ⟨low, -⟩ := blockRoom_bounds pos
  rw [List.length_drop]
  simp only [fragmentAt, List.length_take] at *
  split <;> split <;> omega

theorem fragments_more {pos : Nat} {left : Bytes} {isBegin : Bool}
    (more : (fragmentAt pos left isBegin).payload.length < left.length) :
    fragments pos left isBegin = fragmentAt pos left isBegin ::
      fragments (pos + (fragmentAt pos left isBegin).bytes.length)
        (left.drop (fragmentAt pos left isBegin).payload.length) false := by
  rw [fragments]
  exact if_pos more

theorem fragments_last {pos : Nat} {left : Bytes} {isBegin : Bool}
    (last : ¬ (fragmentAt pos left isBegin).payload.length < left.length) :
    fragments pos left isBegin = [fragmentAt pos left isBegin] := by
  rw [fragments]
  exact if_neg last

def encode (fs : List Fragment) : Bytes := fs.flatMap Fragment.bytes

theorem encode_nil : encode [] = [] := rfl

theorem encode_cons (f : Fragment) (later : List Fragment) :
    encode (f :: later) = f.bytes ++ encode later := rfl

/-- The bytes of one record written at a file position. -/
def encoded (pos : Nat) (payload : Bytes) : Bytes := encode (fragments pos payload true)

/-- The bytes of several records. -/
def encodedAll (pos : Nat) : List Bytes → Bytes
  | [] => []
  | payload :: later =>
      encoded pos payload ++ encodedAll (pos + (encoded pos payload).length) later

/-! ## The writer produces the layout -/

/-- A writer whose block cursor agrees with the length of its file. -/
structure Writer.Aligned (w : Writer) : Prop where
  appends : w.dest.Appends
  bound : w.blockOffset ≤ kBlockSize
  cursor : w.blockOffset % kBlockSize = w.dest.contents.length % kBlockSize

namespace Writer

variable {w : Writer}

theorem new_aligned {dest : WritableFile} (appends : dest.Appends) :
    (Writer.new dest dest.contents.length).Aligned where
  appends := appends
  bound := Nat.le_of_lt (Nat.mod_lt _ (by decide))
  cursor := Nat.mod_mod _ _

theorem Aligned.switchBlock (h : w.Aligned) :
    w.switchBlock = (.ok,
      { dest := w.dest.extended (List.replicate (padding w.dest.contents.length) 0)
        blockOffset := kBlockSize - blockRoom w.dest.contents.length }) := by
  have block : kBlockSize = 32768 := rfl
  have head : kHeaderSize = 7 := rfl
  have cases := block_cases w.dest.contents.length
  have size := room_eq w.dest.contents.length
  obtain ⟨appends, bound, cursor⟩ := h
  rw [block] at cursor
  by_cases fits : kHeaderSize ≤ kBlockSize - w.blockOffset
  · have pad : padding w.dest.contents.length = 0 := by omega
    have offset : kBlockSize - blockRoom w.dest.contents.length = w.blockOffset := by omega
    simp [Writer.switchBlock, pad, offset, Nat.not_lt_of_le fits]
  · have pad : padding w.dest.contents.length = kBlockSize - w.blockOffset := by omega
    have offset : kBlockSize - blockRoom w.dest.contents.length = 0 := by omega
    have small : kBlockSize - w.blockOffset < kHeaderSize := by omega
    rw [Writer.switchBlock, pad, offset, if_pos small]
    split
    · rw [appends.append]
      rfl
    · have none : kBlockSize - w.blockOffset = 0 := by omega
      simp [none]

theorem emitPhysicalRecord_eq (appends : w.dest.Appends) (type : RecordType) (payload : Bytes) :
    w.emitPhysicalRecord type payload = (.ok,
      { dest := w.dest.extended (header type payload ++ payload)
        blockOffset := w.blockOffset + kHeaderSize + payload.length }) := by
  simp [emitPhysicalRecord, appends.append, (appends.extended _).append, WritableFile.flush]

/-- One round of the loop of `AddRecord` writes the next fragment. -/
theorem Aligned.emit (h : w.Aligned) (left : Bytes) (isBegin : Bool) (length : Nat)
    (cut : length = min left.length w.switchBlock.2.avail) :
    length = (fragmentAt w.dest.contents.length left isBegin).payload.length ∧
    ∃ w', w.switchBlock.2.emitPhysicalRecord (fragmentType isBegin (left.length = length))
        (left.take length) = (.ok, w') ∧ w'.Aligned ∧
      w'.dest = w.dest.extended (fragmentAt w.dest.contents.length left isBegin).bytes := by
  have block : kBlockSize = 32768 := rfl
  have head : kHeaderSize = 7 := rfl
  have cases := block_cases w.dest.contents.length
  have size := room_eq w.dest.contents.length
  have avail : w.switchBlock.2.avail = blockRoom w.dest.contents.length - kHeaderSize := by
    simp only [h.switchBlock, Writer.avail]
    omega
  rw [avail] at cut
  have fragment : fragmentAt w.dest.contents.length left isBegin =
      { pad := padding w.dest.contents.length
        type := fragmentType isBegin (left.length = length)
        payload := left.take length } := by
    rw [fragmentAt, cut]
  have payload : (left.take length).length = length := by
    rw [List.length_take]
    omega
  rw [fragment, h.switchBlock, emitPhysicalRecord_eq (by exact h.appends)]
  refine ⟨payload.symm, _, rfl, ⟨h.appends, ?_, ?_⟩, ?_⟩
  · dsimp only
    omega
  · simp only [WritableFile.extended_contents, List.length_append, List.length_replicate,
      Fragment.header_length, payload, block]
    omega
  · simp [Fragment.bytes]

/-- `AddRecord` appends the fragments of the record and keeps the cursor right. -/
theorem Aligned.addRecordLoop (h : w.Aligned) (left : Bytes) (isBegin : Bool) :
    ∃ w', w.addRecordLoop left isBegin = (.ok, w') ∧ w'.Aligned ∧
      w'.dest = w.dest.extended (encode (fragments w.dest.contents.length left isBegin)) := by
  fun_induction Writer.addRecordLoop w left isBegin with
  | case1 w left isBegin good w' length type emitted more ih =>
      obtain ⟨same, next, written, aligned, dest⟩ := h.emit left isBegin length rfl
      have written : emitted = (.ok, next) := written
      rw [written] at ih more ⊢
      obtain ⟨last, ended, aligned', whole⟩ := ih aligned
      have longer := more.2
      rw [List.length_drop] at longer
      refine ⟨last, ended, aligned', ?_⟩
      rw [whole, dest, @fragments_more w.dest.contents.length left isBegin (by omega)]
      simp [encode, same]
  | case2 w left isBegin good w' length type emitted last =>
      obtain ⟨same, next, written, aligned, dest⟩ := h.emit left isBegin length rfl
      have written : emitted = (.ok, next) := written
      rw [written] at last ⊢
      simp only [Status.isOk_ok, true_and, List.length_drop] at last
      refine ⟨next, rfl, aligned, ?_⟩
      rw [dest, fragments_last (by omega)]
      simp [encode]
  | case3 w left isBegin failed => simp [h.switchBlock] at failed

end Writer

end MiniLsm.Wal
