import MiniLsm.Raft.Storage
import MiniLsm.Wal.Positions

/-! # Replay ends on every file

The loops of the reader with a number of turns after which they give up, and with
every access to the buffer checked. A turn of the inner loop reads a block or
returns; a physical record before the end of the input uses up a header. So the
loops return what they should, however the bytes of the file look.
-/

namespace MiniLsm

namespace Wal.Reader

/-- `n` bytes of a buffer from an offset on; nothing unless all of them are there. -/
def slice (buffer : Bytes) (offset n : Nat) : Option Bytes :=
  if offset + n ≤ buffer.length then some ((buffer.drop offset).take n) else none

/-- `parsePhysicalRecord` that fails where it would read past the buffer. -/
def parseChecked (r : Reader) : Option (Nat × Bytes × Reader) := do
  let header ← slice r.buffer 0 kHeaderSize
  let length := headerLength header
  if kHeaderSize + length > r.buffer.length then
    if r.eof then return (kEof, [], { r with buffer := [] })
    else
      return (kBadRecord, [],
        { r with buffer := [] }.reportDrop r.buffer.length (.corruption "bad record length"))
  else if headerType header = 0 ∧ length = 0 then
    let rest ← slice r.buffer kHeaderSize (r.buffer.length - kHeaderSize)
    return (kBadRecord, [], { r with buffer := rest })
  else
    let covered ← slice r.buffer 6 (1 + length)
    if Crc32c.value covered = Crc32c.unmask (decodeFixed32 header) then
      let payload ← slice r.buffer kHeaderSize length
      let rest ← slice r.buffer (kHeaderSize + length) (r.buffer.length - kHeaderSize - length)
      return (headerType header, payload, { r with buffer := rest })
    else
      return (kBadRecord, [],
        { r with buffer := [] }.reportDrop r.buffer.length (.corruption "checksum mismatch"))

/-- The loop of `ReadPhysicalRecord`. -/
def readPhysicalRecordWithin : Nat → Reader → Option (Nat × Bytes × Reader)
  | 0, _ => none
  | turns + 1, r =>
      if r.buffer.length < kHeaderSize then
        if r.eof then some (kEof, [], { r with buffer := [] })
        else if r.fill.1 then readPhysicalRecordWithin turns r.fill.2
        else some (kEof, [], r.fill.2)
      else r.parseChecked

/-- The loop of `ReadRecord`. -/
def readRecordWithin (turns : Nat) : Nat → Reader → Bool → Bytes → Option (Option Bytes × Reader)
  | 0, _, _, _ => none
  | rounds + 1, r, inFragmentedRecord, scratch => do
      let (type, fragment, r) ← readPhysicalRecordWithin turns r
      match r.assemble type fragment inFragmentedRecord scratch with
      | (.more inside scratch', r') => readRecordWithin turns rounds r' inside scratch'
      | (.record data, r') => return (some data, r')
      | (.ended, r') => return (none, r')

/-- `while (reader.ReadRecord(&record, &scratch))` with a body. -/
def replayWithin {σ : Type} (body : σ → Bytes → σ) (turns rounds : Nat) :
    Nat → Reader → σ → Option (σ × Reader)
  | 0, _, _ => none
  | calls + 1, r, state => do
      let (result, r') ← readRecordWithin turns rounds r false []
      match result with
      | some record => replayWithin body turns rounds calls r' (body state record)
      | none => return (state, r')

section Bounds

variable {r : Reader} {buffer : Bytes} {offset n rounds calls : Nat}

theorem slice_inside (inside : offset + n ≤ buffer.length) :
    slice buffer offset n = some ((buffer.drop offset).take n) := if_pos inside

theorem slice_rest (inside : offset ≤ buffer.length) :
    slice buffer offset (buffer.length - offset) = some (buffer.drop offset) := by
  rw [slice_inside (by omega), List.take_of_length_le (Nat.le_of_eq List.length_drop)]

/-- No access leaves the buffer. -/
theorem parseChecked_eq (long : kHeaderSize ≤ r.buffer.length) :
    r.parseChecked = some r.parsePhysicalRecord := by
  have head : kHeaderSize = 7 := rfl
  have header : slice r.buffer 0 kHeaderSize = some (r.buffer.take kHeaderSize) :=
    slice_inside (by omega)
  rw [parseChecked, parsePhysicalRecord, header]
  simp only [Option.bind_eq_bind, Option.bind_some, headerLength_take (Nat.le_refl _),
    headerType_take (Nat.le_refl _), decodeFixed32_take (show 4 ≤ kHeaderSize by decide)]
  by_cases past : kHeaderSize + headerLength r.buffer > r.buffer.length
  · rw [if_pos past, if_pos past]
    cases r.eof with
    | false => rfl
    | true => rfl
  · rw [if_neg past, if_neg past]
    by_cases zero : headerType r.buffer = 0 ∧ headerLength r.buffer = 0
    · rw [if_pos zero, if_pos zero, slice_rest long]
      rfl
    · have covered : slice r.buffer 6 (1 + headerLength r.buffer) = some _ :=
        slice_inside (by omega)
      have payload : slice r.buffer kHeaderSize (headerLength r.buffer) = some _ :=
        slice_inside (by omega)
      have rest := @slice_rest r.buffer (kHeaderSize + headerLength r.buffer) (by omega)
      rw [← Nat.sub_sub] at rest
      rw [if_neg zero, if_neg zero, covered, payload, rest]
      by_cases same : checksumMatches r.buffer = true
      · rw [if_pos same, Option.bind_some, if_pos (of_decide_eq_true same)]
        rfl
      · rw [if_neg same, Option.bind_some, if_neg (fun eq => same (decide_eq_true eq))]
        rfl

/-- After a read, the end of the file is known or a header is buffered. -/
theorem fill_settles (filled : r.fill.1 = true) :
    r.fill.2.eof = true ∨ kHeaderSize ≤ r.fill.2.buffer.length := by
  have block : kBlockSize = 32768 := rfl
  have head : kHeaderSize = 7 := rfl
  rcases r.fill_cases with ⟨msg, failed⟩ | read
  · simp [failed] at filled
  · simp only [read, Bool.or_eq_true, decide_eq_true_eq]
    omega

theorem readPhysicalRecordWithin_settled (settled : r.eof = true ∨ kHeaderSize ≤ r.buffer.length) :
    readPhysicalRecordWithin (n + 1) r = some r.readPhysicalRecord := by
  rw [readPhysicalRecordWithin, readPhysicalRecord]
  split
  · rename_i short
    have ended := settled.resolve_right (Nat.not_le_of_lt short)
    rw [if_pos ended, if_pos ended]
  · rename_i long
    exact parseChecked_eq (Nat.le_of_not_lt long)

/-- Two turns are enough: one for the block, one for the physical record. -/
theorem readPhysicalRecordWithin_eq (r : Reader) :
    readPhysicalRecordWithin 2 r = some r.readPhysicalRecord := by
  rw [readPhysicalRecordWithin, readPhysicalRecord]
  split
  · split
    · rfl
    · split
      · rename_i filled
        exact readPhysicalRecordWithin_settled (fill_settles filled)
      · rfl
  · rename_i long
    exact parseChecked_eq (Nat.le_of_not_lt long)

/-- The physical records of a record use up bytes. -/
theorem readRecordWithin_eq (enough : r.unread < kHeaderSize * rounds) (inside : Bool)
    (scratch : Bytes) :
    readRecordWithin 2 rounds r inside scratch = some (r.readRecordLoop inside scratch) := by
  induction rounds generalizing r inside scratch with
  | zero => exact absurd enough (Nat.not_lt_zero _)
  | succ rounds ih =>
      have less := readFragment_consumes r inside scratch
      rw [readRecordWithin, readPhysicalRecordWithin_eq]
      cases read : r.readFragment inside scratch with
      | mk result r' =>
          rw [read] at less
          have next : r.readPhysicalRecord.2.2.assemble r.readPhysicalRecord.1
            r.readPhysicalRecord.2.1 inside scratch = (result, r') := read
          simp only [Option.bind_eq_bind, Option.bind_some, next]
          cases result with
          | more inside' scratch' =>
              rw [readRecordLoop_more read]
              refine ih ?_ inside' scratch'
              have := less (by simp)
              rw [Nat.mul_succ] at enough
              dsimp only at this
              omega
          | record data => rw [readRecordLoop_record read]; rfl
          | ended => rw [readRecordLoop_ended read]; rfl

/-- The records of a file use up bytes. -/
theorem replayWithin_eq {σ : Type} (body : σ → Bytes → σ) (rest : r.unread < kHeaderSize * rounds)
    (enough : r.unread < kHeaderSize * calls) (state : σ) :
    replayWithin body 2 rounds calls r state = some (r.records.1.foldl body state, r.records.2) := by
  induction calls generalizing r state with
  | zero => exact absurd enough (Nat.not_lt_zero _)
  | succ calls ih =>
      have less := readRecordLoop_consumes r false []
      rw [replayWithin, readRecordWithin_eq rest]
      cases read : r.readRecordLoop false [] with
      | mk result r' =>
          rw [read] at less
          cases result with
          | none =>
              rw [records_none read]
              rfl
          | some record =>
              rw [records_some read, Nat.mul_succ] at *
              have := less (by simp)
              dsimp only at this
              exact ih (by omega) (by omega) (body state record)

theorem records_length (r : Reader) : kHeaderSize * r.records.1.length ≤ r.unread := by
  induction size : r.unread using Nat.strong_induction_on generalizing r with
  | _ n ih =>
      have less := readRecordLoop_consumes r false []
      cases read : r.readRecordLoop false [] with
      | mk result r' =>
          rw [read] at less
          cases result with
          | none =>
              rw [records_none read]
              exact Nat.zero_le _
          | some record =>
              have := less (by simp)
              dsimp only at this
              have later := ih r'.unread (by have : kHeaderSize = 7 := rfl; omega) r' rfl
              rw [records_some read, List.length_cons, Nat.mul_succ]
              omega

end Bounds

end Wal.Reader

/-- `ReplayFile`. -/
def RaftStorage.replayFileWithin (turns rounds calls : Nat) (p : Place) :
    Option (Except Status Recovered) :=
  match p.newSequentialFile with
  | .error s => some (.error s)
  | .ok file =>
      (Wal.Reader.replayWithin Recovered.replay turns rounds calls { file } {}).map fun (state, _) =>
        .ok state

theorem newSequentialFile_unread {p : Place} {file : SequentialFile}
    (opened : p.newSequentialFile = .ok file) :
    Wal.Reader.unread { file } = p.contents.length := by
  rw [Place.newSequentialFile] at opened
  cases fault : p.openFault with
  | some msg =>
      rw [fault] at opened
      cases opened
  | none =>
      rw [fault] at opened
      cases opened
      exact Nat.zero_add _

theorem RaftStorage.replayFileWithin_eq {turns : Nat} {p : Place}
    (enough : p.contents.length < Wal.kHeaderSize * turns) :
    replayFileWithin 2 turns turns p = some (replayFile p) := by
  rw [replayFileWithin, replayFile]
  cases opened : p.newSequentialFile with
  | error s => rfl
  | ok file =>
      rw [← newSequentialFile_unread opened] at enough
      dsimp only
      rw [Wal.Reader.replayWithin_eq _ enough enough]
      rfl

/-- Whatever the bytes of a file, and whichever reads fail: `ReadPhysicalRecord`
    returns in its second turn and reads inside the buffer only, `ReadRecord` and a
    loop that calls it until it returns false end after at most as many physical
    records as there are headers in the file, and so does `ReplayFile`. -/
theorem replay_ends (r : Wal.Reader) (p : Place) :
    Wal.Reader.readPhysicalRecordWithin 2 r = some r.readPhysicalRecord ∧
    Wal.Reader.readRecordWithin 2 (r.unread / Wal.kHeaderSize + 1) r false [] =
      some r.readRecord ∧
    (∀ {σ : Type} (body : σ → Bytes → σ) (state : σ),
      Wal.Reader.replayWithin body 2 (r.unread / Wal.kHeaderSize + 1)
          (r.unread / Wal.kHeaderSize + 1) r state =
        some (r.records.1.foldl body state, r.records.2)) ∧
    Wal.kHeaderSize * r.records.1.length ≤ r.unread ∧
    RaftStorage.replayFileWithin 2 (p.contents.length / Wal.kHeaderSize + 1)
        (p.contents.length / Wal.kHeaderSize + 1) p = some (RaftStorage.replayFile p) := by
  have enough (bytes : Nat) : bytes < Wal.kHeaderSize * (bytes / Wal.kHeaderSize + 1) :=
    Nat.lt_mul_div_succ bytes (by decide)
  refine ⟨Wal.Reader.readPhysicalRecordWithin_eq r, Wal.Reader.readRecordWithin_eq (enough _) false [],
    fun body state => ?_, r.records_length, RaftStorage.replayFileWithin_eq (enough _)⟩
  exact Wal.Reader.replayWithin_eq body (enough _) (enough _) state

end MiniLsm
