import MiniLsm.Wal.Writer

/-! # The log reader

`src/wal_reader.cc`. The `Reporter` is the list of its calls, in order.
-/

namespace MiniLsm.Wal

/-- What `ReadPhysicalRecord` returns at the end of the input, and for a
    dropped record. Both are also values of a type byte. -/
def kEof : Nat := 5

def kBadRecord : Nat := 6

structure Reader where
  file : SequentialFile
  eof : Bool := false
  /-- Unconsumed bytes of the current block. -/
  buffer : Bytes := []
  reports : List (Nat × Status) := []
  deriving Repr, DecidableEq

namespace Reader

def reportDrop (r : Reader) (bytes : Nat) (reason : Status) : Reader :=
  { r with reports := r.reports ++ [(bytes, reason)] }

/-- The payload length of the header at the front of a buffer. -/
def headerLength (buffer : Bytes) : Nat := (buffer.getD 4 0).toNat + (buffer.getD 5 0).toNat * 256

/-- The type of the header at the front of a buffer. -/
def headerType (buffer : Bytes) : Nat := (buffer.getD 6 0).toNat

/-- The checksum in the header is that of the type byte and the payload. -/
def checksumMatches (buffer : Bytes) : Bool :=
  Crc32c.value ((buffer.drop 6).take (1 + headerLength buffer)) =
    Crc32c.unmask (decodeFixed32 buffer)

/-- The part of `ReadPhysicalRecord` after a header is known to be buffered.
    Where the code leaves the result alone, it is empty here. -/
def parsePhysicalRecord (r : Reader) : Nat × Bytes × Reader :=
  let length := headerLength r.buffer
  let type := headerType r.buffer
  if kHeaderSize + length > r.buffer.length then
    if r.eof then (kEof, [], { r with buffer := [] })
    else
      (kBadRecord, [],
        { r with buffer := [] }.reportDrop r.buffer.length (.corruption "bad record length"))
  else if type = 0 ∧ length = 0 then
    (kBadRecord, [], { r with buffer := r.buffer.drop kHeaderSize })
  else if checksumMatches r.buffer then
    (type, (r.buffer.drop kHeaderSize).take length,
      { r with buffer := r.buffer.drop (kHeaderSize + length) })
  else
    (kBadRecord, [],
      { r with buffer := [] }.reportDrop r.buffer.length (.corruption "checksum mismatch"))

/-- Buffer the next block; the first component tells whether it was read. A
    short block means that the end of the file was hit. -/
def fill (r : Reader) : Bool × Reader :=
  let (s, data, file) := r.file.read kBlockSize
  if s.isOk then
    (true, { r with file, buffer := data, eof := r.eof || data.length < kBlockSize })
  else (false, { r with file, buffer := [], eof := true }.reportDrop kBlockSize s)

theorem fill_cases (r : Reader) :
    (∃ msg, r.fill = (false,
      { r with file := { r.file with faults := r.file.faults.tail }, buffer := [], eof := true,
               reports := r.reports ++ [(kBlockSize, .ioError msg)] })) ∨
    r.fill = (true,
      { r with file := { rest := r.file.rest.drop kBlockSize, faults := r.file.faults.tail },
               buffer := r.file.rest.take kBlockSize,
               eof := r.eof || (r.file.rest.take kBlockSize).length < kBlockSize }) := by
  rcases r.file.read_cases kBlockSize with ⟨msg, failed⟩ | read
  · exact Or.inl ⟨msg, by simp [fill, failed, reportDrop]⟩
  · exact Or.inr (by simp [fill, read])

theorem fill_progress {r : Reader} (filled : r.fill.1 = true) :
    r.fill.2.eof = true ∨ r.fill.2.file.rest.length < r.file.rest.length := by
  have block : kBlockSize = 32768 := rfl
  rcases r.fill_cases with ⟨msg, failed⟩ | read
  · simp [failed] at filled
  · simp only [read, List.length_take, List.length_drop, Bool.or_eq_true, decide_eq_true_eq]
    omega

def readPhysicalRecord (r : Reader) : Nat × Bytes × Reader :=
  if r.buffer.length < kHeaderSize then
    if r.eof then (kEof, [], { r with buffer := [] })
    else if r.fill.1 then r.fill.2.readPhysicalRecord
    else (kEof, [], r.fill.2)
  else r.parsePhysicalRecord
termination_by if r.eof then 0 else r.file.rest.length + 1
decreasing_by
  rename_i more filled
  rw [if_neg more]
  rcases fill_progress filled with ended | less
  · simp [ended]
  · split <;> omega

/-- The bytes a reader has not consumed yet. -/
def unread (r : Reader) : Nat := r.buffer.length + r.file.rest.length

theorem fill_unread (r : Reader) : r.fill.2.unread ≤ r.unread := by
  rcases r.fill_cases with ⟨msg, failed⟩ | read
  · simp [failed, unread]
  · simp only [read, unread, List.length_take, List.length_drop]
    omega

theorem parsePhysicalRecord_consumes {r : Reader} (long : kHeaderSize ≤ r.buffer.length)
    (more : r.parsePhysicalRecord.1 ≠ kEof) :
    r.parsePhysicalRecord.2.2.unread + kHeaderSize ≤ r.unread := by
  have head : kHeaderSize = 7 := rfl
  rw [parsePhysicalRecord] at more ⊢
  split
  · split
    · simp_all
    · simp only [unread, reportDrop, List.length_nil]
      omega
  · split
    · simp only [unread, List.length_drop]
      omega
    · split
      · simp only [unread, List.length_drop]
        omega
      · simp only [unread, reportDrop, List.length_nil]
        omega

/-- Every physical record before the end of the input consumes a header. -/
theorem readPhysicalRecord_consumes {r : Reader} (more : r.readPhysicalRecord.1 ≠ kEof) :
    r.readPhysicalRecord.2.2.unread + kHeaderSize ≤ r.unread := by
  fun_induction readPhysicalRecord r with
  | case1 => simp at more
  | case2 r _ _ _ ih => exact Nat.le_trans (ih more) r.fill_unread
  | case3 => simp at more
  | case4 r long => exact parsePhysicalRecord_consumes (by omega) more

/-- What `ReadRecord` does with one physical record: go on with a partial
    record and its bytes so far, or return. -/
inductive Assembly where
  | more (inFragmentedRecord : Bool) (scratch : Bytes)
  | record (data : Bytes)
  | ended

/-- The `switch` of `ReadRecord`. -/
def assemble (r : Reader) (type : Nat) (fragment : Bytes) (inFragmentedRecord : Bool)
    (scratch : Bytes) : Assembly × Reader :=
  match type with
  | 1 => -- kFullType
      (.record fragment,
        if inFragmentedRecord then
          r.reportDrop scratch.length (.corruption "partial record without end(1)")
        else r)
  | 2 => -- kFirstType
      (.more true fragment,
        if inFragmentedRecord then
          r.reportDrop scratch.length (.corruption "partial record without end(2)")
        else r)
  | 3 => -- kMiddleType
      if inFragmentedRecord then (.more true (scratch ++ fragment), r)
      else
        (.more false scratch,
          r.reportDrop fragment.length (.corruption "missing start of fragmented record(1)"))
  | 4 => -- kLastType
      if inFragmentedRecord then (.record (scratch ++ fragment), r)
      else
        (.more false scratch,
          r.reportDrop fragment.length (.corruption "missing start of fragmented record(2)"))
  | 5 => (.ended, r) -- kEof
  | 6 => -- kBadRecord
      if inFragmentedRecord then
        (.more false [], r.reportDrop scratch.length (.corruption "error in middle of record"))
      else (.more false scratch, r)
  | _ =>
      (.more false [],
        r.reportDrop (fragment.length + if inFragmentedRecord then scratch.length else 0)
          (.corruption "unknown record type"))

/-- The next physical record, and what becomes of it. -/
def readFragment (r : Reader) (inFragmentedRecord : Bool) (scratch : Bytes) :
    Assembly × Reader :=
  let read := r.readPhysicalRecord
  read.2.2.assemble read.1 read.2.1 inFragmentedRecord scratch

theorem assemble_unread (r : Reader) (type : Nat) (fragment : Bytes) (inFragmentedRecord : Bool)
    (scratch : Bytes) :
    (r.assemble type fragment inFragmentedRecord scratch).2.unread = r.unread := by
  unfold assemble
  split <;> try split
  all_goals rfl

theorem readFragment_consumes (r : Reader) (inFragmentedRecord : Bool) (scratch : Bytes)
    (more : (r.readFragment inFragmentedRecord scratch).1 ≠ .ended) :
    (r.readFragment inFragmentedRecord scratch).2.unread + kHeaderSize ≤ r.unread := by
  rw [readFragment, assemble_unread]
  refine readPhysicalRecord_consumes (fun ended => more ?_)
  rw [readFragment, ended]
  rfl

/-- The loop of `ReadRecord`. -/
def readRecordLoop (r : Reader) (inFragmentedRecord : Bool) (scratch : Bytes) :
    Option Bytes × Reader :=
  match _read : r.readFragment inFragmentedRecord scratch with
  | (.more inside scratch', r') => r'.readRecordLoop inside scratch'
  | (.record data, r') => (some data, r')
  | (.ended, r') => (none, r')
termination_by r.unread
decreasing_by
  have less := readFragment_consumes r inFragmentedRecord scratch (by simp [_read])
  rw [_read] at less
  exact Nat.lt_of_lt_of_le (Nat.lt_add_of_pos_right (by decide)) less

section Equations

variable {r r' : Reader} {inFragmentedRecord inside : Bool} {scratch scratch' data : Bytes}

theorem readRecordLoop_more
    (read : r.readFragment inFragmentedRecord scratch = (.more inside scratch', r')) :
    r.readRecordLoop inFragmentedRecord scratch = r'.readRecordLoop inside scratch' := by
  rw [readRecordLoop]
  split <;> simp_all

theorem readRecordLoop_record
    (read : r.readFragment inFragmentedRecord scratch = (.record data, r')) :
    r.readRecordLoop inFragmentedRecord scratch = (some data, r') := by
  rw [readRecordLoop]
  split <;> simp_all

theorem readRecordLoop_ended
    (read : r.readFragment inFragmentedRecord scratch = (.ended, r')) :
    r.readRecordLoop inFragmentedRecord scratch = (none, r') := by
  rw [readRecordLoop]
  split <;> simp_all

end Equations

/-- `none` where the code returns false. -/
def readRecord (r : Reader) : Option Bytes × Reader := r.readRecordLoop false []

theorem readRecordLoop_consumes (r : Reader) (inFragmentedRecord : Bool) (scratch : Bytes)
    (more : (r.readRecordLoop inFragmentedRecord scratch).1 ≠ none) :
    (r.readRecordLoop inFragmentedRecord scratch).2.unread + kHeaderSize ≤ r.unread := by
  fun_induction readRecordLoop r inFragmentedRecord scratch with
  | case1 r inFragmentedRecord scratch inside scratch' r' read ih =>
      have less := readFragment_consumes r inFragmentedRecord scratch (by simp [read])
      rw [read] at less
      exact Nat.le_trans (ih more) (Nat.le_of_add_right_le less)
  | case2 r inFragmentedRecord scratch data r' read =>
      have less := readFragment_consumes r inFragmentedRecord scratch (by simp [read])
      rwa [read] at less
  | case3 => simp at more

/-- `while (reader.ReadRecord(&record, &scratch))`: every record up to the first
    false, and the reader after it. -/
def records (r : Reader) : List Bytes × Reader :=
  match _read : r.readRecord with
  | (some data, r') =>
      let (later, last) := r'.records
      (data :: later, last)
  | (none, r') => ([], r')
termination_by r.unread
decreasing_by
  rw [readRecord] at _read
  have less := readRecordLoop_consumes r false [] (by simp [_read])
  rw [_read] at less
  exact Nat.lt_of_lt_of_le (Nat.lt_add_of_pos_right (by decide)) less

theorem records_some {r r' : Reader} {data : Bytes} (read : r.readRecord = (some data, r')) :
    r.records = (data :: r'.records.1, r'.records.2) := by
  rw [records]
  split <;> simp_all

theorem records_none {r r' : Reader} (read : r.readRecord = (none, r')) : r.records = ([], r') := by
  rw [records]
  split <;> simp_all

end Reader

end MiniLsm.Wal
