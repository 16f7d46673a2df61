import MiniLsm.Env.Posix
import MiniLsm.Wal.ReadFaults

/-! # The log over system calls

The writer as the calls that it makes to its destination, whatever this is, and
the reader over a file that is read by system calls.
-/

namespace MiniLsm.Wal

open Dialogue

/-! ## Writing -/

namespace Writer

/-- `EmitPhysicalRecord`. -/
def emitCalls (type : RecordType) (payload : Bytes) : Dialogue FileCall Status Status := do
  let s ← ask (.append (header type payload))
  if s.isOk then
    let s ← ask (.append payload)
    if s.isOk then ask .flush else pure s
  else pure s

/-- Zeros for the rest of a block in which no header fits. -/
def switchCalls (blockOffset : Nat) : Dialogue FileCall Status Status :=
  let leftover := kBlockSize - blockOffset
  if leftover < kHeaderSize then
    if leftover > 0 then ask (.append (List.replicate leftover 0)) else pure .ok
  else pure .ok

/-- The offset in the block to which the next header goes. -/
def switched (blockOffset : Nat) : Nat :=
  if kBlockSize - blockOffset < kHeaderSize then 0 else blockOffset

/-- `AddRecord`, with the block offset that it leaves. -/
def addRecordCalls (blockOffset : Nat) (left : Bytes) (isBegin : Bool) :
    Dialogue FileCall Status (Status × Nat) := do
  let s ← switchCalls blockOffset
  if s.isOk then
    let fragmentLength := min left.length (kBlockSize - switched blockOffset - kHeaderSize)
    let s ← emitCalls (fragmentType isBegin (left.length = fragmentLength)) (left.take fragmentLength)
    let blockOffset' := switched blockOffset + kHeaderSize + fragmentLength
    if s.isOk ∧ (left.drop fragmentLength).length > 0 then
      addRecordCalls blockOffset' (left.drop fragmentLength) false
    else pure (s, blockOffset')
  else pure (s, blockOffset)
termination_by 2 * left.length + if kBlockSize - blockOffset = kHeaderSize then 1 else 0
decreasing_by
  rename_i more
  have block : kBlockSize = 32768 := rfl
  have head : kHeaderSize = 7 := rfl
  simp only [List.length_drop, switched, blockOffset', fragmentLength] at more ⊢
  split <;> split <;> split <;> omega

variable (w : Writer) (type : RecordType) (payload left : Bytes) (isBegin : Bool)

theorem emitPhysicalRecord_calls :
    w.emitPhysicalRecord type payload =
      (((emitCalls type payload).run WritableFile.serve w.dest).1,
        { dest := ((emitCalls type payload).run WritableFile.serve w.dest).2
          blockOffset := w.blockOffset + kHeaderSize + payload.length }) := by
  rw [emitPhysicalRecord, emitCalls]
  simp only [run_bind, run_ask, run_ite, run_pure, WritableFile.serve]
  split
  · split
    · rfl
    · rfl
  · rfl

theorem switchBlock_calls :
    w.switchBlock.1 = ((switchCalls w.blockOffset).run WritableFile.serve w.dest).1 ∧
      w.switchBlock.2.dest = ((switchCalls w.blockOffset).run WritableFile.serve w.dest).2 ∧
      w.switchBlock.2.blockOffset =
        if w.switchBlock.1.isOk then switched w.blockOffset else w.blockOffset := by
  rw [switchBlock, switchCalls, switched]
  dsimp only
  split
  · split
    · simp only [run_ask, WritableFile.serve]
      split
      · exact ⟨rfl, rfl, rfl⟩
      · exact ⟨rfl, rfl, rfl⟩
    · exact ⟨rfl, rfl, rfl⟩
  · exact ⟨rfl, rfl, rfl⟩

/-- The writer is the program of its calls. -/
theorem addRecordLoop_calls :
    w.addRecordLoop left isBegin =
      (((addRecordCalls w.blockOffset left isBegin).run WritableFile.serve w.dest).1.1,
        { dest := ((addRecordCalls w.blockOffset left isBegin).run WritableFile.serve w.dest).2
          blockOffset :=
            ((addRecordCalls w.blockOffset left isBegin).run WritableFile.serve w.dest).1.2 }) := by
  fun_induction addRecordLoop w left isBegin with
  | case1 w left isBegin good w' length type emitted more ih =>
      obtain ⟨status, dest, offset⟩ := w.switchBlock_calls
      rw [if_pos good] at offset
      have wrote : emitted = _ := w'.emitPhysicalRecord_calls type (left.take length)
      rw [addRecordCalls]
      simp only [run_bind, run_ite, run_pure]
      rw [if_pos (status ▸ good), ← dest, ← offset]
      rw [List.length_take, Nat.min_eq_left (Nat.min_le_left _ _)] at wrote
      have status' : emitted.1 = _ := congrArg Prod.fst wrote
      rw [if_pos ⟨status' ▸ more.1, more.2⟩, ih, wrote]
      rfl
  | case2 w left isBegin good w' length type emitted last =>
      obtain ⟨status, dest, offset⟩ := w.switchBlock_calls
      rw [if_pos good] at offset
      have wrote : emitted = _ := w'.emitPhysicalRecord_calls type (left.take length)
      rw [addRecordCalls]
      simp only [run_bind, run_ite, run_pure]
      rw [if_pos (status ▸ good), ← dest, ← offset]
      rw [List.length_take, Nat.min_eq_left (Nat.min_le_left _ _)] at wrote
      have status' : emitted.1 = _ := congrArg Prod.fst wrote
      rw [if_neg (status' ▸ last), wrote]
      rfl
  | case3 w left isBegin failed =>
      obtain ⟨status, dest, offset⟩ := w.switchBlock_calls
      rw [if_neg failed] at offset
      rw [addRecordCalls]
      simp only [run_bind, run_ite, run_pure]
      rw [if_neg (status ▸ failed)]
      exact Prod.ext status (Writer.mk.injEq .. |>.mpr ⟨dest, offset⟩)

end Writer

/-! ## Reading -/

namespace Reader

variable (r : Reader) (file : SequentialFile)

/-- Parsing what is buffered does not look at the file. -/
theorem parsePhysicalRecord_file :
    parsePhysicalRecord { r with file } = (r.parsePhysicalRecord.1, r.parsePhysicalRecord.2.1,
      { r with
        file, buffer := r.parsePhysicalRecord.2.2.buffer
        reports := r.parsePhysicalRecord.2.2.reports }) := by
  rw [parsePhysicalRecord, parsePhysicalRecord]
  dsimp only
  split
  · split
    · rfl
    · rfl
  · split
    · rfl
    · split
      · rfl
      · rfl

/-- Putting records together only makes reports. -/
theorem assemble_reports (type : Nat) (fragment : Bytes) (inFragmentedRecord : Bool)
    (scratch : Bytes) :
    assemble { r with file } type fragment inFragmentedRecord scratch =
      ((r.assemble type fragment inFragmentedRecord scratch).1,
        { r with
          file, reports := (r.assemble type fragment inFragmentedRecord scratch).2.reports }) := by
  unfold assemble
  split <;> try split
  all_goals rfl

theorem assemble_buffer (type : Nat) (fragment : Bytes) (inFragmentedRecord : Bool)
    (scratch : Bytes) :
    (r.assemble type fragment inFragmentedRecord scratch).2.buffer = r.buffer :=
  congrArg (fun result => result.2.buffer)
    (r.assemble_reports r.file type fragment inFragmentedRecord scratch)

end Reader

/-- A `Reader` whose file is read by system calls. -/
structure PosixReader where
  file : PosixSequentialFile
  eof : Bool := false
  buffer : Bytes := []
  reports : List (Nat × Status) := []
  deriving Repr, DecidableEq

namespace PosixReader

/-- The reader without its file. -/
def detached (r : PosixReader) : Reader :=
  { file := { rest := [] }, eof := r.eof, buffer := r.buffer, reports := r.reports }

/-- What became of the reader, with its file. The end of the file is found only
    by reading. -/
def attached (r : PosixReader) (r' : Reader) : PosixReader :=
  { r with buffer := r'.buffer, reports := r'.reports }

/-- Buffer the next block. -/
def fill (r : PosixReader) : Bool × PosixReader :=
  let (s, data, file) := r.file.read kBlockSize
  if s.isOk then
    (true, { r with file, buffer := data, eof := r.eof || data.length < kBlockSize })
  else
    (false, { r with file, buffer := [], eof := true, reports := r.reports ++ [(kBlockSize, s)] })

theorem fill_cases (r : PosixReader) :
    ∃ file : PosixSequentialFile, file.rest.length ≤ r.file.rest.length ∧
      (r.file.read kBlockSize = (.ok, r.file.rest.take kBlockSize, file) ∧
          file.rest = r.file.rest.drop kBlockSize ∧
          r.fill = (true,
            { r with file, buffer := r.file.rest.take kBlockSize
                     eof := r.eof || (r.file.rest.take kBlockSize).length < kBlockSize }) ∨
        ∃ msg, r.file.read kBlockSize = (.ioError msg, [], file) ∧
          r.fill = (false,
            { r with file, buffer := [], eof := true
                     reports := r.reports ++ [(kBlockSize, .ioError msg)] })) := by
  obtain ⟨file, -, less, -, cases⟩ := r.file.read_cases kBlockSize
  refine ⟨file, less, ?_⟩
  rcases cases with ⟨got, behind⟩ | ⟨errno, -, -, got⟩
  · exact Or.inl ⟨got, behind, by simp [fill, got]⟩
  · exact Or.inr ⟨_, got, by simp [fill, got, posixError]⟩

theorem fill_progress {r : PosixReader} (filled : r.fill.1 = true) :
    r.fill.2.eof = true ∨ r.fill.2.file.rest.length < r.file.rest.length := by
  have block : kBlockSize = 32768 := rfl
  obtain ⟨file, -, ⟨-, behind, read⟩ | ⟨msg, -, failed⟩⟩ := r.fill_cases
  · simp only [read, behind, List.length_take, List.length_drop, Bool.or_eq_true, decide_eq_true_eq]
    omega
  · simp [failed] at filled

def readPhysicalRecord (r : PosixReader) : Nat × Bytes × PosixReader :=
  if r.buffer.length < kHeaderSize then
    if r.eof then (kEof, [], { r with buffer := [] })
    else if r.fill.1 then r.fill.2.readPhysicalRecord
    else (kEof, [], r.fill.2)
  else
    let (type, fragment, r') := r.detached.parsePhysicalRecord
    (type, fragment, r.attached r')
termination_by if r.eof then 0 else r.file.rest.length + 1
decreasing_by
  rename_i more filled
  rw [if_neg more]
  rcases fill_progress filled with ended | less
  · simp [ended]
  · split <;> omega

/-- The bytes a reader has not consumed yet. -/
def unread (r : PosixReader) : Nat := r.buffer.length + r.file.rest.length

theorem fill_unread (r : PosixReader) : r.fill.2.unread ≤ r.unread := by
  obtain ⟨file, less, ⟨-, behind, read⟩ | ⟨msg, -, failed⟩⟩ := r.fill_cases
  · simp only [read, unread, behind, List.length_take, List.length_drop]
    omega
  · simp only [failed, unread, List.length_nil]
    omega

theorem readPhysicalRecord_consumes {r : PosixReader} (more : r.readPhysicalRecord.1 ≠ kEof) :
    r.readPhysicalRecord.2.2.unread + kHeaderSize ≤ r.unread := by
  fun_induction readPhysicalRecord r with
  | case1 => simp at more
  | case2 r _ _ _ ih => exact Nat.le_trans (ih more) r.fill_unread
  | case3 => simp at more
  | case4 r long type fragment r' parsed =>
      have consumed := @Reader.parsePhysicalRecord_consumes r.detached (Nat.le_of_not_lt long)
      rw [parsed] at consumed
      have less := consumed more
      have kept : r.detached.parsePhysicalRecord = _ :=
        r.detached.parsePhysicalRecord_file { rest := [] }
      rw [parsed] at kept
      have same : r'.file = { rest := [] } := congrArg (fun p => p.2.2.file) kept
      simp only [Reader.unread, unread, detached, attached, same, List.length_nil] at less ⊢
      omega

/-- The next physical record, and what becomes of it. -/
def readFragment (r : PosixReader) (inFragmentedRecord : Bool) (scratch : Bytes) :
    Reader.Assembly × PosixReader :=
  let (type, fragment, r') := r.readPhysicalRecord
  let (result, last) := r'.detached.assemble type fragment inFragmentedRecord scratch
  (result, r'.attached last)

theorem readFragment_consumes (r : PosixReader) (inFragmentedRecord : Bool) (scratch : Bytes)
    (more : (r.readFragment inFragmentedRecord scratch).1 ≠ .ended) :
    (r.readFragment inFragmentedRecord scratch).2.unread + kHeaderSize ≤ r.unread := by
  have same : (r.readFragment inFragmentedRecord scratch).2.unread =
      r.readPhysicalRecord.2.2.unread := by
    simp only [readFragment, unread, attached, Reader.assemble_buffer]
    rfl
  rw [same]
  refine readPhysicalRecord_consumes fun ended => more ?_
  rw [readFragment]
  dsimp only
  rw [ended]
  rfl

/-- The loop of `ReadRecord`. -/
def readRecordLoop (r : PosixReader) (inFragmentedRecord : Bool) (scratch : Bytes) :
    Option Bytes × PosixReader :=
  match _read : r.readFragment inFragmentedRecord scratch with
  | (.more inside scratch', r') => r'.readRecordLoop inside scratch'
  | (.record data, r') => (some data, r')
  | (.ended, r') => (none, r')
termination_by r.unread
decreasing_by
  have less := readFragment_consumes r inFragmentedRecord scratch (by simp [_read])
  rw [_read] at less
  exact Nat.lt_of_lt_of_le (Nat.lt_add_of_pos_right (by decide)) less

def readRecord (r : PosixReader) : Option Bytes × PosixReader := r.readRecordLoop false []

theorem readRecordLoop_consumes (r : PosixReader) (inFragmentedRecord : Bool) (scratch : Bytes)
    (more : (r.readRecordLoop inFragmentedRecord scratch).1 ≠ none) :
    (r.readRecordLoop inFragmentedRecord scratch).2.unread + kHeaderSize ≤ r.unread := by
  fun_induction readRecordLoop r inFragmentedRecord scratch with
  | case1 r inFragmentedRecord scratch inside scratch' r' read ih =>
      have less := readFragment_consumes r inFragmentedRecord scratch (by simp [read])
      rw [read] at less
      exact Nat.le_trans (ih more) (Nat.le_of_add_right_le less)
  | case2 r inFragmentedRecord scratch data r' read =>
      have less := readFragment_consumes r inFragmentedRecord scratch (by simp [read])
      rwa [read] at less
  | case3 => simp at more

/-- Every record up to the first false. -/
def records (r : PosixReader) : List Bytes × PosixReader :=
  match _read : r.readRecord with
  | (some data, r') =>
      let (later, last) := r'.records
      (data :: later, last)
  | (none, r') => ([], r')
termination_by r.unread
decreasing_by
  rw [readRecord] at _read
  have less := readRecordLoop_consumes r false [] (by simp [_read])
  rw [_read] at less
  exact Nat.lt_of_lt_of_le (Nat.lt_add_of_pos_right (by decide)) less

/-- A reader that is told beforehand how the system calls will go. -/
structure Foresees (r : PosixReader) (r' : Reader) : Prop where
  eof : r'.eof = r.eof
  buffer : r'.buffer = r.buffer
  reports : r'.reports = r.reports
  file : r.eof = false →
    r'.file.rest = r.file.rest ∧ PosixSequentialFile.Foretold kBlockSize r.file r'.file.faults

namespace Foresees

variable {r : PosixReader} {r' : Reader}

theorem eq (h : Foresees r r') : r' = { r.detached with file := r'.file } := by
  obtain ⟨file, eof, buffer, reports⟩ := r'
  obtain ⟨same, same', same'', -⟩ := h
  subst same same' same''
  rfl

theorem fill (h : Foresees r r') (more : r.eof = false) :
    r'.fill.1 = r.fill.1 ∧ Foresees r.fill.2 r'.fill.2 := by
  obtain ⟨rest, foretold⟩ := h.file more
  obtain ⟨g, read, later⟩ := foretold.read
  rw [← rest] at read
  obtain ⟨file, eof, buffer, reports⟩ := r'
  obtain ⟨same, same', same'', -⟩ := h
  dsimp only at same same' same'' read
  subst same same' same''
  rw [Reader.fill, PosixReader.fill]
  dsimp only
  rw [read]
  dsimp only
  by_cases ok : (r.file.read kBlockSize).1.isOk = true
  · rw [if_pos ok, if_pos ok]
    exact ⟨rfl, rfl, rfl, rfl, fun _ => later ok⟩
  · rw [if_neg ok, if_neg ok]
    exact ⟨rfl, rfl, rfl, rfl, fun more => absurd more (by simp)⟩

theorem readPhysicalRecord (h : Foresees r r') :
    r'.readPhysicalRecord.1 = r.readPhysicalRecord.1 ∧
      r'.readPhysicalRecord.2.1 = r.readPhysicalRecord.2.1 ∧
      Foresees r.readPhysicalRecord.2.2 r'.readPhysicalRecord.2.2 := by
  fun_induction PosixReader.readPhysicalRecord r generalizing r' with
  | case1 r short ended =>
      rw [← h.buffer] at short
      rw [Reader.readPhysicalRecord, if_pos short, if_pos (h.eof.trans ended)]
      exact ⟨rfl, rfl, h.eof, rfl, h.reports, h.file⟩
  | case2 r short more filled ih =>
      have more : r.eof = false := Bool.eq_false_iff.mpr more
      obtain ⟨filled', next⟩ := h.fill more
      rw [← h.buffer] at short
      rw [Reader.readPhysicalRecord, if_pos short, if_neg (by rw [h.eof, more]; decide),
        if_pos (filled'.trans filled)]
      exact ih next
  | case3 r short more failed =>
      have more : r.eof = false := Bool.eq_false_iff.mpr more
      obtain ⟨filled', next⟩ := h.fill more
      rw [← h.buffer] at short
      rw [Reader.readPhysicalRecord, if_pos short, if_neg (by rw [h.eof, more]; decide),
        if_neg (by rw [filled']; exact failed)]
      exact ⟨rfl, rfl, next⟩
  | case4 r long type fragment last parsed =>
      have same := r.detached.parsePhysicalRecord_file r'.file
      rw [← h.eq, parsed] at same
      rw [← h.buffer] at long
      rw [Reader.readPhysicalRecord, if_neg long, same]
      exact ⟨rfl, rfl, rfl, rfl, rfl, h.file⟩

theorem readFragment (h : Foresees r r') (inside : Bool) (scratch : Bytes) :
    (r'.readFragment inside scratch).1 = (r.readFragment inside scratch).1 ∧
      Foresees (r.readFragment inside scratch).2 (r'.readFragment inside scratch).2 := by
  obtain ⟨type, fragment, next⟩ := h.readPhysicalRecord
  rw [Reader.readFragment, PosixReader.readFragment]
  dsimp only
  rw [type, fragment, next.eq, Reader.assemble_reports]
  refine ⟨rfl, rfl, ?_, rfl, next.file⟩
  rw [attached, Reader.assemble_buffer]

theorem readRecordLoop (h : Foresees r r') (inside : Bool) (scratch : Bytes) :
    (r'.readRecordLoop inside scratch).1 = (r.readRecordLoop inside scratch).1 ∧
      Foresees (r.readRecordLoop inside scratch).2 (r'.readRecordLoop inside scratch).2 := by
  fun_induction PosixReader.readRecordLoop r inside scratch generalizing r' with
  | case1 r inside scratch inside' scratch' last read ih =>
      obtain ⟨same, next⟩ := h.readFragment inside scratch
      rw [read] at same next
      rw [Reader.readRecordLoop_more (Prod.ext same rfl)]
      exact ih next
  | case2 r inside scratch data last read =>
      obtain ⟨same, next⟩ := h.readFragment inside scratch
      rw [read] at same next
      rw [Reader.readRecordLoop_record (Prod.ext same rfl)]
      exact ⟨rfl, next⟩
  | case3 r inside scratch last read =>
      obtain ⟨same, next⟩ := h.readFragment inside scratch
      rw [read] at same next
      rw [Reader.readRecordLoop_ended (Prod.ext same rfl)]
      exact ⟨rfl, next⟩

theorem records (h : Foresees r r') :
    r'.records.1 = r.records.1 ∧ Foresees r.records.2 r'.records.2 := by
  fun_induction PosixReader.records r generalizing r' with
  | case1 r data last read later final rest ih =>
      obtain ⟨same, next⟩ := h.readRecordLoop false []
      rw [← PosixReader.readRecord, ← Reader.readRecord, read] at same next
      obtain ⟨same', next'⟩ := ih next
      rw [rest] at same' next'
      rw [Reader.records_some (Prod.ext same rfl)]
      exact ⟨congrArg (data :: ·) same', next'⟩
  | case2 r last read =>
      obtain ⟨same, next⟩ := h.readRecordLoop false []
      rw [← PosixReader.readRecord, ← Reader.readRecord, read] at same next
      rw [Reader.records_none (Prod.ext same rfl)]
      exact ⟨rfl, next⟩

end Foresees

/-- Reading over system calls, however they are split up, gives the records and
    the reports of a file with some faults; with none if no call fails. -/
theorem records_foreseen (f : PosixSequentialFile) :
    ∃ faults, (records { file := f }).1 = (Reader.records { file := { rest := f.rest, faults } }).1 ∧
      (records { file := f }).2.reports =
        (Reader.records { file := { rest := f.rest, faults } }).2.reports ∧
      (Gentle f.reads → ∀ fault ∈ faults, fault = none) := by
  obtain ⟨faults, foretold, gentle⟩ := f.foretold (n := kBlockSize) (by decide)
  have start : Foresees { file := f } { file := { rest := f.rest, faults } } :=
    ⟨rfl, rfl, rfl, fun _ => ⟨rfl, foretold⟩⟩
  obtain ⟨same, last⟩ := start.records
  exact ⟨faults, same.symm, last.reports.symm, gentle⟩

/-- Short and interrupted reads do not show. -/
theorem records_gentle (f : PosixSequentialFile) (gentle : Gentle f.reads) :
    (records { file := f }).1 = recordsOf f.rest := by
  obtain ⟨faults, same, -, none⟩ := records_foreseen f
  have never : firstFault faults = Option.none := by
    rw [firstFault, List.findIdx?_eq_none_iff]
    intro fault member
    rw [none gentle fault member]
    rfl
  rw [same, records_faults, readable, never]

end PosixReader

end MiniLsm.Wal
