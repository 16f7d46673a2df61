import MiniLsm.Wal.Block

/-! # The reader at a file position

What the reader makes of arbitrary bytes, as a function of the position it has
reached in the file: the next physical record, the position behind it, and
whether anything was reported.
-/

namespace MiniLsm.Wal

open Reader

/-- What `ReadPhysicalRecord` returns, where it goes on, and whether it called
    the reporter. -/
structure Physical where
  type : Nat
  payload : Bytes
  next : Nat
  reported : Bool
  deriving Repr, DecidableEq

/-- The next physical record at a position of a file; `none` at its end. -/
def physicalAt (bytes : Bytes) (pos : Nat) : Option Physical :=
  let start := pos + padding pos
  let buffer := (bytes.drop start).take (blockRoom pos)
  if buffer.length < kHeaderSize then none
  else if kHeaderSize + headerLength buffer > buffer.length then
    -- past the end of a short block: a record that was not written out
    if buffer.length < blockRoom pos then none
    else
      some { type := kBadRecord, payload := [], next := start + buffer.length, reported := true }
  else if headerType buffer = 0 ∧ headerLength buffer = 0 then
    some { type := kBadRecord, payload := [], next := start + kHeaderSize, reported := false }
  else if checksumMatches buffer then
    some { type := headerType buffer
           payload := (buffer.drop kHeaderSize).take (headerLength buffer)
           next := start + (kHeaderSize + headerLength buffer), reported := false }
  else
    some { type := kBadRecord, payload := [], next := start + buffer.length, reported := true }

/-- `ReadRecord` calls the reporter about a physical record. -/
def assembleReports (type : Nat) (inside : Bool) : Bool :=
  match type with
  | 1 | 2 => inside
  | 3 | 4 => !inside
  | 5 => false
  | 6 => inside
  | _ => true

theorem assemble_reports (r : Reader) (type : Nat) (fragment : Bytes) (inside : Bool)
    (scratch : Bytes) :
    ∃ more, r.assemble type fragment inside scratch =
        (assembled type fragment inside scratch, { r with reports := r.reports ++ more }) ∧
      (more = [] ↔ assembleReports type inside = false) := by
  have silent (same : r.assemble type fragment inside scratch =
      (assembled type fragment inside scratch, r)) (quiet : assembleReports type inside = false) :
      ∃ more, r.assemble type fragment inside scratch =
          (assembled type fragment inside scratch, { r with reports := r.reports ++ more }) ∧
        (more = [] ↔ assembleReports type inside = false) :=
    ⟨[], by rw [List.append_nil]; exact same, fun _ => quiet, fun _ => rfl⟩
  rcases type with _ | _ | _ | _ | _ | _ | _ | type <;> cases inside
  all_goals first
    | exact silent rfl rfl
    | exact ⟨[_], rfl, by simp [assembleReports]⟩

/-! ## One physical record -/

/-- At an offset of a file stands a physical record that lies within one block
    and has a verifying checksum. -/
structure Verifies (bytes : Bytes) (start : Nat) : Prop where
  whole : start + (kHeaderSize + headerLength (bytes.drop start)) ≤ bytes.length
  block : start % kBlockSize + (kHeaderSize + headerLength (bytes.drop start)) ≤ kBlockSize
  checksum : checksumMatches (bytes.drop start) = true

instance (bytes : Bytes) (start : Nat) : Decidable (Verifies bytes start) :=
  decidable_of_iff
    (start + (kHeaderSize + headerLength (bytes.drop start)) ≤ bytes.length ∧
      start % kBlockSize + (kHeaderSize + headerLength (bytes.drop start)) ≤ kBlockSize ∧
      checksumMatches (bytes.drop start) = true)
    ⟨fun h => ⟨h.1, h.2.1, h.2.2⟩, fun h => ⟨h.whole, h.block, h.checksum⟩⟩

section Headers

variable {bytes : Bytes} {n : Nat}

theorem getD_take {i : Nat} (low : i < n) : (bytes.take n).getD i 0 = bytes.getD i 0 := by
  rw [List.getD_eq_getElem?_getD, List.getElem?_take_of_lt low, List.getD_eq_getElem?_getD]

theorem headerLength_take (long : kHeaderSize ≤ n) :
    headerLength (bytes.take n) = headerLength bytes := by
  have head : kHeaderSize = 7 := rfl
  rw [headerLength, getD_take (by omega), getD_take (by omega), headerLength]

theorem headerType_take (long : kHeaderSize ≤ n) :
    headerType (bytes.take n) = headerType bytes := by
  have head : kHeaderSize = 7 := rfl
  rw [headerType, getD_take (by omega), headerType]

theorem decodeFixed32_take (long : 4 ≤ n) : decodeFixed32 (bytes.take n) = decodeFixed32 bytes := by
  rw [decodeFixed32, getD_take (by omega), getD_take (by omega), getD_take (by omega),
    getD_take (by omega), decodeFixed32]

theorem checksumMatches_take (long : kHeaderSize + headerLength bytes ≤ n) :
    checksumMatches (bytes.take n) = checksumMatches bytes := by
  have head : kHeaderSize = 7 := rfl
  have length := @headerLength_take bytes n (by omega)
  have stored := @decodeFixed32_take bytes n (by omega)
  have covered : ((bytes.take n).drop 6).take (1 + headerLength bytes) =
      (bytes.drop 6).take (1 + headerLength bytes) := by
    rw [List.drop_take, List.take_take, Nat.min_eq_left (by omega)]
  rw [checksumMatches, length, stored, covered, checksumMatches]

end Headers

section Physical

variable {r : Reader} {bytes : Bytes} {pos : Nat} {x : Physical}

/-- The bytes of the block in which the next header is looked for. -/
theorem block_length (bytes : Bytes) (pos : Nat) :
    ((bytes.drop (pos + padding pos)).take (blockRoom pos)).length =
      min (blockRoom pos) (bytes.length - (pos + padding pos)) := by
  rw [List.length_take, List.length_drop]

/-- Every physical record takes the reader on, and not out of its block. -/
theorem physicalAt_next (read : physicalAt bytes pos = some x) :
    pos + padding pos + kHeaderSize ≤ x.next ∧ x.next ≤ bytes.length ∧
      x.next ≤ pos + padding pos + blockRoom pos := by
  have head : kHeaderSize = 7 := rfl
  have size := block_length bytes pos
  simp only [physicalAt] at read
  split at read
  · simp at read
  · split at read
    · split at read
      · simp at read
      · obtain rfl := Option.some.inj read
        dsimp only
        omega
    · split at read
      · obtain rfl := Option.some.inj read
        dsimp only
        omega
      · split at read
        · obtain rfl := Option.some.inj read
          dsimp only
          omega
        · obtain rfl := Option.some.inj read
          dsimp only
          omega

/-- The next header starts where its block has this much room. -/
theorem start_mod (pos : Nat) : (pos + padding pos) % kBlockSize + blockRoom pos = kBlockSize := by
  have block : kBlockSize = 32768 := rfl
  have head : kHeaderSize = 7 := rfl
  have cases := block_cases pos
  have size := room_eq pos
  rw [block] at *
  omega

/-- What is returned is a bad record, or a physical record that verifies. -/
theorem physicalAt_cases (read : physicalAt bytes pos = some x) :
    x.type = kBadRecord ∧ x.payload = [] ∨
      Verifies bytes (pos + padding pos) ∧
        x = { type := headerType (bytes.drop (pos + padding pos))
              payload := ((bytes.drop (pos + padding pos)).drop kHeaderSize).take
                (headerLength (bytes.drop (pos + padding pos)))
              next := pos + padding pos +
                (kHeaderSize + headerLength (bytes.drop (pos + padding pos)))
              reported := false } := by
  have head : kHeaderSize = 7 := rfl
  have size := block_length bytes pos
  obtain ⟨low, -⟩ := blockRoom_bounds pos
  have length := @headerLength_take (bytes.drop (pos + padding pos)) (blockRoom pos) low
  have type := @headerType_take (bytes.drop (pos + padding pos)) (blockRoom pos) low
  simp only [physicalAt] at read
  split at read
  · simp at read
  · split at read
    · split at read
      · simp at read
      · obtain rfl := Option.some.inj read
        exact Or.inl ⟨rfl, rfl⟩
    · rename_i inside
      split at read
      · obtain rfl := Option.some.inj read
        exact Or.inl ⟨rfl, rfl⟩
      · split at read
        · rename_i matches_
          obtain rfl := Option.some.inj read
          rw [length] at inside
          rw [checksumMatches_take (by omega)] at matches_
          refine Or.inr ⟨⟨by omega, ?_, matches_⟩, ?_⟩
          · have := start_mod pos
            omega
          · rw [length, type, List.drop_take, List.take_take, Nat.min_eq_left (by omega)]
        · obtain rfl := Option.some.inj read
          exact Or.inl ⟨rfl, rfl⟩

/-- Only the block of the next header matters. -/
theorem physicalAt_congr {bytes' : Bytes}
    (same : (bytes'.drop (pos + padding pos)).take (blockRoom pos) =
      (bytes.drop (pos + padding pos)).take (blockRoom pos)) :
    physicalAt bytes' pos = physicalAt bytes pos := by
  simp only [physicalAt, same]

/-- There is something in a whole block. -/
theorem physicalAt_full (full : pos + padding pos + blockRoom pos ≤ bytes.length) :
    ∃ x, physicalAt bytes pos = some x := by
  obtain ⟨low, -⟩ := blockRoom_bounds pos
  have size := block_length bytes pos
  simp only [physicalAt]
  rw [if_neg (by omega)]
  split
  · rw [if_neg (by omega)]
    exact ⟨_, rfl⟩
  · split
    · exact ⟨_, rfl⟩
    · split
      · exact ⟨_, rfl⟩
      · exact ⟨_, rfl⟩

/-- A fragment whose header is next is what is read. -/
theorem physicalAt_fragment {f : Fragment} {later : Bytes}
    (front : bytes.drop (pos + padding pos) =
      Writer.header f.type f.payload ++ (f.payload ++ later))
    (inside : kHeaderSize + f.payload.length ≤ blockRoom pos) (nonzero : f.type ≠ .zero) :
    physicalAt bytes pos = some
      { type := f.type.toByte.toNat, payload := f.payload
        next := pos + padding pos + (kHeaderSize + f.payload.length), reported := false } := by
  have block : kBlockSize = 32768 := rfl
  have head : kHeaderSize = 7 := rfl
  obtain ⟨low, high⟩ := blockRoom_bounds pos
  have small : f.payload.length < 65536 := by omega
  have size := congrArg List.length front
  simp only [List.length_append, Fragment.header_length] at size
  have length := @View.headerLength_header f.payload f.type small (f.payload ++ later)
  have type := @View.headerType_header f.payload f.type (f.payload ++ later)
  have checksum := @View.checksumMatches_header f.payload f.type small later
  rw [← front] at length type checksum
  have positive : ¬ (f.type.toByte.toNat = 0 ∧ f.payload.length = 0) := by
    cases kind : f.type with
    | zero => exact absurd kind nonzero
    | full | first | middle | last => simp [RecordType.toByte]
  simp only [physicalAt]
  rw [headerLength_take low, headerType_take low, checksumMatches_take (by omega), length, type,
    checksum, if_neg (by rw [List.length_take]; omega), if_neg (by rw [List.length_take]; omega),
    if_neg positive, if_pos rfl, front, List.drop_take,
    List.drop_left' (Fragment.header_length _ _), List.take_take, Nat.min_eq_left (by omega),
    List.take_left]

/-- Behind part of a block there is the rest of it. -/
theorem room_behind {taken : Nat} (some_ : 0 < taken) (inside : taken ≤ blockRoom pos) :
    room (pos + padding pos + taken) = blockRoom pos - taken := by
  have block : kBlockSize = 32768 := rfl
  have head : kHeaderSize = 7 := rfl
  have cases := block_cases pos
  have before := room_eq pos
  have after := room_eq (pos + padding pos + taken)
  omega

/-- The reader enters the block of the next physical record, or is at the end of
    the file. -/
theorem View.enterBlock (view : View r (room pos) (bytes.drop pos)) :
    (∃ r', r.readPhysicalRecord = r'.readPhysicalRecord ∧
      View r' (blockRoom pos) (bytes.drop (pos + padding pos)) ∧ r'.reports = r.reports) ∨
    (bytes.length - pos < padding pos ∧
      r.readPhysicalRecord = (kEof, [], { r with buffer := [] })) := by
  rcases block_cases pos with ⟨short, pad, whole⟩ | ⟨enough, pad, whole⟩
  · by_cases more : room pos ≤ (bytes.drop pos).length
    · obtain ⟨r', next, view', reports⟩ := view.readPhysicalRecord_next short more
      rw [List.drop_drop, ← pad, ← whole] at view'
      exact Or.inl ⟨r', next, view', reports⟩
    · have ended : (bytes.drop pos).length < room pos := Nat.lt_of_not_le more
      refine Or.inr ⟨?_, view.readPhysicalRecord_end ended (by omega)⟩
      rw [List.length_drop] at ended
      omega
  · exact Or.inl ⟨r, rfl, by rw [pad, whole]; exact view, rfl⟩

/-- Consuming a part of the block. -/
theorem View.consumed {r' : Reader} {taken : Nat}
    (view : View r (blockRoom pos) (bytes.drop (pos + padding pos)))
    (some_ : 0 < taken)
    (inside : taken ≤ ((bytes.drop (pos + padding pos)).take (blockRoom pos)).length)
    (buffer : r'.buffer = r.buffer.drop taken) (file : r'.file = r.file) (eof : r'.eof = r.eof) :
    View r' (room (pos + padding pos + taken)) (bytes.drop (pos + padding pos + taken)) := by
  rw [block_length] at inside
  have room := @room_behind pos taken some_ (by omega)
  refine ⟨?_, ?_, ?_, file ▸ view.faults⟩
  · rw [buffer, view.buffer, room, List.drop_take, List.drop_drop]
  · rw [file, view.rest, room, List.drop_drop, List.drop_drop]
    congr 1
    omega
  · rw [eof, view.eof, room]
    simp only [List.length_drop]
    exact decide_eq_decide.mpr (by omega)

/-- The reader has seen the end of its file, and nothing is buffered. -/
structure Reader.Exhausted (r : Reader) : Prop where
  rest : r.file.rest = []
  eof : r.eof = true
  buffer : r.buffer = []

/-- A reader whose block is short has seen the end of its file. -/
theorem View.exhausted {size : Nat} (view : View r size bytes) (ended : bytes.length < size) :
    Reader.Exhausted { r with buffer := [] } where
  rest := view.rest.trans (List.drop_of_length_le (by omega))
  eof := view.eof.trans (decide_eq_true ended)
  buffer := rfl

/-- `physicalAt` is what the reader reads. -/
theorem View.physicalAt_none (view : View r (room pos) (bytes.drop pos))
    (read : physicalAt bytes pos = none) :
    ∃ r', r.readPhysicalRecord = (kEof, [], r') ∧ r'.reports = r.reports ∧ r'.Exhausted := by
  have bounds := blockRoom_bounds pos
  have size := block_length bytes pos
  rcases view.enterBlock with ⟨r', same, view', reports⟩ | ⟨beyond, ended⟩
  · rw [same]
    have buffered := congrArg List.length view'.buffer
    simp only [physicalAt] at read
    split at read
    · rename_i short
      have ended : (bytes.drop (pos + padding pos)).length < blockRoom pos := by
        rw [List.length_drop]
        omega
      refine ⟨_, view'.readPhysicalRecord_end ended ?_, reports, view'.exhausted ended⟩
      rw [List.length_drop]
      omega
    · rename_i long
      split at read
      · rename_i past
        split at read
        · rename_i short
          have exhausted : Reader.Exhausted { r' with buffer := [] } := by
            refine view'.exhausted ?_
            rw [List.length_drop]
            omega
          refine ⟨{ r' with buffer := [] }, ?_, reports, exhausted⟩
          rw [readPhysicalRecord, if_neg (by omega), parsePhysicalRecord]
          rw [← view'.buffer] at past
          rw [if_pos past, if_pos exhausted.eof]
        · simp at read
      · split at read
        · simp at read
        · split at read
          · simp at read
          · simp at read
  · refine ⟨_, ended, rfl, view.exhausted ?_⟩
    have cases := block_cases pos
    rw [List.length_drop]
    omega

theorem View.physicalAt_some (view : View r (room pos) (bytes.drop pos))
    (read : physicalAt bytes pos = some x) :
    ∃ r' more, r.readPhysicalRecord = (x.type, x.payload, r') ∧
      View r' (room x.next) (bytes.drop x.next) ∧
      r'.reports = r.reports ++ more ∧ (more = [] ↔ x.reported = false) := by
  have head : kHeaderSize = 7 := rfl
  have size := block_length bytes pos
  have next := physicalAt_next read
  rcases view.enterBlock with ⟨r₁, same, view₁, reports⟩ | ⟨ended, -⟩
  · rw [same, ← reports]
    simp only [physicalAt, ← view₁.buffer] at read
    have buffered := congrArg List.length view₁.buffer
    split at read
    · simp at read
    · rename_i long
      rw [readPhysicalRecord, if_neg long, parsePhysicalRecord]
      split at read
      · rename_i past
        split at read
        · simp at read
        · rename_i full
          have eof : ¬ r₁.eof = true := by
            rw [view₁.eof, List.length_drop]
            simp only [decide_eq_true_eq]
            omega
          obtain rfl := Option.some.inj read
          rw [if_pos past, if_neg eof]
          refine ⟨_, [_], rfl, view₁.consumed (by omega) (by omega) ?_ rfl rfl, rfl, by simp⟩
          simp [reportDrop]
      · rename_i inside
        rw [if_neg inside]
        split at read
        · rename_i zero
          obtain rfl := Option.some.inj read
          rw [if_pos zero]
          exact ⟨_, [], rfl, view₁.consumed (by omega) (by omega) rfl rfl rfl, by simp, by simp⟩
        · rename_i nonzero
          rw [if_neg nonzero]
          split at read
          · rename_i matches_
            obtain rfl := Option.some.inj read
            rw [if_pos matches_]
            exact ⟨_, [], rfl, view₁.consumed (by omega) (by omega) rfl rfl rfl, by simp, by simp⟩
          · rename_i mismatch
            obtain rfl := Option.some.inj read
            rw [if_neg mismatch]
            refine ⟨_, [_], rfl, view₁.consumed (by omega) (by omega) ?_ rfl rfl, rfl, by simp⟩
            simp [reportDrop]
  · omega

end Physical

/-! ## All the records -/

/-- The records that are returned up to the first false, from a position and a
    partial record on, and whether anything was reported on the way. -/
def walk (bytes : Bytes) (pos : Nat) (inside : Bool) (scratch : Bytes) : List Bytes × Bool :=
  match _read : physicalAt bytes pos with
  | none => ([], false)
  | some x =>
      match assembled x.type x.payload inside scratch with
      | .more inside' scratch' =>
          ((walk bytes x.next inside' scratch').1,
            (x.reported || assembleReports x.type inside) || (walk bytes x.next inside' scratch').2)
      | .record data =>
          (data :: (walk bytes x.next false []).1,
            (x.reported || assembleReports x.type inside) || (walk bytes x.next false []).2)
      | .ended => ([], x.reported || assembleReports x.type inside)
termination_by bytes.length - pos
decreasing_by
  all_goals
    have head : kHeaderSize = 7 := rfl
    have next := physicalAt_next _read
    omega

section Walk

variable {r r' : Reader} {bytes : Bytes} {pos : Nat} {x : Physical} {inside inside' : Bool}
  {scratch scratch' data : Bytes}

theorem walk_none (read : physicalAt bytes pos = none) :
    walk bytes pos inside scratch = ([], false) := by
  rw [walk]
  split <;> simp_all

theorem walk_more (read : physicalAt bytes pos = some x)
    (result : assembled x.type x.payload inside scratch = .more inside' scratch') :
    walk bytes pos inside scratch = ((walk bytes x.next inside' scratch').1,
      (x.reported || assembleReports x.type inside) || (walk bytes x.next inside' scratch').2) := by
  rw [walk]
  split <;> simp_all

theorem walk_record (read : physicalAt bytes pos = some x)
    (result : assembled x.type x.payload inside scratch = .record data) :
    walk bytes pos inside scratch = (data :: (walk bytes x.next false []).1,
      (x.reported || assembleReports x.type inside) || (walk bytes x.next false []).2) := by
  rw [walk]
  split <;> simp_all

theorem walk_ended (read : physicalAt bytes pos = some x)
    (result : assembled x.type x.payload inside scratch = .ended) :
    walk bytes pos inside scratch = ([], x.reported || assembleReports x.type inside) := by
  rw [walk]
  split <;> simp_all

/-- The reader after the first false, from inside a record. -/
def Reader.finishFrom (r : Reader) (inside : Bool) (scratch : Bytes) : Reader :=
  match r.readRecordLoop inside scratch with
  | (some _, r') => r'.records.2
  | (none, r') => r'

theorem records_eq_finishFrom (r : Reader) : r.records.2 = r.finishFrom false [] := by
  rw [Reader.finishFrom]
  cases read : r.readRecordLoop false [] with
  | mk result r' =>
      cases result with
      | none => rw [Reader.records_none read]
      | some data => rw [Reader.records_some read]

theorem finishFrom_more (read : r.readFragment inside scratch = (.more inside' scratch', r')) :
    r.finishFrom inside scratch = r'.finishFrom inside' scratch' := by
  rw [Reader.finishFrom, Reader.readRecordLoop_more read, Reader.finishFrom]

theorem finishFrom_record (read : r.readFragment inside scratch = (.record data, r')) :
    r.finishFrom inside scratch = r'.finishFrom false [] := by
  rw [Reader.finishFrom, Reader.readRecordLoop_record read, ← records_eq_finishFrom]

theorem finishFrom_ended (read : r.readFragment inside scratch = (.ended, r')) :
    r.finishFrom inside scratch = r' := by
  rw [Reader.finishFrom, Reader.readRecordLoop_ended read]

/-- One physical record and what `ReadRecord` does with it. -/
theorem View.readAt (view : View r (room pos) (bytes.drop pos))
    (read : physicalAt bytes pos = some x) (inside : Bool) (scratch : Bytes) :
    ∃ r' more, r.readFragment inside scratch =
        (assembled x.type x.payload inside scratch, r') ∧
      View r' (room x.next) (bytes.drop x.next) ∧ r'.reports = r.reports ++ more ∧
      (more = [] ↔ (x.reported || assembleReports x.type inside) = false) := by
  obtain ⟨r₁, first, reads, view₁, reports₁, quiet₁⟩ := view.physicalAt_some read
  obtain ⟨second, assembles, quiet₂⟩ := assemble_reports r₁ x.type x.payload inside scratch
  refine ⟨{ r₁ with reports := r₁.reports ++ second }, first ++ second, ?_,
    ⟨view₁.buffer, view₁.rest, view₁.eof, view₁.faults⟩, ?_, ?_⟩
  · rw [Reader.readFragment, reads]
    exact assembles
  · rw [reports₁, List.append_assoc]
  · rw [List.append_eq_nil_iff, quiet₁, quiet₂, Bool.or_eq_false_iff]

/-- The reader at a position returns what `walk` says. -/
theorem View.walk (view : View r (room pos) (bytes.drop pos)) :
    r.recordsFrom inside scratch = (walk bytes pos inside scratch).1 ∧
      ∃ more, (r.finishFrom inside scratch).reports = r.reports ++ more ∧
        (more = [] ↔ (Wal.walk bytes pos inside scratch).2 = false) := by
  induction size : bytes.length - pos using Nat.strongRecOn generalizing r pos inside scratch with
  | _ size ih =>
      cases read : physicalAt bytes pos with
      | none =>
          obtain ⟨r', ended, reports, -⟩ := view.physicalAt_none read
          have fragment : r.readFragment inside scratch = (.ended, r') := by
            rw [Reader.readFragment, ended]
            rfl
          rw [walk_none read, recordsFrom_ended fragment, finishFrom_ended fragment]
          exact ⟨rfl, [], by rw [reports, List.append_nil], by simp⟩
      | some x =>
          have head : kHeaderSize = 7 := rfl
          have next := physicalAt_next read
          obtain ⟨r', first, fragment, view', reports, quiet⟩ := view.readAt read inside scratch
          cases result : assembled x.type x.payload inside scratch with
          | ended =>
              rw [result] at fragment
              rw [walk_ended read result, recordsFrom_ended fragment, finishFrom_ended fragment]
              exact ⟨rfl, first, reports, quiet⟩
          | more inside' scratch' =>
              rw [result] at fragment
              obtain ⟨same, later, reports', quiet'⟩ :=
                @ih _ (by omega) r' x.next inside' scratch' view' rfl
              rw [walk_more read result, recordsFrom_more fragment, finishFrom_more fragment]
              refine ⟨same, first ++ later, ?_, ?_⟩
              · rw [reports', reports, List.append_assoc]
              · rw [List.append_eq_nil_iff, quiet, quiet', ← Bool.or_eq_false_iff]
          | record data =>
              rw [result] at fragment
              obtain ⟨same, later, reports', quiet'⟩ :=
                @ih _ (by omega) r' x.next false [] view' rfl
              rw [walk_record read result, recordsFrom_record fragment, finishFrom_record fragment]
              refine ⟨congrArg _ same, first ++ later, ?_, ?_⟩
              · rw [reports', reports, List.append_assoc]
              · rw [List.append_eq_nil_iff, quiet, quiet', ← Bool.or_eq_false_iff]

theorem recordsOf_walk (bytes : Bytes) : recordsOf bytes = (walk bytes 0 false []).1 := by
  rw [recordsOf, records_eq_recordsFrom]
  exact (View.walk (View.start bytes)).1

/-- The reporter is called while a file is read. -/
theorem reports_walk (bytes : Bytes) :
    (Reader.records { file := { rest := bytes } }).2.reports = [] ↔
      (walk bytes 0 false []).2 = false := by
  obtain ⟨-, more, reports, quiet⟩ :=
    @View.walk { file := { rest := bytes } } bytes 0 false [] (View.start bytes)
  rw [records_eq_finishFrom, reports, List.nil_append]
  exact quiet

end Walk

end MiniLsm.Wal
