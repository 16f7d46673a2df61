import MiniLsm.Wal.Layout
import MiniLsm.Wal.Reader

/-! # Reading a log back

The reader at a file position returns the fragments that follow, one after the
other; where the file ends inside a fragment, it sees a clean end. So a log cut
anywhere yields the records that are complete in it.
-/

namespace MiniLsm.Wal

/-- The reader has `size` bytes left of its block and `bytes` left of its file,
    of which it has buffered what belongs to the block. -/
structure View (r : Reader) (size : Nat) (bytes : Bytes) : Prop where
  buffer : r.buffer = bytes.take size
  rest : r.file.rest = bytes.drop size
  eof : r.eof = decide (bytes.length < size)
  faults : r.file.faults = []

namespace View

variable {r : Reader} {size pos k : Nat} {bytes later payload : Bytes} {type : RecordType}

theorem start (bytes : Bytes) : View { file := { rest := bytes } } (room 0) bytes := by
  rw [show room 0 = 0 by rfl]
  exact ⟨by simp, by simp, by simp, rfl⟩

/-- The next block is buffered when the old one is used up. -/
theorem fill (view : View r size bytes) (more : size ≤ bytes.length) :
    ∃ r', r.fill = (true, r') ∧ View r' kBlockSize (bytes.drop size) ∧ r'.reports = r.reports := by
  obtain ⟨buffer, rest, eof, faults⟩ := view
  have ok : r.file.read kBlockSize =
      (.ok, r.file.rest.take kBlockSize, { rest := r.file.rest.drop kBlockSize }) := by
    simp [SequentialFile.read, faults]
  refine ⟨{ r with
    file := { rest := r.file.rest.drop kBlockSize }
    buffer := r.file.rest.take kBlockSize
    eof := r.eof || decide ((r.file.rest.take kBlockSize).length < kBlockSize) }, ?_, ?_, rfl⟩
  · simp only [Reader.fill, ok, Status.isOk_ok, if_true]
  · have open_ : r.eof = false := by
      rw [eof]
      exact decide_eq_false (Nat.not_lt_of_le more)
    refine ⟨by simp only [rest], by simp only [rest], ?_, rfl⟩
    dsimp only
    rw [open_, Bool.false_or, rest, List.length_take]
    exact decide_eq_decide.mpr (by omega)

/-! ## One fragment -/

theorem headerLength_header (small : payload.length < 65536) (later : Bytes) :
    Reader.headerLength (Writer.header type payload ++ later) = payload.length := by
  simp [Reader.headerLength, Writer.header, encodeFixed32]
  omega

theorem headerType_header (later : Bytes) :
    Reader.headerType (Writer.header type payload ++ later) = type.toByte.toNat := by
  simp [Reader.headerType, Writer.header, encodeFixed32]

theorem checksumMatches_header (small : payload.length < 65536) (later : Bytes) :
    Reader.checksumMatches (Writer.header type payload ++ (payload ++ later)) = true := by
  rw [Reader.checksumMatches, headerLength_header small]
  have stored : decodeFixed32 (Writer.header type payload ++ (payload ++ later)) =
      Crc32c.mask (Crc32c.extend (typeCrc type) payload) := by
    simp [Writer.header, List.append_assoc]
  have covered : ((Writer.header type payload ++ (payload ++ later)).drop 6).take
      (1 + payload.length) = type.toByte :: payload := by
    simp [Writer.header, encodeFixed32, Nat.add_comm 1]
  rw [stored, covered]
  simp [typeCrc, Crc32c.value, Crc32c.extend_append]

theorem parse (view : View r size (Writer.header type payload ++ (payload ++ later)))
    (inside : kHeaderSize + payload.length ≤ size) (small : payload.length < 65536)
    (nonzero : type ≠ .zero) :
    ∃ r', r.parsePhysicalRecord = (type.toByte.toNat, payload, r') ∧
      View r' (size - (kHeaderSize + payload.length)) later ∧ r'.reports = r.reports := by
  have head : kHeaderSize = 7 := rfl
  have length : (Writer.header type payload ++ payload).length = kHeaderSize + payload.length := by
    simp
  have buffered : r.buffer = Writer.header type payload ++
      (payload ++ later.take (size - (kHeaderSize + payload.length))) := by
    rw [view.buffer, ← List.append_assoc, List.take_append, length, List.take_of_length_le (by omega),
      List.append_assoc]
  have rest : r.file.rest = later.drop (size - (kHeaderSize + payload.length)) := by
    rw [view.rest, ← List.append_assoc, List.drop_append, length, List.drop_of_length_le (by omega),
      List.nil_append]
  have long : ¬ kHeaderSize + payload.length > r.buffer.length := by
    rw [buffered]
    simp only [List.length_append, Fragment.header_length]
    omega
  have typed : ¬ (type.toByte.toNat = 0 ∧ payload.length = 0) := by
    cases type with
    | zero => exact absurd rfl nonzero
    | full | first | middle | last => simp [RecordType.toByte]
  refine ⟨{ r with buffer := later.take (size - (kHeaderSize + payload.length)) }, ?_, ?_, rfl⟩
  · rw [Reader.parsePhysicalRecord]
    rw [buffered] at long ⊢
    simp only [headerLength_header small, headerType_header, checksumMatches_header small, if_true,
      if_neg long, if_neg typed]
    rw [List.drop_left' (Fragment.header_length type payload), List.take_left,
      ← List.append_assoc, List.drop_left' length]
  · refine ⟨rfl, rest, ?_, view.faults⟩
    rw [view.eof]
    simp
    omega

theorem readHere (view : View r size (Writer.header type payload ++ (payload ++ later)))
    (inside : kHeaderSize + payload.length ≤ size) (small : payload.length < 65536)
    (nonzero : type ≠ .zero) :
    ∃ r', r.readPhysicalRecord = (type.toByte.toNat, payload, r') ∧
      View r' (size - (kHeaderSize + payload.length)) later ∧ r'.reports = r.reports := by
  have long : ¬ r.buffer.length < kHeaderSize := by
    rw [view.buffer]
    simp only [List.length_take, List.length_append, Fragment.header_length]
    omega
  rw [Reader.readPhysicalRecord, if_neg long]
  exact view.parse inside small nonzero

/-- A reader with less than a header left of its block goes on with the next
    block. -/
theorem readPhysicalRecord_next (view : View r size bytes) (short : size < kHeaderSize)
    (more : size ≤ bytes.length) :
    ∃ r', r.readPhysicalRecord = r'.readPhysicalRecord ∧ View r' kBlockSize (bytes.drop size) ∧
      r'.reports = r.reports := by
  obtain ⟨r', filled, view', reports⟩ := view.fill more
  have used : r.buffer.length < kHeaderSize := by
    rw [view.buffer, List.length_take]
    omega
  have open_ : ¬ r.eof = true := by simp [view.eof, Nat.not_lt_of_le more]
  refine ⟨r', ?_, view', reports⟩
  rw [Reader.readPhysicalRecord, if_pos used, if_neg open_, filled, if_pos rfl]

/-- The reader returns a fragment that stands at its position. -/
theorem readFragment {f : Fragment} (view : View r (room pos) (f.bytes ++ later))
    (fits : f.Fits pos) (nonzero : f.type ≠ .zero) :
    ∃ r', r.readPhysicalRecord = (f.type.toByte.toNat, f.payload, r') ∧
      View r' (room (pos + f.bytes.length)) later ∧ r'.reports = r.reports := by
  have small := fits.small
  have inside := fits.inside
  rw [fits.room_after]
  rcases block_cases pos with ⟨short, pad, whole⟩ | ⟨enough, pad, whole⟩
  · -- the rest of the block is padding: the fragment starts the next block
    have bytes : f.bytes ++ later = List.replicate (room pos) 0 ++
        (Writer.header f.type f.payload ++ (f.payload ++ later)) := by
      rw [Fragment.bytes, fits.pad, pad, List.append_assoc, List.append_assoc]
    rw [bytes] at view
    obtain ⟨r', next, view', reports⟩ := view.readPhysicalRecord_next short (by simp)
    rw [List.drop_left' (by simp), ← whole] at view'
    obtain ⟨r'', read, view'', reports'⟩ := view'.readHere inside small nonzero
    exact ⟨r'', next.trans read, view'', reports'.trans reports⟩
  · have bytes : f.bytes ++ later =
        Writer.header f.type f.payload ++ (f.payload ++ later) := by
      rw [Fragment.bytes, fits.pad, pad, List.replicate_zero, List.nil_append, List.append_assoc]
    rw [bytes, ← whole] at view
    exact view.readHere inside small nonzero

/-- At the end of the file the reader stops without a report, whatever is left
    in the buffer is no complete header. -/
theorem readPhysicalRecord_end (view : View r size bytes) (ended : bytes.length < size)
    (short : bytes.length < kHeaderSize) :
    r.readPhysicalRecord = (kEof, [], { r with buffer := [] }) := by
  have used : r.buffer.length < kHeaderSize := by
    rw [view.buffer, List.length_take]
    omega
  have eof : r.eof = true := by simp [view.eof, ended]
  rw [Reader.readPhysicalRecord, if_pos used, if_pos eof]

theorem readTornHere (view : View r size ((Writer.header type payload ++ payload).take k))
    (torn : k < kHeaderSize + payload.length) (inside : kHeaderSize + payload.length ≤ size)
    (small : payload.length < 65536) :
    r.readPhysicalRecord = (kEof, [], { r with buffer := [] }) := by
  have head : kHeaderSize = 7 := rfl
  have length : ((Writer.header type payload ++ payload).take k).length = k := by
    simp only [List.length_take, List.length_append, Fragment.header_length]
    omega
  by_cases short : k < kHeaderSize
  · exact view.readPhysicalRecord_end (by omega) (by omega)
  · have buffered : r.buffer = Writer.header type payload ++ payload.take (k - kHeaderSize) := by
      rw [view.buffer, List.take_of_length_le (by omega), List.take_append,
        List.take_of_length_le (by simp; omega), Fragment.header_length]
    have size' : r.buffer.length = k := by
      rw [buffered]
      simp only [List.length_append, Fragment.header_length, List.length_take]
      omega
    have eof : r.eof = true := by
      rw [view.eof, length]
      simp
      omega
    rw [Reader.readPhysicalRecord, if_neg (by omega), Reader.parsePhysicalRecord]
    simp only [eof, if_true]
    rw [if_pos]
    rw [size', buffered, headerLength_header small]
    omega

/-- Where the file ends inside a fragment, or in front of it, the reader sees a
    clean end. -/
theorem readTorn {f : Fragment} (view : View r (room pos) (f.bytes.take k))
    (fits : f.Fits pos) (torn : k < f.bytes.length) :
    ∃ r', r.readPhysicalRecord = (kEof, [], r') ∧ r'.reports = r.reports := by
  have small := fits.small
  have inside := fits.inside
  rw [Fragment.bytes_length, fits.pad] at torn
  have bytes : f.bytes.take k = (List.replicate (padding pos) 0).take k ++
      (Writer.header f.type f.payload ++ f.payload).take (k - padding pos) := by
    rw [Fragment.bytes, fits.pad, List.append_assoc, List.take_append, List.length_replicate]
  rw [bytes] at view
  rcases block_cases pos with ⟨short, pad, whole⟩ | ⟨enough, pad, whole⟩
  · rw [pad] at view torn
    by_cases early : k < room pos
    · rw [show k - room pos = 0 by omega, List.take_zero, List.append_nil] at view
      refine ⟨_, view.readPhysicalRecord_end ?_ ?_, rfl⟩
      all_goals
        simp only [List.length_take, List.length_replicate]
        omega
    · rw [List.take_of_length_le (by simp; omega)] at view
      obtain ⟨r', next, view', reports⟩ := view.readPhysicalRecord_next short (by simp)
      rw [List.drop_left' (by simp), ← whole] at view'
      exact ⟨_, next.trans (view'.readTornHere (by omega) inside small), reports⟩
  · rw [pad, List.replicate_zero, List.take_nil, List.nil_append, ← whole] at view
    exact ⟨_, view.readTornHere (by omega) inside small, rfl⟩

theorem readNothing (view : View r size []) :
    ∃ r', r.readPhysicalRecord = (kEof, [], r') ∧ r'.reports = r.reports := by
  have block : kBlockSize = 32768 := rfl
  have head : kHeaderSize = 7 := rfl
  cases size with
  | zero =>
      obtain ⟨r', next, view', reports⟩ := view.readPhysicalRecord_next (by decide) (by simp)
      refine ⟨_, next.trans (view'.readPhysicalRecord_end ?_ (by decide)), reports⟩
      rw [block]
      simp
  | succ size => exact ⟨_, view.readPhysicalRecord_end (by simp) (by decide), rfl⟩

/-! ## One record -/

variable {left scratch : Bytes} {isBegin : Bool}

/-- A fragment that does not end its record joins the bytes so far. -/
theorem readMore (view : View r (room pos) ((fragmentAt pos left isBegin).bytes ++ later))
    (more : (fragmentAt pos left isBegin).payload.length < left.length)
    (fresh : isBegin = true → scratch = []) :
    ∃ r', r.readFragment (!isBegin) scratch =
        (.more true (scratch ++ (fragmentAt pos left isBegin).payload), r') ∧
      View r' (room (pos + (fragmentAt pos left isBegin).bytes.length)) later ∧
      r'.reports = r.reports := by
  obtain ⟨r', read, view', reports⟩ :=
    view.readFragment (fragmentAt_fits pos left isBegin) (fragmentAt_nonzero pos left isBegin)
  refine ⟨r', ?_, view', reports⟩
  rw [Reader.readFragment, read, fragmentAt_type, if_pos more]
  cases isBegin with
  | false => rfl
  | true =>
      rw [fresh rfl]
      rfl

/-- A fragment that ends its record completes it. -/
theorem readLast (view : View r (room pos) ((fragmentAt pos left isBegin).bytes ++ later))
    (last : ¬ (fragmentAt pos left isBegin).payload.length < left.length)
    (fresh : isBegin = true → scratch = []) :
    ∃ r', r.readFragment (!isBegin) scratch = (.record (scratch ++ left), r') ∧
      View r' (room (pos + (fragmentAt pos left isBegin).bytes.length)) later ∧
      r'.reports = r.reports := by
  obtain ⟨r', read, view', reports⟩ :=
    view.readFragment (fragmentAt_fits pos left isBegin) (fragmentAt_nonzero pos left isBegin)
  refine ⟨r', ?_, view', reports⟩
  have whole := fragmentAt_payload_append pos left isBegin
  rw [List.drop_of_length_le (by omega), List.append_nil] at whole
  rw [Reader.readFragment, read, fragmentAt_type, if_neg last, whole]
  cases isBegin with
  | false => rfl
  | true =>
      rw [fresh rfl]
      rfl

theorem readRecordLoop (view : View r (room pos) (encode (fragments pos left isBegin) ++ later))
    (fresh : isBegin = true → scratch = []) :
    ∃ r', r.readRecordLoop (!isBegin) scratch = (some (scratch ++ left), r') ∧
      View r' (room (pos + (encode (fragments pos left isBegin)).length)) later ∧
      r'.reports = r.reports := by
  fun_induction fragments pos left isBegin generalizing r scratch with
  | case1 pos left isBegin more ih =>
      simp only [encode, List.flatMap_cons, List.append_assoc, List.length_append] at view ⊢
      obtain ⟨r', read, view', reports⟩ := view.readMore more fresh
      obtain ⟨r'', loop, view'', reports'⟩ := ih view' (by simp)
      refine ⟨r'', ?_, ?_, reports'.trans reports⟩
      · rw [Reader.readRecordLoop_more read, ← Bool.not_false, loop, List.append_assoc,
          fragmentAt_payload_append]
      · rwa [← Nat.add_assoc]
  | case2 pos left isBegin last =>
      simp only [encode, List.flatMap_cons, List.flatMap_nil, List.append_nil] at view ⊢
      obtain ⟨r', read, view', reports⟩ := view.readLast last fresh
      exact ⟨r', Reader.readRecordLoop_record read, view', reports⟩

/-- A record that is cut anywhere is dropped without a report. -/
theorem readRecordLoop_torn
    (view : View r (room pos) ((encode (fragments pos left isBegin)).take k))
    (torn : k < (encode (fragments pos left isBegin)).length)
    (fresh : isBegin = true → scratch = []) :
    ∃ r', r.readRecordLoop (!isBegin) scratch = (none, r') ∧ r'.reports = r.reports := by
  have stop : ∀ {pos k left isBegin} {r : Reader} {scratch : Bytes},
      View r (room pos) ((fragmentAt pos left isBegin).bytes.take k) →
      k < (fragmentAt pos left isBegin).bytes.length →
      ∃ r', r.readRecordLoop (!isBegin) scratch = (none, r') ∧ r'.reports = r.reports := by
    intro pos k left isBegin r scratch view torn
    obtain ⟨r', read, reports⟩ := view.readTorn (fragmentAt_fits pos left isBegin) torn
    refine ⟨r', Reader.readRecordLoop_ended ?_, reports⟩
    rw [Reader.readFragment, read]
    rfl
  fun_induction fragments pos left isBegin generalizing r scratch k with
  | case1 pos left isBegin more ih =>
      simp only [encode, List.flatMap_cons, List.length_append] at view torn ⊢
      rw [List.take_append] at view
      by_cases here : k < (fragmentAt pos left isBegin).bytes.length
      · rw [show k - (fragmentAt pos left isBegin).bytes.length = 0 by omega, List.take_zero,
          List.append_nil] at view
        exact stop view here
      · rw [List.take_of_length_le (by omega)] at view
        obtain ⟨r', read, view', reports⟩ := view.readMore more fresh
        obtain ⟨r'', loop, reports'⟩ := @ih r' _ _ view' (by simp only [encode]; omega) (by simp)
        exact ⟨r'', (Reader.readRecordLoop_more read).trans loop, reports'.trans reports⟩
  | case2 pos left isBegin last =>
      simp only [encode, List.flatMap_cons, List.flatMap_nil, List.append_nil] at view torn ⊢
      exact stop view torn

/-! ## A whole log -/

theorem readRecord (view : View r (room pos) (encoded pos payload ++ later)) :
    ∃ r', r.readRecord = (some payload, r') ∧
      View r' (room (pos + (encoded pos payload).length)) later ∧ r'.reports = r.reports :=
  view.readRecordLoop (fun _ => rfl)

theorem readRecord_torn (view : View r (room pos) ((encoded pos payload).take k))
    (torn : k < (encoded pos payload).length) :
    ∃ r', r.readRecord = (none, r') ∧ r'.reports = r.reports :=
  view.readRecordLoop_torn torn (fun _ => rfl)

theorem readRecord_end (view : View r size []) :
    ∃ r', r.readRecord = (none, r') ∧ r'.reports = r.reports := by
  obtain ⟨r', read, reports⟩ := view.readNothing
  refine ⟨r', Reader.readRecordLoop_ended ?_, reports⟩
  rw [Reader.readFragment, read]
  rfl

end View

/-- The payloads that are complete in the first `k` bytes of a log that starts
    at a position. -/
def completed (pos k : Nat) : List Bytes → List Bytes
  | [] => []
  | payload :: later =>
      let size := (encoded pos payload).length
      if size ≤ k then payload :: completed (pos + size) (k - size) later else []

theorem View.records {r : Reader} {pos k : Nat} {payloads : List Bytes}
    (view : View r (room pos) ((encodedAll pos payloads).take k)) :
    r.records.1 = completed pos k payloads ∧ r.records.2.reports = r.reports := by
  induction payloads generalizing r pos k with
  | nil =>
      simp only [encodedAll, List.take_nil] at view
      obtain ⟨r', read, reports⟩ := view.readRecord_end
      rw [Reader.records_none read]
      exact ⟨rfl, reports⟩
  | cons payload later ih =>
      rw [encodedAll, List.take_append] at view
      rw [completed]
      by_cases whole : (encoded pos payload).length ≤ k
      · rw [List.take_of_length_le whole] at view
        obtain ⟨r', read, view', reports⟩ := view.readRecord
        obtain ⟨records, reports'⟩ := ih view'
        rw [Reader.records_some read, if_pos whole, records]
        exact ⟨rfl, reports'.trans reports⟩
      · rw [show k - (encoded pos payload).length = 0 by omega, List.take_zero,
          List.append_nil] at view
        obtain ⟨r', read, reports⟩ := view.readRecord_torn (by omega)
        rw [Reader.records_none read, if_neg whole]
        exact ⟨rfl, reports⟩

/-! ## Writer sessions -/

/-- Add records one after the other. Every record comes with the length of the
    file after its last fragment, which is where that fragment ends. -/
def Writer.addRecords (w : Writer) : List Bytes → Writer × List (Bytes × Nat)
  | [] => (w, [])
  | payload :: later =>
      let w' := (w.addRecord payload).2
      let (last, ends) := w'.addRecords later
      (last, (payload, w'.dest.contents.length) :: ends)

/-- A session is a fresh writer on the file as it is. -/
def sessions (file : WritableFile) : List (List Bytes) → WritableFile × List (Bytes × Nat)
  | [] => (file, [])
  | payloads :: later =>
      let (w, ends) := (Writer.new file file.contents.length).addRecords payloads
      let (last, ends') := sessions w.dest later
      (last, ends ++ ends')

/-- Where the records of a log that starts at a position end. -/
def recordEnds (pos : Nat) : List Bytes → List (Bytes × Nat)
  | [] => []
  | payload :: later =>
      let last := pos + (encoded pos payload).length
      (payload, last) :: recordEnds last later

theorem recordEnds_ge {pos : Nat} {payloads : List Bytes} {x : Bytes × Nat}
    (member : x ∈ recordEnds pos payloads) : pos ≤ x.2 := by
  induction payloads generalizing pos with
  | nil => simp [recordEnds] at member
  | cons payload later ih =>
      rcases List.mem_cons.mp member with rfl | member
      · exact Nat.le_add_right _ _
      · exact Nat.le_trans (Nat.le_add_right _ _) (ih member)

/-- Being complete in a cut log means ending before the cut. -/
theorem completed_eq_filter (pos k : Nat) (payloads : List Bytes) :
    completed pos k payloads =
      ((recordEnds pos payloads).filter (fun x => x.2 ≤ pos + k)).map Prod.fst := by
  induction payloads generalizing pos k with
  | nil => rfl
  | cons payload later ih =>
      rw [completed, recordEnds]
      by_cases whole : (encoded pos payload).length ≤ k
      · have same : pos + (encoded pos payload).length + (k - (encoded pos payload).length) =
            pos + k := by omega
        simp [whole, ih, same]
      · have none : ∀ x ∈ recordEnds (pos + (encoded pos payload).length) later,
            ¬ x.2 ≤ pos + k := by
          intro x member
          have := recordEnds_ge member
          omega
        simp [whole, List.filter_eq_nil_iff]
        exact fun data last member => by simpa using none (data, last) member

theorem encodedAll_append (pos : Nat) (first second : List Bytes) :
    encodedAll pos (first ++ second) =
      encodedAll pos first ++ encodedAll (pos + (encodedAll pos first).length) second := by
  induction first generalizing pos with
  | nil => simp [encodedAll]
  | cons payload later ih => simp [encodedAll, ih, Nat.add_assoc]

theorem recordEnds_append (pos : Nat) (first second : List Bytes) :
    recordEnds pos (first ++ second) =
      recordEnds pos first ++ recordEnds (pos + (encodedAll pos first).length) second := by
  induction first generalizing pos with
  | nil => simp [encodedAll, recordEnds]
  | cons payload later ih => simp [encodedAll, recordEnds, ih, Nat.add_assoc]

theorem Writer.Aligned.addRecords {w : Writer} (h : w.Aligned) (payloads : List Bytes) :
    (w.addRecords payloads).1.Aligned ∧
      (w.addRecords payloads).1.dest =
        w.dest.extended (encodedAll w.dest.contents.length payloads) ∧
      (w.addRecords payloads).2 = recordEnds w.dest.contents.length payloads := by
  induction payloads generalizing w with
  | nil => exact ⟨h, by simp [Writer.addRecords, encodedAll], rfl⟩
  | cons payload later ih =>
      obtain ⟨w', added, aligned, dest⟩ := h.addRecordLoop payload true
      obtain ⟨aligned', dest', ends⟩ := ih aligned
      have added : w.addRecord payload = (.ok, w') := added
      simp only [Writer.addRecords, added, aligned', dest', ends, true_and]
      simp [dest, encodedAll, recordEnds, encoded]

theorem sessions_eq {file : WritableFile} (appends : file.Appends) (split : List (List Bytes)) :
    sessions file split = (file.extended (encodedAll file.contents.length split.flatten),
      recordEnds file.contents.length split.flatten) := by
  induction split generalizing file with
  | nil => simp [sessions, encodedAll, recordEnds]
  | cons payloads later ih =>
      obtain ⟨aligned, dest, ends⟩ := (Writer.new_aligned appends).addRecords payloads
      have dest : _ = file.extended (encodedAll file.contents.length payloads) := dest
      have ends : _ = recordEnds file.contents.length payloads := ends
      rw [sessions]
      simp only [dest, ends, ih (appends.extended _), List.flatten_cons, encodedAll_append,
        recordEnds_append]
      simp

theorem recordEnds_payloads (pos : Nat) (payloads : List Bytes) :
    (recordEnds pos payloads).map Prod.fst = payloads := by
  induction payloads generalizing pos with
  | nil => rfl
  | cons payload later ih => simp [recordEnds, ih]

theorem completed_all (pos : Nat) (payloads : List Bytes) :
    completed pos (encodedAll pos payloads).length payloads = payloads := by
  induction payloads generalizing pos with
  | nil => rfl
  | cons payload later ih => simp [completed, encodedAll, ih]

/-- A cut log reads back as its complete records. -/
theorem records_encodedAll (payloads : List Bytes) (n : Nat) :
    let read := Reader.records { file := { rest := (encodedAll 0 payloads).take n } }
    read.1 = completed 0 n payloads ∧ read.2.reports = [] :=
  (View.start _).records

theorem records_encodedAll_whole (payloads : List Bytes) :
    (Reader.records { file := { rest := encodedAll 0 payloads } }).1 = payloads := by
  have read := (records_encodedAll payloads (encodedAll 0 payloads).length).1
  rwa [List.take_length, completed_all] at read

/-- Any split of the payloads into writer sessions gives a log of which every
    prefix reads back, without a report, as the payloads whose last fragment
    ends inside it; the whole log reads back as all payloads. -/
theorem records_of_cut_log (split : List (List Bytes)) (n : Nat) :
    let (file, ends) := sessions {} split
    let read := Reader.records { file := { rest := file.contents.take n } }
    ends.map Prod.fst = split.flatten ∧
      read.1 = (ends.filter (fun x => x.2 ≤ n)).map Prod.fst ∧
      read.2.reports = [] ∧
      (Reader.records { file := { rest := file.contents } }).1 = split.flatten := by
  have appends : WritableFile.Appends {} := rfl
  have written : sessions {} split =
      (WritableFile.extended {} (encodedAll 0 split.flatten), recordEnds 0 split.flatten) :=
    sessions_eq appends split
  obtain ⟨records, reports⟩ := records_encodedAll split.flatten n
  rw [completed_eq_filter, Nat.zero_add] at records
  rw [written]
  exact ⟨recordEnds_payloads _ _, records, reports, records_encodedAll_whole _⟩

end MiniLsm.Wal
