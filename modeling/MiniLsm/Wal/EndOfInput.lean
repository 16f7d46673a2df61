import MiniLsm.Wal.Positions

/-! # The end of the input

`ReadPhysicalRecord` returns the type bytes of the file and its own signals,
`kEof` and `kBadRecord`, through one number. Reading ends where the file ends
exactly when no record that parsing reaches has the byte of a signal.
-/

namespace MiniLsm.Wal

open Reader

/-- At the front of a buffer stands a whole physical record with a verifying
    checksum. -/
structure Valid (buffer : Bytes) : Prop where
  whole : kHeaderSize + headerLength buffer ≤ buffer.length
  checksum : checksumMatches buffer = true

/-- The reader of a file after some calls of `ReadRecord`, whatever they returned. -/
def readerAfter (bytes : Bytes) : Nat → Reader
  | 0 => { file := { rest := bytes } }
  | n + 1 => (readerAfter bytes n).readRecord.2

namespace Reader

/-- The states in which one call of `ReadRecord` is at the head of its loop. -/
inductive InLoop (start : Reader) : Reader → Bool → Bytes → Prop
  | enter : InLoop start start false []
  | again {r r' : Reader} {inside inside' : Bool} {scratch scratch' : Bytes} :
      InLoop start r inside scratch →
      r.readFragment inside scratch = (.more inside' scratch', r') →
      InLoop start r' inside' scratch'

/-- The reader with the block buffered in which it looks for the next header. -/
def refilled (r : Reader) : Reader :=
  if r.buffer.length < kHeaderSize ∧ r.eof = false then r.fill.2 else r

end Reader

/-- False means the end of the input, and only what no record type stands for is
    an unknown record. -/
structure FalseMeansEnd (bytes : Bytes) : Prop where
  /-- When `ReadRecord` returns false, the file is read, nothing that verifies is
      left in the buffer, and it returns false from then on. -/
  ended : ∀ n, (readerAfter bytes n).readRecord.1 = none →
    (readerAfter bytes (n + 1)).file.rest = [] ∧
      (∀ i, ¬ Valid ((readerAfter bytes (n + 1)).buffer.drop i)) ∧
      ∀ m, n < m → (readerAfter bytes m).readRecord.1 = none
  /-- A record that verifies and has none of the types is reported, and reading
      goes on behind it. -/
  unknown : ∀ n r inside scratch, (readerAfter bytes n).InLoop r inside scratch →
    Valid r.refilled.buffer → 4 < headerType r.refilled.buffer →
      r.readFragment inside scratch = (.more false [],
        { r.refilled with
          buffer := r.refilled.buffer.drop (kHeaderSize + headerLength r.refilled.buffer)
          reports := r.refilled.reports ++
            [(headerLength r.refilled.buffer + if inside then scratch.length else 0,
              .corruption "unknown record type")] })

/-- The positions of a file at which a physical record is looked for. -/
inductive Reached (bytes : Bytes) : Nat → Prop
  | start : Reached bytes 0
  | next {pos : Nat} {x : Physical} : Reached bytes pos → physicalAt bytes pos = some x →
      Reached bytes x.next

/-- No record that is reached has the type byte of a signal. -/
def NoSignals (bytes : Bytes) : Prop :=
  ∀ pos, Reached bytes pos → Verifies bytes (pos + padding pos) →
    headerType (bytes.drop (pos + padding pos)) ≠ kEof ∧
      headerType (bytes.drop (pos + padding pos)) ≠ kBadRecord

section

variable {r r' : Reader} {bytes scratch : Bytes} {pos : Nat} {inside : Bool}

/-! ## One physical record -/

/-- A record that verifies is handed to the switch, whatever its type. -/
theorem readFragment_valid (valid : Valid r.refilled.buffer)
    (type : 4 < headerType r.refilled.buffer) :
    r.readFragment inside scratch = assemble
      { r.refilled with
        buffer := r.refilled.buffer.drop (kHeaderSize + headerLength r.refilled.buffer) }
      (headerType r.refilled.buffer)
      ((r.refilled.buffer.drop kHeaderSize).take (headerLength r.refilled.buffer))
      inside scratch := by
  obtain ⟨whole, checksum⟩ := valid
  have long : ¬ r.refilled.buffer.length < kHeaderSize := by omega
  have same : r.readPhysicalRecord = r.refilled.parsePhysicalRecord := by
    rw [refilled] at long ⊢
    split at long
    · rename_i short
      rw [if_pos short, readPhysicalRecord, if_pos short.1, if_neg (by simp [short.2])]
      rcases r.fill_cases with ⟨msg, failed⟩ | read
      · simp [failed, kHeaderSize] at long
      · rw [if_pos (by rw [read]), readPhysicalRecord, if_neg long]
    · rename_i enough
      rw [if_neg enough, readPhysicalRecord, if_neg long]
  rw [readFragment, same, parsePhysicalRecord]
  dsimp only
  rw [if_neg (by omega), if_neg (by omega), if_pos checksum]

/-- The default of the switch. -/
theorem assemble_unknown {type : Nat} (other : 6 < type) (fragment : Bytes) :
    r.assemble type fragment inside scratch = (.more false [],
      r.reportDrop (fragment.length + if inside then scratch.length else 0)
        (.corruption "unknown record type")) := by
  obtain ⟨k, rfl⟩ := Nat.exists_eq_add_of_le' other
  rfl

/-- In the buffer stands what stands in the file. -/
theorem View.refilled (view : View r (room pos) (bytes.drop pos)) :
    r.refilled.buffer = (bytes.drop (pos + padding pos)).take (blockRoom pos) ∨
      r.refilled.buffer.length < kHeaderSize ∧ bytes.length < pos + padding pos := by
  have buffered := congrArg List.length view.buffer
  rw [List.length_take, List.length_drop] at buffered
  have eof := view.eof
  rw [List.length_drop] at eof
  rw [Reader.refilled]
  rcases block_cases pos with ⟨short, pad, whole⟩ | ⟨enough, pad, whole⟩
  · by_cases more : room pos ≤ (bytes.drop pos).length
    · obtain ⟨r', filled, view', -⟩ := view.fill more
      rw [List.length_drop] at more
      rw [if_pos ⟨by omega, eof.trans (decide_eq_false (by omega))⟩, filled, pad, whole]
      rw [List.drop_drop] at view'
      exact Or.inl view'.buffer
    · rw [List.length_drop] at more
      rw [if_neg fun both => by simp [eof, Nat.lt_of_not_le more] at both]
      exact Or.inr ⟨by omega, by omega⟩
  · have here : ¬ (r.buffer.length < kHeaderSize ∧ r.eof = false) := by
      rintro ⟨low, notEnded⟩
      rw [eof, decide_eq_false_iff_not] at notEnded
      omega
    rw [if_neg here, pad, whole]
    exact Or.inl view.buffer

/-- A record verifies in the block that holds it. -/
theorem valid_take :
    Valid ((bytes.drop (pos + padding pos)).take (blockRoom pos)) ↔
      Verifies bytes (pos + padding pos) := by
  have head : kHeaderSize = 7 := rfl
  obtain ⟨low, -⟩ := blockRoom_bounds pos
  have size := block_length bytes pos
  have start := start_mod pos
  have length := @headerLength_take (bytes.drop (pos + padding pos)) (blockRoom pos) low
  constructor
  · rintro ⟨whole, checksum⟩
    rw [length] at whole
    rw [checksumMatches_take (by omega)] at checksum
    exact ⟨by omega, by omega, checksum⟩
  · rintro ⟨whole, block, checksum⟩
    refine ⟨by omega, ?_⟩
    rw [checksumMatches_take (by omega)]
    exact checksum

/-- What verifies in the file verifies in the buffer, and the other way. -/
theorem View.valid_iff (view : View r (room pos) (bytes.drop pos)) :
    Valid r.refilled.buffer ↔ Verifies bytes (pos + padding pos) := by
  rcases view.refilled with same | ⟨short, beyond⟩
  · rw [same]
    exact valid_take
  · constructor
    · intro valid
      have := valid.whole
      omega
    · intro verifies
      have := verifies.whole
      omega

theorem View.headerType_eq (view : View r (room pos) (bytes.drop pos))
    (verifies : Verifies bytes (pos + padding pos)) :
    headerType r.refilled.buffer = headerType (bytes.drop (pos + padding pos)) := by
  obtain ⟨low, -⟩ := blockRoom_bounds pos
  rcases view.refilled with same | ⟨-, beyond⟩
  · rw [same, headerType_take low]
  · have := verifies.whole
    omega

/-! ## Runs -/

/-- Once exhausted, a reader stays as it is and returns false. -/
theorem Reader.Exhausted.readFragment (h : r.Exhausted) :
    r.readFragment inside scratch = (.ended, r) := by
  have short : r.buffer.length < kHeaderSize := by
    rw [h.buffer]
    decide
  have unmoved : { r with buffer := [] } = r := by rw [← h.buffer]
  rw [Reader.readFragment, readPhysicalRecord, if_pos short, if_pos h.eof, unmoved]
  rfl

theorem Reader.Exhausted.readRecord (h : r.Exhausted) : r.readRecord = (none, r) :=
  readRecordLoop_ended h.readFragment

/-- A reader stands at a position of its file that is reached, or at the end. -/
def Stands (bytes : Bytes) (r : Reader) : Prop :=
  r.Exhausted ∨ ∃ pos, Reached bytes pos ∧ View r (room pos) (bytes.drop pos)

/-- One pass of the loop. Without signals in the file, only the end of the file
    ends the input. -/
theorem Stands.readFragment (h : Stands bytes r) (clear : NoSignals bytes) {result : Assembly}
    (read : r.readFragment inside scratch = (result, r')) :
    Stands bytes r' ∧ (result = .ended → r'.Exhausted) := by
  rcases h with exhausted | ⟨pos, reached, view⟩
  · rw [exhausted.readFragment, Prod.mk.injEq] at read
    rw [← read.2]
    exact ⟨Or.inl exhausted, fun _ => exhausted⟩
  · cases found : physicalAt bytes pos with
    | none =>
        obtain ⟨r₁, eof, -, exhausted⟩ := view.physicalAt_none found
        rw [Reader.readFragment, eof] at read
        obtain ⟨-, rfl⟩ := Prod.mk.inj read
        exact ⟨Or.inl exhausted, fun _ => exhausted⟩
    | some x =>
        obtain ⟨r₁, _, fragment, view', -⟩ := view.readAt found inside scratch
        rw [fragment, Prod.mk.injEq] at read
        obtain ⟨same, rfl⟩ := read
        refine ⟨Or.inr ⟨x.next, reached.next found, view'⟩, fun ended => ?_⟩
        have signal := assembled_ended (same.trans ended)
        rcases physicalAt_cases found with ⟨bad, -⟩ | ⟨verifies, whole⟩
        · exact absurd (bad.symm.trans signal) (by decide)
        · rw [whole] at signal
          exact absurd signal (clear pos reached verifies).1

theorem Stands.inLoop (h : Stands bytes r) (clear : NoSignals bytes)
    (inLoop : r.InLoop r' inside scratch) : Stands bytes r' := by
  induction inLoop with
  | enter => exact h
  | again _ read ih => exact (ih.readFragment clear read).1

/-- A whole call. -/
theorem Stands.readRecordLoop (h : Stands bytes r) (clear : NoSignals bytes) :
    Stands bytes (r.readRecordLoop inside scratch).2 ∧
      ((r.readRecordLoop inside scratch).1 = none →
        (r.readRecordLoop inside scratch).2.Exhausted) := by
  fun_induction Reader.readRecordLoop r inside scratch with
  | case1 r inside scratch inside' scratch' r' read ih =>
      exact ih (h.readFragment clear read).1
  | case2 r inside scratch data r' read =>
      refine ⟨(h.readFragment clear read).1, ?_⟩
      rintro ⟨⟩
  | case3 r inside scratch r' read =>
      obtain ⟨stands, exhausted⟩ := h.readFragment clear read
      exact ⟨stands, fun _ => exhausted rfl⟩

theorem readerAfter_stands (clear : NoSignals bytes) (n : Nat) :
    Stands bytes (readerAfter bytes n) := by
  induction n with
  | zero => exact Or.inr ⟨0, .start, View.start bytes⟩
  | succ n ih => exact (ih.readRecordLoop clear).1

theorem Reader.Exhausted.later {n : Nat} (h : (readerAfter bytes n).Exhausted) :
    ∀ m, n ≤ m → readerAfter bytes m = readerAfter bytes n := by
  intro m later
  induction m, later using Nat.le_induction with
  | base => rfl
  | succ m _ ih =>
      show (readerAfter bytes m).readRecord.2 = _
      rw [ih, h.readRecord]

/-- Without signals in the file, false means the end. -/
theorem NoSignals.falseMeansEnd (clear : NoSignals bytes) : FalseMeansEnd bytes where
  ended := by
    intro n ends
    have exhausted : (readerAfter bytes (n + 1)).Exhausted :=
      ((readerAfter_stands clear n).readRecordLoop clear).2 ends
    refine ⟨exhausted.rest, fun i valid => ?_, fun m later => ?_⟩
    · have := valid.whole
      rw [exhausted.buffer, List.drop_nil] at this
      exact absurd this (by decide)
    · rw [exhausted.later m later, exhausted.readRecord]
  unknown := by
    intro n r inside scratch inLoop valid type
    have signal : headerType r.refilled.buffer ≠ 5 ∧ headerType r.refilled.buffer ≠ 6 := by
      rcases (readerAfter_stands clear n).inLoop clear inLoop with exhausted | ⟨pos, reached, view⟩
      · have same : r.refilled = r := if_neg fun both => by simp [exhausted.eof] at both
        have := valid.whole
        rw [same, exhausted.buffer] at this
        exact absurd this (by decide)
      · have verifies := view.valid_iff.mp valid
        rw [view.headerType_eq verifies]
        exact clear pos reached verifies
    have payload : ((r.refilled.buffer.drop kHeaderSize).take
        (headerLength r.refilled.buffer)).length = headerLength r.refilled.buffer := by
      have := valid.whole
      rw [List.length_take, List.length_drop]
      omega
    rw [readFragment_valid valid type, assemble_unknown (by omega), payload]
    rfl

/-! ## Every position is reached by some call -/

/-- A call goes on where it is in its loop. -/
theorem Reader.InLoop.readRecord (h : r.InLoop r' inside scratch) :
    r.readRecord = r'.readRecordLoop inside scratch := by
  induction h with
  | enter => rfl
  | again _ read ih => exact ih.trans (readRecordLoop_more read)

theorem Reached.inLoop (reached : Reached bytes pos) :
    ∃ n r inside scratch, (readerAfter bytes n).InLoop r inside scratch ∧
      View r (room pos) (bytes.drop pos) := by
  induction reached with
  | start => exact ⟨0, _, _, _, .enter, View.start bytes⟩
  | @next pos x _ found ih =>
      obtain ⟨n, r, inside, scratch, inLoop, view⟩ := ih
      obtain ⟨r', _, fragment, view', -⟩ := view.readAt found inside scratch
      cases result : assembled x.type x.payload inside scratch with
      | more inside' scratch' =>
          rw [result] at fragment
          exact ⟨n, r', inside', scratch', inLoop.again fragment, view'⟩
      | record data =>
          rw [result] at fragment
          have called : readerAfter bytes (n + 1) = r' := by
            rw [readerAfter, inLoop.readRecord, readRecordLoop_record fragment]
          exact ⟨n + 1, r', false, [], called ▸ .enter, view'⟩
      | ended =>
          rw [result] at fragment
          have called : readerAfter bytes (n + 1) = r' := by
            rw [readerAfter, inLoop.readRecord, readRecordLoop_ended fragment]
          exact ⟨n + 1, r', false, [], called ▸ .enter, view'⟩

/-- A signal in the file is not reported as an unknown record. -/
theorem FalseMeansEnd.noSignals (h : FalseMeansEnd bytes) : NoSignals bytes := by
  intro pos reached verifies
  obtain ⟨n, r, inside, scratch, inLoop, view⟩ := reached.inLoop
  have valid := view.valid_iff.mpr verifies
  rw [← view.headerType_eq verifies]
  constructor
  · intro eof
    have unknown := h.unknown n r inside scratch inLoop valid (by rw [eof]; decide)
    rw [readFragment_valid valid (by rw [eof]; decide), eof] at unknown
    cases congrArg Prod.fst unknown
  · intro bad
    have unknown := h.unknown n r inside scratch inLoop valid (by rw [bad]; decide)
    rw [readFragment_valid valid (by rw [bad]; decide), bad] at unknown
    have reports := congrArg (fun result => result.2.reports) unknown
    cases inside with
    | false => simp [assemble, kBadRecord] at reports
    | true =>
        simp [assemble, kBadRecord, reportDrop] at reports
        exact absurd reports.2 (by decide)

/-- False means the end of the input exactly when no record that parsing reaches
    carries one of the two signals as its type. -/
theorem false_means_end_iff (bytes : Bytes) :
    FalseMeansEnd bytes ↔
      ∀ pos, Reached bytes pos → Verifies bytes (pos + padding pos) →
        headerType (bytes.drop (pos + padding pos)) ≠ kEof ∧
          headerType (bytes.drop (pos + padding pos)) ≠ kBadRecord :=
  ⟨fun h => h.noSignals, fun clear => NoSignals.falseMeansEnd clear⟩

end

/-- An empty record of a type that the writer never writes, and a full record. -/
def strayType (type : UInt8) : Bytes :=
  encodeFixed32 (Crc32c.mask (Crc32c.value [type])) ++ [0, 0, type] ++
    (Writer.header .full [9] ++ [9])

/-- A type byte of 5 ends the input in front of a record that the next call
    returns; a type byte of 6 is dropped and nothing is reported. -/
theorem signals_taken_for_types :
    (readerAfter (strayType 5) 0).readRecord.1 = none ∧
      (readerAfter (strayType 5) 1).readRecord.1 = some [9] ∧
      (Reader.records (readerAfter (strayType 6) 0)).2.reports = [] ∧
      ¬ FalseMeansEnd (strayType 5) ∧ ¬ FalseMeansEnd (strayType 6) := by
  have first : (readerAfter (strayType 5) 0).readRecord.1 = none := by decide +kernel
  have second : (readerAfter (strayType 5) 1).readRecord.1 = some [9] := by decide +kernel
  refine ⟨first, second, by decide +kernel, fun h => ?_, fun h => ?_⟩
  · have ended := (h.ended 0 first).2.2 1 (by decide)
    rw [second] at ended
    cases ended
  · have verifies : Verifies (strayType 6) (0 + padding 0) := by decide +kernel
    have type : headerType ((strayType 6).drop (0 + padding 0)) = kBadRecord := by decide +kernel
    exact (h.noSignals 0 .start verifies).2 type

end MiniLsm.Wal
