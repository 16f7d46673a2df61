import MiniLsm.Wal.Chain

/-! # What the reader makes of any block

A block that is not the last of its file, with arbitrary bytes in it: the
records the reader returns from it and the partial record it takes along to the
next block depend on nothing that follows.
-/

namespace MiniLsm.Wal

open Reader

/-- The physical record at the front of a buffer: type, payload, and what is
    left of the buffer. -/
def parsed (buffer : Bytes) : Nat × Bytes × Bytes :=
  if kHeaderSize + headerLength buffer > buffer.length then (kBadRecord, [], [])
  else if headerType buffer = 0 ∧ headerLength buffer = 0 then
    (kBadRecord, [], buffer.drop kHeaderSize)
  else if checksumMatches buffer then
    (headerType buffer, (buffer.drop kHeaderSize).take (headerLength buffer),
      buffer.drop (kHeaderSize + headerLength buffer))
  else (kBadRecord, [], [])

/-- What `ReadRecord` does with it. -/
def assembled (type : Nat) (fragment : Bytes) (inside : Bool) (scratch : Bytes) : Assembly :=
  (Reader.assemble { file := { rest := [] } } type fragment inside scratch).1

theorem parsePhysicalRecord_parsed {r : Reader} (more : r.eof = false) :
    ∃ reports, r.parsePhysicalRecord = ((parsed r.buffer).1, (parsed r.buffer).2.1,
      { r with buffer := (parsed r.buffer).2.2, reports }) := by
  rw [parsePhysicalRecord, parsed]
  simp only [more, Bool.false_eq_true, if_false]
  split
  · exact ⟨_, rfl⟩
  · split
    · exact ⟨_, rfl⟩
    · split
      · exact ⟨_, rfl⟩
      · exact ⟨_, rfl⟩

/-- A dropped physical record ends the partial record, and nothing else. -/
theorem assembled_bad {type : Nat} (bad : type = kBadRecord) (fragment : Bytes) (inside : Bool)
    (scratch : Bytes) : ∃ rest, assembled type fragment inside scratch = .more false rest := by
  rw [bad]
  cases inside with
  | false => exact ⟨scratch, rfl⟩
  | true => exact ⟨[], rfl⟩

theorem assemble_assembled (r : Reader) (type : Nat) (fragment : Bytes) (inside : Bool)
    (scratch : Bytes) :
    ∃ reports, r.assemble type fragment inside scratch =
      (assembled type fragment inside scratch, { r with reports }) := by
  rw [assembled]
  unfold assemble
  split <;> try split
  all_goals exact ⟨_, rfl⟩

theorem readFragment_assembled (r : Reader) (inside : Bool) (scratch : Bytes) :
    ∃ reports, r.readFragment inside scratch =
      (assembled r.readPhysicalRecord.1 r.readPhysicalRecord.2.1 inside scratch,
        { r.readPhysicalRecord.2.2 with reports }) :=
  assemble_assembled _ _ _ _ _

/-- A type that is returned is that of a header whose payload is there. -/
theorem parsed_cases (buffer : Bytes) :
    (parsed buffer).1 = kBadRecord ∨
      kHeaderSize + headerLength buffer ≤ buffer.length ∧ parsed buffer =
        (headerType buffer, (buffer.drop kHeaderSize).take (headerLength buffer),
          buffer.drop (kHeaderSize + headerLength buffer)) := by
  rw [parsed]
  split
  · exact Or.inl rfl
  · split
    · exact Or.inl rfl
    · split
      · exact Or.inr ⟨by omega, rfl⟩
      · exact Or.inl rfl

/-- A physical record that is dropped for its length or its checksum takes the
    whole buffer with it. -/
theorem parsed_left (buffer : Bytes) :
    (parsed buffer).2.2 = [] ∨
      (parsed buffer).2.2 = buffer.drop (kHeaderSize + headerLength buffer) := by
  rw [parsed]
  split
  · exact Or.inl rfl
  · split
    · rename_i zero
      exact Or.inr (by rw [zero.2]; rfl)
    · split
      · exact Or.inr rfl
      · exact Or.inl rfl

theorem parsed_shorter {buffer : Bytes} (long : ¬ buffer.length < kHeaderSize) :
    (parsed buffer).2.2.length < buffer.length := by
  have head : kHeaderSize = 7 := rfl
  rcases parsed_left buffer with same | same
  · rw [same, List.length_nil]
    omega
  · rw [same, List.length_drop]
    omega

/-- Bytes in what is left of a buffer come behind the header that was read. -/
theorem parsed_left_mem {buffer : Bytes} {torn : Nat} {b : UInt8}
    (cut : torn < kHeaderSize + headerLength buffer) (member : b ∈ (parsed buffer).2.2.drop 6) :
    b ∈ buffer.drop (torn + 7) := by
  rcases parsed_left buffer with same | same
  · rw [same, List.drop_nil] at member
    exact absurd member List.not_mem_nil
  · rw [same, List.drop_drop] at member
    have split : kHeaderSize + headerLength buffer + 6 =
        torn + 7 + (kHeaderSize + headerLength buffer - 1 - torn) := by omega
    rw [split, ← List.drop_drop] at member
    exact List.mem_of_mem_drop member

/-- The records in a buffer, and the partial record after it; `none` if the
    reader stops. -/
def scan (buffer : Bytes) (inside : Bool) (scratch : Bytes) :
    List Bytes × Option (Bool × Bytes) :=
  if buffer.length < kHeaderSize then ([], some (inside, scratch))
  else
    match assembled (parsed buffer).1 (parsed buffer).2.1 inside scratch with
    | .more inside' scratch' => scan (parsed buffer).2.2 inside' scratch'
    | .record data =>
        (data :: (scan (parsed buffer).2.2 false []).1, (scan (parsed buffer).2.2 false []).2)
    | .ended => ([], none)
termination_by buffer.length
decreasing_by
  all_goals exact parsed_shorter ‹_›

/-- What comes of the partial record when complete fragments follow. -/
def afterScan (state : Option (Bool × Bytes)) (fs : List Fragment) : List Bytes :=
  match state with
  | some (inside, scratch) => collect fs inside scratch
  | none => []

section Scan

variable {r r' : Reader} {pos : Nat} {buffer : Bytes} {fs : List Fragment} {inside : Bool}
  {scratch : Bytes}

theorem recordsFrom_congr (same : r.readPhysicalRecord = r'.readPhysicalRecord) :
    r.recordsFrom inside scratch = r'.recordsFrom inside scratch := by
  have fragment : r.readFragment inside scratch = r'.readFragment inside scratch := by
    rw [Reader.readFragment, Reader.readFragment, same]
  cases read : r.readFragment inside scratch with
  | mk result last =>
      have read' := fragment.symm.trans read
      cases result with
      | more inside' scratch' => rw [recordsFrom_more read, recordsFrom_more read']
      | record data => rw [recordsFrom_record read, recordsFrom_record read']
      | ended => rw [recordsFrom_ended read, recordsFrom_ended read']

/-- Less than a header at the end of a block is skipped. -/
theorem View.skip {rest : Bytes} (view : View r buffer.length (buffer ++ rest))
    (short : buffer.length < kHeaderSize) :
    View { r with buffer := [] } 0 rest ∧
      r.recordsFrom inside scratch =
        Reader.recordsFrom { r with buffer := [] } inside scratch := by
  obtain ⟨buffered, file, eof, faults⟩ := view
  have open_ : r.eof = false := by simp [eof]
  rw [List.drop_left] at file
  rw [List.take_left] at buffered
  have filled (b : Bytes) (few : b.length < kHeaderSize) :
      Reader.readPhysicalRecord { r with buffer := b } =
        if r.fill.1 then r.fill.2.readPhysicalRecord else (kEof, [], r.fill.2) := by
    rw [readPhysicalRecord, if_pos few, if_neg (by simp [open_])]
    rfl
  refine ⟨⟨rfl, file, by simp [open_], faults⟩, recordsFrom_congr ?_⟩
  exact (filled r.buffer (by rwa [buffered])).trans (filled [] (by decide)).symm

/-- One physical record of a block. -/
theorem View.parsed {rest : Bytes} (view : View r buffer.length (buffer ++ rest))
    (long : ¬ buffer.length < kHeaderSize) (inside : Bool) (scratch : Bytes) :
    ∃ r', r.readFragment inside scratch =
        (assembled (parsed buffer).1 (Wal.parsed buffer).2.1 inside scratch, r') ∧
      View r' (Wal.parsed buffer).2.2.length ((Wal.parsed buffer).2.2 ++ rest) := by
  obtain ⟨buffered, file, eof, faults⟩ := view
  have open_ : r.eof = false := by simp [eof]
  rw [List.take_left] at buffered
  rw [List.drop_left] at file
  obtain ⟨reports, read⟩ := parsePhysicalRecord_parsed open_
  rw [buffered] at read
  obtain ⟨reports', assembles⟩ := assemble_assembled
    { r with buffer := (Wal.parsed buffer).2.2, reports } (Wal.parsed buffer).1
    (Wal.parsed buffer).2.1 inside scratch
  refine ⟨_, ?_, (⟨by rw [List.take_left], by rw [List.drop_left]; exact file, ?_, faults⟩ : View
    { r with buffer := (Wal.parsed buffer).2.2, reports := reports' } _ _)⟩
  · rw [Reader.readFragment, readPhysicalRecord, buffered, if_neg long, read]
    exact assembles
  · simp [open_]

/-- Reading a block, and then complete fragments. -/
theorem View.scan (view : View r buffer.length (buffer ++ encode fs)) (chain : Chain pos fs)
    (boundary : room pos = 0) :
    r.recordsFrom inside scratch =
      (Wal.scan buffer inside scratch).1 ++ afterScan (Wal.scan buffer inside scratch).2 fs := by
  fun_induction Wal.scan buffer inside scratch generalizing r with
  | case1 buffer inside scratch short =>
      obtain ⟨next, same⟩ := @View.skip r buffer inside scratch _ view short
      rw [← boundary, ← List.take_length (l := encode fs)] at next
      rw [same, next.recordsFrom chain, whole_all]
      rfl
  | case2 buffer inside scratch long inside' scratch' result ih =>
      obtain ⟨r', read, view'⟩ := view.parsed long inside scratch
      rw [result] at read
      rw [recordsFrom_more read, ih view']
  | case3 buffer inside scratch long data result ih =>
      obtain ⟨r', read, view'⟩ := view.parsed long inside scratch
      rw [result] at read
      rw [recordsFrom_record read, ih view', List.cons_append]
  | case4 buffer inside scratch long result =>
      obtain ⟨r', read, -⟩ := view.parsed long inside scratch
      rw [result] at read
      rw [recordsFrom_ended read]
      rfl

end Scan

/-! ## Partial records -/

section Pending

variable {buffer : Bytes} {type : Nat} {inside inside' : Bool} {fragment scratch scratch' : Bytes}

/-- Only a first or a middle fragment leaves a partial record. -/
theorem assembled_pending
    (result : assembled type fragment inside scratch = .more true scratch') :
    (type = 2 ∨ type = 3) ∧ ∃ before, scratch' = before ++ fragment := by
  unfold assembled assemble at result
  split at result
  · simp at result
  · obtain rfl : fragment = scratch' := by simpa using result
    exact ⟨Or.inl rfl, [], rfl⟩
  · cases inside with
    | false => simp at result
    | true =>
        obtain rfl : scratch ++ fragment = scratch' := by simpa using result
        exact ⟨Or.inr rfl, scratch, rfl⟩
  all_goals
    first
    | simp at result
    | cases inside <;> simp at result

theorem assembled_ended (result : assembled type fragment inside scratch = .ended) : type = 5 := by
  unfold assembled assemble at result
  split at result
  all_goals
    first
    | rfl
    | simp at result
    | cases inside <;> simp at result

/-- What a buffer leaves in which a first or a middle fragment stands in front. -/
theorem parsed_pending (result : assembled (parsed buffer).1 (parsed buffer).2.1 inside scratch =
      .more true scratch') :
    (headerType buffer = 2 ∨ headerType buffer = 3) ∧
      kHeaderSize + headerLength buffer ≤ buffer.length ∧
      (parsed buffer).2.2 = buffer.drop (kHeaderSize + headerLength buffer) ∧
      ∃ before, scratch' = before ++ (buffer.drop kHeaderSize).take (headerLength buffer) := by
  obtain ⟨type, before, same⟩ := assembled_pending result
  rcases parsed_cases buffer with bad | ⟨inside, accepted⟩
  · rw [bad] at type
    exact absurd type (by decide)
  · rw [accepted] at type same ⊢
    exact ⟨type, inside, rfl, before, same⟩

theorem headerType_mem (long : ¬ buffer.length < kHeaderSize) :
    ∃ b ∈ buffer.drop 6, headerType buffer = b.toNat := by
  have head : kHeaderSize = 7 := rfl
  refine ⟨buffer[6], List.mem_drop_iff_getElem.mpr ⟨0, by omega, rfl⟩, ?_⟩
  rw [headerType, List.getD_eq_getElem?_getD, List.getElem?_eq_getElem (by omega), Option.getD_some]

/-- A buffer without the type byte of a first or a middle fragment leaves a
    partial record only if it is too short for a header. -/
theorem scan_quiet (quiet : ∀ b ∈ buffer.drop 6, b ≠ 2 ∧ b ≠ 3)
    (pending : (scan buffer inside scratch).2 = some (true, scratch')) :
    buffer.length < kHeaderSize ∧ inside = true ∧ scratch' = scratch := by
  have left {buffer : Bytes} (quiet : ∀ b ∈ buffer.drop 6, b ≠ 2 ∧ b ≠ 3) :
      ∀ b ∈ (parsed buffer).2.2.drop 6, b ≠ 2 ∧ b ≠ 3 := by
    intro b member
    have later := parsed_left_mem (Nat.add_pos_left (by decide) _) member
    rw [Nat.zero_add, show 7 = 6 + 1 by rfl, ← List.drop_drop] at later
    exact quiet b (List.mem_of_mem_drop later)
  fun_induction scan buffer inside scratch with
  | case1 buffer inside scratch short =>
      obtain ⟨rfl, rfl⟩ : inside = true ∧ scratch = scratch' := by simpa using pending
      exact ⟨short, rfl, rfl⟩
  | case2 buffer inside scratch long inside' scratch'' result ih =>
      obtain ⟨-, rfl, -⟩ := ih (left quiet) pending
      obtain ⟨b, member, type⟩ := headerType_mem long
      obtain ⟨first, middle⟩ := quiet b member
      rcases (parsed_pending result).1 with isFirst | isMiddle
      · exact absurd (UInt8.toNat_inj.mp ((type.symm.trans isFirst : b.toNat = (2 : UInt8).toNat)))
          first
      · exact absurd (UInt8.toNat_inj.mp ((type.symm.trans isMiddle : b.toNat = (3 : UInt8).toNat)))
          middle
  | case3 buffer inside scratch long data result ih =>
      obtain ⟨-, never, -⟩ := ih (left quiet) pending
      exact absurd never (by simp)
  | case4 buffer inside scratch long result => simp at pending

/-- A torn fragment of `torn` bytes and then a quiet buffer: a partial record is
    left only if what reads as a fragment there ends the block. -/
theorem scan_pending {torn : Nat} (long : kHeaderSize ≤ buffer.length)
    (cut : torn < kHeaderSize + headerLength buffer)
    (quiet : ∀ b ∈ buffer.drop (torn + 7), b ≠ 2 ∧ b ≠ 3)
    (pending : (scan buffer inside scratch).2 = some (true, scratch')) :
    (headerType buffer = 2 ∨ headerType buffer = 3) ∧
      kHeaderSize + headerLength buffer ≤ buffer.length ∧
      buffer.length < kHeaderSize + headerLength buffer + kHeaderSize ∧
      ∃ before, scratch' = before ++ (buffer.drop kHeaderSize).take (headerLength buffer) := by
  have head : kHeaderSize = 7 := rfl
  have left : ∀ b ∈ (parsed buffer).2.2.drop 6, b ≠ 2 ∧ b ≠ 3 :=
    fun b member => quiet b (parsed_left_mem cut member)
  rw [scan, if_neg (by omega)] at pending
  split at pending
  · rename_i inside' scratch'' result
    obtain ⟨short, rfl, rfl⟩ := scan_quiet left pending
    obtain ⟨type, within, same, before⟩ := parsed_pending result
    rw [same, List.length_drop] at short
    exact ⟨type, within, by omega, before⟩
  · obtain ⟨-, never, -⟩ := scan_quiet left pending
    exact absurd never (by simp)
  · simp at pending

end Pending

end MiniLsm.Wal
