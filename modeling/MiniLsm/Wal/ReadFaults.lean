import MiniLsm.Wal.Block

/-! # Reading while calls fail

A `Read` that fails ends the input. The records returned are those of the file
up to the block that could not be read; only the reporter hears of it.
-/

namespace MiniLsm.Wal

open Reader

section Bisimulation

variable {r r' : Reader} {inside : Bool} {scratch : Bytes}

/-- Readers that find the same physical records return the same records. -/
theorem recordsFrom_bisim (R : Reader → Reader → Prop)
    (reported : ∀ r r' reports reports', R r r' → R { r with reports } { r' with reports := reports' })
    (step : ∀ r r', R r r' → r.readPhysicalRecord.1 = r'.readPhysicalRecord.1 ∧
      r.readPhysicalRecord.2.1 = r'.readPhysicalRecord.2.1 ∧
      (r.readPhysicalRecord.1 ≠ kEof →
        R r.readPhysicalRecord.2.2 r'.readPhysicalRecord.2.2)) (related : R r r') :
    r.recordsFrom inside scratch = r'.recordsFrom inside scratch := by
  induction size : r.unread using Nat.strong_induction_on generalizing r r' inside scratch with
  | _ n ih =>
      obtain ⟨type, payload, next⟩ := step r r' related
      obtain ⟨reports, read⟩ := readFragment_assembled r inside scratch
      obtain ⟨reports', read'⟩ := readFragment_assembled r' inside scratch
      rw [← type, ← payload] at read'
      have less : r.readPhysicalRecord.1 ≠ kEof → r.readPhysicalRecord.2.2.unread < n :=
        fun more => size ▸ Nat.lt_of_lt_of_le (Nat.lt_add_of_pos_right (by decide))
          (readPhysicalRecord_consumes more)
      have ended : r.readPhysicalRecord.1 = kEof →
          assembled r.readPhysicalRecord.1 r.readPhysicalRecord.2.1 inside scratch = .ended := by
        intro eof
        rw [eof]
        rfl
      cases result : assembled r.readPhysicalRecord.1 r.readPhysicalRecord.2.1 inside scratch with
      | ended =>
          rw [result] at read read'
          rw [recordsFrom_ended read, recordsFrom_ended read']
      | more inside' scratch' =>
          rw [result] at read read' ended
          have more : r.readPhysicalRecord.1 ≠ kEof := fun eof => by simpa using ended eof
          rw [recordsFrom_more read, recordsFrom_more read']
          exact ih _ (less more) (reported _ _ _ _ (next more)) rfl
      | record data =>
          rw [result] at read read' ended
          have more : r.readPhysicalRecord.1 ≠ kEof := fun eof => by simpa using ended eof
          rw [recordsFrom_record read, recordsFrom_record read', List.cons.injEq]
          exact ⟨rfl, ih _ (less more) (reported _ _ _ _ (next more)) rfl⟩

end Bisimulation

/-! ## Faults -/

/-- The number of reads that succeed before the first one that fails. -/
def firstFault (faults : List (Option String)) : Option Nat := faults.findIdx? Option.isSome

/-- The bytes that can be read: all of them, or the blocks before the first
    `Read` that fails. -/
def readable (bytes : Bytes) (faults : List (Option String)) : Bytes :=
  match firstFault faults with
  | some k => bytes.take (k * kBlockSize)
  | none => bytes

/-- A reader whose reads fail, and one of the file that can be read. -/
structure Failing (r r' : Reader) : Prop where
  buffer : r.buffer = r'.buffer
  eof : r.eof = r'.eof
  faults : r'.file.faults = []
  rest : r'.file.rest = readable r.file.rest r.file.faults

theorem readable_faulty (bytes : Bytes) (msg : String) (later : List (Option String)) :
    readable bytes (some msg :: later) = [] := by
  simp [readable, firstFault, List.findIdx?_cons]

/-- A read that succeeds takes the next block of what can be read. -/
theorem readable_next (bytes : Bytes) {faults : List (Option String)}
    (succeeds : ∀ msg, faults.head? ≠ some (some msg)) :
    (readable bytes faults).take kBlockSize = bytes.take kBlockSize ∧
      (readable bytes faults).drop kBlockSize = readable (bytes.drop kBlockSize) faults.tail := by
  cases faults with
  | nil => exact ⟨rfl, rfl⟩
  | cons fault later =>
      cases fault with
      | some msg => exact absurd rfl (succeeds msg)
      | none =>
          simp only [readable, firstFault, List.findIdx?_cons, Option.isSome_none,
            Bool.false_eq_true, if_false, List.tail_cons]
          cases List.findIdx? Option.isSome later with
          | none => exact ⟨rfl, rfl⟩
          | some k =>
              have more : (k + 1) * kBlockSize = k * kBlockSize + kBlockSize := Nat.succ_mul _ _
              simp only [Option.map_some]
              constructor
              · rw [List.take_take, Nat.min_eq_left (by omega)]
              · rw [List.drop_take, more, Nat.add_sub_cancel]

/-- The next block, or the end of the input for both. -/
theorem Failing.fill {r r' : Reader} (h : Failing r r') :
    r'.fill.1 = true ∧ (r.fill.1 = true ∧ Failing r.fill.2 r'.fill.2 ∨
      r.fill.1 = false ∧ r'.fill.2.buffer = [] ∧ r'.fill.2.eof = true) := by
  obtain ⟨buffer, eof, faults, rest⟩ := h
  have read' : r'.fill = (true,
      { r' with
        file := { rest := r'.file.rest.drop kBlockSize }
        buffer := r'.file.rest.take kBlockSize
        eof := r'.eof || (r'.file.rest.take kBlockSize).length < kBlockSize }) := by
    simp [Reader.fill, SequentialFile.read, faults]
  rw [read']
  refine ⟨rfl, ?_⟩
  by_cases fails : ∃ msg, r.file.faults.head? = some (some msg)
  · obtain ⟨msg, first⟩ := fails
    right
    have nothing : r'.file.rest = [] := by
      obtain ⟨later, same⟩ := List.head?_eq_some_iff.mp first
      rw [rest, same, readable_faulty]
    refine ⟨by simp [Reader.fill, SequentialFile.read, first], by simp [nothing], ?_⟩
    simp [nothing, kBlockSize]
  · left
    have succeeds : ∀ msg, r.file.faults.head? ≠ some (some msg) := fun msg same => fails ⟨msg, same⟩
    obtain ⟨block, later⟩ := readable_next r.file.rest succeeds
    have read : r.file.read kBlockSize = (.ok, r.file.rest.take kBlockSize,
        { rest := r.file.rest.drop kBlockSize, faults := r.file.faults.tail }) := by
      rw [SequentialFile.read]
      split
      · exact absurd ‹_› (succeeds _)
      · rfl
    rw [rest, block, later, ← eof]
    simp only [Reader.fill, read, Status.isOk_ok, if_true]
    exact ⟨trivial, rfl, rfl, rfl, rfl⟩

theorem Failing.parse {r r' : Reader} (h : Failing r r') :
    r.parsePhysicalRecord.1 = r'.parsePhysicalRecord.1 ∧
      r.parsePhysicalRecord.2.1 = r'.parsePhysicalRecord.2.1 ∧
      Failing r.parsePhysicalRecord.2.2 r'.parsePhysicalRecord.2.2 := by
  obtain ⟨buffer, eof, faults, rest⟩ := h
  simp only [parsePhysicalRecord, buffer, eof]
  split
  · split
    · exact ⟨rfl, rfl, rfl, rfl, faults, rest⟩
    · exact ⟨rfl, rfl, rfl, rfl, faults, rest⟩
  · split
    · exact ⟨rfl, rfl, rfl, rfl, faults, rest⟩
    · split
      · exact ⟨rfl, rfl, rfl, rfl, faults, rest⟩
      · exact ⟨rfl, rfl, rfl, rfl, faults, rest⟩

/-- A reader whose reads fail finds the same physical records. -/
theorem Failing.step {r r' : Reader} (h : Failing r r') :
    r.readPhysicalRecord.1 = r'.readPhysicalRecord.1 ∧
      r.readPhysicalRecord.2.1 = r'.readPhysicalRecord.2.1 ∧
      (r.readPhysicalRecord.1 ≠ kEof →
        Failing r.readPhysicalRecord.2.2 r'.readPhysicalRecord.2.2) := by
  fun_induction readPhysicalRecord r generalizing r' with
  | case1 r short ended =>
      rw [h.buffer] at short
      rw [h.eof] at ended
      rw [readPhysicalRecord, if_pos short, if_pos ended]
      exact ⟨rfl, rfl, fun more => absurd rfl more⟩
  | case2 r short more filled ih =>
      rcases h.fill with ⟨filled', ⟨-, next⟩ | ⟨failed, -⟩⟩
      · rw [h.buffer] at short
        rw [h.eof] at more
        have again : r'.readPhysicalRecord = r'.fill.2.readPhysicalRecord := by
          rw [readPhysicalRecord, if_pos short, if_neg more, if_pos filled']
        rw [again]
        exact ih next
      · simp [failed] at filled
  | case3 r short more failed =>
      rcases h.fill with ⟨filled', ⟨filled, -⟩ | ⟨-, empty, ended⟩⟩
      · exact absurd filled failed
      · rw [h.buffer] at short
        rw [h.eof] at more
        have nothing : r'.fill.2.readPhysicalRecord.1 = kEof ∧ r'.fill.2.readPhysicalRecord.2.1 = [] := by
          rw [readPhysicalRecord, if_pos (by rw [empty]; decide), if_pos ended]
          exact ⟨rfl, rfl⟩
        rw [readPhysicalRecord, if_pos short, if_neg more, if_pos filled', nothing.1, nothing.2]
        exact ⟨rfl, rfl, fun more => absurd rfl more⟩
  | case4 r long =>
      obtain ⟨type, payload, next⟩ := h.parse
      rw [h.buffer] at long
      have here : r'.readPhysicalRecord = r'.parsePhysicalRecord := by
        rw [readPhysicalRecord, if_neg long]
      rw [here]
      exact ⟨type, payload, fun _ => next⟩

/-- A file whose reads fail gives the records of what can be read. -/
theorem records_faults (bytes : Bytes) (faults : List (Option String)) :
    (Reader.records { file := { rest := bytes, faults } }).1 = recordsOf (readable bytes faults) := by
  rw [recordsOf, records_eq_recordsFrom, records_eq_recordsFrom]
  exact recordsFrom_bisim Failing (fun _ _ _ _ h => ⟨h.buffer, h.eof, h.faults, h.rest⟩)
    (fun _ _ h => h.step) ⟨rfl, rfl, rfl, rfl⟩

end MiniLsm.Wal
