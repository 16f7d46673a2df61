import MiniLsm.Db.Refinement
import MiniLsm.Wal.Faults

/-! # Acknowledged operations while calls fail

A client writes to a database some of whose `Append` and `Sync` calls fail. What
it was told is durable has to be found in the log, whatever failed before it.
-/

namespace MiniLsm

open Wal

/-- What happens to a database whose file may fail. -/
inductive Attempt where
  /-- A Put or Delete, with what becomes of the `Append` calls it makes and of
      its `Sync`. -/
  | write (op : Op) (appendFaults : List (Option AppendFault)) (syncFault : Option String)
  /-- Close the database and open it again. -/
  | reopen
  deriving Repr, DecidableEq

/-- Keys and values are shorter than 2^32 bytes. -/
def Attempt.Small : Attempt → Prop
  | .write op _ _ => op.Small
  | .reopen => True

instance (attempt : Attempt) : Decidable attempt.Small :=
  match attempt with
  | .write op _ _ => inferInstanceAs (Decidable op.Small)
  | .reopen => inferInstanceAs (Decidable True)

/-- The database before calls of which these will fail. -/
def DB.failing (db : DB) (appendFaults : List (Option AppendFault)) (syncFault : Option String) :
    DB :=
  let dest := { db.wal.dest with appendFaults, syncFaults := [syncFault] }
  { db with wal := { db.wal with dest } }

structure Client where
  db : DB
  /-- The operations that returned OK, in order. -/
  acked : List Op

namespace Client

def next (c : Client) : Attempt → Client
  | .write op appendFaults syncFault =>
      let (s, db) := op.call (c.db.failing appendFaults syncFault)
      { db, acked := if s.isOk then c.acked ++ [op] else c.acked }
  | .reopen => { c with db := c.db.reopen.2 }

/-- A client of a new database. -/
def start : Client where
  db := { table := Table.empty, wal := Writer.new {} 0 }
  acked := []

def run (attempts : List Attempt) : Client := attempts.foldl next start

/-- The bytes of the log. -/
def log (c : Client) : Bytes := c.db.wal.dest.contents

/-- The operations that a replay of the log applies, in order. -/
def replayed (c : Client) : List (UInt8 × Bytes × Bytes) := (recordsOf c.log).filterMap decodeRecord

end Client

/-- Before an operation: the log does not end inside a physical record, and at
    its cursor the writer cuts the record as it has to be cut at the end of the
    log. -/
def DB.Ready (db : DB) (op : Op) : Prop :=
  endsInRecord 0 db.wal.dest.contents = false ∧
    encoded db.wal.blockOffset op.record = encoded db.wal.dest.contents.length op.record

instance (db : DB) (op : Op) : Decidable (db.Ready op) := inferInstanceAs (Decidable (_ ∧ _))

def Attempt.Ready (c : Client) : Attempt → Prop
  | .write op _ _ => c.db.Ready op
  | .reopen => True

instance (c : Client) (attempt : Attempt) : Decidable (attempt.Ready c) :=
  match attempt with
  | .write op _ _ => inferInstanceAs (Decidable (c.db.Ready op))
  | .reopen => inferInstanceAs (Decidable True)

/-- A new database is what `Open` returns at a path without a file. -/
example : DB.openAt {} {} = .ok Client.start.db := rfl

/-! ## One operation -/

/-- An operation leaves a prefix of its record, all of it if it returns OK. -/
theorem call_written {db : DB} (bound : db.wal.blockOffset ≤ kBlockSize) (op : Op) :
    (∃ k, (op.call db).2.wal.dest.contents =
        db.wal.dest.contents ++ (encoded db.wal.blockOffset op.record).take k ∧
      ((op.call db).1.isOk = true → (encoded db.wal.blockOffset op.record).length ≤ k)) ∧
    (op.call db).2.wal.blockOffset ≤ kBlockSize := by
  have stands : db.wal.Stands db.wal.blockOffset := ⟨bound, rfl⟩
  obtain ⟨⟨k, written, all⟩, bound'⟩ := stands.addRecordLoop op.record true
  have call : op.call db = db.write op.type op.key op.value := by
    cases op with
    | put key value => rfl
    | delete key => rfl
  rw [call, DB.write]
  have record : db.wal.addRecord (encodeRecord op.type op.key op.value) =
      db.wal.addRecordLoop op.record true := rfl
  simp only [record]
  split
  · rename_i ok
    split
    · exact ⟨⟨k, (WritableFile.sync_contents _).trans written, fun _ => all ok⟩, bound'⟩
    · exact ⟨⟨k, (WritableFile.sync_contents _).trans written, fun _ => all ok⟩, bound'⟩
  · rename_i failed
    exact ⟨⟨k, written, fun ok => absurd ok failed⟩, bound'⟩

/-- The log of a client: every acknowledged operation can be read back. -/
structure Kept (c : Client) : Prop where
  bound : c.db.wal.blockOffset ≤ kBlockSize
  log : IsLog c.log
  small : ∀ op ∈ c.acked, op.Small
  records : (c.acked.map Op.record).Sublist (recordsOf c.log)

namespace Kept

variable {c : Client}

theorem write (h : Kept c) {op : Op} (small : op.Small) (ready : c.db.Ready op)
    (appendFaults : List (Option AppendFault)) (syncFault : Option String) :
    Kept (c.next (.write op appendFaults syncFault)) := by
  obtain ⟨⟨k, written, all⟩, bound⟩ :=
    @call_written (c.db.failing appendFaults syncFault) h.bound op
  obtain ⟨clean, cut⟩ := ready
  have cut : encoded (c.db.failing appendFaults syncFault).wal.blockOffset op.record =
      encodedAll c.log.length [op.record] := by
    rw [encodedAll, encodedAll, List.append_nil]
    exact cut
  rw [cut] at written all
  have written : (c.next (.write op appendFaults syncFault)).log =
      c.log ++ (encodedAll c.log.length [op.record]).take k := written
  obtain ⟨extended, read, -⟩ := h.log.resume clean [op.record]
  have log : IsLog (c.log ++ (encodedAll c.log.length [op.record]).take k) :=
    extended.cut ((List.prefix_append_right_inj _).mpr (List.take_prefix _ _))
  refine ⟨bound, written ▸ log, ?_, ?_⟩
  · intro o member
    simp only [Client.next] at member
    split at member
    · rcases List.mem_append.mp member with old | new
      · exact h.small o old
      · rwa [List.mem_singleton.mp new]
    · exact h.small o member
  · rw [written]
    simp only [Client.next]
    split
    · rename_i ok
      rw [List.take_of_length_le (all ok), List.map_append]
      rw [show recordsOf (c.log ++ encodedAll c.log.length [op.record]) = _ from read]
      exact h.records.append (List.Sublist.refl _)
    · exact h.records.trans (log.recordsOf_mono (List.prefix_append _ _)).sublist

theorem reopen (h : Kept c) : Kept (c.next .reopen) := by
  have opened : DB.openAt {} { wal := c.db.place } = .ok
      { table := (recordsOf c.log).foldl DB.applyRecord Table.empty
        wal := Writer.new c.db.wal.dest c.log.length } := rfl
  have reopened : c.next .reopen =
      { c with db :=
          { table := (recordsOf c.log).foldl DB.applyRecord Table.empty
            wal := Writer.new c.db.wal.dest c.log.length } } := by
    rw [Client.next, DB.reopen, opened]
  rw [reopened]
  exact ⟨Nat.le_of_lt (Nat.mod_lt _ (by decide)), h.log, h.small, h.records⟩

end Kept

/-! ## Runs -/

theorem run_kept {attempts : List Attempt}
    (small : ∀ attempt ∈ attempts, attempt.Small)
    (ready : ∀ before attempt, before ++ [attempt] <+: attempts →
      attempt.Ready (Client.run before)) : Kept (Client.run attempts) := by
  apply run_invariant Client.next Client.start Kept
  · exact ⟨Nat.zero_le _, isLog_nil, by simp [Client.start], List.nil_sublist _⟩
  · intro before attempt inside kept
    have fits := small attempt (mem_of_step inside)
    have starts := ready before attempt inside
    cases attempt with
    | write op appendFaults syncFault => exact kept.write fits starts appendFaults syncFault
    | reopen => exact kept.reopen

/-- Whatever failed before and after them, acknowledged operations are replayed,
    in their order, as long as every operation starts at the end of a complete
    physical record with a cursor that fits. -/
theorem acked_replayed_of_ready (attempts : List Attempt)
    (small : ∀ attempt ∈ attempts, attempt.Small)
    (ready : ∀ before attempt, before ++ [attempt] <+: attempts →
      attempt.Ready (Client.run before)) :
    ((Client.run attempts).acked.map fun op => (op.type, op.key, op.value)).Sublist
      (Client.run attempts).replayed := by
  have kept := run_kept small ready
  have decoded : ((Client.run attempts).acked.map Op.record).filterMap decodeRecord =
      (Client.run attempts).acked.map fun op => (op.type, op.key, op.value) := by
    rw [List.filterMap_map, ← List.filterMap_eq_map]
    refine List.filterMap_congr fun op member => ?_
    obtain ⟨smallKey, smallValue⟩ := kept.small op member
    rw [Function.comp, Op.record, decodeRecord_encodeRecord op.type smallKey smallValue]
    cases op with
    | put key value => rfl
    | delete key => rfl
  rw [← decoded]
  exact kept.records.filterMap _

/-- A failed Put of which nothing was written, a Delete that is not synced, and
    a reopening. -/
def harmless : List Attempt :=
  [.write (.put [1] [2]) [] none, .write (.put [3] [4]) [some { written := 0, msg := "full" }] none,
    .write (.put [5] [6]) [] none, .write (.delete [1]) [] (some "fsync"), .reopen,
    .write (.delete [5]) [] none]

theorem acked_replayed_of_ready_harmless :
    (Client.run harmless).acked = [.put [1] [2], .put [5] [6], .delete [5]] ∧
      ([(1, [1], [2]), (1, [5], [6]), (0, [5], [])] : List (UInt8 × Bytes × Bytes)).Sublist
        (Client.run harmless).replayed := by
  have ready := forall_steps harmless (fun before attempt => attempt.Ready (Client.run before))
    (by decide +kernel)
  have acked : (Client.run harmless).acked = [.put [1] [2], .put [5] [6], .delete [5]] := by
    decide +kernel
  have replayed := acked_replayed_of_ready harmless (by decide) ready
  rw [acked] at replayed
  exact ⟨acked, replayed⟩

/-- A Put leaves one byte when it fails. The next one is acknowledged behind it,
    and is not replayed. -/
theorem acked_not_replayed :
    ¬ ∀ attempts : List Attempt,
      (∀ attempt ∈ attempts, attempt.Small) →
      ((Client.run attempts).acked.map fun op => (op.type, op.key, op.value)).Sublist
        (Client.run attempts).replayed := by
  intro claim
  have sublist := claim
    [.write (.put [1] [2]) [some { written := 1, msg := "full" }] none,
      .write (.put [3] [4]) [] none] (by decide)
  revert sublist
  decide +kernel

end MiniLsm
