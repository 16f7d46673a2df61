import MiniLsm.Db.Recovery
import MiniLsm.Raft.Process
import MiniLsm.Wal.ReadFaults

/-! # Recovery while reads fail

`Open` of the database and of the storage when a `Read` of the log fails. Both
take it for the end of the file.
-/

namespace MiniLsm

open Wal

/-- Of the records of a log, those that end in the blocks before the first
    `Read` that fails. -/
def reached (faults : List (Option String)) (records : List Bytes) : List Bytes :=
  match firstFault faults with
  | some k => completed 0 (k * kBlockSize) records
  | none => records

theorem records_reached (records : List Bytes) (faults : List (Option String)) :
    (Reader.records { file := { rest := encodedAll 0 records, faults } }).1 =
      reached faults records := by
  rw [records_faults, readable, reached]
  cases firstFault faults with
  | none => exact records_encodedAll_whole records
  | some k => exact (records_encodedAll records _).1

/-! ## The journal of a run -/

namespace Process

/-- The items that a call adds to the file. -/
def added (p : Process) : Call → List Item
  | .save _ => RaftStorage.savedItems p.raft p.storage.persistedIndex
  | .tick | .propose _ | .step _ | .takeMessages | .takeCommitted | .reopen => []

/-- The items that calls add to the file. -/
def journal (p : Process) : List Call → List Item
  | [] => []
  | call :: later => p.added call ++ (p.next call).journal later

/-- The file of a process holds the records of a journal. -/
structure Wrote (p : Process) (items : List Item) : Prop where
  aligned : p.storage.writer.Aligned
  syncs : p.storage.writer.dest.syncFaults = []
  contents : p.storage.writer.dest.contents = encodedAll 0 (items.map Item.record)

variable {p : Process} {items : List Item}

theorem Wrote.sound (h : p.Wrote items) : p.place.Sound :=
  ⟨rfl, rfl, rfl, rfl, rfl, h.aligned.appends, h.syncs⟩

theorem Wrote.next (h : p.Wrote items) (call : Call) :
    (p.next call).Wrote (items ++ p.added call) := by
  cases call with
  | tick | propose | step | takeMessages | takeCommitted =>
      rw [added, List.append_nil]
      exact ⟨h.aligned, h.syncs, h.contents⟩
  | reopen =>
      have opened := RaftStorage.openAt_eq h.sound
      rw [added, List.append_nil, Process.next, Process.reopen, opened]
      exact ⟨Writer.new_aligned h.aligned.appends, h.syncs, h.contents⟩
  | save fault =>
      obtain ⟨w, aligned, syncs, contents, -, saved⟩ := p.save_eq h.aligned fault
      have written : w.dest.contents = encodedAll 0 ((items ++ p.added (.save fault)).map Item.record) := by
        rw [contents, h.contents, List.map_append, encodedAll_append, Nat.zero_add]
        rfl
      rw [Process.next, saved]
      cases fault with
      | none => exact ⟨aligned, syncs, written⟩
      | some msg => exact ⟨aligned, syncs, written⟩

/-- A run leaves the records of its journal. -/
theorem Wrote.run (h : p.Wrote items) (calls : List Call) :
    (calls.foldl Process.next p).Wrote (items ++ p.journal calls) := by
  induction calls generalizing p items with
  | nil => rwa [journal, List.append_nil]
  | cons call later ih =>
      rw [journal, ← List.append_assoc]
      exact ih (h.next call)

theorem run_wrote (config : Config) (calls : List Call) :
    (run config calls).Wrote ((fresh config).journal calls) := by
  have start : (fresh config).Wrote [] := ⟨Writer.new_aligned rfl, rfl, rfl⟩
  exact start.run calls

end Process

/-! ## Opening -/

section Opening

variable {p : Place} {records : List Bytes}

theorem records_empty (faults : List (Option String)) :
    (Reader.records { file := { rest := [], faults } }).1 = [] := by
  have nothing : readable [] faults = [] := by
    rw [readable]
    cases firstFault faults <;> simp
  rw [records_faults, nothing, recordsOf_nil]

/-- `Open` of the database with reads that fail. -/
theorem DB.openAt_reached (sound : p.Sound) (contents : p.contents = encodedAll 0 records)
    (faults : List (Option String)) :
    ∃ db, DB.openAt {} { wal := { p with readFaults := faults } } = .ok db ∧
      db.table = (reached faults records).foldl DB.applyRecord Table.empty := by
  rw [← records_reached, ← contents]
  obtain ⟨file, makeDirFault, openFault, readFaults, sizeFault, appendableFault⟩ := p
  obtain ⟨rfl, rfl, rfl, rfl, rfl, -⟩ := sound
  cases file with
  | none => exact ⟨_, rfl, by rw [Place.contents, Option.getD_none, records_empty]; rfl⟩
  | some f => exact ⟨_, rfl, rfl⟩

/-- The database recovers the whole table if the records that are read build
    it. -/
theorem DB.recovers_iff (sound : p.Sound) (contents : p.contents = encodedAll 0 records)
    (faults : List (Option String)) :
    ∃ db whole, DB.openAt {} { wal := { p with readFaults := faults } } = .ok db ∧
      DB.openAt {} { wal := p } = .ok whole ∧
      (db.table = whole.table ↔
        (reached faults records).foldl DB.applyRecord Table.empty =
          records.foldl DB.applyRecord Table.empty) := by
  obtain ⟨db, opened, table⟩ := DB.openAt_reached sound contents faults
  obtain ⟨whole, opened', table'⟩ := DB.openAt_reached sound contents p.readFaults
  have all : reached p.readFaults records = records := by rw [sound.reads]; rfl
  rw [all] at table'
  exact ⟨db, whole, opened, opened', by rw [table, table']⟩

/-- `Open` of the storage with reads that fail. -/
theorem RaftStorage.openAt_reached (sound : p.Sound) (contents : p.contents = encodedAll 0 records)
    (faults : List (Option String)) :
    ∃ storage, RaftStorage.openAt { p with readFaults := faults } = .ok storage ∧
      storage.recovered = (reached faults records).foldl Recovered.replay {} := by
  rw [← records_reached, ← contents]
  obtain ⟨file, makeDirFault, openFault, readFaults, sizeFault, appendableFault⟩ := p
  obtain ⟨rfl, rfl, rfl, rfl, rfl, -⟩ := sound
  cases file with
  | none => exact ⟨_, rfl, by rw [Place.contents, Option.getD_none, records_empty]; rfl⟩
  | some f => exact ⟨_, rfl, rfl⟩

/-- The storage recovers the whole state if the records that are read amount to
    it. -/
theorem RaftStorage.recovers_iff (sound : p.Sound) (contents : p.contents = encodedAll 0 records)
    (faults : List (Option String)) :
    ∃ storage whole, RaftStorage.openAt { p with readFaults := faults } = .ok storage ∧
      RaftStorage.openAt p = .ok whole ∧
      (storage.recover = whole.recover ↔
        (reached faults records).foldl Recovered.replay {} =
          records.foldl Recovered.replay {}) := by
  obtain ⟨storage, opened, recovered⟩ := RaftStorage.openAt_reached sound contents faults
  obtain ⟨whole, opened', recovered'⟩ := RaftStorage.openAt_reached sound contents p.readFaults
  have all : reached p.readFaults records = records := by rw [sound.reads]; rfl
  rw [all] at recovered'
  refine ⟨storage, whole, opened, opened', ?_⟩
  have both (x y : Recovered) : x.hs = y.hs ∧ x.entries = y.entries ↔ x = y := by
    cases x
    cases y
    simp
  rw [← recovered, ← recovered', RaftStorage.recover, RaftStorage.recover, Prod.mk.injEq]
  exact both _ _

end Opening

/-- Whatever reads fail, `Open` returns OK. What it recovers is the same as
    without the failure exactly if the records before it already amount to the
    whole log. -/
theorem recovery_complete_iff (earlier : List (List Op)) (config : Config) (calls : List Call)
    (faults : List (Option String)) :
    (∃ db whole, DB.openAt {} { wal := { DB.sessions {} earlier with readFaults := faults } } = .ok db ∧
      DB.openAt {} { wal := DB.sessions {} earlier } = .ok whole ∧
      (db.table = whole.table ↔
        (reached faults (earlier.flatten.map Op.record)).foldl DB.applyRecord Table.empty =
          (earlier.flatten.map Op.record).foldl DB.applyRecord Table.empty)) ∧
    (∃ storage whole,
      RaftStorage.openAt { (Process.run config calls).place with readFaults := faults } = .ok storage ∧
      RaftStorage.openAt (Process.run config calls).place = .ok whole ∧
      (storage.recover = whole.recover ↔
        (reached faults (((Process.fresh config).journal calls).map Item.record)).foldl
            Recovered.replay {} =
          (((Process.fresh config).journal calls).map Item.record).foldl Recovered.replay {})) := by
  constructor
  · have fresh : Place.Sound {} := ⟨rfl, rfl, rfl, rfl, rfl, rfl, rfl⟩
    obtain ⟨sound, contents⟩ := sessions_contents fresh earlier
    exact DB.recovers_iff sound contents faults
  · have wrote := Process.run_wrote config calls
    exact RaftStorage.recovers_iff wrote.sound wrote.contents faults

/-- The only block of a log can not be read. `Open` returns OK, with an empty
    table and with neither vote nor entries. -/
theorem recovery_incomplete :
    (¬ ∀ (earlier : List (List Op)) (faults : List (Option String)) (db whole : DB),
      DB.openAt {} { wal := { DB.sessions {} earlier with readFaults := faults } } = .ok db →
      DB.openAt {} { wal := DB.sessions {} earlier } = .ok whole → db.table = whole.table) ∧
    ¬ ∀ (config : Config) (calls : List Call) (faults : List (Option String))
      (storage whole : RaftStorage),
      RaftStorage.openAt { (Process.run config calls).place with readFaults := faults } = .ok storage →
      RaftStorage.openAt (Process.run config calls).place = .ok whole →
      storage.recover = whole.recover := by
  constructor
  · intro claim
    have same := congrFun (claim [[.put [1] [2]]] [some "EIO"] _ _ rfl rfl) [1]
    revert same
    decide +kernel
  · intro claim
    have same := claim { id := 1, peers := [1], electionTimeout := 1 } [.tick, .save none]
      [some "EIO"] _ _ rfl rfl
    revert same
    decide +kernel

end MiniLsm
