import MiniLsm.Raft.Journal
import MiniLsm.Machine.Runs

/-! # A node with its storage

One process: the state machine, its storage, and the file both survive on.
Calls come in any order; a `Save` says whether its `Sync` fails, and reopening
closes the process and builds a new one from what the file replays to.
-/

namespace MiniLsm

open Wal

structure Process where
  raft : Raft
  storage : RaftStorage

inductive Call where
  | tick
  | propose (data : Bytes)
  | step (msg : Message)
  | takeMessages
  | takeCommitted
  /-- `Save`, with the error of its `Sync` if that fails. -/
  | save (fault : Option String)
  /-- Close, then `Open`, `Recover` and `Restore`. -/
  | reopen
  deriving Repr, DecidableEq

namespace Process

/-- A fresh node and the storage at a path without a file. -/
def fresh (config : Config) : Process where
  raft := Raft.new config
  storage := { writer := Writer.new {} 0 }

/-- The path of the storage file. -/
def place (p : Process) : Place := { file := some p.storage.writer.dest }

def save (p : Process) (fault : Option String) : Status × Process :=
  let file := { p.storage.writer.dest with syncFaults := [fault] }
  let storage := { p.storage with writer := { p.storage.writer with dest := file } }
  let (s, storage, raft) := storage.save p.raft
  (s, { raft, storage })

/-- What `Open` and `Recover` would return now. -/
def recovered (p : Process) : Except Status (HardState × List LogEntry) :=
  (RaftStorage.openAt p.place).map RaftStorage.recover

def reopen (p : Process) : Process :=
  match RaftStorage.openAt p.place with
  | .ok storage =>
      let (hs, entries) := storage.recover
      { raft := (Raft.new p.raft.config).restore hs.term hs.vote entries, storage }
  | .error _ => p

def next (p : Process) : Call → Process
  | .tick => { p with raft := p.raft.tick }
  | .propose data => { p with raft := (p.raft.propose data).2 }
  | .step msg => { p with raft := p.raft.step msg }
  | .takeMessages => { p with raft := p.raft.takeMessages.2 }
  | .takeCommitted => { p with raft := p.raft.takeCommitted.2 }
  | .save fault => (p.save fault).2
  | .reopen => p.reopen

/-- The process after calls. -/
def run (config : Config) (calls : List Call) : Process := calls.foldl next (fresh config)

/-- The path of a fresh process has no file. -/
example (config : Config) : RaftStorage.openAt {} = .ok (fresh config).storage := rfl

end Process

/-- A call of a run: an AppendEntries carries contiguous entries. -/
def Call.Carries : Call → Prop
  | .step msg => msg.Carries
  | _ => True

/-- The fields of a node have room in its records. -/
structure Raft.Fits (r : Raft) : Prop where
  term : r.currentTerm < UInt64.size
  vote : r.votedFor < UInt64.size
  entries : ∀ e ∈ r.log, e.Fits

instance (r : Raft) : Decidable r.Fits :=
  decidable_of_iff (r.currentTerm < UInt64.size ∧ r.votedFor < UInt64.size ∧ ∀ e ∈ r.log, e.Fits)
    ⟨fun h => ⟨h.1, h.2.1, h.2.2⟩, fun h => ⟨h.term, h.vote, h.entries⟩⟩

/-- The last entry of a node fits. -/
theorem Raft.Fits.lastIndex {r : Raft} (h : r.Fits) (numbered : r.Numbered) :
    r.lastIndex < UInt64.size := by
  have inside : r.lastIndex < r.log.length := by
    have := numbered.stable
    rw [Raft.lastIndex]
    omega
  have top := numbered.log.index inside
  rw [Nat.zero_add] at top
  rw [← top]
  exact (h.entries _ (List.getElem_mem _)).index

/-! ## What is in the file -/

theorem RaftStorage.openAt_eq {p : Place} (sound : p.Sound) :
    RaftStorage.openAt p = .ok
      { writer := Writer.new (p.file.getD {}) p.contents.length
        persistedIndex :=
          (((recordsOf p.contents).foldl Recovered.replay {}).entries.getLast?.map
            LogEntry.index).getD 0
        recovered := (recordsOf p.contents).foldl Recovered.replay {} } := by
  obtain ⟨makeDir, openRead, reads, size, appendable, -⟩ := sound
  cases file : p.file with
  | none =>
      have contents : p.contents = [] := by simp [Place.contents, file]
      simp [RaftStorage.openAt, Place.makeDir, Place.fileExists, Place.newAppendableFile,
        Place.unlessFault, makeDir, appendable, file, contents, recordsOf_nil]
      rfl
  | some f =>
      simp [RaftStorage.openAt, RaftStorage.replayFile, Place.makeDir, Place.fileExists,
        Place.newSequentialFile, Place.getFileSize, Place.newAppendableFile, Place.unlessFault,
        makeDir, openRead, reads, size, appendable, file, recordsOf]
      rfl

/-- A file of records that are the items of a journal. -/
structure Journaled (file : WritableFile) (items : List Item) : Prop where
  appends : file.Appends
  syncs : file.syncFaults = []
  log : IsLog file.contents
  records : recordsOf file.contents = items.map Item.record
  fits : ∀ item ∈ items, item.Fits

/-- The storage file holds a journal, and does not end inside a physical record. -/
structure Holds (storage : RaftStorage) (items : List Item) : Prop extends
    Journaled storage.writer.dest items where
  aligned : storage.writer.Aligned
  whole : endsInRecord 0 storage.writer.dest.contents = false

variable {p : Process} {items : List Item}

/-- Opening finds the journal. -/
theorem Journaled.openAt (h : Journaled p.storage.writer.dest items) :
    ∃ storage, RaftStorage.openAt p.place = .ok storage ∧
      (endsInRecord 0 p.storage.writer.dest.contents = false → Holds storage items) ∧
      storage.recovered = journalState items ∧
      storage.persistedIndex = ((journalState items).entries.getLast?.map LogEntry.index).getD 0 := by
  have sound : p.place.Sound := ⟨rfl, rfl, rfl, rfl, rfl, h.appends, h.syncs⟩
  have replayed : (recordsOf p.place.contents).foldl Recovered.replay {} = journalState items := by
    have records : recordsOf p.place.contents = items.map Item.record := h.records
    rw [records, replay_journal h.fits]
  refine ⟨_, RaftStorage.openAt_eq sound, fun whole => ⟨h, ?_, whole⟩, replayed, ?_⟩
  · exact Writer.new_aligned h.appends
  · rw [replayed]

theorem Journaled.recovered (h : Journaled p.storage.writer.dest items) :
    p.recovered = .ok ((journalState items).hs, (journalState items).entries) := by
  obtain ⟨storage, opened, -, found, -⟩ := h.openAt
  rw [Process.recovered, opened, ← found]
  rfl

/-- What `Save` leaves when every `Append` succeeds: its records are in the
    file, whatever becomes of its `Sync`. -/
theorem Process.save_eq (aligned : p.storage.writer.Aligned) (fault : Option String) :
    ∃ w : Writer, w.Aligned ∧ w.dest.syncFaults = [] ∧
      w.dest.contents = p.storage.writer.dest.contents ++
        encodedAll p.storage.writer.dest.contents.length
          ((RaftStorage.savedItems p.raft p.storage.persistedIndex).map Item.record) ∧
      w.dest.synced =
        (if fault = none then w.dest.contents.length else p.storage.writer.dest.synced) ∧
      p.save fault =
        (match fault with
        | none => (.ok,
            { raft := { p.raft with hardStateDirty := false, stableIndex := p.raft.lastIndex }
              storage := { p.storage with writer := w, persistedIndex := p.raft.lastIndex } })
        | some msg => (.ioError msg,
            { raft := { p.raft with hardStateDirty := false }
              storage := { p.storage with
                writer := w
                persistedIndex := min p.storage.persistedIndex p.raft.stableIndex } })) := by
  have aligned' : Writer.Aligned { p.storage.writer with
      dest := { p.storage.writer.dest with syncFaults := [fault] } } :=
    ⟨aligned.appends, aligned.bound, aligned.cursor⟩
  obtain ⟨w, added, saved⟩ := @RaftStorage.save_eq
    { p.storage with writer := { p.storage.writer with
      dest := { p.storage.writer.dest with syncFaults := [fault] } } } aligned' p.raft
  have contents := congrArg WritableFile.contents added.dest
  have synced := congrArg WritableFile.synced added.dest
  have faults := congrArg WritableFile.syncFaults added.dest
  have faults : w.dest.syncFaults = [fault] := faults
  cases fault with
  | none =>
      refine ⟨{ w with dest := { w.dest with syncFaults := [], synced := w.dest.contents.length } },
        ⟨added.aligned.appends, added.aligned.bound, added.aligned.cursor⟩, rfl, contents, rfl, ?_⟩
      simp [Process.save, saved, WritableFile.sync, faults]
  | some msg =>
      refine ⟨{ w with dest := { w.dest with syncFaults := [] } },
        ⟨added.aligned.appends, added.aligned.bound, added.aligned.cursor⟩, rfl, contents, synced, ?_⟩
      simp [Process.save, saved, WritableFile.sync, faults]

/-- Records that are appended to the file join the journal. -/
theorem Holds.add {storage storage' : RaftStorage} {added : List Item} (h : Holds storage items)
    (fits : ∀ item ∈ added, item.Fits) (aligned : storage'.writer.Aligned)
    (syncs : storage'.writer.dest.syncFaults = [])
    (contents : storage'.writer.dest.contents = storage.writer.dest.contents ++
      encodedAll storage.writer.dest.contents.length (added.map Item.record)) :
    Holds storage' (items ++ added) := by
  obtain ⟨log, records, whole⟩ := h.log.resume h.whole (added.map Item.record)
  rw [← contents] at log records whole
  rw [h.records, ← List.map_append] at records
  have all : ∀ item ∈ items ++ added, item.Fits :=
    fun item member => (List.mem_append.mp member).elim (h.fits item) (fits item)
  exact ⟨⟨aligned.appends, syncs, log, records, all⟩, aligned, whole⟩

/-! ## The journal and the node -/

/-- The journal never lost what the watermark covers. -/
structure Stored (p : Process) (items : List Item) : Prop where
  holds : Holds p.storage items
  node : p.raft.Numbered
  contiguous : Contiguous 1 (journalState items).entries
  size : (journalState items).entries.length < UInt64.size
  persisted : p.storage.persistedIndex ≤ (journalState items).entries.length
  stable : p.raft.stableIndex ≤ p.storage.persistedIndex
  agrees : (journalState items).entries.take p.raft.stableIndex =
    (p.raft.log.drop 1).take p.raft.stableIndex
  hard : p.raft.hardStateDirty = false →
    (journalState items).hs = { term := p.raft.currentTerm, vote := p.raft.votedFor }

/-- Before a `Save`: `persisted_index_` is what `Open` would compute from the
    file, or the `Save` begins with a truncation. -/
def Process.Retriable (p : Process) : Prop :=
  (RaftStorage.openAt p.place).map RaftStorage.persistedIndex = .ok p.storage.persistedIndex ∨
    p.raft.stableIndex < p.storage.persistedIndex

instance (p : Process) : Decidable p.Retriable := inferInstanceAs (Decidable (_ ∨ _))

namespace Stored

theorem fresh (config : Config) : Stored (Process.fresh config) [] where
  holds := ⟨⟨rfl, rfl, isLog_nil, recordsOf_nil, by simp⟩, Writer.new_aligned rfl, endsInRecord_nil⟩
  node := ⟨⟨rfl, trivial⟩, Nat.zero_lt_one⟩
  contiguous := trivial
  size := by decide
  persisted := le_rfl
  stable := le_rfl
  agrees := rfl
  hard := fun _ => rfl

theorem evolves (h : Stored p items) {r : Raft} (e : p.raft.Evolves r) :
    Stored { p with raft := r } items where
  holds := h.holds
  node := e.numbered
  contiguous := h.contiguous
  size := h.size
  persisted := h.persisted
  stable := e.stable.trans h.stable
  agrees := by
    have within : min r.stableIndex p.raft.stableIndex = r.stableIndex := Nat.min_eq_left e.stable
    have kept := congrArg (List.take r.stableIndex) h.agrees
    have log := congrArg (List.drop 1) e.log
    rw [List.take_take, List.take_take, within] at kept
    rw [List.drop_take, List.drop_take, Nat.add_sub_cancel] at log
    exact kept.trans log.symm
  hard := fun clean => by
    obtain ⟨clean', term, vote⟩ := e.hard clean
    rw [h.hard clean', term, vote]

/-- A process on a journal of contiguous entries. -/
theorem restart (h : Journaled p.storage.writer.dest items)
    (whole : endsInRecord 0 p.storage.writer.dest.contents = false)
    (contiguous : Contiguous 1 (journalState items).entries)
    (size : (journalState items).entries.length < UInt64.size) :
    Stored p.reopen items ∧
      (journalState items).entries.length = p.reopen.storage.persistedIndex := by
  obtain ⟨storage, opened, holds, found, last⟩ := h.openAt
  have index := contiguous.lastIndex
  have same : p.reopen =
      { raft := (Raft.new p.raft.config).restore (journalState items).hs.term
          (journalState items).hs.vote (journalState items).entries
        storage } := by
    rw [Process.reopen, opened, ← found]
    rfl
  have full : (journalState items).entries.length = storage.persistedIndex :=
    (last.trans index).symm
  rw [same]
  exact ⟨⟨holds whole, ⟨⟨rfl, contiguous⟩, Nat.lt_succ_self _⟩, contiguous, size,
    le_of_eq full.symm, le_of_eq full, rfl, fun _ => rfl⟩, full⟩

theorem reopen (h : Stored p items) : Stored p.reopen items ∧
    (journalState items).entries.length = p.reopen.storage.persistedIndex :=
  restart h.holds.toJournaled h.holds.whole h.contiguous h.size

theorem retriable_iff (h : Stored p items) :
    p.Retriable ↔ (journalState items).entries.length = p.storage.persistedIndex ∨
      p.raft.stableIndex < p.storage.persistedIndex := by
  obtain ⟨storage, opened, -, -, last⟩ := h.holds.openAt
  rw [h.contiguous.lastIndex] at last
  rw [Process.Retriable, opened]
  show Except.ok storage.persistedIndex = _ ∨ _ ↔ _
  rw [last, Except.ok.injEq]

theorem savedItems_fit (h : Stored p items) (fits : p.raft.Fits) :
    ∀ item ∈ RaftStorage.savedItems p.raft p.storage.persistedIndex, item.Fits := by
  have size := h.size
  have persisted := h.persisted
  intro item member
  rw [RaftStorage.savedItems, List.mem_append, List.mem_append] at member
  rcases member with (hard | truncation) | entry
  · rw [RaftStorage.hardStateItems] at hard
    split at hard
    · rw [List.mem_singleton.mp hard]
      exact ⟨fits.term, fits.vote⟩
    · simp at hard
  · rw [RaftStorage.truncationItems] at truncation
    split at truncation
    · rw [List.mem_singleton.mp truncation]
      show p.raft.stableIndex + 1 < UInt64.size
      omega
    · simp at truncation
  · obtain ⟨e, inside, rfl⟩ := List.mem_map.mp entry
    rw [RaftStorage.entriesFrom_eq h.node.nonempty] at inside
    exact fits.entries e (List.mem_of_mem_drop inside)

/-- What the file replays to after a `Save`. -/
theorem saved_state (h : Stored p items) :
    journalState (items ++ RaftStorage.savedItems p.raft p.storage.persistedIndex) =
      { hs := { term := p.raft.currentTerm, vote := p.raft.votedFor }
        entries :=
          (if p.raft.stableIndex < p.storage.persistedIndex then
            (p.raft.log.drop 1).take p.raft.stableIndex
          else (journalState items).entries) ++
          (p.raft.log.drop 1).drop p.raft.stableIndex } := by
  rw [journalState_append, RaftStorage.foldl_savedItems h.node h.contiguous,
    Nat.min_eq_right h.stable, h.agrees]
  congr 1
  cases dirty : p.raft.hardStateDirty with
  | true => rfl
  | false => exact h.hard dirty

/-- The replayed entries are those of the node exactly before a retriable
    `Save`. -/
theorem saved_entries_iff (h : Stored p items) :
    (journalState (items ++
        RaftStorage.savedItems p.raft p.storage.persistedIndex)).entries = p.raft.log.drop 1 ↔
      p.Retriable := by
  have stable := h.stable
  have persisted := h.persisted
  have inside : p.raft.stableIndex ≤ (p.raft.log.drop 1).length := by
    have := h.node.stable
    rw [List.length_drop]
    omega
  rw [h.saved_state, h.retriable_iff]
  dsimp only
  split
  · rename_i truncates
    exact ⟨fun _ => Or.inr truncates, fun _ => List.take_append_drop _ _⟩
  · rename_i level
    have level : p.raft.stableIndex = p.storage.persistedIndex := by omega
    constructor
    · intro same
      have count := congrArg List.length same
      rw [List.length_append, List.length_drop] at count
      omega
    · rintro (full | truncates)
      · have whole := h.agrees
        rw [level, ← full, List.take_length] at whole
        rw [whole, level, ← full]
        exact List.take_append_drop _ _
      · omega

end Stored

end MiniLsm
