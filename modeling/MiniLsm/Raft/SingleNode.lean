import MiniLsm.Raft.ReplicatedDb
import MiniLsm.Raft.Process
import MiniLsm.Db.Refinement

/-! # A single node as a map

A store that is its whole cluster, over any number of sessions. After a restart
the table is rebuilt from the log, and the first write of the session applies
the log once more: applying entries over the table they built changes nothing.
-/

namespace MiniLsm

open Wal

/-! ## Applying again -/

/-- Operations that were the last to be applied may be applied again. -/
theorem foldl_effect_again (earlier later : List Op) (table : Table) :
    later.foldl Op.effect ((earlier ++ later).foldl Op.effect table) =
      (earlier ++ later).foldl Op.effect table := by
  funext key
  rw [foldl_effect later]
  split
  · rename_i touched
    rw [List.foldl_append, foldl_effect later, if_pos touched]
  · rfl

theorem tableOf_drop (ops : List Op) (n : Nat) :
    (ops.drop n).foldl Op.effect (tableOf ops) = tableOf ops := by
  have again := foldl_effect_again (ops.take n) (ops.drop n) Table.empty
  rwa [List.take_append_drop] at again

theorem tableOf_concat (ops : List Op) (op : Op) :
    tableOf (ops ++ [op]) = op.effect (tableOf ops) := by
  rw [tableOf, List.foldl_append]
  rfl

/-- The encoded command is shorter than 2^32 bytes. -/
def Op.Short (op : Op) : Prop := op.record.length < UInt32.size

instance (op : Op) : Decidable op.Short := inferInstanceAs (Decidable (_ < _))

theorem Op.Short.small {op : Op} (h : op.Short) : op.Small := by
  rw [Op.Short, Op.record, encodeRecord] at h
  cases op with
  | put key value =>
      simp only [Op.type, Op.key, Op.value, if_true, List.length_append] at h
      exact ⟨by simp only [Op.key]; omega, by simp only [Op.value]; omega⟩
  | delete key =>
      simp only [Op.type, Op.key, List.length_append] at h
      exact ⟨by simp only [Op.key]; omega, Nat.zero_lt_of_lt h⟩

/-- Entries are applied as records of the store's log are. -/
theorem foldl_data (entries : List LogEntry) (table : Table) :
    entries.foldl applyEntry table = (entries.map LogEntry.data).foldl DB.applyRecord table := by
  rw [List.foldl_map]
  rfl

/-- The commands of entries build the table of a history. -/
def Carries (entries : List LogEntry) (history : List Op) : Prop :=
  ∃ ops : List Op, entries.map LogEntry.data = ops.map Op.record ∧ (∀ op ∈ ops, op.Short) ∧
    tableOf ops = tableOf history

namespace Carries

variable {entries again : List LogEntry} {history : List Op}

theorem nil : Carries [] [] := ⟨[], rfl, by simp, rfl⟩

theorem concat (h : Carries entries history) {e : LogEntry} {op : Op} (data : e.data = op.record)
    (short : op.Short) : Carries (entries ++ [e]) (history ++ [op]) := by
  obtain ⟨ops, records, all, table⟩ := h
  refine ⟨ops ++ [op], ?_, ?_, ?_⟩
  · simp [records, data]
  · intro o member
    rcases List.mem_append.mp member with old | new
    · exact all o old
    · rwa [List.mem_singleton.mp new]
  · rw [tableOf_concat, tableOf_concat, table]

/-- The last entries may be there twice. -/
theorem repeated (h : Carries entries history) (n : Nat)
    (data : again.map LogEntry.data = (entries.drop n).map LogEntry.data) :
    Carries (entries ++ again) history := by
  obtain ⟨ops, records, all, table⟩ := h
  refine ⟨ops ++ ops.drop n, ?_, ?_, ?_⟩
  · rw [List.map_append, data, List.map_drop, records, List.map_append, List.map_drop]
  · intro op member
    rcases List.mem_append.mp member with old | new
    · exact all op old
    · exact all op (List.mem_of_mem_drop new)
  · rw [tableOf, List.foldl_append]
    exact (tableOf_drop ops n).trans table

theorem congr {entries' : List LogEntry} (h : Carries entries history)
    (data : entries'.map LogEntry.data = entries.map LogEntry.data) : Carries entries' history := by
  rwa [Carries, data]

theorem short (h : Carries entries history) {e : LogEntry} (member : e ∈ entries) :
    e.data.length < UInt32.size := by
  obtain ⟨ops, records, all, -⟩ := h
  have inside : e.data ∈ ops.map Op.record := records ▸ List.mem_map_of_mem member
  obtain ⟨op, isOp, same⟩ := List.mem_map.mp inside
  rw [← same]
  exact all op isOp

/-- Applying the last entries over the table. -/
theorem apply_drop (h : Carries entries history) (n : Nat) :
    (entries.drop n).foldl applyEntry (tableOf history) = tableOf history := by
  obtain ⟨ops, records, all, table⟩ := h
  have small : ∀ op ∈ ops.drop n, op.Small :=
    fun op member => (all op (List.mem_of_mem_drop member)).small
  rw [foldl_data, List.map_drop, records, ← List.map_drop, replay_records small, ← table]
  exact tableOf_drop ops n

theorem apply (h : Carries entries history) :
    entries.foldl applyEntry Table.empty = tableOf history := by
  obtain ⟨ops, records, all, table⟩ := h
  rw [foldl_data, records, replay_records fun op member => (all op member).small, ← table]
  rfl

end Carries

theorem applyEntry_op (table : Table) {e : LogEntry} {op : Op} (data : e.data = op.record)
    (short : op.Short) : applyEntry table e = op.effect table := by
  have applied := applyRecord_record short.small table
  rwa [← data] at applied

/-! ## Records hold numbers modulo 2^64 -/

def LogEntry.wrapped (e : LogEntry) : LogEntry :=
  { e with term := e.term % UInt64.size, index := e.index % UInt64.size }

def Item.wrapped : Item → Item
  | .hardState term vote => .hardState (term % UInt64.size) (vote % UInt64.size)
  | .entry e => .entry e.wrapped
  | .truncate start => .truncate (start % UInt64.size)

theorem putU64_mod (v : Nat) : putU64 (v % UInt64.size) = putU64 v := by
  rw [putU64, putU64]
  congr 2
  · apply UInt32.toNat_inj.mp
    simp only [UInt32.toNat_ofNat', UInt64.size]
    omega
  · apply UInt32.toNat_inj.mp
    simp only [UInt32.toNat_ofNat', UInt64.size, UInt32.size]
    omega

theorem Item.wrapped_record (item : Item) : item.wrapped.record = item.record := by
  cases item with
  | hardState term vote => simp [Item.wrapped, Item.record, hardStateRecord, putU64_mod]
  | entry e => simp [Item.wrapped, Item.record, entryRecord, LogEntry.wrapped, putU64_mod]
  | truncate start => simp [Item.wrapped, Item.record, truncateRecord, putU64_mod]

theorem Item.wrapped_fits {item : Item}
    (short : ∀ e, item = .entry e → e.data.length < UInt32.size) : item.wrapped.Fits := by
  have below (v : Nat) : v % UInt64.size < UInt64.size := Nat.mod_lt v (by decide)
  cases item with
  | hardState term vote => exact ⟨below term, below vote⟩
  | entry e => exact ⟨below e.term, below e.index, short e rfl⟩
  | truncate start => exact below start

/-! ## The node -/

namespace Raft

variable {r : Raft}

theorem length_log (nonempty : r.log ≠ []) : r.log.length = r.lastIndex + 1 := by
  have positive := List.length_pos_iff.mpr nonempty
  rw [lastIndex]
  omega

theorem drop_lastIndex (r : Raft) : (r.log.drop 1).drop r.lastIndex = [] :=
  List.drop_eq_nil_of_le (le_of_eq List.length_drop)

theorem lastIndex_concat {r' : Raft} {e : LogEntry} (nonempty : r.log ≠ [])
    (log : r'.log = r.log ++ [e]) : r'.lastIndex = r.lastIndex + 1 := by
  rw [lastIndex, log, List.length_append, length_log nonempty]
  rfl

/-- A single node commits what it proposes at once. -/
theorem propose_single (leads : r.role = .leader) (peers : r.config.peers = [r.config.id])
    (nonempty : r.log ≠ []) (commit : r.commitIndex ≤ r.lastIndex) (data : Bytes) :
    ∃ e : LogEntry, e.data = data ∧ e.index = r.lastIndex + 1 ∧
      (r.propose data).2 =
        { r with log := r.log ++ [e], commitIndex := r.lastIndex + 1 } := by
  have last (e : LogEntry) : Raft.lastIndex { r with log := r.log ++ [e] } = r.lastIndex + 1 :=
    lastIndex_concat nonempty rfl
  have found (e : LogEntry) : Raft.termAt { r with log := r.log ++ [e] } (r.lastIndex + 1) =
      e.term := by
    rw [termAt, last, if_neg (by omega), entryAt, ← length_log nonempty]
    simp
  have counted (e : LogEntry) (n : Nat) : Raft.replicas { r with log := r.log ++ [e] } n = 1 := by
    simp [replicas, peers]
  have quorum (e : LogEntry) : Raft.quorumSize { r with log := r.log ++ [e] } = 1 := by
    simp [quorumSize, peers]
  refine ⟨{ term := r.currentTerm, index := r.lastIndex + 1, data }, rfl, rfl, ?_⟩
  rw [propose, if_neg (by simp [leads])]
  dsimp only
  rw [maybeCommit, last, maybeCommitFrom, if_pos (Nat.lt_succ_of_le commit), found,
    if_neg (by simp), counted, quorum, if_pos le_rfl]

theorem entriesBetween_last (nonempty : r.log ≠ []) (i : Nat) :
    r.entriesBetween i r.lastIndex = (r.log.drop 1).drop i := by
  have all := RaftStorage.entriesFrom_eq nonempty (i + 1)
  rw [RaftStorage.entriesFrom, Nat.add_sub_add_right] at all
  rw [entriesBetween, all, List.drop_drop, Nat.add_comm]

/-- A `Save` that truncates nothing writes the entries behind what is stored. -/
theorem savedItems_kept (nonempty : r.log ≠ []) {persisted : Nat}
    (stable : persisted ≤ r.stableIndex) :
    RaftStorage.savedItems r persisted =
      RaftStorage.hardStateItems r ++ ((r.log.drop 1).drop persisted).map Item.entry := by
  rw [RaftStorage.savedItems, RaftStorage.truncationItems, if_neg (by omega),
    Nat.min_eq_left stable, RaftStorage.entriesFrom_eq nonempty, List.append_nil, List.drop_drop,
    Nat.add_comm 1]

end Raft

/-! ## The store -/

/-- The journal in the file, and entries that are not in it yet. -/
structure Files (storage : RaftStorage) (items : List Item) (missing : List LogEntry)
    (history : List Op) : Prop where
  holds : Holds storage items
  carries : Carries ((journalState items).entries ++ missing) history
  /-- A record wraps the index of its entry, which can only make it smaller. -/
  indices : ∀ e ∈ (journalState items).entries ++ missing,
    e.index ≤ (journalState items).entries.length + missing.length
  persisted : storage.persistedIndex ≤ (journalState items).entries.length

theorem journalState_wrapped (items : List Item) (r : Raft) (missing : List LogEntry) :
    (journalState (items ++
        (RaftStorage.hardStateItems r ++ missing.map Item.entry).map Item.wrapped)).entries =
      (journalState items).entries ++ missing.map LogEntry.wrapped := by
  have entries : (missing.map Item.entry).map Item.wrapped =
      (missing.map LogEntry.wrapped).map Item.entry := by
    simp [Item.wrapped]
  rw [journalState_append, List.map_append, List.foldl_append, entries, foldl_entries,
    RaftStorage.hardStateItems]
  cases r.hardStateDirty <;> rfl

/-- Appending the missing entries completes the file. -/
theorem Files.saved {storage storage' : RaftStorage} {items : List Item} {missing : List LogEntry}
    {history : List Op} (h : Files storage items missing history) (ready : storage'.Ready) (r : Raft)
    (contents : storage'.writer.dest.contents = storage.writer.dest.contents ++
      encodedAll storage.writer.dest.contents.length
        ((RaftStorage.hardStateItems r ++ missing.map Item.entry).map Item.record))
    (persisted : storage'.persistedIndex ≤ (journalState items).entries.length + missing.length) :
    ∃ items', Files storage' items' [] history ∧
      (journalState items').entries =
        (journalState items).entries ++ missing.map LogEntry.wrapped := by
  let added := (RaftStorage.hardStateItems r ++ missing.map Item.entry).map Item.wrapped
  have records : (RaftStorage.hardStateItems r ++ missing.map Item.entry).map Item.record =
      added.map Item.record := by
    rw [List.map_map]
    exact List.map_congr_left fun item _ => item.wrapped_record.symm
  have fits : ∀ item ∈ added, item.Fits := by
    intro item member
    obtain ⟨item, inside, rfl⟩ := List.mem_map.mp member
    refine Item.wrapped_fits ?_
    rintro e rfl
    rcases List.mem_append.mp inside with hard | entry
    · rw [RaftStorage.hardStateItems] at hard
      split at hard <;> simp at hard
    · obtain ⟨e', inMissing, same⟩ := List.mem_map.mp entry
      cases same
      exact h.carries.short (List.mem_append_right _ inMissing)
  have entries : (journalState (items ++ added)).entries =
      (journalState items).entries ++ missing.map LogEntry.wrapped :=
    journalState_wrapped items r missing
  have length : (journalState (items ++ added)).entries.length =
      (journalState items).entries.length + missing.length := by
    rw [entries, List.length_append, List.length_map]
  refine ⟨items ++ added, ⟨h.holds.add fits ready.aligned ready.syncs (by rw [contents, records]),
    ?_, ?_, ?_⟩, entries⟩
  · refine h.carries.congr ?_
    rw [List.append_nil, entries, List.map_append, List.map_append, List.map_map]
    rfl
  · intro e member
    rw [List.append_nil, entries] at member
    rw [length, List.length_nil, Nat.add_zero]
    rcases List.mem_append.mp member with old | new
    · exact h.indices e (List.mem_append_left _ old)
    · obtain ⟨e', inMissing, rfl⟩ := List.mem_map.mp new
      exact (Nat.mod_le _ _).trans (h.indices e' (List.mem_append_right _ inMissing))
  · rwa [length]

/-- The file of a store that is closed. -/
structure Closed (file : WritableFile) (items : List Item) (history : List Op) : Prop extends
    Journaled file items where
  whole : endsInRecord 0 file.contents = false
  carries : Carries (journalState items).entries history
  indices : ∀ e ∈ (journalState items).entries, e.index ≤ (journalState items).entries.length

/-- Closing a store to which nothing is missing in the file. -/
theorem Files.closed {storage : RaftStorage} {items : List Item} {history : List Op}
    (h : Files storage items [] history) : Closed storage.writer.dest items history where
  toJournaled := h.holds.toJournaled
  whole := h.holds.whole
  carries := by
    have carries := h.carries
    rwa [List.append_nil] at carries
  indices := by
    have indices := h.indices
    rwa [List.append_nil] at indices

/-- The store of a single node; also before the `Sync` that ends a call. -/
structure Serves (db : ReplicatedDB) (history : List Op) : Prop where
  peers : db.raft.config.peers = [db.raft.config.id]
  leads : db.raft.role = .leader
  nonempty : db.raft.log ≠ []
  commit : db.raft.commitIndex ≤ db.raft.lastIndex
  stable : db.storage.persistedIndex ≤ db.raft.stableIndex
  log : Carries (db.raft.log.drop 1) history
  file : ∃ items, Files db.storage items ((db.raft.log.drop 1).drop db.storage.persistedIndex) history
  table : (db.raft.entriesBetween db.appliedIndex db.raft.commitIndex).foldl applyEntry db.table =
    tableOf history

/-- Between calls, also after one whose `Sync` failed. -/
structure Live (db : ReplicatedDB) (history : List Op) : Prop extends Serves db history where
  within : db.storage.persistedIndex ≤ db.raft.lastIndex
  behind : db.appliedIndex ≤ db.raft.commitIndex

/-- Between calls everything is stored, and what is committed is applied. -/
structure Idle (db : ReplicatedDB) (history : List Op) : Prop extends Serves db history where
  stored : db.storage.persistedIndex = db.raft.lastIndex
  applied : db.appliedIndex = db.raft.commitIndex

variable {db : ReplicatedDB} {history : List Op}

/-- A `Sync` stores what is missing, and keeps the node but for its watermarks. -/
theorem Serves.sync_file (h : Serves db history) {items : List Item}
    (file : Files db.storage items ((db.raft.log.drop 1).drop db.storage.persistedIndex) history) :
    ∃ items' storage, db.sync = (.ok,
        { raft := db.raft.saved
          storage
          table := tableOf history
          appliedIndex := db.raft.commitIndex }) ∧
      storage.persistedIndex = db.raft.lastIndex ∧ Files storage items' [] history ∧
      (journalState items').entries.length =
        (journalState items).entries.length + (db.raft.lastIndex - db.storage.persistedIndex) := by
  obtain ⟨storage, ready, persisted, contents, synced⟩ :=
    ReplicatedDB.sync_eq ⟨file.holds.aligned, file.holds.syncs⟩
  have length : (db.raft.log.drop 1).length = db.raft.lastIndex := List.length_drop
  have within := file.persisted
  rw [Raft.savedItems_kept h.nonempty h.stable] at contents
  obtain ⟨items', filed, size⟩ := file.saved ready db.raft contents (by
    rw [persisted, List.length_drop, length]
    omega)
  rw [h.table] at synced
  refine ⟨items', storage, synced, persisted, filed, ?_⟩
  rw [size, List.length_append, List.length_map, List.length_drop, length]

theorem Serves.sync (h : Serves db history) : db.sync.1 = .ok ∧ Idle db.sync.2 history := by
  obtain ⟨items, file⟩ := h.file
  obtain ⟨items', storage, synced, persisted, filed, -⟩ := h.sync_file file
  have nothing : (db.raft.log.drop 1).drop storage.persistedIndex = [] := by
    rw [persisted, Raft.drop_lastIndex]
  rw [synced]
  refine ⟨rfl, ⟨h.peers, h.leads, h.nonempty, h.commit, persisted.le, h.log, ⟨items', ?_⟩, ?_⟩,
    persisted, rfl⟩
  · exact nothing ▸ filed
  · show (db.raft.saved.entriesBetween db.raft.commitIndex db.raft.commitIndex).foldl _ _ = _
    rw [Raft.entriesBetween_self]
    rfl

theorem Idle.table_eq (h : Idle db history) : db.table = tableOf history := by
  have table := h.table
  rwa [h.applied, Raft.entriesBetween, Nat.sub_self] at table

/-- Between calls nothing is missing in the file. -/
theorem Idle.filed (h : Idle db history) : ∃ items, Files db.storage items [] history := by
  obtain ⟨items, file⟩ := h.file
  rw [h.stored, Raft.drop_lastIndex] at file
  exact ⟨items, file⟩

/-- The entries behind the cursor: the committed ones, then the others. -/
theorem Live.log_split (h : Live db history) : (db.raft.log.drop 1).drop db.appliedIndex =
    db.raft.entriesBetween db.appliedIndex db.raft.commitIndex ++
      (db.raft.log.drop 1).drop db.raft.commitIndex := by
  rw [← Raft.entriesBetween_last h.nonempty, ← Raft.entriesBetween_last h.nonempty,
    Raft.entriesBetween, Raft.entriesBetween, Raft.entriesBetween, ← List.map_append]
  have behind := h.behind
  have commit := h.commit
  rw [show db.raft.commitIndex + 1 =
      db.appliedIndex + 1 + 1 * (db.raft.commitIndex - db.appliedIndex) by omega,
    List.range'_append, show db.raft.commitIndex - db.appliedIndex +
      (db.raft.lastIndex - db.raft.commitIndex) = db.raft.lastIndex - db.appliedIndex by omega]

theorem Idle.live (h : Idle db history) : Live db history where
  toServes := h.toServes
  within := h.stored.le
  behind := h.applied.le

/-- A write before its `Sync`: what the session has not applied yet is the end
    of the log, and applying it again is harmless. -/
theorem Live.proposed (h : Live db history) {op : Op} (short : op.Short) :
    Live { db with raft := (db.raft.propose op.record).2 } (history ++ [op]) ∧
      (db.raft.propose op.record).2.commitIndex = (db.raft.propose op.record).2.lastIndex := by
  obtain ⟨items, file⟩ := h.file
  obtain ⟨e, data, index, proposed⟩ :=
    Raft.propose_single h.leads h.peers h.nonempty h.commit op.record
  generalize (db.raft.propose op.record).2 = r at proposed ⊢
  have log : r.log = db.raft.log ++ [e] := by rw [proposed]
  have last : r.lastIndex = db.raft.lastIndex + 1 := Raft.lastIndex_concat h.nonempty log
  have commit : r.commitIndex = r.lastIndex := by rw [last, proposed]
  have nonempty : r.log ≠ [] := by simp [log]
  have behind : r.log.drop 1 = db.raft.log.drop 1 ++ [e] := by
    rw [log, List.drop_append_of_le_length (List.length_pos_iff.mpr h.nonempty)]
  have length : (db.raft.log.drop 1).length = db.raft.lastIndex := List.length_drop
  have dropped {i : Nat} (le : i ≤ db.raft.lastIndex) :
      (r.log.drop 1).drop i = (db.raft.log.drop 1).drop i ++ [e] := by
    rw [behind, List.drop_append_of_le_length (by rwa [length])]
  have applied := h.behind.trans h.commit
  refine ⟨⟨⟨by rw [proposed]; exact h.peers, by rw [proposed]; exact h.leads, nonempty, commit.le,
    by rw [proposed]; exact h.stable, ?_, ⟨items, ?_⟩, ?_⟩, ?_, ?_⟩, commit⟩
  · rw [behind]
    exact h.log.concat data short
  · show Files db.storage items ((r.log.drop 1).drop db.storage.persistedIndex) _
    rw [dropped h.within]
    refine ⟨file.holds, ?_, ?_, file.persisted⟩
    · rw [← List.append_assoc]
      exact file.carries.concat data short
    · intro x member
      have persisted := file.persisted
      rw [← List.append_assoc] at member
      rw [List.length_append]
      rcases List.mem_append.mp member with old | new
      · have := file.indices x old
        omega
      · rw [List.mem_singleton.mp new, index, List.length_drop, length, List.length_singleton]
        omega
  · -- what was committed and not applied makes the table, the rest repeats its end
    show (r.entriesBetween db.appliedIndex r.commitIndex).foldl applyEntry db.table = _
    have table := h.table
    rw [commit, Raft.entriesBetween_last nonempty, dropped applied, List.foldl_append,
      h.log_split, List.foldl_append, table, h.log.apply_drop, tableOf_concat]
    exact applyEntry_op _ data short
  · show db.storage.persistedIndex ≤ r.lastIndex
    have := h.within
    omega
  · show db.appliedIndex ≤ r.commitIndex
    omega

/-- The node that `Open` elects has the log it recovered, and no commit index. -/
theorem rebuilt_raft (storage : RaftStorage) (id : NodeId) :
    ∃ r, (ReplicatedDB.rebuilt storage id [id]).raft.elected = r ∧ r.role = .leader ∧
      r.config.peers = [r.config.id] ∧ r.log = {} :: storage.recovered.entries ∧
      r.commitIndex = 0 ∧ r.stableIndex = storage.recovered.entries.length := by
  obtain ⟨_, _, _, elected⟩ := (ReplicatedDB.rebuilt storage id [id]).raft.elected_eq
  rw [elected]
  refine ⟨_, rfl, rfl, rfl, rfl, rfl, ?_⟩
  simp [ReplicatedDB.rebuilt, RaftStorage.recover, Raft.restore, Raft.new]

/-- `Open` rebuilds the table from the log and leaves a leader. -/
theorem Closed.rebuilt {file : WritableFile} {items : List Item} (h : Closed file items history)
    (id : NodeId) :
    ∃ storage, RaftStorage.openAt { file := some file } = .ok storage ∧
      storage.recovered = journalState items ∧
      Files storage items ((journalState items).entries.drop storage.persistedIndex) history ∧
      Serves { ReplicatedDB.rebuilt storage id [id] with
        raft := (ReplicatedDB.rebuilt storage id [id]).raft.elected } history := by
  obtain ⟨storage, found, whole, recovered, persisted⟩ :=
    @Journaled.openAt { raft := Raft.new {}, storage := { writer := Writer.new file 0 } } items
      h.toJournaled
  have within : storage.persistedIndex ≤ (journalState items).entries.length := by
    rw [persisted]
    cases last : (journalState items).entries.getLast? with
    | none => exact Nat.zero_le _
    | some e => exact h.indices e (List.mem_of_getLast? last)
  -- entries behind an index that wrapped will be stored once more
  have files : Files storage items ((journalState items).entries.drop storage.persistedIndex)
      history := by
    refine ⟨whole h.whole, h.carries.repeated storage.persistedIndex rfl, ?_, within⟩
    intro e member
    refine (h.indices e ?_).trans (Nat.le_add_right _ _)
    rcases List.mem_append.mp member with stored | again
    · exact stored
    · exact List.mem_of_mem_drop again
  obtain ⟨r, elected, leads, peers, log, commit, stable⟩ := rebuilt_raft storage id
  have behind : r.log.drop 1 = (journalState items).entries := by
    rw [log, recovered]
    rfl
  refine ⟨storage, found, recovered, files, ?_⟩
  rw [elected]
  refine ⟨peers, leads, by simp [log], ?_, ?_, ?_, ⟨items, ?_⟩, ?_⟩
  · rw [commit]
    exact Nat.zero_le _
  · rw [stable, recovered]
    exact within
  · rw [behind]
    exact h.carries
  · rw [behind]
    exact files
  · show (r.entriesBetween _ r.commitIndex).foldl applyEntry _ = _
    rw [commit, Raft.entriesBetween, Nat.zero_sub]
    show storage.recovered.entries.foldl applyEntry Table.empty = _
    rw [recovered]
    exact h.carries.apply

/-- An `Open` of a closed store, on a path where no call fails. -/
theorem Closed.opened {p : Place} {file : WritableFile} {items : List Item} (h : Closed file items history)
    (found : RaftStorage.openAt p = RaftStorage.openAt { file := some file }) (id : NodeId) :
    ∃ storage items' db, RaftStorage.openAt p = .ok storage ∧
      storage.recovered = journalState items ∧
      ReplicatedDB.openAt p id [id] = .ok db ∧ Idle db history ∧ db.raft.commitIndex = 0 ∧
      db.raft.log = {} :: (journalState items).entries ∧ Files db.storage items' [] history ∧
      (journalState items').entries.length = (journalState items).entries.length +
        ((journalState items).entries.length - storage.persistedIndex) := by
  obtain ⟨storage, isFound, recovered, files, serves⟩ := h.rebuilt id
  have isOpen := @ReplicatedDB.openAt_single p storage [id] id (found.trans isFound)
    ⟨files.holds.aligned, files.holds.syncs⟩ rfl
  obtain ⟨r, elected, -, -, log, commit, -⟩ := rebuilt_raft storage id
  rw [elected] at serves isOpen
  have behind : r.log = {} :: (journalState items).entries := by rw [log, recovered]
  have last : r.lastIndex = (journalState items).entries.length := by
    rw [Raft.lastIndex, behind]
    rfl
  have idle := serves.sync.2
  have missing : Files storage items ((r.log.drop 1).drop storage.persistedIndex) history := by
    rw [behind]
    exact files
  obtain ⟨items', storage', synced, -, filed, size⟩ := serves.sync_file missing
  rw [synced] at isOpen idle
  refine ⟨storage, items', _, found.trans isFound, recovered, isOpen, idle, commit, behind, filed, ?_⟩
  rw [size, last]
  rfl

/-- The file of a store that was never opened. -/
theorem Closed.empty : Closed {} [] [] where
  toJournaled := (Stored.fresh {}).holds.toJournaled
  whole := (Stored.fresh {}).holds.whole
  carries := Carries.nil
  indices := by simp [journalState]

theorem openAt_missing : RaftStorage.openAt {} = RaftStorage.openAt { file := some {} } := by
  have missing : ({} : Place).Sound := ⟨rfl, rfl, rfl, rfl, rfl, rfl, rfl⟩
  have empty : ({ file := some {} } : Place).Sound := ⟨rfl, rfl, rfl, rfl, rfl, rfl, rfl⟩
  rw [RaftStorage.openAt_eq missing, RaftStorage.openAt_eq empty]
  rfl

/-! ## Sessions -/

namespace ReplicatedDB

/-- The path of the log. -/
def place (db : ReplicatedDB) : Place := { file := some db.storage.writer.dest }

/-- Close the store and open it again. -/
def reopen (id : NodeId) (db : ReplicatedDB) : Status × ReplicatedDB :=
  match openAt db.place id [id] with
  | .ok db' => (.ok, db')
  | .error s => (s, db)

def serve (id : NodeId) (db : ReplicatedDB) (request : Request) : Answer × ReplicatedDB :=
  match request with
  | .put key value => (.status (db.put key value).1, (db.put key value).2)
  | .delete key => (.status (db.delete key).1, (db.delete key).2)
  | .get key => (.value (db.get key), db)
  | .reopen => (.status (db.reopen id).1, (db.reopen id).2)

end ReplicatedDB

/-- The encoded command is shorter than 2^32 bytes. -/
def Request.Short (request : Request) : Prop := ∀ op ∈ request.ops, op.Short

instance (request : Request) : Decidable request.Short := inferInstanceAs (Decidable (∀ _ ∈ _, _))

namespace Idle

theorem write (h : Idle db history) {op : Op} (short : op.Short) :
    (db.write op.record).1 = .ok ∧ Idle (db.write op.record).2 (history ++ [op]) := by
  rw [ReplicatedDB.write_leader h.leads]
  exact (h.live.proposed short).1.sync

theorem fresh (id : NodeId) : ∃ db, ReplicatedDB.openAt {} id [id] = .ok db ∧ Idle db [] := by
  obtain ⟨-, -, db, -, -, isOpen, idle, -⟩ := Closed.empty.opened openAt_missing id
  exact ⟨db, isOpen, idle⟩

theorem openAt (h : Idle db history) (id : NodeId) :
    ∃ db', ReplicatedDB.openAt db.place id [id] = .ok db' ∧ Idle db' history := by
  obtain ⟨items, files⟩ := h.filed
  obtain ⟨-, -, db', -, -, isOpen, idle, -⟩ := files.closed.opened rfl id
  exact ⟨db', isOpen, idle⟩

/-- One request is answered as the map answers it. -/
theorem serve (h : Idle db history) (id : NodeId) {request : Request} (short : request.Short) :
    (db.serve id request).1 = (mapServe history request).1 ∧
      Idle (db.serve id request).2 (mapServe history request).2 := by
  cases request with
  | put key value =>
      obtain ⟨ok, idle⟩ := h.write (short _ List.mem_cons_self)
      exact ⟨congrArg Answer.status ok, idle⟩
  | delete key =>
      obtain ⟨ok, idle⟩ := h.write (short _ List.mem_cons_self)
      exact ⟨congrArg Answer.status ok, idle⟩
  | get key =>
      refine ⟨?_, h⟩
      simp only [ReplicatedDB.serve, ReplicatedDB.get, mapServe, h.table_eq, tableOf_key]
      cases lastPut history key <;> rfl
  | reopen =>
      obtain ⟨db', opened, idle⟩ := h.openAt id
      have reopened : db.reopen id = (.ok, db') := by rw [ReplicatedDB.reopen, opened]
      simp only [ReplicatedDB.serve, reopened, mapServe, Request.ops, List.append_nil]
      exact ⟨trivial, idle⟩

end Idle

/-- Over any sessions a store that is its whole cluster is the leader and
    answers as the map does. -/
theorem replicated_refines_map (id : NodeId) (requests : List Request)
    (short : ∀ request ∈ requests, request.Short) :
    ∃ db, ReplicatedDB.openAt {} id [id] = .ok db ∧
      (answers (ReplicatedDB.serve id) db requests).1 = (answers mapServe [] requests).1 ∧
      ∀ before, before <+: requests →
        (answers (ReplicatedDB.serve id) db before).2.isLeader = true := by
  obtain ⟨db, opened, idle⟩ := Idle.fresh id
  have follows : ∀ before, before <+: requests →
      (answers (ReplicatedDB.serve id) db before).1 = (answers mapServe [] before).1 ∧
        Idle (answers (ReplicatedDB.serve id) db before).2 (answers mapServe [] before).2 := by
    intro before inside
    refine answers_sim (ReplicatedDB.serve id) mapServe Idle idle ?_
    intro earlier request step h
    exact h.serve id (short request (mem_of_step (step.trans inside)))
  refine ⟨db, opened, (follows requests List.prefix_rfl).1, ?_⟩
  intro before inside
  simp [ReplicatedDB.isLeader, (follows before inside).2.leads]

theorem replicated_refines_map_threeSessions :
    ∃ db, ReplicatedDB.openAt {} 1 [1] = .ok db ∧
      (answers (ReplicatedDB.serve 1) db threeSessions).1 =
        [.status .ok, .status .ok, .status .ok, .value (.ok [2]), .status .ok, .status .ok,
          .value (lookup [1] none), .status .ok, .value (.ok []), .value (.ok [3])] := by
  obtain ⟨db, opened, same, -⟩ := replicated_refines_map 1 threeSessions (by decide)
  exact ⟨db, opened, same⟩

end MiniLsm
