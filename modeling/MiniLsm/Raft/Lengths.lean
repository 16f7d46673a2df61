import MiniLsm.Raft.ReplicatedDb

/-! # Lengths that have no room in their field

The encoders store a size in 32 bits and append all the bytes. A key, a value or
a command of 4 GiB is written whole, and decoded for what its length field tells.
-/

namespace MiniLsm

open Wal

/-- An operation is decoded to what was encoded. The value of a delete is not
    stored. -/
def RecordKept (type : UInt8) (key value : Bytes) : Prop :=
  ∃ stored, decodeRecord (encodeRecord type key value) = some (type, key, stored) ∧
    (type = kTypePut → stored = value)

def CommandKept (type : UInt8) (key value : Bytes) : Prop :=
  ∃ stored, decodeCommand (encodeCommand type key value) = some (type, key, stored) ∧
    (type = kPut → stored = value)

/-- Replaying the record of an entry gets it back. -/
def EntryKept (e : LogEntry) : Prop :=
  ∀ state : Recovered,
    state.replay (entryRecord e) = { state with entries := state.entries ++ [e] }

/-- The file of a node that saved once. -/
def firstSave (raft : Raft) : WritableFile :=
  (RaftStorage.save { writer := Writer.new {} 0 } raft).2.1.writer.dest

/-- Replaying the file gets the log back. -/
def LogKept (raft : Raft) : Prop :=
  ∃ recovered, RaftStorage.replayFile { file := some (firstSave raft) } = .ok recovered ∧
    recovered.entries = raft.log.drop 1

theorem recordKept_iff (type : UInt8) (key value : Bytes) :
    RecordKept type key value ↔
      key.length < UInt32.size ∧ (type = kTypePut → value.length < UInt32.size) := by
  constructor
  · rintro ⟨stored, decoded, same⟩
    obtain ⟨smallKey, smallValue, -⟩ := decodeRecord_some decoded
    exact ⟨smallKey, fun put => same put ▸ smallValue⟩
  · rintro ⟨smallKey, smallValue⟩
    by_cases put : type = kTypePut
    · refine ⟨value, ?_, fun _ => rfl⟩
      rw [decodeRecord_encodeRecord type smallKey (smallValue put), if_pos put]
    · have bare : encodeRecord type key value = encodeRecord type key [] := by
        simp [encodeRecord, put]
      refine ⟨[], ?_, fun isPut => absurd isPut put⟩
      rw [bare, decodeRecord_encodeRecord type smallKey (by decide), if_neg put]

/-- The size of a put's command. -/
theorem encodeCommand_length (key value : Bytes) :
    (encodeCommand kPut key value).length = key.length + value.length + 9 := by
  have put : encodeCommand kPut key value =
      [kPut] ++ encodeSize key.length ++ key ++ (encodeSize value.length ++ value) := rfl
  rw [put]
  simp only [List.length_append, List.length_cons, List.length_nil, encodeSize_length]
  omega

theorem entryKept_iff {e : LogEntry} (term : e.term < UInt64.size) (index : e.index < UInt64.size) :
    EntryKept e ↔ e.data.length < UInt32.size := by
  rw [← LogEntry.cut_eq_iff]
  constructor
  · intro kept
    have entries := congrArg Recovered.entries (kept {})
    rw [replay_entryRecord _ term index] at entries
    simpa using entries
  · intro same state
    rw [replay_entryRecord state term index, same]

/-! ## A whole log -/

/-- The record of a hard state adds no entry. -/
theorem replay_hardStateRecord_entries (state : Recovered) (term : Nat) (vote : NodeId) :
    (state.replay (hardStateRecord term vote)).entries = state.entries := by
  rw [hardStateRecord, List.cons_append, List.cons_append, Recovered.replay]
  simp only [if_true]
  split <;> rfl

theorem replay_entryRecords (entries : List LogEntry) (state : Recovered)
    (numbers : ∀ e ∈ entries, e.term < UInt64.size ∧ e.index < UInt64.size) :
    ((entries.map entryRecord).foldl Recovered.replay state).entries =
      state.entries ++ entries.map LogEntry.cut := by
  induction entries generalizing state with
  | nil => simp
  | cons e later ih =>
      rw [List.forall_mem_cons] at numbers
      rw [List.map_cons, List.foldl_cons, replay_entryRecord state numbers.1.1 numbers.1.2,
        ih _ numbers.2, List.append_assoc]
      rfl

/-- What is recovered of a log that was saved. -/
theorem replayFile_saved {raft : Raft} (nonempty : raft.log ≠ [])
    (numbers : ∀ e ∈ raft.log.drop 1, e.term < UInt64.size ∧ e.index < UInt64.size) :
    ∃ recovered, RaftStorage.replayFile { file := some (firstSave raft) } = .ok recovered ∧
      recovered.entries = (raft.log.drop 1).map LogEntry.cut := by
  have aligned : (Writer.new {} 0).Aligned := @Writer.new_aligned {} rfl
  obtain ⟨w, added, saved⟩ := @RaftStorage.save_eq { writer := Writer.new {} 0 } aligned raft
  have contents : (firstSave raft).contents =
      encode (fragmentsAll 0 ((RaftStorage.savedItems raft 0).map Item.record)) := by
    rw [encode_fragmentsAll, firstSave, saved]
    have written := congrArg WritableFile.contents added.dest
    split <;> exact (WritableFile.sync_contents _).trans written
  have chain := fragmentsAll_chain 0 ((RaftStorage.savedItems raft 0).map Item.record)
  have records := recordsOf_chain chain (encode (fragmentsAll 0
    ((RaftStorage.savedItems raft 0).map Item.record))).length
  rw [List.take_length, whole_all, collect_fragmentsAll, ← contents] at records
  refine ⟨_, rfl, ?_⟩
  show ((recordsOf (firstSave raft).contents).foldl Recovered.replay {}).entries = _
  have items : RaftStorage.savedItems raft 0 =
      RaftStorage.hardStateItems raft ++ (raft.log.drop 1).map Item.entry := by
    rw [RaftStorage.savedItems, RaftStorage.truncationItems, if_neg (Nat.not_lt_zero _),
      List.append_nil, Nat.zero_min, RaftStorage.entriesFrom_eq nonempty]
  have entryRecords : ((raft.log.drop 1).map Item.entry).map Item.record =
      (raft.log.drop 1).map entryRecord := List.map_map
  rw [records, items, List.map_append, List.foldl_append, entryRecords,
    replay_entryRecords _ _ numbers, RaftStorage.hardStateItems]
  cases raft.hardStateDirty with
  | false => rfl
  | true =>
      simp only [if_true, List.map_cons, List.map_nil, List.foldl_cons, List.foldl_nil, Item.record,
        replay_hardStateRecord_entries]
      rfl

theorem logKept_iff {raft : Raft} (nonempty : raft.log ≠ [])
    (numbers : ∀ e ∈ raft.log.drop 1, e.term < UInt64.size ∧ e.index < UInt64.size) :
    LogKept raft ↔ ∀ e ∈ raft.log.drop 1, e.data.length < UInt32.size := by
  obtain ⟨recovered, replayed, entries⟩ := replayFile_saved nonempty numbers
  have uncut : (raft.log.drop 1).map LogEntry.cut = raft.log.drop 1 ↔
      ∀ e ∈ raft.log.drop 1, e.data.length < UInt32.size := by
    rw [← List.map_id (raft.log.drop 1), List.map_map, List.map_inj_left, List.map_id]
    exact forall₂_congr fun _ _ => LogEntry.cut_eq_iff
  constructor
  · rintro ⟨recovered', replayed', same⟩
    obtain rfl : recovered' = recovered := Except.ok.inj (replayed'.symm.trans replayed)
    exact uncut.mp (entries.symm.trans same)
  · intro fits
    exact ⟨recovered, replayed, entries.trans (uncut.mpr fits)⟩

/-- Everything is got back as it was written if and only if every length has room
    in its field. -/
theorem lengths_kept_iff (type : UInt8) (key value : Bytes) (e : LogEntry) (raft : Raft)
    (term : e.term < UInt64.size) (index : e.index < UInt64.size) (nonempty : raft.log ≠ [])
    (numbers : ∀ e ∈ raft.log.drop 1, e.term < UInt64.size ∧ e.index < UInt64.size) :
    (RecordKept type key value ↔
      key.length < UInt32.size ∧ (type = kTypePut → value.length < UInt32.size)) ∧
    (CommandKept type key value ↔
      key.length < UInt32.size ∧ (type = kPut → value.length < UInt32.size)) ∧
    (EntryKept e ↔ e.data.length < UInt32.size) ∧
    (LogKept raft ↔ ∀ e ∈ raft.log.drop 1, e.data.length < UInt32.size) :=
  ⟨recordKept_iff _ _ _, recordKept_iff _ _ _, entryKept_iff term index,
    logKept_iff nonempty numbers⟩

theorem lengths_kept_iff_short :
    RecordKept kTypePut [1] [2, 3] ∧ CommandKept kTypePut [1] [2, 3] ∧
      EntryKept { term := 3, index := 1, data := [7] } ∧
      LogKept { config := {}, log := [{ term := 0, index := 0 }, { term := 3, index := 1 }] } := by
  obtain ⟨record, command, entry, log⟩ := lengths_kept_iff kTypePut [1] [2, 3]
    { term := 3, index := 1, data := [7] }
    { config := {}, log := [{ term := 0, index := 0 }, { term := 3, index := 1 }] }
    (by decide) (by decide) (by decide) (by decide)
  exact ⟨record.mpr (by decide), command.mpr (by decide), entry.mpr (by decide),
    log.mpr (by decide)⟩

/-- A key and a value of 4 GiB are cut, and so is a command of two fields that
    each have room. -/
theorem long_lengths_cut :
    ¬ RecordKept kTypeDelete (List.replicate UInt32.size 0) [] ∧
      ¬ RecordKept kTypePut [] (List.replicate UInt32.size 0) ∧
      ¬ CommandKept kDelete (List.replicate UInt32.size 0) [] ∧
      CommandKept kPut (List.replicate 0x80000000 0) (List.replicate 0x80000000 0) ∧
      ¬ EntryKept
        { term := 1, index := 1
          data := encodeCommand kPut (List.replicate 0x80000000 0) (List.replicate 0x80000000 0) } := by
  have half : 0x80000000 < UInt32.size := by decide
  refine ⟨?_, ?_, ?_, ?_, ?_⟩
  · rw [recordKept_iff, List.length_replicate]
    exact fun kept => Nat.lt_irrefl _ kept.1
  · rw [recordKept_iff, List.length_replicate]
    exact fun kept => Nat.lt_irrefl _ (kept.2 rfl)
  · intro kept
    have fits := ((recordKept_iff _ _ _).mp kept).1
    rw [List.length_replicate] at fits
    exact Nat.lt_irrefl _ fits
  · refine (recordKept_iff _ _ _).mpr ?_
    rw [List.length_replicate]
    exact ⟨half, fun _ => half⟩
  · rw [entryKept_iff (by decide) (by decide), encodeCommand_length, List.length_replicate]
    decide

end MiniLsm
