import MiniLsm.Raft.Journal
import MiniLsm.Db.Core

/-! # The replicated key-value store

`src/raft/replicated_db.cc`: writes are commands of a Raft log, applied to the
table once they are committed. The cursor `applied_index_` of this layer is not
the one of `TakeCommitted`.
-/

namespace MiniLsm

/-! ## Commands -/

/-- The values of `enum CommandType : uint8_t`. -/
def kDelete : UInt8 := 0

def kPut : UInt8 := 1

/-- The layout is the one of `EncodeRecord`. -/
def encodeCommand (type : UInt8) (key value : Bytes) : Bytes := encodeRecord type key value

def decodeCommand (record : Bytes) : Option (UInt8 × Bytes × Bytes) := decodeRecord record

/-- A record is decoded to what its first bytes are the encoding of. Bytes behind
    the encoding are ignored, and a tag that is not that of a put is laid out as a
    delete, whichever it is. -/
theorem decoders_accept (record : Bytes) :
    (∀ type key value, decodeRecord record = some (type, key, value) ↔
      key.length < UInt32.size ∧ value.length < UInt32.size ∧ (type ≠ kTypePut → value = []) ∧
        ∃ rest, record = encodeRecord type key value ++ rest) ∧
    (∀ type key value, decodeCommand record = some (type, key, value) ↔
      key.length < UInt32.size ∧ value.length < UInt32.size ∧ (type ≠ kPut → value = []) ∧
        ∃ rest, record = encodeCommand type key value ++ rest) ∧
    decodeCommand record = decodeRecord record :=
  ⟨fun _ _ _ => decodeRecord_eq_some_iff, fun _ _ _ => decodeRecord_eq_some_iff, rfl⟩

/-- A delete with a byte behind it, and a tag that no encoder writes. -/
theorem decoders_accept_more :
    (decodeRecord [0, 0, 0, 0, 0, 9] = some (kTypeDelete, [], []) ∧
      [0, 0, 0, 0, 0, 9] ≠ encodeRecord kTypeDelete [] []) ∧
    (decodeRecord [7, 0, 0, 0, 0] = some (7, [], []) ∧
      ¬ ((7 : UInt8) = kTypeDelete ∨ (7 : UInt8) = kTypePut)) ∧
    (decodeCommand [0, 0, 0, 0, 0, 9] = some (kDelete, [], []) ∧
      [0, 0, 0, 0, 0, 9] ≠ encodeCommand kDelete [] []) ∧
    (decodeCommand [7, 0, 0, 0, 0] = some (7, [], []) ∧
      ¬ ((7 : UInt8) = kDelete ∨ (7 : UInt8) = kPut)) := by
  decide

/-- One iteration of the loops of `Open` and `ApplyCommitted`. -/
def applyEntry (table : Table) (e : LogEntry) : Table :=
  match decodeCommand e.data with
  | some (type, key, value) =>
      if type = kPut then fun k => if k = key then some value else table k
      else fun k => if k = key then none else table k
  | none => table

/-! ## The election of a single node -/

namespace Raft

variable {r : Raft}

/-- A candidate that is its own majority. -/
def elected (r : Raft) : Raft :=
  becomeLeader { r with
    currentTerm := r.currentTerm + 1
    votedFor := r.config.id
    hardStateDirty := true
    role := .candidate
    leader := 0
    electionElapsed := 0
    votesGranted := [r.config.id] }

/-- The election changes neither the log nor what is known of it. -/
theorem elected_eq (r : Raft) : ∃ nextIndex matchIndex outMsgs, r.elected = { r with
    currentTerm := r.currentTerm + 1
    votedFor := r.config.id
    hardStateDirty := true
    role := .leader
    leader := r.config.id
    electionElapsed := 0
    heartbeatElapsed := 0
    votesGranted := [r.config.id]
    nextIndex, matchIndex, outMsgs } := by
  rw [elected, becomeLeader, resetProgress_eq, broadcastAppendEntries_eq]
  exact ⟨_, _, _, rfl⟩

/-- A node that is the whole cluster waits, or elects itself. -/
theorem tick_single (single : r.config.peers.length = 1) (role : r.role ≠ .leader) :
    (r.electionElapsed + 1 < r.config.electionTimeout ∧
        r.tick = { r with electionElapsed := r.electionElapsed + 1 }) ∨
      r.tick = r.elected := by
  rw [tick, if_neg role]
  dsimp only
  split
  · right
    rw [becomeCandidate]
    exact if_pos (by simp [quorumSize, single])
  · rename_i early
    exact Or.inl ⟨Int.not_le.mp early, rfl⟩

/-- `while (raft.role() != Role::kLeader) raft.Tick();`, where the node is the
    whole cluster. -/
def tickUntilLeader (r : Raft) (single : r.config.peers.length = 1) : Raft :=
  if role : r.role = .leader then r
  else
    tickUntilLeader r.tick (by
      obtain ⟨_, _, _, elected⟩ := r.elected_eq
      rcases tick_single single role with ⟨-, same⟩ | same
      · rwa [same]
      · rwa [same, elected])
termination_by if r.role = .leader then 0
  else (r.config.electionTimeout - r.electionElapsed).toNat + 1
decreasing_by
  obtain ⟨_, _, _, elected⟩ := r.elected_eq
  rcases tick_single single role with ⟨early, same⟩ | same
  · simp only [same, role, if_false]
    omega
  · simp [same, elected, role]

/-- A node whose timer is due becomes the leader at once. -/
theorem tickUntilLeader_due (single : r.config.peers.length = 1) (role : r.role ≠ .leader)
    (due : r.config.electionTimeout ≤ r.electionElapsed + 1) :
    r.tick = r.elected ∧ r.tickUntilLeader single = r.elected := by
  obtain ⟨_, _, _, isLeader⟩ := r.elected_eq
  have same : r.tick = r.elected := by
    rcases tick_single single role with ⟨early, -⟩ | same
    · omega
    · exact same
  have leads : r.tick.role = .leader := by rw [same, isLeader]
  refine ⟨same, ?_⟩
  rw [tickUntilLeader, dif_neg role, tickUntilLeader, dif_pos leads, same]

/-- The entries behind one index up to another. -/
def entriesBetween (r : Raft) (applied upto : Nat) : List LogEntry :=
  (List.range' (applied + 1) (upto - applied)).map r.entryAt

@[simp] theorem entriesBetween_self (r : Raft) (i : Nat) : r.entriesBetween i i = [] := by
  simp [entriesBetween]

/-- A node after a `Save`. -/
def saved (r : Raft) : Raft := { r with hardStateDirty := false, stableIndex := r.lastIndex }

end Raft

/-! ## The store -/

structure ReplicatedDB where
  raft : Raft
  storage : RaftStorage
  table : Table := Table.empty
  /-- The last entry whose command is in the table. -/
  appliedIndex : Nat := 0

namespace ReplicatedDB

def isLeader (db : ReplicatedDB) : Bool := db.raft.role = .leader

/-- The cursor may also move back, to a commit index that a restart forgot. -/
def applyCommitted (db : ReplicatedDB) : ReplicatedDB :=
  let pending := db.raft.entriesBetween db.appliedIndex db.raft.commitIndex
  { db with table := pending.foldl applyEntry db.table, appliedIndex := db.raft.commitIndex }

/-- Durable before visible. -/
def sync (db : ReplicatedDB) : Status × ReplicatedDB :=
  let (s, storage, raft) := db.storage.save db.raft
  let db := { db with storage, raft }
  if s.isOk then (.ok, db.applyCommitted) else (s, db)

/-- The body of `Put` and `Delete`. -/
def write (db : ReplicatedDB) (command : Bytes) : Status × ReplicatedDB :=
  if !db.isLeader then (.invalidArgument "not leader", db)
  else { db with raft := (db.raft.propose command).2 }.sync

def put (db : ReplicatedDB) (key value : Bytes) : Status × ReplicatedDB :=
  db.write (encodeCommand kPut key value)

def delete (db : ReplicatedDB) (key : Bytes) : Status × ReplicatedDB :=
  db.write (encodeCommand kDelete key [])

def get (db : ReplicatedDB) (key : Bytes) : Except Status Bytes :=
  match db.table key with
  | some value => .ok value
  | none => .error (.notFound (String.ofList (key.map fun b => Char.ofNat b.toNat)))

/-- The store that `Open` rebuilds from what the storage recovered. -/
def rebuilt (storage : RaftStorage) (id : NodeId) (peers : List NodeId) : ReplicatedDB :=
  let (hs, entries) := storage.recover
  let config : Config := { id, peers, electionTimeout := 1 }
  { raft := (Raft.new config).restore hs.term hs.vote entries
    storage
    table := entries.foldl applyEntry Table.empty
    appliedIndex := (entries.getLast?.map LogEntry.index).getD 0 }

/-- `ReplicatedDB::Open`, on the log at a path. A single node elects itself. -/
def openAt (p : Place) (id : NodeId) (peers : List NodeId) : Except Status ReplicatedDB := do
  let storage ← RaftStorage.openAt p
  let db := rebuilt storage id peers
  if single : peers.length = 1 then
    let (s, db) := { db with raft := db.raft.tickUntilLeader single }.sync
    if s.isOk then return db else throw s
  else return db

end ReplicatedDB

/-! ## Without an error of the file -/

/-- A storage on a file whose coming calls succeed. -/
structure RaftStorage.Ready (st : RaftStorage) : Prop where
  aligned : st.writer.Aligned
  syncs : st.writer.dest.syncFaults = []

theorem RaftStorage.Ready.save {st : RaftStorage} (h : st.Ready) (raft : Raft) :
    ∃ st', st.save raft = (.ok, st', raft.saved) ∧ st'.Ready ∧
      st'.persistedIndex = raft.lastIndex ∧
      st'.writer.dest.contents = st.writer.dest.contents ++
        Wal.encodedAll st.writer.dest.contents.length
          ((savedItems raft st.persistedIndex).map Item.record) := by
  obtain ⟨w, added, saved⟩ := RaftStorage.save_eq h.aligned raft
  have syncs : w.dest.syncFaults = [] := by
    rw [added.dest]
    exact h.syncs
  have synced := WritableFile.Sound.sync ⟨added.aligned.appends, syncs⟩
  rw [synced] at saved
  refine ⟨_, saved, ⟨⟨added.aligned.appends, added.aligned.bound, added.aligned.cursor⟩, syncs⟩,
    rfl, ?_⟩
  exact congrArg WritableFile.contents added.dest

namespace ReplicatedDB

variable {db : ReplicatedDB}

theorem sync_eq (ready : db.storage.Ready) :
    ∃ storage, storage.Ready ∧ storage.persistedIndex = db.raft.lastIndex ∧
      storage.writer.dest.contents = db.storage.writer.dest.contents ++
        Wal.encodedAll db.storage.writer.dest.contents.length
          ((RaftStorage.savedItems db.raft db.storage.persistedIndex).map Item.record) ∧
      db.sync = (.ok,
        { raft := db.raft.saved
          storage
          table := (db.raft.entriesBetween db.appliedIndex db.raft.commitIndex).foldl applyEntry
            db.table
          appliedIndex := db.raft.commitIndex }) := by
  obtain ⟨storage, saved, ready', persisted, contents⟩ := ready.save db.raft
  refine ⟨storage, ready', persisted, contents, ?_⟩
  rw [sync, saved]
  rfl

theorem write_leader (leads : db.raft.role = .leader) (command : Bytes) :
    db.write command = { db with raft := (db.raft.propose command).2 }.sync := by
  simp [write, isLeader, leads]

theorem write_other (role : db.raft.role ≠ .leader) (command : Bytes) :
    db.write command = (.invalidArgument "not leader", db) := by
  simp [write, isLeader, role]

theorem openAt_several {p : Place} {storage : RaftStorage} {peers : List NodeId} (id : NodeId)
    (opened : RaftStorage.openAt p = .ok storage) (several : peers.length ≠ 1) :
    openAt p id peers = .ok (rebuilt storage id peers) := by
  simp only [openAt, opened, dif_neg several]
  rfl

/-- The election timer of a rebuilt store is due. -/
theorem rebuilt_elected (storage : RaftStorage) (id : NodeId) {peers : List NodeId}
    (single : peers.length = 1) :
    (rebuilt storage id peers).raft.tick = (rebuilt storage id peers).raft.elected ∧
      (rebuilt storage id peers).raft.tickUntilLeader single =
        (rebuilt storage id peers).raft.elected :=
  Raft.tickUntilLeader_due single (by simp [rebuilt, Raft.restore, Raft.new])
    (by simp [rebuilt, Raft.restore, Raft.new])

theorem openAt_single {p : Place} {storage : RaftStorage} {peers : List NodeId} (id : NodeId)
    (opened : RaftStorage.openAt p = .ok storage) (ready : storage.Ready)
    (single : peers.length = 1) :
    openAt p id peers = .ok { rebuilt storage id peers with
      raft := (rebuilt storage id peers).raft.elected }.sync.2 := by
  have ok : ({ rebuilt storage id peers with
      raft := (rebuilt storage id peers).raft.elected }.sync).1 = .ok := by
    obtain ⟨_, -, -, -, synced⟩ := @sync_eq
      { rebuilt storage id peers with raft := (rebuilt storage id peers).raft.elected } ready
    rw [synced]
  rw [openAt, opened]
  simp only [bind, Except.bind, dif_pos single, (rebuilt_elected storage id single).2, ok,
    Status.isOk_ok, if_true]
  rfl

end ReplicatedDB

end MiniLsm
