import MiniLsm.Raft.Safety
import MiniLsm.Raft.ReplicatedDb

/-! # Replicas of the store

A cluster whose nodes are stores. Its Raft nodes run as in `Raft.Cluster`, so
the protocol history of the cluster carries over; the commands a store has
applied are a committed prefix of its log.
-/

namespace MiniLsm

open Consensus

inductive ReplicaEvent where
  | put (id : NodeId) (key value : Bytes)
  | delete (id : NodeId) (key : Bytes)
  | tick (id : NodeId)
  | deliver (msg : Message)
  | sync (id : NodeId)
  deriving Repr, DecidableEq

/-- The node at which an event happens. -/
def ReplicaEvent.at : ReplicaEvent → NodeId
  | .put id _ _ | .delete id _ | .tick id | .sync id => id
  | .deliver msg => msg.toNode

structure Replicas where
  node : NodeId → ReplicatedDB
  /-- Every message ever emitted. -/
  sent : List Message
  /-- The entries that `ApplyCommitted` went through on a node, in order. -/
  applied : NodeId → List LogEntry

namespace Replicas

/-- Install the state after an operation and emit what it queued. -/
def update (c : Replicas) (id : NodeId) (db : ReplicatedDB) : Replicas where
  node := fun n => if n = id then { db with raft := db.raft.takeMessages.2 } else c.node n
  sent := c.sent ++ db.raft.takeMessages.1
  applied := fun n =>
    if n = id then c.applied n ++ db.raft.entriesBetween (c.node n).appliedIndex db.appliedIndex
    else c.applied n

/-- An event at a member. Delivering a message that was never emitted does
    nothing. -/
def next (c : Replicas) : ReplicaEvent → Replicas
  | .put id key value => c.update id ((c.node id).put key value).2
  | .delete id key => c.update id ((c.node id).delete key).2
  | .tick id => c.update id { c.node id with raft := (c.node id).raft.tick }
  | .deliver msg =>
      if msg ∈ c.sent then
        c.update msg.toNode
          { c.node msg.toNode with raft := (c.node msg.toNode).raft.step msg }
      else c
  | .sync id => c.update id (c.node id).sync.2

/-- One step: an event at an id outside the membership does nothing. -/
def step (peers : List NodeId) (c : Replicas) (e : ReplicaEvent) : Replicas :=
  if e.at ∈ peers then c.next e else c

/-- Stores as `Open` returned them. -/
def start (opened : NodeId → ReplicatedDB) : Replicas where
  node := opened
  sent := []
  applied := fun _ => []

/-- The state after the first `k` events of a run. -/
def moment (peers : List NodeId) (opened : NodeId → ReplicatedDB) (events : List ReplicaEvent)
    (k : Nat) : Replicas :=
  (events.take k).foldl (step peers) (start opened)

/-- The cluster of the nodes below the stores. -/
def cluster (c : Replicas) : Cluster where
  node := fun n => (c.node n).raft
  sent := c.sent
  taken := fun _ => []

theorem cluster_update (c : Replicas) (id : NodeId) (db : ReplicatedDB) :
    (c.update id db).cluster = c.cluster.update id db.raft := by
  simp only [cluster, update, Cluster.update, Cluster.mk.injEq, and_true]
  funext n
  split <;> rfl

end Replicas

/-! ## Commands -/

/-- The commands of entries; one that does not decode is skipped. -/
def commands (entries : List LogEntry) : List (UInt8 × Bytes × Bytes) :=
  entries.filterMap fun e => decodeCommand e.data

def applyCommand (table : Table) : UInt8 × Bytes × Bytes → Table
  | (type, key, value) => DB.apply table type key value

theorem foldl_applyEntry (entries : List LogEntry) (table : Table) :
    entries.foldl applyEntry table = (commands entries).foldl applyCommand table := by
  induction entries generalizing table with
  | nil => rfl
  | cons e later ih =>
      rw [List.foldl_cons, ih, applyEntry, commands, commands, List.filterMap_cons]
      cases decodeCommand e.data with
      | none => rfl
      | some command => rfl

/-- Entries `1..applied_index_` of the log. -/
def ReplicatedDB.appliedLog (db : ReplicatedDB) : List LogEntry :=
  (db.raft.log.drop 1).take db.appliedIndex

/-! ## One operation -/

/-- What an operation of a store may do: its node takes protocol actions, and
    the cursor stays or moves to the commit index. -/
structure Advances (M : Membership) (s : History) (n : NodeId) (db db' : ReplicatedDB) : Prop where
  reaches : Reaches M s n db'.raft
  lastApplied : db'.raft.lastApplied = db.raft.lastApplied
  ready : db'.storage.Ready
  cursor : db'.appliedIndex = db.appliedIndex ∨ db'.appliedIndex = db'.raft.commitIndex
  table : db'.table =
    (db'.raft.entriesBetween db.appliedIndex db'.appliedIndex).foldl applyEntry db.table

section Operations

variable {M : Membership} {s s' : History} {n : NodeId} {r : Raft} {db : ReplicatedDB}

/-- `Save` only touches what the protocol does not see. -/
theorem NodeSim.saved (h : NodeSim M s n r) : NodeSim M s n r.saved :=
  h.unseen rfl h.applied h.lastIndex.le h.out

theorem Reaches.saved (h : Reaches M s n r) : Reaches M s n r.saved := by
  obtain ⟨s', acts, there⟩ := h
  exact ⟨s', acts, there.stays there.node.saved⟩

theorem raft_advances (reaches : Reaches M s n r) (same : r.lastApplied = db.raft.lastApplied)
    (ready : db.storage.Ready) : Advances M s n db { db with raft := r } :=
  ⟨reaches, same, ready, Or.inl rfl, by simp⟩

theorem sync_advances (reaches : Reaches M s n r) (same : r.lastApplied = db.raft.lastApplied)
    (ready : db.storage.Ready) : Advances M s n db { db with raft := r }.sync.2 := by
  obtain ⟨storage, ready', -, -, synced⟩ := @ReplicatedDB.sync_eq { db with raft := r } ready
  rw [synced]
  exact ⟨reaches.saved, same, ready', Or.inr rfl, rfl⟩

theorem write_advances (h : Local M s n db.raft) (ready : db.storage.Ready) (command : Bytes) :
    Advances M s n db (db.write command).2 := by
  by_cases leads : db.raft.role = .leader
  · rw [ReplicatedDB.write_leader leads]
    exact sync_advances (propose_sim h command) (by simp) ready
  · rw [ReplicatedDB.write_other leads]
    exact raft_advances h.here rfl ready

end Operations

/-! ## The cluster -/

/-- Replicas and the protocol history they have gone through. -/
structure ReplicasSim (M : Membership) (c : Replicas) (s : History) : Prop where
  cluster : ClusterSim M c.cluster s
  ready : ∀ n ∈ M.peers, (c.node n).storage.Ready
  cursor : ∀ n ∈ M.peers, (c.node n).appliedIndex ≤ s.commit n
  applied : ∀ n ∈ M.peers, c.applied n = (s.log n).take (c.node n).appliedIndex
  table : ∀ n ∈ M.peers, (c.node n).table = (c.applied n).foldl applyEntry Table.empty

namespace ReplicasSim

variable {M : Membership} {c c' : Replicas} {s s' : History} {n a b : NodeId} {db : ReplicatedDB}

theorem place (h : ReplicasSim M c s) (member : n ∈ M.peers) : Local M s n (c.node n).raft :=
  h.cluster.at member

theorem update (h : ReplicasSim M c s) (member : n ∈ M.peers)
    (advances : Advances M s n (c.node n) db) :
    ∃ s', M.protocol.Extends s s' ∧ ReplicasSim M (c.update n db) s' := by
  obtain ⟨s', acts, after⟩ := h.cluster.update member advances.reaches advances.lastApplied
  obtain ⟨inv, ext, frame, kept⟩ := Protocol.acts_sound h.cluster.inv acts
  have node : NodeSim M s' n db.raft.takeMessages.2 := by
    simpa [Cluster.update] using after.node n member
  have before := h.cursor n member
  have grows := (kept n).commit
  have commit : db.raft.commitIndex = s'.commit n := node.commit
  have cursor : (c.node n).appliedIndex ≤ db.appliedIndex ∧ db.appliedIndex ≤ s'.commit n := by
    rcases advances.cursor with same | same <;> omega
  -- what the cursor moved over continues what was applied before
  have passed : db.raft.entriesBetween (c.node n).appliedIndex db.appliedIndex =
      ((s'.log n).take db.appliedIndex).drop (c.node n).appliedIndex :=
    node.entryAt_range cursor.1 (cursor.2.trans (inv.commitHeld n))
  have applied : c.applied n ++ db.raft.entriesBetween (c.node n).appliedIndex db.appliedIndex =
      (s'.log n).take db.appliedIndex := by
    rw [h.applied n member, ← applied_kept h.cluster.inv (kept n) before, passed,
      take_append_between _ cursor.1]
  refine ⟨s', ext, ?_, ?_, ?_, ?_, ?_⟩
  · rw [Replicas.cluster_update]
    exact after
  all_goals
    intro m isPeer
    by_cases here : m = n
  · subst here
    simpa [Replicas.update] using advances.ready
  · simpa [Replicas.update, here] using h.ready m isPeer
  · subst here
    simpa [Replicas.update] using cursor.2
  · simpa [Replicas.update, here, frame.commit m here] using h.cursor m isPeer
  · subst here
    simpa [Replicas.update] using applied
  · simpa [Replicas.update, here, frame.log m here] using h.applied m isPeer
  · subst here
    simp only [Replicas.update, if_true, advances.table, List.foldl_append, h.table m isPeer]
  · simpa [Replicas.update, here] using h.table m isPeer

theorem next (h : ReplicasSim M c s) (e : ReplicaEvent) (member : e.at ∈ M.peers) :
    ∃ s', M.protocol.Extends s s' ∧ ReplicasSim M (c.next e) s' := by
  have ready := h.ready _ member
  have here := h.place member
  cases e with
  | put id key value => exact h.update member (write_advances here ready _)
  | delete id key => exact h.update member (write_advances here ready _)
  | tick id => exact h.update member (raft_advances (tick_sim here) (by simp) ready)
  | deliver msg =>
      rw [Replicas.next]
      split
      · exact h.update member
          (raft_advances (step_sim here rfl (h.cluster.sent msg ‹_›)) (by simp) ready)
      · exact ⟨s, Protocol.Extends.refl s, h⟩
  | sync id => exact h.update member (sync_advances here.here rfl ready)

theorem run (h : ReplicasSim M c s) (events : List ReplicaEvent) :
    ∃ s', M.protocol.Extends s s' ∧ ReplicasSim M (events.foldl (Replicas.step M.peers) c) s' := by
  induction events generalizing c s with
  | nil => exact ⟨s, Protocol.Extends.refl s, h⟩
  | cons e events ih =>
      have one : ∃ s', M.protocol.Extends s s' ∧ ReplicasSim M (Replicas.step M.peers c e) s' := by
        rw [Replicas.step]
        split
        · exact h.next e ‹_›
        · exact ⟨s, Protocol.Extends.refl s, h⟩
      obtain ⟨s', ext, after⟩ := one
      obtain ⟨s'', ext', last⟩ := ih after
      exact ⟨s'', ext.trans ext', last⟩

/-- Below both cursors two replicas applied the same entries, whenever they
    are looked at. -/
theorem agree (early : ReplicasSim M c s) (late : ReplicasSim M c' s')
    (ext : M.protocol.Extends s s') (isA : a ∈ M.peers) (isB : b ∈ M.peers) {i : Nat}
    (inA : i ≤ (c.node a).appliedIndex) (inB : i ≤ (c'.node b).appliedIndex) :
    (c.applied a).take i = (c'.applied b).take i := by
  have decided := (early.cluster.inv.commitDecided a).mono ext (le_refl _)
  have comparable := Protocol.decided_comparable late.cluster.inv decided
    (late.cluster.inv.commitDecided b)
  have belowA := inA.trans (early.cursor a isA)
  have belowB := inB.trans (late.cursor b isB)
  have heldA := early.cluster.inv.commitHeld a
  have heldB := late.cluster.inv.commitHeld b
  have same : ((s.log a).take (s.commit a)).take i = ((s'.log b).take (s'.commit b)).take i := by
    rcases comparable with ⟨rest, whole⟩ | ⟨rest, whole⟩
    · rw [← whole, List.take_append_of_le_length (by rw [List.length_take]; omega)]
    · rw [← whole, List.take_append_of_le_length (by rw [List.length_take]; omega)]
  rw [List.take_take, List.take_take, Nat.min_eq_left belowA, Nat.min_eq_left belowB] at same
  rw [early.applied a isA, late.applied b isB, List.take_take, List.take_take,
    Nat.min_eq_left inA, Nat.min_eq_left inB, same]

theorem appliedLog (h : ReplicasSim M c s) (member : n ∈ M.peers) :
    c.applied n = (c.node n).appliedLog ∧ (c.applied n).length = (c.node n).appliedIndex := by
  have log : (c.node n).raft.log = sentinel :: s.log n := (h.place member).node.log
  have held := (h.cursor n member).trans (h.cluster.inv.commitHeld n)
  rw [ReplicatedDB.appliedLog, log, h.applied n member]
  exact ⟨rfl, by rw [List.length_take, Nat.min_eq_left held]⟩

end ReplicasSim

/-! ## Stores on empty directories -/

/-- The timeouts that `Open` sets. -/
def replicaMembership (peers : List NodeId) (distinct : peers.Nodup)
    (nonzero : ∀ id ∈ peers, id ≠ 0) : Membership where
  peers := peers
  distinct := distinct
  nonzero := nonzero
  electionTimeout := fun _ => 1
  heartbeatTimeout := fun _ => 1

/-- A store that has applied nothing. -/
structure Blank (db : ReplicatedDB) : Prop where
  ready : db.storage.Ready
  lastApplied : db.raft.lastApplied = 0
  cursor : db.appliedIndex = 0
  table : db.table = Table.empty

theorem start_sim {M : Membership} {s : History} {opened : NodeId → ReplicatedDB}
    (local_ : ∀ n ∈ M.peers, Local M s n (opened n).raft) (blank : ∀ n ∈ M.peers, Blank (opened n))
    (inv : M.protocol.Inv s) (ledgers : ∀ t, Contiguous 1 (s.ledger t)) :
    ReplicasSim M (.start opened) s where
  cluster := {
    inv := inv
    ledgers := ledgers
    node := fun n member => (local_ n member).node
    sent := by simp [Replicas.cluster, Replicas.start]
    taken := fun n member => by
      simp [Replicas.cluster, Replicas.start, (blank n member).lastApplied] }
  ready := fun n member => (blank n member).ready
  cursor := fun n member => by simp [Replicas.start, (blank n member).cursor]
  applied := fun n member => by simp [Replicas.start, (blank n member).cursor]
  table := fun n member => (blank n member).table

section Opening

variable {storage : RaftStorage} {id : NodeId} {peers : List NodeId}

theorem blank_rebuilt (ready : storage.Ready) (empty : storage.recovered = {}) :
    Blank (ReplicatedDB.rebuilt storage id peers) := by
  refine ⟨ready, rfl, ?_, ?_⟩
  · simp [ReplicatedDB.rebuilt, RaftStorage.recover, empty]
  · simp [ReplicatedDB.rebuilt, RaftStorage.recover, empty]

/-- Winning the election of a single node applies nothing. -/
theorem blank_elected {db : ReplicatedDB} (blank : Blank db) (fresh : db.raft.commitIndex = 0) :
    Blank { db with raft := db.raft.elected }.sync.2 ∧
      { db with raft := db.raft.elected }.sync.2.raft = db.raft.elected.saved := by
  obtain ⟨_, ready, -, -, synced⟩ :=
    @ReplicatedDB.sync_eq { db with raft := db.raft.elected } blank.ready
  obtain ⟨_, _, _, elected⟩ := db.raft.elected_eq
  have commit : db.raft.elected.commitIndex = 0 := by rw [elected, fresh]
  have lastApplied : db.raft.elected.lastApplied = 0 := by rw [elected, blank.lastApplied]
  rw [synced]
  refine ⟨⟨ready, lastApplied, commit, ?_⟩, rfl⟩
  dsimp only
  rw [commit, blank.cursor, blank.table, Raft.entriesBetween_self]
  rfl

end Opening

/-- `Open` on empty directories leaves a cluster of fresh nodes, of which a
    single one has been elected. -/
theorem opened_sim {peers : List NodeId} (distinct : peers.Nodup)
    (nonzero : ∀ id ∈ peers, id ≠ 0) {opened : NodeId → ReplicatedDB}
    (opens : ∀ id ∈ peers, ReplicatedDB.openAt {} id peers = .ok (opened id)) :
    ∃ s, ReplicasSim (replicaMembership peers distinct nonzero) (.start opened) s := by
  let M := replicaMembership peers distinct nonzero
  let storage : RaftStorage := { writer := Wal.Writer.new {} 0 }
  let fresh (id : NodeId) : ReplicatedDB := .rebuilt storage id peers
  have found : RaftStorage.openAt {} = .ok storage := rfl
  have ready : storage.Ready := ⟨Wal.Writer.new_aligned rfl, rfl⟩
  have blank (id : NodeId) : Blank (fresh id) := blank_rebuilt ready rfl
  have initial : ∀ id ∈ peers, Local M (Protocol.initial NodeId LogEntry) id (fresh id).raft :=
    fun id member => (initial_sim M).at member
  have is {id : NodeId} {db : ReplicatedDB} (member : id ∈ peers)
      (result : ReplicatedDB.openAt {} id peers = .ok db) : opened id = db :=
    Except.ok.inj ((opens id member).symm.trans result)
  by_cases single : peers.length = 1
  · obtain ⟨id, rfl⟩ := List.length_eq_one_iff.mp single
    obtain ⟨ticked, -⟩ := ReplicatedDB.rebuilt_elected storage id single
    obtain ⟨blank', raft⟩ := blank_elected (blank id) rfl
    have isOpened := is List.mem_cons_self (ReplicatedDB.openAt_single id found ready single)
    have reaches := (tick_sim (initial id List.mem_cons_self)).saved
    rw [ticked] at reaches
    obtain ⟨s, -, there⟩ := reaches
    refine ⟨s, start_sim ?_ ?_ there.inv there.ledgers⟩
    · intro n member
      rw [List.mem_singleton.mp member, isOpened, raft]
      exact there
    · intro n member
      rw [List.mem_singleton.mp member, isOpened]
      exact blank'
  · have isOpened : ∀ id ∈ peers, opened id = fresh id :=
      fun id member => is member (ReplicatedDB.openAt_several id found single)
    refine ⟨_, start_sim ?_ ?_ (initial_sim M).inv (initial_sim M).ledgers⟩
    · intro id member
      rw [isOpened id member]
      exact initial id member
    · intro id member
      rw [isOpened id member]
      exact blank id

/-! ## Agreement -/

/-- Two moments of one run and their histories. -/
theorem replica_moments_sim {M : Membership} {opened : NodeId → ReplicatedDB} {s : History}
    (h : ReplicasSim M (.start opened) s) (events : List ReplicaEvent) {k l : Nat} (le : k ≤ l) :
    ∃ s s', ReplicasSim M (.moment M.peers opened events k) s ∧
      ReplicasSim M (.moment M.peers opened events l) s' ∧ M.protocol.Extends s s' := by
  obtain ⟨s, -, early⟩ := h.run (events.take k)
  obtain ⟨s', ext, late⟩ := early.run ((events.take l).drop k)
  refine ⟨s, s', early, ?_, ext⟩
  rw [Replicas.moment, ← take_append_between events le, List.foldl_append]
  exact late

/-- Replicas agree. On stores opened on empty directories, at every moment of
    every run, a table is the fold of the commands of the log up to the cursor,
    these are the commands that were applied, and of two replicas, at whatever
    moments, the one that applied less applied the first commands of the other. -/
theorem replicas_agree (peers : List NodeId) (distinct : peers.Nodup)
    (nonzero : ∀ id ∈ peers, id ≠ 0) (opened : NodeId → ReplicatedDB)
    (opens : ∀ id ∈ peers, ReplicatedDB.openAt {} id peers = .ok (opened id))
    (events : List ReplicaEvent) (k l : Nat) (a b : NodeId) (isA : a ∈ peers) (isB : b ∈ peers) :
    let c := Replicas.moment peers opened events k
    let c' := Replicas.moment peers opened events l
    (c.node a).table = (commands (c.node a).appliedLog).foldl applyCommand Table.empty ∧
    c.applied a = (c.node a).appliedLog ∧
    (c.applied a).length = (c.node a).appliedIndex ∧
    ((c.node a).appliedIndex ≤ (c'.node b).appliedIndex →
      c.applied a = (c'.applied b).take (c.node a).appliedIndex) ∧
    ((c.node a).appliedIndex = (c'.node b).appliedIndex →
      ∀ key, (c.node a).get key = (c'.node b).get key) := by
  intro c c'
  obtain ⟨s, start⟩ := opened_sim distinct nonzero opens
  obtain ⟨first, ⟨s₁, sim⟩, s₂, sim'⟩ :
      (∀ i, i ≤ (c.node a).appliedIndex → i ≤ (c'.node b).appliedIndex →
        (c.applied a).take i = (c'.applied b).take i) ∧
      (∃ s, ReplicasSim (replicaMembership peers distinct nonzero) c s) ∧
      ∃ s, ReplicasSim (replicaMembership peers distinct nonzero) c' s := by
    rcases le_total k l with inOrder | inOrder
    · obtain ⟨s, s', early, late, ext⟩ := replica_moments_sim start events inOrder
      exact ⟨fun i inA inB => early.agree late ext isA isB inA inB, ⟨s, early⟩, s', late⟩
    · obtain ⟨s, s', early, late, ext⟩ := replica_moments_sim start events inOrder
      exact ⟨fun i inA inB => (early.agree late ext isB isA inB inA).symm, ⟨s', late⟩, s, early⟩
  obtain ⟨appliedA, lengthA⟩ := sim.appliedLog isA
  obtain ⟨appliedB, lengthB⟩ := sim'.appliedLog isB
  have shorter : (c.node a).appliedIndex ≤ (c'.node b).appliedIndex →
      c.applied a = (c'.applied b).take (c.node a).appliedIndex := by
    intro le
    rw [← first _ le_rfl le, ← lengthA, List.take_length]
  refine ⟨?_, appliedA, lengthA, shorter, ?_⟩
  · rw [sim.table a isA, appliedA, foldl_applyEntry]
  · intro same key
    have entries := shorter same.le
    rw [same, ← lengthB, List.take_length] at entries
    rw [ReplicatedDB.get, ReplicatedDB.get, sim.table a isA, sim'.table b isB, entries]

/-- Three stores on empty directories. -/
def threeStores (id : NodeId) : ReplicatedDB :=
  .rebuilt { writer := Wal.Writer.new {} 0 } id [1, 2, 3]

/-- Store 1 is elected, puts a key and replicates it to store 2, which applies
    it after the next heartbeat. -/
def replicated : List ReplicaEvent :=
  let entry : LogEntry := { term := 1, index := 1, data := encodeCommand kPut [107] [118] }
  [ .tick 1,
    .deliver { type := .requestVote, fromNode := 1, toNode := 2, term := 1 },
    .deliver { type := .requestVoteResp, fromNode := 2, toNode := 1, term := 1,
               voteGranted := true },
    .put 1 [107] [118],
    .tick 1,
    .deliver { type := .appendEntries, fromNode := 1, toNode := 2, term := 1,
               entries := [entry] },
    .sync 2,
    .deliver { type := .appendEntriesResp, fromNode := 2, toNode := 1, term := 1,
               success := true, matchIndex := 1 },
    .sync 1,
    .tick 1,
    .deliver { type := .appendEntries, fromNode := 1, toNode := 2, term := 1,
               prevLogIndex := 1, prevLogTerm := 1, leaderCommit := 1 },
    .sync 2 ]

theorem replicas_agree_replicated :
    ((Replicas.moment [1, 2, 3] threeStores replicated 9).node 1).appliedIndex = 1 ∧
      ∀ key, ((Replicas.moment [1, 2, 3] threeStores replicated 9).node 1).get key =
        ((Replicas.moment [1, 2, 3] threeStores replicated 12).node 2).get key := by
  have cursor : ((Replicas.moment [1, 2, 3] threeStores replicated 9).node 1).appliedIndex = 1 ∧
      ((Replicas.moment [1, 2, 3] threeStores replicated 12).node 2).appliedIndex = 1 := by
    decide +kernel
  have opens : ∀ id ∈ [1, 2, 3], ReplicatedDB.openAt {} id [1, 2, 3] = .ok (threeStores id) :=
    fun id _ => ReplicatedDB.openAt_several id rfl (by decide)
  refine ⟨cursor.1, ?_⟩
  exact (replicas_agree [1, 2, 3] (by decide) (by decide) threeStores opens replicated 9 12 1 2
    (by decide) (by decide)).2.2.2.2 (cursor.1.trans cursor.2.symm)

end MiniLsm
