import MiniLsm.Raft.DurableSafety
import MiniLsm.Raft.SingleNode

/-! # Stores on disks

A cluster of several stores that go down and come back. `Open` applies all that
it recovers, committed or not, and the first `Sync` moves the cursor back to the
commit index, which a restart forgot. Where everything that was recovered turns
out to be committed, this amounts to the committed log all the same.
-/

namespace MiniLsm

open Wal Consensus

inductive StoreTurn where
  | put (id : NodeId) (key value : Bytes)
  | delete (id : NodeId) (key : Bytes)
  /-- `raft().Tick()`, and then `Sync`. -/
  | tick (id : NodeId)
  /-- `raft().Step(msg)`, and then `Sync`. -/
  | deliver (msg : Message)
  /-- A call whose `Save` a crash cuts after `kept` bytes, and `Open`. -/
  | crash (input : Input) (kept : Nat)
  /-- Close and `Open`. -/
  | restart (id : NodeId)
  deriving Repr, DecidableEq

/-- What the node below the store is called with. -/
def StoreTurn.turn : StoreTurn → Turn
  | .put id key value => .operate (.propose id (encodeCommand kPut key value))
  | .delete id key => .operate (.propose id (encodeCommand kDelete key []))
  | .tick id => .operate (.tick id)
  | .deliver msg => .operate (.deliver msg)
  | .crash input kept => .crash input kept
  | .restart id => .restart id

def ReplicatedDB.process (db : ReplicatedDB) : Process := { raft := db.raft, storage := db.storage }

/-- The entries that a node knows to be committed. -/
def Raft.committed (r : Raft) : List LogEntry := (r.log.drop 1).take r.commitIndex

structure DurableStores where
  node : NodeId → ReplicatedDB
  /-- Every message that left a node. -/
  sent : List Message
  /-- What the last `Open` of a node recovered. -/
  opened : NodeId → List LogEntry
  /-- What `Open` and `ApplyCommitted` have gone through since, in order. -/
  applied : NodeId → List LogEntry

namespace DurableStores

/-- The nodes below the stores. -/
def cluster (c : DurableStores) : DurableCluster where
  process := fun n => (c.node n).process
  sent := c.sent
  taken := fun _ => []

/-- Install what a call left; the messages leave when it returned OK. -/
def called (c : DurableStores) (id : NodeId) (result : Status × ReplicatedDB) : DurableStores :=
  let (s, db) := result
  let (msgs, raft) := if s.isOk then db.raft.takeMessages else ([], db.raft)
  { c with
    node := fun n => if n = id then { db with raft } else c.node n
    sent := c.sent ++ msgs
    applied := fun n =>
      if n = id then c.applied n ++ db.raft.entriesBetween (c.node n).appliedIndex db.appliedIndex
      else c.applied n }

/-- `Open` on what a process left. -/
def reopened (peers : List NodeId) (c : DurableStores) (id : NodeId) (p : Process) :
    DurableStores :=
  match ReplicatedDB.openAt p.place id peers with
  | .ok db =>
      { c with
        node := fun n => if n = id then db else c.node n
        opened := fun n => if n = id then db.storage.recover.2 else c.opened n
        applied := fun n => if n = id then db.storage.recover.2 else c.applied n }
  | .error _ => c

def next (peers : List NodeId) (c : DurableStores) : StoreTurn → DurableStores
  | .put id key value => c.called id ((c.node id).put key value)
  | .delete id key => c.called id ((c.node id).delete key)
  | .tick id => c.called id { c.node id with raft := (c.node id).raft.tick }.sync
  | .deliver msg =>
      if msg ∈ c.sent then
        c.called msg.toNode
          { c.node msg.toNode with raft := (c.node msg.toNode).raft.step msg }.sync
      else c
  | .crash input kept =>
      if input.Available c.sent then
        c.reopened peers input.at (c.cluster.leftover input kept)
      else c
  | .restart id => c.reopened peers id (c.node id).process

/-- One step: a turn at an id outside the membership does nothing. -/
def step (peers : List NodeId) (c : DurableStores) (t : StoreTurn) : DurableStores :=
  if t.turn.at ∈ peers then c.next peers t else c

/-- Stores as `Open` returned them on empty directories. -/
def start (opened : NodeId → ReplicatedDB) : DurableStores where
  node := opened
  sent := []
  opened := fun _ => []
  applied := fun _ => []

def run (peers : List NodeId) (opened : NodeId → ReplicatedDB) (turns : List StoreTurn) :
    DurableStores :=
  turns.foldl (step peers) (start opened)

/-- The stores after the first `k` turns. -/
def stage (peers : List NodeId) (opened : NodeId → ReplicatedDB) (turns : List StoreTurn)
    (k : Nat) : DurableStores :=
  run peers opened (turns.take k)

/-- Every turn of a run is sound for the node below the store, where it happens. -/
def Sound (peers : List NodeId) (opened : NodeId → ReplicatedDB) (turns : List StoreTurn) : Prop :=
  ∀ before t, before ++ [t] <+: turns → t.turn.Sound (run peers opened before).cluster

end DurableStores

/-! ## What was applied -/

/-- The entries that a store has gone through since it was opened, and its
    cursor: all that was recovered, and what lay behind that when the first
    `Sync` found `first` entries committed, and then every committed entry. -/
inductive Through (opened committed : List LogEntry) : List LogEntry → Nat → Prop where
  | opened (forgotten : committed = []) : Through opened committed opened opened.length
  | synced (first : Nat) (le : first ≤ committed.length) :
      Through opened committed
        (opened ++ (committed.take first).drop opened.length ++ committed.drop first)
        committed.length

/-- A command as an operation of the store. -/
def commandOp : UInt8 × Bytes × Bytes → Op
  | (type, key, value) => if type = kPut then .put key value else .delete key

theorem applyCommand_eq (table : Table) (command : UInt8 × Bytes × Bytes) :
    applyCommand table command = Op.effect table (commandOp command) := by
  obtain ⟨type, key, value⟩ := command
  rw [commandOp]
  split
  · rename_i isPut
    rw [isPut]
    rfl
  · rename_i other
    show DB.apply table type key value = DB.apply table kTypeDelete key []
    rw [DB.apply, DB.apply, if_neg (show ¬ type = kTypePut from other), if_neg (by decide)]

theorem foldl_applyEntry_ops (entries : List LogEntry) (table : Table) :
    entries.foldl applyEntry table = ((commands entries).map commandOp).foldl Op.effect table := by
  rw [foldl_applyEntry, List.foldl_map]
  congr 1
  funext table command
  exact applyCommand_eq table command

/-- Entries that were the last to be applied may be applied again. -/
theorem foldl_applyEntry_again (earlier later : List LogEntry) (table : Table) :
    later.foldl applyEntry ((earlier ++ later).foldl applyEntry table) =
      (earlier ++ later).foldl applyEntry table := by
  simp only [foldl_applyEntry_ops]
  rw [commands, List.filterMap_append, List.map_append]
  exact foldl_effect_again _ _ table

namespace Through

variable {opened committed committed' applied : List LogEntry} {cursor : Nat}

/-- A `Sync` goes on from the cursor to the commit index. -/
theorem sync (h : Through opened committed applied cursor) (grows : committed <+: committed') :
    Through opened committed' (applied ++ committed'.drop cursor) committed'.length := by
  cases h with
  | opened forgotten =>
      have all : Through opened committed' _ _ := .synced _ le_rfl
      rwa [List.take_length, List.drop_length, List.append_nil] at all
  | synced first le =>
      obtain ⟨more, rfl⟩ := grows
      have all : Through opened (committed ++ more) _ _ := .synced first (le.trans (by simp))
      rw [List.drop_left]
      rwa [List.take_append_of_le_length le, List.drop_append_of_le_length le,
        ← List.append_assoc] at all

/-- If all that was recovered is committed, the table is that of the committed log. -/
theorem table (h : Through opened committed applied cursor) (known : opened <+: committed) :
    applied.foldl applyEntry Table.empty = committed.foldl applyEntry Table.empty := by
  cases h with
  | opened forgotten =>
      rw [forgotten] at known ⊢
      rw [List.prefix_nil.mp known]
  | synced first le =>
      obtain ⟨rest, whole⟩ := known
      rw [← whole]
      rcases Nat.le_total opened.length first with shorter | longer
      · have upto := take_append_between (opened ++ rest) shorter
        rw [List.take_left] at upto
        rw [upto, List.take_append_drop]
      · -- the entries between `first` and the end of the recovered ones are applied twice
        have none : ((opened ++ rest).take first).drop opened.length = [] := by
          rw [List.drop_eq_nil_iff, List.length_take]
          omega
        have again := foldl_applyEntry_again (opened.take first) (opened.drop first) Table.empty
        rw [List.take_append_drop] at again
        rw [none, List.append_nil, List.drop_append_of_le_length longer, List.foldl_append,
          List.foldl_append, again, ← List.foldl_append]

end Through

/-! ## Turns -/

/-- What is stored does not depend on how the storage got there. -/
theorem Flushed.stored {p : Process} {items : List Item} {storage : RaftStorage} (h : Flushed p items)
    (ready : storage.Ready) (contents : storage.writer.dest.contents = p.contents)
    (persisted : storage.persistedIndex = p.storage.persistedIndex) :
    Flushed { p with storage } items :=
  { h with
    appends := ready.aligned.appends
    syncs := ready.syncs
    log := by
      rw [contents]
      exact h.log
    records := by
      rw [contents]
      exact h.records
    aligned := ready.aligned
    full := h.full.trans persisted.symm }

/-- A call that returned OK, seen at the nodes below. -/
theorem DurableStores.memory_called (c : DurableStores) (id : NodeId) (db : ReplicatedDB) :
    (c.called id (.ok, db)).cluster.memory = c.cluster.memory.update id db.raft := by
  simp only [called, cluster, DurableCluster.memory, Cluster.update, Status.isOk_ok, if_true]
  congr 1
  funext m
  split <;> rfl

/-- A call that is refused changes nothing. -/
theorem DurableStores.called_refused (c : DurableStores) (id : NodeId) (msg : String) :
    c.called id (.invalidArgument msg, c.node id) = c := by
  obtain ⟨node, sent, opened, applied⟩ := c
  simp only [called, Status.invalidArgument, Status.isOk, reduceCtorEq, decide_false,
    Bool.false_eq_true, if_false, List.append_nil, DurableStores.mk.injEq, true_and]
  constructor
  · funext m
    split
    · rename_i here
      rw [here]
    · rfl
  · funext m
    split
    · rename_i here
      rw [here, Raft.entriesBetween_self, List.append_nil]
    · rfl

/-- Stores on disks and the protocol history they have gone through. -/
structure StoresSim (M : Membership) (c : DurableStores) (s : History) : Prop where
  durable : DurableSim M c.cluster s
  through : ∀ n ∈ M.peers,
    Through (c.opened n) ((s.log n).take (s.commit n)) (c.applied n) (c.node n).appliedIndex
  table : ∀ n ∈ M.peers, (c.node n).table = (c.applied n).foldl applyEntry Table.empty

namespace StoresSim

variable {M : Membership} {c c' : DurableStores} {s s' : History} {n a b : NodeId}

/-- A call whose `Sync` returns OK. -/
theorem synced (input : Input) (h : StoresSim M c s) (member : input.at ∈ M.peers)
    (available : input.Available c.sent) (sound : (Turn.operate input).Sound c.cluster) :
    ∃ s', M.protocol.Extends s s' ∧
      StoresSim M (c.called input.at
        { c.node input.at with raft := (c.cluster.operated input).raft }.sync) s' := by
  obtain ⟨items, before⟩ := h.durable.files input.at member
  obtain ⟨-, evolves⟩ := h.durable.operated member available
  obtain ⟨storage, ready, persisted, contents, synced⟩ := @ReplicatedDB.sync_eq
    { c.node input.at with raft := (c.cluster.operated input).raft } ⟨before.aligned, before.syncs⟩
  obtain ⟨-, -, more, flushed⟩ := before.save evolves sound.1 sound.2
  obtain ⟨w, -, -, written, -, same⟩ := Process.save_eq (p := { c.cluster.process input.at with
    raft := (c.cluster.operated input).raft }) before.aligned none
  rw [same] at flushed
  have flushed := flushed.stored ready (contents.trans written.symm) persisted
  obtain ⟨s', acts, after⟩ := h.durable.cluster.update member
    (h.durable.reaches member available).saved (DurableSim.operated_lastApplied c.cluster input)
  obtain ⟨inv, ext, frame, kept⟩ := Protocol.acts_sound h.durable.cluster.inv acts
  have node : NodeSim M s' input.at (c.cluster.operated input).raft.saved.takeMessages.2 := by
    simpa [Cluster.update] using after.node input.at member
  have commit : (c.cluster.operated input).raft.commitIndex = s'.commit input.at := node.commit
  -- what the cursor moves over is the committed log behind it
  have passed : (c.cluster.operated input).raft.saved.entriesBetween (c.node input.at).appliedIndex
      (c.cluster.operated input).raft.commitIndex =
      ((s'.log input.at).take (s'.commit input.at)).drop (c.node input.at).appliedIndex := by
    rw [commit]
    rcases Nat.le_total (c.node input.at).appliedIndex (s'.commit input.at) with behind | ahead
    · exact node.entryAt_range behind (inv.commitHeld _)
    · have none : ((s'.log input.at).take (s'.commit input.at)).drop
          (c.node input.at).appliedIndex = [] := by
        rw [List.drop_eq_nil_iff, List.length_take]
        omega
      rw [none, Raft.entriesBetween, Nat.sub_eq_zero_of_le ahead]
      rfl
  rw [synced]
  refine ⟨s', ext, ⟨?_, ?_⟩, ?_, ?_⟩
  · rw [DurableStores.memory_called]
    exact after
  · intro m isPeer
    by_cases here : m = input.at
    · simp only [DurableStores.called, DurableStores.cluster, here, if_true]
      exact ⟨more, flushed.takeMessages⟩
    · simpa only [DurableStores.called, DurableStores.cluster, here, if_false] using
        h.durable.files m isPeer
  · intro m isPeer
    by_cases here : m = input.at
    · subst here
      have grows := List.prefix_take_iff.mpr
        ⟨(kept input.at).log, (List.length_take_le _ _).trans (kept input.at).commit⟩
      have through := (h.through _ member).sync grows
      rw [List.length_take, Nat.min_eq_left (inv.commitHeld _)] at through
      simp only [DurableStores.called, if_true]
      rw [passed, commit]
      exact through
    · simpa [DurableStores.called, here, frame.log m here, frame.commit m here] using
        h.through m isPeer
  · intro m isPeer
    by_cases here : m = input.at
    · subst here
      simp only [DurableStores.called, if_true, List.foldl_append, ← h.table _ member]
      rfl
    · simpa [DurableStores.called, here] using h.table m isPeer

/-- `Put` and `Delete`; without leadership they do nothing. -/
theorem written (h : StoresSim M c s) (member : n ∈ M.peers) (command : Bytes)
    (sound : (Turn.operate (.propose n command)).Sound c.cluster) :
    ∃ s', M.protocol.Extends s s' ∧
      StoresSim M (c.called n ((c.node n).write command)) s' := by
  by_cases leads : (c.node n).raft.role = .leader
  · rw [ReplicatedDB.write_leader leads]
    exact h.synced (.propose n command) member trivial sound
  · rw [ReplicatedDB.write_other leads, DurableStores.called_refused]
    exact ⟨s, Protocol.Extends.refl s, h⟩

/-- A process that came back was opened from its file. -/
theorem opens {p : Process} {items : List Item} (h : Flushed p.reopen items) :
    ∃ storage, RaftStorage.openAt p.place = .ok storage := by
  cases opened : RaftStorage.openAt p.place with
  | ok storage => exact ⟨storage, rfl⟩
  | error _ =>
      have same : p.reopen = p := by rw [Process.reopen, opened]
      rw [same] at h
      obtain ⟨storage, found, -⟩ := h.toJournaled.openAt
      rw [found] at opened
      cases opened

/-- A store that comes back starts from all that its file replays to. -/
theorem reopened {p : Process} (h : StoresSim M c s) (member : n ∈ M.peers)
    (several : M.peers.length ≠ 1)
    (config : M.config n = { id := n, peers := M.peers, electionTimeout := 1 })
    (frame : Protocol.Frame n s s') (there : DurableSim M (c.cluster.revive n p.reopen) s') :
    StoresSim M (c.reopened M.peers n p) s' := by
  obtain ⟨items, flushed⟩ := there.files n member
  simp only [DurableCluster.revive, if_true] at flushed
  obtain ⟨storage, found⟩ := opens flushed
  have node := there.node member
  simp only [DurableCluster.revive, if_true, Process.reopen, found] at node
  have ownConfig : p.raft.config = { id := n, peers := M.peers, electionTimeout := 1 } :=
    node.config.trans config
  have back : p.reopen = (ReplicatedDB.rebuilt storage n M.peers).process := by
    rw [Process.reopen, found, ownConfig]
    rfl
  have recovered : storage.recover.2 = s'.log n := by
    have log := node.log
    simp only [Raft.restore, Raft.new, List.singleton_append] at log
    exact (List.cons.inj log).2
  have forgotten : s'.commit n = 0 := node.commit.symm
  have cursor : (ReplicatedDB.rebuilt storage n M.peers).appliedIndex = storage.recover.2.length := by
    rw [recovered, ← node.numbered.lastIndex, ← recovered]
    rfl
  have is : c.reopened M.peers n p =
      { c with
        node := fun m => if m = n then .rebuilt storage n M.peers else c.node m
        opened := fun m => if m = n then storage.recover.2 else c.opened m
        applied := fun m => if m = n then storage.recover.2 else c.applied m } := by
    rw [DurableStores.reopened, ReplicatedDB.openAt_several n found several]
    rfl
  have cluster : (c.reopened M.peers n p).cluster = c.cluster.revive n p.reopen := by
    rw [is, back]
    simp only [DurableStores.cluster, DurableCluster.revive]
    congr 1
    · funext m
      split <;> rfl
    · funext m
      split <;> rfl
  refine ⟨cluster ▸ there, fun m isPeer => ?_, fun m isPeer => ?_⟩
  · rw [is]
    by_cases here : m = n
    · subst here
      simp only [if_true, cursor]
      exact .opened (by rw [forgotten, List.take_zero])
    · simpa [here, frame.log m here, frame.commit m here] using h.through m isPeer
  · rw [is]
    by_cases here : m = n
    · subst here
      simp only [if_true]
      rfl
    · simpa [here] using h.table m isPeer

theorem next (h : StoresSim M c s) (several : M.peers.length ≠ 1)
    (config : ∀ n, M.config n = { id := n, peers := M.peers, electionTimeout := 1 }) (t : StoreTurn)
    (member : t.turn.at ∈ M.peers) (sound : t.turn.Sound c.cluster) :
    ∃ s', M.protocol.Extends s s' ∧ StoresSim M (c.next M.peers t) s' := by
  cases t with
  | put id key value => exact h.written member _ sound
  | delete id key => exact h.written member _ sound
  | tick id => exact h.synced (.tick id) member trivial sound
  | deliver msg =>
      rw [DurableStores.next]
      split
      · exact h.synced (.deliver msg) member ‹_› sound
      · exact ⟨s, Protocol.Extends.refl s, h⟩
  | crash input kept =>
      rw [DurableStores.next]
      split
      · obtain ⟨s', ext, frame, there⟩ := h.durable.crash member ‹_› kept sound.1 sound.2
        exact ⟨s', ext, h.reopened member several (config _) frame there⟩
      · exact ⟨s, Protocol.Extends.refl s, h⟩
  | restart id =>
      obtain ⟨s', ext, frame, there⟩ := h.durable.restart member
      exact ⟨s', ext, h.reopened member several (config _) frame there⟩

end StoresSim

/-! ## Whole runs -/

section Runs

variable {peers : List NodeId} {distinct : peers.Nodup} {nonzero : ∀ id ∈ peers, id ≠ 0}
  {opened : NodeId → ReplicatedDB} {s : History} {early later : List StoreTurn}

theorem StoresSim.start (several : peers.length ≠ 1)
    (opens : ∀ id ∈ peers, ReplicatedDB.openAt {} id peers = .ok (opened id)) :
    StoresSim (replicaMembership peers distinct nonzero) (.start opened)
      (Protocol.initial NodeId LogEntry) := by
  have isFresh : ∀ id ∈ peers,
      opened id = .rebuilt { writer := Writer.new {} 0 } id peers := fun id member =>
    Except.ok.inj ((opens id member).symm.trans (ReplicatedDB.openAt_several id rfl several))
  let M := replicaMembership peers distinct nonzero
  have installed := installed_sim M
  refine ⟨⟨⟨installed.cluster.inv, installed.cluster.ledgers, ?_, ?_, ?_⟩, ?_⟩, ?_, ?_⟩
  · intro id member
    have node := installed.cluster.node id member
    simp only [DurableCluster.memory, DurableStores.cluster, DurableStores.start, isFresh id member]
    exact node
  · simp [DurableCluster.memory, DurableStores.cluster, DurableStores.start]
  · intro id member
    simp [DurableCluster.memory, DurableStores.cluster, DurableStores.start, Protocol.initial]
  · intro id member
    simp only [DurableStores.cluster, DurableStores.start, isFresh id member]
    exact installed.files id member
  · intro id member
    simp only [DurableStores.start, isFresh id member]
    exact .opened rfl
  · intro id member
    simp only [DurableStores.start, isFresh id member]
    rfl

theorem StoresSim.run (several : peers.length ≠ 1)
    (h : StoresSim (replicaMembership peers distinct nonzero) (.run peers opened early) s)
    (sound : DurableStores.Sound peers opened (early ++ later)) :
    ∃ s', (replicaMembership peers distinct nonzero).protocol.Extends s s' ∧
      StoresSim (replicaMembership peers distinct nonzero) (.run peers opened (early ++ later)) s' := by
  induction later using List.reverseRecOn with
  | nil =>
      rw [List.append_nil]
      exact ⟨s, Protocol.Extends.refl s, h⟩
  | append_singleton later t ih =>
      rw [← List.append_assoc] at sound ⊢
      obtain ⟨s', ext, there⟩ := ih fun before t inside =>
        sound before t (inside.trans (List.prefix_append _ _))
      have last : DurableStores.run peers opened (early ++ later ++ [t]) =
          (DurableStores.run peers opened (early ++ later)).step peers t := by
        simp [DurableStores.run]
      rw [last, DurableStores.step]
      split
      · obtain ⟨s'', ext', after⟩ := there.next several (fun _ => rfl) t ‹_›
          (sound _ t List.prefix_rfl)
        exact ⟨s'', ext.trans ext', after⟩
      · exact ⟨s', ext, there⟩

/-- Two moments of one run and their histories. -/
theorem store_moments_sim (several : peers.length ≠ 1)
    (opens : ∀ id ∈ peers, ReplicatedDB.openAt {} id peers = .ok (opened id))
    {turns : List StoreTurn} (sound : DurableStores.Sound peers opened turns) {k l : Nat} (le : k ≤ l) :
    ∃ s s', StoresSim (replicaMembership peers distinct nonzero) (.stage peers opened turns k) s ∧
      StoresSim (replicaMembership peers distinct nonzero) (.stage peers opened turns l) s' ∧
      (replicaMembership peers distinct nonzero).protocol.Extends s s' := by
  have soundUpto (j : Nat) : DurableStores.Sound peers opened (turns.take j) := fun before t inside =>
    sound before t (inside.trans (List.take_prefix _ _))
  have split : turns.take k ++ (turns.take l).drop k = turns.take l := take_append_between turns le
  have fresh : StoresSim (replicaMembership peers distinct nonzero) (.run peers opened []) _ :=
    StoresSim.start several opens
  obtain ⟨s, -, start⟩ := fresh.run several (soundUpto k)
  obtain ⟨s', ext, there⟩ := start.run several (by rw [List.nil_append, split]; exact soundUpto l)
  rw [List.nil_append, split] at there
  exact ⟨s, s', start, there, ext⟩

/-- The entries a store knows to be committed are those of the protocol. -/
theorem StoresSim.committed {M : Membership} {c : DurableStores} {s : History} {n : NodeId}
    (h : StoresSim M c s) (member : n ∈ M.peers) :
    (c.node n).raft.committed = (s.log n).take (s.commit n) := by
  have node := h.durable.node member
  have log : (c.node n).raft.log = sentinel :: s.log n := node.log
  have commit : (c.node n).raft.commitIndex = s.commit n := node.commit
  rw [Raft.committed, log, commit]
  rfl

end Runs

/-- The tables of stores that go down and come back, at every moment of every
    run: `Open` applies what it recovers, the first `Sync` goes on behind that,
    and then every committed entry is applied, perhaps once more. If what was
    recovered is committed, the table is that of the committed log, and two such
    stores with one commit index have the same table. -/
theorem recovered_replicas_agree (peers : List NodeId) (distinct : peers.Nodup)
    (nonzero : ∀ id ∈ peers, id ≠ 0) (several : peers.length ≠ 1) (opened : NodeId → ReplicatedDB)
    (opens : ∀ id ∈ peers, ReplicatedDB.openAt {} id peers = .ok (opened id))
    (turns : List StoreTurn) (sound : DurableStores.Sound peers opened turns) (k l : Nat)
    (a b : NodeId) (isA : a ∈ peers) (isB : b ∈ peers) :
    let c := DurableStores.stage peers opened turns k
    let c' := DurableStores.stage peers opened turns l
    Through (c.opened a) (c.node a).raft.committed (c.applied a) (c.node a).appliedIndex ∧
    (c.node a).table = (commands (c.applied a)).foldl applyCommand Table.empty ∧
    (c.opened a <+: (c.node a).raft.committed →
      (c.node a).table = (commands (c.node a).raft.committed).foldl applyCommand Table.empty) ∧
    (c.opened a <+: (c.node a).raft.committed → c'.opened b <+: (c'.node b).raft.committed →
      (c.node a).raft.commitIndex = (c'.node b).raft.commitIndex →
      ∀ key, (c.node a).get key = (c'.node b).get key) := by
  intro c c'
  have tables {c : DurableStores} {s : History} {n : NodeId} (member : n ∈ peers)
      (h : StoresSim (replicaMembership peers distinct nonzero) c s)
      (known : c.opened n <+: (c.node n).raft.committed) :
      (c.node n).table = (c.node n).raft.committed.foldl applyEntry Table.empty := by
    have through := h.through n member
    rw [← h.committed member] at through
    rw [h.table n member, through.table known]
  obtain ⟨s, s', sim, sim', agree⟩ :
      ∃ s s', StoresSim (replicaMembership peers distinct nonzero) c s ∧
        StoresSim (replicaMembership peers distinct nonzero) c' s' ∧
        ((c.node a).raft.committed <+: (c'.node b).raft.committed ∨
          (c'.node b).raft.committed <+: (c.node a).raft.committed) := by
    rcases le_total k l with inOrder | inOrder
    · obtain ⟨s, s', early, late, ext⟩ := store_moments_sim several opens sound inOrder
      refine ⟨s, s', early, late, ?_⟩
      rw [early.committed isA, late.committed isB]
      exact Protocol.decided_comparable late.durable.cluster.inv
        ((early.durable.cluster.inv.commitDecided a).mono ext le_rfl)
        (late.durable.cluster.inv.commitDecided b)
    · obtain ⟨s, s', early, late, ext⟩ := store_moments_sim several opens sound inOrder
      refine ⟨s', s, late, early, ?_⟩
      rw [early.committed isB, late.committed isA]
      exact (Protocol.decided_comparable late.durable.cluster.inv
        ((early.durable.cluster.inv.commitDecided b).mono ext le_rfl)
        (late.durable.cluster.inv.commitDecided a)).symm
  refine ⟨?_, ?_, fun known => ?_, fun knownA knownB same key => ?_⟩
  · rw [sim.committed isA]
    exact sim.through a isA
  · rw [sim.table a isA, foldl_applyEntry]
  · rw [tables isA sim known, foldl_applyEntry]
  · have sizeA := congrArg List.length (sim.committed isA)
    have sizeB := congrArg List.length (sim'.committed isB)
    have commitA : (c.node a).raft.commitIndex = s.commit a := (sim.durable.node isA).commit
    have commitB : (c'.node b).raft.commitIndex = s'.commit b := (sim'.durable.node isB).commit
    have heldA := sim.durable.cluster.inv.commitHeld a
    have heldB := sim'.durable.cluster.inv.commitHeld b
    rw [List.length_take] at sizeA sizeB
    have size : (c.node a).raft.committed.length = (c'.node b).raft.committed.length := by omega
    have entries : (c.node a).raft.committed = (c'.node b).raft.committed :=
      agree.elim (fun inside => inside.eq_of_length size)
        (fun inside => (inside.eq_of_length size.symm).symm)
    rw [ReplicatedDB.get, ReplicatedDB.get, tables isA sim knownA, tables isB sim' knownB, entries]

/-- Store 1 is elected, puts a key and commits it with store 2, which goes down
    before it hears of that, comes back, moves its cursor to 0 and applies the
    entry again. Store 3 goes down when it stands for election. -/
def comingBack : List StoreTurn :=
  let entry : LogEntry := { term := 1, index := 1, data := encodeCommand kPut [107] [118] }
  [ .tick 1,
    .deliver { type := .requestVote, fromNode := 1, toNode := 2, term := 1 },
    .deliver { type := .requestVoteResp, fromNode := 2, toNode := 1, term := 1,
               voteGranted := true },
    .put 1 [107] [118],
    .tick 1,
    .deliver { type := .appendEntries, fromNode := 1, toNode := 2, term := 1,
               entries := [entry] },
    .deliver { type := .appendEntriesResp, fromNode := 2, toNode := 1, term := 1,
               success := true, matchIndex := 1 },
    .restart 2,
    .deliver { type := .appendEntries, fromNode := 1, toNode := 2, term := 1,
               entries := [entry] },
    .tick 1,
    .deliver { type := .appendEntries, fromNode := 1, toNode := 2, term := 1,
               prevLogIndex := 1, prevLogTerm := 1, leaderCommit := 1 },
    .crash (.tick 3) 5 ]

theorem comingBack_sound : DurableStores.Sound [1, 2, 3] threeStores comingBack :=
  forall_steps comingBack
    (fun before t => t.turn.Sound (DurableStores.run [1, 2, 3] threeStores before).cluster)
    (by decide +kernel)

theorem recovered_replicas_agree_comingBack :
    (((DurableStores.stage [1, 2, 3] threeStores comingBack 12).opened 2).length = 1 ∧
      ((DurableStores.stage [1, 2, 3] threeStores comingBack 12).applied 2).length = 2) ∧
    ∀ key, ((DurableStores.stage [1, 2, 3] threeStores comingBack 7).node 1).get key =
      ((DurableStores.stage [1, 2, 3] threeStores comingBack 12).node 2).get key := by
  have opens : ∀ id ∈ [1, 2, 3], ReplicatedDB.openAt {} id [1, 2, 3] = .ok (threeStores id) :=
    fun id _ => ReplicatedDB.openAt_several id rfl (by decide)
  refine ⟨by decide +kernel, ?_⟩
  exact (recovered_replicas_agree [1, 2, 3] (by decide) (by decide) (by decide) threeStores opens
    comingBack comingBack_sound 7 12 1 2 (by decide) (by decide)).2.2.2
    (by decide +kernel) (by decide +kernel) (by decide +kernel)

end MiniLsm
