import MiniLsm.Raft.Interrupted
import MiniLsm.Raft.Replicas

/-! # A cluster on disks

Every node is a process with its storage file. After each Tick, Propose or Step
it calls `Save`, and only then do its messages leave. A crash cuts a `Save` at
any byte: the process is gone, what was synced before is left with a part of
what was being written, and the node comes back with what that replays to.
-/

namespace MiniLsm

open Wal Consensus

/-- What a node is called with. -/
inductive Input where
  | tick (id : NodeId)
  | propose (id : NodeId) (data : Bytes)
  | deliver (msg : Message)
  deriving Repr, DecidableEq

/-- The node that is called. -/
def Input.at : Input → NodeId
  | .tick id | .propose id _ => id
  | .deliver msg => msg.toNode

namespace Input

def call : Input → Call
  | .tick _ => .tick
  | .propose _ data => .propose data
  | .deliver msg => .step msg

/-- Only what left a node can be delivered. -/
def Available (sent : List Message) : Input → Prop
  | .tick _ | .propose _ _ => True
  | .deliver msg => msg ∈ sent

instance (sent : List Message) (input : Input) : Decidable (input.Available sent) := by
  cases input with
  | tick id | propose id data => exact .isTrue trivial
  | deliver msg => exact inferInstanceAs (Decidable (msg ∈ sent))

end Input

inductive Turn where
  /-- A call and a `Save` that returns OK. -/
  | operate (input : Input)
  /-- A call whose `Save` a crash cuts after `kept` bytes, and a restart. -/
  | crash (input : Input) (kept : Nat)
  | takeCommitted (id : NodeId)
  /-- Close, `Open`, `Recover` and `Restore`. -/
  | restart (id : NodeId)
  deriving Repr, DecidableEq

/-- The node whose turn it is. -/
def Turn.at : Turn → NodeId
  | .operate input | .crash input _ => input.at
  | .takeCommitted id | .restart id => id

/-- Turns in which a node loses its memory. -/
def Turn.Revives (a : NodeId) : Turn → Prop
  | .crash input _ => input.at = a
  | .restart id => id = a
  | .operate _ | .takeCommitted _ => False

structure DurableCluster where
  process : NodeId → Process
  /-- Every message that left a node. -/
  sent : List Message
  /-- What `TakeCommitted` returned on a node since its last restart. -/
  taken : NodeId → List LogEntry

namespace DurableCluster

/-- The called node, before its `Save`. -/
def operated (d : DurableCluster) (input : Input) : Process :=
  (d.process input.at).next input.call

/-- Install a process on a node that came back. -/
def revive (d : DurableCluster) (id : NodeId) (p : Process) : DurableCluster :=
  { d with
    process := fun n => if n = id then p else d.process n
    taken := fun n => if n = id then [] else d.taken n }

/-- `Save`; the messages leave when it returns OK. -/
def persist (d : DurableCluster) (id : NodeId) (p : Process) : DurableCluster :=
  let (s, p) := p.save none
  let (msgs, raft) := if s.isOk then p.raft.takeMessages else ([], p.raft)
  { d with
    process := fun n => if n = id then { p with raft } else d.process n
    sent := d.sent ++ msgs }

/-- The process with the file that a cut `Save` leaves. -/
def leftover (d : DurableCluster) (input : Input) (kept : Nat) : Process :=
  ((d.operated input).save none).2.cut ((d.process input.at).contents.length + kept)

def next (d : DurableCluster) : Turn → DurableCluster
  | .operate input =>
      if input.Available d.sent then d.persist input.at (d.operated input) else d
  | .crash input kept =>
      if input.Available d.sent then d.revive input.at (d.leftover input kept).reopen else d
  | .takeCommitted id =>
      let (entries, raft) := (d.process id).raft.takeCommitted
      { d with
        process := fun n => if n = id then { d.process id with raft } else d.process n
        taken := fun n => if n = id then d.taken n ++ entries else d.taken n }
  | .restart id => d.revive id (d.process id).reopen

theorem persist_eq (d : DurableCluster) (id : NodeId) {p : Process} (ok : (p.save none).1 = .ok) :
    d.persist id p = { d with
      process := fun n => if n = id then
        { (p.save none).2 with raft := (p.save none).2.raft.takeMessages.2 } else d.process n
      sent := d.sent ++ (p.save none).2.raft.takeMessages.1 } := by
  rw [persist]
  cases saved : p.save none with
  | mk s q =>
      rw [saved] at ok
      obtain rfl : s = .ok := ok
      rfl

/-- What the nodes have in memory. -/
def memory (d : DurableCluster) : Cluster :=
  { node := fun n => (d.process n).raft, sent := d.sent, taken := d.taken }

end DurableCluster

namespace Membership

variable (M : Membership)

/-- New nodes with empty files. -/
def installed : DurableCluster where
  process := fun id => Process.fresh (M.config id)
  sent := []
  taken := fun _ => []

def turn (d : DurableCluster) (t : Turn) : DurableCluster := if t.at ∈ M.peers then d.next t else d

/-- The cluster after a sequence of turns. -/
def durable (turns : List Turn) : DurableCluster := turns.foldl M.turn M.installed

/-- The cluster after the first `k` turns. -/
def stage (turns : List Turn) (k : Nat) : DurableCluster := M.durable (turns.take k)

end Membership

/-- A `Save` of this node would write a record, and not behind the rest of one
    that a crash cut: resuming there loses what is written. -/
def Process.Writable (p : Process) (raft : Raft) : Prop :=
  RaftStorage.savedItems raft p.storage.persistedIndex ≠ [] →
    endsInRecord 0 p.contents = false

/-- The fields of the called node fit into its records, and its file can be
    written to. A crash may leave the file torn in any way. -/
def Turn.Sound (d : DurableCluster) : Turn → Prop
  | .operate input | .crash input _ =>
      (d.operated input).raft.Fits ∧ (d.process input.at).Writable (d.operated input).raft
  | .takeCommitted _ | .restart _ => True

instance (p : Process) (raft : Raft) : Decidable (p.Writable raft) :=
  inferInstanceAs (Decidable (_ → _))

instance (d : DurableCluster) (t : Turn) : Decidable (t.Sound d) := by
  cases t with
  | operate input | crash input kept => exact inferInstanceAs (Decidable (_ ∧ _))
  | takeCommitted id | restart id => exact .isTrue trivial

/-- Every turn of a run is sound where it happens. -/
def Membership.Sound (M : Membership) (turns : List Turn) : Prop :=
  ∀ before t, before ++ [t] <+: turns → t.Sound (M.durable before)

/-! ## Files that hold all of a node -/

/-- The file replays to the node, and did so at every complete record to a log
    without holes. It may end inside a record. -/
structure Flushed (p : Process) (items : List Item) : Prop extends
    Journaled p.storage.writer.dest items where
  aligned : p.storage.writer.Aligned
  node : p.raft.Numbered
  contiguous : ∀ m, Contiguous 1 (journalState (items.take m)).entries
  size : ∀ m, (journalState (items.take m)).entries.length < UInt64.size
  full : (journalState items).entries.length = p.storage.persistedIndex
  state : journalState items = p.raft.durable
  level : p.raft.stableIndex = p.raft.lastIndex
  clean : p.raft.hardStateDirty = false

section Files

variable {p : Process} {items : List Item} {r : Raft}

/-- A process on a journal of logs without holes comes back with all of it. -/
theorem Journaled.flushed (h : Journaled p.storage.writer.dest items)
    (contiguous : ∀ m, Contiguous 1 (journalState (items.take m)).entries)
    (size : ∀ m, (journalState (items.take m)).entries.length < UInt64.size) :
    p.reopen.raft = (journalState items).restored p.raft.config ∧ Flushed p.reopen items := by
  have sound : p.place.Sound := ⟨rfl, rfl, rfl, rfl, rfl, h.appends, h.syncs⟩
  have replayed : (recordsOf p.place.contents).foldl Recovered.replay {} = journalState items := by
    have records : recordsOf p.place.contents = items.map Item.record := h.records
    rw [records, replay_journal h.fits]
  have same : p.reopen =
      { raft := (journalState items).restored p.raft.config
        storage :=
          { writer := Writer.new p.storage.writer.dest p.contents.length
            persistedIndex :=
              ((journalState items).entries.getLast?.map LogEntry.index).getD 0
            recovered := journalState items } } := by
    rw [Process.reopen, RaftStorage.openAt_eq sound, replayed]
    rfl
  have whole := contiguous items.length
  rw [List.take_length] at whole
  rw [same]
  exact ⟨rfl, h, Writer.new_aligned h.appends, ⟨⟨rfl, whole⟩, Nat.lt_succ_self _⟩, contiguous,
    size, whole.lastIndex.symm, rfl, rfl, rfl⟩

namespace Flushed

theorem fresh (config : Config) : Flushed (Process.fresh config) [] where
  toJournaled := (Stored.fresh config).holds.toJournaled
  aligned := Writer.new_aligned rfl
  node := (Stored.fresh config).node
  contiguous := (Settled.fresh config).contiguous
  size := (Settled.fresh config).size
  full := rfl
  state := rfl
  level := rfl
  clean := rfl

/-- `TakeMessages` and `TakeCommitted` touch nothing that is stored. -/
theorem takeMessages (h : Flushed p items) :
    Flushed { p with raft := p.raft.takeMessages.2 } items :=
  { h with node := ⟨h.node.log, h.node.stable⟩ }

theorem takeCommitted (h : Flushed p items) :
    Flushed { p with raft := p.raft.takeCommitted.2 } items :=
  { h with node := ⟨h.node.log, h.node.stable⟩ }

theorem reopen (h : Flushed p items) :
    p.reopen.raft = p.raft.durable.restored p.raft.config ∧ Flushed p.reopen items := by
  rw [← h.state]
  exact h.toJournaled.flushed h.contiguous h.size

theorem persisted (h : Flushed p items) : p.storage.persistedIndex = p.raft.lastIndex := by
  rw [← h.full, h.state, Raft.durable, List.length_drop, Raft.lastIndex]

/-- A file that does not end inside a record can be continued. -/
theorem settled (h : Flushed p items) (whole : endsInRecord 0 p.contents = false) :
    Settled p items where
  stored :=
    { holds := ⟨h.toJournaled, h.aligned, whole⟩
      node := h.node
      contiguous := by simpa using h.contiguous items.length
      size := by simpa using h.size items.length
      persisted := h.full.ge
      stable := (h.level.trans h.persisted.symm).le
      agrees := by rw [h.state, Raft.durable]
      hard := fun _ => by rw [h.state]; rfl }
  contiguous := h.contiguous
  size := h.size

/-- A `Save` that has nothing to write finds the stored node. -/
theorem unchanged (h : Flushed p items) (evolves : p.raft.Evolves r)
    (nothing : RaftStorage.savedItems r p.storage.persistedIndex = []) :
    r.durable = p.raft.durable := by
  simp only [RaftStorage.savedItems, List.append_eq_nil_iff, List.map_eq_nil_iff] at nothing
  obtain ⟨⟨hard, truncation⟩, entries⟩ := nothing
  have clean : r.hardStateDirty = false := by
    by_contra dirty
    simp [RaftStorage.hardStateItems, dirty] at hard
  have covered : ¬ r.stableIndex < p.storage.persistedIndex := by
    intro below
    simp [RaftStorage.truncationItems, below] at truncation
  rw [RaftStorage.entriesFrom_eq evolves.numbered.nonempty, List.drop_eq_nil_iff] at entries
  obtain ⟨-, term, vote⟩ := evolves.hard clean
  have below := evolves.stable
  have persisted := h.persisted
  have stored := h.level
  have log := evolves.log
  have long : r.log.length ≤ r.stableIndex + 1 := by omega
  have long' : p.raft.log.length ≤ r.stableIndex + 1 := by
    rw [Raft.lastIndex] at persisted
    omega
  rw [List.take_of_length_le long, List.take_of_length_le long'] at log
  rw [Raft.durable, Raft.durable, Raft.hardState, Raft.hardState, term, vote, log]

/-- The file is that of the node before the call. -/
theorem called (h : Flushed p items) (evolves : p.raft.Evolves r)
    (whole : endsInRecord 0 p.contents = false) : Settled { p with raft := r } items :=
  ⟨(h.settled whole).stored.evolves evolves, h.contiguous, h.size⟩

theorem called_retriable (h : Flushed p items) (evolves : p.raft.Evolves r)
    (whole : endsInRecord 0 p.contents = false) : Process.Retriable { p with raft := r } :=
  (h.called evolves whole).stored.retriable_iff.mpr (Or.inl h.full)

/-- A `Save` after a call. -/
theorem save (h : Flushed p items) (evolves : p.raft.Evolves r) (fits : r.Fits)
    (writable : p.Writable r) :
    (Process.save { p with raft := r } none).1 = .ok ∧
      (Process.save { p with raft := r } none).2.raft = r.saved ∧
      ∃ more, Flushed (Process.save { p with raft := r } none).2 more := by
  obtain ⟨w, aligned, syncs, contents, -, same⟩ :=
    Process.save_eq (p := { p with raft := r }) h.aligned none
  by_cases nothing : RaftStorage.savedItems r p.storage.persistedIndex = []
  · have unchanged := h.unchanged evolves nothing
    rw [nothing, List.map_nil, encodedAll, List.append_nil] at contents
    rw [same]
    refine ⟨rfl, rfl, items, ⟨aligned.appends, syncs, ?_, ?_, h.fits⟩, aligned,
      ⟨evolves.numbered.log, ?_⟩, h.contiguous, h.size, ?_, ?_, rfl, rfl⟩
    · rw [contents]
      exact h.log
    · rw [contents]
      exact h.records
    · show r.lastIndex < r.log.length
      have := List.length_pos_iff.mpr evolves.numbered.nonempty
      rw [Raft.lastIndex]
      omega
    · rw [h.state, ← unchanged, Raft.durable, List.length_drop]
      rfl
    · exact h.state.trans unchanged.symm
  · have settled := h.called evolves (writable nothing)
    have retriable := h.called_retriable evolves (writable nothing)
    have saved := settled.save fits retriable none
    have full := (settled.stored.save fits retriable none).2 rfl
    have state := settled.saved_state retriable
    rw [same] at saved full ⊢
    exact ⟨rfl, rfl, _, saved.stored.holds.toJournaled, saved.stored.holds.aligned,
      saved.stored.node, saved.contiguous, saved.size, full, state, rfl, rfl⟩

/-- A `Save` after a call that a crash cuts, and a restart on what is left. -/
theorem cut (h : Flushed p items) (evolves : p.raft.Evolves r) (fits : r.Fits)
    (writable : p.Writable r) {n : Nat} (kept : p.contents.length ≤ n) :
    ∃ result fewer, Between p.raft.durable r result ∧
      ((Process.save { p with raft := r } none).2.cut n).reopen.raft =
        result.restored p.raft.config ∧
      Flushed ((Process.save { p with raft := r } none).2.cut n).reopen fewer := by
  obtain ⟨-, raft, -⟩ := h.save evolves fits writable
  have config : ((Process.save { p with raft := r } none).2.cut n).raft.config = p.raft.config :=
    (congrArg Raft.config raft).trans evolves.config
  by_cases nothing : RaftStorage.savedItems r p.storage.persistedIndex = []
  · obtain ⟨w, aligned, syncs, contents, -, same⟩ :=
      Process.save_eq (p := { p with raft := r }) h.aligned none
    rw [nothing, List.map_nil, encodedAll, List.append_nil] at contents
    have all : w.dest.contents.take n = p.contents := by
      rw [contents]
      exact List.take_of_length_le kept
    have journal : Journaled
        ((Process.save { p with raft := r } none).2.cut n).storage.writer.dest items := by
      rw [same]
      refine ⟨aligned.appends, syncs, ?_, ?_, h.fits⟩
      · show IsLog (w.dest.contents.take n)
        rw [all]
        exact h.log
      · show recordsOf (w.dest.contents.take n) = _
        rw [all]
        exact h.records
    obtain ⟨back, flushed⟩ := journal.flushed h.contiguous h.size
    rw [h.state, config] at back
    exact ⟨_, items, .before, back, flushed⟩
  · have settled := h.called evolves (writable nothing)
    have retriable := h.called_retriable evolves (writable nothing)
    obtain ⟨result, recovered, between⟩ := settled.cut_save fits retriable kept
    have saved := settled.save fits retriable none
    have journal := saved.cut n
    have same := journal.recovered
    rw [recovered, Except.ok.injEq, Prod.mk.injEq] at same
    have left : journalState _ = result :=
      (Recovered.mk.injEq _ _ _ _).mpr ⟨same.1.symm, same.2.symm⟩
    obtain ⟨back, flushed⟩ := journal.flushed
      (fun m => by rw [List.take_take]; exact saved.contiguous _)
      (fun m => by rw [List.take_take]; exact saved.size _)
    rw [left, config] at back
    rw [h.state] at between
    exact ⟨result, _, between, back, flushed⟩

end Flushed

end Files

/-! ## Turns are steps of the protocol -/

/-- A cluster on disks and the protocol history it has gone through. -/
structure DurableSim (M : Membership) (d : DurableCluster) (s : History) : Prop where
  cluster : ClusterSim M d.memory s
  files : ∀ n ∈ M.peers, ∃ items, Flushed (d.process n) items

theorem installed_sim (M : Membership) :
    DurableSim M M.installed (Protocol.initial NodeId LogEntry) where
  cluster := initial_sim M
  files := fun id _ => ⟨[], Flushed.fresh (M.config id)⟩

namespace DurableSim

variable {M : Membership} {d : DurableCluster} {s s' : History} {n : NodeId} {input : Input}

theorem place (h : DurableSim M d s) (member : n ∈ M.peers) : Local M s n (d.process n).raft :=
  h.cluster.at member

/-- A member that is called makes a few actions of the protocol. -/
theorem reaches (h : DurableSim M d s) (member : input.at ∈ M.peers)
    (available : input.Available d.sent) : Reaches M s input.at (d.operated input).raft := by
  cases input with
  | tick id => exact tick_sim (h.place member)
  | propose id data => exact propose_sim (h.place member) data
  | deliver msg => exact step_sim (h.place member) rfl (h.cluster.sent msg available)

theorem operated_lastApplied (d : DurableCluster) (input : Input) :
    (d.operated input).raft.lastApplied = (d.process input.at).raft.lastApplied := by
  cases input with
  | tick id => exact Raft.tick_lastApplied _
  | propose id data => exact Raft.propose_lastApplied _ data
  | deliver msg => exact Raft.step_lastApplied _ msg

/-- A call changes only the node, in a way that `Save` can follow. -/
theorem operated (h : DurableSim M d s) (member : input.at ∈ M.peers)
    (available : input.Available d.sent) :
    d.operated input = { d.process input.at with raft := (d.operated input).raft } ∧
      (d.process input.at).raft.Evolves (d.operated input).raft := by
  obtain ⟨_, flushed⟩ := h.files input.at member
  cases input with
  | tick id => exact ⟨rfl, Raft.tick_evolves flushed.node⟩
  | propose id data => exact ⟨rfl, Raft.propose_evolves flushed.node data⟩
  | deliver msg =>
      refine ⟨rfl, Raft.step_evolves flushed.node fun type => ?_⟩
      obtain ⟨-, vouched⟩ := h.cluster.sent msg available
      simp only [type] at vouched
      exact vouched.contiguous h.cluster.ledgers

/-- What a crash in the `Save` leaves of a call. -/
theorem resumes (h : DurableSim M d s) (member : input.at ∈ M.peers)
    (available : input.Available d.sent) {result : Recovered}
    (between : Between (d.process input.at).raft.durable (d.operated input).raft result) :
    Resumes M s input.at result := by
  obtain ⟨_, flushed⟩ := h.files input.at member
  have level := flushed.level
  cases input with
  | tick id => exact tick_interrupted (h.place member) level between
  | propose id data => exact propose_interrupted (h.place member) level between
  | deliver msg =>
      exact step_interrupted (h.place member) level rfl (h.cluster.sent msg available) between

theorem persist (h : DurableSim M d s) (member : input.at ∈ M.peers)
    (available : input.Available d.sent) (fits : (d.operated input).raft.Fits)
    (writable : (d.process input.at).Writable (d.operated input).raft) :
    ∃ s', M.protocol.Acts input.at s s' ∧
      DurableSim M (d.persist input.at (d.operated input)) s' := by
  obtain ⟨items, before⟩ := h.files input.at member
  obtain ⟨called, evolves⟩ := h.operated member available
  obtain ⟨ok, raft, more, flushed⟩ := before.save evolves fits writable
  rw [← called] at ok raft flushed
  obtain ⟨s', acts, after⟩ := h.cluster.update member (h.reaches member available).saved
    (operated_lastApplied d input)
  have same := d.persist_eq input.at ok
  have memory : (d.persist input.at (d.operated input)).memory =
      d.memory.update input.at (d.operated input).raft.saved := by
    rw [same, raft]
    simp only [DurableCluster.memory, Cluster.update]
    congr 1
    funext m
    split <;> rfl
  refine ⟨s', acts, memory ▸ after, fun m isPeer => ?_⟩
  rw [same]
  by_cases here : m = input.at
  · simp only [here, if_true]
    exact ⟨_, flushed.takeMessages⟩
  · simpa only [here, if_false] using h.files m isPeer

/-- A node that comes back: its history is extended, and its file holds all of it. -/
theorem revive (h : DurableSim M d s) (member : n ∈ M.peers) {p : Process} {items : List Item}
    {state : Recovered} (resumes : Resumes M s n state)
    (raft : p.raft = state.restored (M.config n)) (flushed : Flushed p items) :
    ∃ s', M.protocol.Extends s s' ∧ Protocol.Frame n s s' ∧ DurableSim M (d.revive n p) s' := by
  obtain ⟨s', ext, frame, there⟩ := resumes
  refine ⟨s', ext, frame, ⟨there.inv, there.ledgers, ?_, ?_, ?_⟩, ?_⟩
  · intro m isPeer
    by_cases here : m = n
    · subst here
      simpa only [DurableCluster.memory, DurableCluster.revive, if_true, raft] using there.node
    · simpa only [DurableCluster.memory, DurableCluster.revive, here, if_false] using
        (h.cluster.node m isPeer).frame here ext frame
  · exact fun msg isSent => (h.cluster.sent msg isSent).mono ext
  · intro m isPeer
    by_cases here : m = n
    · subst here
      simp [DurableCluster.memory, DurableCluster.revive, raft, Recovered.restored, Raft.restore,
        Raft.new]
    · simpa [DurableCluster.memory, DurableCluster.revive, here, frame.log m here] using
        h.cluster.taken m isPeer
  · intro m isPeer
    by_cases here : m = n
    · simp only [DurableCluster.revive, here, if_true]
      exact ⟨items, flushed⟩
    · simpa only [DurableCluster.revive, here, if_false] using h.files m isPeer

theorem config (h : DurableSim M d s) (member : n ∈ M.peers) :
    (d.process n).raft.config = M.config n :=
  (h.cluster.node n member).config

theorem crash (h : DurableSim M d s) (member : input.at ∈ M.peers)
    (available : input.Available d.sent) (kept : Nat) (fits : (d.operated input).raft.Fits)
    (writable : (d.process input.at).Writable (d.operated input).raft) :
    ∃ s', M.protocol.Extends s s' ∧ Protocol.Frame input.at s s' ∧
      DurableSim M (d.revive input.at (d.leftover input kept).reopen) s' := by
  obtain ⟨items, before⟩ := h.files input.at member
  obtain ⟨called, evolves⟩ := h.operated member available
  obtain ⟨result, fewer, between, raft, flushed⟩ := before.cut evolves fits writable
    (Nat.le_add_right (d.process input.at).contents.length kept)
  rw [← called] at raft flushed
  rw [h.config member] at raft
  exact h.revive member (h.resumes member available between) raft flushed

theorem restart (h : DurableSim M d s) (member : n ∈ M.peers) :
    ∃ s', M.protocol.Extends s s' ∧ Protocol.Frame n s s' ∧
      DurableSim M (d.revive n (d.process n).reopen) s' := by
  obtain ⟨items, flushed⟩ := h.files n member
  obtain ⟨raft, after⟩ := flushed.reopen
  rw [h.config member] at raft
  exact h.revive member (h.place member).resumes raft after

theorem takeCommitted (h : DurableSim M d s) (member : n ∈ M.peers) :
    DurableSim M (d.next (.takeCommitted n)) s := by
  have memory : (d.next (.takeCommitted n)).memory = d.memory.next (.takeCommitted n) := by
    simp only [DurableCluster.memory, DurableCluster.next, Cluster.next, Raft.takeCommitted]
    congr 1
    funext m
    split <;> rfl
  refine ⟨memory ▸ h.cluster.takeCommitted member, fun m isPeer => ?_⟩
  by_cases here : m = n
  · subst here
    obtain ⟨items, flushed⟩ := h.files m isPeer
    simp only [DurableCluster.next, if_true]
    exact ⟨items, flushed.takeCommitted⟩
  · simpa only [DurableCluster.next, here, if_false] using h.files m isPeer

/-- A turn extends the history, and a node that keeps its memory keeps what it
    counts as chosen. -/
theorem next (h : DurableSim M d s) (t : Turn) (member : t.at ∈ M.peers) (sound : t.Sound d) :
    ∃ s', M.protocol.Extends s s' ∧ (∀ a, ¬ t.Revives a → Protocol.Kept a s s') ∧
      DurableSim M (d.next t) s' := by
  have still : ∃ s', M.protocol.Extends s s' ∧ (∀ a, ¬ t.Revives a → Protocol.Kept a s s') ∧
      DurableSim M d s' :=
    ⟨s, Protocol.Extends.refl s, fun a _ => Protocol.Kept.refl a s, h⟩
  -- the other nodes do not notice that one comes back
  have others {n : NodeId} {s' : History} (frame : Protocol.Frame n s s') (a : NodeId)
      (other : ¬ n = a) : Protocol.Kept a s s' := by
    refine ⟨(frame.commit a (Ne.symm other)).ge, ?_⟩
    rw [frame.log a (Ne.symm other)]
    exact List.take_prefix _ _
  cases t with
  | operate input =>
      rw [DurableCluster.next]
      split
      · obtain ⟨s', acts, after⟩ := h.persist member ‹_› sound.1 sound.2
        obtain ⟨-, ext, -, kept⟩ := Protocol.acts_sound h.cluster.inv acts
        exact ⟨s', ext, fun a _ => kept a, after⟩
      · exact still
  | crash input kept =>
      rw [DurableCluster.next]
      split
      · obtain ⟨s', ext, frame, after⟩ := h.crash member ‹_› kept sound.1 sound.2
        exact ⟨s', ext, others frame, after⟩
      · exact still
  | takeCommitted id =>
      exact ⟨s, Protocol.Extends.refl s, fun a _ => Protocol.Kept.refl a s, h.takeCommitted member⟩
  | restart id =>
      obtain ⟨s', ext, frame, after⟩ := h.restart member
      exact ⟨s', ext, others frame, after⟩

end DurableSim

/-! ## Whole runs -/

section Runs

variable {M : Membership} {s : History} {early later : List Turn}

/-- A run that goes on extends its history. -/
theorem DurableSim.run (h : DurableSim M (M.durable early) s) (sound : M.Sound (early ++ later)) :
    ∃ s', M.protocol.Extends s s' ∧
      (∀ a, (∀ t ∈ later, ¬ t.Revives a) → Protocol.Kept a s s') ∧
      DurableSim M (M.durable (early ++ later)) s' := by
  induction later using List.reverseRecOn with
  | nil =>
      rw [List.append_nil]
      exact ⟨s, Protocol.Extends.refl s, fun a _ => Protocol.Kept.refl a s, h⟩
  | append_singleton later t ih =>
      rw [← List.append_assoc] at sound ⊢
      obtain ⟨s', ext, kept, there⟩ := ih fun before t inside =>
        sound before t (inside.trans (List.prefix_append _ _))
      have last : M.durable (early ++ later ++ [t]) = M.turn (M.durable (early ++ later)) t := by
        simp [Membership.durable]
      obtain ⟨s'', ext', kept', after⟩ : ∃ s'', M.protocol.Extends s' s'' ∧
          (∀ a, ¬ t.Revives a → Protocol.Kept a s' s'') ∧
          DurableSim M (M.turn (M.durable (early ++ later)) t) s'' := by
        rw [Membership.turn]
        split
        · exact there.next t ‹_› (sound _ t List.prefix_rfl)
        · exact ⟨s', Protocol.Extends.refl s', fun a _ => Protocol.Kept.refl a s', there⟩
      refine ⟨s'', ext.trans ext', fun a never => ?_, last ▸ after⟩
      exact (kept a fun t member => never t (List.mem_append_left _ member)).trans
        (kept' a (never t (by simp)))

/-- Two moments of one run and their histories. -/
theorem durable_moments_sim {turns : List Turn} (sound : M.Sound turns) {k l : Nat} (le : k ≤ l) :
    ∃ s s', DurableSim M (M.stage turns k) s ∧ DurableSim M (M.stage turns l) s' ∧
      M.protocol.Extends s s' ∧
      ∀ a, (∀ t ∈ (turns.take l).drop k, ¬ t.Revives a) → Protocol.Kept a s s' := by
  have soundUpto (j : Nat) : M.Sound (turns.take j) := fun before t inside =>
    sound before t (inside.trans (List.take_prefix _ _))
  have split : turns.take k ++ (turns.take l).drop k = turns.take l := take_append_between turns le
  have fresh : DurableSim M (M.durable []) _ := installed_sim M
  obtain ⟨s, -, -, start⟩ := fresh.run (soundUpto k)
  obtain ⟨s', ext, kept, there⟩ := start.run (by rw [List.nil_append, split]; exact soundUpto l)
  rw [List.nil_append, split] at there
  exact ⟨s, s', start, there, ext, kept⟩

end Runs

end MiniLsm
