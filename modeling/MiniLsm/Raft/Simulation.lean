import MiniLsm.Raft.Cluster
import MiniLsm.Raft.Loops
import MiniLsm.Consensus.Safety
import Mathlib.Data.List.GetD

/-! # The nodes carry out the replication protocol

The simulation relation between one node of the code and its part of the
protocol state, and what every message ever emitted says about the history.
Each handler is matched by a few protocol actions of the node.
-/

namespace MiniLsm

open Consensus

/-- The abstract protocol a membership runs: majorities, and entries with the
    term they were proposed in. -/
def Membership.protocol (M : Membership) : Protocol NodeId LogEntry :=
  { majority M.peers with termOf := LogEntry.term }

abbrev History := State NodeId LogEntry

/-- The entry at position 0 of every log. -/
abbrev sentinel : LogEntry := default

/-- What an AppendEntries message says is backed by its term's ledger. -/
structure Vouched (M : Membership) (s : History) (msg : Message) : Prop where
  leads : s.leader msg.term = some msg.fromNode
  written : msg.prevLogIndex + msg.entries.length ≤ (s.ledger msg.term).length
  entries : msg.entries =
    ((s.ledger msg.term).take (msg.prevLogIndex + msg.entries.length)).drop msg.prevLogIndex
  prevTerm : msg.prevLogTerm =
    ((sentinel :: s.ledger msg.term).getD msg.prevLogIndex default).term
  commit : msg.leaderCommit ≤ msg.prevLogIndex + msg.entries.length
  decided : M.protocol.Decided s msg.term ((s.ledger msg.term).take msg.leaderCommit)

/-- What a message that was emitted says about the history. -/
def MsgSim (M : Membership) (s : History) (msg : Message) : Prop :=
  msg.fromNode ∈ M.peers ∧
  match msg.type with
  | .requestVote => ∃ log, s.standing msg.fromNode msg.term = some log ∧
      msg.lastLogIndex = log.length ∧ msg.lastLogTerm = M.protocol.lastTerm log
  | .requestVoteResp => msg.voteGranted = true → s.vote msg.fromNode msg.term = some msg.toNode
  | .appendEntries => Vouched M s msg
  | .appendEntriesResp => msg.success = true → msg.matchIndex ≤ s.acked msg.fromNode msg.term

/-- What a candidate knows. -/
structure Standing (M : Membership) (s : History) (n : NodeId) (r : Raft) : Prop where
  stood : s.standing n (s.term n) = some (s.log n)
  open_ : s.leader (s.term n) ≠ some n
  distinct : r.votesGranted.Nodup
  granted : ∀ v ∈ r.votesGranted, v ∈ M.peers ∧ s.vote v (s.term n) = some n

/-- What a leader knows. -/
structure Leading (M : Membership) (s : History) (n : NodeId) (r : Raft) : Prop where
  leads : s.leader (s.term n) = some n
  same : s.log n = s.ledger (s.term n)
  next : ∀ p ∈ M.peers, p ≠ n → 1 ≤ r.nextIndex p ∧ r.nextIndex p ≤ (s.log n).length + 1
  acked : ∀ p ∈ M.peers, p ≠ n → r.matchIndex p ≤ s.acked p (s.term n)

/-- A node of the code and its part of the protocol state. -/
structure NodeSim (M : Membership) (s : History) (n : NodeId) (r : Raft) : Prop where
  config : r.config = M.config n
  term : r.currentTerm = s.term n
  log : r.log = sentinel :: s.log n
  numbered : Contiguous 1 (s.log n)
  commit : r.commitIndex = s.commit n
  applied : r.lastApplied ≤ r.commitIndex
  stable : r.stableIndex ≤ (s.log n).length
  vote : s.vote n (s.term n) = if r.votedFor = 0 then none else some r.votedFor
  candidate : r.role = .candidate → Standing M s n r
  leader : r.role = .leader → Leading M s n r
  out : ∀ msg ∈ r.outMsgs, MsgSim M s msg

/-- A node in a protocol state that satisfies the protocol invariant. -/
structure Local (M : Membership) (s : History) (n : NodeId) (r : Raft) : Prop where
  member : n ∈ M.peers
  inv : M.protocol.Inv s
  ledgers : ∀ t, Contiguous 1 (s.ledger t)
  node : NodeSim M s n r

/-- Protocol actions of `n` lead to a state that the node `r` is in. -/
def Reaches (M : Membership) (s : History) (n : NodeId) (r : Raft) : Prop :=
  ∃ s', M.protocol.Acts n s s' ∧ Local M s' n r

section Reading

variable {M : Membership} {s s' : History} {n : NodeId} {r : Raft}

@[simp] theorem protocol_termOf : M.protocol.termOf = LogEntry.term := rfl

theorem NodeSim.lastIndex (h : NodeSim M s n r) : r.lastIndex = (s.log n).length := by
  simp [Raft.lastIndex, h.log]

theorem NodeSim.lastTerm (h : NodeSim M s n r) : r.lastTerm = M.protocol.lastTerm (s.log n) := by
  rw [Raft.lastTerm, h.log]
  rcases List.eq_nil_or_concat' (s.log n) with empty | ⟨init, e, whole⟩
  · rw [empty]
    rfl
  · rw [whole, ← List.cons_append, List.getLastD_concat]
    simp [Protocol.lastTerm, Protocol.tip]

theorem NodeSim.termAt (h : NodeSim M s n r) (i : Nat) :
    r.termAt i = ((sentinel :: s.log n).getD i default).term := by
  rw [Raft.termAt, Raft.entryAt, h.lastIndex, h.log]
  split
  · rw [List.getD_eq_default _ _ (by simp only [List.length_cons]; omega)]
    rfl
  · rfl

theorem NodeSim.config_id (h : NodeSim M s n r) : r.config.id = n := by
  simp [h.config, Membership.config]

theorem NodeSim.config_peers (h : NodeSim M s n r) : r.config.peers = M.peers := by
  simp [h.config, Membership.config]

theorem NodeSim.mem_others (h : NodeSim M s n r) {p : NodeId} :
    p ∈ r.others ↔ p ∈ M.peers ∧ p ≠ n := by
  rw [Raft.mem_others, h.config_id, h.config_peers]

/-- The protocol does not see the timers, the cursors and the queue of a node. -/
theorem NodeSim.unseen (h : NodeSim M s n r) {r' : Raft}
    (same : { r' with
      lastApplied := r.lastApplied, stableIndex := r.stableIndex, leader := r.leader,
      electionElapsed := r.electionElapsed, heartbeatElapsed := r.heartbeatElapsed,
      hardStateDirty := r.hardStateDirty, outMsgs := r.outMsgs } = r)
    (applied : r'.lastApplied ≤ r'.commitIndex) (stable : r'.stableIndex ≤ (s.log n).length)
    (out : ∀ msg ∈ r'.outMsgs, MsgSim M s msg) : NodeSim M s n r' := by
  rw [← same] at h
  exact ⟨h.config, h.term, h.log, h.numbered, h.commit, applied, stable, h.vote,
    fun role => ⟨(h.candidate role).stood, (h.candidate role).open_, (h.candidate role).distinct,
      (h.candidate role).granted⟩,
    fun role => ⟨(h.leader role).leads, (h.leader role).same, (h.leader role).next,
      (h.leader role).acked⟩, out⟩

theorem NodeSim.timers (h : NodeSim M s n r) (leader : NodeId) (election heartbeat : Int)
    (dirty : Bool) :
    NodeSim M s n { r with
      leader := leader, electionElapsed := election, heartbeatElapsed := heartbeat,
      hardStateDirty := dirty } :=
  h.unseen rfl h.applied h.stable h.out

theorem NodeSim.send (h : NodeSim M s n r) {msg : Message} (meaning : MsgSim M s msg) :
    NodeSim M s n (r.send msg) := by
  refine h.unseen rfl h.applied h.stable ?_
  intro m member
  rcases List.mem_append.mp member with old | new
  · exact h.out m old
  · rw [List.mem_singleton.mp new]
    exact meaning

theorem Vouched.contiguous {msg : Message} (h : Vouched M s msg)
    (ledgers : ∀ t, Contiguous 1 (s.ledger t)) :
    Contiguous (msg.prevLogIndex + 1) msg.entries := by
  have front := (ledgers msg.term).prefix_of
    (List.take_prefix (msg.prevLogIndex + msg.entries.length) _)
  rw [h.entries, Nat.add_comm]
  exact front.drop msg.prevLogIndex

theorem Vouched.terms {msg : Message} (h : Vouched M s msg) (inv : M.protocol.Inv s) :
    ∀ e ∈ msg.entries, e.term ≤ msg.term := by
  intro e member
  rw [h.entries] at member
  exact inv.ledgerTerms _ e (List.mem_of_mem_take (List.mem_of_mem_drop member))

theorem Vouched.mono {msg : Message} (h : Vouched M s msg) (ext : M.protocol.Extends s s') :
    Vouched M s' msg := by
  have longer := ext.ledger msg.term
  have length := longer.length_le
  have same : ∀ k, k ≤ (s.ledger msg.term).length →
      (s'.ledger msg.term).take k = (s.ledger msg.term).take k := by
    intro k le
    obtain ⟨more, whole⟩ := longer
    rw [← whole, List.take_append_of_le_length le]
  have written := h.written
  have commit := h.commit
  have entries := h.entries
  have prevTerm := h.prevTerm
  refine ⟨ext.leader _ _ h.leads, written.trans length, ?_, ?_, commit, ?_⟩
  · rw [same _ written]
    exact entries
  · rw [prevTerm]
    obtain ⟨more, whole⟩ := longer
    have inside : msg.prevLogIndex < (sentinel :: s.ledger msg.term).length := by
      simp only [List.length_cons]
      omega
    rw [← whole, ← List.cons_append, List.getD_append _ _ _ _ inside]
  · rw [same _ (by omega)]
    exact h.decided.mono ext le_rfl

theorem MsgSim.mono {msg : Message} (h : MsgSim M s msg) (ext : M.protocol.Extends s s') :
    MsgSim M s' msg := by
  obtain ⟨member, meaning⟩ := h
  refine ⟨member, ?_⟩
  cases type : msg.type with
  | requestVote =>
      simp only [type] at meaning ⊢
      obtain ⟨log, stood, index, term⟩ := meaning
      exact ⟨log, ext.standing _ _ _ stood, index, term⟩
  | requestVoteResp =>
      simp only [type] at meaning ⊢
      exact fun granted => ext.vote _ _ _ (meaning granted)
  | appendEntries =>
      simp only [type] at meaning ⊢
      exact meaning.mono ext
  | appendEntriesResp =>
      simp only [type] at meaning ⊢
      exact fun success => (meaning success).trans (ext.acked _ _)

/-- Actions of another node leave a node's relation to the protocol intact. -/
theorem NodeSim.frame {m : NodeId} (h : NodeSim M s m r) (other : m ≠ n)
    (ext : M.protocol.Extends s s') (frame : Protocol.Frame n s s') : NodeSim M s' m r where
  config := h.config
  term := h.term.trans (frame.term m other).symm
  log := by rw [h.log, frame.log m other]
  numbered := by simpa only [frame.log m other] using h.numbered
  commit := h.commit.trans (frame.commit m other).symm
  applied := h.applied
  stable := by simpa only [frame.log m other] using h.stable
  vote := by rw [frame.term m other, frame.vote m _ other, h.vote]
  candidate := by
    intro role
    obtain ⟨stood, open_, distinct, granted⟩ := h.candidate role
    refine ⟨?_, ?_, distinct, ?_⟩
    · rw [frame.term m other, frame.standing m _ other, frame.log m other, stood]
    · rw [frame.term m other]
      exact fun led => open_ ((frame.leader m _ other).mp led)
    · intro v member
      rw [frame.term m other]
      exact ⟨(granted v member).1, ext.vote _ _ _ (granted v member).2⟩
  leader := by
    intro role
    obtain ⟨leads, same, next, acked⟩ := h.leader role
    refine ⟨?_, ?_, ?_, ?_⟩
    · rw [frame.term m other]
      exact ext.leader _ _ leads
    · rw [frame.term m other, frame.log m other, frame.ledger m _ other leads, same]
    · rw [frame.log m other]
      exact next
    · intro p member away
      rw [frame.term m other]
      exact (acked p member away).trans (ext.acked _ _)
  out := fun msg member => (h.out msg member).mono ext

end Reading

end MiniLsm
