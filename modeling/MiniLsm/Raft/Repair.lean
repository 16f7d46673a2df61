import MiniLsm.Raft.Merge
import Mathlib.Logic.Function.Iterate

/-! # Repairing the log of one peer

A leader and a peer of it, alone: the leader sends, the peer answers, and each
rejection moves `next_index_` back by one until the logs meet.
-/

namespace MiniLsm

namespace Raft

/-- The messages that a message makes a node queue. -/
def replies (r : Raft) (msg : Message) : List Message := (r.step msg).outMsgs.drop r.outMsgs.length

/-- Entry `i` is at position `i`, behind the sentinel of the constructor. -/
structure WellFormed (r : Raft) : Prop where
  sentinel : r.log.head? = some ({} : LogEntry)
  numbered : Contiguous 0 r.log

theorem WellFormed.nonempty {r : Raft} (h : r.WellFormed) : r.log ≠ [] := by
  intro empty
  have := h.sentinel
  simp [empty] at this

theorem WellFormed.first {r : Raft} (h : r.WellFormed) : r.log[0]? = some ({} : LogEntry) := by
  rw [← List.head?_eq_getElem?]
  exact h.sentinel

end Raft

/-- Two logs with an entry of one term at a position are the same up to it. -/
def LogMatching (left right : List LogEntry) : Prop :=
  ∀ i (inLeft : i < left.length) (inRight : i < right.length),
    left[i].term = right[i].term → left.take (i + 1) = right.take (i + 1)

/-- A leader and one of its peers. -/
structure Repair where
  leader : Raft
  peer : Raft

namespace Repair

variable {s : Repair}

/-- `next_index_` of the peer. -/
def next (s : Repair) : Nat := s.leader.nextIndex s.peer.config.id

/-- What the leader sends. -/
def request (s : Repair) : Message := s.leader.appendEntriesTo s.peer.config.id

/-- What the peer answers. -/
def answer (s : Repair) : List Message := s.peer.replies s.request

/-- The leader sends, the peer steps, the leader steps the answer. -/
def round (s : Repair) : Repair where
  leader := s.answer.foldl Raft.step (s.leader.sendAppendEntries s.peer.config.id)
  peer := s.peer.step s.request

/-- A leader that has still to find where the two logs meet. -/
structure Searching (s : Repair) : Prop where
  leads : s.leader.role = .leader
  follows : s.peer.role ≠ .leader
  term : s.peer.currentTerm ≤ s.leader.currentTerm
  leaderLog : s.leader.WellFormed
  peerLog : s.peer.WellFormed
  matching : LogMatching s.peer.log s.leader.log
  positive : 1 ≤ s.next
  inside : s.next ≤ s.leader.lastIndex + 1

/-- The peer has the whole log of the leader, and the leader knows. -/
structure Repaired (s : Repair) (log : List LogEntry) : Prop where
  same : s.leader.log = log
  held : log.drop 1 <+: s.peer.log.drop 1
  known : s.leader.matchIndex s.peer.config.id = s.leader.lastIndex
  next : s.next = s.leader.lastIndex + 1

/-- The message after which `next_index_` sends, with the term it checks. -/
theorem Searching.request_eq (h : s.Searching) : s.request.type = .appendEntries ∧
    s.request.term = s.leader.currentTerm ∧ s.request.prevLogIndex + 1 = s.next ∧
    s.request.prevLogTerm = s.leader.termAt (s.next - 1) ∧
    s.request.entries = s.leader.log.drop s.next := by
  have positive := h.positive
  have pred : predU64 s.next = s.next - 1 := by
    rw [predU64, if_neg (by omega)]
  refine ⟨rfl, rfl, ?_, ?_, rfl⟩
  · show predU64 s.next + 1 = s.next
    rw [pred, Nat.sub_add_cancel positive]
  · show s.leader.termAt (predU64 s.next) = _
    rw [pred]

/-- The peer takes the message as a follower of the leader's term. -/
theorem Searching.heard (h : s.Searching) :
    ∃ peer : Raft, s.peer.step s.request = peer.handleAppendEntries s.request ∧
      s.peer.SameLog peer ∧ peer.role = .follower ∧ peer.config = s.peer.config ∧
      peer.currentTerm = s.leader.currentTerm ∧ peer.outMsgs = s.peer.outMsgs := by
  refine ⟨_, Raft.step_heard rfl h.follows h.term, ?_⟩
  exact ⟨⟨rfl, rfl, rfl⟩, rfl, rfl, rfl, rfl⟩

/-- The peer answers with one message, which the leader takes. -/
theorem Searching.exchange (h : s.Searching) {peer : Raft} {reply : Message}
    (steps : s.peer.step s.request = peer.send reply) (out : peer.outMsgs = s.peer.outMsgs)
    (type : reply.type = .appendEntriesResp) (term : reply.term = s.leader.currentTerm) :
    s.answer = [reply] ∧
      s.round.leader = (s.leader.sendAppendEntries s.peer.config.id).handleAppendEntriesResp reply := by
  have answer : s.answer = [reply] := by
    rw [Repair.answer, Raft.replies, steps, Raft.send, out, List.drop_left]
  refine ⟨answer, ?_⟩
  have leads : (s.leader.sendAppendEntries s.peer.config.id).role = .leader := h.leads
  have current : (s.leader.sendAppendEntries s.peer.config.id).currentTerm = reply.term := term.symm
  rw [round, answer, List.foldl_cons, List.foldl_nil, Raft.step, if_neg (by omega),
    if_neg (by omega)]
  simp only [Raft.stepRole, leads, Raft.stepLeader, type]

/-- A rejection, which the sentinel rules out at the first entry, moves
    `next_index_` back. -/
theorem Searching.rejected (h : s.Searching) (reject : s.peer.Rejects s.request) :
    s.round.Searching ∧ s.round.next + 1 = s.next ∧ s.round.leader.log = s.leader.log := by
  obtain ⟨-, -, prev, prevTerm, -⟩ := h.request_eq
  have beyond : 1 < s.next := by
    by_contra first
    have one : s.next = 1 := le_antisymm (by omega) h.positive
    have zero : s.request.prevLogIndex = 0 := by omega
    rcases reject with past | differs
    · omega
    · rw [zero, prevTerm, one, Raft.termAt_inside h.peerLog.first,
        Raft.termAt_inside h.leaderLog.first] at differs
      exact differs rfl
  obtain ⟨peer, steps, same, role, config, term, out⟩ := h.heard
  have peerAfter : s.peer.step s.request = { peer with
      leader := s.request.fromNode
      electionElapsed := 0 }.send (peer.appendReply s.request false 0) :=
    steps.trans (Raft.handleAppendEntries_reject (same.rejects.mpr reject))
  have leaderAfter : s.round.leader = { s.leader.sendAppendEntries s.peer.config.id with
      nextIndex := assign s.leader.nextIndex s.peer.config.id (s.next - 1) } := by
    rw [(h.exchange peerAfter out rfl term).2, Raft.handleAppendEntriesResp,
      if_neg (by simp [Raft.appendReply])]
    simp only [Raft.appendReply, config]
    exact if_pos beyond
  replace peerAfter : s.round.peer = _ := peerAfter
  have peerId : s.round.peer.config.id = s.peer.config.id := by
    rw [peerAfter]
    exact congrArg Config.id config
  have peerLog : s.round.peer.log = s.peer.log := by
    rw [peerAfter]
    exact same.log
  have leaderLog : s.round.leader.log = s.leader.log := by rw [leaderAfter]; rfl
  have next : s.round.next = s.next - 1 := by
    rw [Repair.next, peerId, leaderAfter]
    simp [assign]
  refine ⟨?_, by omega, leaderLog⟩
  exact {
    leads := by rw [leaderAfter]; exact h.leads
    follows := by
      rw [peerAfter]
      simp [Raft.send, role]
    term := by
      rw [peerAfter, leaderAfter]
      exact term.le
    leaderLog := ⟨by rw [leaderLog]; exact h.leaderLog.sentinel,
      by rw [leaderLog]; exact h.leaderLog.numbered⟩
    peerLog := ⟨by rw [peerLog]; exact h.peerLog.sentinel,
      by rw [peerLog]; exact h.peerLog.numbered⟩
    matching := by rw [peerLog, leaderLog]; exact h.matching
    positive := by omega
    inside := by
      have := h.inside
      rw [Raft.lastIndex] at this ⊢
      rw [leaderLog]
      omega }

/-- An acceptance leaves no divergent entry in the log of the peer. -/
theorem Searching.accepted (h : s.Searching) (accept : ¬ s.peer.Rejects s.request) :
    (∃ reply, s.answer = [reply] ∧ reply.success = true) ∧ s.round.Repaired s.leader.log := by
  obtain ⟨-, -, prev, prevTerm, entries⟩ := h.request_eq
  obtain ⟨peer, steps, same, role, config, term, out⟩ := h.heard
  have inside := h.inside
  have leaderSize := List.length_pos_iff.mpr h.leaderLog.nonempty
  have peerSize := List.length_pos_iff.mpr h.peerLog.nonempty
  have inLeader : s.request.prevLogIndex < s.leader.log.length := by
    rw [Raft.lastIndex] at inside
    omega
  have inPeer : s.request.prevLogIndex < s.peer.log.length := by
    have low := not_or.mp accept |>.1
    rw [Raft.lastIndex] at low
    omega
  have contiguous : Contiguous (s.request.prevLogIndex + 1) s.request.entries := by
    have := h.leaderLog.numbered.drop s.next
    rwa [Nat.zero_add, ← entries, ← prev] at this
  have sameTerm : s.peer.log[s.request.prevLogIndex].term =
      s.leader.log[s.request.prevLogIndex].term := by
    have checked := not_not.mp (not_or.mp accept).2
    rw [prevTerm, ← prev, Nat.add_sub_cancel,
      Raft.termAt_inside (List.getElem?_eq_getElem inPeer),
      Raft.termAt_inside (List.getElem?_eq_getElem inLeader)] at checked
    exact checked
  have nonempty : peer.log ≠ [] := by
    rw [same.log]
    exact h.peerLog.nonempty
  have peerAfter := steps.trans (Raft.handleAppendEntries_accept
    (mt same.rejects.mp accept) nonempty contiguous)
  obtain ⟨answer, leaderAfter⟩ := h.exchange peerAfter out rfl term
  refine ⟨⟨_, answer, rfl⟩, ?_⟩
  -- the commit search leaves the log and what is known of the peers
  obtain ⟨commitIndex, leaderIs⟩ : ∃ commitIndex, s.round.leader =
      { s.leader.sendAppendEntries s.peer.config.id with
        matchIndex := assign s.leader.matchIndex s.peer.config.id s.leader.lastIndex
        nextIndex := assign s.leader.nextIndex s.peer.config.id (s.leader.lastIndex + 1)
        commitIndex } := by
    have size : s.request.prevLogIndex + s.request.entries.length = s.leader.lastIndex := by
      rw [entries, List.length_drop, Raft.lastIndex]
      omega
    rw [leaderAfter, Raft.handleAppendEntriesResp, if_pos (by simp [Raft.appendReply])]
    simp only [Raft.appendReply, config, size]
    rcases Raft.maybeCommit_cases _ with ⟨unmoved, -⟩ | ⟨n, -, -, moved⟩
    · exact ⟨_, unmoved⟩
    · exact ⟨n, moved⟩
  have peerId : s.round.peer.config.id = s.peer.config.id := by
    show (s.peer.step s.request).config.id = _
    rw [peerAfter]
    exact congrArg Config.id config
  have last : s.round.leader.lastIndex = s.leader.lastIndex := by
    rw [leaderIs]
    rfl
  exact {
    same := by
      rw [leaderIs]
      rfl
    held := by
      have peerLog : s.round.peer.log = splice s.peer.log (s.request.prevLogIndex + 1)
          (s.leader.log.drop (s.request.prevLogIndex + 1)) := by
        show (s.peer.step s.request).log = _
        rw [peerAfter, prev, ← entries, ← same.log]
        rfl
      refine List.IsPrefix.drop ?_ 1
      rw [peerLog]
      rcases splice_matching h.matching inPeer inLeader sameTerm with ⟨held, kept⟩ | ⟨-, replaced⟩
      · rwa [kept]
      · rw [replaced]
    known := by
      rw [last, peerId, leaderIs]
      simp [assign]
    next := by
      rw [last, Repair.next, peerId, leaderIs]
      simp [assign] }

/-- The rounds end with a success after at most as many as `next_index_` says,
    and the logs meet. -/
theorem backoff_repairs (s : Repair) (h : s.Searching) :
    ∃ k < s.next, (∃ reply, (round^[k] s).answer = [reply] ∧ reply.success = true) ∧
      (round^[k + 1] s).Repaired s.leader.log := by
  -- each rejection leaves the same search with a smaller index
  obtain ⟨n, size⟩ : ∃ n, s.next = n := ⟨_, rfl⟩
  induction n generalizing s with
  | zero =>
      have := h.positive
      omega
  | succ n ih =>
      by_cases reject : s.peer.Rejects s.request
      · obtain ⟨searching, less, sameLog⟩ := h.rejected reject
        obtain ⟨k, within, success, repaired⟩ := ih s.round searching (by omega)
        refine ⟨k + 1, by omega, ?_, ?_⟩
        · rwa [Function.iterate_succ_apply]
        · rw [Function.iterate_succ_apply]
          rwa [sameLog] at repaired
      · obtain ⟨success, repaired⟩ := h.accepted reject
        exact ⟨0, by omega, success, repaired⟩

/-- The peer was a leader of term 2 with two entries of its own. -/
def partitioned : Repair where
  leader :=
    { config := { id := 1, peers := [1, 2, 3] }
      role := .leader
      currentTerm := 3
      log := [{}, { term := 1, index := 1 }, { term := 3, index := 2 }]
      nextIndex := fun _ => 3 }
  peer :=
    { config := { id := 2, peers := [1, 2, 3] }
      currentTerm := 2
      log := [{}, { term := 1, index := 1 }, { term := 2, index := 2 }, { term := 2, index := 3 }] }

theorem backoff_repairs_partitioned :
    ∃ k < 3, (∃ reply, (round^[k] partitioned).answer = [reply] ∧ reply.success = true) ∧
      (round^[k + 1] partitioned).Repaired partitioned.leader.log := by
  refine backoff_repairs partitioned ?_
  exact {
    leads := rfl
    follows := by decide
    term := by decide
    leaderLog := ⟨rfl, rfl, rfl, rfl, trivial⟩
    peerLog := ⟨rfl, rfl, rfl, rfl, rfl, trivial⟩
    matching := by
      intro i inPeer inLeader same
      have small : i < 3 := inLeader
      match i with
      | 0 | 1 => rfl
      | 2 => exact absurd (show 2 = 3 from same) (by decide)
      | i + 3 => omega
    positive := by decide
    inside := by decide }

end Repair

end MiniLsm
