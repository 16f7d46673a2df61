import MiniLsm.Raft.DurableCluster

/-! # Safety across crashes

What the guarantees of Raft become when nodes lose their memory in the middle of
a `Save`: committed entries stay the same on all nodes, a term has one leader
and one vote of each node, and what was committed can be recovered from the
files of a majority ever after.
-/

namespace MiniLsm

open Consensus

/-- Soundness of a run, turn by turn. -/
theorem sound_of_steps {M : Membership} {turns : List Turn}
    (h : ∀ i < turns.length, ∀ t ∈ turns[i]?, t.Sound (M.stage turns i)) : M.Sound turns :=
  forall_steps turns (fun before t => t.Sound (M.durable before)) h

section Reading

variable {M : Membership} {d : DurableCluster} {s s' : History} {a b n : NodeId} {i : Nat}

theorem DurableSim.node (h : DurableSim M d s) (member : n ∈ M.peers) :
    NodeSim M s n (d.process n).raft :=
  h.cluster.node n member

/-- The file of a node replays to its state. -/
theorem DurableSim.recovered (h : DurableSim M d s) (member : n ∈ M.peers) :
    (d.process n).recovered =
      .ok ((d.process n).raft.hardState, (d.process n).raft.log.drop 1) := by
  obtain ⟨items, flushed⟩ := h.files n member
  rw [flushed.toJournaled.recovered, flushed.state]
  rfl

/-- What a node handed out is decided. -/
theorem DurableSim.taken_decided (h : DurableSim M d s) (member : n ∈ M.peers) :
    M.protocol.Decided s (s.term n) (d.taken n) := by
  have node := h.node member
  have taken : d.taken n = (s.log n).take (d.process n).raft.lastApplied :=
    h.cluster.taken n member
  have below := node.applied
  rw [node.commit] at below
  have short := List.take_prefix_take_left (l := s.log n) below
  rw [taken]
  rcases h.cluster.inv.commitDecided n with empty | ⟨t, chosen, isChosen, early, inside⟩
  · rw [empty] at short
    exact Or.inl (List.prefix_nil.mp short)
  · exact Or.inr ⟨t, chosen, isChosen, early, short.trans inside⟩

end Reading

/-- A vote of a term stays, and a term is never left for an earlier one. -/
theorem NodeSim.precedes {r r' : Raft} (h : NodeSim M s n r) (h' : NodeSim M s' n r')
    (ext : M.protocol.Extends s s') : r.hardState.Precedes r'.hardState := by
  rcases Nat.lt_or_eq_of_le (ext.term n) with before | same
  · refine Or.inl ?_
    rw [← h.term, ← h'.term] at before
    exact before
  · refine Or.inr ⟨h.term.trans (same.trans h'.term.symm), ?_⟩
    by_cases free : r.votedFor = 0
    · exact Or.inl free
    · have vote := ext.vote _ _ _ (h.vote.trans (if_neg free))
      rw [same, h'.vote] at vote
      split at vote
      · exact absurd vote (Option.some_ne_none _).symm
      · exact Or.inr (Option.some.inj vote)

/-! ## Any run -/

/-- Node 1 wins term 1, and node 3 goes down after it stored the term and before
    it stores the entry it is sent. The entry is committed with node 2, and node 1
    goes down in the middle of writing another one. -/
def crashing : List Turn :=
  let entry : LogEntry := { term := 1, index := 1, data := [7] }
  [ .operate (.tick 1),
    .operate (.deliver { type := .requestVote, fromNode := 1, toNode := 2, term := 1 }),
    .operate (.deliver { type := .requestVoteResp, fromNode := 2, toNode := 1, term := 1,
                         voteGranted := true }),
    .operate (.propose 1 [7]),
    .operate (.tick 1),
    .crash (.deliver { type := .appendEntries, fromNode := 1, toNode := 3, term := 1,
                       entries := [entry] }) 24,
    .operate (.deliver { type := .appendEntries, fromNode := 1, toNode := 2, term := 1,
                         entries := [entry] }),
    .operate (.deliver { type := .appendEntriesResp, fromNode := 2, toNode := 1, term := 1,
                         success := true, matchIndex := 1 }),
    .operate (.tick 1),
    .operate (.deliver { type := .appendEntries, fromNode := 1, toNode := 2, term := 1,
                         prevLogIndex := 1, prevLogTerm := 1, leaderCommit := 1 }),
    .takeCommitted 2,
    .crash (.propose 1 [8]) 5 ]

theorem crashing_sound : threeNodes.Sound crashing := sound_of_steps (by decide +kernel)

/-- State machine safety on disks: nodes that committed an index committed the
    same entry there, and what two of them handed out since their last restarts
    is the same sequence as far as it goes. -/
theorem committed_agree_across_crashes (M : Membership) (turns : List Turn) (sound : M.Sound turns)
    (k l : Nat) (a b : NodeId) (isA : a ∈ M.peers) (isB : b ∈ M.peers) :
    (∀ i, 1 ≤ i → i ≤ ((M.stage turns k).process a).raft.commitIndex →
      i ≤ ((M.stage turns l).process b).raft.commitIndex →
      ∃ e, ((M.stage turns k).process a).raft.log[i]? = some e ∧
        ((M.stage turns l).process b).raft.log[i]? = some e) ∧
    ((M.stage turns k).taken a <+: (M.stage turns l).taken b ∨
      (M.stage turns l).taken b <+: (M.stage turns k).taken a) := by
  rcases le_total k l with inOrder | inOrder
  · obtain ⟨s, s', early, late, ext, -⟩ := durable_moments_sim sound inOrder
    constructor
    · intro i positive committedA committedB
      exact committed_agree early.cluster late.cluster ext isA isB positive committedA committedB
    · exact Protocol.decided_comparable late.cluster.inv
        ((early.taken_decided isA).mono ext le_rfl) (late.taken_decided isB)
  · obtain ⟨s, s', early, late, ext, -⟩ := durable_moments_sim sound inOrder
    constructor
    · intro i positive committedA committedB
      obtain ⟨e, atB, atA⟩ :=
        committed_agree early.cluster late.cluster ext isB isA positive committedB committedA
      exact ⟨e, atA, atB⟩
    · exact (Protocol.decided_comparable late.cluster.inv
        ((early.taken_decided isB).mono ext le_rfl) (late.taken_decided isA)).symm

theorem committed_agree_across_crashes_crashing :
    1 ≤ ((threeNodes.stage crashing 8).process 1).raft.commitIndex ∧
      ∃ e, ((threeNodes.stage crashing 8).process 1).raft.log[1]? = some e ∧
        ((threeNodes.stage crashing 12).process 2).raft.log[1]? = some e :=
  ⟨by decide +kernel, (committed_agree_across_crashes threeNodes crashing crashing_sound 8 12 1 2
    (by decide) (by decide)).1 1 (by decide) (by decide +kernel) (by decide +kernel)⟩

/-- Election safety on disks: the leaders of a term are one node, and so are the
    candidates to which a node ever sent its vote of a term. -/
theorem one_leader_across_crashes (M : Membership) (turns : List Turn) (sound : M.Sound turns)
    (k l : Nat) :
    (∀ a ∈ M.peers, ∀ b ∈ M.peers, ((M.stage turns k).process a).raft.role = .leader →
      ((M.stage turns l).process b).raft.role = .leader →
      ((M.stage turns k).process a).raft.currentTerm =
        ((M.stage turns l).process b).raft.currentTerm → a = b) ∧
    (∀ m ∈ (M.stage turns k).sent, ∀ m' ∈ (M.stage turns l).sent, m.Grants → m'.Grants →
      m.fromNode = m'.fromNode → m.term = m'.term → m.toNode = m'.toNode) := by
  wlog inOrder : k ≤ l generalizing k l with swapped
  · obtain ⟨leaders, votes⟩ := swapped l k (by omega)
    exact ⟨fun a isA b isB leadsA leadsB same => (leaders b isB a isA leadsB leadsA same.symm).symm,
      fun m isM m' isM' grants grants' same term =>
        (votes m' isM' m isM grants' grants same.symm term.symm).symm⟩
  obtain ⟨s, s', early, late, ext, -⟩ := durable_moments_sim sound inOrder
  constructor
  · intro a isA b isB leadsA leadsB sameTerm
    have nodeA := early.node isA
    have nodeB := late.node isB
    have ledByA := ext.leader _ _ (nodeA.leader leadsA).leads
    have ledByB := (nodeB.leader leadsB).leads
    rw [← nodeA.term, sameTerm, nodeB.term, ledByB] at ledByA
    exact (Option.some.inj ledByA).symm
  · rintro m isM m' isM' ⟨type, granted⟩ ⟨type', granted'⟩ same term
    obtain ⟨-, meaning⟩ := (early.cluster.sent m isM).mono ext
    obtain ⟨-, meaning'⟩ := late.cluster.sent m' isM'
    simp only [type] at meaning
    simp only [type'] at meaning'
    have vote := meaning granted
    rw [same, term, meaning' granted'] at vote
    exact (Option.some.inj vote).symm

theorem one_leader_across_crashes_crashing :
    ((threeNodes.stage crashing 3).process 1).raft.role = .leader ∧ (1 : NodeId) = 1 :=
  ⟨by decide +kernel, (one_leader_across_crashes threeNodes crashing crashing_sound 3 11).1 1
    (by decide) 1 (by decide) (by decide +kernel) (by decide +kernel) (by decide +kernel)⟩

/-- Durability of committed entries: what any node has committed can be recovered
    from the files of a majority, then and at every later moment, and every leader
    of a later term has it. -/
theorem committed_recoverable (M : Membership) (turns : List Turn) (sound : M.Sound turns)
    (k l : Nat) (inOrder : k ≤ l) (a : NodeId) (isA : a ∈ M.peers) (i : Nat) (positive : 1 ≤ i)
    (committed : i ≤ ((M.stage turns k).process a).raft.commitIndex) :
    ∃ e, ((M.stage turns k).process a).raft.log[i]? = some e ∧
      (∃ voters : List NodeId, voters.Nodup ∧ voters ⊆ M.peers ∧
        M.peers.length < 2 * voters.length ∧
        ∀ n ∈ voters, ∃ hs entries,
          ((M.stage turns l).process n).recovered = .ok (hs, entries) ∧
            entries[i - 1]? = some e) ∧
      ∀ b ∈ M.peers, ((M.stage turns l).process b).raft.role = .leader →
        ((M.stage turns k).process a).raft.currentTerm <
          ((M.stage turns l).process b).raft.currentTerm →
        ((M.stage turns l).process b).raft.log[i]? = some e := by
  obtain ⟨s, s', early, late, ext, -⟩ := durable_moments_sim sound inOrder
  have nodeA := early.node isA
  have length := nodeA.committed_length early.cluster.inv committed
  have inside : i - 1 < ((s.log a).take (s.commit a)).length := by omega
  have found := List.getElem?_eq_getElem inside
  have decided := (early.cluster.inv.commitDecided a).mono ext le_rfl
  refine ⟨_, (nodeA.get_committed early.cluster.inv positive committed).trans found, ?_, ?_⟩
  · have some : (s.log a).take (s.commit a) ≠ [] := List.ne_nil_of_length_pos (by omega)
    obtain ⟨voters, distinct, members, held, many⟩ := decided.held late.cluster.inv some
    refine ⟨voters, distinct, members, many, fun n member => ?_⟩
    refine ⟨_, _, late.recovered (members member), ?_⟩
    have inLog : (s.log a).take (s.commit a) <+: s'.log n := held n member
    rw [(late.node (members member)).log, List.drop_one, List.tail_cons,
      get_of_prefix inLog inside, found]
  · intro b isB leads later
    have nodeB := late.node isB
    have led := (nodeB.leader leads).leads
    rw [nodeA.term, nodeB.term] at later
    have inLedger := Protocol.ledger_complete late.cluster.inv (Protocol.Extends.refl s') decided
      later (by simp [led])
    rw [← (nodeB.leader leads).same] at inLedger
    rw [nodeB.get positive, get_of_prefix inLedger inside, found]

theorem committed_recoverable_crashing :
    ∃ e, ((threeNodes.stage crashing 8).process 1).raft.log[1]? = some e ∧
      ∃ voters : List NodeId, voters ⊆ [1, 2, 3] ∧ 3 < 2 * voters.length ∧
        ∀ n ∈ voters, ∃ hs entries,
          ((threeNodes.stage crashing 12).process n).recovered = .ok (hs, entries) ∧
            entries[0]? = some e := by
  obtain ⟨e, held, ⟨voters, -, members, many, recovered⟩, -⟩ :=
    committed_recoverable threeNodes crashing crashing_sound 8 12 (by decide) 1 (by decide) 1
      (by decide) (by decide +kernel)
  exact ⟨e, held, voters, members, many, recovered⟩

/-- Leaders only append: between two moments of one node's leadership of a term
    its log grows at the end. -/
theorem leader_appends_across_crashes (M : Membership) (turns : List Turn) (sound : M.Sound turns)
    (k l : Nat) (inOrder : k ≤ l) (a : NodeId) (isA : a ∈ M.peers)
    (leadsK : ((M.stage turns k).process a).raft.role = .leader)
    (leadsL : ((M.stage turns l).process a).raft.role = .leader)
    (sameTerm : ((M.stage turns k).process a).raft.currentTerm =
      ((M.stage turns l).process a).raft.currentTerm) :
    ((M.stage turns k).process a).raft.log <+: ((M.stage turns l).process a).raft.log := by
  obtain ⟨s, s', early, late, ext, -⟩ := durable_moments_sim sound inOrder
  have nodeK := early.node isA
  have nodeL := late.node isA
  rw [nodeK.term, nodeL.term] at sameTerm
  rw [nodeK.log, nodeL.log, (nodeK.leader leadsK).same, (nodeL.leader leadsL).same, ← sameTerm]
  exact List.cons_prefix_cons.mpr ⟨rfl, ext.ledger _⟩

theorem leader_appends_across_crashes_crashing :
    ((threeNodes.stage crashing 3).process 1).raft.log <+:
      ((threeNodes.stage crashing 11).process 1).raft.log :=
  leader_appends_across_crashes threeNodes crashing crashing_sound 3 11 (by decide) 1 (by decide)
    (by decide +kernel) (by decide +kernel) (by decide +kernel)

/-- What is on disk: at every moment a member's file replays to its term, its
    vote and its log, which is numbered from 1; two recovered logs with one term
    at an index agree up to it; and neither the term nor the vote of a member is
    ever taken back. -/
theorem recovered_across_crashes (M : Membership) (turns : List Turn) (sound : M.Sound turns)
    (k l : Nat) (inOrder : k ≤ l) :
    (∀ n ∈ M.peers, ((M.stage turns k).process n).recovered =
        .ok (((M.stage turns k).process n).raft.hardState,
          ((M.stage turns k).process n).raft.log.drop 1) ∧
      Contiguous 1 (((M.stage turns k).process n).raft.log.drop 1) ∧
      ((M.stage turns k).process n).raft.hardState.Precedes
        ((M.stage turns l).process n).raft.hardState) ∧
    ∀ a ∈ M.peers, ∀ b ∈ M.peers, ∀ hs hs' entries entries',
      ((M.stage turns l).process a).recovered = .ok (hs, entries) →
      ((M.stage turns l).process b).recovered = .ok (hs', entries') →
      ∀ i e e', entries[i]? = some e → entries'[i]? = some e' → e.term = e'.term →
        entries.take (i + 1) = entries'.take (i + 1) := by
  obtain ⟨s, s', early, late, ext, -⟩ := durable_moments_sim sound inOrder
  constructor
  · intro n member
    have node := early.node member
    refine ⟨early.recovered member, ?_, node.precedes (late.node member) ext⟩
    rw [node.log]
    exact node.numbered
  · intro a isA b isB hs hs' entries entries' recoveredA recoveredB i e e' atA atB sameTerm
    rw [late.recovered isA, (late.node isA).log] at recoveredA
    rw [late.recovered isB, (late.node isB).log] at recoveredB
    simp only [Except.ok.injEq, Prod.mk.injEq, List.drop_one, List.tail_cons] at recoveredA recoveredB
    obtain ⟨-, rfl⟩ := recoveredA
    obtain ⟨-, rfl⟩ := recoveredB
    obtain ⟨inA, rfl⟩ := List.getElem?_eq_some_iff.mp atA
    obtain ⟨inB, rfl⟩ := List.getElem?_eq_some_iff.mp atB
    exact (late.cluster.inv.logBacked a).matching (late.cluster.inv.logBacked b) inA inB sameTerm

theorem recovered_across_crashes_crashing :
    ((threeNodes.stage crashing 6).process 3).recovered = .ok ({ term := 1, vote := 0 }, []) ∧
      (HardState.mk 1 0).Precedes ((threeNodes.stage crashing 12).process 3).raft.hardState := by
  obtain ⟨recovered, -, precedes⟩ :=
    (recovered_across_crashes threeNodes crashing crashing_sound 6 12 (by decide)).1 3 (by decide)
  have state : ((threeNodes.stage crashing 6).process 3).raft.hardState = { term := 1, vote := 0 } ∧
      ((threeNodes.stage crashing 6).process 3).raft.log.drop 1 = [] := by
    decide +kernel
  rw [state.1, state.2] at recovered
  rw [state.1] at precedes
  exact ⟨recovered, precedes⟩

end MiniLsm
