import MiniLsm.Raft.Refinement

/-! # Safety of the cluster

The guarantees of Raft, read off the protocol history of a run: at most one
leader a term, matching logs, complete leaders, agreement on committed entries,
and a committed prefix that is stable and handed out once.
-/

namespace MiniLsm

open Consensus

section Reading

variable {M : Membership} {c : Cluster} {s s' : History} {a b : NodeId} {r : Raft} {i : Nat}

theorem NodeSim.get (h : NodeSim M s a r) (positive : 1 ≤ i) : r.log[i]? = (s.log a)[i - 1]? := by
  obtain ⟨j, rfl⟩ := Nat.exists_eq_add_of_le' positive
  simp [h.log]

/-- Two lists, one of which starts with the other, agree where both reach. -/
theorem get_of_comparable {left right : List LogEntry} (h : left <+: right ∨ right <+: left)
    (inLeft : i < left.length) (inRight : i < right.length) : left[i]? = right[i]? := by
  rcases h with ⟨rest, rfl⟩ | ⟨rest, rfl⟩
  · rw [List.getElem?_append_left inLeft]
  · rw [List.getElem?_append_left inRight]

/-- Entries of a prefix of the log are entries of the log. -/
theorem get_of_prefix {short log : List LogEntry} (h : short <+: log) (inside : i < short.length) :
    log[i]? = short[i]? :=
  (get_of_comparable (Or.inl h) inside (inside.trans_le h.length_le)).symm

theorem NodeSim.committed_length (h : NodeSim M s a r) (inv : M.protocol.Inv s)
    (committed : i ≤ r.commitIndex) : i ≤ ((s.log a).take (s.commit a)).length := by
  have held := inv.commitHeld a
  rw [h.commit] at committed
  simp only [List.length_take]
  omega

/-- A committed position holds an entry of the decided prefix. -/
theorem NodeSim.get_committed (h : NodeSim M s a r) (inv : M.protocol.Inv s) (positive : 1 ≤ i)
    (committed : i ≤ r.commitIndex) :
    r.log[i]? = ((s.log a).take (s.commit a))[i - 1]? := by
  have length := h.committed_length inv committed
  rw [h.get positive]
  exact get_of_prefix (List.take_prefix _ _) (by omega)

end Reading

/-! ## Committed entries -/

section

variable {M : Membership} {c c' : Cluster} {s s' : History} {a b : NodeId} {i : Nat}

/-- Agreement for two moments whose histories are known, in order. -/
theorem committed_agree (early : ClusterSim M c s) (late : ClusterSim M c' s')
    (ext : M.protocol.Extends s s') (isA : a ∈ M.peers) (isB : b ∈ M.peers) (positive : 1 ≤ i)
    (committedA : i ≤ (c.node a).commitIndex) (committedB : i ≤ (c'.node b).commitIndex) :
    ∃ e, (c.node a).log[i]? = some e ∧ (c'.node b).log[i]? = some e := by
  have nodeA := early.node a isA
  have nodeB := late.node b isB
  have decidedA := (early.inv.commitDecided a).mono ext (le_refl _)
  have comparable := Protocol.decided_comparable late.inv decidedA (late.inv.commitDecided b)
  have lengthA := nodeA.committed_length early.inv committedA
  have lengthB := nodeB.committed_length late.inv committedB
  have same := get_of_comparable (i := i - 1) comparable (by omega) (by omega)
  rw [nodeA.get_committed early.inv positive committedA,
    nodeB.get_committed late.inv positive committedB, ← same]
  have found := List.getElem?_eq_getElem (l := (s.log a).take (s.commit a)) (i := i - 1) (by omega)
  exact ⟨_, found, found⟩

end

/-- State machine safety: whatever two nodes have committed at an index, at
    whatever moments of a run, is the same entry. -/
theorem committed_entries_agree (M : Membership) (events : List Event) (k l : Nat) (a b : NodeId)
    (isA : a ∈ M.peers) (isB : b ∈ M.peers) (i : Nat) (positive : 1 ≤ i)
    (committedA : i ≤ ((M.moment events k).node a).commitIndex)
    (committedB : i ≤ ((M.moment events l).node b).commitIndex) :
    ∃ e e', ((M.moment events k).node a).log[i]? = some e ∧
      ((M.moment events l).node b).log[i]? = some e' ∧ e.term = e'.term ∧ e.data = e'.data := by
  rcases le_total k l with inOrder | inOrder
  · obtain ⟨s, s', early, late, ext, -⟩ := moments_sim M events inOrder
    obtain ⟨e, atA, atB⟩ := committed_agree early late ext isA isB positive committedA committedB
    exact ⟨e, e, atA, atB, rfl, rfl⟩
  · obtain ⟨s, s', early, late, ext, -⟩ := moments_sim M events inOrder
    obtain ⟨e, atB, atA⟩ := committed_agree early late ext isB isA positive committedB committedA
    exact ⟨e, e, atA, atB, rfl, rfl⟩

/-- Three nodes whose election timer fires at once. -/
def threeNodes : Membership where
  peers := [1, 2, 3]
  distinct := by decide
  nonzero := by decide
  electionTimeout := fun _ => 1
  heartbeatTimeout := fun _ => 1

/-- Node 1 wins term 1, replicates one entry to node 2 and commits it on both;
    then node 2 wins term 2. -/
def twoTerms : List Event :=
  let entry : LogEntry := { term := 1, index := 1, data := [7] }
  [ .tick 1,
    .deliver { type := .requestVote, fromNode := 1, toNode := 2, term := 1 },
    .deliver { type := .requestVoteResp, fromNode := 2, toNode := 1, term := 1,
               voteGranted := true },
    .propose 1 [7],
    .tick 1,
    .deliver { type := .appendEntries, fromNode := 1, toNode := 2, term := 1,
               entries := [entry] },
    .deliver { type := .appendEntriesResp, fromNode := 2, toNode := 1, term := 1,
               success := true, matchIndex := 1 },
    .tick 1,
    .deliver { type := .appendEntries, fromNode := 1, toNode := 2, term := 1,
               prevLogIndex := 1, prevLogTerm := 1, leaderCommit := 1 },
    .takeCommitted 2,
    .tick 2,
    .deliver { type := .requestVote, fromNode := 2, toNode := 3, term := 2,
               lastLogIndex := 1, lastLogTerm := 1 },
    .deliver { type := .requestVoteResp, fromNode := 3, toNode := 2, term := 2,
               voteGranted := true } ]

theorem committed_entries_agree_twoTerms :
    1 ≤ ((threeNodes.moment twoTerms 7).node 1).commitIndex ∧
      ∃ e e', ((threeNodes.moment twoTerms 7).node 1).log[1]? = some e ∧
        ((threeNodes.moment twoTerms 9).node 2).log[1]? = some e' ∧
        e.term = e'.term ∧ e.data = e'.data :=
  ⟨by decide, committed_entries_agree threeNodes twoTerms 7 9 1 2 (by decide) (by decide) 1
    (by decide) (by decide) (by decide)⟩

/-! ## Leaders -/

/-- Election safety: the leaders of one term, at any moments, are one node. -/
theorem leaders_of_term_unique (M : Membership) (events : List Event) (k l : Nat) (a b : NodeId)
    (isA : a ∈ M.peers) (isB : b ∈ M.peers)
    (leadsA : ((M.moment events k).node a).role = .leader)
    (leadsB : ((M.moment events l).node b).role = .leader)
    (sameTerm : ((M.moment events k).node a).currentTerm =
      ((M.moment events l).node b).currentTerm) : a = b := by
  wlog inOrder : k ≤ l generalizing k l a b with swapped
  · exact (swapped l k b a isB isA leadsB leadsA sameTerm.symm (by omega)).symm
  obtain ⟨s, s', early, late, ext, -⟩ := moments_sim M events inOrder
  have nodeA := early.node a isA
  have nodeB := late.node b isB
  have ledByA := ext.leader _ _ (nodeA.leader leadsA).leads
  have ledByB := (nodeB.leader leadsB).leads
  rw [← nodeA.term, sameTerm, nodeB.term, ledByB] at ledByA
  exact (Option.some.inj ledByA).symm

theorem leaders_of_term_unique_twoTerms :
    ((threeNodes.moment twoTerms 3).node 1).role = .leader ∧ (1 : NodeId) = 1 :=
  ⟨by decide, leaders_of_term_unique threeNodes twoTerms 3 8 1 1 (by decide) (by decide)
    (by decide) (by decide) (by decide)⟩

/-- Leader completeness: what a node has committed while in a term, the term's
    leader in particular, every leader of a later term holds, at whatever
    moments the two are looked at. -/
theorem later_leaders_hold_committed (M : Membership) (events : List Event) (k l : Nat)
    (a b : NodeId) (isA : a ∈ M.peers) (isB : b ∈ M.peers)
    (leadsB : ((M.moment events l).node b).role = .leader)
    (later : ((M.moment events k).node a).currentTerm < ((M.moment events l).node b).currentTerm)
    (i : Nat) (positive : 1 ≤ i) (committed : i ≤ ((M.moment events k).node a).commitIndex) :
    ∃ e, ((M.moment events k).node a).log[i]? = some e ∧
      ((M.moment events l).node b).log[i]? = some e := by
  -- the decided prefix of the earlier term is in the ledger of the later one
  have transfer : ∀ {s s'}, ClusterSim M (M.moment events k) s →
      ClusterSim M (M.moment events l) s' → (s.log a).take (s.commit a) <+: s'.ledger (s'.term b) →
      ∃ e, ((M.moment events k).node a).log[i]? = some e ∧
        ((M.moment events l).node b).log[i]? = some e := by
    intro s s' atK atL inside
    have nodeA := atK.node a isA
    have nodeB := atL.node b isB
    have length := nodeA.committed_length atK.inv committed
    rw [← (nodeB.leader leadsB).same] at inside
    rw [nodeA.get_committed atK.inv positive committed, nodeB.get positive,
      get_of_prefix inside (by omega)]
    have found :=
      List.getElem?_eq_getElem (l := (s.log a).take (s.commit a)) (i := i - 1) (by omega)
    exact ⟨_, found, found⟩
  rcases le_total k l with inOrder | inOrder
  · obtain ⟨s, s', atK, atL, ext, -⟩ := moments_sim M events inOrder
    have decided := (atK.inv.commitDecided a).mono ext (le_refl _)
    have led := ((atL.node b isB).leader leadsB).leads
    rw [(atK.node a isA).term, (atL.node b isB).term] at later
    exact transfer atK atL (Protocol.ledger_complete atL.inv (Protocol.Extends.refl s') decided
      later (by simp [led]))
  · obtain ⟨s', s, atL, atK, ext, -⟩ := moments_sim M events inOrder
    have led := ((atL.node b isB).leader leadsB).leads
    rw [(atK.node a isA).term, (atL.node b isB).term] at later
    exact transfer atK atL (Protocol.ledger_complete atK.inv ext (atK.inv.commitDecided a)
      later (by simp [led]))

theorem later_leaders_hold_committed_twoTerms :
    ((threeNodes.moment twoTerms 7).node 1).role = .leader ∧
      ((threeNodes.moment twoTerms 13).node 2).role = .leader ∧
      ∃ e, ((threeNodes.moment twoTerms 7).node 1).log[1]? = some e ∧
        ((threeNodes.moment twoTerms 13).node 2).log[1]? = some e :=
  ⟨by decide, by decide, later_leaders_hold_committed threeNodes twoTerms 7 13 1 2 (by decide) (by decide)
    (by decide) (by decide) 1 (by decide) (by decide)⟩

/-! ## Logs -/

section Matching

variable {M : Membership} {c : Cluster} {s : History} {a b : NodeId} {i : Nat}

/-- Two backed logs with one term at a position hold the same entries up to it. -/
theorem entries_match {left right : List LogEntry} (hl : M.protocol.Backed s left)
    (hr : M.protocol.Backed s right) (inLeft : i < left.length) (inRight : i < right.length)
    (sameTerm : left[i].term = right[i].term) {j : Nat} (upto : j ≤ i) :
    ∃ e, left[j]? = some e ∧ right[j]? = some e := by
  have same := hl.matching hr inLeft inRight sameTerm
  have found : left[j]? = right[j]? := by
    rw [← List.getElem?_take_of_lt (show j < i + 1 by omega), same,
      List.getElem?_take_of_lt (by omega)]
  have inside := List.getElem?_eq_getElem (l := left) (i := j) (by omega)
  exact ⟨_, inside, found ▸ inside⟩

theorem NodeSim.termAt_get {r : Raft} (h : NodeSim M s a r) (inside : i < (s.log a).length) :
    r.termAt (i + 1) = (s.log a)[i].term := by
  rw [h.termAt, List.getD_cons_succ, List.getD_eq_getElem _ _ inside]

theorem ClusterSim.logs_match (h : ClusterSim M c s) (isA : a ∈ M.peers) (isB : b ∈ M.peers)
    (inA : i ≤ (c.node a).lastIndex) (inB : i ≤ (c.node b).lastIndex)
    (sameTerm : (c.node a).termAt i = (c.node b).termAt i) {j : Nat} (positive : 1 ≤ j)
    (upto : j ≤ i) : ∃ e, (c.node a).log[j]? = some e ∧ (c.node b).log[j]? = some e := by
  have nodeA := h.node a isA
  have nodeB := h.node b isB
  obtain ⟨i, rfl⟩ := Nat.exists_eq_add_of_le' (positive.trans upto)
  rw [nodeA.lastIndex] at inA
  rw [nodeB.lastIndex] at inB
  rw [nodeA.termAt_get inA, nodeB.termAt_get inB] at sameTerm
  rw [nodeA.get positive, nodeB.get positive]
  exact entries_match (h.inv.logBacked a) (h.inv.logBacked b) inA inB sameTerm (by omega)

/-- An entry of an AppendEntries message sits in the ledger of its term. -/
theorem Vouched.entry {msg : Message} (h : Vouched M s msg) (k : Nat) :
    msg.entries[k]? = if k < msg.entries.length then (s.ledger msg.term)[msg.prevLogIndex + k]?
      else none := by
  split
  · conv_lhs => rw [h.entries]
    rw [List.getElem?_drop, List.getElem?_take_of_lt (by omega)]
  · rw [List.getElem?_eq_none (by omega)]

theorem ClusterSim.message_matches (h : ClusterSim M c s) (isA : a ∈ M.peers) {msg : Message}
    (isSent : msg ∈ c.sent) (type : msg.type = .appendEntries) {e : LogEntry}
    (member : e ∈ msg.entries) (sameTerm : (c.node a).termAt e.index = e.term) :
    (∀ j, msg.prevLogIndex + 1 ≤ j → j ≤ e.index → ∃ x, (c.node a).log[j]? = some x ∧
      msg.entries[j - (msg.prevLogIndex + 1)]? = some x ∧ x.index = j) ∧
    (c.node a).termAt msg.prevLogIndex = msg.prevLogTerm := by
  have nodeA := h.node a isA
  obtain ⟨-, vouched⟩ := h.sent msg isSent
  simp only [type] at vouched
  obtain ⟨k, bound, rfl⟩ := List.getElem_of_mem member
  have written := vouched.written
  have inLedger : msg.prevLogIndex + k < (s.ledger msg.term).length := by omega
  have isEntry : msg.entries[k] = (s.ledger msg.term)[msg.prevLogIndex + k] := by
    have := vouched.entry k
    rw [if_pos bound, List.getElem?_eq_getElem bound, List.getElem?_eq_getElem inLedger] at this
    exact Option.some.inj this
  have index : msg.entries[k].index = msg.prevLogIndex + k + 1 := by
    rw [isEntry, (h.ledgers msg.term).index inLedger]
    omega
  rw [index] at sameTerm ⊢
  have positive : 0 < msg.entries[k].term := by
    rw [isEntry]
    exact (h.inv.ledgerBacked msg.term).term_pos h.inv (List.getElem_mem inLedger)
  -- beyond the end of its log a node answers term 0
  have inLog : msg.prevLogIndex + k < (s.log a).length := by
    by_contra beyond
    rw [nodeA.termAt, List.getD_eq_default _ _ (by simp only [List.length_cons]; omega)] at sameTerm
    rw [← sameTerm] at positive
    exact absurd positive (by decide)
  rw [nodeA.termAt_get inLog, isEntry] at sameTerm
  have same := (h.inv.logBacked a).matching (h.inv.ledgerBacked msg.term) inLog inLedger sameTerm
  constructor
  · intro j above upto
    have found := entries_match (h.inv.logBacked a) (h.inv.ledgerBacked msg.term) inLog inLedger
      sameTerm (show j - 1 ≤ msg.prevLogIndex + k by omega)
    obtain ⟨x, inNode, inMsg⟩ := found
    have position : msg.prevLogIndex + (j - (msg.prevLogIndex + 1)) = j - 1 := by omega
    refine ⟨x, (nodeA.get (by omega)).trans inNode, ?_, ?_⟩
    · rw [vouched.entry, if_pos (by omega), position, inMsg]
    · obtain ⟨inside, rfl⟩ := List.getElem?_eq_some_iff.mp inNode
      rw [nodeA.numbered.index inside]
      omega
  · rw [nodeA.termAt, vouched.prevTerm]
    have prefixes : ∀ log : List LogEntry, msg.prevLogIndex + k < log.length →
        (sentinel :: log).getD msg.prevLogIndex default =
          (sentinel :: log.take (msg.prevLogIndex + k + 1)).getD msg.prevLogIndex default := by
      intro log long
      rw [List.getD_eq_getElem?_getD, List.getD_eq_getElem?_getD, ← List.take_succ_cons,
        List.getElem?_take_of_lt (by omega)]
    rw [prefixes _ inLog, prefixes _ inLedger, same]

end Matching

/-- Log matching, between the logs of any two nodes and between any
    AppendEntries message and any node. -/
theorem logs_and_messages_match (M : Membership) (events : List Event) :
    (∀ a ∈ M.peers, ∀ b ∈ M.peers, ∀ i,
      i ≤ ((M.run events).node a).lastIndex → i ≤ ((M.run events).node b).lastIndex →
      ((M.run events).node a).termAt i = ((M.run events).node b).termAt i →
      ∀ j, 1 ≤ j → j ≤ i → ∃ e, ((M.run events).node a).log[j]? = some e ∧
        ((M.run events).node b).log[j]? = some e) ∧
    (∀ msg ∈ (M.run events).sent, msg.type = .appendEntries → ∀ a ∈ M.peers, ∀ e ∈ msg.entries,
      ((M.run events).node a).termAt e.index = e.term →
      (∀ j, msg.prevLogIndex + 1 ≤ j → j ≤ e.index → ∃ x,
        ((M.run events).node a).log[j]? = some x ∧
        msg.entries[j - (msg.prevLogIndex + 1)]? = some x ∧ x.index = j) ∧
      ((M.run events).node a).termAt msg.prevLogIndex = msg.prevLogTerm) := by
  obtain ⟨s, h⟩ := run_sim M events
  constructor
  · intro a isA b isB i inA inB sameTerm j positive upto
    exact h.logs_match isA isB inA inB sameTerm positive upto
  · intro msg isSent type a isA e member sameTerm
    exact h.message_matches isA isSent type member sameTerm

theorem logs_and_messages_match_twoTerms :
    (∃ e, ((threeNodes.run twoTerms).node 1).log[1]? = some e ∧
      ((threeNodes.run twoTerms).node 2).log[1]? = some e) ∧
    ((threeNodes.run twoTerms).node 2).termAt 0 = 0 :=
  ⟨(logs_and_messages_match threeNodes twoTerms).1 1 (by decide) 2 (by decide) 1 (by decide)
      (by decide) (by decide) 1 (by decide) (by decide),
    ((logs_and_messages_match threeNodes twoTerms).2
      { type := .appendEntries, fromNode := 1, toNode := 2, term := 1,
        entries := [{ term := 1, index := 1, data := [7] }] } (by decide) rfl 2 (by decide)
      { term := 1, index := 1, data := [7] } (by decide) (by decide)).2⟩

/-! ## Logs in order -/

/-- A node whose log is numbered behind the sentinel and ordered by term. -/
structure Raft.Orderly (r : Raft) : Prop where
  /-- The first entry of a log that is never empty. -/
  sentinel : r.log.head? = some { term := 0, index := 0, data := [] }
  index : ∀ (i : Nat) (e : LogEntry), r.log[i]? = some e → e.index = i
  sorted : r.log.Pairwise fun e e' => e.term ≤ e'.term
  terms : ∀ e ∈ r.log, e.term ≤ r.currentTerm
  candidate : r.role = .candidate → r.lastTerm < r.currentTerm
  stable : r.stableIndex ≤ r.lastIndex

section Orderly

variable {M : Membership} {s : History} {n : NodeId} {r : Raft}

/-- A candidate stood with its log, and no entry is of the term it stands for. -/
theorem Standing.lastTerm_lt (h : Standing M s n r) (inv : M.protocol.Inv s) :
    M.protocol.lastTerm (s.log n) < s.term n := by
  by_cases empty : s.log n = []
  · rw [empty]
    exact inv.stoodPos n _ _ h.stood
  · obtain ⟨e, member, same⟩ := Protocol.tip_mem (Protocol.tip_of_ne_nil (P := M.protocol) empty)
    rw [← same]
    exact inv.stoodTerms n _ _ h.stood e member

theorem NodeSim.orderly (h : NodeSim M s n r) (inv : M.protocol.Inv s) : r.Orderly where
  sentinel := by
    rw [h.log]
    rfl
  index := by
    intro i e found
    have numbered : Contiguous 0 r.log := by
      rw [h.log]
      exact ⟨rfl, h.numbered⟩
    obtain ⟨inside, rfl⟩ := List.getElem?_eq_some_iff.mp found
    rw [numbered.index inside, Nat.zero_add]
  sorted := by
    rw [h.log]
    exact List.Pairwise.cons (fun e _ => Nat.zero_le _) ((inv.logBacked n).sorted inv.toLogs)
  terms := by
    rw [h.log, h.term, List.forall_mem_cons]
    exact ⟨Nat.zero_le _, inv.logTerms n⟩
  candidate := by
    intro role
    rw [h.lastTerm, h.term]
    exact (h.candidate role).lastTerm_lt inv
  stable := by
    rw [h.lastIndex]
    exact h.stable

end Orderly

/-- In every state that a cluster reaches, all the logs are in order, and every
    AppendEntries message carries entries numbered after the one it refers to and
    of no later term than its own. -/
theorem logs_orderly (M : Membership) (events : List Event) :
    (∀ a ∈ M.peers, ((M.run events).node a).Orderly) ∧
    ∀ msg ∈ (M.run events).sent, msg.type = .appendEntries →
      Contiguous (msg.prevLogIndex + 1) msg.entries ∧ ∀ e ∈ msg.entries, e.term ≤ msg.term := by
  obtain ⟨s, h⟩ := run_sim M events
  refine ⟨fun a isA => (h.node a isA).orderly h.inv, fun msg isSent type => ?_⟩
  obtain ⟨-, vouched⟩ := h.sent msg isSent
  simp only [type] at vouched
  exact ⟨vouched.contiguous h.ledgers, vouched.terms h.inv⟩

/-- Two terms, and node 2 is the leader of the second one. -/
theorem logs_orderly_twoTerms :
    ((threeNodes.run twoTerms).node 2).Orderly ∧
      ((threeNodes.run twoTerms).node 2).currentTerm = 2 :=
  ⟨(logs_orderly threeNodes twoTerms).1 2 (by decide), by decide⟩

/-! ## The committed prefix -/

/-- The committed prefix is inside the log, only grows and never changes until
    its node restarts, and is handed out once, in order. -/
theorem committed_prefix_stable (M : Membership) (events : List Event) (a : NodeId)
    (isA : a ∈ M.peers) :
    (((M.run events).node a).lastApplied ≤ ((M.run events).node a).commitIndex ∧
      ((M.run events).node a).commitIndex ≤ ((M.run events).node a).lastIndex) ∧
    (∀ k l, k ≤ l → Event.restart a ∉ (events.take l).drop k →
      ((M.moment events k).node a).commitIndex ≤ ((M.moment events l).node a).commitIndex ∧
      ∀ i, i ≤ ((M.moment events k).node a).commitIndex →
        ((M.moment events l).node a).log[i]? = ((M.moment events k).node a).log[i]?) ∧
    (M.run events).taken a =
      (((M.run events).node a).log.drop 1).take ((M.run events).node a).lastApplied := by
  obtain ⟨s, h⟩ := run_sim M events
  have node := h.node a isA
  refine ⟨⟨node.applied, ?_⟩, ?_, ?_⟩
  · exact node.commit.trans_le ((h.inv.commitHeld a).trans_eq node.lastIndex.symm)
  · intro k l inOrder never
    obtain ⟨s, s', early, late, -, kept⟩ := moments_sim M events inOrder
    obtain ⟨grows, stays⟩ := kept a never
    have nodeK := early.node a isA
    have nodeL := late.node a isA
    rw [nodeK.commit, nodeL.commit]
    refine ⟨grows, fun i committed => ?_⟩
    cases i with
    | zero => simp [nodeK.log, nodeL.log]
    | succ i =>
        have length := nodeK.committed_length early.inv (nodeK.commit ▸ committed)
        rw [nodeK.get_committed early.inv (by omega) (nodeK.commit ▸ committed),
          nodeL.get (by omega)]
        exact get_of_prefix stays (by omega)
  · rw [node.log, h.taken a isA]
    rfl

theorem committed_prefix_stable_twoTerms :
    ((threeNodes.run twoTerms).node 2).lastApplied = 1 ∧
      (threeNodes.run twoTerms).taken 2 =
        (((threeNodes.run twoTerms).node 2).log.drop 1).take
          ((threeNodes.run twoTerms).node 2).lastApplied :=
  ⟨by decide, (committed_prefix_stable threeNodes twoTerms 2 (by decide)).2.2⟩

end MiniLsm
