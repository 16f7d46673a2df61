import MiniLsm.Raft.Simulation
import MiniLsm.Raft.Merge
import Mathlib.Tactic.Set

/-! # Every handler is a few protocol actions

One lemma for each member function of the state machine: from a node that
simulates its part of the protocol, the function leads to one that does,
after protocol actions of that node only.
-/

namespace MiniLsm

open Consensus

variable {M : Membership} {s s' : History} {n : NodeId} {r r' : Raft} {msg : Message}

theorem Local.stays (h : Local M s n r) (node : NodeSim M s n r') : Local M s n r' :=
  ⟨h.member, h.inv, h.ledgers, node⟩

theorem Local.here (h : Local M s n r) : Reaches M s n r := ⟨s, Protocol.Acts.refl s, h⟩

theorem Local.after (h : Local M s n r) (acts : M.protocol.Acts n s s')
    (ledgers : ∀ t, Contiguous 1 (s'.ledger t)) (node : NodeSim M s' n r') : Reaches M s n r' :=
  ⟨s', acts, h.member, (Protocol.acts_sound h.inv acts).1, ledgers, node⟩

theorem Reaches.bind (h : Reaches M s n r)
    (next : ∀ s', M.protocol.Acts n s s' → Local M s' n r → Reaches M s' n r') :
    Reaches M s n r' := by
  obtain ⟨s', acts, here⟩ := h
  obtain ⟨s'', more, there⟩ := next s' acts here
  exact ⟨s'', acts.trans more, there⟩

/-! ## Stepping down -/

theorem becomeFollower_later (h : Local M s n r) {t : Nat} (later : r.currentTerm < t)
    (lead : NodeId) : Reaches M s n (r.becomeFollower t lead) := by
  have node := h.node
  have step : M.protocol.Step n s { s with term := Function.update s.term n t } :=
    .observe t (node.term ▸ later)
  have ext := Protocol.step_extends h.inv step
  refine h.after (.single step le_rfl) h.ledgers ?_
  have free : s.vote n t = none := by
    by_contra some
    obtain ⟨c, votedFor⟩ := Option.ne_none_iff_exists'.mp some
    have reached := h.inv.voteTerm n t c votedFor
    rw [← node.term] at reached
    omega
  have same : r.becomeFollower t lead =
      { r with
        currentTerm := t, votedFor := 0, hardStateDirty := true, role := .follower,
        leader := lead, electionElapsed := 0 } := by
    simp [Raft.becomeFollower, later]
  rw [same]
  exact
    { config := node.config
      term := by simp
      log := node.log
      numbered := node.numbered
      commit := node.commit
      applied := node.applied
      stable := node.stable
      vote := by simpa using free
      candidate := by simp
      leader := by simp
      out := fun m member => (node.out m member).mono ext }

theorem becomeFollower_same (h : Local M s n r) (lead : NodeId) :
    Local M s n (r.becomeFollower r.currentTerm lead) := by
  have node := h.node
  have same : r.becomeFollower r.currentTerm lead =
      { r with role := .follower, leader := lead, electionElapsed := 0 } := by
    simp [Raft.becomeFollower]
  rw [same]
  exact h.stays
    { config := node.config
      term := node.term
      log := node.log
      numbered := node.numbered
      commit := node.commit
      applied := node.applied
      stable := node.stable
      vote := node.vote
      candidate := by simp
      leader := by simp
      out := node.out }

/-! ## Votes -/

theorem MsgSim.refusal (member : n ∈ M.peers) (peer : NodeId) (t : Nat) :
    MsgSim M s
      { type := .requestVoteResp, fromNode := n, toNode := peer, term := t, voteGranted := false } :=
  ⟨member, by simp⟩

/-- The up-to-date check of the code is the protocol's comparison of logs. -/
theorem upToDate_iff (h : NodeSim M s n r) {log : List LogEntry}
    (index : msg.lastLogIndex = log.length) (term : msg.lastLogTerm = M.protocol.lastTerm log) :
    (decide (msg.lastLogTerm > r.lastTerm) ||
        (msg.lastLogTerm == r.lastTerm && decide (msg.lastLogIndex ≥ r.lastIndex))) = true ↔
      M.protocol.UpToDate log (s.log n) := by
  rw [h.lastTerm, h.lastIndex, index, term]
  simp [Protocol.UpToDate]

theorem handleRequestVote_sim (h : Local M s n r) (type : msg.type = .requestVote)
    (current : msg.term = r.currentTerm) (meaning : MsgSim M s msg) :
    Reaches M s n (r.handleRequestVote msg) := by
  have node := h.node
  obtain ⟨fromMember, content⟩ := meaning
  simp only [type] at content
  obtain ⟨log, stood, index, term⟩ := content
  rw [current, node.term] at stood
  have nonzero : msg.fromNode ≠ 0 := M.nonzero _ fromMember
  have upToDate := upToDate_iff node index term
  rw [Raft.handleRequestVote]
  simp only [node.config_id]
  set good := (decide (msg.lastLogTerm > r.lastTerm) ||
    (msg.lastLogTerm == r.lastTerm && decide (msg.lastLogIndex ≥ r.lastIndex))) with goodDef
  cases isGood : good with
  | false =>
      simp only [Bool.and_false, Bool.false_eq_true, if_false]
      exact (h.stays (node.send (MsgSim.refusal h.member _ _))).here
  | true =>
      have checked := upToDate.mp isGood
      by_cases free : r.votedFor = 0
      · -- a first vote in this term
        have vote : s.vote n (s.term n) = none := by simp [node.vote, free]
        have step : M.protocol.Step n s
            { s with vote := Protocol.record s.vote n (s.term n) (some msg.fromNode) } :=
          .grant msg.fromNode log vote stood checked
        have ext := Protocol.step_extends h.inv step
        simp only [free, beq_self_eq_true, Bool.true_or, Bool.and_true, if_true]
        refine h.after (.single step le_rfl) h.ledgers (NodeSim.send ?_ ⟨h.member, ?_⟩)
        · exact
            { config := node.config
              term := node.term
              log := node.log
              numbered := node.numbered
              commit := node.commit
              applied := node.applied
              stable := node.stable
              vote := by simp [nonzero]
              candidate := by
                intro role
                obtain ⟨stood, open_, distinct, granted⟩ := node.candidate role
                exact ⟨stood, open_, distinct,
                  fun v member => ⟨(granted v member).1, ext.vote _ _ _ (granted v member).2⟩⟩
              leader := fun role => ⟨(node.leader role).leads, (node.leader role).same,
                (node.leader role).next, (node.leader role).acked⟩
              out := fun m member => (node.out m member).mono ext }
        · simp [node.term]
      · by_cases again : r.votedFor = msg.fromNode
        · -- the same candidate asked again
          have vote : s.vote n (s.term n) = some msg.fromNode := by
            rw [node.vote, if_neg free, again]
          simp only [again, beq_self_eq_true, Bool.or_true, Bool.and_true, if_true]
          refine (h.stays (NodeSim.send ?_ ⟨h.member, ?_⟩)).here
          · exact
              { config := node.config
                term := node.term
                log := node.log
                numbered := node.numbered
                commit := node.commit
                applied := node.applied
                stable := node.stable
                vote := by simpa [nonzero] using vote
                candidate := fun role => ⟨(node.candidate role).stood, (node.candidate role).open_,
                  (node.candidate role).distinct, (node.candidate role).granted⟩
                leader := fun role => ⟨(node.leader role).leads, (node.leader role).same,
                  (node.leader role).next, (node.leader role).acked⟩
                out := node.out }
          · simpa [node.term] using vote
        · simp only [beq_eq_false_iff_ne.mpr free, beq_eq_false_iff_ne.mpr again, Bool.or_false,
            Bool.false_and, Bool.false_eq_true, if_false]
          exact (h.stays (node.send (MsgSim.refusal h.member _ _))).here

/-! ## Appending entries -/

/-- The entry loop merges the prefix of the ledger that the message carries:
    matching terms mean matching logs, so the loop either finds the whole
    prefix in the log or ends up with exactly that prefix. -/
theorem splice_merged {log incoming : List LogEntry} {prev : Nat}
    (logBacked : M.protocol.Backed s log) (backed : M.protocol.Backed s incoming)
    (inLog : prev ≤ log.length) (inside : prev ≤ incoming.length)
    (prevSame : ((sentinel :: log).getD prev default).term =
      ((sentinel :: incoming).getD prev default).term) :
    ∃ result, splice (sentinel :: log) (prev + 1) (incoming.drop prev) = sentinel :: result ∧
      Protocol.Merged log incoming result := by
  -- at the sentinel the logs match, behind it by what backs them
  have matching : ∀ i (_ : i < (sentinel :: log).length) (_ : i < (sentinel :: incoming).length),
      (sentinel :: log)[i].term = (sentinel :: incoming)[i].term →
      (sentinel :: log).take (i + 1) = (sentinel :: incoming).take (i + 1) := by
    intro i iLog iInside same
    cases i with
    | zero => rfl
    | succ i =>
        simp only [List.take_succ_cons, List.cons.injEq, true_and]
        exact Protocol.Backed.matching logBacked backed (by simpa using iLog)
          (by simpa using iInside) same
  have inLog' : prev < (sentinel :: log).length := by
    rw [List.length_cons]
    omega
  have inside' : prev < (sentinel :: incoming).length := by
    rw [List.length_cons]
    omega
  rw [List.getD_eq_getElem _ _ inLog', List.getD_eq_getElem _ _ inside'] at prevSame
  rcases splice_matching matching inLog' inside' prevSame with ⟨held, same⟩ | ⟨lacks, same⟩
  · exact ⟨log, same, Or.inl ⟨(List.cons_prefix_cons.mp held).2, rfl⟩⟩
  · exact ⟨incoming, same, Or.inr ⟨mt (fun h => List.cons_prefix_cons.mpr ⟨rfl, h⟩) lacks, rfl⟩⟩

/-- A message that is not rejected carries a prefix of the leader's ledger, and the
    log is merged with this prefix. -/
theorem Local.merges (h : Local M s n r) (vouched : Vouched M s msg)
    (current : msg.term = s.term n) (accept : ¬ r.Rejects msg) :
    ∃ result, splice r.log (msg.prevLogIndex + 1) msg.entries = sentinel :: result ∧
      Protocol.Merged (s.log n)
        ((s.ledger (s.term n)).take (msg.prevLogIndex + msg.entries.length)) result ∧
      Contiguous 1 result ∧
      spliceStable r.log (msg.prevLogIndex + 1) msg.entries r.stableIndex ≤ result.length := by
  have node := h.node
  obtain ⟨-, written, entries, prevTerm, -, -⟩ := vouched
  rw [current] at written entries prevTerm
  simp only [Raft.Rejects, not_or, not_lt, not_not, gt_iff_lt, node.lastIndex, node.termAt,
    prevTerm] at accept
  obtain ⟨inLog, prevSame⟩ := accept
  set prev := msg.prevLogIndex with prevDef
  set incoming := (s.ledger (s.term n)).take (prev + msg.entries.length) with incomingDef
  have incomingSize : incoming.length = prev + msg.entries.length := by
    rw [incomingDef, List.length_take]
    omega
  have incomingInside : incoming <+: s.ledger (s.term n) := List.take_prefix _ _
  have incomingPrev : ((sentinel :: s.log n).getD prev default).term =
      ((sentinel :: incoming).getD prev default).term := by
    rw [prevSame]
    obtain ⟨rest, whole⟩ := incomingInside
    rw [← whole, ← List.cons_append, List.getD_append]
    simp only [List.length_cons]
    omega
  obtain ⟨result, spliced, merged⟩ := splice_merged (h.inv.logBacked n)
    ((h.inv.ledgerBacked (s.term n)).cut incomingInside) inLog (by omega) incomingPrev
  rw [← entries, ← node.log] at spliced
  refine ⟨result, spliced, merged, ?_, ?_⟩
  · rcases Protocol.merged_cases merged with rfl | inside
    · exact node.numbered
    · exact (h.ledgers (s.term n)).prefix_of inside
  · have stable := @splice_stable_le r.log msg.entries (prev + 1) r.stableIndex (by omega)
      (by simp only [node.log, List.length_cons]; omega) (by simpa [node.log] using node.stable)
    rw [prevDef, spliced, List.length_cons, Nat.add_sub_cancel] at stable
    exact stable

/-- Storing what the leader sent and learning its commit index are one
    `accept` followed by one `advance`. -/
theorem handleAppendEntries_sim (h : Local M s n r) (role : r.role = .follower)
    (type : msg.type = .appendEntries) (current : msg.term = r.currentTerm)
    (meaning : MsgSim M s msg) : Reaches M s n (r.handleAppendEntries msg) := by
  have node := h.node
  obtain ⟨fromMember, vouched⟩ := meaning
  simp only [type] at vouched
  have replies : ∀ success matchIndex,
      (r.appendReply msg success matchIndex).fromNode ∈ M.peers := by
    simpa [Raft.appendReply, node.config_id] using h.member
  by_cases reject : r.Rejects msg
  · rw [Raft.handleAppendEntries_reject reject]
    have timed := node.timers msg.fromNode 0 r.heartbeatElapsed r.hardStateDirty
    exact (h.stays (timed.send ⟨replies _ _, by simp [Raft.appendReply]⟩)).here
  rw [node.term] at current
  have contiguous := vouched.contiguous h.ledgers
  obtain ⟨result, spliced, merged, numbered, stable⟩ := h.merges vouched current reject
  obtain ⟨leads, written, -, -, commit, decided⟩ := vouched
  rw [current] at leads written decided
  set size := msg.prevLogIndex + msg.entries.length with sizeDef
  set incoming := (s.ledger (s.term n)).take size with incomingDef
  have incomingSize : incoming.length = size := by
    rw [incomingDef, List.length_take]
    omega
  have held : incoming <+: result := merged.holds
  have room := held.length_le
  -- storing the entries
  obtain ⟨s₁, accept, log₁, term₁, commit₁, vote₁, ledger₁, acked₁⟩ :
      ∃ s₁, M.protocol.Step n s s₁ ∧ s₁.log n = result ∧ s₁.term = s.term ∧
        s₁.commit = s.commit ∧ s₁.vote = s.vote ∧ s₁.ledger = s.ledger ∧
        size ≤ s₁.acked n (s.term n) :=
    ⟨_, .accept size result (by simp [leads]) written merged, by simp, rfl, rfl, rfl, rfl, by simp⟩
  have inv₁ := Protocol.inv_step h.inv accept
  have ext₁ := Protocol.step_extends h.inv accept
  -- learning the leader's commit index
  set learned := r.learnedCommit msg result.length with learnedDef
  have further : s₁.commit n ≤ learned := by
    rw [learnedDef, Raft.learnedCommit, commit₁, ← node.commit]
    split <;> omega
  have known : learned ≤ result.length ∧
      M.protocol.Decided s₁ (s₁.term n) (result.take learned) := by
    rw [learnedDef, Raft.learnedCommit]
    split
    · have same : result.take msg.leaderCommit =
          (s.ledger (s.term n)).take msg.leaderCommit := by
        obtain ⟨rest, whole⟩ := held
        rw [← whole, List.take_append_of_le_length (by omega), incomingDef, List.take_take,
          Nat.min_eq_left commit]
      rw [Nat.min_eq_left (by omega), same, term₁]
      exact ⟨by omega, decided.mono ext₁ le_rfl⟩
    · rw [node.commit, ← commit₁, ← log₁]
      exact ⟨inv₁.commitHeld n, inv₁.commitDecided n⟩
  obtain ⟨s₂, advance, commit₂, log₂, term₂, vote₂, ledger₂, acked₂⟩ :
      ∃ s₂, M.protocol.Step n s₁ s₂ ∧ s₂.commit n = learned ∧ s₂.log = s₁.log ∧
        s₂.term = s₁.term ∧ s₂.vote = s₁.vote ∧ s₂.ledger = s₁.ledger ∧ s₂.acked = s₁.acked :=
    ⟨_, .advance learned further (log₁ ▸ known.1) (log₁ ▸ known.2), by simp, rfl, rfl, rfl, rfl,
      rfl⟩
  have acts : M.protocol.Acts n s s₂ :=
    (Protocol.Acts.single accept (by rw [commit₁])).trans
      (.single advance (by rw [commit₂]; exact further))
  have ext := (Protocol.acts_sound h.inv acts).2.1
  rw [Raft.handleAppendEntries_accept reject (by simp [node.log]) contiguous, spliced]
  simp only [List.length_cons, Nat.add_sub_cancel, ← learnedDef]
  refine h.after acts (by rw [ledger₂, ledger₁]; exact h.ledgers)
    (NodeSim.send ?_ ⟨replies _ _, ?_⟩)
  · exact
      { config := node.config
        term := by rw [term₂, term₁]; exact node.term
        log := by rw [log₂, log₁]
        numbered := by rw [log₂, log₁]; exact numbered
        commit := commit₂.symm
        applied := node.applied.trans (node.commit.le.trans (commit₁ ▸ further))
        stable := by rw [log₂, log₁]; exact stable
        vote := by rw [term₂, term₁, vote₂, vote₁]; exact node.vote
        candidate := by simp [role]
        leader := by simp [role]
        out := fun m member => (node.out m member).mono ext }
  · simp only [Raft.appendReply, node.config_id, node.term, acked₂]
    exact fun _ => acked₁

/-! ## Committing -/

/-- The leader and the peers it knows to hold an index are distinct members. -/
theorem holders_quorum (h : NodeSim M s n r) (member : n ∈ M.peers) {k : Nat}
    (counted : r.quorumSize ≤ r.replicas k) {A : Set NodeId} (own : n ∈ A)
    (held : ∀ p ∈ M.peers, p ≠ n → k ≤ r.matchIndex p → p ∈ A) : M.protocol.IsQuorum A := by
  have isHolder : ∀ p, p ∈ r.holders k ↔ (p ∈ M.peers ∧ p ≠ n) ∧ k ≤ r.matchIndex p := by
    intro p
    simp [Raft.holders, h.mem_others]
  have distinct : r.others.Nodup := by
    simpa [Raft.others, h.config_peers] using M.distinct.filter _
  refine ⟨n :: r.holders k, ?_, ?_, ?_, ?_⟩
  · exact List.nodup_cons.mpr ⟨fun inside => ((isHolder n).mp inside).1.2 rfl, distinct.filter _⟩
  · intro p inside
    rcases List.mem_cons.mp inside with rfl | holds
    · exact member
    · exact ((isHolder p).mp holds).1.1
  · intro p inside
    rcases List.mem_cons.mp inside with rfl | holds
    · exact own
    · obtain ⟨⟨isMember, other⟩, enough⟩ := (isHolder p).mp holds
      exact held p isMember other enough
  · rw [Raft.replicas_eq, Raft.quorumSize, h.config_peers] at counted
    simp only [List.length_cons]
    omega

/-- Raising the commit index is the leader storing its own log and learning
    that a quorum has the prefix. -/
theorem maybeCommit_sim (h : Local M s n r) (role : r.role = .leader) :
    Reaches M s n r.maybeCommit := by
  have node := h.node
  obtain ⟨leads, same, next, acked⟩ := node.leader role
  rcases r.maybeCommit_cases with ⟨unchanged, -⟩ | ⟨k, rule, -, raised⟩
  · rw [unchanged]
    exact h.here
  obtain ⟨above, inside, current, counted⟩ := rule
  rw [node.lastIndex] at inside
  rw [node.commit] at above
  -- the leader counts itself
  obtain ⟨s₁, accept, log₁, term₁, commit₁, vote₁, leader₁, ledger₁, acked₁⟩ :
      ∃ s₁, M.protocol.Step n s s₁ ∧ s₁.log = s.log ∧ s₁.term = s.term ∧
        s₁.commit = s.commit ∧ s₁.vote = s.vote ∧ s₁.leader = s.leader ∧ s₁.ledger = s.ledger ∧
        (s.ledger (s.term n)).length ≤ s₁.acked n (s.term n) :=
    ⟨_, .accept (s.ledger (s.term n)).length (s.log n) (by simp [leads]) le_rfl
      (Or.inl ⟨by simp [same], rfl⟩), by simp, rfl, rfl, rfl, rfl, rfl, by simp⟩
  have ext₁ := Protocol.step_extends h.inv accept
  obtain ⟨j, rfl⟩ : ∃ j, k = j + 1 := ⟨k - 1, by omega⟩
  have tip : M.protocol.tip ((s.log n).take (j + 1)) = some (s.term n) := by
    rw [← List.take_concat_get' _ _ (by omega : j < (s.log n).length), Protocol.tip_concat]
    rw [node.termAt, List.getD_cons_succ, List.getD_eq_getElem _ _ (by omega), node.term] at current
    exact congrArg some current
  have length : ((s.log n).take (j + 1)).length = j + 1 := by
    rw [List.length_take]
    omega
  have chosen : M.protocol.Chosen s₁ (s₁.term n) ((s₁.log n).take (j + 1)) := by
    rw [log₁, term₁]
    refine ⟨⟨?_, tip⟩, ?_⟩
    · rw [ledger₁, ← same]
      exact List.take_prefix _ _
    · rw [length]
      refine holders_quorum node h.member counted ?_ ?_
      · rw [same] at inside
        exact inside.trans acked₁
      · intro p member other holds
        exact holds.trans ((acked p member other).trans (ext₁.acked p _))
  obtain ⟨s₂, advance, commit₂, log₂, term₂, vote₂, leader₂, ledger₂, acked₂⟩ :
      ∃ s₂, M.protocol.Step n s₁ s₂ ∧ s₂.commit n = j + 1 ∧ s₂.log = s₁.log ∧
        s₂.term = s₁.term ∧ s₂.vote = s₁.vote ∧ s₂.leader = s₁.leader ∧ s₂.ledger = s₁.ledger ∧
        s₂.acked = s₁.acked :=
    ⟨_, .advance (j + 1) (by rw [commit₁]; omega) (by rw [log₁]; exact inside)
      (Or.inr ⟨_, _, chosen, le_rfl, List.prefix_rfl⟩), by simp, rfl, rfl, rfl, rfl, rfl, rfl⟩
  have acts : M.protocol.Acts n s s₂ :=
    (Protocol.Acts.single accept (by rw [commit₁])).trans
      (.single advance (by rw [commit₂, commit₁]; omega))
  have ext := (Protocol.acts_sound h.inv acts).2.1
  rw [raised]
  refine h.after acts (by rw [ledger₂, ledger₁]; exact h.ledgers) ?_
  exact
    { config := node.config
      term := by rw [term₂, term₁]; exact node.term
      log := by rw [log₂, log₁]; exact node.log
      numbered := by rw [log₂, log₁]; exact node.numbered
      commit := commit₂.symm
      applied := by
        have := node.applied
        have := node.commit
        show r.lastApplied ≤ j + 1
        omega
      stable := by rw [log₂, log₁]; exact node.stable
      vote := by rw [term₂, term₁, vote₂, vote₁]; exact node.vote
      candidate := by simp [role]
      leader := fun _ =>
        { leads := by rw [term₂, term₁, leader₂, leader₁]; exact leads
          same := by rw [term₂, term₁, log₂, log₁, ledger₂, ledger₁]; exact same
          next := by rw [log₂, log₁]; exact next
          acked := by
            intro p member other
            rw [term₂, term₁]
            exact (acked p member other).trans (ext.acked p _) }
      out := fun m member => (node.out m member).mono ext }

theorem handleAppendEntriesResp_sim (h : Local M s n r) (role : r.role = .leader)
    (type : msg.type = .appendEntriesResp) (current : msg.term = r.currentTerm)
    (meaning : MsgSim M s msg) : Reaches M s n (r.handleAppendEntriesResp msg) := by
  have node := h.node
  obtain ⟨leads, same, next, acked⟩ := node.leader role
  obtain ⟨fromMember, content⟩ := meaning
  simp only [type, current, node.term] at content
  rw [Raft.handleAppendEntriesResp]
  -- both branches only change the replication state of one peer
  have progress : ∀ nextIndex matchIndex : NodeId → Nat,
      (∀ p ∈ M.peers, p ≠ n → 1 ≤ nextIndex p ∧ nextIndex p ≤ (s.log n).length + 1) →
      (∀ p ∈ M.peers, p ≠ n → matchIndex p ≤ s.acked p (s.term n)) →
      Local M s n { r with nextIndex := nextIndex, matchIndex := matchIndex } := by
    intro nextIndex matchIndex nextOk ackedOk
    exact h.stays
      { config := node.config, term := node.term, log := node.log, numbered := node.numbered
        commit := node.commit, applied := node.applied, stable := node.stable, vote := node.vote
        candidate := by simp [role]
        leader := fun _ => ⟨leads, same, nextOk, ackedOk⟩
        out := node.out }
  by_cases success : msg.success = true
  · rw [if_pos success]
    refine maybeCommit_sim (progress _ _ ?_ ?_) role
    · intro p member other
      rw [assign]
      split
      · have stored := content success
        have written := h.inv.ackedWritten msg.fromNode (s.term n)
        rw [← same] at written
        omega
      · exact next p member other
    · intro p member other
      rw [assign]
      split
      · rename_i here
        rw [here]
        exact content success
      · exact acked p member other
  · rw [if_neg success]
    split
    · refine (progress _ r.matchIndex ?_ acked).here
      intro p member other
      rw [assign]
      split
      · rename_i here
        have := next p member other
        rw [here] at this
        omega
      · exact next p member other
    · exact h.here

/-! ## Leading -/

/-- What a leader sends to a peer is backed by its own ledger. -/
theorem appendEntriesTo_vouched (h : Local M s n r) (role : r.role = .leader) {p : NodeId}
    (member : p ∈ M.peers) (other : p ≠ n) : MsgSim M s (r.appendEntriesTo p) := by
  have node := h.node
  obtain ⟨leads, same, next, acked⟩ := node.leader role
  obtain ⟨positive, bound⟩ := next p member other
  refine ⟨by simpa [Raft.appendEntriesTo, node.config_id] using h.member, ?_⟩
  obtain ⟨prev, isNext⟩ : ∃ prev, r.nextIndex p = prev + 1 := ⟨r.nextIndex p - 1, by omega⟩
  have shape : r.appendEntriesTo p =
      { type := .appendEntries
        fromNode := n
        toNode := p
        term := s.term n
        prevLogIndex := prev
        prevLogTerm := ((sentinel :: s.log n).getD prev default).term
        leaderCommit := s.commit n
        entries := (s.log n).drop prev } := by
    simp [Raft.appendEntriesTo, isNext, predU64, node.config_id, node.term, node.termAt,
      node.commit, node.log]
  have size : prev + ((s.log n).drop prev).length = (s.log n).length := by
    rw [List.length_drop]
    omega
  rw [shape]
  exact
    { leads := leads
      written := by
        show prev + ((s.log n).drop prev).length ≤ (s.ledger (s.term n)).length
        rw [size, same]
      entries := by
        show (s.log n).drop prev =
          ((s.ledger (s.term n)).take (prev + ((s.log n).drop prev).length)).drop prev
        rw [size, ← same, List.take_length]
      prevTerm := by simp only [same]
      commit := by simpa only [size] using h.inv.commitHeld n
      decided := by simpa only [same] using h.inv.commitDecided n }

theorem NodeSim.emit (h : NodeSim M s n r) (msgs : List Message)
    (meaning : ∀ msg ∈ msgs, MsgSim M s msg) :
    NodeSim M s n { r with outMsgs := r.outMsgs ++ msgs } := by
  induction msgs generalizing r with
  | nil => simpa using h
  | cons msg msgs ih =>
      have sent := ih (h.send (meaning msg (by simp))) (fun m member => meaning m (by simp [member]))
      simpa [Raft.send] using sent

theorem broadcastAppendEntries_sim (h : Local M s n r) (role : r.role = .leader) :
    Local M s n r.broadcastAppendEntries := by
  rw [Raft.broadcastAppendEntries_eq]
  refine h.stays (h.node.emit _ ?_)
  intro m sent
  obtain ⟨p, inside, rfl⟩ := List.mem_map.mp sent
  obtain ⟨member, other⟩ := h.node.mem_others.mp inside
  exact appendEntriesTo_vouched h role member other

/-- Winning an election: the votes counted are a quorum of recorded votes. -/
theorem becomeLeader_sim (h : Local M s n r) (role : r.role = .candidate)
    (enough : r.quorumSize ≤ r.votesGranted.length) : Reaches M s n r.becomeLeader := by
  have node := h.node
  obtain ⟨stood, open_, distinct, granted⟩ := node.candidate role
  have elected : M.protocol.IsQuorum {v | s.vote v (s.term n) = some n} := by
    refine ⟨r.votesGranted, distinct, fun v inside => (granted v inside).1,
      fun v inside => (granted v inside).2, ?_⟩
    rw [Raft.quorumSize, node.config_peers] at enough
    omega
  have vacant : s.leader (s.term n) = none := by
    by_contra led
    obtain ⟨m, isLeader⟩ := Option.ne_none_iff_exists'.mp led
    have := Protocol.leader_of_votes h.inv isLeader elected
    exact open_ (this ▸ isLeader)
  obtain ⟨s₁, win, log₁, term₁, commit₁, vote₁, leader₁, ledger₁, ledgers₁⟩ :
      ∃ s₁, M.protocol.Step n s s₁ ∧ s₁.log = s.log ∧ s₁.term = s.term ∧ s₁.commit = s.commit ∧
        s₁.vote = s.vote ∧ s₁.leader (s.term n) = some n ∧ s₁.ledger (s.term n) = s.log n ∧
        ∀ t, t ≠ s.term n → s₁.ledger t = s.ledger t :=
    ⟨_, .win stood vacant elected, rfl, rfl, rfl, rfl, by simp, by simp,
      fun t other => by simp [other]⟩
  have ext := Protocol.step_extends h.inv win
  have acts : M.protocol.Acts n s s₁ := .single win (by rw [commit₁])
  have reset : NodeSim M s₁ n
      { r with role := .leader, leader := r.config.id, heartbeatElapsed := 0 }.resetProgress := by
    rw [Raft.resetProgress_eq]
    exact
      { config := node.config
        term := by rw [term₁]; exact node.term
        log := by rw [log₁]; exact node.log
        numbered := by rw [log₁]; exact node.numbered
        commit := by rw [commit₁]; exact node.commit
        applied := node.applied
        stable := by rw [log₁]; exact node.stable
        vote := by rw [term₁, vote₁]; exact node.vote
        candidate := by simp
        leader := fun _ =>
          { leads := by rw [term₁]; exact leader₁
            same := by rw [term₁, log₁, ledger₁]
            next := by
              intro p member other
              have inside : p ∈ r.others := node.mem_others.mpr ⟨member, other⟩
              have last : r.lastIndex = (s₁.log n).length := by rw [log₁]; exact node.lastIndex
              show 1 ≤ (if p ∈ r.others then r.lastIndex + 1 else 0) ∧
                (if p ∈ r.others then r.lastIndex + 1 else 0) ≤ (s₁.log n).length + 1
              rw [if_pos inside, last]
              omega
            acked := fun p _ _ => Nat.zero_le _ }
        out := fun m member => (node.out m member).mono ext }
  have ledgers : ∀ t, Contiguous 1 (s₁.ledger t) := by
    intro t
    by_cases here : t = s.term n
    · rw [here, ledger₁]
      exact node.numbered
    · rw [ledgers₁ t here]
      exact h.ledgers t
  obtain ⟨s₂, more, leading⟩ := h.after acts ledgers reset
  have isLeader : ({ r with
      role := .leader, leader := r.config.id, heartbeatElapsed := 0 } : Raft).resetProgress.role =
        .leader := by
    rw [Raft.resetProgress_eq]
  exact ⟨s₂, more, broadcastAppendEntries_sim leading isLeader⟩

/-- Standing for election, and winning at once when alone. -/
theorem becomeCandidate_sim (h : Local M s n r) : Reaches M s n r.becomeCandidate := by
  have node := h.node
  have nonzero : n ≠ 0 := M.nonzero n h.member
  obtain ⟨s₁, stands, log₁, term₁, commit₁, vote₁, stood₁, leader₁, ledger₁⟩ :
      ∃ s₁, M.protocol.Step n s s₁ ∧ s₁.log = s.log ∧ s₁.term n = s.term n + 1 ∧
        s₁.commit = s.commit ∧ s₁.vote n (s.term n + 1) = some n ∧
        s₁.standing n (s.term n + 1) = some (s.log n) ∧ s₁.leader = s.leader ∧
        s₁.ledger = s.ledger :=
    ⟨_, .stand, rfl, by simp, rfl, by simp, by simp, rfl, rfl⟩
  have ext := Protocol.step_extends h.inv stands
  have acts : M.protocol.Acts n s s₁ := .single stands (by rw [commit₁])
  have unled : s₁.leader (s₁.term n) ≠ some n := by
    rw [leader₁, term₁]
    intro led
    have votes := h.inv.leaderVotes _ _ led
    obtain ⟨v, votedFor, -⟩ := M.protocol.meet votes votes
    obtain ⟨log, stood⟩ := h.inv.voteStood v _ n votedFor
    have := h.inv.voteTerm n _ n (h.inv.stoodVote n _ log stood)
    omega
  have candidate : NodeSim M s₁ n
      { r with
        currentTerm := r.currentTerm + 1
        votedFor := r.config.id
        hardStateDirty := true
        role := .candidate
        leader := 0
        electionElapsed := 0
        votesGranted := [r.config.id] } :=
    { config := node.config
      term := by rw [term₁]; exact congrArg (· + 1) node.term
      log := by rw [log₁]; exact node.log
      numbered := by rw [log₁]; exact node.numbered
      commit := by rw [commit₁]; exact node.commit
      applied := node.applied
      stable := by rw [log₁]; exact node.stable
      vote := by simp [term₁, vote₁, node.config_id, nonzero]
      candidate := fun _ =>
        { stood := by rw [term₁, log₁]; exact stood₁
          open_ := unled
          distinct := by simp
          granted := by simp [node.config_id, h.member, term₁, vote₁] }
      leader := by simp
      out := fun m member => (node.out m member).mono ext }
  have reached := h.after acts (by rw [ledger₁]; exact h.ledgers) candidate
  rw [Raft.becomeCandidate]
  split
  · rename_i alone
    exact reached.bind fun s' _ there => becomeLeader_sim there rfl alone
  · rw [Raft.requestVotes_eq]
    obtain ⟨s₂, more, there⟩ := reached
    refine ⟨s₂, more, there.stays (there.node.emit _ ?_)⟩
    intro m sent
    obtain ⟨p, inside, rfl⟩ := List.mem_map.mp sent
    refine ⟨by simpa [Raft.requestVoteTo, node.config_id] using h.member, s₂.log n, ?_, ?_, ?_⟩
    · have term : r.currentTerm + 1 = s₂.term n := there.node.term
      simpa only [Raft.requestVoteTo, node.config_id, term] using (there.node.candidate rfl).stood
    · exact there.node.lastIndex
    · exact there.node.lastTerm

theorem tick_sim (h : Local M s n r) : Reaches M s n r.tick := by
  have node := h.node
  rw [Raft.tick]
  by_cases role : r.role = .leader
  · rw [if_pos role]
    have timed := node.timers r.leader r.electionElapsed (r.heartbeatElapsed + 1) r.hardStateDirty
    dsimp only
    split
    · have sent := node.timers r.leader r.electionElapsed 0 r.hardStateDirty
      exact (broadcastAppendEntries_sim (h.stays sent) role).here
    · exact (h.stays timed).here
  · rw [if_neg role]
    have timed := node.timers r.leader (r.electionElapsed + 1) r.heartbeatElapsed r.hardStateDirty
    dsimp only
    split
    · exact becomeCandidate_sim (h.stays timed)
    · exact (h.stays timed).here

theorem propose_sim (h : Local M s n r) (data : Bytes) : Reaches M s n (r.propose data).2 := by
  have node := h.node
  rw [Raft.propose]
  by_cases role : r.role = .leader
  swap
  · rw [if_pos role]
    exact h.here
  rw [if_neg (not_not.mpr role)]
  obtain ⟨leads, same, next, acked⟩ := node.leader role
  set entry : LogEntry := { term := r.currentTerm, index := r.lastIndex + 1, data } with entryDef
  obtain ⟨s₁, append, log₁, term₁, commit₁, vote₁, leader₁, ledger₁, ledgers₁⟩ :
      ∃ s₁, M.protocol.Step n s s₁ ∧ s₁.log n = s.log n ++ [entry] ∧ s₁.term = s.term ∧
        s₁.commit = s.commit ∧ s₁.vote = s.vote ∧ s₁.leader = s.leader ∧
        s₁.ledger (s.term n) = s.log n ++ [entry] ∧
        ∀ t, t ≠ s.term n → s₁.ledger t = s.ledger t :=
    ⟨_, .append entry leads same node.term, by simp, rfl, rfl, rfl, rfl, by simp,
      fun t other => by simp [other]⟩
  have ext := Protocol.step_extends h.inv append
  have acts : M.protocol.Acts n s s₁ := .single append (by rw [commit₁])
  have numbered : Contiguous 1 (s.log n ++ [entry]) := by
    refine contiguous_append.mpr ⟨node.numbered, ?_, trivial⟩
    rw [entryDef, node.lastIndex, Nat.add_comm]
  have ledgers : ∀ t, Contiguous 1 (s₁.ledger t) := by
    intro t
    by_cases here : t = s.term n
    · rw [here, ledger₁]
      exact numbered
    · rw [ledgers₁ t here]
      exact h.ledgers t
  have appended : NodeSim M s₁ n { r with log := r.log ++ [entry] } :=
    { config := node.config
      term := by rw [term₁]; exact node.term
      log := by rw [log₁, node.log, List.cons_append]
      numbered := by rw [log₁]; exact numbered
      commit := by rw [commit₁]; exact node.commit
      applied := node.applied
      stable := by
        rw [log₁, List.length_append]
        exact Nat.le_add_right_of_le node.stable
      vote := by rw [term₁, vote₁]; exact node.vote
      candidate := by simp [role]
      leader := fun _ =>
        { leads := by rw [term₁, leader₁]; exact leads
          same := by rw [term₁, log₁, ledger₁]
          next := by
            intro p member other
            have := next p member other
            rw [log₁, List.length_append]
            exact ⟨this.1, by simp only [List.length_singleton]; omega⟩
          acked := by
            intro p member other
            rw [term₁]
            exact (acked p member other).trans (ext.acked p _) }
      out := fun m member => (node.out m member).mono ext }
  exact (h.after acts ledgers appended).bind fun s' _ there => maybeCommit_sim there role

/-! ## Inbound messages -/

theorem stepFollower_sim (h : Local M s n r) (role : r.role = .follower)
    (current : msg.term = r.currentTerm) (meaning : MsgSim M s msg) :
    Reaches M s n (r.stepFollower msg) := by
  cases type : msg.type with
  | requestVote =>
      simpa only [Raft.stepFollower, type] using handleRequestVote_sim h type current meaning
  | appendEntries =>
      simpa only [Raft.stepFollower, type] using handleAppendEntries_sim h role type current meaning
  | requestVoteResp | appendEntriesResp => simpa only [Raft.stepFollower, type] using h.here

theorem stepLeader_sim (h : Local M s n r) (role : r.role = .leader)
    (current : msg.term = r.currentTerm) (meaning : MsgSim M s msg) :
    Reaches M s n (r.stepLeader msg) := by
  cases type : msg.type with
  | requestVote =>
      simpa only [Raft.stepLeader, type] using handleRequestVote_sim h type current meaning
  | appendEntriesResp =>
      simpa only [Raft.stepLeader, type] using
        handleAppendEntriesResp_sim h role type current meaning
  | requestVoteResp | appendEntries => simpa only [Raft.stepLeader, type] using h.here

/-- Counting a grant: the response in flight is the vote the sender recorded. -/
theorem countVote_sim (h : Local M s n r) (role : r.role = .candidate) {v : NodeId}
    (member : v ∈ M.peers) (vote : s.vote v (s.term n) = some n) (fresh : v ∉ r.votesGranted) :
    Local M s n { r with votesGranted := r.votesGranted ++ [v] } := by
  have node := h.node
  obtain ⟨stood, open_, distinct, granted⟩ := node.candidate role
  exact h.stays
    { config := node.config, term := node.term, log := node.log, numbered := node.numbered
      commit := node.commit, applied := node.applied, stable := node.stable, vote := node.vote
      candidate := fun _ =>
        { stood := stood
          open_ := open_
          distinct := by
            refine List.nodup_append.mpr ⟨distinct, List.nodup_singleton v, ?_⟩
            rintro a inside b single rfl
            exact fresh (List.mem_singleton.mp single ▸ inside)
          granted := by
            intro w inside
            rcases List.mem_append.mp inside with old | new
            · exact granted w old
            · rw [List.mem_singleton.mp new]
              exact ⟨member, vote⟩ }
      leader := by simp [role]
      out := node.out }

theorem stepCandidate_sim (h : Local M s n r) (role : r.role = .candidate)
    (arrives : msg.toNode = n) (current : msg.term = r.currentTerm) (meaning : MsgSim M s msg) :
    Reaches M s n (r.stepCandidate msg) := by
  cases type : msg.type with
  | requestVote =>
      simpa only [Raft.stepCandidate, type] using handleRequestVote_sim h type current meaning
  | appendEntriesResp => simpa only [Raft.stepCandidate, type] using h.here
  | appendEntries =>
      simp only [Raft.stepCandidate, type, current]
      refine handleAppendEntries_sim (becomeFollower_same h msg.fromNode) ?_ type ?_ meaning
      · simp [Raft.becomeFollower]
      · simpa [Raft.becomeFollower] using current
  | requestVoteResp =>
      simp only [Raft.stepCandidate, type]
      by_cases granted : msg.voteGranted = true
      swap
      · rw [if_neg granted]
        exact h.here
      rw [if_pos granted]
      obtain ⟨member, content⟩ := meaning
      simp only [type, arrives, current, h.node.term] at content
      have wins : ∀ r' : Raft, r'.role = .candidate → Local M s n r' →
          Reaches M s n (if r'.votesGranted.length ≥ r'.quorumSize then r'.becomeLeader else r') := by
        intro r' role' h'
        split
        · exact becomeLeader_sim h' role' ‹_›
        · exact h'.here
      split
      · exact wins r role h
      · exact wins _ role (countVote_sim h role member (content granted) ‹_›)

theorem stepRole_sim (h : Local M s n r) (arrives : msg.toNode = n)
    (current : msg.term = r.currentTerm) (meaning : MsgSim M s msg) :
    Reaches M s n (r.stepRole msg) := by
  cases role : r.role with
  | follower => simpa only [Raft.stepRole, role] using stepFollower_sim h role current meaning
  | candidate =>
      simpa only [Raft.stepRole, role] using stepCandidate_sim h role arrives current meaning
  | leader => simpa only [Raft.stepRole, role] using stepLeader_sim h role current meaning

theorem rejectStale_sim (h : Local M s n r) : Local M s n (r.rejectStale msg) := by
  have id := h.node.config_id
  rw [Raft.rejectStale]
  cases msg.type with
  | requestVote => exact h.stays (h.node.send ⟨by simpa [id] using h.member, by simp⟩)
  | appendEntries => exact h.stays (h.node.send ⟨by simpa [id] using h.member, by simp⟩)
  | requestVoteResp | appendEntriesResp => exact h

theorem step_sim (h : Local M s n r) (arrives : msg.toNode = n) (meaning : MsgSim M s msg) :
    Reaches M s n (r.step msg) := by
  rw [Raft.step]
  by_cases later : msg.term > r.currentTerm
  · rw [if_pos later]
    dsimp only
    refine (becomeFollower_later h later
      (if msg.type = .appendEntries then msg.fromNode else 0)).bind fun s' acts there => ?_
    refine stepRole_sim there arrives ?_ (meaning.mono (Protocol.acts_sound h.inv acts).2.1)
    simp [Raft.becomeFollower, later]
  · rw [if_neg later]
    by_cases stale : msg.term < r.currentTerm
    · rw [if_pos stale]
      exact (rejectStale_sim h).here
    · rw [if_neg stale]
      exact stepRole_sim h arrives (by omega) meaning

end MiniLsm
