import MiniLsm.Machine.Reach
import MiniLsm.Raft.Progress
import MiniLsm.Raft.Repair
import Mathlib.Data.Finset.Max
import Mathlib.Data.Prod.Lex

/-! # A cluster is never stuck

From every state that a run reaches, whatever was lost, repeated or restarted
before, ticks and deliveries at any majority can elect a leader in it, whatever
the other members are doing.
-/

namespace MiniLsm

open Consensus

namespace Raft

variable {r : Raft} {msg : Message}

/-! ## What a node does -/

theorem tick_early (role : r.role ≠ .leader) (early : r.electionElapsed + 1 < r.config.electionTimeout) :
    r.tick = { r with electionElapsed := r.electionElapsed + 1 } := by
  rw [tick, if_neg role]
  exact if_neg (Int.not_le.mpr early)

theorem tick_due (role : r.role ≠ .leader) (due : r.config.electionTimeout ≤ r.electionElapsed + 1) :
    r.tick = { r with electionElapsed := r.electionElapsed + 1 }.becomeCandidate := by
  rw [tick, if_neg role]
  exact if_pos due

/-- A candidate of the next term that asks all others, unless it is enough by
    itself. -/
theorem becomeCandidate_cases (r : Raft) :
    r.becomeCandidate.currentTerm = r.currentTerm + 1 ∧ r.becomeCandidate.log = r.log ∧
      (r.becomeCandidate.role = .leader ∨
        r.becomeCandidate.role = .candidate ∧ r.becomeCandidate.votesGranted = [r.config.id] ∧
          1 < r.quorumSize ∧
          ∀ p ∈ r.others, r.becomeCandidate.requestVoteTo p ∈ r.becomeCandidate.outMsgs) := by
  rw [becomeCandidate]
  dsimp only
  split
  · obtain ⟨_, _, elected⟩ := becomeLeader_eq { r with
      currentTerm := r.currentTerm + 1, votedFor := r.config.id, hardStateDirty := true
      role := .candidate, leader := 0, electionElapsed := 0, votesGranted := [r.config.id] }
    rw [elected]
    exact ⟨rfl, rfl, Or.inl rfl⟩
  · rename_i more
    rw [requestVotes_eq]
    refine ⟨rfl, rfl, Or.inr ⟨rfl, rfl, Nat.not_le.mp more, fun p other => ?_⟩⟩
    exact List.mem_append_right _ (List.mem_map_of_mem other)

/-- A RequestVote of a later term makes a node a follower of that term. -/
theorem step_asked (type : msg.type = .requestVote) (later : r.currentTerm < msg.term) :
    (r.step msg).role = .follower ∧ (r.step msg).currentTerm = msg.term ∧
      (r.step msg).log = r.log := by
  rw [step, if_pos later, type]
  simp only [reduceCtorEq, if_false, stepRole, becomeFollower, gt_iff_lt, later, if_true,
    stepFollower, type, handleRequestVote, send]
  split <;> exact ⟨rfl, rfl, rfl⟩

/-- If the log of the candidate is good enough, it also gets the vote. -/
theorem step_asked_grants (type : msg.type = .requestVote) (later : r.currentTerm < msg.term)
    (upToDate : r.lastTerm < msg.lastLogTerm ∨
      msg.lastLogTerm = r.lastTerm ∧ r.lastIndex ≤ msg.lastLogIndex) :
    { type := .requestVoteResp, fromNode := r.config.id, toNode := msg.fromNode, term := msg.term,
      voteGranted := true } ∈ (r.step msg).outMsgs := by
  have good : (decide (msg.lastLogTerm > r.lastTerm) ||
      (msg.lastLogTerm == r.lastTerm && decide (msg.lastLogIndex ≥ r.lastIndex))) = true := by
    simpa using upToDate
  rw [step, if_pos later, type]
  have same : (r.becomeFollower msg.term 0).handleRequestVote msg =
      (r.becomeFollower msg.term 0).stepRole msg := by
    simp [stepRole, becomeFollower, later, stepFollower, type]
  simp only [reduceCtorEq, if_false]
  rw [← same, handleRequestVote]
  have lastTerm : (r.becomeFollower msg.term 0).lastTerm = r.lastTerm := by
    simp [lastTerm, becomeFollower, later]
  have lastIndex : (r.becomeFollower msg.term 0).lastIndex = r.lastIndex := by
    simp [lastIndex, becomeFollower, later]
  simp only [lastTerm, lastIndex, good, Bool.and_true, send]
  simp [becomeFollower, later]

/-- A granted vote is counted, and the last one that is needed elects. -/
theorem step_voted (role : r.role = .candidate) (type : msg.type = .requestVoteResp)
    (granted : msg.voteGranted = true) (current : msg.term = r.currentTerm) :
    (r.step msg).currentTerm = r.currentTerm ∧ (r.step msg).log = r.log ∧
      ((r.step msg).role = .leader ∨
        (r.step msg).role = .candidate ∧ (r.step msg).votesGranted.length < r.quorumSize ∧
          (r.step msg).votesGranted = if msg.fromNode ∈ r.votesGranted then r.votesGranted
            else r.votesGranted ++ [msg.fromNode]) := by
  have stepped : r.step msg = r.stepCandidate msg := by
    rw [step, if_neg (by omega), if_neg (by omega), stepRole, role]
  rw [stepped, stepCandidate, type]
  simp only [granted, if_true]
  split
  · split
    · obtain ⟨_, _, elected⟩ := r.becomeLeader_eq
      rw [elected]
      exact ⟨rfl, rfl, Or.inl rfl⟩
    · rename_i more
      exact ⟨rfl, rfl, Or.inr ⟨role, Nat.not_le.mp more, rfl⟩⟩
  · split
    · obtain ⟨_, _, elected⟩ :=
        becomeLeader_eq { r with votesGranted := r.votesGranted ++ [msg.fromNode] }
      rw [elected]
      exact ⟨rfl, rfl, Or.inl rfl⟩
    · rename_i more
      exact ⟨rfl, rfl, Or.inr ⟨role, Nat.not_le.mp more, rfl⟩⟩

/-- A leader does not look at votes. -/
theorem step_vote_late (role : r.role = .leader) (type : msg.type = .requestVoteResp)
    (current : msg.term = r.currentTerm) : r.step msg = r := by
  rw [step, if_neg (by omega), if_neg (by omega), stepRole, role]
  simp only [stepLeader, type]

theorem tick_leader (role : r.role = .leader) :
    r.tick = { r with heartbeatElapsed := r.heartbeatElapsed + 1 } ∧
        r.heartbeatElapsed + 1 < r.config.heartbeatTimeout ∨
      r.tick = { r with
        heartbeatElapsed := 0, outMsgs := r.outMsgs ++ r.others.map r.appendEntriesTo } := by
  rw [tick, if_pos role]
  dsimp only
  split
  · rw [broadcastAppendEntries_eq]
    exact Or.inr rfl
  · rename_i early
    exact Or.inl ⟨rfl, Int.not_le.mp early⟩

/-- A node that hears of a leader of its term or a later one follows it. -/
theorem step_followed (type : msg.type = .appendEntries)
    (role : r.role ≠ .leader ∨ r.currentTerm < msg.term) (term : r.currentTerm ≤ msg.term) :
    ∃ r' : Raft, r.step msg = r'.handleAppendEntries msg ∧ r.SameLog r' ∧ r'.role = .follower ∧
      r'.currentTerm = msg.term ∧ r'.config = r.config ∧ r'.outMsgs = r.outMsgs := by
  by_cases leads : r.role = .leader
  · have later : r.currentTerm < msg.term := role.resolve_left fun h => h leads
    refine ⟨r.becomeFollower msg.term msg.fromNode, ?_, ?_⟩
    · rw [step, if_pos later, type]
      simp [stepRole, becomeFollower, later, stepFollower, type]
    · rw [becomeFollower, if_pos later]
      exact ⟨⟨rfl, rfl, rfl⟩, rfl, rfl, rfl, rfl⟩
  · exact ⟨_, step_heard type leads term, ⟨rfl, rfl, rfl⟩, rfl, rfl, rfl, rfl⟩

theorem step_answered (role : r.role = .leader) (type : msg.type = .appendEntriesResp)
    (current : msg.term = r.currentTerm) : r.step msg = r.handleAppendEntriesResp msg := by
  rw [step, if_neg (by omega), if_neg (by omega), stepRole, role]
  simp only [stepLeader, type]

/-- The leader takes the answer of a peer that has its log. -/
theorem step_accepted (role : r.role = .leader) (type : msg.type = .appendEntriesResp)
    (success : msg.success = true) (current : msg.term = r.currentTerm) :
    ∃ commitIndex, r.step msg = { r with
      matchIndex := assign r.matchIndex msg.fromNode msg.matchIndex
      nextIndex := assign r.nextIndex msg.fromNode (msg.matchIndex + 1)
      commitIndex } := by
  rw [step_answered role type current, handleAppendEntriesResp, if_pos success]
  exact ⟨_, maybeCommit_eq _⟩

/-- And the answer of one that does not, yet. -/
theorem step_rejected (role : r.role = .leader) (type : msg.type = .appendEntriesResp)
    (failure : msg.success = false) (current : msg.term = r.currentTerm)
    (more : 1 < r.nextIndex msg.fromNode) :
    r.step msg = { r with
      nextIndex := assign r.nextIndex msg.fromNode (r.nextIndex msg.fromNode - 1) } := by
  rw [step_answered role type current, handleAppendEntriesResp, if_neg (by simp [failure])]
  exact if_pos more

end Raft

/-! ## Runs that go on -/

/-- Enough members to decide without the others. -/
structure Membership.Majority (M : Membership) where
  nodes : List NodeId
  members : nodes ⊆ M.peers
  distinct : nodes.Nodup
  enough : M.peers.length / 2 < nodes.length

/-- A tick, a delivery or a `TakeCommitted` at one of some nodes. -/
structure Event.Lively (nodes : List NodeId) (e : Event) : Prop where
  inside : e.at ∈ nodes
  running : ∀ id, e ≠ .restart id
  quiet : ∀ id data, e ≠ .propose id data

namespace Event.Lively

variable {nodes : List NodeId} {n : NodeId}

theorem tick (member : n ∈ nodes) : (Event.tick n).Lively nodes :=
  ⟨member, fun _ => Event.noConfusion, fun _ _ => Event.noConfusion⟩

theorem deliver {msg : Message} (member : msg.toNode ∈ nodes) :
    (Event.deliver msg).Lively nodes :=
  ⟨member, fun _ => Event.noConfusion, fun _ _ => Event.noConfusion⟩

theorem takeCommitted (member : n ∈ nodes) : (Event.takeCommitted n).Lively nodes :=
  ⟨member, fun _ => Event.noConfusion, fun _ _ => Event.noConfusion⟩

end Event.Lively

/-- The majority can reach the goal by itself and without a restart. -/
abbrev CanReach {M : Membership} (Q : M.Majority) (P : List Event → Prop) (events : List Event) :
    Prop :=
  Can (Event.Lively Q.nodes) P events

namespace Membership

variable {M : Membership} {events : List Event} {n p : NodeId} {msg : Message} {data : Bytes}

theorem run_concat (M : Membership) (events : List Event) (e : Event) :
    M.run (events ++ [e]) = M.step (M.run events) e := by
  simp [run]

theorem run_tick (member : n ∈ M.peers) :
    M.run (events ++ [.tick n]) = (M.run events).update n ((M.run events).node n).tick := by
  rw [run_concat, step, if_pos (show Event.at (.tick n) ∈ M.peers from member)]
  rfl

theorem run_propose (member : n ∈ M.peers) : M.run (events ++ [.propose n data]) =
    (M.run events).update n (((M.run events).node n).propose data).2 := by
  rw [run_concat, step, if_pos (show Event.at (.propose n data) ∈ M.peers from member)]
  rfl

theorem run_deliver (member : msg.toNode ∈ M.peers) (isSent : msg ∈ (M.run events).sent) :
    M.run (events ++ [.deliver msg]) =
      (M.run events).update msg.toNode (((M.run events).node msg.toNode).step msg) := by
  rw [run_concat, step, if_pos (show Event.at (.deliver msg) ∈ M.peers from member), Cluster.next,
    if_pos isSent]

theorem run_quiet (M : Membership) (events : List Event) (n : NodeId) :
    ((M.run events).node n).outMsgs = [] := by
  have quiet := moment_quiet M events events.length n
  rwa [moment, List.take_length] at quiet

end Membership

namespace Cluster

variable {c : Cluster} {n p : NodeId} {r : Raft} {msg : Message}

theorem update_here : (c.update n r).node n = { r with outMsgs := [] } := by
  simp [update, Raft.takeMessages]

theorem update_elsewhere (other : p ≠ n) : (c.update n r).node p = c.node p := by
  simp [update, other]

theorem update_sent : (c.update n r).sent = c.sent ++ r.outMsgs := rfl

end Cluster

/-! ## Elections -/

section Elections

variable {M : Membership} {Q : M.Majority} {events : List Event} {n p : NodeId}

theorem run_config (member : n ∈ M.peers) : ((M.run events).node n).config = M.config n := by
  obtain ⟨s, h⟩ := run_sim M events
  exact (h.node n member).config

theorem run_quorumSize (member : n ∈ M.peers) :
    ((M.run events).node n).quorumSize = M.peers.length / 2 + 1 := by
  rw [Raft.quorumSize, run_config member]
  rfl

/-- A candidate that has only its own vote and has asked everyone. -/
structure Campaigning (M : Membership) (n : NodeId) (events : List Event) : Prop where
  role : ((M.run events).node n).role = .candidate
  votes : ((M.run events).node n).votesGranted = [n]
  more : 1 < ((M.run events).node n).quorumSize
  asked : ∀ p ∈ M.peers, p ≠ n →
    ((M.run events).node n).requestVoteTo p ∈ (M.run events).sent

/-- A node that does not lead can stand for the next term. -/
theorem can_campaign (isN : n ∈ Q.nodes) (role : ((M.run events).node n).role ≠ .leader) :
    CanReach Q (fun later =>
      (∀ p, p ≠ n → (M.run later).node p = (M.run events).node p) ∧
      ((M.run later).node n).log = ((M.run events).node n).log ∧
      ((M.run later).node n).currentTerm = ((M.run events).node n).currentTerm + 1 ∧
      (((M.run later).node n).role = .leader ∨ Campaigning M n later)) events := by
  have member := Q.members isN
  -- ticks bring the election timer closer, until it is due
  refine Can.descend (P := fun later =>
    (∀ p, p ≠ n → (M.run later).node p = (M.run events).node p) ∧
    ∃ elapsed, (M.run later).node n = { (M.run events).node n with electionElapsed := elapsed })
    (fun later => ((M.config n).electionTimeout -
      ((M.run later).node n).electionElapsed).toNat) ?_ ⟨fun _ _ => rfl, _, rfl⟩
  rintro later ⟨others, elapsed, same⟩
  have waits : ((M.run later).node n).role ≠ .leader := by rw [same]; exact role
  have config : ((M.run later).node n).config = M.config n := run_config member
  refine .event (.tick isN) (.here ?_)
  have elsewhere : ∀ p, p ≠ n →
      (M.run (later ++ [.tick n])).node p = (M.run events).node p := by
    intro p other
    rw [Membership.run_tick member, Cluster.update_elsewhere other, others p other]
  by_cases isDue : (M.config n).electionTimeout ≤ ((M.run later).node n).electionElapsed + 1
  · have ticked := Raft.tick_due waits (by rw [config]; exact isDue)
    obtain ⟨term, log, kind⟩ := Raft.becomeCandidate_cases
      { (M.run later).node n with electionElapsed := ((M.run later).node n).electionElapsed + 1 }
    refine Or.inl ⟨elsewhere, ?_, ?_, ?_⟩
    · rw [Membership.run_tick member, Cluster.update_here, ticked]
      exact log.trans (by rw [same])
    · rw [Membership.run_tick member, Cluster.update_here, ticked]
      exact term.trans (by rw [same])
    · rcases kind with leads | ⟨candidate, votes, more, asked⟩
      · refine Or.inl ?_
        rw [Membership.run_tick member, Cluster.update_here, ticked]
        exact leads
      · refine Or.inr ⟨?_, ?_, ?_, ?_⟩
        · rw [Membership.run_tick member, Cluster.update_here, ticked]
          exact candidate
        · rw [Membership.run_tick member, Cluster.update_here, ticked]
          refine votes.trans ?_
          dsimp only
          rw [config]
          rfl
        · rw [run_quorumSize member]
          rwa [Raft.quorumSize, config] at more
        · intro p isPeer other
          rw [Membership.run_tick member, Cluster.update_here, Cluster.update_sent, ticked]
          refine List.mem_append_right _ (asked p ?_)
          rw [Raft.mem_others, config]
          exact ⟨isPeer, other⟩
  · have early := Raft.tick_early waits (by rw [config]; omega)
    refine Or.inr ⟨⟨elsewhere, elapsed + 1, ?_⟩, ?_⟩
    · rw [Membership.run_tick member, Cluster.update_here, early, same]
      have quiet := M.run_quiet events n
      rw [← quiet]
    · rw [Membership.run_tick member, Cluster.update_here, early]
      dsimp only
      omega

/-- The log of the candidate is as good as that of the voter. -/
def AtLeast (candidate voter : Raft) : Prop :=
  voter.lastTerm < candidate.lastTerm ∨
    candidate.lastTerm = voter.lastTerm ∧ voter.lastIndex ≤ candidate.lastIndex

theorem AtLeast.congr {candidate candidate' voter voter' : Raft} (h : AtLeast candidate voter)
    (log : candidate'.log = candidate.log) (log' : voter'.log = voter.log) :
    AtLeast candidate' voter' := by
  rwa [AtLeast, Raft.lastTerm, Raft.lastTerm, Raft.lastIndex, Raft.lastIndex, log, log']

/-- A leader with no later term in the majority. -/
structure Governs {M : Membership} (Q : M.Majority) (n : NodeId) (events : List Event) : Prop where
  leads : ((M.run events).node n).role = .leader
  latest : ∀ p ∈ Q.nodes, p ≠ n →
    ((M.run events).node p).currentTerm ≤ ((M.run events).node n).currentTerm

/-- The vote of a peer. -/
def grantOf (p n : NodeId) (term : Nat) : Message :=
  { type := .requestVoteResp, fromNode := p, toNode := n, term, voteGranted := true }

/-- Everyone that is asked by a candidate of a later term with a good log grants
    its vote. -/
theorem can_ask (isN : n ∈ Q.nodes) (campaigning : Campaigning M n events)
    (ahead : ∀ p ∈ Q.nodes, p ≠ n →
      ((M.run events).node p).currentTerm < ((M.run events).node n).currentTerm)
    (best : ∀ p ∈ Q.nodes, AtLeast ((M.run events).node n) ((M.run events).node p)) :
    CanReach Q (fun later =>
      ((M.run later).node n = (M.run events).node n ∧
        ∀ p ∈ Q.nodes, p ≠ n →
          ((M.run later).node p).currentTerm ≤ ((M.run events).node n).currentTerm) ∧
      ∀ p ∈ Q.nodes.filter (· ≠ n),
        grantOf p n ((M.run events).node n).currentTerm ∈ (M.run later).sent) events := by
  have member := Q.members isN
  have goal := @Can.each _ _ (Event.Lively Q.nodes)
    (fun later => (M.run later).node n = (M.run events).node n ∧
      (M.run events).sent ⊆ (M.run later).sent ∧
      ∀ p ∈ Q.nodes, p ≠ n →
        ((M.run later).node p).currentTerm < ((M.run events).node n).currentTerm ∧
            ((M.run later).node p).log = ((M.run events).node p).log ∨
          ((M.run later).node p).currentTerm = ((M.run events).node n).currentTerm ∧
            grantOf p n ((M.run events).node n).currentTerm ∈ (M.run later).sent)
    events (Q.nodes.filter (· ≠ n))
    (fun p later => grantOf p n ((M.run events).node n).currentTerm ∈ (M.run later).sent) ?_
    ⟨rfl, fun _ h => h, fun p isPeer other => Or.inl ⟨ahead p isPeer other, rfl⟩⟩
  · refine goal.mono fun later ⟨⟨same, _, terms⟩, granted⟩ =>
      ⟨⟨same, fun p isPeer other => ?_⟩, granted⟩
    rcases terms p isPeer other with ⟨below, -⟩ | ⟨reached, -⟩
    · exact below.le
    · exact reached.le
  rintro p isOther later ⟨same, kept, terms⟩
  obtain ⟨isPeer, other⟩ := List.mem_filter.mp isOther
  have other : p ≠ n := by simpa using other
  rcases terms p isPeer other with ⟨below, log⟩ | ⟨reached, granted⟩
  · -- the request is delivered, and the vote leaves
    obtain ⟨msg, isMsg⟩ : ∃ msg, msg = ((M.run events).node n).requestVoteTo p := ⟨_, rfl⟩
    have isSent : msg ∈ (M.run later).sent := kept (isMsg ▸ campaigning.asked p (Q.members isPeer) other)
    have target : msg.toNode = p := by rw [isMsg]; rfl
    have run := Membership.run_deliver (M := M) (target ▸ Q.members isPeer) isSent
    rw [target] at run
    have type : msg.type = .requestVote := by rw [isMsg]; rfl
    have term : msg.term = ((M.run events).node n).currentTerm := by rw [isMsg]; rfl
    have sender : msg.fromNode = n := by
      rw [isMsg]
      exact congrArg Config.id (run_config member)
    have later' : ((M.run later).node p).currentTerm < msg.term := term ▸ below
    have good : AtLeast ((M.run events).node n) ((M.run later).node p) :=
      (best p isPeer).congr rfl log
    have grants := Raft.step_asked_grants (r := (M.run later).node p) type later'
      (by rw [isMsg]; exact good)
    rw [run_config (Q.members isPeer), sender, term] at grants
    obtain ⟨-, reached, -⟩ := Raft.step_asked (r := (M.run later).node p) type later'
    have isGrant : grantOf p n ((M.run events).node n).currentTerm ∈
        (M.run (later ++ [.deliver msg])).sent := by
      rw [run, Cluster.update_sent]
      exact List.mem_append_right _ grants
    have grown : (M.run later).sent ⊆ (M.run (later ++ [.deliver msg])).sent := by
      rw [run, Cluster.update_sent]
      exact List.subset_append_left _ _
    refine .event (.deliver (target ▸ isPeer))
      (.here ⟨⟨?_, fun m held => grown (kept held), ?_⟩, isGrant, fun q held => grown held⟩)
    · rw [run, Cluster.update_elsewhere (Ne.symm other), same]
    · intro q isPeer' other'
      by_cases here : q = p
      · subst here
        refine Or.inr ⟨?_, isGrant⟩
        rw [run, Cluster.update_here]
        exact reached.trans term
      · rcases terms q isPeer' other' with ⟨below, log⟩ | ⟨reached, granted⟩
        · exact Or.inl (by rw [run, Cluster.update_elsewhere here]; exact ⟨below, log⟩)
        · refine Or.inr ⟨?_, grown granted⟩
          rw [run, Cluster.update_elsewhere here]
          exact reached
  · exact .here ⟨⟨same, kept, terms⟩, granted, fun _ held => held⟩

/-- A candidate that has everyone's vote waiting for it becomes the leader. -/
theorem can_count (isN : n ∈ Q.nodes) (role : ((M.run events).node n).role = .candidate)
    (few : ((M.run events).node n).votesGranted.length < ((M.run events).node n).quorumSize)
    (own : n ∈ ((M.run events).node n).votesGranted)
    (terms : ∀ p ∈ Q.nodes, p ≠ n →
      ((M.run events).node p).currentTerm ≤ ((M.run events).node n).currentTerm)
    (granted : ∀ p ∈ Q.nodes.filter (· ≠ n),
      grantOf p n ((M.run events).node n).currentTerm ∈ (M.run events).sent) :
    CanReach Q (Governs Q n) events := by
  have member := Q.members isN
  have goal := @Can.each _ _ (Event.Lively Q.nodes)
    (fun later =>
      ((M.run later).node n).currentTerm = ((M.run events).node n).currentTerm ∧
      (∀ p, p ≠ n → (M.run later).node p = (M.run events).node p) ∧
      (M.run events).sent ⊆ (M.run later).sent ∧
      (((M.run later).node n).role = .leader ∨
        ((M.run later).node n).role = .candidate ∧ n ∈ ((M.run later).node n).votesGranted ∧
          ((M.run later).node n).votesGranted.length < M.peers.length / 2 + 1))
    events (Q.nodes.filter (· ≠ n))
    (fun p later => ((M.run later).node n).role = .leader ∨
      p ∈ ((M.run later).node n).votesGranted) ?_
    ⟨rfl, fun _ _ => rfl, fun _ h => h, Or.inr ⟨role, own, run_quorumSize member ▸ few⟩⟩
  · refine goal.mono fun later ⟨⟨term, others, _, state⟩, counted⟩ => ⟨?_, fun p isPeer other => ?_⟩
    · rcases state with leads | ⟨candidate, own, few⟩
      · exact leads
      · -- the whole majority has voted
        by_contra unelected
        have all : Q.nodes ⊆ ((M.run later).node n).votesGranted := by
          intro p isPeer
          by_cases here : p = n
          · exact here ▸ own
          · exact (counted p (by simp [isPeer, here])).resolve_left unelected
        have many := (Q.distinct.subperm all).length_le
        have enough := Q.enough
        omega
    · rw [others p other, term]
      exact terms p isPeer other
  rintro p isOther later ⟨term, others, kept, state⟩
  have isSent : grantOf p n ((M.run events).node n).currentTerm ∈ (M.run later).sent :=
    kept (granted p isOther)
  have current : (grantOf p n ((M.run events).node n).currentTerm).term =
      ((M.run later).node n).currentTerm := term.symm
  have run := @Membership.run_deliver M _
    (grantOf p n ((M.run events).node n).currentTerm) member isSent
  have elsewhere : ∀ q, q ≠ n → (M.run (later ++ [.deliver
      (grantOf p n ((M.run events).node n).currentTerm)])).node q = (M.run events).node q := by
    intro q other
    rw [run, Cluster.update_elsewhere (show q ≠ (grantOf p n _).toNode from other), others q other]
  have grown : (M.run events).sent ⊆ (M.run (later ++ [.deliver
      (grantOf p n ((M.run events).node n).currentTerm)])).sent := by
    intro m held
    rw [run, Cluster.update_sent]
    exact List.mem_append_left _ (kept held)
  have here : (M.run (later ++ [.deliver
      (grantOf p n ((M.run events).node n).currentTerm)])).node n =
      { ((M.run later).node n).step (grantOf p n ((M.run events).node n).currentTerm) with
        outMsgs := [] } := by
    rw [run]
    exact Cluster.update_here
  rcases state with leads | ⟨candidate, own, few⟩
  · have same := Raft.step_vote_late leads rfl current
    rw [same] at here
    refine .event (.deliver isN) (.here ⟨⟨?_, elsewhere, grown, Or.inl ?_⟩, Or.inl ?_,
      fun _ _ => Or.inl ?_⟩)
    · rw [here]
      exact term
    all_goals
      rw [here]
      exact leads
  · obtain ⟨sameTerm, -, state⟩ := Raft.step_voted candidate rfl rfl current
    rcases state with leads | ⟨candidate', few', votes⟩
    · refine .event (.deliver isN) (.here ⟨⟨?_, elsewhere, grown, Or.inl ?_⟩, Or.inl ?_,
        fun _ _ => Or.inl ?_⟩)
      · rw [here]
        exact sameTerm.trans term
      all_goals
        rw [here]
        exact leads
    · have counted : ∀ q, q = p ∨ q ∈ ((M.run later).node n).votesGranted →
          q ∈ (((M.run later).node n).step
            (grantOf p n ((M.run events).node n).currentTerm)).votesGranted := by
        intro q voted
        rw [votes]
        split
        · rename_i again
          exact voted.elim (fun same => same ▸ again) id
        · exact voted.elim (fun same => by simp [same, grantOf]) (List.mem_append_left _)
      rw [run_quorumSize member] at few'
      refine .event (.deliver isN) (.here ⟨⟨?_, elsewhere, grown, Or.inr ?_⟩, Or.inr ?_,
        fun q voted => ?_⟩)
      · rw [here]
        exact sameTerm.trans term
      · rw [here]
        exact ⟨candidate', counted n (Or.inr own), few'⟩
      · rw [here]
        exact counted p (Or.inl rfl)
      · rw [here]
        rcases voted with leads | voted
        · rw [leads] at candidate
          cases candidate
        · exact Or.inr (counted q (Or.inr voted))

/-- With the best log and the latest term a candidate wins. -/
theorem can_win (isN : n ∈ Q.nodes) (campaigning : Campaigning M n events)
    (ahead : ∀ p ∈ Q.nodes, p ≠ n →
      ((M.run events).node p).currentTerm < ((M.run events).node n).currentTerm)
    (best : ∀ p ∈ Q.nodes, AtLeast ((M.run events).node n) ((M.run events).node p)) :
    CanReach Q (Governs Q n) events := by
  refine (can_ask isN campaigning ahead best).bind fun later ⟨⟨same, terms⟩, granted⟩ => ?_
  refine can_count isN ?_ ?_ ?_ ?_ ?_
  · rw [same]
    exact campaigning.role
  · rw [same, campaigning.votes]
    exact campaigning.more
  · rw [same, campaigning.votes]
    exact List.mem_singleton_self n
  · rw [same]
    exact terms
  · rw [same]
    exact granted

/-- And so does a node that has them and does not lead, once it stands. -/
theorem can_stand (isN : n ∈ Q.nodes) (role : ((M.run events).node n).role ≠ .leader)
    (latest : ∀ p ∈ Q.nodes,
      ((M.run events).node p).currentTerm ≤ ((M.run events).node n).currentTerm)
    (best : ∀ p ∈ Q.nodes, AtLeast ((M.run events).node n) ((M.run events).node p)) :
    CanReach Q (Governs Q n) events := by
  refine (can_campaign isN role).bind fun later ⟨others, log, term, state⟩ => ?_
  have ahead : ∀ p ∈ Q.nodes, p ≠ n →
      ((M.run later).node p).currentTerm < ((M.run later).node n).currentTerm := by
    intro p isPeer other
    rw [others p other, term]
    exact Nat.lt_succ_of_le (latest p isPeer)
  rcases state with leads | campaigning
  · exact .here ⟨leads, fun p isPeer other => (ahead p isPeer other).le⟩
  · refine can_win isN campaigning ahead fun p isPeer => (best p isPeer).congr log ?_
    by_cases here : p = n
    · rw [here, log]
    · rw [others p here]

theorem Membership.Majority.nonempty (Q : M.Majority) : Q.nodes.toFinset.Nonempty := by
  have enough := Q.enough
  rw [List.toFinset_nonempty_iff]
  rintro none
  simp [none] at enough

/-- Some member of the majority has a log that is as good as all others there. -/
theorem exists_best (Q : M.Majority) (node : NodeId → Raft) :
    ∃ n ∈ Q.nodes, ∀ p ∈ Q.nodes, AtLeast (node n) (node p) := by
  obtain ⟨n, isN, best⟩ := Q.nodes.toFinset.exists_max_image
    (fun p => toLex ((node p).lastTerm, (node p).lastIndex)) Q.nonempty
  refine ⟨n, by simpa using isN, fun p isPeer => ?_⟩
  rcases Prod.Lex.le_iff.mp (best p (by simpa using isPeer)) with earlier | ⟨same, shorter⟩
  · exact Or.inl earlier
  · exact Or.inr ⟨same.symm, shorter⟩

/-- Whatever happened before, some member of the majority can come to lead in the
    latest term. -/
theorem can_elect (Q : M.Majority) (events : List Event) :
    CanReach Q (fun later => ∃ n ∈ Q.nodes, Governs Q n later) events := by
  obtain ⟨m, isM, latest⟩ := Q.nodes.toFinset.exists_max_image
    (fun p => ((M.run events).node p).currentTerm) Q.nonempty
  have isM : m ∈ Q.nodes := by simpa using isM
  have latest : ∀ p ∈ Q.nodes,
      ((M.run events).node p).currentTerm ≤ ((M.run events).node m).currentTerm :=
    fun p isPeer => latest p (by simpa using isPeer)
  by_cases role : ((M.run events).node m).role = .leader
  · exact .here ⟨m, isM, role, fun p isPeer _ => latest p isPeer⟩
  obtain ⟨n, isN, best⟩ := exists_best Q (M.run events).node
  by_cases same : n = m
  · subst same
    exact (can_stand isN role latest best).mono fun later governs => ⟨n, isN, governs⟩
  -- the member with the latest term stands, so that the one with the best log
  -- hears of a term that nobody else has reached
  refine (can_campaign isM role).bind fun later ⟨others, log, term, state⟩ => ?_
  have below : ∀ p ∈ Q.nodes, p ≠ m →
      ((M.run later).node p).currentTerm < ((M.run later).node m).currentTerm := by
    intro p isPeer other
    rw [others p other, term]
    exact Nat.lt_succ_of_le (latest p isPeer)
  rcases state with leads | campaigning
  · exact .here ⟨m, isM, leads, fun p isPeer other => (below p isPeer other).le⟩
  obtain ⟨msg, isMsg⟩ : ∃ msg, msg = ((M.run later).node m).requestVoteTo n := ⟨_, rfl⟩
  have isSent : msg ∈ (M.run later).sent := isMsg ▸ campaigning.asked n (Q.members isN) same
  have target : msg.toNode = n := by rw [isMsg]; rfl
  have run := Membership.run_deliver (M := M) (target ▸ Q.members isN) isSent
  rw [target] at run
  obtain ⟨follows, reached, sameLog⟩ := @Raft.step_asked ((M.run later).node n) msg
    (by rw [isMsg]; rfl) (by rw [isMsg]; exact below n isN same)
  have termIs : msg.term = ((M.run later).node m).currentTerm := by rw [isMsg]; rfl
  have here : (M.run (later ++ [.deliver msg])).node n =
      { ((M.run later).node n).step msg with outMsgs := [] } := by
    rw [run, Cluster.update_here]
  have elsewhere : ∀ p, p ≠ n →
      (M.run (later ++ [.deliver msg])).node p = (M.run later).node p := by
    intro p other
    rw [run, Cluster.update_elsewhere other]
  have logs : ∀ p, ((M.run (later ++ [.deliver msg])).node p).log =
      ((M.run events).node p).log := by
    intro p
    by_cases atN : p = n
    · rw [atN, here]
      exact sameLog.trans (by rw [others n same])
    · rw [elsewhere p atN]
      by_cases atM : p = m
      · rw [atM, log]
      · rw [others p atM]
  refine .event (.deliver (target ▸ isN)) ?_
  refine (can_stand isN ?_ ?_ ?_).mono fun last governs => ⟨n, isN, governs⟩
  · rw [here]
    dsimp only
    rw [follows]
    decide
  · intro p isPeer
    have top : ((M.run (later ++ [.deliver msg])).node n).currentTerm =
        ((M.run later).node m).currentTerm := by
      rw [here]
      exact reached.trans termIs
    rw [top]
    by_cases atN : p = n
    · rw [atN, top]
    · rw [elsewhere p atN]
      by_cases atM : p = m
      · rw [atM]
      · exact (below p isPeer atM).le
  · exact fun p isPeer => (best p isPeer).congr (logs n) (logs p)

end Elections

end MiniLsm
