import MiniLsm.Raft.Leadership
import MiniLsm.Raft.Safety
import MiniLsm.Machine.Runs

/-! # What a leader knows of its peers

`next_index_`, `match_index_` and `commit_index_` of every leader in every state
of a run: they stay inside the log, what they say of a peer is so, and nothing
that could be committed is left uncommitted.
-/

namespace MiniLsm

open Consensus

namespace Membership

variable {M : Membership} {events : List Event} {k : Nat} {c : Cluster}

/-- The next moment comes after one event, or there is none left. -/
theorem moment_succ (M : Membership) (events : List Event) (k : Nat) :
    (∃ e, events[k]? = some e ∧ M.moment events (k + 1) = M.step (M.moment events k) e) ∨
      (events[k]? = none ∧ M.moment events (k + 1) = M.moment events k) := by
  rw [moment, moment, run, run, List.take_add_one]
  cases events[k]? with
  | none => exact Or.inr ⟨rfl, by simp⟩
  | some e => exact Or.inl ⟨e, rfl, by simp⟩

/-- A property of the first state that every step keeps holds at every moment. -/
theorem moment_invariant (I : Cluster → Prop) (initial : I M.initial)
    (step : ∀ events e, I (M.run events) → I (M.step (M.run events) e)) (events : List Event)
    (k : Nat) : I (M.moment events k) := by
  refine run_invariant M.step M.initial I initial ?_
  intro before e _ holds
  exact step before e holds

/-! ## Emitted messages -/

/-- The messages that leave at event `k`. -/
def emitted (M : Membership) (events : List Event) (k : Nat) : List Message :=
  (M.moment events (k + 1)).sent.drop (M.moment events k).sent.length

/-- Between events all queues are empty. -/
theorem moment_quiet (M : Membership) (events : List Event) (k : Nat) (n : NodeId) :
    ((M.moment events k).node n).outMsgs = [] := by
  refine moment_invariant (fun c => ∀ n, (c.node n).outMsgs = []) (fun _ => rfl) ?_ events k n
  intro before e quiet n
  rw [step]
  split
  · generalize M.run before = c at quiet ⊢
    have updated (id : NodeId) (r : Raft) : ((c.update id r).node n).outMsgs = [] := by
      rw [Cluster.update_node]
      split
      · rfl
      · exact quiet n
    cases e with
    | tick id => exact updated id _
    | propose id data => exact updated id _
    | deliver msg =>
        rw [Cluster.next]
        split
        · exact updated _ _
        · exact quiet n
    | takeCommitted id =>
        simp only [Cluster.next]
        split
        · exact quiet id
        · exact quiet n
    | restart id =>
        simp only [Cluster.next]
        split
        · rfl
        · exact quiet n
  · exact quiet n

/-- An AppendEntries leaves a leader as that leader's state says. -/
theorem step_emits (quiet : ∀ n, (c.node n).outMsgs = []) (e : Event) :
    ∃ out, (M.step c e).sent = c.sent ++ out ∧ ∀ m ∈ out, m.type = .appendEntries →
      ∃ n ∈ M.peers, ((M.step c e).node n).role = .leader ∧
        ∃ p ∈ ((M.step c e).node n).others, m = ((M.step c e).node n).appendEntriesTo p := by
  have nothing {c' : Cluster} (same : c'.sent = c.sent) : ∃ out, c'.sent = c.sent ++ out ∧
      ∀ m ∈ out, m.type = .appendEntries → ∃ n ∈ M.peers, (c'.node n).role = .leader ∧
        ∃ p ∈ (c'.node n).others, m = (c'.node n).appendEntriesTo p :=
    ⟨[], by rw [same, List.append_nil], by simp⟩
  have updated {id : NodeId} {r : Raft} (member : id ∈ M.peers) (emits : (c.node id).Emits r) :
      ∃ out, (c.update id r).sent = c.sent ++ out ∧ ∀ m ∈ out, m.type = .appendEntries →
        ∃ n ∈ M.peers, ((c.update id r).node n).role = .leader ∧
          ∃ p ∈ ((c.update id r).node n).others,
            m = ((c.update id r).node n).appendEntriesTo p := by
    refine ⟨r.outMsgs, rfl, ?_⟩
    intro m isOut type
    rcases emits m isOut with old | other | ⟨leads, p, isPeer, same⟩
    · rw [quiet id] at old
      simp at old
    · exact absurd type other
    · refine ⟨id, member, ?_⟩
      rw [Cluster.update_node, if_pos rfl]
      exact ⟨leads, p, isPeer, same⟩
  rw [step]
  split
  · rename_i member
    cases e with
    | tick id => exact updated member (Raft.Emits.tick _)
    | propose id data => exact updated member (Raft.Emits.propose _ data)
    | deliver msg =>
        rw [Cluster.next]
        split
        · exact updated member (Raft.Emits.step _ msg)
        · exact nothing rfl
    | takeCommitted id => exact nothing rfl
    | restart id => exact nothing rfl
  · exact nothing rfl

/-- Whatever was sent left at some event. -/
theorem sent_emitted (M : Membership) (events : List Event) (k : Nat) :
    ∀ m ∈ (M.moment events k).sent, ∃ j < k, m ∈ M.emitted events j := by
  induction k with
  | zero =>
      intro m member
      rw [moment, List.take_zero] at member
      cases member
  | succ k ih =>
      intro m member
      have split : (M.moment events (k + 1)).sent =
          (M.moment events k).sent ++ M.emitted events k := by
        rw [emitted]
        rcases moment_succ M events k with ⟨e, -, same⟩ | ⟨-, same⟩
        · obtain ⟨out, sent, -⟩ := @step_emits M (M.moment events k) (moment_quiet M events k) e
          rw [same, sent, List.drop_left]
        · rw [same, List.drop_length, List.append_nil]
      rw [split] at member
      rcases List.mem_append.mp member with old | new
      · obtain ⟨j, before, isOut⟩ := ih m old
        exact ⟨j, by omega, isOut⟩
      · exact ⟨k, by omega, new⟩

theorem emitted_from_leader {m : Message} (isOut : m ∈ M.emitted events k)
    (type : m.type = .appendEntries) :
    ∃ n ∈ M.peers, ((M.moment events (k + 1)).node n).role = .leader ∧
      ∃ p ∈ ((M.moment events (k + 1)).node n).others,
        m = ((M.moment events (k + 1)).node n).appendEntriesTo p := by
  rw [emitted] at isOut
  rcases moment_succ M events k with ⟨e, -, same⟩ | ⟨-, same⟩
  · obtain ⟨out, sent, emits⟩ := @step_emits M (M.moment events k) (moment_quiet M events k) e
    rw [same] at isOut ⊢
    rw [sent, List.drop_left] at isOut
    exact emits m isOut type
  · rw [same, List.drop_length] at isOut
    simp at isOut

end Membership

/-! ## Bookkeeping -/

section Bookkeeping

variable {M : Membership} {c : Cluster} {s : History} {a p : NodeId}

/-- What a leader counts for a peer was stored by it, and lies inside the log. -/
theorem ClusterSim.match_le (h : ClusterSim M c s) (isA : a ∈ M.peers) (isP : p ∈ M.peers)
    (other : p ≠ a) (leads : (c.node a).role = .leader) :
    (c.node a).matchIndex p ≤ s.acked p (s.term a) ∧
      s.acked p (s.term a) ≤ (c.node a).lastIndex := by
  have node := h.node a isA
  have leading := node.leader leads
  refine ⟨leading.acked p isP other, ?_⟩
  rw [node.lastIndex, leading.same]
  exact h.inv.ackedWritten p (s.term a)

/-- A peer in the leader's term still holds what the leader counts for it. -/
theorem ClusterSim.match_agrees (h : ClusterSim M c s) (isA : a ∈ M.peers) (isP : p ∈ M.peers)
    (other : p ≠ a) (leads : (c.node a).role = .leader)
    (term : (c.node p).currentTerm = (c.node a).currentTerm) {i : Nat} (positive : 1 ≤ i)
    (upto : i ≤ (c.node a).matchIndex p) :
    ∃ e, (c.node p).log[i]? = some e ∧ (c.node a).log[i]? = some e := by
  have nodeA := h.node a isA
  have nodeP := h.node p isP
  obtain ⟨counted, inside⟩ := h.match_le isA isP other leads
  rw [nodeA.lastIndex] at inside
  rw [nodeA.term, nodeP.term] at term
  have held := h.inv.ackedHeld p
  rw [term, ← (nodeA.leader leads).same] at held
  have found : (s.log a)[i - 1]? = some ((s.log a).get ⟨i - 1, by omega⟩) :=
    List.getElem?_eq_getElem _
  refine ⟨_, ?_, (nodeA.get positive).trans found⟩
  rw [nodeP.get positive, get_of_prefix held (by rw [List.length_take]; omega),
    List.getElem?_take_of_lt (by omega)]
  exact found

/-- An AppendEntries built by a leader starts inside its log, and vouches for all
    that the leader has committed. -/
theorem ClusterSim.appendEntriesTo_inside (h : ClusterSim M c s) (isA : a ∈ M.peers)
    (isP : p ∈ M.peers) (other : p ≠ a) (leads : (c.node a).role = .leader) :
    ((c.node a).appendEntriesTo p).prevLogIndex ≤ (c.node a).lastIndex ∧
      ((c.node a).appendEntriesTo p).leaderCommit ≤
        ((c.node a).appendEntriesTo p).prevLogIndex +
          ((c.node a).appendEntriesTo p).entries.length := by
  have node := h.node a isA
  obtain ⟨positive, within⟩ := (node.leader leads).next p isP other
  have held := h.inv.commitHeld a
  have size : (c.node a).log.length = (s.log a).length + 1 := by rw [node.log, List.length_cons]
  have pred : predU64 ((c.node a).nextIndex p) = (c.node a).nextIndex p - 1 := by
    rw [predU64, if_neg (by omega)]
  simp only [Raft.appendEntriesTo, pred, List.length_drop, node.lastIndex, node.commit, size]
  omega

end Bookkeeping

/-- In every state of a run: `next_index_` and `match_index_` of a leader stay
    inside its log, a peer in the leader's term holds what the leader counts for
    it, and the AppendEntries that leave refer to an entry of their sender and
    vouch for everything they let a follower commit. -/
theorem leader_bookkeeping (M : Membership) (events : List Event) (k : Nat) :
    (∀ a ∈ M.peers, ∀ p ∈ M.peers, p ≠ a → ((M.moment events k).node a).role = .leader →
      (1 ≤ ((M.moment events k).node a).nextIndex p ∧
        ((M.moment events k).node a).nextIndex p ≤ ((M.moment events k).node a).lastIndex + 1 ∧
        predU64 (((M.moment events k).node a).nextIndex p) =
          ((M.moment events k).node a).nextIndex p - 1) ∧
      ((M.moment events k).node a).matchIndex p ≤ ((M.moment events k).node a).lastIndex ∧
      (((M.moment events k).node p).currentTerm = ((M.moment events k).node a).currentTerm →
        ∀ i, 1 ≤ i → i ≤ ((M.moment events k).node a).matchIndex p →
          ∃ e, ((M.moment events k).node p).log[i]? = some e ∧
            ((M.moment events k).node a).log[i]? = some e)) ∧
    (∀ msg ∈ (M.moment events k).sent, ∃ j < k, msg ∈ M.emitted events j) ∧
    ∀ msg ∈ M.emitted events k, msg.type = .appendEntries →
      msg.prevLogTerm = ((M.moment events (k + 1)).node msg.fromNode).termAt msg.prevLogIndex ∧
      msg.prevLogIndex ≤ ((M.moment events (k + 1)).node msg.fromNode).lastIndex ∧
      msg.leaderCommit ≤ msg.prevLogIndex + msg.entries.length ∧
      ∀ last, min msg.leaderCommit last ≤ msg.prevLogIndex + msg.entries.length := by
  refine ⟨?_, Membership.sent_emitted M events k, ?_⟩
  · intro a isA p isP other leads
    obtain ⟨s, h⟩ := run_sim M (events.take k)
    have node := h.node a isA
    obtain ⟨positive, within⟩ := (node.leader leads).next p isP other
    obtain ⟨counted, inside⟩ := h.match_le isA isP other leads
    refine ⟨⟨positive, ?_, ?_⟩, counted.trans inside, ?_⟩
    · rw [Membership.moment, node.lastIndex]
      exact within
    · exact if_neg (Nat.one_le_iff_ne_zero.mp positive)
    · intro term i first upto
      exact h.match_agrees isA isP other leads term first upto
  · intro msg isOut type
    obtain ⟨n, isN, leads, p, isPeer, rfl⟩ := Membership.emitted_from_leader isOut type
    obtain ⟨s, h⟩ := run_sim M (events.take (k + 1))
    have node := h.node n isN
    obtain ⟨isP, other⟩ := node.mem_others.mp isPeer
    have sender : (((M.moment events (k + 1)).node n).appendEntriesTo p).fromNode = n :=
      node.config_id
    obtain ⟨inside, vouched⟩ := h.appendEntriesTo_inside isN isP other leads
    rw [sender]
    exact ⟨rfl, inside, vouched, fun last => (Nat.min_le_left _ _).trans vouched⟩

/-! ## Commitment -/

section Commitment

variable {M : Membership} {c : Cluster} {s : History} {a : NodeId} {r r' : Raft}

/-- The entries of a node are of terms it has reached, those of a candidate of
    earlier ones. -/
theorem NodeSim.termAt_bound (h : NodeSim M s a r) (inv : M.protocol.Inv s) {n : Nat}
    (positive : 0 < n) (inside : n ≤ r.lastIndex) :
    r.termAt n ≤ r.currentTerm ∧ (r.role = .candidate → r.termAt n < r.currentTerm) := by
  obtain ⟨n, rfl⟩ := Nat.exists_eq_add_of_le' positive
  rw [h.lastIndex] at inside
  have member : (s.log a)[n] ∈ s.log a := List.getElem_mem inside
  rw [h.termAt_get inside, h.term]
  refine ⟨inv.logTerms a _ member, fun role => ?_⟩
  exact inv.stoodTerms a _ _ (h.candidate role).stood _ member

/-- No entry is of the term that a node has just won. -/
theorem LeaderStep.elected_nothing (h : NodeSim M s a r) (inv : M.protocol.Inv s)
    (log : r'.log = r.log)
    (term : (r.role = .candidate ∧ r'.currentTerm = r.currentTerm) ∨
      r'.currentTerm = r.currentTerm + 1) (commit n : Nat) : ¬ r'.Due commit n := by
  intro due
  have sameTerm : r'.termAt n = r.termAt n := by
    rw [Raft.termAt, Raft.termAt, Raft.lastIndex, Raft.lastIndex, Raft.entryAt, Raft.entryAt, log]
  have inside := due.inside
  rw [Raft.lastIndex, log, ← Raft.lastIndex] at inside
  have current := due.current
  rw [sameTerm] at current
  obtain ⟨reached, earlier⟩ := h.termAt_bound inv (Nat.zero_lt_of_lt due.above) inside
  rcases term with ⟨role, same⟩ | next
  · have := earlier role
    omega
  · omega

/-- One step of a leader, from a state in which nothing was due. -/
theorem LeaderStep.exact {ack : Option (NodeId × Nat)} (step : Raft.LeaderStep r ack r')
    (h : NodeSim M s a r) (inv : M.protocol.Inv s)
    (settled : r.role = .leader → ∀ n, ¬ r.Due r.commitIndex n) : r'.Exact r.commitIndex := by
  cases step with
  | elected before noAck log commit none term =>
      exact Or.inl ⟨commit, LeaderStep.elected_nothing h inv log term r.commitIndex⟩
  | kept before noAck config term log commit matched =>
      refine Or.inl ⟨commit, fun n due => settled before n ⟨due.above, ?_, ?_, ?_⟩⟩
      · have inside := due.inside
        rwa [Raft.lastIndex, log] at inside
      · have current := due.current
        rwa [Raft.termAt, Raft.lastIndex, Raft.entryAt, log, term] at current
      · have held := due.held
        rwa [Raft.holders, Raft.others, Raft.quorumSize, config, matched] at held
  | searched before term matched exact => exact exact

/-- A step of the cluster, seen at a member that leads after it. -/
theorem Membership.step_leaderStep {e : Event} (member : a ∈ M.peers)
    (leads : ((M.step c e).node a).role = .leader) :
    Raft.LeaderStep (c.node a) (c.ackAt a e) ((M.step c e).node a) := by
  rw [Membership.step] at leads ⊢
  split
  · rw [if_pos ‹_›] at leads
    exact Cluster.next_leaderStep leads
  · rename_i elsewhere
    rw [if_neg elsewhere] at leads
    have noAck : c.ackAt a e = none := by
      cases e with
      | deliver msg =>
          rw [Cluster.ackAt, if_neg]
          rintro ⟨-, rfl⟩
          exact elsewhere member
      | tick id | takeCommitted id | restart id => rfl
      | propose id data => rfl
    rw [noAck]
    exact Cluster.unchanged leads

/-- Nothing is due at a leader. -/
theorem nothing_due (M : Membership) (events : List Event) (k : Nat) (a : NodeId)
    (member : a ∈ M.peers) (leads : ((M.moment events k).node a).role = .leader) (n : Nat) :
    ¬ ((M.moment events k).node a).Due ((M.moment events k).node a).commitIndex n := by
  refine Membership.moment_invariant (fun c => (c.node a).role = .leader →
    ∀ n, ¬ (c.node a).Due (c.node a).commitIndex n) (by rintro ⟨⟩) ?_ events k leads n
  intro before e settled leads
  obtain ⟨s, h⟩ := run_sim M before
  exact (LeaderStep.exact (Membership.step_leaderStep member leads) (h.node a member) h.inv
    settled).nothing

end Commitment

/-- A leader leaves nothing uncommitted that the rule allows it to commit, and
    when its commit index rises it is to the greatest such index. -/
theorem commit_rule_exact (M : Membership) (events : List Event) (k : Nat) (a : NodeId)
    (member : a ∈ M.peers) :
    (((M.moment events k).node a).role = .leader →
      ∀ n, ¬ ((M.moment events k).node a).Due ((M.moment events k).node a).commitIndex n) ∧
    (((M.moment events (k + 1)).node a).role = .leader →
      ((M.moment events k).node a).commitIndex < ((M.moment events (k + 1)).node a).commitIndex →
      ((M.moment events (k + 1)).node a).Due ((M.moment events k).node a).commitIndex
          ((M.moment events (k + 1)).node a).commitIndex ∧
        ∀ n, ((M.moment events (k + 1)).node a).Due ((M.moment events k).node a).commitIndex n →
          n ≤ ((M.moment events (k + 1)).node a).commitIndex) := by
  refine ⟨fun leads => nothing_due M events k a member leads, ?_⟩
  intro leads rises
  rcases Membership.moment_succ M events k with ⟨e, -, same⟩ | ⟨-, same⟩
  · obtain ⟨s, h⟩ := run_sim M (events.take k)
    rw [same] at leads rises ⊢
    rcases LeaderStep.exact (Membership.step_leaderStep member leads) (h.node a member) h.inv
      (fun led => nothing_due M events k a member led) with ⟨unmoved, -⟩ | found
    · exact absurd unmoved (Nat.ne_of_gt rises)
    · exact found
  · rw [same] at rises
    exact absurd rises (Nat.lt_irrefl _)

theorem commit_rule_exact_twoTerms :
    ((threeNodes.moment twoTerms 6).node 1).commitIndex <
        ((threeNodes.moment twoTerms 7).node 1).commitIndex ∧
      ((threeNodes.moment twoTerms 7).node 1).Due 0 1 ∧
      ∀ n, ((threeNodes.moment twoTerms 7).node 1).Due 0 n → n ≤ 1 :=
  ⟨by decide, (commit_rule_exact threeNodes twoTerms 6 1 (by decide)).2 (by decide) (by decide)⟩

/-! ## Acknowledgements -/

namespace Membership

variable (M : Membership) (events : List Event) (a p : NodeId)

/-- The index of a successful answer of `p` that the leader `a` takes at event
    `k`. -/
def ackFrom (k : Nat) : Option Nat :=
  match events[k]? with
  | none => none
  | some e =>
      match (M.moment events k).ackAt a e with
      | some (peer, index) => if peer = p then some index else none
      | none => none

/-- The indices that `p` acknowledged and `a` took since `a` became leader. -/
def acksFrom : Nat → List Nat
  | 0 => []
  | k + 1 =>
      if ((M.moment events (k + 1)).node a).role = .leader ∧
          ((M.moment events k).node a).role ≠ .leader then []
      else acksFrom k ++ (M.ackFrom events a p k).toList

/-- What a leader counts for a peer is the greatest index the peer acknowledged,
    and never falls while it leads. -/
structure CountsGreatest : Prop where
  greatest : ∀ k, ((M.moment events k).node a).role = .leader →
    ((M.moment events k).node a).matchIndex p = (M.acksFrom events a p k).foldl max 0
  rises : ∀ k, ((M.moment events k).node a).role = .leader →
    ((M.moment events (k + 1)).node a).role = .leader →
    ((M.moment events k).node a).matchIndex p ≤ ((M.moment events (k + 1)).node a).matchIndex p

variable {M events a p}

/-- An acknowledgement is taken by a leader, which goes on to lead. -/
theorem ackAt_leads {c : Cluster} {e : Event} {ack : NodeId × Nat} (member : a ∈ M.peers)
    (taken : c.ackAt a e = some ack) :
    (c.node a).role = .leader ∧ ((M.step c e).node a).role = .leader := by
  cases e with
  | deliver msg =>
      rw [Cluster.ackAt] at taken
      split at taken
      · rename_i arrives
        obtain ⟨isSent, rfl⟩ := arrives
        rw [Raft.ackOf] at taken
        split at taken
        · rename_i answer
          obtain ⟨leads, type, term, success⟩ := answer
          refine ⟨leads, ?_⟩
          have steps : (c.node msg.toNode).step msg =
              (c.node msg.toNode).handleAppendEntriesResp msg := by
            rw [Raft.step, if_neg (by omega), if_neg (by omega)]
            simp only [Raft.stepRole, leads, Raft.stepLeader, type]
          have here : (Event.deliver msg).at ∈ M.peers := member
          rw [step, if_pos here, Cluster.next, if_pos isSent, Cluster.update_node, if_pos rfl,
            steps, Raft.handleAppendEntriesResp, if_pos success, Raft.maybeCommit_eq]
          exact leads
        · simp at taken
      · simp at taken
  | tick id | takeCommitted id | restart id => simp [Cluster.ackAt] at taken
  | propose id data => simp [Cluster.ackAt] at taken

/-- `match_index_` from one moment of a leadership to the next. -/
theorem match_succ (member : a ∈ M.peers) {k : Nat}
    (leads : ((M.moment events (k + 1)).node a).role = .leader) :
    (((M.moment events k).node a).role ≠ .leader ∧
        ((M.moment events (k + 1)).node a).matchIndex p = 0) ∨
      (((M.moment events k).node a).role = .leader ∧
        ((M.moment events (k + 1)).node a).matchIndex p =
          (M.ackFrom events a p k).getD (((M.moment events k).node a).matchIndex p)) := by
  rw [ackFrom]
  rcases moment_succ M events k with ⟨e, event, same⟩ | ⟨event, same⟩
  · simp only [event]
    rw [same] at leads ⊢
    cases step_leaderStep member leads with
    | elected before noAck log commit none term => exact Or.inl ⟨before, none p⟩
    | kept before noAck config term log commit matched =>
        rw [noAck]
        exact Or.inr ⟨before, congrFun matched p⟩
    | searched before term matched exact =>
        refine Or.inr ⟨before, (congrFun matched p).trans ?_⟩
        cases (M.moment events k).ackAt a e with
        | none => rfl
        | some ack =>
            simp only [Raft.acknowledged, assign]
            split <;> rename_i here
            · rw [if_pos here.symm]
              rfl
            · rw [if_neg (Ne.symm here)]
              rfl
  · rw [event]
    rw [same] at leads ⊢
    exact Or.inr ⟨leads, rfl⟩

end Membership

/-- A leader counts the greatest acknowledged index of a peer if and only if it
    takes no acknowledgement after a greater one. -/
theorem counts_greatest_iff (M : Membership) (events : List Event) (a p : NodeId)
    (member : a ∈ M.peers) :
    M.CountsGreatest events a p ↔
      ∀ k, ∀ index ∈ M.ackFrom events a p k,
        ((M.moment events k).node a).matchIndex p ≤ index := by
  constructor
  · intro counts k index taken
    have leads : ((M.moment events k).node a).role = .leader ∧
        ((M.moment events (k + 1)).node a).role = .leader := by
      have taken' := taken
      rw [Membership.ackFrom] at taken'
      rcases Membership.moment_succ M events k with ⟨e, event, same⟩ | ⟨event, -⟩
      · rw [event] at taken'
        rw [same]
        cases ack : (M.moment events k).ackAt a e with
        | none => simp [ack] at taken'
        | some pair => exact Membership.ackAt_leads member ack
      · simp [event] at taken'
    have counted := counts.rises k leads.1 leads.2
    rcases @Membership.match_succ M events a p member k leads.2 with ⟨before, -⟩ | ⟨-, same⟩
    · exact absurd leads.1 before
    · rwa [same, Option.mem_def.mp taken] at counted
  · intro inOrder
    constructor
    · intro k
      induction k with
      | zero =>
          intro leads
          rw [Membership.moment, List.take_zero] at leads
          cases leads
      | succ k ih =>
          intro leads
          rw [Membership.acksFrom]
          rcases @Membership.match_succ M events a p member k leads with
            ⟨before, same⟩ | ⟨before, same⟩
          · rw [if_pos ⟨leads, before⟩, same]
            rfl
          · rw [if_neg fun h => h.2 before, same, List.foldl_append, ← ih before]
            cases taken : M.ackFrom events a p k with
            | none => rfl
            | some index =>
                exact (Nat.max_eq_right (inOrder k index taken)).symm
    · intro k before leads
      rcases @Membership.match_succ M events a p member k leads with ⟨other, -⟩ | ⟨-, same⟩
      · exact absurd before other
      · rw [same]
        cases taken : M.ackFrom events a p k with
        | none => exact le_rfl
        | some index => exact inOrder k index taken

theorem counts_greatest_iff_twoTerms : threeNodes.CountsGreatest twoTerms 1 2 := by
  refine (counts_greatest_iff threeNodes twoTerms 1 2 (by decide)).mpr ?_
  have inRun : ∀ k < 13, ∀ index ∈ threeNodes.ackFrom twoTerms 1 2 k,
      ((threeNodes.moment twoTerms k).node 1).matchIndex 2 ≤ index := by
    decide
  intro k index taken
  by_cases inside : k < 13
  · exact inRun k inside index taken
  · have past : twoTerms[k]? = none := List.getElem?_eq_none (by simpa [twoTerms] using inside)
    simp [Membership.ackFrom, past] at taken

/-- Node 2 stores an entry, and answers to the heartbeat before it as well. The
    answers arrive in the other order. -/
def swappedAnswers : List Event :=
  let entry : LogEntry := { term := 1, index := 1, data := [7] }
  [ .tick 1,
    .deliver { type := .requestVote, fromNode := 1, toNode := 2, term := 1 },
    .deliver { type := .requestVoteResp, fromNode := 2, toNode := 1, term := 1,
               voteGranted := true },
    .propose 1 [7],
    .tick 1,
    .deliver { type := .appendEntries, fromNode := 1, toNode := 2, term := 1 },
    .deliver { type := .appendEntries, fromNode := 1, toNode := 2, term := 1,
               entries := [entry] },
    .deliver { type := .appendEntriesResp, fromNode := 2, toNode := 1, term := 1,
               success := true, matchIndex := 1 },
    .deliver { type := .appendEntriesResp, fromNode := 2, toNode := 1, term := 1,
               success := true } ]

theorem older_answer_lowers_match :
    ((threeNodes.moment swappedAnswers 9).node 1).role = .leader ∧
      ((threeNodes.moment swappedAnswers 8).node 1).matchIndex 2 = 1 ∧
      threeNodes.acksFrom swappedAnswers 1 2 9 = [1, 0] ∧
      ((threeNodes.moment swappedAnswers 9).node 1).matchIndex 2 = 0 := by
  decide

end MiniLsm
