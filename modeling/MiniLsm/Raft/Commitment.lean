import MiniLsm.Raft.Availability

/-! # A new entry can reach everyone

Once a leader has no later term to fear in a majority, its heartbeats and the
answers to them bring its log to every peer there, whatever the peer holds. The
commit rule then covers the whole log, and the next heartbeat says so.
-/

namespace MiniLsm

open Consensus

variable {M : Membership} {Q : M.Majority} {events : List Event} {n p : NodeId} {term : Nat}
  {log : List LogEntry}

/-! ## One exchange -/

/-- No other member leads in the term of a leader. -/
theorem Governs.follows (h : Governs Q n events) (isN : n ∈ Q.nodes) (isP : p ∈ Q.nodes)
    (other : p ≠ n) : ((M.run events).node p).role ≠ .leader ∨
      ((M.run events).node p).currentTerm < ((M.run events).node n).currentTerm := by
  have member := Q.members isN
  have isPeer := Q.members isP
  obtain ⟨s, sim⟩ := run_sim M events
  rcases (h.latest p isP other).lt_or_eq with earlier | same
  · exact Or.inr earlier
  · refine Or.inl fun leads => other ?_
    have led := ((sim.node p isPeer).leader leads).leads
    have led' := ((sim.node n member).leader h.leads).leads
    rw [(sim.node p isPeer).term, (sim.node n member).term] at same
    rw [same, led'] at led
    exact (Option.some.inj led).symm

/-- A peer handles an AppendEntries of the leader as a follower of its term. -/
theorem Governs.heard (h : Governs Q n events) (isN : n ∈ Q.nodes) (isP : p ∈ Q.nodes)
    (other : p ≠ n) (isSent : ((M.run events).node n).appendEntriesTo p ∈ (M.run events).sent) :
    ∃ r : Raft, ((M.run events).node p).SameLog r ∧
      r.currentTerm = ((M.run events).node n).currentTerm ∧ r.config = M.config p ∧
      r.outMsgs = [] ∧
      M.run (events ++ [.deliver (((M.run events).node n).appendEntriesTo p)]) =
        (M.run events).update p
          (r.handleAppendEntries (((M.run events).node n).appendEntriesTo p)) := by
  have member := Q.members isN
  have isPeer := Q.members isP
  obtain ⟨r, steps, same, -, term, config, out⟩ := @Raft.step_followed
    ((M.run events).node p) (((M.run events).node n).appendEntriesTo p) rfl
    (h.follows isN isP other) (h.latest p isP other)
  have run := Membership.run_deliver (M := M)
    (show (((M.run events).node n).appendEntriesTo p).toNode ∈ M.peers from isPeer) isSent
  refine ⟨r, same, term, config.trans (run_config isPeer), out.trans (M.run_quiet events p), ?_⟩
  rw [run]
  exact congrArg ((M.run events).update p) steps

/-- The leader's log is on its way to a peer from `next_index_` on. -/
theorem Governs.request (h : Governs Q n events) (isN : n ∈ Q.nodes) (isP : p ∈ Q.nodes)
    (other : p ≠ n) :
    1 ≤ ((M.run events).node n).nextIndex p ∧
      (((M.run events).node n).appendEntriesTo p).prevLogIndex + 1 =
        ((M.run events).node n).nextIndex p ∧
      (((M.run events).node n).appendEntriesTo p).prevLogIndex +
          (((M.run events).node n).appendEntriesTo p).entries.length =
        ((M.run events).node n).lastIndex ∧
      Contiguous ((((M.run events).node n).appendEntriesTo p).prevLogIndex + 1)
        (((M.run events).node n).appendEntriesTo p).entries := by
  have member := Q.members isN
  have isPeer := Q.members isP
  obtain ⟨s, sim⟩ := run_sim M events
  have node := sim.node n member
  obtain ⟨positive, within⟩ := (node.leader h.leads).next p isPeer other
  have pred : predU64 (((M.run events).node n).nextIndex p) =
      ((M.run events).node n).nextIndex p - 1 := if_neg (Nat.one_le_iff_ne_zero.mp positive)
  have vouched : Vouched M s (((M.run events).node n).appendEntriesTo p) :=
    (appendEntriesTo_vouched (sim.at member) h.leads isPeer other).2
  refine ⟨positive, ?_, ?_, vouched.contiguous sim.ledgers⟩
  · simp only [Raft.appendEntriesTo, pred]
    omega
  · rw [node.lastIndex]
    simp only [Raft.appendEntriesTo, pred, List.length_drop, node.log, List.length_cons]
    omega

/-- A leader of a term with a log, and nobody in the majority in a later term. -/
structure Presides {M : Membership} (Q : M.Majority) (n : NodeId) (term : Nat)
    (log : List LogEntry) (events : List Event) : Prop extends Governs Q n events where
  term : ((M.run events).node n).currentTerm = term
  log : ((M.run events).node n).log = log

/-- A peer in the leader's term that the leader knows to have its log. -/
structure Caught (M : Membership) (n p : NodeId) (events : List Event) : Prop where
  known : ((M.run events).node n).matchIndex p = ((M.run events).node n).lastIndex
  next : ((M.run events).node n).nextIndex p = ((M.run events).node n).lastIndex + 1
  term : ((M.run events).node p).currentTerm = ((M.run events).node n).currentTerm

/-- A leader can send to all peers what it has for them. -/
theorem can_beat (isN : n ∈ Q.nodes) (leads : ((M.run events).node n).role = .leader) :
    CanReach Q (fun later =>
      (∀ p, p ≠ n → (M.run later).node p = (M.run events).node p) ∧
      (∃ elapsed, (M.run later).node n =
        { (M.run events).node n with heartbeatElapsed := elapsed }) ∧
      ∀ p ∈ Q.nodes, p ≠ n →
        ((M.run later).node n).appendEntriesTo p ∈ (M.run later).sent) events := by
  have member := Q.members isN
  refine Can.descend (P := fun later =>
    (∀ p, p ≠ n → (M.run later).node p = (M.run events).node p) ∧
    ∃ elapsed, (M.run later).node n = { (M.run events).node n with heartbeatElapsed := elapsed })
    (fun later => ((M.config n).heartbeatTimeout -
      ((M.run later).node n).heartbeatElapsed).toNat) ?_ ⟨fun _ _ => rfl, _, rfl⟩
  rintro later ⟨others, elapsed, same⟩
  have leads' : ((M.run later).node n).role = .leader := by rw [same]; exact leads
  have config : ((M.run later).node n).config = M.config n := run_config member
  have quiet := M.run_quiet events n
  refine .event (.tick isN) (.here ?_)
  have elsewhere : ∀ p, p ≠ n →
      (M.run (later ++ [.tick n])).node p = (M.run events).node p := by
    intro p other
    rw [Membership.run_tick member, Cluster.update_elsewhere other, others p other]
  rcases Raft.tick_leader leads' with ⟨ticked, early⟩ | ticked
  · rw [config] at early
    refine Or.inr ⟨⟨elsewhere, elapsed + 1, ?_⟩, ?_⟩
    · rw [Membership.run_tick member, Cluster.update_here, ticked, same, ← quiet]
    · rw [Membership.run_tick member, Cluster.update_here, ticked]
      dsimp only
      omega
  · have here : (M.run (later ++ [.tick n])).node n =
        { (M.run events).node n with heartbeatElapsed := 0 } := by
      rw [Membership.run_tick member, Cluster.update_here, ticked, same, ← quiet]
    refine Or.inl ⟨elsewhere, ⟨0, here⟩, fun p isPeer other => ?_⟩
    rw [here, Membership.run_tick member, Cluster.update_sent, ticked]
    refine List.mem_append_right _ (List.mem_append_right _ ?_)
    have isOther : p ∈ ((M.run later).node n).others := by
      rw [Raft.mem_others, config]
      exact ⟨Q.members isPeer, other⟩
    rw [same] at isOther ⊢
    exact List.mem_map_of_mem isOther

/-- The peer answers that it has the log now, or that the entry the message
    starts after is not in its own; the sentinel is in all logs. -/
theorem Governs.answered (h : Governs Q n events) (isN : n ∈ Q.nodes) (isP : p ∈ Q.nodes)
    (other : p ≠ n) (isSent : ((M.run events).node n).appendEntriesTo p ∈ (M.run events).sent) :
    ∃ (r : Raft) (reply : Message),
      M.run (events ++ [.deliver (((M.run events).node n).appendEntriesTo p)]) =
        (M.run events).update p (r.send reply) ∧
      r.currentTerm = ((M.run events).node n).currentTerm ∧ r.outMsgs = [] ∧
      reply.type = .appendEntriesResp ∧ reply.fromNode = p ∧ reply.toNode = n ∧
      reply.term = ((M.run events).node n).currentTerm ∧
      (reply.success = true ∧ reply.matchIndex = ((M.run events).node n).lastIndex ∨
        reply.success = false ∧ 1 < ((M.run events).node n).nextIndex p) := by
  have member := Q.members isN
  have isPeer := Q.members isP
  obtain ⟨r, same, term, config, out, run⟩ := h.heard isN isP other isSent
  obtain ⟨positive, prev, size, contiguous⟩ := h.request isN isP other
  have sender : (((M.run events).node n).appendEntriesTo p).fromNode = n :=
    congrArg Config.id (run_config member)
  have place : r.config.id = p := by rw [config]; rfl
  obtain ⟨s, sim⟩ := run_sim M events
  have log := (sim.node p isPeer).log
  by_cases reject : r.Rejects (((M.run events).node n).appendEntriesTo p)
  · rw [Raft.handleAppendEntries_reject reject] at run
    refine ⟨_, _, run, term, out, rfl, place, sender, term, Or.inr ⟨rfl, ?_⟩⟩
    by_contra first
    have zero : (((M.run events).node n).appendEntriesTo p).prevLogIndex = 0 := by omega
    have prevTerm : (((M.run events).node n).appendEntriesTo p).prevLogTerm =
        ((M.run events).node n).termAt
          (((M.run events).node n).appendEntriesTo p).prevLogIndex := rfl
    rcases same.rejects.mp reject with past | differs
    · omega
    · rw [prevTerm, zero, (sim.node p isPeer).termAt, (sim.node n member).termAt] at differs
      exact differs rfl
  · have nonempty : r.log ≠ [] := by
      rw [same.log, log]
      exact List.cons_ne_nil _ _
    rw [Raft.handleAppendEntries_accept reject nonempty contiguous] at run
    exact ⟨_, _, run, term, out, rfl, place, sender, term, Or.inl ⟨rfl, size⟩⟩

/-- What the leader makes of an answer concerns that peer only. -/
theorem Raft.step_progress {r : Raft} {reply : Message} (role : r.role = .leader)
    (type : reply.type = .appendEntriesResp) (current : reply.term = r.currentTerm)
    (kind : reply.success = true ∧ reply.matchIndex = r.lastIndex ∨
      reply.success = false ∧ 1 < r.nextIndex reply.fromNode) :
    ∃ matchIndex nextIndex commitIndex,
      r.step reply = { r with matchIndex, nextIndex, commitIndex } ∧
      (∀ q, q ≠ reply.fromNode → matchIndex q = r.matchIndex q ∧ nextIndex q = r.nextIndex q) ∧
      (matchIndex reply.fromNode = r.lastIndex ∧ nextIndex reply.fromNode = r.lastIndex + 1 ∨
        nextIndex reply.fromNode < r.nextIndex reply.fromNode) := by
  rcases kind with ⟨success, size⟩ | ⟨failure, more⟩
  · obtain ⟨commitIndex, stepped⟩ := step_accepted role type success current
    refine ⟨_, _, commitIndex, stepped, fun q other => ?_, Or.inl ?_⟩
    · simp [assign, other]
    · simp [assign, size]
  · refine ⟨r.matchIndex, _, r.commitIndex, step_rejected role type failure current more,
      fun q other => ?_, Or.inr ?_⟩
    · simp [assign, other]
    · simp only [assign, if_true]
      omega

/-- After an exchange the peer has the log, or the leader will look further back. -/
theorem can_exchange (isN : n ∈ Q.nodes) (isP : p ∈ Q.nodes) (other : p ≠ n)
    (h : Presides Q n term log events)
    (isSent : ((M.run events).node n).appendEntriesTo p ∈ (M.run events).sent) :
    CanReach Q (fun later =>
      (Presides Q n term log later ∧ ∀ q, q ≠ p → Caught M n q events → Caught M n q later) ∧
      (Caught M n p later ∨
        ((M.run later).node n).nextIndex p < ((M.run events).node n).nextIndex p)) events := by
  have member := Q.members isN
  have isPeer := Q.members isP
  obtain ⟨r, reply, first, reached, out, type, rfl, target, current, kind⟩ :=
    h.toGoverns.answered isN isP other isSent
  refine .event (e := .deliver (((M.run events).node n).appendEntriesTo reply.fromNode))
    (.deliver isP) (.event (e := .deliver reply) (.deliver (target ▸ isN)) ?_)
  have isReply : reply ∈ (M.run (events ++
      [.deliver (((M.run events).node n).appendEntriesTo reply.fromNode)])).sent := by
    rw [first, Cluster.update_sent, Raft.send, out]
    simp
  have second := Membership.run_deliver (M := M) (target ▸ member) isReply
  have quiet := M.run_quiet events n
  obtain ⟨matchIndex, nextIndex, commitIndex, stepped, others, peer⟩ :=
    Raft.step_progress h.leads type current kind
  rw [target, first, Cluster.update_elsewhere (Ne.symm other), stepped] at second
  generalize events ++ [.deliver (((M.run events).node n).appendEntriesTo reply.fromNode)] ++
    [.deliver reply] = later at second
  have here : (M.run later).node n =
      { (M.run events).node n with matchIndex, nextIndex, commitIndex } := by
    rw [second, Cluster.update_here, ← quiet]
  have atPeer : ((M.run later).node reply.fromNode).currentTerm =
      ((M.run events).node n).currentTerm := by
    rw [second, Cluster.update_elsewhere other, Cluster.update_here]
    exact reached
  have elsewhere : ∀ q, q ≠ n → q ≠ reply.fromNode →
      (M.run later).node q = (M.run events).node q := by
    intro q away away'
    rw [second, Cluster.update_elsewhere away, Cluster.update_elsewhere away']
  refine .here ⟨⟨⟨⟨?_, ?_⟩, ?_, ?_⟩, ?_⟩, ?_⟩
  · rw [here]
    exact h.leads
  · intro q isQ away
    by_cases isReplier : q = reply.fromNode
    · rw [isReplier, atPeer, here]
    · rw [elsewhere q away isReplier, here]
      exact h.latest q isQ away
  · rw [here]
    exact h.term
  · rw [here]
    exact h.log
  · intro q away caught
    obtain ⟨sameMatch, sameNext⟩ := others q away
    refine ⟨?_, ?_, ?_⟩
    · rw [here]
      exact sameMatch.trans caught.known
    · rw [here]
      exact sameNext.trans caught.next
    · by_cases isLeader : q = n
      · rw [isLeader]
      · rw [elsewhere q isLeader away, here]
        exact caught.term
  · rcases peer with ⟨known, next⟩ | less
    · refine Or.inl ⟨?_, ?_, ?_⟩
      · rw [here]
        exact known
      · rw [here]
        exact next
      · rw [atPeer, here]
    · rw [here]
      exact Or.inr less

/-! ## Everyone catches up -/

/-- A heartbeat leaves what the leader knows of its peers. -/
theorem Caught.beat {later : List Event} {elapsed : Int} {q : NodeId} (h : Caught M n q events)
    (others : ∀ p, p ≠ n → (M.run later).node p = (M.run events).node p)
    (same : (M.run later).node n = { (M.run events).node n with heartbeatElapsed := elapsed }) :
    Caught M n q later := by
  refine ⟨?_, ?_, ?_⟩
  · rw [same]
    exact h.known
  · rw [same]
    exact h.next
  · by_cases isLeader : q = n
    · rw [isLeader]
    · rw [others q isLeader, same]
      exact h.term

theorem Presides.beat {later : List Event} {elapsed : Int} (h : Presides Q n term log events)
    (others : ∀ p, p ≠ n → (M.run later).node p = (M.run events).node p)
    (same : (M.run later).node n = { (M.run events).node n with heartbeatElapsed := elapsed }) :
    Presides Q n term log later := by
  refine ⟨⟨?_, fun p isPeer other => ?_⟩, ?_, ?_⟩
  · rw [same]
    exact h.leads
  · rw [others p other, same]
    exact h.latest p isPeer other
  · rw [same]
    exact h.term
  · rw [same]
    exact h.log

/-- However far a peer is behind or has diverged, it can get the leader's log. -/
theorem can_catch_up (isN : n ∈ Q.nodes) (isPeer : p ∈ Q.nodes) (other : p ≠ n)
    (h : Presides Q n term log events) :
    CanReach Q (fun later => Presides Q n term log later ∧ Caught M n p later ∧
      ∀ q, Caught M n q events → Caught M n q later) events := by
  refine Can.descend (P := fun later => Presides Q n term log later ∧
    ∀ q, q ≠ p → Caught M n q events → Caught M n q later)
    (fun later => ((M.run later).node n).nextIndex p) ?_ ⟨h, fun _ _ caught => caught⟩
  rintro later ⟨presides, kept⟩
  refine (can_beat isN presides.leads).bind fun beaten ⟨others, ⟨elapsed, same⟩, isSent⟩ => ?_
  refine (can_exchange isN isPeer other (presides.beat others same)
    (isSent p isPeer other)).mono fun last ⟨⟨presides', kept'⟩, answered⟩ => ?_
  have keeps : ∀ q, q ≠ p → Caught M n q events → Caught M n q last :=
    fun q away caught => kept' q away ((kept q away caught).beat others same)
  rcases answered with caught | less
  · refine Or.inl ⟨presides', caught, fun q caught' => ?_⟩
    by_cases here : q = p
    · exact here ▸ caught
    · exact keeps q here caught'
  · rw [same] at less
    exact Or.inr ⟨⟨presides', keeps⟩, less⟩

theorem can_catch_up_all (isN : n ∈ Q.nodes) (h : Presides Q n term log events) :
    CanReach Q (fun later => Presides Q n term log later ∧
      ∀ p ∈ Q.nodes.filter (· ≠ n), Caught M n p later) events := by
  refine Can.each _ (Caught M n) (fun p isOther later presides => ?_) h
  obtain ⟨isPeer, other⟩ := List.mem_filter.mp isOther
  exact can_catch_up isN isPeer (by simpa using other) presides

/-! ## Everyone commits -/

/-- A leader that knows everyone to have its log has committed its own entries. -/
theorem Presides.commits (h : Presides Q n term log events) (isN : n ∈ Q.nodes)
    (caught : ∀ p ∈ Q.nodes.filter (· ≠ n), Caught M n p events)
    (own : ((M.run events).node n).termAt ((M.run events).node n).lastIndex = term) :
    ((M.run events).node n).lastIndex ≤ ((M.run events).node n).commitIndex := by
  have member := Q.members isN
  by_contra behind
  have nothing := nothing_due M events events.length n member
  rw [Membership.moment, List.take_length] at nothing
  refine nothing h.leads ((M.run events).node n).lastIndex
    ⟨by omega, le_rfl, own.trans h.term.symm, ?_⟩
  have all : Q.nodes ⊆ n :: ((M.run events).node n).holders ((M.run events).node n).lastIndex := by
    intro p isP
    by_cases here : p = n
    · simp [here]
    · have known := (caught p (by simp [isP, here])).known
      refine List.mem_cons_of_mem _ (List.mem_filter.mpr ⟨?_, by simpa using known.ge⟩)
      rw [Raft.mem_others, run_config member]
      exact ⟨Q.members isP, here⟩
  have many := (Q.distinct.subperm all).length_le
  rw [List.length_cons] at many
  have enough := Q.enough
  rw [run_quorumSize member]
  omega

/-- A leader that has committed its log, with heartbeats that say so on the way
    to everyone. -/
structure Announced {M : Membership} (Q : M.Majority) (n : NodeId) (term : Nat)
    (log : List LogEntry) (events : List Event) : Prop extends Presides Q n term log events where
  committed : ((M.run events).node n).lastIndex ≤ ((M.run events).node n).commitIndex
  caught : ∀ p ∈ Q.nodes, p ≠ n → Caught M n p events
  isSent : ∀ p ∈ Q.nodes, p ≠ n →
    ((M.run events).node n).appendEntriesTo p ∈ (M.run events).sent

/-- A peer that has the log and hears of the commitment commits it too. -/
theorem Announced.learns (h : Announced Q n term log events) (isN : n ∈ Q.nodes)
    (isP : p ∈ Q.nodes) (other : p ≠ n) (some : 1 ≤ ((M.run events).node n).lastIndex) :
    ∃ r : Raft, M.run (events ++ [.deliver (((M.run events).node n).appendEntriesTo p)]) =
        (M.run events).update p r ∧
      r.currentTerm = ((M.run events).node n).currentTerm ∧
      ((M.run events).node n).lastIndex ≤ r.commitIndex := by
  have member := Q.members isN
  have isPeer := Q.members isP
  obtain ⟨r, same, term, -, -, run⟩ := h.toGoverns.heard isN isP other (h.isSent p isP other)
  obtain ⟨positive, prev, size, contiguous⟩ := h.toGoverns.request isN isP other
  obtain ⟨s, sim⟩ := run_sim M events
  have caught := h.caught p isP other
  -- the peer has the last entry of the leader, after which the message starts
  obtain ⟨e, atPeer, atLeader⟩ := sim.match_agrees member isPeer other h.leads caught.term some
    caught.known.ge
  have next := caught.next
  have last : (((M.run events).node n).appendEntriesTo p).prevLogIndex =
      ((M.run events).node n).lastIndex := by omega
  have prevTerm : (((M.run events).node n).appendEntriesTo p).prevLogTerm =
      ((M.run events).node n).termAt
        (((M.run events).node n).appendEntriesTo p).prevLogIndex := rfl
  have empty : (((M.run events).node n).appendEntriesTo p).entries = [] :=
    List.eq_nil_of_length_eq_zero (by omega)
  have long : ((M.run events).node n).lastIndex < ((M.run events).node p).log.length :=
    (List.getElem?_eq_some_iff.mp atPeer).1
  have accept : ¬ r.Rejects (((M.run events).node n).appendEntriesTo p) := by
    rw [same.rejects]
    rintro (past | differs)
    · have short : ((M.run events).node p).log.length - 1 <
          (((M.run events).node n).appendEntriesTo p).prevLogIndex := past
      omega
    · rw [prevTerm, last, Raft.termAt_inside atPeer, Raft.termAt_inside atLeader] at differs
      exact differs rfl
  have nonempty : r.log ≠ [] := by
    rw [same.log]
    exact List.length_pos_iff.mp (by omega)
  have committed := h.committed
  rw [Raft.handleAppendEntries_accept accept nonempty contiguous] at run
  refine ⟨_, run, term, ?_⟩
  have heard : (((M.run events).node n).appendEntriesTo p).leaderCommit =
      ((M.run events).node n).commitIndex := rfl
  simp only [Raft.send, Raft.learnedCommit, empty, splice, firstConflict, List.drop_nil,
    List.append_nil, same.log, heard]
  split <;> omega

/-- Everyone can learn that the leader has committed its log. -/
theorem can_announce (isN : n ∈ Q.nodes) (h : Announced Q n term log events)
    (some : 1 ≤ ((M.run events).node n).lastIndex) :
    CanReach Q (fun later => Announced Q n term log later ∧
      ∀ p ∈ Q.nodes.filter (· ≠ n), log.length - 1 ≤ ((M.run later).node p).commitIndex) events := by
  refine Can.each _ (fun p later => log.length - 1 ≤ ((M.run later).node p).commitIndex)
    (fun p isOther later announced => ?_) h
  obtain ⟨isPeer, other⟩ := List.mem_filter.mp isOther
  have other : p ≠ n := by simpa using other
  have size : ((M.run later).node n).lastIndex = log.length - 1 := by
    rw [Raft.lastIndex, announced.log]
  have size' : ((M.run events).node n).lastIndex = log.length - 1 := by
    rw [Raft.lastIndex, h.log]
  obtain ⟨r, run, reached, learned⟩ := announced.learns isN isPeer other (by omega)
  refine .event (e := .deliver (((M.run later).node n).appendEntriesTo p)) (.deliver isPeer) ?_
  generalize later ++ [.deliver (((M.run later).node n).appendEntriesTo p)] = last at run
  have leader : (M.run last).node n = (M.run later).node n := by
    rw [run, Cluster.update_elsewhere (Ne.symm other)]
  have here : (M.run last).node p = { r with outMsgs := [] } := by
    rw [run, Cluster.update_here]
  have elsewhere : ∀ q, q ≠ p → (M.run last).node q = (M.run later).node q := by
    intro q away
    rw [run, Cluster.update_elsewhere away]
  have terms : ∀ q ∈ Q.nodes, q ≠ n → ((M.run last).node q).currentTerm =
      ((M.run later).node n).currentTerm := by
    intro q isQ away
    by_cases isP : q = p
    · rw [isP, here]
      exact reached
    · rw [elsewhere q isP]
      exact (announced.caught q isQ away).term
  refine .here ⟨⟨⟨⟨?_, fun q isQ away => ?_⟩, ?_, ?_⟩, ?_, fun q isQ away => ⟨?_, ?_, ?_⟩,
    fun q isQ away => ?_⟩, ?_, fun q done => ?_⟩
  · rw [leader]
    exact announced.leads
  · rw [leader]
    exact (terms q isQ away).le
  · rw [leader]
    exact announced.term
  · rw [leader]
    exact announced.log
  · rw [leader]
    exact announced.committed
  · rw [leader]
    exact (announced.caught q isQ away).known
  · rw [leader]
    exact (announced.caught q isQ away).next
  · rw [leader]
    exact terms q isQ away
  · rw [leader, run, Cluster.update_sent]
    exact List.mem_append_left _ (announced.isSent q isQ away)
  · rw [here]
    exact size ▸ learned
  · by_cases isP : q = p
    · rw [isP, here]
      exact size ▸ learned
    · rwa [elsewhere q isP]

/-- Everyone can hand out what it has committed. -/
theorem can_take {i : Nat} {e : LogEntry}
    (held : ∀ p ∈ Q.nodes, i ≤ ((M.run events).node p).commitIndex ∧
      ((M.run events).node p).log[i]? = some e) :
    CanReach Q (fun later =>
      (∀ p ∈ Q.nodes, i ≤ ((M.run later).node p).commitIndex ∧
        ((M.run later).node p).log[i]? = some e) ∧
      ∀ p ∈ Q.nodes, i ≤ ((M.run later).node p).lastApplied) events := by
  refine Can.each _ (fun p later => i ≤ ((M.run later).node p).lastApplied)
    (fun p isPeer later held => ?_) held
  have run := M.run_concat later (.takeCommitted p)
  rw [Membership.step, if_pos (show Event.at (.takeCommitted p) ∈ M.peers from Q.members isPeer)] at run
  have here : (M.run (later ++ [.takeCommitted p])).node p =
      { (M.run later).node p with lastApplied := ((M.run later).node p).commitIndex } := by
    rw [run]
    simp [Cluster.next, Raft.takeCommitted]
  have elsewhere : ∀ q, q ≠ p →
      (M.run (later ++ [.takeCommitted p])).node q = (M.run later).node q := by
    intro q away
    rw [run]
    simp [Cluster.next, away]
  refine .event (.takeCommitted isPeer) (.here ⟨fun q isQ => ?_, ?_, fun q taken => ?_⟩)
  · by_cases isP : q = p
    · rw [isP, here]
      exact held p isPeer
    · rw [elsewhere q isP]
      exact held q isQ
  · rw [here]
    exact (held p isPeer).1
  · by_cases isP : q = p
    · rw [isP, here]
      exact (held p isPeer).1
    · rwa [elsewhere q isP]

/-! ## A new proposal -/

/-- What is decided was stored by some member of the majority, so that a leader
    with no later term there has it. -/
theorem Governs.decides {s : History} {bound : Nat} {entries : List LogEntry} (h : Governs Q n events)
    (isN : n ∈ Q.nodes) (sim : ClusterSim M (M.run events) s)
    (decided : M.protocol.Decided s bound entries) : entries <+: s.log n := by
  have member := Q.members isN
  have leading := (sim.node n member).leader h.leads
  have quorum : M.protocol.IsQuorum {q | q ∈ Q.nodes} := by
    have enough := Q.enough
    exact ⟨Q.nodes, Q.distinct, Q.members, fun _ inside => inside, by omega⟩
  have reached : M.protocol.Decided s (s.term n) entries := by
    rcases decided with none | ⟨u, chosen, isChosen, -, inside⟩
    · exact Or.inl none
    · obtain ⟨q, isQ, stored⟩ := M.protocol.meet quorum isChosen.stored
      have some := isChosen.length_pos
      have early : u ≤ s.term q := sim.inv.ackedReached q u
        (Nat.ne_of_gt (some.trans_le stored))
      refine Or.inr ⟨u, chosen, isChosen, ?_, inside⟩
      by_cases isLeader : q = n
      · exact isLeader ▸ early
      · have latest := h.latest q isQ isLeader
        rw [(sim.node q (Q.members isQ)).term, (sim.node n member).term] at latest
        exact early.trans latest
  rw [leading.same]
  exact Protocol.Decided.inLedger sim.inv (by rw [leading.leads]; simp) reached

/-- What any member had committed before lies inside the log of the leader. -/
theorem Governs.covers {more : List Event} (h : Governs Q n (events ++ more)) (isN : n ∈ Q.nodes)
    (isPeer : p ∈ M.peers) :
    ((M.run events).node p).commitIndex ≤ ((M.run (events ++ more)).node n).lastIndex := by
  obtain ⟨s, early⟩ := run_sim M events
  obtain ⟨s', ext, -, late⟩ := early.run more
  have later : more.foldl M.step (M.run events) = M.run (events ++ more) := by
    rw [Membership.run, Membership.run, List.foldl_append]
  rw [later] at late
  have inside := h.decides isN late ((early.inv.commitDecided p).mono ext le_rfl)
  have length := inside.length_le
  rw [List.length_take, Nat.min_eq_left (early.inv.commitHeld p)] at length
  rw [(early.node p isPeer).commit, (late.node n (Q.members isN)).lastIndex]
  exact length

/-- A leader takes a proposal and presides over the log that ends in it. -/
theorem Governs.proposes (h : Governs Q n events) (isN : n ∈ Q.nodes) (data : Bytes) :
    Presides Q n ((M.run events).node n).currentTerm
      (((M.run events).node n).log ++ [{ term := ((M.run events).node n).currentTerm
                                         index := ((M.run events).node n).lastIndex + 1
                                         data }])
      (events ++ [.propose n data]) := by
  have member := Q.members isN
  have here : (M.run (events ++ [.propose n data])).node n =
      { (((M.run events).node n).propose data).2 with outMsgs := [] } := by
    rw [Membership.run_propose member, Cluster.update_here]
  rw [Raft.propose, if_neg (by simp [h.leads])] at here
  dsimp only at here
  rw [Raft.maybeCommit_eq] at here
  refine ⟨⟨?_, fun p isPeer other => ?_⟩, ?_, ?_⟩
  · rw [here]
    exact h.leads
  · rw [Membership.run_propose member, Cluster.update_elsewhere other,
      ← Membership.run_propose member, here]
    exact h.latest p isPeer other
  · rw [here]
  · rw [here]

/-- A leader whose log ends in an entry of its own term can bring that entry to
    the majority and have it committed there. -/
theorem can_commit (i : Nat) (entry : LogEntry) (isN : n ∈ Q.nodes)
    (presides : Presides Q n term log events) (positive : 1 ≤ i) (size : log.length - 1 = i)
    (atEnd : log[i]? = some entry) (own : entry.term = term) :
    CanReach Q (fun later => ∀ p ∈ Q.nodes,
      i ≤ ((M.run later).node p).commitIndex ∧ ((M.run later).node p).log[i]? = some entry)
      events := by
  have member := Q.members isN
  refine (can_catch_up_all isN presides).bind ?_
  rintro caughtUp ⟨presides, caught⟩
  have last : ((M.run caughtUp).node n).lastIndex = i := by
    rw [Raft.lastIndex, presides.log, size]
  have ownLast : ((M.run caughtUp).node n).termAt ((M.run caughtUp).node n).lastIndex = term := by
    rw [last, Raft.termAt_inside (by rw [presides.log]; exact atEnd), own]
  have committed := presides.commits isN caught ownLast
  refine (can_beat isN presides.leads).bind ?_
  rintro beaten ⟨others, ⟨elapsed, same⟩, isSent⟩
  have announced : Announced Q n term log beaten :=
    { presides.beat others same with
      committed := by
        rw [same]
        exact committed
      caught := fun p isPeer other => (caught p (by simp [isPeer, other])).beat others same
      isSent }
  have last' : ((M.run beaten).node n).lastIndex = i := by
    rw [Raft.lastIndex, announced.log, size]
  refine (can_announce isN announced (by omega)).mono ?_
  rintro later ⟨announced, known⟩
  have leaderCommit : i ≤ ((M.run later).node n).commitIndex := by
    have committed := announced.committed
    rwa [Raft.lastIndex, announced.log, size] at committed
  intro p isPeer
  have commit : i ≤ ((M.run later).node p).commitIndex := by
    by_cases isLeader : p = n
    · exact isLeader ▸ leaderCommit
    · exact size ▸ known p (by simp [isPeer, isLeader])
  obtain ⟨s, sim⟩ := run_sim M later
  obtain ⟨e, atLeader, atPeer⟩ := committed_agree sim sim (Protocol.Extends.refl s) member
    (Q.members isPeer) positive leaderCommit commit
  rw [announced.log, atEnd] at atLeader
  exact ⟨commit, atPeer.trans atLeader.symm⟩

/-- From every state that a run reaches, ticks and deliveries at any majority can
    elect a leader there that commits a new proposal, the entry behind its log, on
    the whole majority, above all that was committed anywhere, and each state
    machine gets it. Nothing else is proposed, no node has to restart, and the
    other members may be down. -/
theorem proposal_can_commit (M : Membership) (Q : M.Majority) (events : List Event) (data : Bytes) :
    ∃ before after, (∀ e ∈ before ++ after, e.Lively Q.nodes) ∧ ∃ n ∈ Q.nodes,
      ((M.run (events ++ before)).node n).role = .leader ∧
      ∃ i entry, i = ((M.run (events ++ before)).node n).lastIndex + 1 ∧
        entry = { term := ((M.run (events ++ before)).node n).currentTerm, index := i, data } ∧
        (∀ p ∈ M.peers, ((M.run events).node p).commitIndex < i) ∧
        ∀ p ∈ Q.nodes,
          i ≤ ((M.run (events ++ before ++ [.propose n data] ++ after)).node p).commitIndex ∧
          ((M.run (events ++ before ++ [.propose n data] ++ after)).node p).log[i]? = some entry ∧
          ((M.run (events ++ before ++ [.propose n data] ++ after)).taken p)[i - 1]? =
            some entry := by
  obtain ⟨before, lively, n, isN, governs⟩ := can_elect Q events
  obtain ⟨entry, isEntry⟩ : ∃ entry : LogEntry, entry =
      { term := ((M.run (events ++ before)).node n).currentTerm
        index := ((M.run (events ++ before)).node n).lastIndex + 1
        data } := ⟨_, rfl⟩
  have presides := governs.proposes isN data
  rw [← isEntry] at presides
  obtain ⟨s, sim⟩ := run_sim M (events ++ before)
  have nonempty : 0 < ((M.run (events ++ before)).node n).log.length := by
    rw [(sim.node n (Q.members isN)).log]
    exact Nat.succ_pos _
  obtain ⟨i, isLast⟩ : ∃ i, i = ((M.run (events ++ before)).node n).log.length := ⟨_, rfl⟩
  have agreed := can_commit i entry isN presides (by omega)
    (by rw [List.length_append, isLast]; rfl)
    (by rw [isLast, List.getElem?_concat_length]) (by rw [isEntry])
  obtain ⟨after, lively', held, taken⟩ := agreed.bind fun later held => can_take held
  have next : i = ((M.run (events ++ before)).node n).lastIndex + 1 := by
    rw [isLast, Raft.lastIndex]
    omega
  refine ⟨before, after, ?_, n, isN, governs.leads, i, entry, next, ?_, ?_, ?_⟩
  · exact fun e isE => (List.mem_append.mp isE).elim (lively e) (lively' e)
  · rw [isEntry, next]
  · intro p isPeer
    have covers := governs.covers isN isPeer
    rw [Raft.lastIndex] at covers
    omega
  · intro p isP
    have isPeer := Q.members isP
    obtain ⟨s', sim'⟩ := run_sim M (events ++ before ++ [.propose n data] ++ after)
    obtain ⟨commit, found⟩ := held p isP
    refine ⟨commit, found, ?_⟩
    have applied := taken p isP
    rw [sim'.taken p isPeer, List.getElem?_take_of_lt (by omega),
      ← (sim'.node p isPeer).get (by omega)]
    exact found

/-- Two of the three nodes. -/
def withoutFirst : threeNodes.Majority where
  nodes := [2, 3]
  members := by decide
  distinct := by decide
  enough := by decide

theorem proposal_can_commit_withoutFirst :
    ∃ before after, (∀ e ∈ before ++ after, e.Lively [2, 3]) ∧ ∃ n ∈ [2, 3],
      ((threeNodes.run (twoTerms ++ before)).node n).role = .leader ∧
      ∃ i entry, i = ((threeNodes.run (twoTerms ++ before)).node n).lastIndex + 1 ∧
        entry = { term := ((threeNodes.run (twoTerms ++ before)).node n).currentTerm
                  index := i
                  data := [9] } ∧
        (∀ p ∈ threeNodes.peers, ((threeNodes.run twoTerms).node p).commitIndex < i) ∧
        ∀ p ∈ [2, 3],
          i ≤ ((threeNodes.run (twoTerms ++ before ++ [.propose n [9]] ++ after)).node p).commitIndex ∧
          ((threeNodes.run (twoTerms ++ before ++ [.propose n [9]] ++ after)).node p).log[i]? =
            some entry ∧
          ((threeNodes.run (twoTerms ++ before ++ [.propose n [9]] ++ after)).taken p)[i - 1]? =
            some entry :=
  proposal_can_commit threeNodes withoutFirst twoTerms [9]

end MiniLsm
