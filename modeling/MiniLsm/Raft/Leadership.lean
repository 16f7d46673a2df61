import MiniLsm.Raft.Cluster
import MiniLsm.Raft.Loops

/-! # What a step can do to a leader

A node that leads after an operation was elected by it, or led before and
proposed, took an answer, or kept all that replication reads. AppendEntries are
queued by leaders only, from the state they are left in.
-/

namespace MiniLsm

namespace Raft

variable {r r' : Raft} {msg : Message}

/-! ## The commit rule -/

/-- An index above `commit` that the leader may commit: an entry of its term that
    `QuorumSize() - 1` other peers are known to hold. -/
structure Due (r : Raft) (commit n : Nat) : Prop where
  above : commit < n
  inside : n ≤ r.lastIndex
  current : r.termAt n = r.currentTerm
  held : r.quorumSize - 1 ≤ (r.holders n).length

theorem due_iff {n : Nat} : r.Due r.commitIndex n ↔ r.Committable n := by
  have positive : 0 < r.quorumSize := Nat.succ_pos _
  constructor
  · intro due
    refine ⟨due.above, due.inside, due.current, ?_⟩
    have := due.held
    rw [replicas_eq]
    omega
  · intro rule
    refine ⟨rule.above, rule.inside, rule.current, ?_⟩
    have := rule.counted
    rw [replicas_eq] at this
    omega

/-- The commit index is the greatest index that was due, or there was none. -/
def Exact (r : Raft) (commit : Nat) : Prop :=
  (r.commitIndex = commit ∧ ∀ n, ¬ r.Due commit n) ∨
    (r.Due commit r.commitIndex ∧ ∀ n, r.Due commit n → n ≤ r.commitIndex)

/-- After the search nothing is due. -/
theorem Exact.nothing {commit : Nat} (h : r.Exact commit) (n : Nat) : ¬ r.Due r.commitIndex n := by
  rcases h with ⟨same, none⟩ | ⟨found, greatest⟩
  · rw [same]
    exact none n
  · intro due
    have := greatest n ⟨found.above.trans due.above, due.inside, due.current, due.held⟩
    have := due.above
    omega

theorem maybeCommit_exact (r : Raft) : r.maybeCommit.Exact r.commitIndex := by
  rcases r.maybeCommit_cases with ⟨same, none⟩ | ⟨n, found, greatest, same⟩
  · refine Or.inl ⟨by rw [same], fun k due => none k ?_⟩
    rw [same] at due
    exact due_iff.mp due
  · -- what is due does not depend on where the search leaves the commit index
    have unmoved {k : Nat} : ({ r with commitIndex := n } : Raft).Due r.commitIndex k ↔
        r.Due r.commitIndex k :=
      ⟨fun h => ⟨h.above, h.inside, h.current, h.held⟩,
        fun h => ⟨h.above, h.inside, h.current, h.held⟩⟩
    rw [same]
    exact Or.inr ⟨unmoved.mpr (due_iff.mpr found),
      fun k due => greatest k (due_iff.mp (unmoved.mp due))⟩

/-- The commit search moves nothing else. -/
theorem maybeCommit_eq (r : Raft) :
    r.maybeCommit = { r with commitIndex := r.maybeCommit.commitIndex } := by
  rcases r.maybeCommit_cases with ⟨same, -⟩ | ⟨n, -, -, same⟩ <;> rw [same]

/-! ## Steps -/

/-- The acknowledgement that a message makes a leader take. -/
def ackOf (r : Raft) (msg : Message) : Option (NodeId × Nat) :=
  if r.role = .leader ∧ msg.type = .appendEntriesResp ∧ msg.term = r.currentTerm ∧ msg.success then
    some (msg.fromNode, msg.matchIndex)
  else none

/-- `match_index_` after an acknowledgement. -/
def acknowledged (matchIndex : NodeId → Nat) : Option (NodeId × Nat) → NodeId → Nat
  | none => matchIndex
  | some (peer, index) => assign matchIndex peer index

/-- An operation that leaves a leader, and the acknowledgement it takes. -/
inductive LeaderStep (r : Raft) (ack : Option (NodeId × Nat)) (r' : Raft) : Prop where
  | elected (before : r.role ≠ .leader) (noAck : ack = none) (log : r'.log = r.log)
      (commit : r'.commitIndex = r.commitIndex) (none : ∀ p, r'.matchIndex p = 0)
      (term : (r.role = .candidate ∧ r'.currentTerm = r.currentTerm) ∨
        r'.currentTerm = r.currentTerm + 1)
  | kept (before : r.role = .leader) (noAck : ack = none) (config : r'.config = r.config)
      (term : r'.currentTerm = r.currentTerm) (log : r'.log = r.log)
      (commit : r'.commitIndex = r.commitIndex) (matched : r'.matchIndex = r.matchIndex)
  | searched (before : r.role = .leader) (term : r'.currentTerm = r.currentTerm)
      (matched : r'.matchIndex = acknowledged r.matchIndex ack) (exact : r'.Exact r.commitIndex)

/-- The queue of a node does not matter. -/
theorem LeaderStep.takeMessages {ack : Option (NodeId × Nat)} (h : LeaderStep r ack r') :
    LeaderStep r ack r'.takeMessages.2 := by
  cases h with
  | elected before noAck log commit none term => exact .elected before noAck log commit none term
  | kept before noAck config term log commit matched =>
      exact .kept before noAck config term log commit matched
  | searched before term matched exact =>
      refine .searched before term matched ?_
      rcases exact with ⟨same, none⟩ | ⟨found, greatest⟩
      · exact Or.inl ⟨same, fun n due =>
          none n ⟨due.above, due.inside, due.current, due.held⟩⟩
      · exact Or.inr ⟨⟨found.above, found.inside, found.current, found.held⟩, fun n due =>
          greatest n ⟨due.above, due.inside, due.current, due.held⟩⟩

theorem becomeLeader_eq (r : Raft) : ∃ nextIndex outMsgs, r.becomeLeader = { r with
    role := .leader
    leader := r.config.id
    heartbeatElapsed := 0
    nextIndex
    matchIndex := fun _ => 0
    outMsgs } := by
  rw [becomeLeader, resetProgress_eq, broadcastAppendEntries_eq]
  exact ⟨_, _, rfl⟩

theorem tick_leaderStep (leads : r.tick.role = .leader) : LeaderStep r none r.tick := by
  by_cases role : r.role = .leader
  · rw [tick, if_pos role]
    dsimp only
    split
    · rw [broadcastAppendEntries_eq]
      exact .kept role rfl rfl rfl rfl rfl rfl
    · exact .kept role rfl rfl rfl rfl rfl rfl
  · rw [tick, if_neg role] at leads ⊢
    dsimp only at leads ⊢
    split
    · rw [if_pos ‹_›, becomeCandidate] at leads
      rw [becomeCandidate]
      dsimp only at leads ⊢
      split
      · obtain ⟨_, _, elected⟩ := becomeLeader_eq { r with
          currentTerm := r.currentTerm + 1
          votedFor := r.config.id
          hardStateDirty := true
          role := .candidate
          leader := 0
          electionElapsed := 0
          votesGranted := [r.config.id] }
        rw [elected]
        exact .elected role rfl rfl rfl (fun _ => rfl) (Or.inr rfl)
      · rw [if_neg ‹_›, requestVotes_eq] at leads
        cases leads
    · rw [if_neg ‹_›] at leads
      exact absurd leads role

theorem propose_leaderStep (data : Bytes) (leads : (r.propose data).2.role = .leader) :
    LeaderStep r none (r.propose data).2 := by
  rw [propose] at leads ⊢
  split
  · rw [if_pos ‹_›] at leads
    exact .kept leads rfl rfl rfl rfl rfl rfl
  · rename_i role
    dsimp only
    refine .searched (not_not.mp role) ?_ ?_ (maybeCommit_exact _)
    · rw [maybeCommit_eq]
    · rw [maybeCommit_eq]
      rfl

theorem handleAppendEntriesResp_leaderStep (leads : r.role = .leader)
    (type : msg.type = .appendEntriesResp) (term : msg.term = r.currentTerm) :
    LeaderStep r (r.ackOf msg) (r.handleAppendEntriesResp msg) := by
  rw [handleAppendEntriesResp]
  by_cases success : msg.success = true
  · have ack : r.ackOf msg = some (msg.fromNode, msg.matchIndex) := by
      simp [ackOf, leads, type, term, success]
    rw [if_pos success, ack]
    refine .searched leads ?_ ?_ (maybeCommit_exact _)
    · rw [maybeCommit_eq]
    · rw [maybeCommit_eq]
      rfl
  · have ack : r.ackOf msg = none := by simp [ackOf, success]
    rw [if_neg success, ack]
    split
    · exact .kept leads rfl rfl rfl rfl rfl rfl
    · exact .kept leads rfl rfl rfl rfl rfl rfl

theorem handleRequestVote_kept (leads : r.role = .leader) :
    LeaderStep r none (r.handleRequestVote msg) := by
  simp only [handleRequestVote, send]
  split
  · exact .kept leads rfl rfl rfl rfl rfl rfl
  · exact .kept leads rfl rfl rfl rfl rfl rfl

/-- The entry loop touches the log and the watermark only. -/
theorem appendLoop_shape (entries : List LogEntry) (r : Raft) :
    ∃ log stableIndex, entries.foldl appendEntry r = { r with log, stableIndex } := by
  induction entries generalizing r with
  | nil => exact ⟨_, _, rfl⟩
  | cons e es ih =>
      obtain ⟨log, stableIndex, same⟩ := ih (r.appendEntry e)
      rw [List.foldl_cons, same, appendEntry]
      split
      · split <;> exact ⟨_, _, rfl⟩
      · exact ⟨_, _, rfl⟩

/-- Whatever it carries, an AppendEntries resets the election timer and is
    answered. -/
theorem handleAppendEntries_shape (r : Raft) (msg : Message) :
    ∃ log stableIndex commitIndex success matchIndex, r.handleAppendEntries msg = { r with
      leader := msg.fromNode
      electionElapsed := 0
      log
      stableIndex
      commitIndex
      outMsgs := r.outMsgs ++ [r.appendReply msg success matchIndex] } := by
  rw [handleAppendEntries]
  dsimp only
  split
  · exact ⟨_, _, _, false, 0, rfl⟩
  · obtain ⟨log, stableIndex, loop⟩ := appendLoop_shape msg.entries
      { r with leader := msg.fromNode, electionElapsed := 0 }
    rw [loop]
    split <;> exact ⟨_, _, _, true, _, rfl⟩

theorem handleRequestVote_role (r : Raft) (msg : Message) :
    (r.handleRequestVote msg).role = r.role := by
  simp only [handleRequestVote, send]
  split <;> rfl

theorem stepFollower_role (r : Raft) (msg : Message) : (r.stepFollower msg).role = r.role := by
  rw [stepFollower]
  cases msg.type with
  | requestVote => exact handleRequestVote_role r msg
  | appendEntries =>
      obtain ⟨_, _, _, _, _, same⟩ := handleAppendEntries_shape r msg
      simp only
      rw [same]
  | requestVoteResp | appendEntriesResp => rfl

theorem stepCandidate_leaderStep (role : r.role = .candidate)
    (leads : (r.stepCandidate msg).role = .leader) : LeaderStep r none (r.stepCandidate msg) := by
  have notLeader : r.role ≠ .leader := by simp [role]
  rw [stepCandidate] at leads ⊢
  cases type : msg.type with
  | requestVote =>
      simp only [type] at leads
      rw [handleRequestVote_role] at leads
      exact absurd leads notLeader
  | appendEntries =>
      simp only [type] at leads
      obtain ⟨_, _, _, _, _, same⟩ :=
        handleAppendEntries_shape (r.becomeFollower msg.term msg.fromNode) msg
      rw [same] at leads
      cases leads
  | appendEntriesResp =>
      simp only [type] at leads
      exact absurd leads notLeader
  | requestVoteResp =>
      simp only [type] at leads ⊢
      -- only a vote that completes a majority elects
      obtain ⟨votesGranted, counted⟩ : ∃ votesGranted,
          (if msg.fromNode ∈ r.votesGranted then r
            else { r with votesGranted := r.votesGranted ++ [msg.fromNode] }) =
          { r with votesGranted } := by
        split <;> exact ⟨_, rfl⟩
      rw [counted] at leads ⊢
      by_cases won : msg.voteGranted = true ∧
          Raft.quorumSize { r with votesGranted } ≤ votesGranted.length
      · rw [if_pos won.1, if_pos won.2]
        obtain ⟨_, _, elected⟩ := becomeLeader_eq { r with votesGranted }
        rw [elected]
        exact .elected notLeader rfl rfl rfl (fun _ => rfl) (Or.inl ⟨role, rfl⟩)
      · exfalso
        split at leads
        · rw [if_neg fun enough => won ⟨‹_›, enough⟩] at leads
          exact notLeader leads
        · exact notLeader leads

theorem step_leaderStep (leads : (r.step msg).role = .leader) :
    LeaderStep r (r.ackOf msg) (r.step msg) := by
  rw [step] at leads ⊢
  split at leads
  · -- a later term makes a follower, which a message does not change
    exfalso
    have role : (r.becomeFollower msg.term
        (if msg.type = .appendEntries then msg.fromNode else 0)).role = .follower := rfl
    rw [stepRole] at leads
    simp only [role] at leads
    rw [stepFollower_role, role] at leads
    cases leads
  · rename_i notLater
    rw [if_neg notLater]
    split at leads
    · rename_i older
      have role : r.role = .leader := by
        rw [rejectStale] at leads
        cases type : msg.type <;> simpa [type, send] using leads
      have ack : r.ackOf msg = none := by
        rw [ackOf, if_neg]
        rintro ⟨-, -, term, -⟩
        omega
      rw [if_pos older, ack, rejectStale]
      cases msg.type <;> exact .kept role rfl rfl rfl rfl rfl rfl
    · rename_i notOlder
      rw [if_neg notOlder]
      rw [stepRole] at leads ⊢
      cases role : r.role with
      | follower =>
          simp only [role] at leads
          rw [stepFollower_role, role] at leads
          cases leads
      | candidate =>
          simp only [role] at leads ⊢
          have ack : r.ackOf msg = none := by simp [ackOf, role]
          rw [ack]
          exact stepCandidate_leaderStep role leads
      | leader =>
          simp only [stepLeader]
          cases type : msg.type with
          | requestVote =>
              have ack : r.ackOf msg = none := by simp [ackOf, type]
              rw [ack]
              exact handleRequestVote_kept role
          | appendEntriesResp =>
              exact handleAppendEntriesResp_leaderStep role type (by omega)
          | requestVoteResp | appendEntries =>
              have ack : r.ackOf msg = none := by simp [ackOf, type]
              rw [ack]
              exact .kept role rfl rfl rfl rfl rfl rfl

/-! ## AppendEntries that are queued -/

/-- An operation queues AppendEntries only as a leader, and as its state after
    the operation says. -/
def Emits (r r' : Raft) : Prop :=
  ∀ m ∈ r'.outMsgs, m ∈ r.outMsgs ∨ m.type ≠ .appendEntries ∨
    (r'.role = .leader ∧ ∃ p ∈ r'.others, m = r'.appendEntriesTo p)

namespace Emits

theorem of_same (same : r'.outMsgs = r.outMsgs) : r.Emits r' :=
  fun _ member => Or.inl (same ▸ member)

theorem of_send {m : Message} (queue : r'.outMsgs = r.outMsgs ++ [m])
    (other : m.type ≠ .appendEntries) : r.Emits r' := by
  intro m' member
  rw [queue] at member
  rcases List.mem_append.mp member with old | new
  · exact Or.inl old
  · rw [List.mem_singleton.mp new]
    exact Or.inr (Or.inl other)

theorem broadcast (leads : r'.role = .leader) (queue : r'.outMsgs = r.outMsgs) :
    r.Emits r'.broadcastAppendEntries := by
  rw [broadcastAppendEntries_eq]
  intro m member
  rcases List.mem_append.mp member with old | new
  · exact Or.inl (queue ▸ old)
  · obtain ⟨p, isPeer, rfl⟩ := List.mem_map.mp new
    exact Or.inr (Or.inr ⟨leads, p, isPeer, rfl⟩)

theorem becomeLeader (queue : r'.outMsgs = r.outMsgs) : r.Emits r'.becomeLeader := by
  rw [Raft.becomeLeader, resetProgress_eq]
  exact broadcast rfl queue

theorem handleRequestVote (r : Raft) (msg : Message) : r.Emits (r.handleRequestVote msg) := by
  simp only [Raft.handleRequestVote]
  split
  · exact of_send rfl (by rintro ⟨⟩)
  · exact of_send rfl (by rintro ⟨⟩)

theorem handleAppendEntries (queue : r'.outMsgs = r.outMsgs) (msg : Message) :
    r.Emits (r'.handleAppendEntries msg) := by
  obtain ⟨_, _, _, success, matchIndex, same⟩ := handleAppendEntries_shape r' msg
  have added : r'.outMsgs ++ [r'.appendReply msg success matchIndex] =
      r.outMsgs ++ [r'.appendReply msg success matchIndex] := by rw [queue]
  rw [same]
  exact of_send added (by rintro ⟨⟩)

theorem maybeCommit (queue : r'.outMsgs = r.outMsgs) : r.Emits r'.maybeCommit := by
  rw [maybeCommit_eq]
  exact of_same queue

theorem tick (r : Raft) : r.Emits r.tick := by
  rw [Raft.tick]
  split
  · rename_i leads
    dsimp only
    split
    · exact broadcast leads rfl
    · exact of_same rfl
  · dsimp only
    split
    · rw [becomeCandidate]
      dsimp only
      split
      · exact becomeLeader rfl
      · rw [requestVotes_eq]
        intro m member
        rcases List.mem_append.mp member with old | new
        · exact Or.inl old
        · obtain ⟨p, -, rfl⟩ := List.mem_map.mp new
          exact Or.inr (Or.inl (by rintro ⟨⟩))
    · exact of_same rfl

theorem propose (r : Raft) (data : Bytes) : r.Emits (r.propose data).2 := by
  rw [Raft.propose]
  split
  · exact of_same rfl
  · exact maybeCommit rfl

theorem stepFollower (r : Raft) (msg : Message) : r.Emits (r.stepFollower msg) := by
  rw [Raft.stepFollower]
  cases msg.type with
  | requestVote => exact handleRequestVote r msg
  | appendEntries => exact handleAppendEntries rfl msg
  | requestVoteResp | appendEntriesResp => exact of_same rfl

theorem stepCandidate (r : Raft) (msg : Message) : r.Emits (r.stepCandidate msg) := by
  rw [Raft.stepCandidate]
  cases msg.type with
  | requestVote => exact handleRequestVote r msg
  | appendEntries =>
      refine handleAppendEntries ?_ msg
      rw [becomeFollower]
      split <;> rfl
  | appendEntriesResp => exact of_same rfl
  | requestVoteResp =>
      simp only
      split
      · split
        · split
          · exact becomeLeader rfl
          · exact of_same rfl
        · split
          · exact becomeLeader rfl
          · exact of_same rfl
      · exact of_same rfl

theorem stepLeader (r : Raft) (msg : Message) : r.Emits (r.stepLeader msg) := by
  rw [Raft.stepLeader]
  cases msg.type with
  | requestVote => exact handleRequestVote r msg
  | appendEntriesResp =>
      simp only [handleAppendEntriesResp]
      split
      · exact maybeCommit rfl
      · split
        · exact of_same rfl
        · exact of_same rfl
  | requestVoteResp | appendEntries => exact of_same rfl

theorem step (r : Raft) (msg : Message) : r.Emits (r.step msg) := by
  rw [Raft.step]
  split
  · -- becoming a follower queues nothing
    dsimp only
    generalize follower : r.becomeFollower msg.term
      (if msg.type = .appendEntries then msg.fromNode else 0) = r₀
    have queue : r₀.outMsgs = r.outMsgs := by
      rw [← follower, becomeFollower]
      split <;> rfl
    have role : r₀.role = .follower := by rw [← follower]; rfl
    rw [stepRole]
    simp only [role]
    intro m member
    rw [← queue]
    exact stepFollower r₀ msg m member
  · split
    · rw [rejectStale]
      cases msg.type with
      | requestVote | appendEntries => exact of_send rfl (by rintro ⟨⟩)
      | requestVoteResp | appendEntriesResp => exact of_same rfl
    · rw [stepRole]
      cases r.role with
      | follower => exact stepFollower r msg
      | candidate => exact stepCandidate r msg
      | leader => exact stepLeader r msg

end Emits

end Raft

/-! ## In a cluster -/

namespace Cluster

open Raft

variable {c : Cluster} {a : NodeId}

/-- The acknowledgement that an event makes a node take as leader. -/
def ackAt (c : Cluster) (a : NodeId) : Event → Option (NodeId × Nat)
  | .deliver msg => if msg ∈ c.sent ∧ msg.toNode = a then (c.node a).ackOf msg else none
  | .tick _ | .propose _ _ | .takeCommitted _ | .restart _ => none

theorem update_node (c : Cluster) (id a : NodeId) (r : Raft) :
    (c.update id r).node a = if a = id then r.takeMessages.2 else c.node a := rfl

/-- A node where nothing happens. -/
theorem unchanged (leads : (c.node a).role = .leader) : LeaderStep (c.node a) none (c.node a) :=
  .kept leads rfl rfl rfl rfl rfl rfl

theorem next_leaderStep {e : Event} (leads : ((c.next e).node a).role = .leader) :
    LeaderStep (c.node a) (c.ackAt a e) ((c.next e).node a) := by
  cases e with
  | tick id =>
      rw [next, update_node] at leads ⊢
      split
      · rename_i here
        subst here
        rw [if_pos rfl] at leads
        exact (tick_leaderStep leads).takeMessages
      · rw [if_neg ‹_›] at leads
        exact unchanged leads
  | propose id data =>
      rw [next, update_node] at leads ⊢
      split
      · rename_i here
        subst here
        rw [if_pos rfl] at leads
        exact (propose_leaderStep data leads).takeMessages
      · rw [if_neg ‹_›] at leads
        exact unchanged leads
  | deliver msg =>
      rw [next] at leads ⊢
      by_cases isSent : msg ∈ c.sent
      · rw [if_pos isSent, update_node] at leads ⊢
        split
        · rename_i here
          subst here
          rw [if_pos rfl] at leads
          rw [ackAt, if_pos ⟨isSent, rfl⟩]
          exact (step_leaderStep leads).takeMessages
        · rename_i elsewhere
          rw [if_neg elsewhere] at leads
          rw [ackAt, if_neg fun h => elsewhere h.2.symm]
          exact unchanged leads
      · rw [if_neg isSent] at leads ⊢
        rw [ackAt, if_neg fun h => isSent h.1]
        exact unchanged leads
  | takeCommitted id =>
      simp only [next] at leads ⊢
      split
      · rename_i here
        subst here
        rw [if_pos rfl] at leads
        exact .kept leads rfl rfl rfl rfl rfl rfl
      · rw [if_neg ‹_›] at leads
        exact unchanged leads
  | restart id =>
      simp only [next] at leads ⊢
      split
      · rename_i here
        subst here
        rw [if_pos rfl] at leads
        cases leads
      · rw [if_neg ‹_›] at leads
        exact unchanged leads

end Cluster

end MiniLsm
