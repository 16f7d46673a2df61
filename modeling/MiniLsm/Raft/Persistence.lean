import MiniLsm.Raft.Loops

/-! # What an operation does to the state that `Save` reads

Term, vote and dirty flag; log and watermark. An operation may replace entries
above the watermark freely, and below it only while lowering it.
-/

namespace MiniLsm

theorem splice_contiguous {log entries : List LogEntry} {start : Nat} (inside : start ≤ log.length)
    (h : Contiguous 0 log) (contiguous : Contiguous start entries) :
    Contiguous 0 (splice log start entries) := by
  rw [splice]
  cases conflict : firstConflict log start entries with
  | none =>
      have rest := contiguous.drop (log.length - start)
      rw [Nat.add_sub_cancel' inside] at rest
      exact contiguous_append.mpr ⟨h, by rwa [Nat.zero_add]⟩
  | some c =>
      obtain ⟨le, lt, -⟩ := firstConflict_bounds conflict
      have rest := contiguous.drop (c - start)
      rw [Nat.add_sub_cancel' le] at rest
      refine contiguous_append.mpr ⟨h.prefix_of (List.take_prefix _ _), ?_⟩
      rwa [Nat.zero_add, List.length_take, Nat.min_eq_left (Nat.le_of_lt lt)]

/-- Up to the watermark it leaves, the entry loop keeps the log. -/
theorem splice_take {log entries : List LogEntry} {start stable : Nat} (positive : 0 < start)
    (held : stable < log.length) :
    (splice log start entries).take (spliceStable log start entries stable + 1) =
      log.take (spliceStable log start entries stable + 1) := by
  rw [splice, spliceStable]
  cases conflict : firstConflict log start entries with
  | none => exact List.take_append_of_le_length held
  | some c =>
      obtain ⟨le, lt, -⟩ := firstConflict_bounds conflict
      have below : min stable (c - 1) + 1 ≤ c := by omega
      dsimp only
      rw [List.take_append_of_le_length (by rw [List.length_take]; omega), List.take_take,
        Nat.min_eq_left below]

/-- An AppendEntries carries entries numbered after the one it refers to. -/
def Message.Carries (msg : Message) : Prop :=
  msg.type = .appendEntries → Contiguous (msg.prevLogIndex + 1) msg.entries

namespace Raft

/-- An entry's index is its position, and the watermark is one. -/
structure Numbered (r : Raft) : Prop where
  log : Contiguous 0 r.log
  stable : r.stableIndex < r.log.length

theorem Numbered.nonempty {r : Raft} (h : r.Numbered) : r.log ≠ [] :=
  List.length_pos_iff.mp (Nat.zero_lt_of_lt h.stable)

/-- How operations change what `Save` reads. -/
structure Evolves (r r' : Raft) : Prop where
  config : r'.config = r.config
  hard : r'.hardStateDirty = false →
    r.hardStateDirty = false ∧ r'.currentTerm = r.currentTerm ∧ r'.votedFor = r.votedFor
  numbered : r'.Numbered
  stable : r'.stableIndex ≤ r.stableIndex
  log : r'.log.take (r'.stableIndex + 1) = r.log.take (r'.stableIndex + 1)

variable {r r' r'' : Raft} {msg : Message}

theorem Numbered.refl (h : r.Numbered) : r.Evolves r :=
  ⟨rfl, fun clean => ⟨clean, rfl, rfl⟩, h, le_rfl, rfl⟩

theorem Evolves.trans (h : r.Evolves r') (h' : r'.Evolves r'') : r.Evolves r'' := by
  refine ⟨h'.config.trans h.config, ?_, h'.numbered, h'.stable.trans h.stable, ?_⟩
  · intro clean
    obtain ⟨clean', term', vote'⟩ := h'.hard clean
    obtain ⟨clean'', term, vote⟩ := h.hard clean'
    exact ⟨clean'', term'.trans term, vote'.trans vote⟩
  · have within : min (r''.stableIndex + 1) (r'.stableIndex + 1) = r''.stableIndex + 1 :=
      Nat.min_eq_left (Nat.succ_le_succ h'.stable)
    have lower := congrArg (List.take (r''.stableIndex + 1)) h.log
    rw [List.take_take, List.take_take, within] at lower
    exact h'.log.trans lower

/-- The operation kept the log. -/
theorem Numbered.kept (h : r.Numbered) (config : r'.config = r.config) (log : r'.log = r.log)
    (stable : r'.stableIndex = r.stableIndex)
    (hard : r'.hardStateDirty = false →
      r.hardStateDirty = false ∧ r'.currentTerm = r.currentTerm ∧ r'.votedFor = r.votedFor) :
    r.Evolves r' :=
  ⟨config, hard, ⟨log ▸ h.log, by rw [stable, log]; exact h.stable⟩, le_of_eq stable, by rw [log]⟩

theorem broadcastAppendEntries_evolves (h : r.Numbered) : r.Evolves r.broadcastAppendEntries := by
  rw [broadcastAppendEntries_eq]
  exact h.kept rfl rfl rfl fun clean => ⟨clean, rfl, rfl⟩

theorem becomeLeader_evolves (h : r.Numbered) : r.Evolves r.becomeLeader := by
  rw [becomeLeader, resetProgress_eq, broadcastAppendEntries_eq]
  exact h.kept rfl rfl rfl fun clean => ⟨clean, rfl, rfl⟩

theorem becomeFollower_evolves (h : r.Numbered) (term : Nat) (leader : NodeId) :
    r.Evolves (r.becomeFollower term leader) := by
  rw [becomeFollower]
  split
  · exact h.kept rfl rfl rfl (by simp)
  · exact h.kept rfl rfl rfl fun clean => ⟨clean, rfl, rfl⟩

theorem becomeCandidate_evolves (h : r.Numbered) : r.Evolves r.becomeCandidate := by
  have stood : r.Evolves { r with
      currentTerm := r.currentTerm + 1
      votedFor := r.config.id
      hardStateDirty := true
      role := .candidate
      leader := 0
      electionElapsed := 0
      votesGranted := [r.config.id] } := h.kept rfl rfl rfl (by simp)
  rw [becomeCandidate]
  split
  · exact stood.trans (becomeLeader_evolves stood.numbered)
  · rw [requestVotes_eq]
    exact h.kept rfl rfl rfl (by simp)

theorem tick_evolves (h : r.Numbered) : r.Evolves r.tick := by
  have timed (leaderTime electionTime : Int) : r.Evolves
      { r with heartbeatElapsed := leaderTime, electionElapsed := electionTime } :=
    h.kept rfl rfl rfl fun clean => ⟨clean, rfl, rfl⟩
  rw [tick]
  dsimp only
  split
  · split
    · exact (timed 0 r.electionElapsed).trans (broadcastAppendEntries_evolves ⟨h.log, h.stable⟩)
    · exact timed (r.heartbeatElapsed + 1) r.electionElapsed
  · split
    · exact (timed r.heartbeatElapsed (r.electionElapsed + 1)).trans
        (becomeCandidate_evolves ⟨h.log, h.stable⟩)
    · exact timed r.heartbeatElapsed (r.electionElapsed + 1)

theorem maybeCommit_evolves (h : r.Numbered) : r.Evolves r.maybeCommit := by
  rcases r.maybeCommit_cases with ⟨same, -⟩ | ⟨n, -, -, same⟩
  · rw [same]
    exact h.refl
  · rw [same]
    exact h.kept rfl rfl rfl fun clean => ⟨clean, rfl, rfl⟩

theorem propose_evolves (h : r.Numbered) (data : Bytes) : r.Evolves (r.propose data).2 := by
  have positive := Nat.zero_lt_of_lt h.stable
  rw [propose]
  split
  · exact h.refl
  · have numbered : Contiguous 0
        (r.log ++ [{ term := r.currentTerm, index := r.lastIndex + 1, data }]) := by
      refine contiguous_append.mpr ⟨h.log, ?_, trivial⟩
      show r.lastIndex + 1 = 0 + r.log.length
      rw [lastIndex]
      omega
    have appended : r.Evolves { r with
        log := r.log ++ [{ term := r.currentTerm, index := r.lastIndex + 1, data }] } := by
      refine ⟨rfl, fun clean => ⟨clean, rfl, rfl⟩, ⟨numbered, ?_⟩, le_rfl, ?_⟩
      · rw [List.length_append]
        exact Nat.lt_add_right _ h.stable
      · exact List.take_append_of_le_length h.stable
    exact appended.trans (maybeCommit_evolves appended.numbered)

theorem handleRequestVote_evolves (h : r.Numbered) : r.Evolves (r.handleRequestVote msg) := by
  rw [handleRequestVote]
  dsimp only [send]
  split
  · exact h.kept rfl rfl rfl (by simp)
  · exact h.kept rfl rfl rfl fun clean => ⟨clean, rfl, rfl⟩

theorem handleAppendEntries_evolves (h : r.Numbered)
    (contiguous : Contiguous (msg.prevLogIndex + 1) msg.entries) :
    r.Evolves (r.handleAppendEntries msg) := by
  by_cases reject : r.Rejects msg
  · rw [handleAppendEntries_reject reject]
    exact h.kept rfl rfl rfl fun clean => ⟨clean, rfl, rfl⟩
  have inside : msg.prevLogIndex + 1 ≤ r.log.length := by
    have positive := Nat.zero_lt_of_lt h.stable
    have within : ¬ msg.prevLogIndex > r.lastIndex := fun beyond => reject (Or.inl beyond)
    rw [lastIndex] at within
    omega
  have numbered := splice_contiguous inside h.log contiguous
  have watermark := @splice_stable_le r.log msg.entries (msg.prevLogIndex + 1) r.stableIndex
    (by omega) inside (by have := h.stable; omega)
  have lowered : spliceStable r.log (msg.prevLogIndex + 1) msg.entries r.stableIndex ≤
      r.stableIndex := by
    rw [spliceStable]
    split <;> omega
  have nonempty : 0 < (splice r.log (msg.prevLogIndex + 1) msg.entries).length := by
    have same := congrArg List.length (@splice_take r.log msg.entries (msg.prevLogIndex + 1)
      r.stableIndex (by omega) h.stable)
    rw [List.length_take, List.length_take] at same
    omega
  rw [handleAppendEntries_accept reject h.nonempty contiguous]
  exact ⟨rfl, fun clean => ⟨clean, rfl, rfl⟩, ⟨numbered, by dsimp only [send]; omega⟩, lowered,
    splice_take (by omega) h.stable⟩

theorem handleAppendEntriesResp_evolves (h : r.Numbered) :
    r.Evolves (r.handleAppendEntriesResp msg) := by
  have progress (next known : NodeId → Nat) : r.Evolves
      { r with nextIndex := next, matchIndex := known } :=
    h.kept rfl rfl rfl fun clean => ⟨clean, rfl, rfl⟩
  rw [handleAppendEntriesResp]
  split
  · exact (progress _ _).trans (maybeCommit_evolves ⟨h.log, h.stable⟩)
  · split
    · exact progress _ r.matchIndex
    · exact h.refl

theorem stepCandidate_evolves (h : r.Numbered) (carries : msg.Carries) :
    r.Evolves (r.stepCandidate msg) := by
  cases type : msg.type with
  | requestVote => simpa only [stepCandidate, type] using handleRequestVote_evolves h
  | appendEntriesResp => simpa only [stepCandidate, type] using h.refl
  | appendEntries =>
      have down := becomeFollower_evolves h msg.term msg.fromNode
      simpa only [stepCandidate, type] using
        down.trans (handleAppendEntries_evolves down.numbered (carries type))
  | requestVoteResp =>
      have counted (votes : List NodeId) : r.Evolves { r with votesGranted := votes } :=
        h.kept rfl rfl rfl fun clean => ⟨clean, rfl, rfl⟩
      simp only [stepCandidate, type]
      split
      · split
        · split
          · exact becomeLeader_evolves h
          · exact h.refl
        · split
          · exact (counted _).trans (becomeLeader_evolves ⟨h.log, h.stable⟩)
          · exact counted _
      · exact h.refl

theorem stepRole_evolves (h : r.Numbered) (carries : msg.Carries) :
    r.Evolves (r.stepRole msg) := by
  cases role : r.role with
  | candidate => simpa only [stepRole, role] using stepCandidate_evolves h carries
  | follower =>
      cases type : msg.type with
      | requestVote =>
          simpa only [stepRole, role, stepFollower, type] using handleRequestVote_evolves h
      | appendEntries =>
          simpa only [stepRole, role, stepFollower, type] using
            handleAppendEntries_evolves h (carries type)
      | requestVoteResp | appendEntriesResp =>
          simpa only [stepRole, role, stepFollower, type] using h.refl
  | leader =>
      cases type : msg.type with
      | requestVote =>
          simpa only [stepRole, role, stepLeader, type] using handleRequestVote_evolves h
      | appendEntriesResp =>
          simpa only [stepRole, role, stepLeader, type] using handleAppendEntriesResp_evolves h
      | requestVoteResp | appendEntries =>
          simpa only [stepRole, role, stepLeader, type] using h.refl

theorem step_evolves (h : r.Numbered) (carries : msg.Carries) : r.Evolves (r.step msg) := by
  rw [step]
  split
  · have down := becomeFollower_evolves h msg.term
      (if msg.type = .appendEntries then msg.fromNode else 0)
    exact down.trans (stepRole_evolves down.numbered carries)
  · split
    · rw [rejectStale]
      cases msg.type with
      | requestVote | appendEntries =>
          exact h.kept rfl rfl rfl fun clean => ⟨clean, rfl, rfl⟩
      | requestVoteResp | appendEntriesResp => exact h.refl
    · exact stepRole_evolves h carries


end Raft

end MiniLsm
