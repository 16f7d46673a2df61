import MiniLsm.Consensus.Salvage
import MiniLsm.Raft.Crash
import MiniLsm.Raft.Refinement
import MiniLsm.Raft.Leadership

/-! # An operation whose Save is cut

A node that is down to what a crash left of a `Save` is again a state of the
protocol: it is the node before the operation, the node after it, a node that
only learned of the new term, or one that holds a part of what it was storing.
-/

namespace MiniLsm

open Consensus

/-- What `Recover` returns once everything of a node is stored. -/
def Raft.durable (r : Raft) : Recovered := { hs := r.hardState, entries := r.log.drop 1 }

/-- A fresh node after `Restore`. -/
def Recovered.restored (state : Recovered) (config : Config) : Raft :=
  (Raft.new config).restore state.hs.term state.hs.vote state.entries

/-! ## What the watermark tells -/

section Shared

variable {log entries front : List LogEntry} {start : Nat}

/-- What the log before and the log after the entry loop share lies below the
    watermark, when all of the log before was stored. -/
theorem splice_shared (positive : 0 < start) (held : front <+: log)
    (kept : front <+: splice log start entries) :
    front.length ≤ spliceStable log start entries (log.length - 1) + 1 := by
  have inside := held.length_le
  rw [splice] at kept
  rw [spliceStable]
  cases conflict : firstConflict log start entries with
  | none =>
      dsimp only
      omega
  | some c =>
      rw [conflict] at kept
      obtain ⟨above, inLog, inEntries⟩ := firstConflict_bounds conflict
      dsimp only at kept ⊢
      have differ := firstConflict_at conflict inLog (by omega)
      by_contra beyond
      have reaches : c < front.length := by omega
      -- a shared prefix through the conflict has one entry there, not two
      have old : front[c] = log[c] := held.getElem reaches
      have bound : c < (log.take c ++ entries.drop (c - start)).length :=
        reaches.trans_le kept.length_le
      have new : front[c] = (log.take c ++ entries.drop (c - start))[c] := kept.getElem reaches
      rw [List.getElem_append_right (by rw [List.length_take]; omega), List.getElem_drop] at new
      simp only [List.length_take, Nat.min_eq_left inLog.le, Nat.sub_self, Nat.add_zero] at new
      exact differ (congrArg LogEntry.term (old.symm.trans new))

end Shared

section Cases

variable {r r' : Raft} {result : Recovered}

/-- An operation that leaves the entries is stored as a whole or not at all. -/
theorem Between.unchanged (h : Between r.durable r' result) (log : r'.log = r.log)
    (stable : r'.stableIndex = r.lastIndex) : result = r.durable ∨ result = r'.durable := by
  cases h with
  | before => exact Or.inl rfl
  | hard => exact Or.inr (by rw [Raft.durable, Raft.durable, log])
  | entries k above inside =>
      have all : (r'.log.drop 1).length ≤ k := by
        rw [List.length_drop, log]
        rw [stable, Raft.lastIndex] at above
        exact above
      exact Or.inr (by rw [List.take_of_length_le all, Raft.durable])

/-- So is one that adds one entry and leaves the hard state. -/
theorem Between.concat (h : Between r.durable r' result) {e : LogEntry} (nonempty : r.log ≠ [])
    (log : r'.log = r.log ++ [e]) (hard : r'.hardState = r.hardState)
    (stable : r'.stableIndex = r.lastIndex) : result = r.durable ∨ result = r'.durable := by
  have positive := List.length_pos_iff.mpr nonempty
  have entries : r'.log.drop 1 = r.log.drop 1 ++ [e] := by
    rw [log, List.drop_append_of_le_length positive]
  have size : (r.log.drop 1).length = r.lastIndex := List.length_drop
  cases h with
  | before => exact Or.inl rfl
  | hard => exact Or.inl (by rw [hard]; rfl)
  | entries k above inside =>
      rcases Nat.eq_or_lt_of_le (stable ▸ above) with same | more
      · refine Or.inl ?_
        rw [← same, entries, List.take_left' size, hard, Raft.durable]
      · refine Or.inr ?_
        rw [List.take_of_length_le (by rw [entries, List.length_append, size]; exact more),
          Raft.durable]

/-- A step of the operation that wrote nothing of the entries can be left out. -/
theorem Between.rebase {start : Raft} (h : Between r.durable r' result) (log : start.log = r.log) :
    result = r.durable ∨ Between start.durable r' result := by
  have entries : r.durable.entries = start.durable.entries := (congrArg (List.drop 1) log).symm
  cases h with
  | before => exact Or.inl rfl
  | hard =>
      rw [entries]
      exact Or.inr .hard
  | entries k above inside => exact Or.inr (.entries k above inside)

end Cases

/-! ## Operations that keep the entries -/

namespace Raft

variable {r : Raft} {msg : Message}

theorem handleRequestVote_entries (r : Raft) (msg : Message) :
    (r.handleRequestVote msg).log = r.log ∧
      (r.handleRequestVote msg).stableIndex = r.stableIndex := by
  simp only [handleRequestVote, send]
  split <;> exact ⟨rfl, rfl⟩

theorem becomeFollower_entries (r : Raft) (term : Nat) (leader : NodeId) :
    (r.becomeFollower term leader).log = r.log ∧
      (r.becomeFollower term leader).stableIndex = r.stableIndex := by
  simp only [becomeFollower]
  split <;> exact ⟨rfl, rfl⟩

theorem becomeLeader_entries (r : Raft) :
    r.becomeLeader.log = r.log ∧ r.becomeLeader.stableIndex = r.stableIndex := by
  obtain ⟨_, _, elected⟩ := r.becomeLeader_eq
  rw [elected]
  exact ⟨rfl, rfl⟩

/-- Only an AppendEntries changes what is stored of the entries. -/
theorem stepRole_entries (type : msg.type ≠ .appendEntries) :
    (r.stepRole msg).log = r.log ∧ (r.stepRole msg).stableIndex = r.stableIndex := by
  rw [stepRole]
  cases r.role with
  | follower =>
      rw [stepFollower]
      cases isType : msg.type with
      | requestVote => exact handleRequestVote_entries r msg
      | appendEntries => exact absurd isType type
      | requestVoteResp | appendEntriesResp => exact ⟨rfl, rfl⟩
  | candidate =>
      rw [stepCandidate]
      cases isType : msg.type with
      | requestVote => exact handleRequestVote_entries r msg
      | appendEntries => exact absurd isType type
      | appendEntriesResp => exact ⟨rfl, rfl⟩
      | requestVoteResp =>
          dsimp only
          split
          · split
            · split
              · exact becomeLeader_entries r
              · exact ⟨rfl, rfl⟩
            · split
              · exact becomeLeader_entries _
              · exact ⟨rfl, rfl⟩
          · exact ⟨rfl, rfl⟩
  | leader =>
      rw [stepLeader]
      cases isType : msg.type with
      | requestVote => exact handleRequestVote_entries r msg
      | appendEntries => exact absurd isType type
      | requestVoteResp => exact ⟨rfl, rfl⟩
      | appendEntriesResp =>
          dsimp only
          rw [handleAppendEntriesResp]
          split
          · rw [maybeCommit_eq]
            exact ⟨rfl, rfl⟩
          · split <;> exact ⟨rfl, rfl⟩

theorem rejectStale_entries (r : Raft) (msg : Message) :
    (r.rejectStale msg).log = r.log ∧ (r.rejectStale msg).stableIndex = r.stableIndex := by
  rw [rejectStale]
  cases msg.type with
  | requestVote | requestVoteResp | appendEntries | appendEntriesResp => exact ⟨rfl, rfl⟩

theorem step_entries (type : msg.type ≠ .appendEntries) :
    (r.step msg).log = r.log ∧ (r.step msg).stableIndex = r.stableIndex := by
  rw [step]
  split
  · obtain ⟨log, stable⟩ := becomeFollower_entries r msg.term 0
    obtain ⟨log', stable'⟩ := @stepRole_entries (r.becomeFollower msg.term 0) msg type
    exact ⟨log'.trans log, stable'.trans stable⟩
  · split
    · exact rejectStale_entries r msg
    · exact stepRole_entries type

end Raft

/-! ## Coming back -/

/-- A node restored from this has a history that extends the one before. -/
def Resumes (M : Membership) (s : History) (n : NodeId) (state : Recovered) : Prop :=
  ∃ s', M.protocol.Extends s s' ∧ Protocol.Frame n s s' ∧
    Local M s' n (state.restored (M.config n))

section Resumes

variable {M : Membership} {s s' : History} {n : NodeId} {r : Raft} {msg : Message}
  {state result : Recovered}

theorem Resumes.after (inv : M.protocol.Inv s) (acts : M.protocol.Acts n s s')
    (h : Resumes M s' n state) : Resumes M s n state := by
  obtain ⟨-, ext, frame, -⟩ := Protocol.acts_sound inv acts
  obtain ⟨s'', ext', frame', there⟩ := h
  exact ⟨s'', ext.trans ext', frame.trans frame', there⟩

/-- A node of which everything is stored. -/
theorem Local.resumes (h : Local M s n r) : Resumes M s n r.durable := by
  have step : M.protocol.Step n s { s with commit := Function.update s.commit n 0 } := .restart
  have same : r.durable.restored (M.config n) = Cluster.restarted r := by
    rw [Recovered.restored, Cluster.restarted, h.node.config]
    rfl
  refine ⟨_, Protocol.step_extends h.inv step, Protocol.step_frame step, h.member,
    Protocol.inv_step h.inv step, h.ledgers, ?_⟩
  rw [same]
  exact restarted_sim h.node

theorem Reaches.resumes (h : Reaches M s n r) (inv : M.protocol.Inv s) :
    Resumes M s n r.durable := by
  obtain ⟨s', acts, there⟩ := h
  exact there.resumes.after inv acts

/-- A node that lost the end of its log and has only a part of what replaces it. -/
theorem Local.salvaged (h : Local M s n r) {left : List LogEntry}
    (salvages : Protocol.Salvages n s left) :
    Resumes M s n { hs := r.hardState, entries := left } := by
  refine ⟨Protocol.salvaged n s left, Protocol.salvaged_extends, Protocol.salvaged_frame, h.member,
    salvages.inv h.inv, h.ledgers, ?_⟩
  exact
    { config := rfl
      term := h.node.term
      log := by
        rw [Protocol.salvaged_log_here]
        rfl
      numbered := by
        rw [Protocol.salvaged_log_here]
        exact (h.ledgers _).prefix_of salvages.inside
      commit := by simp [Recovered.restored, Raft.restore, Raft.new, Protocol.salvaged]
      applied := le_rfl
      stable := by simp [Recovered.restored, Raft.restore, Raft.new]
      vote := h.node.vote
      candidate := by simp [Recovered.restored, Raft.restore, Raft.new]
      leader := by simp [Recovered.restored, Raft.restore, Raft.new]
      out := by simp [Recovered.restored, Raft.restore, Raft.new] }

/-! ## Operations, one by one -/

theorem tick_interrupted (h : Local M s n r) (stored : r.stableIndex = r.lastIndex)
    (between : Between r.durable r.tick result) : Resumes M s n result := by
  have ballots := r.tick_ballots
  rcases between.unchanged ballots.log (ballots.stable.trans stored) with rfl | rfl
  · exact h.resumes
  · exact (tick_sim h).resumes h.inv

theorem propose_interrupted (h : Local M s n r) (stored : r.stableIndex = r.lastIndex)
    {data : Bytes} (between : Between r.durable (r.propose data).2 result) :
    Resumes M s n result := by
  have either : result = r.durable ∨ result = (r.propose data).2.durable := by
    by_cases leads : r.role = .leader
    · let e : LogEntry := { term := r.currentTerm, index := r.lastIndex + 1, data }
      have same : (r.propose data).2 = { r with log := r.log ++ [e] }.maybeCommit := by
        simp [Raft.propose, leads, e]
      rw [same] at between ⊢
      rw [Raft.maybeCommit_eq] at between ⊢
      exact between.concat (by simp [h.node.log]) rfl rfl stored
    · have same : (r.propose data).2 = r := by simp [Raft.propose, leads]
      rw [same] at between ⊢
      exact between.unchanged rfl stored
  rcases either with rfl | rfl
  · exact h.resumes
  · exact (propose_sim h data).resumes h.inv

/-- Merging what a leader sent, as a follower of its term. -/
theorem handleAppendEntries_interrupted (h : Local M s n r) (stored : r.stableIndex = r.lastIndex)
    (type : msg.type = .appendEntries) (current : msg.term = r.currentTerm)
    (meaning : MsgSim M s msg)
    (between : Between r.durable (r.handleAppendEntries msg) result) : Resumes M s n result := by
  have node := h.node
  obtain ⟨-, vouched⟩ := meaning
  simp only [type] at vouched
  by_cases reject : r.Rejects msg
  · rw [Raft.handleAppendEntries_reject reject] at between
    rcases between.unchanged rfl stored with rfl | rfl
    · exact h.resumes
    · exact h.resumes
  have contiguous := vouched.contiguous h.ledgers
  rw [node.term] at current
  obtain ⟨merged, spliced, isMerged, -, -⟩ := h.merges vouched current reject
  have led : s.leader (s.term n) ≠ none := by
    rw [← current, vouched.leads]
    exact Option.some_ne_none _
  have nonempty : r.log ≠ [] := by simp [node.log]
  rw [Raft.handleAppendEntries_accept reject nonempty contiguous] at between
  cases between with
  | before => exact h.resumes
  | hard => exact h.resumes
  | entries k above inside =>
      -- a part of the merge, from the first conflict on
      simp only [Raft.send, spliced] at above ⊢
      have shared : ∀ entries, entries <+: s.log n → entries <+: merged →
          entries <+: merged.take k := by
        intro entries held kept
        have below := @splice_shared r.log msg.entries (sentinel :: entries) (msg.prevLogIndex + 1)
          (Nat.succ_pos _)
          (by rw [node.log]; exact List.cons_prefix_cons.mpr ⟨rfl, held⟩)
          (by rw [spliced]; exact List.cons_prefix_cons.mpr ⟨rfl, kept⟩)
        rw [stored, Raft.lastIndex] at above
        rw [List.length_cons] at below
        exact List.prefix_take_iff.mpr ⟨kept, by omega⟩
      rcases isMerged.salvages led (List.take_prefix k merged) shared with same | salvages
      · have whole : r.log.drop 1 = merged.take k := by
          rw [node.log, same]
          rfl
        have resumes := h.resumes
        rw [Raft.durable, whole] at resumes
        exact resumes
      · exact h.salvaged salvages

theorem step_interrupted (h : Local M s n r) (stored : r.stableIndex = r.lastIndex)
    (arrives : msg.toNode = n) (meaning : MsgSim M s msg)
    (between : Between r.durable (r.step msg) result) : Resumes M s n result := by
  -- an operation that leaves the entries
  have whole (kept : (r.step msg).log = r.log ∧ (r.step msg).stableIndex = r.stableIndex) :
      Resumes M s n result := by
    rcases between.unchanged kept.1 (kept.2.trans stored) with rfl | rfl
    · exact h.resumes
    · exact (step_sim h arrives meaning).resumes h.inv
  by_cases type : msg.type = .appendEntries
  · rw [Raft.step] at between whole
    by_cases later : msg.term > r.currentTerm
    · rw [if_pos later, if_pos type] at between
      have entries := r.becomeFollower_entries msg.term msg.fromNode
      have same : (r.becomeFollower msg.term msg.fromNode).stepRole msg =
          (r.becomeFollower msg.term msg.fromNode).handleAppendEntries msg := by
        simp [Raft.becomeFollower, Raft.stepRole, Raft.stepFollower, type]
      dsimp only at between
      rw [same] at between
      obtain ⟨s', acts, there⟩ := becomeFollower_later h later msg.fromNode
      rcases between.rebase entries.1 with rfl | between
      · exact h.resumes
      · refine (handleAppendEntries_interrupted there ?_ type (by simp [Raft.becomeFollower, later])
          (meaning.mono (Protocol.acts_sound h.inv acts).2.1) between).after h.inv acts
        rw [entries.2, stored, Raft.lastIndex, Raft.lastIndex, entries.1]
    · by_cases stale : msg.term < r.currentTerm
      · rw [if_neg later, if_pos stale] at whole
        exact whole (r.rejectStale_entries msg)
      · rw [if_neg later, if_neg stale] at between whole
        have current : msg.term = r.currentTerm := by omega
        cases role : r.role with
        | leader =>
            refine whole ?_
            simp [Raft.stepRole, Raft.stepLeader, role, type]
        | follower =>
            refine handleAppendEntries_interrupted h stored type current meaning ?_
            simpa only [Raft.stepRole, Raft.stepFollower, role, type] using between
        | candidate =>
            have entries := r.becomeFollower_entries r.currentTerm msg.fromNode
            simp only [Raft.stepRole, Raft.stepCandidate, role, type, current] at between
            rcases between.rebase entries.1 with rfl | between
            · exact h.resumes
            · refine handleAppendEntries_interrupted (becomeFollower_same h msg.fromNode) ?_ type
                (by simp [Raft.becomeFollower, current]) meaning between
              rw [entries.2, stored, Raft.lastIndex, Raft.lastIndex, entries.1]
  · exact whole (Raft.step_entries type)

end Resumes

end MiniLsm
