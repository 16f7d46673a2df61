import MiniLsm.Raft.Core
import Mathlib.Data.List.Infix

/-! # What the loops of the state machine compute

Closed forms for the loops of `Raft.Core`: the broadcasts, the replication
state of a new leader, the commit search and the entry loop of
`HandleAppendEntries`. Later modules use these and never unfold a loop.
-/

namespace MiniLsm

namespace Raft

variable {r : Raft}

/-- The peers a broadcast goes to. -/
def others (r : Raft) : List NodeId := r.config.peers.filter (· ≠ r.config.id)

theorem mem_others {p : NodeId} : p ∈ r.others ↔ p ∈ r.config.peers ∧ p ≠ r.config.id := by
  simp [others]

/-- Sending one message to every other peer, where the message depends on
    nothing a send changes. -/
theorem sends_eq (build : Raft → NodeId → Message)
    (stable : ∀ r out peer, build { r with outMsgs := out } peer = build r peer)
    (peers : List NodeId) (r : Raft) :
    peers.foldl (fun r peer => if peer = r.config.id then r else r.send (build r peer)) r =
      { r with outMsgs := r.outMsgs ++ (peers.filter (· ≠ r.config.id)).map (build r) } := by
  induction peers generalizing r with
  | nil => simp
  | cons peer peers ih =>
      rw [List.foldl_cons, ih]
      by_cases own : peer = r.config.id
      · simp [own]
      · simp only [own, if_false, send, List.filter_cons, decide_not, decide_false,
          Bool.not_false, if_true, List.map_cons, List.append_assoc, List.singleton_append]
        congr 3
        exact List.map_congr_left (fun p _ => stable r _ p)

theorem broadcastAppendEntries_eq (r : Raft) :
    r.broadcastAppendEntries =
      { r with outMsgs := r.outMsgs ++ r.others.map r.appendEntriesTo } :=
  sends_eq appendEntriesTo (fun _ _ _ => rfl) r.config.peers r

theorem requestVotes_eq (r : Raft) :
    r.config.peers.foldl
        (fun r peer => if peer = r.config.id then r else r.send (r.requestVoteTo peer)) r =
      { r with outMsgs := r.outMsgs ++ r.others.map r.requestVoteTo } :=
  sends_eq requestVoteTo (fun _ _ _ => rfl) r.config.peers r

theorem resetProgress_eq (r : Raft) :
    r.resetProgress =
      { r with
        nextIndex := fun p => if p ∈ r.others then r.lastIndex + 1 else 0
        matchIndex := fun _ => 0 } := by
  have loop : ∀ (peers : List NodeId) (next : NodeId → Nat),
      peers.foldl
        (fun (r : Raft) peer =>
          if peer = r.config.id then r
          else { r with
            nextIndex := assign r.nextIndex peer (r.lastIndex + 1)
            matchIndex := assign r.matchIndex peer 0 })
        { r with nextIndex := next, matchIndex := fun _ => 0 } =
      { r with
        nextIndex := fun p =>
          if p ∈ peers.filter (· ≠ r.config.id) then r.lastIndex + 1 else next p
        matchIndex := fun _ => 0 } := by
    intro peers
    induction peers with
    | nil => simp
    | cons peer peers ih =>
        intro next
        rw [List.foldl_cons]
        by_cases own : peer = r.config.id
        · simp [own, ih next]
        · have zero : assign (fun _ => 0) peer 0 = fun _ => 0 := by
            funext k
            simp [assign]
          simp only [own, if_false, zero, lastIndex]
          refine (ih _).trans ?_
          congr 1
          funext p
          by_cases same : p = peer
          · simp [same, own, assign, lastIndex]
          · simp [same, assign, lastIndex]
  exact loop r.config.peers (fun _ => 0)

/-- The peers known to hold index `n`. -/
def holders (r : Raft) (n : Nat) : List NodeId := r.others.filter (r.matchIndex · ≥ n)

theorem replicas_eq (r : Raft) (n : Nat) : r.replicas n = 1 + (r.holders n).length := by
  have loop : ∀ (peers : List NodeId) (count : Nat),
      peers.foldl
        (fun count peer =>
          if peer = r.config.id then count
          else if r.matchIndex peer ≥ n then count + 1 else count) count =
      count + ((peers.filter (· ≠ r.config.id)).filter (r.matchIndex · ≥ n)).length := by
    intro peers
    induction peers with
    | nil => simp
    | cons peer peers ih =>
        intro count
        rw [List.foldl_cons, ih]
        by_cases own : peer = r.config.id
        · simp [own]
        · by_cases held : r.matchIndex peer ≥ n
          · simp [own, held]
            omega
          · simp [own, held]
  exact loop r.config.peers 1

/-- What the commit rule asks of an index above `commit_index_`. -/
structure Committable (r : Raft) (n : Nat) : Prop where
  above : r.commitIndex < n
  inside : n ≤ r.lastIndex
  current : r.termAt n = r.currentTerm
  counted : r.quorumSize ≤ r.replicas n

/-- The commit search moves `commit_index_` to the greatest index the rule
    allows, and nowhere when there is none. -/
theorem maybeCommit_cases (r : Raft) :
    (r.maybeCommit = r ∧ ∀ n, ¬ r.Committable n) ∨
      ∃ n, r.Committable n ∧ (∀ k, r.Committable k → k ≤ n) ∧
        r.maybeCommit = { r with commitIndex := n } := by
  have loop : ∀ m, m ≤ r.lastIndex →
      (r.maybeCommitFrom m = r ∧ ∀ n ≤ m, ¬ r.Committable n) ∨
        ∃ n, r.Committable n ∧ (∀ k ≤ m, r.Committable k → k ≤ n) ∧
          r.maybeCommitFrom m = { r with commitIndex := n } := by
    intro m
    induction m with
    | zero =>
        intro _
        refine Or.inl ⟨rfl, ?_⟩
        intro n le rule
        have := rule.above
        omega
    | succ m ih =>
        intro inside
        rw [maybeCommitFrom]
        by_cases above : m + 1 > r.commitIndex
        · by_cases rule : r.Committable (m + 1)
          · refine Or.inr ⟨m + 1, rule, fun k le _ => le, ?_⟩
            simp [above, rule.current, rule.counted]
          · -- the search goes on below an index that does not qualify
            have skip : (if r.termAt (m + 1) ≠ r.currentTerm then r.maybeCommitFrom m
                else if r.replicas (m + 1) ≥ r.quorumSize then { r with commitIndex := m + 1 }
                else r.maybeCommitFrom m) = r.maybeCommitFrom m := by
              by_cases current : r.termAt (m + 1) = r.currentTerm
              · have few : ¬ r.replicas (m + 1) ≥ r.quorumSize :=
                  fun counted => rule ⟨above, inside, current, counted⟩
                simp [current, few]
              · simp [current]
            rw [if_pos above, skip]
            rcases ih (by omega) with ⟨same, none⟩ | ⟨n, found, greatest, same⟩
            · refine Or.inl ⟨same, ?_⟩
              intro n le
              rcases Nat.lt_or_eq_of_le le with lt | rfl
              · exact none n (by omega)
              · exact rule
            · refine Or.inr ⟨n, found, ?_, same⟩
              intro k le isRule
              rcases Nat.lt_or_eq_of_le le with lt | rfl
              · exact greatest k (by omega) isRule
              · exact absurd isRule rule
        · refine Or.inl ⟨by simp [above], ?_⟩
          intro n le rule
          have := rule.above
          omega
  rcases loop r.lastIndex le_rfl with ⟨same, none⟩ | ⟨n, found, greatest, same⟩
  · exact Or.inl ⟨same, fun n rule => none n rule.inside rule⟩
  · exact Or.inr ⟨n, found, fun k rule => greatest k rule.inside rule, same⟩

end Raft

/-! ## The entry loop of `HandleAppendEntries` -/

/-- Entries numbered consecutively from `start`. -/
def Contiguous (start : Nat) : List LogEntry → Prop
  | [] => True
  | e :: es => e.index = start ∧ Contiguous (start + 1) es

theorem contiguous_append {start : Nat} {left right : List LogEntry} :
    Contiguous start (left ++ right) ↔
      Contiguous start left ∧ Contiguous (start + left.length) right := by
  induction left generalizing start with
  | nil => simp [Contiguous]
  | cons e es ih =>
      simp only [List.cons_append, Contiguous, ih, List.length_cons, and_assoc]
      rw [show start + 1 + es.length = start + (es.length + 1) by omega]

theorem Contiguous.prefix_of {start : Nat} {short log : List LogEntry}
    (h : Contiguous start log) (inside : short <+: log) : Contiguous start short := by
  obtain ⟨rest, rfl⟩ := inside
  exact (contiguous_append.mp h).1

theorem Contiguous.drop {start : Nat} {log : List LogEntry} (h : Contiguous start log) (k : Nat) :
    Contiguous (start + k) (log.drop k) := by
  by_cases inside : k ≤ log.length
  · rw [← List.take_append_drop k log, contiguous_append, List.length_take,
      Nat.min_eq_left inside] at h
    exact h.2
  · rw [List.drop_eq_nil_of_le (by omega)]
    trivial

theorem Contiguous.index {start : Nat} {log : List LogEntry} (h : Contiguous start log) {i : Nat}
    (inside : i < log.length) : log[i].index = start + i := by
  induction log generalizing start i with
  | nil => simp at inside
  | cons e es ih =>
      cases i with
      | zero => simpa using h.1
      | succ i =>
          have := ih h.2 (by simpa using inside)
          simpa [Nat.add_assoc, Nat.add_comm 1 i] using this

/-- The first position, from `i` on, at which the log has an entry of another
    term than the message. -/
def firstConflict (log : List LogEntry) : Nat → List LogEntry → Option Nat
  | _, [] => none
  | i, e :: es =>
      match log[i]? with
      | none => none
      | some old => if old.term = e.term then firstConflict log (i + 1) es else some i

/-- The log after the loop: up to the first conflict and then the message's
    entries, or the old log with what it lacked. -/
def splice (log : List LogEntry) (start : Nat) (entries : List LogEntry) : List LogEntry :=
  match firstConflict log start entries with
  | some c => log.take c ++ entries.drop (c - start)
  | none => log ++ entries.drop (log.length - start)

/-- The watermark after the loop: a conflict below it lowers it. -/
def spliceStable (log : List LogEntry) (start : Nat) (entries : List LogEntry) (stable : Nat) :
    Nat :=
  match firstConflict log start entries with
  | some c => min stable (c - 1)
  | none => stable

theorem firstConflict_bounds {log entries : List LogEntry} {start c : Nat}
    (h : firstConflict log start entries = some c) :
    start ≤ c ∧ c < log.length ∧ c < start + entries.length := by
  induction entries generalizing start with
  | nil => simp [firstConflict] at h
  | cons e es ih =>
      rw [firstConflict] at h
      cases old : log[start]? with
      | none => simp [old] at h
      | some x =>
          have inside : start < log.length := (List.getElem?_eq_some_iff.mp old).1
          rw [old] at h
          by_cases same : x.term = e.term
          · have := ih (by simpa [same] using h)
            simp only [List.length_cons]
            omega
          · obtain rfl : start = c := by simpa [same] using h
            simp only [List.length_cons]
            omega

/-- Every position before the first conflict holds an entry of the same term. -/
theorem firstConflict_before {log entries : List LogEntry} {start k : Nat}
    (inLog : start + k < log.length) (inside : k < entries.length)
    (before : ∀ c, firstConflict log start entries = some c → start + k < c) :
    log[start + k].term = entries[k].term := by
  induction entries generalizing start k with
  | nil => simp at inside
  | cons e es ih =>
      have startInside : start < log.length := by omega
      have first : log[start]? = some log[start] := List.getElem?_eq_getElem _
      rw [firstConflict, first] at before
      by_cases same : log[start].term = e.term
      · cases k with
        | zero => simpa using same
        | succ k =>
            have := @ih (start + 1) k (by omega) (by simpa using inside)
              (fun c h => by have := before c (by simpa [same] using h); omega)
            simpa [Nat.add_assoc, Nat.add_comm 1 k] using this
      · have := before start (by simp [same])
        omega

theorem firstConflict_at {log entries : List LogEntry} {start c : Nat}
    (h : firstConflict log start entries = some c) (inLog : c < log.length)
    (inside : c - start < entries.length) : log[c].term ≠ entries[c - start].term := by
  induction entries generalizing start with
  | nil => simp at inside
  | cons e es ih =>
      have bounds := firstConflict_bounds h
      rw [firstConflict] at h
      cases old : log[start]? with
      | none => simp [old] at h
      | some x =>
          obtain ⟨startInside, rfl⟩ := List.getElem?_eq_some_iff.mp old
          rw [old] at h
          by_cases same : log[start].term = e.term
          · have later : firstConflict log (start + 1) es = some c := by simpa [same] using h
            have lower := (firstConflict_bounds later).1
            have shift : c - start = c - (start + 1) + 1 := by omega
            have := ih later (by simp only [List.length_cons] at inside; omega)
            simpa [shift] using this
          · obtain rfl : start = c := by simpa [same] using h
            simpa using same

theorem splice_stable_le {log entries : List LogEntry} {start stable : Nat} (positive : 0 < start)
    (inside : start ≤ log.length) (held : stable ≤ log.length - 1) :
    spliceStable log start entries stable ≤ (splice log start entries).length - 1 := by
  rw [splice, spliceStable]
  cases conflict : firstConflict log start entries with
  | none =>
      simp only [List.length_append]
      omega
  | some c =>
      have := firstConflict_bounds conflict
      simp only [List.length_append, List.length_take]
      omega

namespace Raft

theorem appendEntry_end {r : Raft} {e : LogEntry} (nonempty : r.log ≠ [])
    (numbered : e.index = r.log.length) : r.appendEntry e = { r with log := r.log ++ [e] } := by
  have := List.length_pos_iff.mpr nonempty
  have beyond : ¬ e.index ≤ r.lastIndex := by
    rw [lastIndex]
    omega
  simp [appendEntry, beyond]

/-- Once the loop is past the end of the log it only appends. -/
theorem appendLoop_end (entries : List LogEntry) (r : Raft) (nonempty : r.log ≠ [])
    (contiguous : Contiguous r.log.length entries) :
    entries.foldl appendEntry r = { r with log := r.log ++ entries } := by
  induction entries generalizing r with
  | nil => simp
  | cons e es ih =>
      rw [List.foldl_cons, appendEntry_end nonempty contiguous.1, ih]
      · simp
      · simp
      · simpa using contiguous.2

theorem appendLoop_eq (entries : List LogEntry) (r : Raft) (start : Nat) (positive : 0 < start)
    (inside : start ≤ r.log.length) (contiguous : Contiguous start entries) :
    entries.foldl appendEntry r =
      { r with
        log := splice r.log start entries
        stableIndex := spliceStable r.log start entries r.stableIndex } := by
  induction entries generalizing start with
  | nil => simp [splice, spliceStable, firstConflict]
  | cons e es ih =>
      have numbered : e.index = start := contiguous.1
      have nonempty : r.log ≠ [] := List.length_pos_iff.mp (by omega)
      rw [splice, spliceStable, firstConflict]
      cases old : r.log[start]? with
      | none =>
          have atEnd : r.log.length = start :=
            le_antisymm (List.getElem?_eq_none_iff.mp old) inside
          rw [appendLoop_end _ _ nonempty (atEnd ▸ contiguous)]
          simp [atEnd]
      | some x =>
          obtain ⟨startInside, rfl⟩ := List.getElem?_eq_some_iff.mp old
          have low : start ≤ r.lastIndex := by
            rw [lastIndex]
            omega
          have known : r.termAt start = r.log[start].term := by
            rw [termAt, if_neg (by omega), entryAt, List.getD_eq_getElem?_getD, old,
              Option.getD_some]
          rw [List.foldl_cons]
          by_cases same : r.log[start].term = e.term
          · have keep : r.appendEntry e = r := by simp [appendEntry, numbered, low, known, same]
            rw [keep, ih (start + 1) (by omega) (by omega) contiguous.2, splice, spliceStable]
            simp only [same, if_true]
            cases conflict : firstConflict r.log (start + 1) es with
            | none =>
                have drop : r.log.length - start = (r.log.length - (start + 1)) + 1 := by omega
                simp [drop]
            | some c =>
                have := firstConflict_bounds conflict
                have drop : c - start = (c - (start + 1)) + 1 := by omega
                simp [drop]
          · have cut : r.appendEntry e =
                { r with
                  log := r.log.take start ++ [e]
                  stableIndex := min r.stableIndex (start - 1) } := by
              have watermark : (if r.stableIndex ≥ start then predU64 start else r.stableIndex) =
                  min r.stableIndex (start - 1) := by
                have nonzero : start ≠ 0 := by omega
                simp only [predU64, nonzero, if_false]
                split <;> omega
              simp [appendEntry, low, known, same, numbered, watermark]
            have size : (r.log.take start ++ [e]).length = start + 1 := by
              simp
              omega
            rw [cut, appendLoop_end _ _ (by simp) (by simpa only [size] using contiguous.2)]
            simp [same]

/-- The consistency check that makes a follower reject an AppendEntries. -/
def Rejects (r : Raft) (msg : Message) : Prop :=
  msg.prevLogIndex > r.lastIndex ∨ r.termAt msg.prevLogIndex ≠ msg.prevLogTerm

/-- The reply to an AppendEntries. -/
def appendReply (r : Raft) (msg : Message) (success : Bool) (matchIndex : Nat) : Message :=
  { type := .appendEntriesResp
    fromNode := r.config.id
    toNode := msg.fromNode
    term := r.currentTerm
    success
    matchIndex }

theorem handleAppendEntries_reject {r : Raft} {msg : Message} (reject : r.Rejects msg) :
    r.handleAppendEntries msg =
      { r with leader := msg.fromNode, electionElapsed := 0 }.send (r.appendReply msg false 0) :=
  if_pos reject

/-- The commit index after an accepted AppendEntries that leaves `last` as the
    last index. -/
def learnedCommit (r : Raft) (msg : Message) (last : Nat) : Nat :=
  if msg.leaderCommit > r.commitIndex then min msg.leaderCommit last else r.commitIndex

theorem handleAppendEntries_accept {r : Raft} {msg : Message} (accept : ¬ r.Rejects msg)
    (nonempty : r.log ≠ []) (contiguous : Contiguous (msg.prevLogIndex + 1) msg.entries) :
    r.handleAppendEntries msg =
      { r with
        leader := msg.fromNode
        electionElapsed := 0
        log := splice r.log (msg.prevLogIndex + 1) msg.entries
        stableIndex := spliceStable r.log (msg.prevLogIndex + 1) msg.entries r.stableIndex
        commitIndex := r.learnedCommit msg
          ((splice r.log (msg.prevLogIndex + 1) msg.entries).length - 1) }.send
        (r.appendReply msg true (msg.prevLogIndex + msg.entries.length)) := by
  have inside : msg.prevLogIndex + 1 ≤ r.log.length := by
    have positive := List.length_pos_iff.mpr nonempty
    have within : ¬ msg.prevLogIndex > r.lastIndex := fun h => accept (Or.inl h)
    rw [lastIndex] at within
    omega
  have loop := appendLoop_eq msg.entries { r with leader := msg.fromNode, electionElapsed := 0 }
    (msg.prevLogIndex + 1) (by omega) inside contiguous
  refine (if_neg accept).trans ?_
  simp only [loop, lastIndex, learnedCommit]
  split <;> rfl

/-! ## The apply cursor

Only `TakeCommitted` moves `last_applied_`. -/

section Applied

variable (r : Raft)

@[simp] theorem send_lastApplied (msg : Message) : (r.send msg).lastApplied = r.lastApplied := rfl

@[simp] theorem broadcastAppendEntries_lastApplied :
    r.broadcastAppendEntries.lastApplied = r.lastApplied := by
  rw [broadcastAppendEntries_eq]

@[simp] theorem becomeLeader_lastApplied : r.becomeLeader.lastApplied = r.lastApplied := by
  simp [becomeLeader, resetProgress_eq]

@[simp] theorem becomeFollower_lastApplied (term : Nat) (leader : NodeId) :
    (r.becomeFollower term leader).lastApplied = r.lastApplied := by
  rw [becomeFollower]
  split <;> rfl

@[simp] theorem becomeCandidate_lastApplied : r.becomeCandidate.lastApplied = r.lastApplied := by
  rw [becomeCandidate]
  split
  · simp
  · rw [requestVotes_eq]

@[simp] theorem tick_lastApplied : r.tick.lastApplied = r.lastApplied := by
  rw [tick]
  dsimp only
  split <;> split <;> simp

@[simp] theorem maybeCommit_lastApplied : r.maybeCommit.lastApplied = r.lastApplied := by
  rcases r.maybeCommit_cases with ⟨same, -⟩ | ⟨n, -, -, same⟩ <;> rw [same]

@[simp] theorem propose_lastApplied (data : Bytes) :
    (r.propose data).2.lastApplied = r.lastApplied := by
  rw [propose]
  split <;> simp

@[simp] theorem handleRequestVote_lastApplied (msg : Message) :
    (r.handleRequestVote msg).lastApplied = r.lastApplied := by
  simp only [handleRequestVote, send_lastApplied]
  split <;> rfl

@[simp] theorem appendEntry_lastApplied (e : LogEntry) :
    (r.appendEntry e).lastApplied = r.lastApplied := by
  rw [appendEntry]
  split
  · split <;> rfl
  · rfl

theorem appendLoop_lastApplied (entries : List LogEntry) (r : Raft) :
    (entries.foldl appendEntry r).lastApplied = r.lastApplied := by
  induction entries generalizing r with
  | nil => rfl
  | cons e es ih => rw [List.foldl_cons, ih, appendEntry_lastApplied]

@[simp] theorem handleAppendEntries_lastApplied (msg : Message) :
    (r.handleAppendEntries msg).lastApplied = r.lastApplied := by
  rw [handleAppendEntries]
  dsimp only
  split
  · rfl
  · rw [send_lastApplied]
    split <;> exact appendLoop_lastApplied _ _

@[simp] theorem handleAppendEntriesResp_lastApplied (msg : Message) :
    (r.handleAppendEntriesResp msg).lastApplied = r.lastApplied := by
  rw [handleAppendEntriesResp]
  split
  · simp
  · split <;> rfl

theorem stepRole_lastApplied (msg : Message) : (r.stepRole msg).lastApplied = r.lastApplied := by
  rw [stepRole]
  cases r.role with
  | follower => cases type : msg.type <;> simp [stepFollower, type]
  | leader => cases type : msg.type <;> simp [stepLeader, type]
  | candidate =>
      cases type : msg.type with
      | requestVoteResp =>
          simp only [stepCandidate, type]
          split
          · split <;> split <;> simp
          · rfl
      | requestVote | appendEntries | appendEntriesResp => simp [stepCandidate, type]

@[simp] theorem step_lastApplied (msg : Message) : (r.step msg).lastApplied = r.lastApplied := by
  rw [step]
  split
  · simp [stepRole_lastApplied]
  · split
    · rw [rejectStale]
      cases msg.type <;> rfl
    · exact stepRole_lastApplied r msg

end Applied

end Raft

end MiniLsm
