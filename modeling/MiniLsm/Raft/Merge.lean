import MiniLsm.Raft.Loops

/-! # What an AppendEntries makes of the log

The consistency check, the first conflict and the merge of
`HandleAppendEntries`, seen through `Step`, and what is left to do for a message
that was delivered before.
-/

namespace MiniLsm

/-! ## A log that has the entries of a message -/

/-- Every entry of a message has an entry of its term at its position. -/
def Covered (log : List LogEntry) (start : Nat) (entries : List LogEntry) : Prop :=
  ∀ k e, entries[k]? = some e → ∃ old, log[start + k]? = some old ∧ old.term = e.term

namespace Covered

variable {log entries : List LogEntry} {start : Nat}

theorem prefix_of {fewer : List LogEntry} (h : Covered log start entries)
    (inside : fewer <+: entries) : Covered log start fewer := by
  obtain ⟨rest, rfl⟩ := inside
  intro k e held
  have within := (List.getElem?_eq_some_iff.mp held).1
  exact h k e (by rwa [List.getElem?_append_left within])

theorem tail {e : LogEntry} (h : Covered log start (e :: entries)) :
    Covered log (start + 1) entries := by
  intro k old held
  have := h (k + 1) old held
  rwa [show start + (k + 1) = start + 1 + k by omega] at this

/-- Nothing of the message conflicts, and the log lacks nothing of it. -/
theorem no_conflict (h : Covered log start entries) : firstConflict log start entries = none := by
  induction entries generalizing start with
  | nil => rfl
  | cons e es ih =>
      obtain ⟨old, held, same⟩ := h 0 e rfl
      rw [Nat.add_zero] at held
      rw [firstConflict, held]
      simp only [same, if_true]
      exact ih h.tail

theorem length_le (h : Covered log start entries) (inside : start ≤ log.length) :
    start + entries.length ≤ log.length := by
  cases entries.eq_nil_or_concat with
  | inl empty => simpa [empty] using inside
  | inr last =>
      obtain ⟨before, e, rfl⟩ := last
      obtain ⟨old, held, -⟩ := h before.length e (by simp)
      have := (List.getElem?_eq_some_iff.mp held).1
      rw [List.concat_eq_append, List.length_append, List.length_singleton]
      omega

theorem splice_eq (h : Covered log start entries) (inside : start ≤ log.length) :
    splice log start entries = log := by
  have := h.length_le inside
  rw [splice, h.no_conflict]
  simp only
  rw [List.drop_eq_nil_of_le (by omega), List.append_nil]

theorem spliceStable_eq (h : Covered log start entries) (stable : Nat) :
    spliceStable log start entries stable = stable := by
  rw [spliceStable, h.no_conflict]

end Covered

/-- The merged log has the entries of the message. -/
theorem splice_covered {log entries : List LogEntry} {start : Nat} (inside : start ≤ log.length) :
    Covered (splice log start entries) start entries := by
  intro k e held
  obtain ⟨within, rfl⟩ := List.getElem?_eq_some_iff.mp held
  rw [splice]
  cases conflict : firstConflict log start entries with
  | none =>
      by_cases old : start + k < log.length
      · refine ⟨log[start + k], ?_, ?_⟩
        · rw [List.getElem?_append_left old]
          exact List.getElem?_eq_getElem old
        · exact firstConflict_before old within (by simp [conflict])
      · refine ⟨entries[k], ?_, rfl⟩
        rw [List.getElem?_append_right (by omega), List.getElem?_drop,
          show log.length - start + (start + k - log.length) = k by omega]
        exact held
  | some c =>
      have bounds := firstConflict_bounds conflict
      have taken : (log.take c).length = c := by
        rw [List.length_take]
        omega
      by_cases old : start + k < c
      · refine ⟨log[start + k], ?_, ?_⟩
        · rw [List.getElem?_append_left (by omega), List.getElem?_take_of_lt old]
          exact List.getElem?_eq_getElem (by omega)
        · refine firstConflict_before (by omega) within ?_
          rintro c' found
          rw [conflict, Option.some.injEq] at found
          omega
      · refine ⟨entries[k], ?_, rfl⟩
        rw [List.getElem?_append_right (by omega), List.getElem?_drop, taken,
          show c - start + (start + k - c) = k by omega]
        exact held

/-- The merge leaves what is before the entries of the message. -/
theorem splice_before {log entries : List LogEntry} {start i : Nat} (inside : start ≤ log.length)
    (before : i < start) : (splice log start entries)[i]? = log[i]? := by
  rw [splice]
  cases conflict : firstConflict log start entries with
  | none => exact List.getElem?_append_left (by omega)
  | some c =>
      have bounds := firstConflict_bounds conflict
      simp only
      rw [List.getElem?_append_left (by rw [List.length_take]; omega),
        List.getElem?_take_of_lt (by omega)]

/-- Where equal terms mean equal logs, the merge finds the incoming log in the
    log, or makes the log the incoming one. -/
theorem splice_matching {log incoming : List LogEntry} {start : Nat}
    (matching : ∀ i (inLog : i < log.length) (inside : i < incoming.length),
      log[i].term = incoming[i].term → log.take (i + 1) = incoming.take (i + 1))
    (inLog : start < log.length) (inside : start < incoming.length)
    (same : log[start].term = incoming[start].term) :
    (incoming <+: log ∧ splice log (start + 1) (incoming.drop (start + 1)) = log) ∨
      (¬ incoming <+: log ∧ splice log (start + 1) (incoming.drop (start + 1)) = incoming) := by
  -- below the first conflict the two logs agree
  have agree : ∀ k, start ≤ k → k < log.length → k < incoming.length →
      (∀ c, firstConflict log (start + 1) (incoming.drop (start + 1)) = some c → k < c) →
      log.take (k + 1) = incoming.take (k + 1) := by
    intro k low kLog kInside before
    refine matching k kLog kInside ?_
    rcases Nat.eq_or_lt_of_le low with rfl | beyond
    · exact same
    · obtain ⟨j, rfl⟩ := Nat.exists_eq_add_of_le (show start + 1 ≤ k from beyond)
      have := firstConflict_before kLog (show j < (incoming.drop (start + 1)).length by
        rw [List.length_drop]
        omega) before
      rwa [List.getElem_drop] at this
  rw [splice]
  cases conflict : firstConflict log (start + 1) (incoming.drop (start + 1)) with
  | none =>
      simp only [List.drop_drop]
      rw [show start + 1 + (log.length - (start + 1)) = log.length by omega]
      rcases Nat.lt_or_ge log.length incoming.length with short | long
      · have taken := agree (log.length - 1) (by omega) (by omega) (by omega) (by simp [conflict])
        rw [Nat.sub_add_cancel (by omega), List.take_length] at taken
        refine Or.inr ⟨fun isPrefix => ?_, ?_⟩
        · have := isPrefix.length_le
          omega
        · conv_lhs => rw [taken]
          rw [List.length_take, Nat.min_eq_left short.le, List.take_append_drop]
      · have taken := agree (incoming.length - 1) (by omega) (by omega) (by omega)
          (by simp [conflict])
        rw [Nat.sub_add_cancel (by omega), List.take_length] at taken
        refine Or.inl ⟨taken ▸ List.take_prefix _ _, ?_⟩
        rw [List.drop_eq_nil_of_le long, List.append_nil]
  | some c =>
      obtain ⟨lower, upper, inMessage⟩ := firstConflict_bounds conflict
      rw [List.length_drop] at inMessage
      have taken := agree (c - 1) (by omega) (by omega) (by omega) (by simp [conflict]; omega)
      rw [Nat.sub_add_cancel (by omega)] at taken
      refine Or.inr ⟨fun isPrefix => ?_, ?_⟩
      · have differ := firstConflict_at conflict upper (by rw [List.length_drop]; omega)
        refine differ ?_
        rw [List.getElem_drop]
        simp only [Nat.add_sub_cancel' lower]
        rw [isPrefix.getElem]
      · simp only [List.drop_drop, Nat.add_sub_cancel' lower, taken, List.take_append_drop]

namespace Raft

variable {r r' : Raft} {msg msg' : Message}

theorem termAt_inside {i : Nat} {e : LogEntry} (held : r.log[i]? = some e) :
    r.termAt i = e.term := by
  obtain ⟨inside, -⟩ := List.getElem?_eq_some_iff.mp held
  have low : ¬ i > r.lastIndex := by
    rw [lastIndex]
    omega
  rw [termAt, if_neg low, entryAt, List.getD_eq_getElem?_getD, held, Option.getD_some]

/-- Position `c` holds an entry of another term than the one the message has
    for it. -/
structure Conflict (r : Raft) (msg : Message) (c : Nat) : Prop where
  behind : msg.prevLogIndex < c
  inside : c ≤ r.lastIndex
  differs : ∃ e, msg.entries[c - (msg.prevLogIndex + 1)]? = some e ∧ r.termAt c ≠ e.term

theorem Conflict.get {c : Nat} (h : r.Conflict msg c) :
    ∃ (inLog : c < r.log.length) (inside : c - (msg.prevLogIndex + 1) < msg.entries.length),
      r.log[c].term ≠ msg.entries[c - (msg.prevLogIndex + 1)].term := by
  obtain ⟨e, held, differs⟩ := h.differs
  obtain ⟨within, rfl⟩ := List.getElem?_eq_some_iff.mp held
  have behind := h.behind
  have low := h.inside
  rw [lastIndex] at low
  have inLog : c < r.log.length := by omega
  refine ⟨inLog, within, ?_⟩
  rwa [termAt_inside (List.getElem?_eq_getElem inLog)] at differs

/-- The search of the loop finds the first conflict. -/
theorem firstConflict_some {c : Nat}
    (found : firstConflict r.log (msg.prevLogIndex + 1) msg.entries = some c) :
    r.Conflict msg c ∧ ∀ i < c, ¬ r.Conflict msg i := by
  have bounds := firstConflict_bounds found
  have inside : c - (msg.prevLogIndex + 1) < msg.entries.length := by omega
  constructor
  · refine ⟨by omega, ?_, msg.entries[c - (msg.prevLogIndex + 1)],
      List.getElem?_eq_getElem inside, ?_⟩
    · rw [lastIndex]
      omega
    · rw [termAt_inside (List.getElem?_eq_getElem bounds.2.1)]
      exact firstConflict_at found bounds.2.1 inside
  · intro i before conflict
    obtain ⟨inLog, within, differs⟩ := conflict.get
    have behind := conflict.behind
    have same := @firstConflict_before r.log msg.entries (msg.prevLogIndex + 1)
      (i - (msg.prevLogIndex + 1)) (by omega) within (fun c' found' => by
        rw [found, Option.some.injEq] at found'
        omega)
    simp only [show msg.prevLogIndex + 1 + (i - (msg.prevLogIndex + 1)) = i by omega] at same
    exact differs same

theorem firstConflict_none (found : firstConflict r.log (msg.prevLogIndex + 1) msg.entries = none)
    (c : Nat) : ¬ r.Conflict msg c := by
  intro conflict
  obtain ⟨inLog, within, differs⟩ := conflict.get
  have behind := conflict.behind
  have same := @firstConflict_before r.log msg.entries (msg.prevLogIndex + 1)
    (c - (msg.prevLogIndex + 1)) (by omega) within (by simp [found])
  simp only [show msg.prevLogIndex + 1 + (c - (msg.prevLogIndex + 1)) = c by omega] at same
  exact differs same

end Raft

/-! ## A message that was delivered before -/

/-- A message that has nothing another has not: the same place in the log, some
    of its entries and no later commit index. -/
structure Message.Within (msg' msg : Message) : Prop where
  type : msg'.type = .appendEntries
  index : msg'.prevLogIndex = msg.prevLogIndex
  term : msg'.prevLogTerm = msg.prevLogTerm
  entries : msg'.entries <+: msg.entries
  commit : msg'.leaderCommit ≤ msg.leaderCommit

namespace Raft

variable {r r' : Raft} {msg msg' : Message}

/-- The log and the two indices that a message may move. -/
structure SameLog (r r' : Raft) : Prop where
  log : r'.log = r.log
  commit : r'.commitIndex = r.commitIndex
  stable : r'.stableIndex = r.stableIndex

theorem SameLog.trans {r'' : Raft} (h : r.SameLog r') (h' : r'.SameLog r'') : r.SameLog r'' where
  log := h'.log.trans h.log
  commit := h'.commit.trans h.commit
  stable := h'.stable.trans h.stable

/-- A node for which a message holds nothing new: it rejects it, or has its
    entries and has learned its commit index. -/
inductive Informed (r : Raft) (msg : Message) : Prop where
  | rejects (reject : r.Rejects msg)
  | has (accept : ¬ r.Rejects msg) (inside : msg.prevLogIndex + 1 ≤ r.log.length)
      (covered : Covered r.log (msg.prevLogIndex + 1) msg.entries)
      (learned : msg.leaderCommit ≤ r.commitIndex ∨
        r.commitIndex = min msg.leaderCommit r.lastIndex)

theorem SameLog.rejects (h : r.SameLog r') : r'.Rejects msg ↔ r.Rejects msg := by
  rw [Rejects, Rejects, lastIndex, lastIndex, termAt, termAt, entryAt, entryAt, lastIndex, lastIndex,
    h.log]

theorem SameLog.informed (h : r.SameLog r') (informed : r.Informed msg) : r'.Informed msg := by
  cases informed with
  | rejects reject => exact .rejects (h.rejects.mpr reject)
  | has accept inside covered learned =>
      refine .has (mt h.rejects.mp accept) ?_ ?_ ?_
      · rwa [h.log]
      · rwa [h.log]
      · rwa [lastIndex, h.log, h.commit]

/-- A node that is not leading handles an AppendEntries that is not of an older
    term as a follower of that term. -/
theorem step_heard (type : msg.type = .appendEntries) (role : r.role ≠ .leader)
    (term : r.currentTerm ≤ msg.term) :
    r.step msg = { r with
      role := .follower
      currentTerm := msg.term
      votedFor := if r.currentTerm < msg.term then 0 else r.votedFor
      hardStateDirty := decide (r.currentTerm < msg.term) || r.hardStateDirty }.handleAppendEntries
        msg := by
  rcases Nat.eq_or_lt_of_le term with same | later
  · rw [step, if_neg (by omega), if_neg (by omega), stepRole]
    cases isRole : r.role with
    | leader => exact absurd isRole role
    | follower => simp [stepFollower, type, ← isRole, ← same]
    | candidate =>
        simp only [stepCandidate, type, becomeFollower, ← same, gt_iff_lt, lt_self_iff_false,
          if_false, decide_false, Bool.false_or]
        rfl
  · rw [step, if_pos later, type]
    simp only [becomeFollower, gt_iff_lt, later, if_true, stepRole, stepFollower, type, decide_true,
      Bool.true_or]
    rfl

theorem handleAppendEntries_informed (nonempty : r.log ≠ [])
    (contiguous : Contiguous (msg.prevLogIndex + 1) msg.entries) :
    (r.handleAppendEntries msg).Informed msg := by
  by_cases reject : r.Rejects msg
  · rw [handleAppendEntries_reject reject]
    exact .rejects reject
  · have positive := List.length_pos_iff.mpr nonempty
    have within : msg.prevLogIndex ≤ r.lastIndex :=
      Nat.le_of_not_lt fun beyond => reject (Or.inl beyond)
    rw [lastIndex] at within
    have inside : msg.prevLogIndex + 1 ≤ r.log.length := by omega
    rw [handleAppendEntries_accept reject nonempty contiguous]
    have covered := @splice_covered r.log msg.entries _ inside
    have before := @splice_before r.log msg.entries _ msg.prevLogIndex inside (by omega)
    rw [List.getElem?_eq_getElem (show msg.prevLogIndex < r.log.length by omega)] at before
    have longer := (List.getElem?_eq_some_iff.mp before).1
    refine .has ?_ longer covered ?_
    · -- the entry the check looks at is still there
      rintro (beyond | differs)
      · rw [lastIndex] at beyond
        simp only [send] at beyond
        omega
      · refine reject (Or.inr ?_)
        rw [termAt_inside before] at differs
        rwa [termAt_inside (List.getElem?_eq_getElem (by omega))]
    · simp only [send, learnedCommit, lastIndex]
      split
      · exact Or.inr rfl
      · exact Or.inl (by omega)

/-- A message with nothing new changes neither the log nor the indices. -/
theorem Informed.handleAppendEntries (h : r.Informed msg) (within : msg'.Within msg)
    (contiguous : Contiguous (msg.prevLogIndex + 1) msg.entries) :
    r.SameLog (r.handleAppendEntries msg') ∧ (r.handleAppendEntries msg').role = r.role := by
  have rejects : r.Rejects msg' ↔ r.Rejects msg := by rw [Rejects, Rejects, within.index, within.term]
  cases h with
  | rejects reject =>
      rw [handleAppendEntries_reject (rejects.mpr reject)]
      exact ⟨⟨rfl, rfl, rfl⟩, rfl⟩
  | has accept inside covered learned =>
      have nonempty : r.log ≠ [] := List.length_pos_iff.mp (by omega)
      have fewer : Covered r.log (msg'.prevLogIndex + 1) msg'.entries := by
        rw [within.index]
        exact covered.prefix_of within.entries
      have inside' : msg'.prevLogIndex + 1 ≤ r.log.length := by rwa [within.index]
      rw [handleAppendEntries_accept (mt rejects.mp accept) nonempty (by
        rw [within.index]
        exact contiguous.prefix_of within.entries)]
      rw [fewer.splice_eq inside', fewer.spliceStable_eq]
      refine ⟨⟨rfl, ?_, rfl⟩, rfl⟩
      have commit := within.commit
      simp only [send, learnedCommit]
      rw [lastIndex] at learned
      split
      · omega
      · rfl

/-- However often such messages come, whatever their term. -/
theorem Informed.deliveries (contiguous : Contiguous (msg.prevLogIndex + 1) msg.entries)
    (again : List Message) (within : ∀ msg' ∈ again, msg'.Within msg) (h : r.Informed msg)
    (role : r.role ≠ .leader) : r.SameLog (again.foldl step r) := by
  induction again generalizing r with
  | nil => exact ⟨rfl, rfl, rfl⟩
  | cons msg' again ih =>
      have first := within msg' (by simp)
      have kept : r.SameLog (r.step msg') ∧ (r.step msg').role ≠ .leader := by
        rcases Nat.lt_or_ge msg'.term r.currentTerm with older | heard
        · rw [step, if_neg (by omega), if_pos older, rejectStale, first.type]
          exact ⟨⟨rfl, rfl, rfl⟩, role⟩
        · obtain ⟨r', steps, same, follows⟩ : ∃ r', r.step msg' = r'.handleAppendEntries msg' ∧
              r.SameLog r' ∧ r'.role = .follower := by
            refine ⟨_, step_heard first.type role heard, ?_⟩
            exact ⟨⟨rfl, rfl, rfl⟩, rfl⟩
          obtain ⟨same', isRole⟩ := (same.informed h).handleAppendEntries first contiguous
          rw [steps, isRole, follows]
          refine ⟨same.trans same', ?_⟩
          rintro ⟨⟩
      exact kept.1.trans (ih (fun m member => within m (List.mem_cons_of_mem _ member))
        (kept.1.informed h) kept.2)

/-! ## The merge -/

/-- An AppendEntries is rejected, or leaves the log up to its first conflict
    followed by its own entries, or without a conflict the log and the entries it
    lacked. Once delivered it has nothing more to change, and nor has a message
    with fewer entries. -/
theorem appendEntries_merges (r : Raft) (msg : Message) (role : r.role ≠ .leader)
    (nonempty : r.log ≠ []) (type : msg.type = .appendEntries) (term : msg.term = r.currentTerm)
    (contiguous : Contiguous (msg.prevLogIndex + 1) msg.entries) :
    (r.Rejects msg → r.SameLog (r.step msg) ∧
      (r.step msg).outMsgs = r.outMsgs ++ [r.appendReply msg false 0]) ∧
    (¬ r.Rejects msg →
      (∀ c, r.Conflict msg c → (∀ i < c, ¬ r.Conflict msg i) →
        (r.step msg).log = r.log.take c ++ msg.entries.drop (c - (msg.prevLogIndex + 1)) ∧
          (r.step msg).stableIndex = min r.stableIndex (c - 1)) ∧
      ((∀ c, ¬ r.Conflict msg c) →
        (r.step msg).log = r.log ++ msg.entries.drop (r.lastIndex - msg.prevLogIndex) ∧
          (r.step msg).stableIndex = r.stableIndex) ∧
      (r.step msg).outMsgs =
        r.outMsgs ++ [r.appendReply msg true (msg.prevLogIndex + msg.entries.length)]) ∧
    ∀ again : List Message, (∀ msg' ∈ again, msg'.Within msg) →
      (r.step msg).SameLog (again.foldl step (r.step msg)) := by
  have steps : r.step msg = { r with role := .follower }.handleAppendEntries msg := by
    rw [step_heard type role (by omega)]
    simp [term]
  refine ⟨?_, ?_, ?_⟩
  · intro reject
    have reject' : { r with role := .follower }.Rejects msg := reject
    rw [steps, handleAppendEntries_reject reject']
    exact ⟨⟨rfl, rfl, rfl⟩, rfl⟩
  · intro accept
    have accept' : ¬ { r with role := .follower }.Rejects msg := accept
    rw [steps, handleAppendEntries_accept accept' nonempty contiguous]
    refine ⟨?_, ?_, rfl⟩
    · intro c conflict first
      have found : firstConflict r.log (msg.prevLogIndex + 1) msg.entries = some c := by
        cases isFound : firstConflict r.log (msg.prevLogIndex + 1) msg.entries with
        | none => exact absurd conflict (firstConflict_none isFound c)
        | some c' =>
            obtain ⟨conflict', first'⟩ := firstConflict_some isFound
            have : ¬ c' < c := fun lower => first c' lower conflict'
            have : ¬ c < c' := fun lower => first' c lower conflict
            rw [Option.some.injEq]
            omega
      simp only [send, splice, spliceStable, found]
      exact ⟨trivial, trivial⟩
    · intro none
      have found : firstConflict r.log (msg.prevLogIndex + 1) msg.entries = Option.none := by
        cases isFound : firstConflict r.log (msg.prevLogIndex + 1) msg.entries with
        | none => rfl
        | some c => exact absurd (firstConflict_some isFound).1 (none c)
      simp only [send, splice, spliceStable, found, lastIndex, and_true]
      rw [Nat.sub_sub, Nat.add_comm 1]
  · intro again within
    rw [steps]
    refine Informed.deliveries contiguous again within
      (handleAppendEntries_informed nonempty contiguous) ?_
    by_cases reject : { r with role := .follower }.Rejects msg
    · rw [handleAppendEntries_reject reject]
      rintro ⟨⟩
    · rw [handleAppendEntries_accept reject nonempty contiguous]
      rintro ⟨⟩

/-- A follower with two entries of an older term that nobody else has. -/
def diverged : Raft :=
  { config := { id := 2, peers := [1, 2, 3] }
    currentTerm := 2
    log := [{}, { term := 1, index := 1 }, { term := 1, index := 2 }, { term := 1, index := 3 }]
    stableIndex := 3 }

def overwriting : Message :=
  { type := .appendEntries
    fromNode := 1
    toNode := 2
    term := 2
    prevLogIndex := 1
    prevLogTerm := 1
    entries := [{ term := 2, index := 2 }] }

theorem appendEntries_merges_overwriting :
    ((diverged.step overwriting).log =
        [{}, { term := 1, index := 1 }, { term := 2, index := 2 }] ∧
      (diverged.step overwriting).stableIndex = 1) ∧
    (diverged.step overwriting).SameLog ([overwriting].foldl step (diverged.step overwriting)) := by
  obtain ⟨-, merged, again⟩ := appendEntries_merges diverged overwriting (by decide) (by decide) rfl
    rfl ⟨rfl, trivial⟩
  have accept : ¬ diverged.Rejects overwriting := by
    rw [Rejects]
    decide
  have conflict : diverged.Conflict overwriting 2 := ⟨by decide, by decide, _, rfl, by decide⟩
  have first : ∀ i < 2, ¬ diverged.Conflict overwriting i := by
    intro i before conflict
    have behind : 1 < i := conflict.behind
    omega
  refine ⟨(merged accept).1 2 conflict first, again [overwriting] ?_⟩
  intro msg' member
  obtain rfl : msg' = overwriting := by simpa using member
  exact ⟨rfl, rfl, rfl, List.prefix_rfl, le_rfl⟩

end Raft

end MiniLsm
