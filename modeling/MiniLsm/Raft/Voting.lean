import MiniLsm.Raft.Process

/-! # Votes across crashes

A node that ticks and answers RequestVotes. Each operation is followed by a
`Save`; only when that returns OK do the queued messages leave. A crash leaves a
prefix of the storage file with at least the synced bytes, and the node comes
back with what that replays to.
-/

namespace MiniLsm

open Wal

inductive Operation where
  | tick
  | requestVote (msg : Message)
  deriving Repr, DecidableEq

def Operation.apply (op : Operation) (r : Raft) : Raft :=
  match op with
  | .tick => r.tick
  | .requestVote msg => r.step msg

structure Voter where
  process : Process
  /-- Every message that left the node. -/
  left : List Message

inductive Incident where
  /-- An operation and its `Save`, with the error of the `Sync` if that fails. -/
  | operate (op : Operation) (fault : Option String)
  /-- A crash that leaves the synced bytes and up to `kept` more, and a restart. A
      crash inside a `Save` is one whose `Sync` fails, and then this. -/
  | crash (kept : Nat)
  deriving Repr, DecidableEq

/-- The process with a file of which the first `n` bytes are left. -/
def Process.cut (p : Process) (n : Nat) : Process :=
  let file := p.storage.writer.dest
  { p with storage := { p.storage with writer := { p.storage.writer with
      dest := { file with contents := file.contents.take n } } } }

namespace Voter

def start (config : Config) : Voter := { process := Process.fresh config, left := [] }

/-- The storage file. -/
def file (v : Voter) : WritableFile := v.process.storage.writer.dest

/-- The node after an operation, before its `Save`. -/
def operated (v : Voter) (op : Operation) : Process :=
  { v.process with raft := op.apply v.process.raft }

def next (v : Voter) : Incident → Voter
  | .operate op fault =>
      let (s, p) := (v.operated op).save fault
      if s.isOk then
        let (msgs, raft) := p.raft.takeMessages
        { process := { p with raft }, left := v.left ++ msgs }
      else { v with process := p }
  | .crash kept => { v with process := (v.process.cut (v.file.synced + kept)).reopen }

def run (config : Config) (incidents : List Incident) : Voter :=
  incidents.foldl next (start config)

end Voter

/-- The reply that grants a vote. -/
def Message.Grants (msg : Message) : Prop := msg.type = .requestVoteResp ∧ msg.voteGranted = true

/-- A RequestVote of a node; ids are 1-based. -/
structure Message.RequestsVote (msg : Message) : Prop where
  type : msg.type = .requestVote
  candidate : msg.fromNode ≠ 0

def Operation.Valid : Operation → Prop
  | .tick => True
  | .requestVote msg => msg.RequestsVote

def Incident.Valid : Incident → Prop
  | .operate op _ => op.Valid
  | .crash _ => True

/-! ## The order of hard states -/

def Raft.hardState (r : Raft) : HardState := { term := r.currentTerm, vote := r.votedFor }

namespace HardState

/-- A later state of the same node: a greater term, or the same term and a vote
    that was not taken back. -/
def Precedes (hs hs' : HardState) : Prop :=
  hs.term < hs'.term ∨ hs.term = hs'.term ∧ (hs.vote = 0 ∨ hs'.vote = hs.vote)

theorem Precedes.refl (hs : HardState) : hs.Precedes hs := Or.inr ⟨rfl, Or.inr rfl⟩

theorem Precedes.trans {a b c : HardState} (h : a.Precedes b) (h' : b.Precedes c) :
    a.Precedes c := by
  rcases h with lower | ⟨same, vote⟩
  · rcases h' with lower' | ⟨same', -⟩ <;> exact Or.inl (by omega)
  · rcases h' with lower' | ⟨same', vote'⟩
    · exact Or.inl (by omega)
    · refine Or.inr ⟨by omega, ?_⟩
      rcases vote with none | kept
      · exact Or.inl none
      · rw [kept] at vote'
        exact vote'

/-- A node in this state can not grant a vote that contradicts the message. -/
def Covers (hs : HardState) (msg : Message) : Prop :=
  msg.term < hs.term ∨ msg.term = hs.term ∧ hs.vote = msg.toNode

theorem Covers.later {hs hs' : HardState} {msg : Message} (h : hs.Covers msg)
    (candidate : msg.toNode ≠ 0) (precedes : hs.Precedes hs') : hs'.Covers msg := by
  rcases precedes with lower | ⟨same, vote⟩
  · rcases h with before | ⟨term, -⟩ <;> exact Or.inl (by omega)
  · rcases h with before | ⟨term, voted⟩
    · exact Or.inl (by omega)
    · refine Or.inr ⟨by omega, ?_⟩
      rcases vote with none | kept
      · exact absurd (voted.symm.trans none) candidate
      · exact kept.trans voted

end HardState

/-! ## What an operation does -/

/-- The effect of a tick or a RequestVote on what votes depend on. -/
structure Raft.Ballots (r r' : Raft) : Prop where
  log : r'.log = r.log
  stable : r'.stableIndex = r.stableIndex
  precedes : r.hardState.Precedes r'.hardState
  hard : r'.hardStateDirty = false → r.hardStateDirty = false ∧ r'.hardState = r.hardState
  out : ∃ new, r'.outMsgs = r.outMsgs ++ new ∧ ∀ msg ∈ new, msg.Grants →
    msg.term = r'.currentTerm ∧ msg.toNode = r'.votedFor ∧ msg.toNode ≠ 0

namespace Raft

variable {r : Raft} {msg : Message}

theorem handleRequestVote_ballots (h : msg.RequestsVote) :
    r.Ballots (r.handleRequestVote msg) := by
  rw [handleRequestVote]
  dsimp only [send]
  split
  · rename_i granted
    have free : r.votedFor = 0 ∨ r.votedFor = msg.fromNode := by
      simp only [Bool.and_eq_true, Bool.or_eq_true, beq_iff_eq] at granted
      exact granted.1
    refine ⟨rfl, rfl, Or.inr ⟨rfl, free.imp_right Eq.symm⟩, by simp, _, rfl, ?_⟩
    intro m inside _
    rw [List.mem_singleton.mp inside]
    exact ⟨rfl, rfl, h.candidate⟩
  · rename_i refused
    refine ⟨rfl, rfl, HardState.Precedes.refl _, fun clean => ⟨clean, rfl⟩, _, rfl, ?_⟩
    intro m inside grants
    rw [List.mem_singleton.mp inside] at grants
    exact absurd grants.2 refused

theorem stepRole_requestVote (h : msg.RequestsVote) : r.stepRole msg = r.handleRequestVote msg := by
  rw [stepRole]
  cases r.role with
  | follower => simp only [stepFollower, h.type]
  | candidate => simp only [stepCandidate, h.type]
  | leader => simp only [stepLeader, h.type]

theorem step_ballots (h : msg.RequestsVote) : r.Ballots (r.step msg) := by
  rw [step]
  split
  · rename_i later
    rw [stepRole_requestVote h]
    obtain ⟨log, stable, precedes, hard, out⟩ := @handleRequestVote_ballots
      (r.becomeFollower msg.term (if msg.type = .appendEntries then msg.fromNode else 0)) msg h
    have down : (r.becomeFollower msg.term (if msg.type = .appendEntries then msg.fromNode else 0)) =
        { r with
          currentTerm := msg.term, votedFor := 0, hardStateDirty := true, role := .follower
          leader := if msg.type = .appendEntries then msg.fromNode else 0, electionElapsed := 0 } := by
      rw [becomeFollower, if_pos later]
    rw [down] at log stable precedes hard out ⊢
    refine ⟨log, stable, ?_, ?_, out⟩
    · refine HardState.Precedes.trans ?_ precedes
      exact Or.inl later
    · intro clean
      exact absurd (hard clean).1 (by simp)
  · split
    · rw [rejectStale]
      simp only [h.type]
      refine ⟨rfl, rfl, HardState.Precedes.refl _, fun clean => ⟨clean, rfl⟩, _, rfl, ?_⟩
      intro m inside grants
      rw [List.mem_singleton.mp inside] at grants
      exact absurd grants.2 (by simp)
    · rw [stepRole_requestVote h]
      exact handleRequestVote_ballots h

theorem tick_ballots (r : Raft) : r.Ballots r.tick := by
  have appends (r : Raft) : ∀ m ∈ r.others.map r.appendEntriesTo, ¬ m.Grants := by
    intro m inside grants
    obtain ⟨p, -, rfl⟩ := List.mem_map.mp inside
    exact absurd grants.1 (by simp [appendEntriesTo])
  have requests (r : Raft) : ∀ m ∈ r.others.map r.requestVoteTo, ¬ m.Grants := by
    intro m inside grants
    obtain ⟨p, -, rfl⟩ := List.mem_map.mp inside
    exact absurd grants.1 (by simp [requestVoteTo])
  rw [tick]
  dsimp only
  split
  · split
    · rw [broadcastAppendEntries_eq]
      exact ⟨rfl, rfl, HardState.Precedes.refl _, fun clean => ⟨clean, rfl⟩, _, rfl,
        fun m inside grants => absurd grants (appends _ m inside)⟩
    · exact ⟨rfl, rfl, HardState.Precedes.refl _, fun clean => ⟨clean, rfl⟩, [], by simp, by simp⟩
  · split
    · rw [becomeCandidate]
      split
      · rw [becomeLeader, resetProgress_eq, broadcastAppendEntries_eq]
        exact ⟨rfl, rfl, Or.inl (Nat.lt_succ_self _), by simp, _, rfl,
          fun m inside grants => absurd grants (appends _ m inside)⟩
      · rw [requestVotes_eq]
        exact ⟨rfl, rfl, Or.inl (Nat.lt_succ_self _), by simp, _, rfl,
          fun m inside grants => absurd grants (requests _ m inside)⟩
    · exact ⟨rfl, rfl, HardState.Precedes.refl _, fun clean => ⟨clean, rfl⟩, [], by simp, by simp⟩

theorem operation_ballots {op : Operation} (valid : op.Valid) (r : Raft) :
    r.Ballots (op.apply r) := by
  cases op with
  | tick => exact tick_ballots r
  | requestVote msg => exact step_ballots valid

end Raft

/-! ## The file of a voter -/

def HardState.item (hs : HardState) : Item := .hardState hs.term hs.vote

/-- The hard state a file with these records replays to. -/
def latest (states : List HardState) : HardState := states.getLastD {}

theorem latest_concat (states : List HardState) (hs : HardState) :
    latest (states ++ [hs]) = hs := by
  simp [latest]

theorem journalState_hardStates (states : List HardState) :
    journalState (states.map HardState.item) = { hs := latest states, entries := [] } := by
  induction states using List.reverseRecOn with
  | nil => rfl
  | append_singleton states hs ih =>
      rw [List.map_append, journalState_append, ih, latest_concat]
      rfl

/-- Without entries a `Save` writes only the hard state. -/
theorem savedItems_single {raft : Raft} (single : raft.log.length = 1)
    (stable : raft.stableIndex = 0) :
    RaftStorage.savedItems raft 0 = RaftStorage.hardStateItems raft := by
  have nonempty : raft.log ≠ [] := List.length_pos_iff.mp (by omega)
  have none : raft.log.drop (min 0 raft.stableIndex + 1) = [] :=
    List.drop_eq_nil_of_le (by omega)
  rw [RaftStorage.savedItems, RaftStorage.entriesFrom_eq nonempty, none,
    RaftStorage.truncationItems, if_neg (by omega)]
  simp

/-- The file of a voter holds its hard states in order, and those that are
    synced cover every vote that left. -/
structure Recorded (v : Voter) (states : List HardState) : Prop where
  aligned : v.process.storage.writer.Aligned
  syncs : v.file.syncFaults = []
  log : IsLog v.file.contents
  synced : v.file.synced ≤ v.file.contents.length
  records : recordsOf v.file.contents = (states.map HardState.item).map Item.record
  fits : ∀ item ∈ states.map HardState.item, item.Fits
  ordered : ∀ short long, short <+: long → long <+: states → (latest short).Precedes (latest long)
  single : v.process.raft.log.length = 1
  stable : v.process.raft.stableIndex = 0
  persisted : v.process.storage.persistedIndex = 0
  node : (latest states).Precedes v.process.raft.hardState
  clean : v.process.raft.hardStateDirty = false → latest states = v.process.raft.hardState
  durable : ∃ short, short <+: states ∧
    recordsOf (v.file.contents.take v.file.synced) = (short.map HardState.item).map Item.record ∧
    ∀ m ∈ v.left, m.Grants → (latest short).Covers m
  covered : ∀ m ∈ v.left ++ v.process.raft.outMsgs, m.Grants →
    m.toNode ≠ 0 ∧ v.process.raft.hardState.Covers m
  agree : ∀ m ∈ v.left ++ v.process.raft.outMsgs, ∀ m' ∈ v.left ++ v.process.raft.outMsgs,
    m.Grants → m'.Grants → m.term = m'.term → m.toNode = m'.toNode

namespace Recorded

variable {v : Voter} {states : List HardState}

theorem start (config : Config) : Recorded (Voter.start config) [] where
  aligned := Writer.new_aligned rfl
  syncs := rfl
  log := isLog_nil
  synced := le_rfl
  records := recordsOf_nil
  fits := by simp
  ordered := by
    intro short long before inside
    rw [List.prefix_nil.mp inside] at before ⊢
    rw [List.prefix_nil.mp before]
    exact HardState.Precedes.refl _
  single := rfl
  stable := rfl
  persisted := rfl
  node := HardState.Precedes.refl _
  clean := fun _ => rfl
  durable := ⟨[], List.prefix_rfl, recordsOf_nil, by simp [Voter.start]⟩
  covered := by simp [Voter.start, Process.fresh, Raft.new]
  agree := by simp [Voter.start, Process.fresh, Raft.new]

/-- The hard states that a cut leaves. -/
theorem cut (h : Recorded v states) (n : Nat) :
    ∃ fewer, fewer <+: states ∧
      recordsOf (v.file.contents.take n) = (fewer.map HardState.item).map Item.record := by
  have read := h.log.recordsOf_mono (List.take_prefix n _)
  rw [h.records] at read
  refine ⟨states.take (recordsOf (v.file.contents.take n)).length, List.take_prefix _ _, ?_⟩
  rw [List.map_take, List.map_take]
  exact List.prefix_iff_eq_take.mp read

/-- A node that restarts on a file with these hard states. -/
theorem reopen {p : Process} (appends : p.storage.writer.dest.Appends)
    (syncs : p.storage.writer.dest.syncFaults = [])
    (records : recordsOf p.storage.writer.dest.contents =
      (states.map HardState.item).map Item.record)
    (fits : ∀ item ∈ states.map HardState.item, item.Fits) :
    p.reopen =
      { raft := (Raft.new p.raft.config).restore (latest states).term (latest states).vote []
        storage :=
          { writer := Writer.new p.storage.writer.dest p.storage.writer.dest.contents.length
            recovered := { hs := latest states } } } := by
  have sound : p.place.Sound := ⟨rfl, rfl, rfl, rfl, rfl, appends, syncs⟩
  have replayed : (recordsOf p.place.contents).foldl Recovered.replay {} =
      { hs := latest states, entries := [] } := by
    have contents : p.place.contents = p.storage.writer.dest.contents := rfl
    rw [contents, records, replay_journal fits, journalState_hardStates]
  rw [Process.reopen, RaftStorage.openAt_eq sound, replayed]
  rfl

/-- A restart after a crash: the hard states that are left cover the votes. -/
theorem crash (h : Recorded v states) (kept : Nat) :
    ∃ fewer, Recorded (v.next (.crash kept)) fewer := by
  obtain ⟨fewer, inside, records⟩ := h.cut (v.file.synced + kept)
  obtain ⟨short, shortInside, shortRecords, covers⟩ := h.durable
  have within : (v.file.contents.take (v.file.synced + kept)).take v.file.synced =
      v.file.contents.take v.file.synced := by
    rw [List.take_take, Nat.min_eq_left (by omega)]
  have fits : ∀ item ∈ fewer.map HardState.item, item.Fits :=
    fun item member => h.fits item ((inside.map _).subset member)
  have shorter : short <+: fewer := by
    refine List.prefix_of_prefix_length_le shortInside inside ?_
    have read := (h.log.cut (List.take_prefix (v.file.synced + kept) _)).recordsOf_mono
      (List.take_prefix v.file.synced _)
    rw [within, shortRecords, records] at read
    simpa using read.length_le
  have reopened := @reopen fewer (v.process.cut (v.file.synced + kept)) h.aligned.appends h.syncs
    records fits
  have left : ∀ m ∈ v.left, m.Grants → m.toNode ≠ 0 ∧ (latest fewer).Covers m := by
    intro m member grants
    obtain ⟨candidate, -⟩ := h.covered m (List.mem_append_left _ member) grants
    exact ⟨candidate, (covers m member grants).later candidate
      (h.ordered short fewer shorter inside)⟩
  refine ⟨fewer, ?_⟩
  rw [Voter.next, reopened]
  exact {
    aligned := Writer.new_aligned h.aligned.appends
    syncs := h.syncs
    log := h.log.cut (List.take_prefix _ _)
    synced := by
      show v.file.synced ≤ (v.file.contents.take (v.file.synced + kept)).length
      have := h.synced
      rw [List.length_take]
      omega
    records := records
    fits := fits
    ordered := fun a b before within => h.ordered a b before (within.trans inside)
    single := rfl
    stable := rfl
    persisted := rfl
    node := HardState.Precedes.refl _
    clean := fun _ => rfl
    durable := ⟨short, shorter, (congrArg recordsOf within).trans shortRecords, covers⟩
    covered := fun m member => left m (by simpa [Raft.restore, Raft.new] using member)
    agree := by
      intro m member m' member'
      refine h.agree m (List.mem_append_left _ ?_) m' (List.mem_append_left _ ?_)
      · simpa [Raft.restore, Raft.new] using member
      · simpa [Raft.restore, Raft.new] using member' }

/-- The messages after an operation: the new state covers them all, and they
    still agree. -/
theorem messages (h : Recorded v states) {r : Raft} (b : v.process.raft.Ballots r) :
    (∀ m ∈ v.left ++ r.outMsgs, m.Grants → m.toNode ≠ 0 ∧ r.hardState.Covers m) ∧
      ∀ m ∈ v.left ++ r.outMsgs, ∀ m' ∈ v.left ++ r.outMsgs,
        m.Grants → m'.Grants → m.term = m'.term → m.toNode = m'.toNode := by
  obtain ⟨new, out, exact⟩ := b.out
  rw [out, ← List.append_assoc]
  have covered : ∀ m ∈ v.left ++ v.process.raft.outMsgs ++ new, m.Grants →
      m.toNode ≠ 0 ∧ r.hardState.Covers m := by
    intro m member grants
    rcases List.mem_append.mp member with old | fresh
    · obtain ⟨candidate, covers⟩ := h.covered m old grants
      exact ⟨candidate, covers.later candidate b.precedes⟩
    · obtain ⟨term, vote, candidate⟩ := exact m fresh grants
      exact ⟨candidate, Or.inr ⟨term, vote.symm⟩⟩
  -- a new vote is the one the state holds, which covers all others of its term
  have current : ∀ m ∈ new, ∀ m' ∈ v.left ++ v.process.raft.outMsgs ++ new,
      m.Grants → m'.Grants → m.term = m'.term → m.toNode = m'.toNode := by
    intro m fresh m' member grants grants' same
    obtain ⟨term, vote, -⟩ := exact m fresh grants
    rcases (covered m' member grants').2 with lower | ⟨-, voted⟩
    · have : m'.term < r.currentTerm := lower
      omega
    · exact vote.trans voted
  refine ⟨covered, ?_⟩
  intro m member m' member' grants grants' same
  rcases List.mem_append.mp member with old | fresh
  · rcases List.mem_append.mp member' with old' | fresh'
    · exact h.agree m old m' old' grants grants' same
    · exact (current m' fresh' m member grants' grants same.symm).symm
  · exact current m fresh m' member' grants grants' same

/-- What the hard state record of a `Save` adds to a file that does not end
    inside a fragment. -/
theorem appended (h : Recorded v states) {r : Raft} (b : v.process.raft.Ballots r)
    (fits : r.currentTerm < UInt64.size ∧ r.votedFor < UInt64.size)
    (whole : r.hardStateDirty = true → endsInRecord 0 v.file.contents = false) :
    ∃ more, states <+: more ∧ latest more = r.hardState ∧
      (∀ item ∈ more.map HardState.item, item.Fits) ∧
      (∀ short long, short <+: long → long <+: more → (latest short).Precedes (latest long)) ∧
      IsLog (v.file.contents ++ encodedAll v.file.contents.length
        ((RaftStorage.hardStateItems r).map Item.record)) ∧
      recordsOf (v.file.contents ++ encodedAll v.file.contents.length
        ((RaftStorage.hardStateItems r).map Item.record)) =
          (more.map HardState.item).map Item.record := by
  cases dirty : r.hardStateDirty with
  | false =>
      obtain ⟨clean, same⟩ := b.hard dirty
      have nothing : RaftStorage.hardStateItems r = [] := by simp [RaftStorage.hardStateItems, dirty]
      refine ⟨states, List.prefix_rfl, (h.clean clean).trans same.symm, h.fits, h.ordered, ?_⟩
      rw [nothing, List.map_nil, encodedAll, List.append_nil]
      exact ⟨h.log, h.records⟩
  | true =>
      have one : RaftStorage.hardStateItems r = [r.hardState.item] := by
        simp [RaftStorage.hardStateItems, dirty, HardState.item, Raft.hardState]
      obtain ⟨log, read, -⟩ := h.log.resume (whole dirty)
        ((RaftStorage.hardStateItems r).map Item.record)
      refine ⟨states ++ [r.hardState], List.prefix_append _ _, latest_concat _ _, ?_, ?_, log, ?_⟩
      · intro item member
        rw [List.map_append, List.mem_append] at member
        rcases member with old | new
        · exact h.fits item old
        · rw [List.mem_singleton.mp new]
          exact fits
      · intro short long before inside
        rcases List.prefix_concat_iff.mp inside with rfl | earlier
        · rcases List.prefix_concat_iff.mp before with rfl | earlier
          · exact HardState.Precedes.refl _
          · rw [latest_concat]
            exact ((h.ordered short states earlier List.prefix_rfl).trans h.node).trans b.precedes
        · exact h.ordered short long before earlier
      · rw [read, h.records, one, List.map_append, List.map_append]
        rfl

theorem operate (h : Recorded v states) {op : Operation} (valid : op.Valid)
    (fits : (v.operated op).raft.currentTerm < UInt64.size ∧ (v.operated op).raft.votedFor < UInt64.size)
    (whole : (v.operated op).raft.hardStateDirty = true → endsInRecord 0 v.file.contents = false)
    (fault : Option String) : ∃ more, Recorded (v.next (.operate op fault)) more := by
  have b : v.process.raft.Ballots (v.operated op).raft := Raft.operation_ballots valid _
  have single : (v.operated op).raft.log.length = 1 := by rw [b.log]; exact h.single
  have stable : (v.operated op).raft.stableIndex = 0 := by rw [b.stable]; exact h.stable
  obtain ⟨covered, agree⟩ := h.messages b
  obtain ⟨more, extends_, newest, fits', ordered, log, records⟩ := h.appended b fits whole
  obtain ⟨w, aligned, syncs, contents, synced, saved⟩ :=
    (v.operated op).save_eq h.aligned fault
  have items : RaftStorage.savedItems (v.operated op).raft (v.operated op).storage.persistedIndex =
      RaftStorage.hardStateItems (v.operated op).raft := by
    have persisted : (v.operated op).storage.persistedIndex = 0 := h.persisted
    rw [persisted, savedItems_single single stable]
  have contents : w.dest.contents = v.file.contents ++ encodedAll v.file.contents.length
      ((RaftStorage.hardStateItems (v.operated op).raft).map Item.record) := by
    rw [contents, items]
    rfl
  rw [← contents] at log records
  refine ⟨more, ?_⟩
  cases fault with
  | none =>
      have next : v.next (.operate op none) =
          { process :=
              { raft := { (v.operated op).raft with
                  hardStateDirty := false
                  stableIndex := (v.operated op).raft.lastIndex
                  outMsgs := [] }
                storage := { (v.operated op).storage with
                  writer := w, persistedIndex := (v.operated op).raft.lastIndex } }
            left := v.left ++ (v.operated op).raft.outMsgs } := by
        simp [Voter.next, saved, Raft.takeMessages]
      have last : (v.operated op).raft.lastIndex = 0 := by simp [Raft.lastIndex, single]
      have whole : recordsOf (w.dest.contents.take w.dest.synced) =
          (more.map HardState.item).map Item.record := by
        rw [synced, if_pos rfl, List.take_length, records]
      rw [next]
      exact {
        aligned, syncs, log, records, ordered, single
        fits := fits'
        synced := le_of_eq synced
        stable := last
        persisted := last
        node := newest ▸ HardState.Precedes.refl _
        clean := fun _ => newest
        durable := ⟨more, List.prefix_rfl, whole, fun m member grants =>
          newest ▸ (covered m member grants).2⟩
        covered := fun m member => covered m (by simpa using member)
        agree := fun m member m' member' =>
          agree m (by simpa using member) m' (by simpa using member') }
  | some msg =>
      have next : v.next (.operate op (some msg)) =
          { process :=
              { raft := { (v.operated op).raft with hardStateDirty := false }
                storage := { (v.operated op).storage with
                  writer := w
                  persistedIndex := min (v.operated op).storage.persistedIndex
                    (v.operated op).raft.stableIndex } }
            left := v.left } := by
        simp [Voter.next, saved]
      obtain ⟨short, inside, shortRecords, covers⟩ := h.durable
      have synced : w.dest.synced = v.file.synced := synced
      have within : w.dest.contents.take w.dest.synced = v.file.contents.take v.file.synced := by
        rw [synced, contents, List.take_append_of_le_length h.synced]
      rw [next]
      exact {
        aligned, syncs, log, records, ordered, single, stable, covered, agree
        fits := fits'
        synced := by
          show w.dest.synced ≤ w.dest.contents.length
          rw [synced, contents, List.length_append]
          exact h.synced.trans (Nat.le_add_right _ _)
        persisted := by
          show min _ (v.operated op).raft.stableIndex = 0
          rw [stable, Nat.min_zero]
        node := newest ▸ HardState.Precedes.refl _
        clean := fun _ => newest
        durable := ⟨short, inside.trans extends_, (congrArg recordsOf within).trans shortRecords,
          covers⟩ }

end Recorded

/-! ## Runs -/

section Runs

variable {config : Config} {incidents : List Incident}

end Runs

end MiniLsm
