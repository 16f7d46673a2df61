import MiniLsm.Raft.SingleNode
import MiniLsm.Raft.Replicas

/-! # The cursor of a single node

`applied_index_` is set by the replay of `Open` from the entries it recovers, and
by `ApplyCommitted` from a commit index that a restart forgets. The two agree as
long as there was nothing to recover.
-/

namespace MiniLsm

variable {db : ReplicatedDB} {history : List Op}

namespace ReplicatedDB

/-- The cursor is the last index, and the table the one of the entries up to it. -/
structure Described (db : ReplicatedDB) : Prop where
  table : db.table = (commands db.appliedLog).foldl applyCommand Table.empty
  last : db.appliedIndex = db.raft.lastIndex

/-- The cursor before a request. For a reopen it is the one that the replay of
    `Open` sets. -/
def cursorBefore (id : NodeId) (db : ReplicatedDB) : Request → Nat
  | .reopen =>
      match RaftStorage.openAt db.place with
      | .ok storage => (rebuilt storage id [id]).appliedIndex
      | .error _ => db.appliedIndex
  | .put _ _ | .delete _ | .get _ => db.appliedIndex

/-- The store after requests. -/
def after (id : NodeId) (db : ReplicatedDB) (requests : List Request) : ReplicatedDB :=
  (answers (serve id) db requests).2

theorem after_concat (id : NodeId) (db : ReplicatedDB) (requests : List Request)
    (request : Request) :
    db.after id (requests ++ [request]) = ((db.after id requests).serve id request).2 := by
  rw [after, answers_concat]
  rfl

/-- The cursor describes the table in every state of a run, and no session moves
    it back. -/
structure CursorSound (id : NodeId) (db : ReplicatedDB) (requests : List Request) : Prop where
  described : ∀ before, before <+: requests → (db.after id before).Described
  kept : ∀ before request, before ++ [request] <+: requests →
    (db.after id before).cursorBefore id request ≤ (db.after id (before ++ [request])).appliedIndex

end ReplicatedDB

/-- Between calls the cursor is right when everything is committed. -/
theorem Idle.described_iff (h : Idle db history) :
    db.Described ↔ db.raft.commitIndex = db.raft.lastIndex := by
  constructor
  · intro described
    rw [← h.applied]
    exact described.last
  · intro committed
    have last : db.appliedIndex = db.raft.lastIndex := h.applied.trans committed
    refine ⟨?_, last⟩
    have whole : db.appliedLog = db.raft.log.drop 1 := by
      rw [ReplicatedDB.appliedLog, last]
      exact List.take_of_length_le (le_of_eq List.length_drop)
    rw [whole, ← foldl_applyEntry, h.log.apply, h.table_eq]

/-- A write leaves everything committed, and one entry more. -/
theorem Idle.write_committed (h : Idle db history) {op : Op} (short : op.Short) :
    (db.write op.record).2.raft.commitIndex = (db.write op.record).2.raft.lastIndex ∧
      db.raft.lastIndex < (db.write op.record).2.raft.lastIndex := by
  obtain ⟨live, committed⟩ := h.live.proposed short
  obtain ⟨items, file⟩ := live.file
  obtain ⟨-, storage, synced, -⟩ := live.sync_file file
  obtain ⟨e, -, -, proposed⟩ := Raft.propose_single h.leads h.peers h.nonempty h.commit op.record
  rw [ReplicatedDB.write_leader h.leads, synced]
  refine ⟨committed, ?_⟩
  show db.raft.lastIndex < (db.raft.propose op.record).2.lastIndex
  rw [← committed, proposed]
  exact Nat.lt_succ_self _

/-- A reopen forgets the commit index and recovers no fewer entries. -/
theorem Idle.reopen_forgets (h : Idle db history) (id : NodeId) :
    ∃ db', db.reopen id = (.ok, db') ∧ Idle db' history ∧ db'.raft.commitIndex = 0 ∧
      db.raft.lastIndex ≤ db'.raft.lastIndex := by
  obtain ⟨items, files⟩ := h.filed
  obtain ⟨-, -, db', -, -, isOpen, idle, commit, log, -⟩ := files.closed.opened rfl id
  refine ⟨db', by rw [ReplicatedDB.reopen, ReplicatedDB.place, isOpen], idle, commit, ?_⟩
  rw [← h.stored, Raft.lastIndex, log]
  exact files.persisted

/-- A store to which nothing was ever written. -/
structure Unwritten (db : ReplicatedDB) : Prop extends Idle db [] where
  empty : ∃ items, Files db.storage items [] [] ∧ (journalState items).entries = []

namespace Unwritten

theorem lastIndex (h : Unwritten db) : db.raft.lastIndex = 0 := by
  obtain ⟨items, files, none⟩ := h.empty
  have := files.persisted
  rw [h.stored, none] at this
  exact Nat.le_zero.mp this

theorem committed (h : Unwritten db) : db.raft.commitIndex = db.raft.lastIndex := by
  have := h.commit
  rw [h.lastIndex] at this ⊢
  exact Nat.le_zero.mp this

/-- Opening a store without entries. -/
theorem opened {p : Place} {file : WritableFile} {items : List Item} (h : Closed file items [])
    (none : (journalState items).entries = [])
    (found : RaftStorage.openAt p = RaftStorage.openAt { file := some file }) (id : NodeId) :
    ∃ storage db, RaftStorage.openAt p = .ok storage ∧
      (ReplicatedDB.rebuilt storage id [id]).appliedIndex = 0 ∧
      ReplicatedDB.openAt p id [id] = .ok db ∧ Unwritten db := by
  obtain ⟨storage, items', db, isFound, recovered, isOpen, idle, -, -, files, size⟩ :=
    h.opened found id
  refine ⟨storage, db, isFound, ?_, isOpen, idle, items', files, ?_⟩
  · simp [ReplicatedDB.rebuilt, RaftStorage.recover, recovered, none]
  · rw [none] at size
    exact List.eq_nil_of_length_eq_zero (by simpa using size)

theorem reopen (h : Unwritten db) (id : NodeId) :
    db.cursorBefore id .reopen = 0 ∧ Unwritten (db.serve id .reopen).2 := by
  obtain ⟨items, files, none⟩ := h.empty
  obtain ⟨storage, db', found, cursor, isOpen, unwritten⟩ := opened files.closed none rfl id
  have place : db.place = { file := some db.storage.writer.dest } := rfl
  constructor
  · rw [ReplicatedDB.cursorBefore, place, found]
    exact cursor
  · have reopened : db.reopen id = (.ok, db') := by rw [ReplicatedDB.reopen, place, isOpen]
    rw [ReplicatedDB.serve, reopened]
    exact unwritten

end Unwritten

/-! ## Runs -/

/-- A request writes, looks up or reopens. -/
theorem ReplicatedDB.serve_cases (id : NodeId) (db : ReplicatedDB) (request : Request) :
    (∃ op, request.ops = [op] ∧ (db.serve id request).2 = (db.write op.record).2 ∧
        db.cursorBefore id request = db.appliedIndex) ∨
      (request.ops = [] ∧ (db.serve id request).2 = db ∧
        db.cursorBefore id request = db.appliedIndex) ∨
      request = .reopen := by
  cases request with
  | put key value => exact Or.inl ⟨.put key value, rfl, rfl, rfl⟩
  | delete key => exact Or.inl ⟨.delete key, rfl, rfl, rfl⟩
  | get key => exact Or.inr (Or.inl ⟨rfl, rfl, rfl⟩)
  | reopen => exact Or.inr (Or.inr rfl)

section Run

variable (id : NodeId) {requests : List Request}

/-- Once something was written the log is never empty again. -/
theorem Idle.after (start : Idle db []) (short : ∀ request ∈ requests, request.Short) :
    ∃ history, Idle (db.after id requests) history ∧
      ((∃ request ∈ requests, request.ops ≠ []) → 0 < (db.after id requests).raft.lastIndex) := by
  induction requests using List.reverseRecOn with
  | nil => exact ⟨[], start, by simp⟩
  | append_singleton before request ih =>
      obtain ⟨history, idle, written⟩ := ih fun r member => short r (by simp [member])
      have isShort := short request (by simp)
      rw [ReplicatedDB.after_concat]
      refine ⟨_, (idle.serve id isShort).2, ?_⟩
      rintro ⟨r, member, writes⟩
      rcases ReplicatedDB.serve_cases id (db.after id before) request with
        ⟨op, ops, same, -⟩ | ⟨ops, same, -⟩ | rfl
      · rw [same]
        have := (idle.write_committed (isShort op (by simp [ops]))).2
        omega
      · rw [same]
        rcases List.mem_append.mp member with old | new
        · exact written ⟨r, old, writes⟩
        · rw [List.mem_singleton.mp new] at writes
          exact absurd ops writes
      · obtain ⟨db', reopened, -, -, grown⟩ := idle.reopen_forgets id
        rw [ReplicatedDB.serve, reopened]
        rcases List.mem_append.mp member with old | new
        · have := written ⟨r, old, writes⟩
          show 0 < db'.raft.lastIndex
          omega
        · rw [List.mem_singleton.mp new] at writes
          exact absurd rfl writes

/-- A reopen after a write leaves the cursor behind the log. -/
theorem Idle.reopened_behind (start : Idle db []) (short : ∀ request ∈ requests, request.Short)
    (written : ∃ request ∈ requests, request.ops ≠ []) :
    (db.after id (requests ++ [.reopen])).appliedIndex <
      (db.after id (requests ++ [.reopen])).raft.lastIndex := by
  obtain ⟨history, idle, positive⟩ := start.after id short
  obtain ⟨db', reopened, idle', commit, grown⟩ := idle.reopen_forgets id
  rw [ReplicatedDB.after_concat, ReplicatedDB.serve, reopened]
  show db'.appliedIndex < db'.raft.lastIndex
  rw [idle'.applied, commit]
  exact Nat.lt_of_lt_of_le (positive written) grown

/-- A run that reopens only a store without entries keeps everything committed,
    and moves the cursor of no session back. -/
theorem Unwritten.after (start : Unwritten db) (short : ∀ request ∈ requests, request.Short)
    (early : ∀ before, before ++ [.reopen] <+: requests → ∀ request ∈ before, request.ops = []) :
    (∃ history, Idle (db.after id requests) history) ∧
      (db.after id requests).raft.commitIndex = (db.after id requests).raft.lastIndex ∧
      ((∀ request ∈ requests, request.ops = []) → Unwritten (db.after id requests)) ∧
      ∀ before request, before ++ [request] <+: requests →
        (db.after id before).cursorBefore id request ≤
          (db.after id (before ++ [request])).appliedIndex := by
  induction requests using List.reverseRecOn with
  | nil =>
      refine ⟨⟨[], start.toIdle⟩, start.committed, fun _ => start, ?_⟩
      intro before request inside
      simp at inside
  | append_singleton earlier request ih =>
      obtain ⟨⟨history, idle⟩, committed, unwritten, kept⟩ :=
        ih (fun r member => short r (by simp [member]))
          fun before inside => early before (inside.trans (List.prefix_append _ _))
      have isShort := short request (by simp)
      have idle' := (idle.serve id isShort).2
      rw [← ReplicatedDB.after_concat] at idle'
      -- what the last request does
      have step : (db.after id (earlier ++ [request])).raft.commitIndex =
            (db.after id (earlier ++ [request])).raft.lastIndex ∧
          ((∀ r ∈ earlier ++ [request], r.ops = []) →
            Unwritten (db.after id (earlier ++ [request]))) ∧
          (db.after id earlier).cursorBefore id request ≤
            (db.after id (earlier ++ [request])).appliedIndex := by
        rw [idle'.applied, ReplicatedDB.after_concat]
        rcases ReplicatedDB.serve_cases id (db.after id earlier) request with
          ⟨op, ops, same, cursor⟩ | ⟨ops, same, cursor⟩ | rfl
        · obtain ⟨committed', grown⟩ := idle.write_committed (isShort op (by simp [ops]))
          rw [same, cursor, idle.applied]
          refine ⟨committed', ?_, by omega⟩
          intro none
          have := none request (by simp)
          simp [ops] at this
        · rw [same, cursor, idle.applied]
          exact ⟨committed, fun none => unwritten fun r member => none r (by simp [member]), le_rfl⟩
        · have empty := unwritten (early earlier List.prefix_rfl)
          obtain ⟨cursor, reopened⟩ := empty.reopen id
          rw [cursor]
          exact ⟨reopened.committed, fun _ => reopened, Nat.zero_le _⟩
      refine ⟨⟨_, idle'⟩, step.1, step.2.1, ?_⟩
      intro before r inside
      rcases List.prefix_concat_iff.mp inside with whole | part
      · obtain ⟨rfl, last⟩ := List.append_inj' whole rfl
        obtain rfl : r = request := by simpa using last
        exact step.2.2
      · exact kept before r part

end Run

/-- The cursor describes the table in all states of a run if and only if the run
    reopens no store that was written to. -/
theorem cursor_sound_iff (id : NodeId) (requests : List Request)
    (short : ∀ request ∈ requests, request.Short) :
    ∃ storage db, RaftStorage.openAt {} = .ok storage ∧ ReplicatedDB.openAt {} id [id] = .ok db ∧
      (((ReplicatedDB.rebuilt storage id [id]).appliedIndex ≤ db.appliedIndex ∧
          db.CursorSound id requests) ↔
        ∀ before, before ++ [.reopen] <+: requests → ∀ request ∈ before, request.ops = []) := by
  obtain ⟨storage, db, found, cursor, isOpen, start⟩ :=
    Unwritten.opened Closed.empty rfl openAt_missing id
  refine ⟨storage, db, found, isOpen, ?_⟩
  constructor
  · rintro ⟨-, sound⟩ before inside request member
    by_contra writes
    have behind := start.toIdle.reopened_behind id
      (fun r isIn => short r (inside.subset (List.mem_append_left _ isIn)))
      ⟨request, member, writes⟩
    have last := (sound.described _ inside).last
    omega
  · intro early
    refine ⟨by rw [cursor]; exact Nat.zero_le _, ?_, ?_⟩
    · intro before inside
      obtain ⟨⟨history, idle⟩, committed, -⟩ := start.after id
        (fun r member => short r (inside.subset member))
        fun earlier step => early earlier (step.trans inside)
      exact idle.described_iff.mpr committed
    · exact (start.after id short early).2.2.2

theorem cursor_sound_iff_firstSession :
    ∃ storage db, RaftStorage.openAt {} = .ok storage ∧ ReplicatedDB.openAt {} 1 [1] = .ok db ∧
      (ReplicatedDB.rebuilt storage 1 [1]).appliedIndex ≤ db.appliedIndex ∧
      db.CursorSound 1 [.reopen, .put [1] [2], .get [1], .delete [1]] := by
  obtain ⟨storage, db, found, isOpen, sound⟩ :=
    cursor_sound_iff 1 [.reopen, .put [1] [2], .get [1], .delete [1]] (by decide)
  refine ⟨storage, db, found, isOpen, sound.mpr ?_⟩
  intro before inside
  exact forall_steps _ (fun before request => request = .reopen → ∀ r ∈ before, r.ops = [])
    (by decide) before .reopen inside rfl

/-- A put and a reopen: one entry, in the table, and a cursor at 0. -/
theorem cursor_behind_log :
    ∃ db, ReplicatedDB.openAt {} 1 [1] = .ok db ∧
      (db.after 1 [.put [1] [2], .reopen]).appliedIndex <
        (db.after 1 [.put [1] [2], .reopen]).raft.lastIndex := by
  obtain ⟨db, isOpen, start⟩ := Idle.fresh 1
  refine ⟨db, isOpen, @Idle.reopened_behind db 1 [.put [1] [2]] start (by decide) ?_⟩
  exact ⟨.put [1] [2], by simp, by simp [Request.ops]⟩

end MiniLsm
