import MiniLsm.Raft.SingleNode

/-! # Writes that are refused after they were proposed

A `Put` or `Delete` appends to the log and commits before the `Save` that may
fail. When its `Sync` fails the entry stays, in the log and in the file: the next
write that succeeds applies it, and so does the next `Open`.
-/

namespace MiniLsm

open Wal

/-! ## Calls whose `Sync` may fail -/

def Op.submit (op : Op) (db : ReplicatedDB) : Status × ReplicatedDB :=
  match op with
  | .put key value => db.put key value
  | .delete key => db.delete key

theorem Op.submit_eq (op : Op) (db : ReplicatedDB) : op.submit db = db.write op.record := by
  cases op <;> rfl

/-- A file whose next `Sync` fails. -/
def WritableFile.failing (f : WritableFile) (msg : String) : WritableFile :=
  { f with syncFaults := [some msg] }

/-- A path whose file fails the next `Sync`. A missing file is created empty. -/
def Place.failing (p : Place) : Option String → Place
  | none => p
  | some msg => { p with file := some ((p.file.getD {}).failing msg) }

namespace ReplicatedDB

def failing (db : ReplicatedDB) : Option String → ReplicatedDB
  | none => db
  | some msg =>
      let writer := { db.storage.writer with dest := db.storage.writer.dest.failing msg }
      { db with storage := { db.storage with writer } }

/-- The file that an `Open` leaves, also one that fails. -/
def fileAfterOpen (p : Place) (id : NodeId) : WritableFile :=
  match RaftStorage.openAt p with
  | .ok storage =>
      let db := rebuilt storage id [id]
      { db with raft := db.raft.tickUntilLeader rfl }.sync.2.storage.writer.dest
  | .error _ => p.file.getD {}

end ReplicatedDB

/-- A call, with the error of its `Sync` if that fails. -/
inductive StoreCall where
  | write (op : Op) (fault : Option String)
  | get (key : Bytes)
  /-- Close, then `Open`. -/
  | reopen (fault : Option String)
  deriving Repr, DecidableEq

/-- A store in use, or the file of one that is closed. -/
inductive Session where
  | running (db : ReplicatedDB)
  | closed (file : Option WritableFile)

namespace Session

def place : Session → Place
  | .running db => db.place
  | .closed file => { file }

/-- Without a store there is nothing to call but `Open`. -/
def next (id : NodeId) (s : Session) : StoreCall → Option Answer × Session
  | .write op fault =>
      match s with
      | .running db =>
          let (status, db) := op.submit (db.failing fault)
          (some (.status status), .running db)
      | .closed _ => (none, s)
  | .get key =>
      match s with
      | .running db => (some (.value (db.get key)), s)
      | .closed _ => (none, s)
  | .reopen fault =>
      let p := s.place.failing fault
      match ReplicatedDB.openAt p id [id] with
      | .ok db => (some (.status .ok), .running db)
      | .error status => (some (.status status), .closed (some (ReplicatedDB.fileAfterOpen p id)))

end Session

/-- The operation a call asks for. -/
def StoreCall.ops : StoreCall → List Op
  | .write op _ => [op]
  | .get _ | .reopen _ => []

structure StoreClient where
  session : Session := .closed none
  /-- The operations that returned OK, in order. -/
  accepted : List Op := []

namespace StoreClient

def next (id : NodeId) (c : StoreClient) (call : StoreCall) : StoreClient :=
  let (answer, session) := c.session.next id call
  let accepted :=
    match answer with
    | some (.status status) => if status.isOk then c.accepted ++ call.ops else c.accepted
    | some (.value _) | none => c.accepted
  { session, accepted }

def run (id : NodeId) (calls : List StoreCall) : StoreClient := calls.foldl (next id) {}

/-- Every Get, of this instance or after a close and a successful reopen, answers
    as if the operations that did not return OK had never been called. -/
structure Unaffected (id : NodeId) (c : StoreClient) : Prop where
  gets : ∀ db, c.session = .running db → ∀ key, db.get key = lookup key (lastPut c.accepted key)
  reopened : ∀ db, ReplicatedDB.openAt c.session.place id [id] = .ok db →
    ∀ key, db.get key = lookup key (lastPut c.accepted key)

/-- A write whose `Sync` fails asks for what is already so. -/
def Harmless (c : StoreClient) (call : StoreCall) : Prop :=
  ∀ db op msg, c.session = .running db → call = .write op (some msg) →
    op.effect (tableOf c.accepted) = tableOf c.accepted

end StoreClient

/-! ## A `Sync` that fails -/

variable {db : ReplicatedDB} {history : List Op}

/-- What was to be added is in the file, and will be added again. -/
theorem Files.retried {storage storage' : RaftStorage} {items : List Item}
    {missing : List LogEntry} (h : Files storage items missing history) (ready : storage'.Ready)
    (r : Raft)
    (contents : storage'.writer.dest.contents = storage.writer.dest.contents ++
      encodedAll storage.writer.dest.contents.length
        ((RaftStorage.hardStateItems r ++ missing.map Item.entry).map Item.record))
    (persisted : storage'.persistedIndex = storage.persistedIndex) :
    ∃ items', Files storage' items' missing history ∧
      Closed storage'.writer.dest items' history := by
  have within := h.persisted
  obtain ⟨items', files, entries⟩ := h.saved ready r contents (by omega)
  have closed := files.closed
  refine ⟨items', ⟨files.holds, ?_, ?_, ?_⟩, closed⟩
  · refine closed.carries.repeated (journalState items).entries.length ?_
    rw [entries, List.drop_left, List.map_map]
    rfl
  · intro e member
    rcases List.mem_append.mp member with stored | again
    · exact (closed.indices e stored).trans (Nat.le_add_right _ _)
    · have := h.indices e (List.mem_append_right _ again)
      rw [entries, List.length_append, List.length_map]
      omega
  · rw [entries, List.length_append, persisted]
    omega

/-- The call fails, and nothing but the file and the hard state's flag changes. -/
theorem Serves.sync_fails (h : Serves db history) (msg : String) :
    ∃ storage, (db.failing (some msg)).sync = (.ioError msg,
        { db with raft := { db.raft with hardStateDirty := false }, storage }) ∧
      storage.persistedIndex = db.storage.persistedIndex ∧
      ∃ items, Closed storage.writer.dest items history ∧
        Files storage items ((db.raft.log.drop 1).drop db.storage.persistedIndex) history := by
  obtain ⟨items, file⟩ := h.file
  have aligned : (db.failing (some msg)).storage.writer.Aligned :=
    ⟨file.holds.aligned.appends, file.holds.aligned.bound, file.holds.aligned.cursor⟩
  obtain ⟨w, added, saved⟩ := RaftStorage.save_eq aligned db.raft
  have faults : w.dest.syncFaults = [some msg] := by
    rw [added.dest]
    rfl
  have synced : w.dest.sync = (.ioError msg, { w.dest with syncFaults := [] }) := by
    rw [WritableFile.sync, faults]
    rfl
  have contents : w.dest.contents = db.storage.writer.dest.contents ++
      encodedAll db.storage.writer.dest.contents.length
        ((RaftStorage.savedItems db.raft db.storage.persistedIndex).map Item.record) :=
    congrArg WritableFile.contents added.dest
  have kept : min (db.failing (some msg)).storage.persistedIndex db.raft.stableIndex =
      db.storage.persistedIndex := Nat.min_eq_left h.stable
  rw [synced, kept] at saved
  rw [Raft.savedItems_kept h.nonempty h.stable] at contents
  let storage := { db.storage with writer := { w with dest := { w.dest with syncFaults := [] } } }
  obtain ⟨items', files, closed⟩ := @Files.retried history db.storage storage items _ file
    ⟨⟨added.aligned.appends, added.aligned.bound, added.aligned.cursor⟩, rfl⟩ db.raft contents rfl
  refine ⟨storage, ?_, rfl, items', closed, files⟩
  rw [ReplicatedDB.sync]
  have sameRaft : (db.failing (some msg)).raft = db.raft := rfl
  rw [sameRaft, saved]
  rfl

/-- A store in use: whatever was proposed is in its file. -/
structure Running (db : ReplicatedDB) (history : List Op) : Prop extends Live db history where
  closed : ∃ items, Closed db.storage.writer.dest items history

theorem Idle.running (h : Idle db history) : Running db history := by
  obtain ⟨items, files⟩ := h.filed
  exact ⟨h.live, items, files.closed⟩

/-- A write that succeeds leaves the table of everything that was proposed. -/
theorem Running.accepted (h : Running db history) {op : Op} (short : op.Short) :
    (db.write op.record).1 = .ok ∧ Running (db.write op.record).2 (history ++ [op]) ∧
      (db.write op.record).2.table = tableOf (history ++ [op]) := by
  rw [ReplicatedDB.write_leader h.leads]
  obtain ⟨ok, idle⟩ := (h.proposed short).1.sync
  exact ⟨ok, idle.running, idle.table_eq⟩

/-- A write that fails leaves its entry behind, and the table as it was. -/
theorem Running.refused (h : Running db history) {op : Op} (short : op.Short) (msg : String) :
    ((db.failing (some msg)).write op.record).1 = .ioError msg ∧
      Running ((db.failing (some msg)).write op.record).2 (history ++ [op]) ∧
      ((db.failing (some msg)).write op.record).2.table = db.table := by
  have live := (h.proposed short).1
  obtain ⟨storage, synced, persisted, items, closed, files⟩ := live.sync_fails msg
  have leads : (db.failing (some msg)).raft.role = .leader := h.leads
  have write : (db.failing (some msg)).write op.record =
      (({ db with raft := (db.raft.propose op.record).2 } : ReplicatedDB).failing (some msg)).sync :=
    ReplicatedDB.write_leader leads op.record
  rw [write, synced]
  refine ⟨rfl, ⟨⟨⟨live.peers, live.leads, live.nonempty, live.commit, ?_, live.log, ⟨items, ?_⟩,
    live.table⟩, ?_, live.behind⟩, items, closed⟩, rfl⟩
  · rw [persisted]
    exact live.stable
  · rw [persisted]
    exact files
  · rw [persisted]
    exact live.within

/-- The storage that opens on a file whose next `Sync` fails. -/
theorem openAt_failing {file : WritableFile} {storage : RaftStorage} (msg : String)
    (found : RaftStorage.openAt { file := some file } = .ok storage) :
    RaftStorage.openAt { file := some (file.failing msg) } =
      .ok { storage with
        writer := { storage.writer with dest := storage.writer.dest.failing msg } } := by
  have replayed : RaftStorage.replayFile { file := some (file.failing msg) } =
      RaftStorage.replayFile { file := some file } := rfl
  rw [RaftStorage.openAt] at found ⊢
  simp only [Place.makeDir, Place.unlessFault, Place.fileExists, Option.isSome_some, if_true,
    replayed, Place.getFileSize, Place.newAppendableFile, Place.contents, Option.getD_some, bind,
    Except.bind, pure, Except.pure] at found ⊢
  cases isReplayed : RaftStorage.replayFile { file := some file } with
  | error status => simp [isReplayed] at found
  | ok recovered =>
      simp only [isReplayed, Except.ok.injEq] at found ⊢
      rw [← found]
      rfl

/-- An `Open` whose `Sync` fails adds to the file only what is in it. -/
theorem Closed.opens_failing {file : WritableFile} {items : List Item}
    (h : Closed file items history) (id : NodeId) (msg : String) :
    ReplicatedDB.openAt { file := some (file.failing msg) } id [id] = .error (.ioError msg) ∧
      ∃ items', Closed (ReplicatedDB.fileAfterOpen { file := some (file.failing msg) } id) items'
        history := by
  obtain ⟨storage, found, recovered, files, serves⟩ := h.rebuilt id
  obtain ⟨storage', synced, -, items', closed, -⟩ := serves.sync_fails msg
  have found' := openAt_failing msg found
  generalize isStorage : { storage with
    writer := { storage.writer with dest := storage.writer.dest.failing msg } } = failed at found'
  have same : { ReplicatedDB.rebuilt failed id [id] with
        raft := (ReplicatedDB.rebuilt failed id [id]).raft.tickUntilLeader rfl } =
      ({ ReplicatedDB.rebuilt storage id [id] with
        raft := (ReplicatedDB.rebuilt storage id [id]).raft.elected } : ReplicatedDB).failing
          (some msg) := by
    rw [(ReplicatedDB.rebuilt_elected failed id rfl).2, ← isStorage]
    rfl
  constructor
  · simp only [ReplicatedDB.openAt, found', bind, Except.bind, List.length_singleton, dif_pos, same,
      synced, Status.isOk_ioError, Bool.false_eq_true, if_false]
    rfl
  · refine ⟨items', ?_⟩
    simp only [ReplicatedDB.fileAfterOpen, found', same, synced]
    exact closed

/-! ## Runs -/

/-- The operation is short enough for its record. -/
def StoreCall.Short (call : StoreCall) : Prop := ∀ op ∈ call.ops, op.Short

instance (call : StoreCall) : Decidable call.Short := inferInstanceAs (Decidable (∀ _ ∈ _, _))

namespace Session

variable {s : Session}

/-- The operations that were proposed, whatever was answered. -/
def Keeps (s : Session) (history : List Op) : Prop :=
  match s with
  | .running db => Running db history
  | .closed none => history = []
  | .closed (some file) => ∃ items, Closed file items history

/-- In use or not, there is a file to open. -/
theorem Keeps.file (h : s.Keeps history) :
    ∃ file items, Closed file items history ∧
      RaftStorage.openAt s.place = RaftStorage.openAt { file := some file } ∧
      ∀ msg, s.place.failing (some msg) = { file := some (file.failing msg) } := by
  match s, h with
  | .running db, h =>
      obtain ⟨items, closed⟩ := h.closed
      exact ⟨db.storage.writer.dest, items, closed, rfl, fun _ => rfl⟩
  | .closed none, h =>
      obtain rfl : history = [] := h
      exact ⟨{}, [], Closed.empty, openAt_missing, fun _ => rfl⟩
  | .closed (some file), h =>
      obtain ⟨items, closed⟩ := h
      exact ⟨file, items, closed, rfl, fun _ => rfl⟩

/-- An `Open` without an error finds everything that was proposed. -/
theorem Keeps.reopen (h : s.Keeps history) (id : NodeId) :
    ∃ db, ReplicatedDB.openAt s.place id [id] = .ok db ∧ Idle db history := by
  obtain ⟨file, items, closed, found, -⟩ := h.file
  obtain ⟨-, -, db, -, -, isOpen, idle, -⟩ := closed.opened found id
  exact ⟨db, isOpen, idle⟩

end Session

theorem lookup_eq_iff (db : ReplicatedDB) (ops : List Op) :
    (∀ key, db.get key = lookup key (lastPut ops key)) ↔ db.table = tableOf ops := by
  have found (key : Bytes) : db.get key = lookup key (db.table key) := by
    rw [ReplicatedDB.get]
    cases db.table key <;> rfl
  constructor
  · intro same
    funext key
    have here := (found key).symm.trans (same key)
    rw [tableOf_key]
    revert here
    cases db.table key <;> cases lastPut ops key <;> simp [lookup]
  · intro same key
    rw [found, same, tableOf_key]

namespace StoreClient

variable {id : NodeId} {c : StoreClient}

/-- Nothing was refused that would show. -/
structure Agrees (c : StoreClient) (history : List Op) : Prop where
  proposed : tableOf history = tableOf c.accepted
  shown : ∀ db, c.session = .running db → db.table = tableOf c.accepted

/-- Clients are not affected when what was proposed and what was accepted build
    the same table. -/
theorem unaffected_iff (h : c.session.Keeps history) : c.Unaffected id ↔ c.Agrees history := by
  obtain ⟨db, isOpen, idle⟩ := h.reopen id
  constructor
  · intro unaffected
    have same := (lookup_eq_iff db _).mp (unaffected.reopened db isOpen)
    rw [idle.table_eq] at same
    exact ⟨same, fun db' running => (lookup_eq_iff db' _).mp (unaffected.gets db' running)⟩
  · intro agrees
    refine ⟨fun db' running => (lookup_eq_iff db' _).mpr (agrees.shown db' running), ?_⟩
    intro db' isOpen'
    obtain rfl : db = db' := Except.ok.inj (isOpen.symm.trans isOpen')
    exact (lookup_eq_iff db _).mpr (idle.table_eq.trans agrees.proposed)

section Next

variable {accepted : List Op} {op : Op}

theorem next_opened {session : Session} (h : session.Keeps history) (id : NodeId) :
    ∃ db, next id ⟨session, accepted⟩ (.reopen none) = ⟨.running db, accepted⟩ ∧
      Idle db history := by
  obtain ⟨db, isOpen, idle⟩ := h.reopen id
  refine ⟨db, ?_, idle⟩
  simp [next, Session.next, Place.failing, isOpen, StoreCall.ops]

theorem next_open_fails {session : Session} (h : session.Keeps history) (id : NodeId)
    (msg : String) :
    ∃ file items, next id ⟨session, accepted⟩ (.reopen (some msg)) =
      ⟨.closed (some file), accepted⟩ ∧ Closed file items history := by
  obtain ⟨file, items, closed, -, place⟩ := h.file
  obtain ⟨fails, items', left⟩ := closed.opens_failing id msg
  rw [← place msg] at fails left
  refine ⟨_, items', ?_, left⟩
  simp [next, Session.next, fails]

theorem next_accepted (h : Running db history) (id : NodeId) (short : op.Short) :
    ∃ db', next id ⟨.running db, accepted⟩ (.write op none) = ⟨.running db', accepted ++ [op]⟩ ∧
      Running db' (history ++ [op]) ∧ db'.table = tableOf (history ++ [op]) := by
  obtain ⟨ok, running, table⟩ := h.accepted short
  refine ⟨(db.write op.record).2, ?_, running, table⟩
  simp [next, Session.next, ReplicatedDB.failing, Op.submit_eq, ok, StoreCall.ops]

theorem next_refused (h : Running db history) (id : NodeId) (short : op.Short) (msg : String) :
    ∃ db', next id ⟨.running db, accepted⟩ (.write op (some msg)) = ⟨.running db', accepted⟩ ∧
      Running db' (history ++ [op]) ∧ db'.table = db.table := by
  obtain ⟨fails, running, table⟩ := h.refused short msg
  refine ⟨((db.failing (some msg)).write op.record).2, ?_, running, table⟩
  simp [next, Session.next, Op.submit_eq, fails]

end Next

/-- One call: what it proposes is kept, and a refused write that asks for what is
    already so shows nowhere. -/
theorem keeps_next (h : c.session.Keeps history) (id : NodeId) {call : StoreCall}
    (short : call.Short) :
    ∃ history', (c.next id call).session.Keeps history' ∧
      (c.Agrees history → c.Harmless call → (c.next id call).Agrees history') := by
  obtain ⟨session, accepted⟩ := c
  cases call with
  | get key =>
      refine ⟨history, ?_⟩
      cases session with
      | running db => exact ⟨h, fun agrees _ => agrees⟩
      | closed file => exact ⟨h, fun agrees _ => agrees⟩
  | reopen fault =>
      refine ⟨history, ?_⟩
      cases fault with
      | none =>
          obtain ⟨db, next, idle⟩ := next_opened h id
          rw [next]
          refine ⟨idle.running, ?_⟩
          intro agrees _
          refine ⟨agrees.proposed, ?_⟩
          rintro _ ⟨rfl⟩
          exact idle.table_eq.trans agrees.proposed
      | some msg =>
          obtain ⟨file, items, next, closed⟩ := next_open_fails h id msg
          rw [next]
          refine ⟨⟨items, closed⟩, ?_⟩
          intro agrees _
          refine ⟨agrees.proposed, ?_⟩
          rintro _ ⟨⟩
  | write op fault =>
      cases session with
      | closed file => exact ⟨history, h, fun agrees _ => agrees⟩
      | running db =>
          have isShort := short op List.mem_cons_self
          refine ⟨history ++ [op], ?_⟩
          cases fault with
          | none =>
              obtain ⟨db', next, running, table⟩ := next_accepted h id isShort
              rw [next]
              refine ⟨running, ?_⟩
              intro agrees _
              have proposed : tableOf (history ++ [op]) = tableOf (accepted ++ [op]) := by
                rw [tableOf_concat, tableOf_concat]
                exact congrArg op.effect agrees.proposed
              refine ⟨proposed, ?_⟩
              rintro _ ⟨rfl⟩
              exact table.trans proposed
          | some msg =>
              obtain ⟨db', next, running, table⟩ := next_refused h id isShort msg
              rw [next]
              refine ⟨running, ?_⟩
              intro agrees harmless
              refine ⟨?_, ?_⟩
              · rw [tableOf_concat, agrees.proposed]
                exact harmless db op msg rfl rfl
              · rintro _ ⟨rfl⟩
                exact table.trans (agrees.shown db rfl)

/-- A write whose `Sync` fails is proposed, and not accepted. -/
theorem keeps_refused (h : c.session.Keeps history) (id : NodeId) (running : c.session = .running db)
    {op : Op} (short : op.Short) (msg : String) :
    (c.next id (.write op (some msg))).session.Keeps (history ++ [op]) ∧
      (c.next id (.write op (some msg))).accepted = c.accepted := by
  obtain ⟨session, accepted⟩ := c
  obtain rfl : session = .running db := running
  obtain ⟨db', next, running', -⟩ := next_refused h id short msg
  rw [next]
  exact ⟨running', rfl⟩

variable {calls : List StoreCall}

theorem run_concat (id : NodeId) (calls : List StoreCall) (call : StoreCall) :
    run id (calls ++ [call]) = (run id calls).next id call := by
  rw [run, run, List.foldl_append]
  rfl

theorem run_keeps (id : NodeId) (short : ∀ call ∈ calls, call.Short) :
    ∃ history, (run id calls).session.Keeps history := by
  refine run_invariant (next id) {} (fun c => ∃ history, c.session.Keeps history) ⟨[], rfl⟩ ?_
  rintro before call inside ⟨history, kept⟩
  obtain ⟨history', kept', -⟩ := keeps_next kept id (short call (mem_of_step inside))
  exact ⟨history', kept'⟩

theorem run_agrees (id : NodeId) (short : ∀ call ∈ calls, call.Short)
    (harmless : ∀ before call, before ++ [call] <+: calls → (run id before).Harmless call) :
    ∃ history, (run id calls).session.Keeps history ∧ (run id calls).Agrees history := by
  refine run_invariant (next id) {}
    (fun c => ∃ history, c.session.Keeps history ∧ c.Agrees history) ⟨[], rfl, rfl, ?_⟩ ?_
  · rintro _ ⟨⟩
  · rintro before call inside ⟨history, kept, agrees⟩
    obtain ⟨history', kept', shown⟩ := keeps_next kept id (short call (mem_of_step inside))
    exact ⟨history', kept', shown agrees (harmless before call inside)⟩

end StoreClient

/-- A run in which every write that its `Sync` fails asks for what is already so
    never shows one of them, and no other run is like that. -/
theorem refused_writes_unaffected_iff (id : NodeId) (calls : List StoreCall)
    (short : ∀ call ∈ calls, call.Short) :
    (∀ before, before <+: calls → (StoreClient.run id before).Unaffected id) ↔
      ∀ before call, before ++ [call] <+: calls → (StoreClient.run id before).Harmless call := by
  constructor
  · intro unaffected before call inside db op msg running isCall
    have earlier := before_step inside
    obtain ⟨history, kept⟩ := StoreClient.run_keeps id
      fun call' member => short call' (earlier.subset member)
    subst isCall
    have isShort := short _ (mem_of_step inside) op List.mem_cons_self
    obtain ⟨kept', accepts⟩ := StoreClient.keeps_refused kept id running isShort msg
    have agrees := (StoreClient.unaffected_iff kept).mp (unaffected before earlier)
    have after := unaffected _ inside
    rw [StoreClient.run_concat] at after
    have agrees' := ((StoreClient.unaffected_iff kept').mp after).proposed
    rw [tableOf_concat, accepts, agrees.proposed] at agrees'
    exact agrees'
  · intro harmless before inside
    obtain ⟨history, kept, agrees⟩ := StoreClient.run_agrees id
      (fun call member => short call (inside.subset member))
      fun earlier call step => harmless earlier call (step.trans inside)
    exact (StoreClient.unaffected_iff kept).mpr agrees

/-- A refused delete of a key that is not there. -/
theorem refused_writes_unaffected_iff_absentKey :
    (StoreClient.run 1 [.reopen none, .write (.delete [1]) (some "fsync"), .get [1]]).Unaffected
      1 := by
  refine (refused_writes_unaffected_iff 1 _ (by decide)).mpr ?_ _ List.prefix_rfl
  refine forall_steps _ (fun before call => (StoreClient.run 1 before).Harmless call) ?_
  intro i inside call isCall
  match i with
  | 0 | 2 =>
      obtain rfl := Option.some.inj isCall
      rintro _ _ _ - ⟨⟩
  | 1 =>
      obtain rfl := Option.some.inj isCall
      rintro db op msg - ⟨rfl, rfl⟩
      obtain ⟨db', next, -⟩ := @StoreClient.next_opened [] [] (.closed none) rfl 1
      have accepted : (StoreClient.run 1 [.reopen none]).accepted = [] :=
        congrArg StoreClient.accepted next
      simp only [List.take_succ_cons, List.take_zero, accepted]
      funext key
      simp [tableOf, effect_key, Table.empty]
  | i + 3 => exact absurd inside (by simp)

/-- The refused put is applied with the next one. -/
theorem refused_write_shows :
    ∃ db, (StoreClient.run 1 [.reopen none, .write (.put [1] [2]) (some "fsync"),
        .write (.put [3] [4]) none]).session = .running db ∧
      (StoreClient.run 1 [.reopen none, .write (.put [1] [2]) (some "fsync"),
        .write (.put [3] [4]) none]).accepted = [.put [3] [4]] ∧
      db.get [1] = .ok [2] := by
  obtain ⟨db₀, first, idle⟩ := @StoreClient.next_opened [] [] (.closed none) rfl 1
  obtain ⟨db₁, second, running, -⟩ := @StoreClient.next_refused _ _ [] (.put [1] [2]) idle.running 1
    (by decide) "fsync"
  obtain ⟨db₂, third, -, table⟩ := @StoreClient.next_accepted _ _ [] (.put [3] [4]) running 1
    (by decide)
  have runs : StoreClient.run 1 [.reopen none, .write (.put [1] [2]) (some "fsync"),
      .write (.put [3] [4]) none] = ⟨.running db₂, [.put [3] [4]]⟩ := by
    simp only [StoreClient.run, List.foldl_cons, List.foldl_nil, first, second, third,
      List.nil_append]
  refine ⟨db₂, by rw [runs], by rw [runs], ?_⟩
  rw [ReplicatedDB.get, table, tableOf_key]
  rfl

end MiniLsm
