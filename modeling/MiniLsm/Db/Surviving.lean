import MiniLsm.Db.Posix

/-! # What survives

What is in the log after every operation that returned OK, whatever the system
calls did before; that short and interrupted calls do not show; and what a
crash in the middle of an operation leaves.
-/

namespace MiniLsm

open Wal Dialogue

/-! ## The log of acknowledged operations -/

/-- The log of a store all of whose operations returned OK. -/
structure DB.Keeps (db : DB) (history : List Op) : Prop where
  contents : db.wal.dest.contents = encodedAll 0 (history.map Op.record)
  synced : db.wal.dest.synced = db.wal.dest.contents.length
  stands : db.wal.Stands db.wal.dest.contents.length

namespace DB.Keeps

variable {db : DB} {history : List Op}

/-- An operation leaves a part of its record at the end of the log. If it returns
    OK, all of it is there and synced. -/
theorem call (h : db.Keeps history) (op : Op) :
    (∃ k, (op.call db).2.wal.dest.contents =
        (encodedAll 0 ((history ++ [op]).map Op.record)).take (db.wal.dest.contents.length + k)) ∧
      ((op.call db).1 = .ok → (op.call db).2.Keeps (history ++ [op])) := by
  have call : op.call db = db.write op.type op.key op.value := by
    cases op with
    | put key value => rfl
    | delete key => rfl
  have whole : encodedAll 0 ((history ++ [op]).map Op.record) =
      db.wal.dest.contents ++ encoded db.wal.dest.contents.length op.record := by
    rw [h.contents, List.map_append, encodedAll_append, Nat.zero_add]
    simp [encodedAll]
  obtain ⟨⟨k, written, all⟩, -⟩ := h.stands.addRecordLoop op.record true
  have behind := h.stands.behind op.record true
  have record : db.wal.addRecord (encodeRecord op.type op.key op.value) =
      db.wal.addRecordLoop op.record true := rfl
  have part : (db.wal.addRecordLoop op.record true).2.dest.contents =
      (encodedAll 0 ((history ++ [op]).map Op.record)).take (db.wal.dest.contents.length + k) := by
    rw [written, whole, List.take_length_add_append, encoded]
  rw [call, DB.write, record]
  dsimp only
  have kept := WritableFile.sync_contents (db.wal.addRecordLoop op.record true).2.dest
  by_cases added : (db.wal.addRecordLoop op.record true).1.isOk = true
  · have stands := behind added
    rw [List.take_of_length_le (all added)] at written
    rw [← List.length_append, ← written] at stands
    rw [if_pos added]
    rw [WritableFile.sync] at kept ⊢
    split
    · exact ⟨⟨k, part⟩, fun ok => by cases ok⟩
    · refine ⟨⟨k, part⟩, fun _ => ⟨?_, rfl, stands.bound, stands.cursor⟩⟩
      rw [whole]
      exact written
  · rw [if_neg added]
    refine ⟨⟨k, part⟩, fun ok => absurd ?_ added⟩
    rw [ok]
    rfl

theorem run (h : db.Keeps history) (ops : List Op) (ok : ∀ s ∈ (db.run ops).1, s = .ok) :
    (db.run ops).2.Keeps (history ++ ops) := by
  induction ops generalizing db history with
  | nil => rwa [List.append_nil]
  | cons op later ih =>
      rw [DB.run, List.forall_mem_cons] at ok
      have next := ih ((h.call op).2 ok.1) ok.2
      rw [List.append_assoc] at next
      exact next

end DB.Keeps

/-- A file that holds the records of operations, all of it on disk. -/
structure DiskFile.Keeps (file : DiskFile) (history : List Op) : Prop where
  contents : file.contents = encodedAll 0 (history.map Op.record)
  synced : file.synced = file.contents.length

/-- The same for a store over system calls. -/
structure PosixDB.Keeps (db : PosixDB) (history : List Op) : Prop where
  disk : db.disk.Keeps history
  bound : db.blockOffset ≤ kBlockSize
  cursor : db.blockOffset % kBlockSize = db.walFile.contents.length % kBlockSize

namespace PosixDB.Keeps

variable {db : PosixDB} {history : List Op}

theorem opened {options : Options} {dir : PosixDir} (found : PosixDB.openAt options dir = .ok db)
    (keeps : (dir.wal.file.getD {}).Keeps history) : db.Keeps history := by
  obtain ⟨contents, synced, offset⟩ := openAt_ok found
  refine ⟨⟨contents.trans keeps.contents, ?_⟩, ?_, ?_⟩
  · rw [PosixDB.disk, synced, contents]
    exact keeps.synced
  · rw [offset]
    exact (Nat.mod_lt _ (by decide)).le
  · rw [offset, contents, Nat.mod_mod]

/-- The same operations on the same log, over a file with faults. -/
theorem foreseen (h : db.Keeps history) (ops : List Op) :
    ∃ db' : DB, db'.Keeps history ∧ db'.wal.dest.contents = db.walFile.contents ∧
      (db'.run ops).1 = (db.run ops).1 ∧ (db.run ops).2.Shows (db'.run ops).2 := by
  obtain ⟨g, shows, ran⟩ := @PosixDB.Shows.run db
    { contents := (db.run ops).2.disk.contents, synced := (db.run ops).2.disk.synced } ops ⟨rfl, rfl⟩
  refine ⟨{ table := db.table, wal := { dest := g, blockOffset := db.blockOffset } },
    ⟨shows.contents.trans h.disk.contents, ?_, h.bound, ?_⟩, shows.contents, ?_, ?_⟩
  · rw [shows.synced, shows.contents]
    exact h.disk.synced
  · rw [shows.contents]
    exact h.cursor
  · rw [ran]
  · rw [ran]
    exact ⟨rfl, rfl, rfl, rfl⟩

/-- Whatever the system calls do to them, operations that return OK are in the
    log. -/
theorem run (h : db.Keeps history) (ops : List Op) (ok : ∀ s ∈ (db.run ops).1, s = .ok) :
    (db.run ops).2.Keeps (history ++ ops) := by
  obtain ⟨db', start, -, same, shows⟩ := h.foreseen ops
  have last := start.run ops (by rw [same]; exact ok)
  refine ⟨⟨shows.file.contents.symm.trans last.contents, ?_⟩, ?_, ?_⟩
  · exact shows.file.synced.symm.trans (last.synced.trans (congrArg List.length shows.file.contents))
  · exact shows.blockOffset ▸ last.stands.bound
  · rw [← shows.blockOffset, ← shows.file.contents]
    exact last.stands.cursor

/-- An operation leaves a part of its record at the end of the log. -/
theorem torn (h : db.Keeps history) (op : Op) :
    ∃ k, (db.run [op]).2.walFile.contents =
      (encodedAll 0 ((history ++ [op]).map Op.record)).take (db.walFile.contents.length + k) := by
  obtain ⟨db', start, contents, -, shows⟩ := h.foreseen [op]
  obtain ⟨⟨k, written⟩, -⟩ := start.call op
  refine ⟨k, ?_⟩
  rw [← shows.file.contents, ← contents]
  exact written

end PosixDB.Keeps

theorem DB.run_length (db : DB) (ops : List Op) : (db.run ops).1.length = ops.length := by
  induction ops generalizing db with
  | nil => rfl
  | cons op later ih => exact congrArg (· + 1) (ih _)

/-! ## Calls that do not fail for good -/

/-- No call fails but by being interrupted, or by finding the directory there. -/
structure Syscalls.Gentle (calls : Syscalls) : Prop where
  mkdir : calls.mkdir = none ∨ calls.mkdir = some .eexist
  openRead : calls.openRead = none
  reads : MiniLsm.Gentle calls.reads
  stat : calls.stat = none
  openWrite : calls.openWrite = none
  writes : MiniLsm.Gentle calls.writes
  fsyncs : ∀ fsync ∈ calls.fsyncs, fsync = none

instance (calls : Syscalls) : Decidable calls.Gentle :=
  decidable_of_iff
    ((calls.mkdir = none ∨ calls.mkdir = some .eexist) ∧ calls.openRead = none ∧
      MiniLsm.Gentle calls.reads ∧ calls.stat = none ∧ calls.openWrite = none ∧
      MiniLsm.Gentle calls.writes ∧ ∀ fsync ∈ calls.fsyncs, fsync = none)
    ⟨fun ⟨mkdir, openRead, reads, stat, openWrite, writes, fsyncs⟩ =>
        ⟨mkdir, openRead, reads, stat, openWrite, writes, fsyncs⟩,
      fun h => ⟨h.mkdir, h.openRead, h.reads, h.stat, h.openWrite, h.writes, h.fsyncs⟩⟩

/-- `Open` of a path replays what its file holds. -/
theorem openAt_gentle {options : Options} {dir : PosixDir}
    (usable : options.createIfMissing = true ∨ dir.present = true)
    (gentle : dir.wal.calls.Gentle) :
    PosixDB.openAt options dir = .ok
      { table := (recordsOf (dir.wal.file.getD {}).contents).foldl DB.applyRecord Table.empty
        walFile := {
          path := dir.wal.path, contents := (dir.wal.file.getD {}).contents
          synced := (dir.wal.file.getD {}).synced, writes := dir.wal.calls.writes
          fsyncs := dir.wal.calls.fsyncs, closes := dir.wal.calls.closes }
        blockOffset := (dir.wal.file.getD {}).contents.length % kBlockSize } := by
  obtain ⟨mkdir, openRead, reads, stat, openWrite, -, -⟩ := gentle
  have made : PosixPlace.makeDir dir.path dir.wal.calls.mkdir = .ok () := by
    rcases mkdir with none | known
    · rw [none]
      rfl
    · rw [known]
      rfl
  have appendable : dir.wal.newAppendableFile = .ok {
      path := dir.wal.path, contents := (dir.wal.file.getD {}).contents
      synced := (dir.wal.file.getD {}).synced, writes := dir.wal.calls.writes
      fsyncs := dir.wal.calls.fsyncs, closes := dir.wal.calls.closes } := by
    rw [PosixPlace.newAppendableFile, PosixPlace.opened.eq_def, openWrite]
  have recovered : PosixDB.openAt options dir = PosixDB.recover dir.wal := by
    rw [PosixDB.openAt, made]
    cases create : options.createIfMissing with
    | true => rfl
    | false =>
        rw [create] at usable
        rw [usable.resolve_left (by decide)]
        rfl
  rw [recovered, PosixDB.recover, appendable]
  cases file : dir.wal.file with
  | none =>
      have missing : dir.wal.fileExists = false := by rw [PosixPlace.fileExists, file]; rfl
      rw [missing, show recordsOf ((none : Option DiskFile).getD {}).contents = [] from recordsOf_nil]
      rfl
  | some disk =>
      have here : dir.wal.fileExists = true := by rw [PosixPlace.fileExists, file]; rfl
      have sequential : dir.wal.newSequentialFile = .ok {
          path := dir.wal.path, contents := disk.contents, reads := dir.wal.calls.reads } := by
        rw [PosixPlace.newSequentialFile.eq_def, openRead, file]
      have size : dir.wal.getFileSize = .ok disk.contents.length := by
        rw [PosixPlace.getFileSize.eq_def, stat, file]
      have records := PosixReader.records_gentle
        { path := dir.wal.path, contents := disk.contents, reads := dir.wal.calls.reads } reads
      rw [here, PosixDB.replayWal, sequential, size]
      exact congrArg (fun found => Except.ok (PosixDB.mk (found.foldl DB.applyRecord Table.empty) _ _))
        records

/-- Operations over a file that does not fail do what they do over one that
    cannot. -/
theorem run_gentle {db : PosixDB} (unfailing : db.walFile.Unfailing) (ops : List Op) :
    ∃ g, (db.run ops).2.walFile.Shows g ∧
      DB.run
          { table := db.table
            wal := {
              dest := { contents := db.walFile.contents, synced := db.walFile.synced }
              blockOffset := db.blockOffset } } ops =
        ((db.run ops).1,
          { table := (db.run ops).2.table
            wal := { dest := g, blockOffset := (db.run ops).2.blockOffset } }) := by
  obtain ⟨same, -, -, shows⟩ := @run_forward _ _ _ _ _ PosixWritableFile.serve WritableFile.serve
    (fun f g => f.Unfailing ∧ g.Sound ∧ f.Shows g)
    (fun _ _ call ⟨unfailing, sound, shows⟩ => unfailing.serve sound shows call)
    (DB.runCalls db.table db.blockOffset ops) db.walFile
    { contents := db.walFile.contents, synced := db.walFile.synced }
    ⟨unfailing, ⟨rfl, rfl⟩, ⟨rfl, rfl⟩⟩
  refine ⟨_, shows, ?_⟩
  rw [DB.run_calls]
  dsimp only
  rw [same]
  rfl

/-! ## Sessions -/

/-- Every operation of a session returned OK. -/
def Acked : Shown → Prop
  | .ok (_, statuses, _) => ∀ s ∈ statuses, s = .ok
  | .error _ => False

instance (shown : Shown) : Decidable (Acked shown) :=
  match shown with
  | .ok (_, statuses, _) => inferInstanceAs (Decidable (∀ s ∈ statuses, s = Status.ok))
  | .error _ => inferInstanceAs (Decidable False)

section Sessions

variable {options : Options} {dir : PosixDir} {history : List Op}

theorem session_keeps (keeps : (dir.wal.file.getD {}).Keeps history) (ops : List Op)
    (acked : Acked (dir.session options ops).1) :
    ((dir.session options ops).2.getD {}).Keeps (history ++ ops) := by
  rw [PosixDir.session] at acked ⊢
  split at acked
  · rename_i db found
    exact ((PosixDB.Keeps.opened found keeps).run ops acked).disk
  · exact absurd acked id

/-- After sessions all of whose operations returned OK, the log holds them. -/
theorem sessions_keep (keeps : (dir.wal.file.getD {}).Keeps history)
    (sessions : List (Syscalls × List Op))
    (acked : ∀ shown ∈ (dir.sessions options sessions).1, Acked shown) :
    ((dir.sessions options sessions).2.getD {}).Keeps
      (history ++ (sessions.map Prod.snd).flatten) := by
  induction sessions generalizing dir history with
  | nil => rwa [List.map_nil, List.flatten_nil, List.append_nil]
  | cons session later ih =>
      obtain ⟨calls, ops⟩ := session
      rw [PosixDir.sessions] at acked ⊢
      rw [List.forall_mem_cons] at acked
      have here := @session_keeps options { dir with wal := { dir.wal with calls } } _ keeps ops acked.1
      have there := @ih { dir with wal := { dir.wal with
        file := (PosixDir.session options { dir with wal := { dir.wal with calls } } ops).2 } } _
        here acked.2
      rw [List.map_cons, List.flatten_cons, ← List.append_assoc]
      exact there

theorem sessions_append (first second : List (Syscalls × List Op)) :
    dir.sessions options (first ++ second) =
      let dir' := { dir with wal := { dir.wal with file := (dir.sessions options first).2 } }
      ((dir.sessions options first).1 ++ (dir'.sessions options second).1,
        (dir'.sessions options second).2) := by
  induction first generalizing dir with
  | nil => rfl
  | cons session later ih =>
      obtain ⟨calls, ops⟩ := session
      rw [List.cons_append, PosixDir.sessions, PosixDir.sessions]
      dsimp only
      rw [ih]
      rfl

/-- Operations over a file that does not fail return OK. -/
theorem PosixDB.Keeps.run_ok {db : PosixDB} (h : db.Keeps history)
    (unfailing : db.walFile.Unfailing) (ops : List Op) :
    (db.run ops).1 = List.replicate ops.length .ok ∧
      (db.run ops).2.table = ops.foldl Op.effect db.table := by
  obtain ⟨g, -, ran⟩ := run_gentle unfailing ops
  obtain ⟨ok, -, -, -, table⟩ := @run_eq
    { table := db.table
      wal := {
        dest := { contents := db.walFile.contents, synced := db.walFile.synced }
        blockOffset := db.blockOffset } }
    ⟨rfl, h.bound, h.cursor⟩ ⟨rfl, rfl⟩ ops
  have length : (db.run ops).1.length = ops.length :=
    (congrArg (fun result => result.1.length) ran).symm.trans (DB.run_length _ ops)
  rw [ran] at ok table
  exact ⟨List.eq_replicate_iff.mpr ⟨length, ok⟩, table⟩

/-- What a session shows that finds the operations before it. -/
def mapSession (history ops : List Op) : Shown :=
  .ok (tableOf history, List.replicate ops.length .ok, tableOf (history ++ ops))

/-- What sessions show of a map that is not lost between them. -/
def mapSessions (history : List Op) : List (List Op) → List Shown
  | [] => []
  | ops :: later => mapSession history ops :: mapSessions (history ++ ops) later

theorem session_gentle (usable : options.createIfMissing = true ∨ dir.present = true)
    (gentle : dir.wal.calls.Gentle) (keeps : (dir.wal.file.getD {}).Keeps history)
    (small : ∀ op ∈ history, op.Small) (ops : List Op) :
    (dir.session options ops).1 = mapSession history ops := by
  have found := openAt_gentle usable gentle
  rw [PosixDir.session, found]
  obtain ⟨ok, table⟩ := (PosixDB.Keeps.opened found keeps).run_ok
    ⟨rfl, gentle.writes, gentle.fsyncs⟩ ops
  have replayed : (recordsOf (dir.wal.file.getD {}).contents).foldl DB.applyRecord Table.empty =
      tableOf history := by
    rw [keeps.contents, recordsOf, records_encodedAll_whole, replay_records small]
    rfl
  dsimp only at table ⊢
  rw [ok, table, replayed, mapSession, tableOf, tableOf, List.foldl_append]

theorem mapSession_acked (history ops : List Op) : Acked (mapSession history ops) :=
  fun _ member => List.eq_of_mem_replicate member

theorem sessions_shown (usable : options.createIfMissing = true ∨ dir.present = true)
    (keeps : (dir.wal.file.getD {}).Keeps history) (sessions : List (Syscalls × List Op))
    (gentle : ∀ session ∈ sessions, session.1.Gentle)
    (small : ∀ op ∈ history ++ (sessions.map Prod.snd).flatten, op.Small) :
    (dir.sessions options sessions).1 = mapSessions history (sessions.map Prod.snd) := by
  induction sessions generalizing dir history with
  | nil => rfl
  | cons session later ih =>
      obtain ⟨calls, ops⟩ := session
      rw [List.forall_mem_cons] at gentle
      rw [List.map_cons, List.flatten_cons, ← List.append_assoc] at small
      have here := @session_gentle options { dir with wal := { dir.wal with calls } } _ usable
        gentle.1 keeps (fun op member => small op (by simp [member])) ops
      have after := @session_keeps options { dir with wal := { dir.wal with calls } } _ keeps ops
        (here ▸ mapSession_acked history ops)
      rw [PosixDir.sessions, List.map_cons, mapSessions]
      dsimp only at here ⊢
      rw [here, @ih { dir with wal := { dir.wal with
        file := (PosixDir.session options { dir with wal := { dir.wal with calls } } ops).2 } } _
        usable after gentle.2 small]

theorem mapSessions_acked (history : List Op) (sessions : List (List Op)) :
    ∀ shown ∈ mapSessions history sessions, Acked shown := by
  induction sessions generalizing history with
  | nil => simp [mapSessions]
  | cons ops later ih => exact List.forall_mem_cons.mpr ⟨mapSession_acked history ops, ih _⟩

end Sessions

/-- Short writes, short reads, interrupted calls and a directory that is there
    already do not show: every operation of every session returns OK, every
    session finds what the sessions before it left, and the log holds it all. -/
theorem sessions_gentle (options : Options) (dir : PosixDir)
    (usable : options.createIfMissing = true ∨ dir.present = true) (new : dir.wal.file = none)
    (sessions : List (Syscalls × List Op)) (gentle : ∀ session ∈ sessions, session.1.Gentle)
    (small : ∀ op ∈ (sessions.map Prod.snd).flatten, op.Small) :
    (dir.sessions options sessions).1 = mapSessions [] (sessions.map Prod.snd) ∧
      ((dir.sessions options sessions).2.getD {}).Keeps (sessions.map Prod.snd).flatten := by
  have fresh : (dir.wal.file.getD {}).Keeps [] := by
    rw [new]
    exact ⟨rfl, rfl⟩
  have shown := sessions_shown usable fresh sessions gentle small
  exact ⟨shown, sessions_keep fresh sessions fun shown' member =>
    mapSessions_acked [] (sessions.map Prod.snd) shown' (shown ▸ member)⟩

/-- Two sessions of which every call is interrupted or moves a few bytes. -/
def piecemeal : List (Syscalls × List Op) :=
  [({ writes := [.upTo 2, .failed .eintr, .upTo 0, .upTo 4] }, [.put [1] [2], .delete [3]]),
    ({ mkdir := some .eexist, reads := [.failed .eintr, .upTo 4, .upTo 0], writes := [.upTo 1] },
      [.put [3] [4]])]

theorem sessions_gentle_piecemeal :
    (PosixDir.sessions {} { wal := { path := "wal.log" } } piecemeal).1 =
      [.ok (tableOf [], [.ok, .ok], tableOf [.put [1] [2], .delete [3]]),
        .ok (tableOf [.put [1] [2], .delete [3]], [.ok],
          tableOf [.put [1] [2], .delete [3], .put [3] [4]])] :=
  (sessions_gentle {} { wal := { path := "wal.log" } } (Or.inl rfl) rfl piecemeal (by decide)
    (by decide)).1

/-! ## Crashes -/

/-- What a crash leaves of a file: a first part of it. -/
def DiskFile.cut (file : DiskFile) (n : Nat) : DiskFile :=
  { contents := file.contents.take n, synced := min file.synced n }

theorem completed_append (pos k : Nat) (payloads later : List Bytes) :
    completed pos ((encodedAll pos payloads).length + k) (payloads ++ later) =
      payloads ++ completed (pos + (encodedAll pos payloads).length) k later := by
  induction payloads generalizing pos with
  | nil => simp [encodedAll]
  | cons payload rest ih =>
      simp only [List.cons_append, completed, encodedAll, List.length_append]
      rw [if_pos (by omega), Nat.add_assoc, Nat.add_sub_cancel_left, ih, Nat.add_assoc]

/-- A log that was cut in its last record holds all records before it. -/
theorem recordsOf_last (history : List Op) (op : Op) {n : Nat}
    (kept : (encodedAll 0 (history.map Op.record)).length ≤ n) :
    recordsOf ((encodedAll 0 ((history ++ [op]).map Op.record)).take n) = history.map Op.record ∨
      recordsOf ((encodedAll 0 ((history ++ [op]).map Op.record)).take n) =
        (history ++ [op]).map Op.record := by
  obtain ⟨k, rfl⟩ := Nat.exists_eq_add_of_le kept
  have read := (records_encodedAll ((history ++ [op]).map Op.record)
    ((encodedAll 0 (history.map Op.record)).length + k)).1
  rw [List.map_append, completed_append, ← List.map_append] at read
  rw [recordsOf, read]
  simp only [List.map_cons, List.map_nil, completed]
  split
  · right
    rw [List.map_append]
    rfl
  · exact Or.inl (List.append_nil _)

/-- A crash in the middle of an operation. If everything before it returned OK,
    whatever the system calls did, and the crash leaves what was synced, the next
    `Open` finds exactly the operations before, or these and the last one. -/
theorem crash_recovers (options : Options) (dir : PosixDir) (new : dir.wal.file = none)
    (earlier : List (Syscalls × List Op)) (calls : Syscalls) (ops : List Op) (op : Op)
    (small : ∀ o ∈ (earlier.map Prod.snd).flatten ++ ops ++ [op], o.Small)
    (acked : ∀ shown ∈ (dir.sessions options (earlier ++ [(calls, ops)])).1, Acked shown)
    (n : Nat)
    (kept : ((dir.sessions options (earlier ++ [(calls, ops)])).2.getD {}).synced ≤ n)
    (again : Syscalls) (gentle : again.Gentle) :
    let file := (dir.sessions options (earlier ++ [(calls, ops ++ [op])])).2.getD {}
    let dir' := { dir with wal := { dir.wal with file := some (file.cut n), calls := again } }
    ∃ db, PosixDB.openAt options dir' = .ok db ∧
      (db.table = tableOf ((earlier.map Prod.snd).flatten ++ ops) ∨
        db.table = tableOf ((earlier.map Prod.snd).flatten ++ ops ++ [op])) := by
  intro file dir'
  have fresh : (dir.wal.file.getD {}).Keeps [] := by
    rw [new]
    exact ⟨rfl, rfl⟩
  rw [sessions_append] at acked kept
  have before := sessions_keep fresh earlier fun shown member =>
    acked shown (List.mem_append_left _ member)
  rw [List.nil_append] at before
  obtain ⟨last, isLast⟩ : ∃ last : PosixDir, last = { dir with
    wal := { dir.wal with file := (dir.sessions options earlier).2, calls } } := ⟨_, rfl⟩
  have acked := acked (last.session options ops).1
    (List.mem_append_right _ (by rw [isLast]; exact List.mem_cons_self))
  have kept : ((last.session options ops).2.getD {}).synced ≤ n := by
    rw [isLast]
    exact kept
  have isFile : file = (last.session options (ops ++ [op])).2.getD {} := by
    rw [isLast]
    simp only [file, sessions_append]
    rfl
  rw [PosixDir.session] at acked kept isFile
  split at acked
  · rename_i db found
    rw [found] at kept isFile
    have opened : db.Keeps (earlier.map Prod.snd).flatten :=
      PosixDB.Keeps.opened found (by rw [isLast]; exact before)
    have ran := opened.run ops acked
    obtain ⟨k, written⟩ := ran.torn op
    have length : (db.run ops).2.walFile.contents.length =
        (encodedAll 0 (((earlier.map Prod.snd).flatten ++ ops).map Op.record)).length :=
      congrArg List.length ran.disk.contents
    have synced : (db.run ops).2.walFile.contents.length ≤ n := ran.disk.synced.symm.trans_le kept
    have contents : (file.cut n).contents = (encodedAll 0
        (((earlier.map Prod.snd).flatten ++ ops ++ [op]).map Op.record)).take
          (min n ((db.run ops).2.walFile.contents.length + k)) := by
      have whole : file = (db.run (ops ++ [op])).2.disk := isFile
      rw [whole, PosixDB.run_append, DiskFile.cut, PosixDB.disk, written, List.take_take]
    have usable : options.createIfMissing = true ∨ dir'.present = true := by
      have usable := openAt_usable found
      rwa [isLast] at usable
    refine ⟨_, openAt_gentle usable gentle, ?_⟩
    dsimp only [dir', Option.getD_some]
    rw [contents]
    rcases recordsOf_last ((earlier.map Prod.snd).flatten ++ ops) op
      (n := min n ((db.run ops).2.walFile.contents.length + k)) (by omega) with without | all
    · rw [without, replay_records fun o member => small o (List.mem_append_left _ member)]
      exact Or.inl rfl
    · rw [all, replay_records small]
      exact Or.inr rfl
  · exact absurd acked id

/-- The disk is full three bytes into the second operation. -/
def diskFull : Syscalls :=
  { writes := [.upTo 99, .upTo 99, .upTo 2, .failed (.other "No space left on device")] }

theorem crash_recovers_diskFull :
    ∃ db, PosixDB.openAt {}
        { wal := {
            path := "wal.log"
            file := some (((PosixDir.sessions {} { wal := { path := "wal.log" } }
              [(diskFull, [.put [1] [2], .put [3] [4]])]).2.getD {}).cut 20)
            calls := { reads := [.upTo 3] } } } = .ok db ∧
      (db.table = tableOf [.put [1] [2]] ∨ db.table = tableOf [.put [1] [2], .put [3] [4]]) :=
  crash_recovers {} { wal := { path := "wal.log" } } rfl [] diskFull [.put [1] [2]] (.put [3] [4])
    (by decide) (by decide +kernel) 20 (by decide +kernel) { reads := [.upTo 3] } (by decide)

end MiniLsm
