import MiniLsm.Db.Recovery
import MiniLsm.Wal.Faults
import MiniLsm.Wal.Posix

/-! # The store over system calls

`DB` with its log in a file that is read and written by system calls. Whatever
these do, the store behaves as over a file some of whose calls fail; and where
none fails for good, as over a file that never fails.
-/

namespace MiniLsm

open Wal Dialogue

/-! ## Calls -/

namespace DB

/-- `Write`, with the table and the block offset that it leaves. -/
def writeCalls (table : Table) (blockOffset : Nat) (op : Op) :
    Dialogue FileCall Status (Status × Table × Nat) := do
  let (s, blockOffset') ← Writer.addRecordCalls blockOffset op.record true
  if s.isOk then
    let s ← ask .sync
    if s.isOk then pure (.ok, op.effect table, blockOffset') else pure (s, table, blockOffset')
  else pure (s, table, blockOffset')

/-- Operations one after the other. -/
def runCalls (table : Table) (blockOffset : Nat) :
    List Op → Dialogue FileCall Status (List Status × Table × Nat)
  | [] => pure ([], table, blockOffset)
  | op :: later => do
      let (s, table', blockOffset') ← writeCalls table blockOffset op
      let (statuses, last) ← runCalls table' blockOffset' later
      pure (s :: statuses, last)

theorem call_calls (db : DB) (op : Op) :
    let result := (writeCalls db.table db.wal.blockOffset op).run WritableFile.serve db.wal.dest
    op.call db = (result.1.1,
      { table := result.1.2.1, wal := { dest := result.2, blockOffset := result.1.2.2 } }) := by
  have call : op.call db = db.write op.type op.key op.value := by
    cases op with
    | put key value => rfl
    | delete key => rfl
  intro result
  have record : db.wal.addRecord (encodeRecord op.type op.key op.value) = _ :=
    db.wal.addRecordLoop_calls op.record true
  rw [call, DB.write, record]
  simp only [result, writeCalls, run_bind, run_ite, run_pure, run_ask, WritableFile.serve]
  split
  · split
    · rfl
    · rfl
  · rfl

theorem run_calls (db : DB) (ops : List Op) :
    let result := (runCalls db.table db.wal.blockOffset ops).run WritableFile.serve db.wal.dest
    db.run ops = (result.1.1,
      { table := result.1.2.1, wal := { dest := result.2, blockOffset := result.1.2.2 } }) := by
  induction ops generalizing db with
  | nil => rfl
  | cons op later ih =>
      intro result
      rw [DB.run, db.call_calls op]
      dsimp only
      rw [ih]
      simp only [result, runCalls, run_bind, run_pure]

theorem runCalls_append {C : Type} (serve : C → FileCall → Status × C) (c : C) (table : Table)
    (blockOffset : Nat) (ops later : List Op) :
    (runCalls table blockOffset (ops ++ later)).run serve c =
      let first := (runCalls table blockOffset ops).run serve c
      let second := (runCalls first.1.2.1 first.1.2.2 later).run serve first.2
      ((first.1.1 ++ second.1.1, second.1.2), second.2) := by
  induction ops generalizing c table blockOffset with
  | nil => rfl
  | cons op ops ih =>
      simp only [List.cons_append, runCalls, run_bind, run_pure, ih]

end DB

/-! ## The store -/

structure PosixDB where
  table : Table
  walFile : PosixWritableFile
  blockOffset : Nat

/-- The directory of a database, and its `wal.log`. -/
structure PosixDir where
  path : String := ""
  present : Bool := true
  wal : PosixPlace

namespace PosixDB

def replayWal (p : PosixPlace) : Except Status Table := do
  let file ← p.newSequentialFile
  return (PosixReader.records { file }).1.foldl DB.applyRecord Table.empty

def recover (p : PosixPlace) : Except Status PosixDB := do
  let table ← if p.fileExists then replayWal p else pure Table.empty
  let walSize ← if p.fileExists then p.getFileSize else pure 0
  let walFile ← p.newAppendableFile
  return { table, walFile, blockOffset := walSize % kBlockSize }

def openAt (options : Options) (dir : PosixDir) : Except Status PosixDB := do
  if options.createIfMissing then PosixPlace.makeDir dir.path dir.wal.calls.mkdir
  else if !dir.present then
    throw { code := .invalidArgument, msg := dir.path ++ " does not exist" }
  recover dir.wal

/-- Operations one after the other, with what each returned. -/
def run (db : PosixDB) (ops : List Op) : List Status × PosixDB :=
  let ((statuses, table, blockOffset), walFile) :=
    (DB.runCalls db.table db.blockOffset ops).run PosixWritableFile.serve db.walFile
  (statuses, { table, walFile, blockOffset })

theorem run_append (db : PosixDB) (ops later : List Op) :
    db.run (ops ++ later) =
      ((db.run ops).1 ++ ((db.run ops).2.run later).1, ((db.run ops).2.run later).2) := by
  rw [run, DB.runCalls_append]
  rfl

/-- What is on disk under an open store. -/
def disk (db : PosixDB) : DiskFile :=
  { contents := db.walFile.contents, synced := db.walFile.synced }

end PosixDB

/-! ## Faults chosen in advance -/

/-- The same store over a file with faults. -/
structure PosixDB.Shows (db : PosixDB) (db' : DB) : Prop where
  table : db'.table = db.table
  blockOffset : db'.wal.blockOffset = db.blockOffset
  file : db.walFile.Shows db'.wal.dest

theorem PosixDB.Shows.run {db : PosixDB} {g' : WritableFile} (ops : List Op)
    (after : (db.run ops).2.walFile.Shows g') :
    ∃ g, db.walFile.Shows g ∧
      DB.run { table := db.table, wal := { dest := g, blockOffset := db.blockOffset } } ops =
        ((db.run ops).1,
          { table := (db.run ops).2.table
            wal := { dest := g', blockOffset := (db.run ops).2.blockOffset } }) := by
  obtain ⟨g, shows, same⟩ := run_backward (R := PosixWritableFile.Shows)
    (fun _ question _ => PosixWritableFile.Shows.back question)
    (DB.runCalls db.table db.blockOffset ops) after
  refine ⟨g, shows, ?_⟩
  rw [DB.run_calls]
  dsimp only
  rw [same]
  rfl

/-- The text of a failure, if the call fails. -/
def faultOf (context : String) (errno : Option Errno) : Option String :=
  errno.map fun errno => context ++ ": " ++ strerror errno

/-- The calls at a path that is opened once, as faults; a missing file counts as
    an empty one. -/
def PosixPlace.foreseen (p : PosixPlace) (dbpath : String) (readFaults : List (Option String))
    (file : WritableFile) : Place where
  file := some file
  makeDirFault := faultOf ("mkdir " ++ dbpath) (p.calls.mkdir.filter (· ≠ .eexist))
  openFault := if p.fileExists then faultOf ("open " ++ p.path) p.calls.openRead else none
  readFaults
  sizeFault := if p.fileExists then faultOf ("stat " ++ p.path) p.calls.stat else none
  appendableFault := faultOf ("open " ++ p.path) p.calls.openWrite

theorem makeDir_foreseen (p : PosixPlace) (dbpath : String) (readFaults : List (Option String))
    (g : WritableFile) :
    (p.foreseen dbpath readFaults g).makeDir = PosixPlace.makeDir dbpath p.calls.mkdir := by
  rw [Place.makeDir, PosixPlace.foreseen, PosixPlace.makeDir.eq_def]
  cases p.calls.mkdir with
  | none => rfl
  | some errno =>
      by_cases known : errno = .eexist
      · rw [known]
        rfl
      · simp [Option.filter, known, faultOf, Place.unlessFault, posixError]

theorem replayWal_foreseen (p : PosixPlace) {disk : DiskFile} (file : p.file = some disk) :
    ∃ readFaults, (Gentle p.calls.reads → ∀ fault ∈ readFaults, fault = none) ∧
      ∀ (dbpath : String) (g : WritableFile), g.contents = disk.contents →
        DB.replayWal (p.foreseen dbpath readFaults g) = PosixDB.replayWal p := by
  obtain ⟨readFaults, records, -, gentle⟩ := PosixReader.records_foreseen
    { path := p.path, contents := disk.contents, reads := p.calls.reads }
  refine ⟨readFaults, gentle, fun dbpath g contents => ?_⟩
  have here : p.fileExists = true := by rw [PosixPlace.fileExists, file]; rfl
  rw [DB.replayWal, PosixDB.replayWal, PosixPlace.newSequentialFile.eq_def, file]
  cases read : p.calls.openRead with
  | none =>
      simp only [PosixPlace.foreseen, Place.newSequentialFile, here, if_true, faultOf, read,
        Option.map_none, Place.unlessFault, Place.contents, Option.getD_some, contents]
      exact congrArg (fun found => Except.ok (found.foldl DB.applyRecord Table.empty)) records.symm
  | some errno =>
      simp only [PosixPlace.foreseen, Place.newSequentialFile, here, if_true, faultOf, read,
        Option.map_some, Place.unlessFault]
      rfl

theorem recover_foreseen (p : PosixPlace) :
    ∃ readFaults, (Gentle p.calls.reads → ∀ fault ∈ readFaults, fault = none) ∧
      ∀ (dbpath : String) (g : WritableFile), g.contents = (p.file.getD {}).contents →
        DB.recover (p.foreseen dbpath readFaults g) = (PosixDB.recover p).map fun db =>
          { table := db.table, wal := { dest := g, blockOffset := db.blockOffset } } := by
  cases file : p.file with
  | none =>
      refine ⟨[], by simp, fun dbpath g contents => ?_⟩
      have empty : g.contents = [] := contents
      have missing : p.fileExists = false := by rw [PosixPlace.fileExists, file]; rfl
      have nothing : (Reader.records { file := { rest := [] } }).1 = [] := recordsOf_nil
      rw [DB.recover, PosixDB.recover, missing]
      cases write : p.calls.openWrite <;>
      · simp [DB.replayWal, Place.fileExists, PosixPlace.foreseen, missing, Place.newSequentialFile,
          Place.unlessFault, Place.contents, empty, nothing, Place.getFileSize,
          Place.newAppendableFile, faultOf, write, PosixPlace.newAppendableFile, PosixPlace.opened]
        rfl
  | some disk =>
      obtain ⟨readFaults, gentle, replayed⟩ := replayWal_foreseen p file
      refine ⟨readFaults, gentle, fun dbpath g contents => ?_⟩
      have here : p.fileExists = true := by rw [PosixPlace.fileExists, file]; rfl
      have same : (p.foreseen dbpath readFaults g).fileExists = true := rfl
      rw [DB.recover, PosixDB.recover, here, same, replayed dbpath g contents]
      cases PosixDB.replayWal p with
      | error s => rfl
      | ok table =>
          simp only [PosixPlace.foreseen, Place.getFileSize, PosixPlace.getFileSize.eq_def, file, here,
            Place.newAppendableFile, PosixPlace.newAppendableFile, PosixPlace.opened, if_true]
          cases stat : p.calls.stat with
          | some errno => rfl
          | none =>
              cases write : p.calls.openWrite with
              | some errno => rfl
              | none =>
                  have size : g.contents.length = disk.contents.length := congrArg _ contents
                  exact congrArg (fun n => Except.ok (DB.mk table (Writer.new g n))) size

/-- What `Open` over system calls returns, `Open` over files with faults returns. -/
theorem openAt_foreseen (options : Options) (dir : PosixDir) :
    ∃ readFaults, (Gentle dir.wal.calls.reads → ∀ fault ∈ readFaults, fault = none) ∧
      ∀ g : WritableFile, g.contents = (dir.wal.file.getD {}).contents →
        DB.openAt options
            { path := dir.path, present := dir.present
              wal := dir.wal.foreseen dir.path readFaults g } =
          (PosixDB.openAt options dir).map fun db =>
            { table := db.table, wal := { dest := g, blockOffset := db.blockOffset } } := by
  obtain ⟨readFaults, gentle, recovered⟩ := recover_foreseen dir.wal
  refine ⟨readFaults, gentle, fun g contents => ?_⟩
  rw [DB.openAt, PosixDB.openAt, recovered dir.path g contents, makeDir_foreseen]
  cases options.createIfMissing with
  | true =>
      cases PosixPlace.makeDir dir.path dir.wal.calls.mkdir with
      | error s => rfl
      | ok _ => rfl
  | false =>
      cases dir.present with
      | true => rfl
      | false => rfl

theorem bind_ok {α β : Type} {x : Except Status α} {f : α → Except Status β} {b : β}
    (h : (x >>= f) = .ok b) : ∃ a, x = .ok a ∧ f a = .ok b := by
  cases x with
  | error s => cases h
  | ok a => exact ⟨a, rfl, h⟩

/-- `Open` ends with the log open for appending, at the offset of its end. -/
theorem openAt_ok {options : Options} {dir : PosixDir} {db : PosixDB}
    (opened : PosixDB.openAt options dir = .ok db) :
    db.walFile.contents = (dir.wal.file.getD {}).contents ∧
      db.walFile.synced = (dir.wal.file.getD {}).synced ∧
      db.blockOffset = (dir.wal.file.getD {}).contents.length % kBlockSize := by
  have recovered : PosixDB.recover dir.wal = .ok db := by
    rw [PosixDB.openAt] at opened
    split at opened
    · exact (bind_ok opened).choose_spec.2
    · split at opened
      · exact (bind_ok opened).choose_spec.2
      · exact opened
  have appended {table : Table} {walSize : Nat}
      (rest : (do return { table, walFile := ← dir.wal.newAppendableFile
                           blockOffset := walSize % kBlockSize }) = Except.ok db)
      (size : walSize = (dir.wal.file.getD {}).contents.length) :
      db.walFile.contents = (dir.wal.file.getD {}).contents ∧
        db.walFile.synced = (dir.wal.file.getD {}).synced ∧
        db.blockOffset = (dir.wal.file.getD {}).contents.length % kBlockSize := by
    obtain ⟨walFile, appendable, last⟩ := bind_ok rest
    rw [PosixPlace.newAppendableFile, PosixPlace.opened.eq_def] at appendable
    split at appendable
    · cases appendable
    · rw [← Except.ok.inj last, ← Except.ok.inj appendable, size]
      exact ⟨rfl, rfl, rfl⟩
  rw [PosixDB.recover] at recovered
  split at recovered
  · obtain ⟨table, -, rest⟩ := bind_ok recovered
    obtain ⟨walSize, stat, rest⟩ := bind_ok rest
    refine appended rest ?_
    rw [PosixPlace.getFileSize.eq_def] at stat
    split at stat
    · cases stat
    · cases stat
    · rename_i file
      rw [file, ← Except.ok.inj stat]
      rfl
  · rename_i missing
    refine appended recovered ?_
    have none : dir.wal.file = none := by simpa [PosixPlace.fileExists] using missing
    rw [none]
    rfl

/-- A directory that is opened is there or made. -/
theorem openAt_usable {options : Options} {dir : PosixDir} {db : PosixDB}
    (opened : PosixDB.openAt options dir = .ok db) :
    options.createIfMissing = true ∨ dir.present = true := by
  rw [PosixDB.openAt] at opened
  cases create : options.createIfMissing with
  | true => exact Or.inl rfl
  | false =>
      cases present : dir.present with
      | true => exact Or.inr rfl
      | false =>
          rw [create, present] at opened
          cases opened

/-! ## Sessions -/

/-- What a session shows its client: the table it starts with, what the
    operations return, and the table it ends with; or why it could not be
    opened. -/
abbrev Shown := Except Status (Table × List Status × Table)

/-- Open, operations, close. The file is there afterwards, if it could be opened. -/
def PosixDir.session (options : Options) (dir : PosixDir) (ops : List Op) : Shown × Option DiskFile :=
  match PosixDB.openAt options dir with
  | .ok db =>
      let (statuses, last) := db.run ops
      (.ok (db.table, statuses, last.table), some last.disk)
  | .error s => (.error s, dir.wal.file)

/-- Sessions at one path. -/
def PosixDir.sessions (options : Options) (dir : PosixDir) :
    List (Syscalls × List Op) → List Shown × Option DiskFile
  | [] => ([], dir.wal.file)
  | (calls, ops) :: later =>
      let (shown, file) := session options { dir with wal := { dir.wal with calls } } ops
      let (rest, last) := sessions options { dir with wal := { dir.wal with file } } later
      (shown :: rest, last)

/-- Put a file at a path, and leave the faults. -/
def Place.holding (p : Place) (disk : DiskFile) : Place :=
  { p with file := some { p.file.getD {} with contents := disk.contents, synced := disk.synced } }

/-- Open, operations, close over a file with faults. -/
def DbDir.session (options : Options) (dir : DbDir) (ops : List Op) : Shown × DiskFile :=
  match DB.openAt options dir with
  | .ok db =>
      let (statuses, last) := db.run ops
      (.ok (db.table, statuses, last.table),
        { contents := last.wal.dest.contents, synced := last.wal.dest.synced })
  | .error s => (.error s, { contents := dir.wal.contents, synced := (dir.wal.file.getD {}).synced })

/-- Sessions at one path, each with the faults at another one. -/
def DbDir.sessions (options : Options) (path : String) (present : Bool) (disk : DiskFile) :
    List (Place × List Op) → List Shown × DiskFile
  | [] => ([], disk)
  | (faults, ops) :: later =>
      let (shown, disk') := session options { path, present, wal := faults.holding disk } ops
      let (rest, last) := sessions options path present disk' later
      (shown :: rest, last)

/-- A session over system calls is one over a file with faults. -/
theorem session_foreseen (options : Options) (dir : PosixDir) (ops : List Op) :
    ∃ faults : Place,
      DbDir.session options
          { path := dir.path, present := dir.present
            wal := faults.holding (dir.wal.file.getD {}) } ops =
        ((dir.session options ops).1, (dir.session options ops).2.getD {}) := by
  obtain ⟨readFaults, -, foreseen⟩ := openAt_foreseen options dir
  cases found : PosixDB.openAt options dir with
  | error s =>
      let g : WritableFile :=
        { contents := (dir.wal.file.getD {}).contents, synced := (dir.wal.file.getD {}).synced }
      have same := foreseen g rfl
      have held : (dir.wal.foreseen dir.path readFaults g).holding (dir.wal.file.getD {}) =
          dir.wal.foreseen dir.path readFaults g := rfl
      rw [found] at same
      refine ⟨dir.wal.foreseen dir.path readFaults g, ?_⟩
      rw [DbDir.session, PosixDir.session, held, same, found]
      rfl
  | ok db =>
      obtain ⟨contents, synced, -⟩ := openAt_ok found
      obtain ⟨g, shows, ran⟩ := @PosixDB.Shows.run db
        { contents := (db.run ops).2.disk.contents, synced := (db.run ops).2.disk.synced } ops ⟨rfl, rfl⟩
      refine ⟨dir.wal.foreseen dir.path readFaults g, ?_⟩
      have same := foreseen g (shows.contents.trans contents)
      have held : (dir.wal.foreseen dir.path readFaults g).holding (dir.wal.file.getD {}) =
          dir.wal.foreseen dir.path readFaults g := by
        rw [Place.holding, ← contents, ← synced, ← shows.contents, ← shows.synced]
        rfl
      rw [found] at same
      rw [DbDir.session, PosixDir.session, held, same, found]
      simp only [Except.map, ran]
      rfl

/-- Whatever the system calls do, in every session, the store does what it would
    do over files some of whose calls fail: it shows its clients the same, and
    leaves the same bytes. -/
theorem sessions_foreseen (options : Options) (dir : PosixDir)
    (sessions : List (Syscalls × List Op)) :
    ∃ faults : List Place, faults.length = sessions.length ∧
      DbDir.sessions options dir.path dir.present (dir.wal.file.getD {})
          (faults.zip (sessions.map Prod.snd)) =
        ((dir.sessions options sessions).1, (dir.sessions options sessions).2.getD {}) := by
  induction sessions generalizing dir with
  | nil => exact ⟨[], rfl, rfl⟩
  | cons session later ih =>
      obtain ⟨calls, ops⟩ := session
      obtain ⟨faults, here⟩ :=
        session_foreseen options { dir with wal := { dir.wal with calls } } ops
      obtain ⟨rest, length, there⟩ := ih { dir with wal := { dir.wal with
        file := (PosixDir.session options { dir with wal := { dir.wal with calls } } ops).2 } }
      refine ⟨faults :: rest, by rw [List.length_cons, length, List.length_cons], ?_⟩
      rw [List.map_cons, List.zip_cons_cons, PosixDir.sessions, DbDir.sessions]
      dsimp only at here there ⊢
      rw [here]
      dsimp only
      rw [there]

end MiniLsm
