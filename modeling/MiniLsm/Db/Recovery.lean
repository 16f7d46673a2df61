import MiniLsm.Db.Core
import MiniLsm.Wal.Chain

/-! # What a database recovers

A session without I/O errors appends one record for each operation. Reopening
replays the complete records; what comes after a crash depends on where the
crash cut the log.
-/

namespace MiniLsm

open Wal

/-! ## Replay -/

theorem applyRecord_record {op : Op} (small : op.Small) (table : Table) :
    DB.applyRecord table op.record = op.effect table := by
  rw [DB.applyRecord, Op.record, decodeRecord_encodeRecord op.type small.1 small.2]
  cases op with
  | put key value => rfl
  | delete key => rfl

/-- Replaying the records of operations has their effect. -/
theorem replay_records {ops : List Op} (small : ∀ op ∈ ops, op.Small) (table : Table) :
    (ops.map Op.record).foldl DB.applyRecord table = ops.foldl Op.effect table := by
  induction ops generalizing table with
  | nil => rfl
  | cons op later ih =>
      rw [List.forall_mem_cons] at small
      rw [List.map_cons, List.foldl_cons, applyRecord_record small.1, ih small.2]
      rfl

/-! ## One session -/

theorem openAt_eq {p : Place} (sound : p.Sound) :
    DB.openAt {} { wal := p } = .ok
      { table := (recordsOf p.contents).foldl DB.applyRecord Table.empty
        wal := Writer.new (p.file.getD {}) p.contents.length } := by
  obtain ⟨makeDir, openRead, reads, size, appendable, -⟩ := sound
  cases file : p.file with
  | none =>
      have contents : p.contents = [] := by simp [Place.contents, file]
      simp [DB.openAt, DB.recover, Place.makeDir, Place.fileExists, Place.newAppendableFile,
        Place.unlessFault, makeDir, appendable, file, contents, recordsOf_nil]
      rfl
  | some f =>
      simp [DB.openAt, DB.recover, DB.replayWal, Place.makeDir, Place.fileExists,
        Place.newSequentialFile, Place.getFileSize, Place.newAppendableFile, Place.unlessFault,
        makeDir, openRead, reads, size, appendable, file, recordsOf]
      rfl

/-- A database just opened: its table is replayed from the log, and its writer
    continues the log. -/
structure Opened (p : Place) (db : DB) : Prop where
  opened : DB.openAt {} { wal := p } = .ok db
  aligned : db.wal.Aligned
  sound : db.wal.dest.Sound
  contents : db.wal.dest.contents = p.contents
  table : db.table = (recordsOf p.contents).foldl DB.applyRecord Table.empty

theorem Place.Sound.opened {p : Place} (sound : p.Sound) : ∃ db, Opened p db :=
  ⟨_, openAt_eq sound, Writer.new_aligned sound.file.appends, sound.file, rfl, rfl⟩

theorem Place.Sound.replaced {p : Place} (h : p.Sound) {f : WritableFile} (sound : f.Sound) :
    Place.Sound { p with file := some f } :=
  ⟨h.makeDir, h.openRead, h.reads, h.size, h.appendable, sound⟩

/-- What one operation without I/O errors does. -/
structure Wrote (db db' : DB) (op : Op) : Prop where
  aligned : db'.wal.Aligned
  sound : db'.wal.dest.Sound
  contents : db'.wal.dest.contents =
    db.wal.dest.contents ++ encoded db.wal.dest.contents.length op.record
  table : db'.table = op.effect db.table

theorem call_eq {db : DB} (aligned : db.wal.Aligned) (sound : db.wal.dest.Sound) (op : Op) :
    ∃ db', op.call db = (.ok, db') ∧ Wrote db db' op := by
  obtain ⟨w, added, aligned', dest⟩ := aligned.addRecordLoop op.record true
  have added : db.wal.addRecord op.record = (.ok, w) := added
  have sound' : w.dest.Sound := by
    rw [dest]
    exact ⟨sound.appends, sound.syncs⟩
  have call : op.call db = db.write op.type op.key op.value := by
    cases op with
    | put key value => rfl
    | delete key => rfl
  refine ⟨{ table := op.effect db.table
            wal := { w with dest := { w.dest with synced := w.dest.contents.length } } }, ?_,
    ⟨aligned'.appends, aligned'.bound, aligned'.cursor⟩, ⟨sound'.appends, sound'.syncs⟩, ?_, rfl⟩
  · rw [call, DB.write]
    have record : encodeRecord op.type op.key op.value = op.record := rfl
    simp only [record, added, Status.isOk_ok, if_true, sound'.sync]
    rfl
  · simp only [dest]
    rfl

/-- A session without I/O errors: every operation returns OK, and the log grows
    by one record for each. -/
theorem run_eq {db : DB} (aligned : db.wal.Aligned) (sound : db.wal.dest.Sound) (ops : List Op) :
    (∀ s ∈ (db.run ops).1, s = .ok) ∧ (db.run ops).2.wal.Aligned ∧
      (db.run ops).2.wal.dest.Sound ∧
      (db.run ops).2.wal.dest.contents = db.wal.dest.contents ++
        encodedAll db.wal.dest.contents.length (ops.map Op.record) ∧
      (db.run ops).2.table = ops.foldl Op.effect db.table := by
  induction ops generalizing db with
  | nil => exact ⟨by simp [DB.run], aligned, sound, by simp [DB.run, encodedAll], rfl⟩
  | cons op later ih =>
      obtain ⟨db', call, wrote⟩ := call_eq aligned sound op
      obtain ⟨statuses, aligned', sound', contents, table⟩ := ih wrote.aligned wrote.sound
      simp only [DB.run, call, List.forall_mem_cons, true_and]
      refine ⟨statuses, aligned', sound', ?_, ?_⟩
      · rw [contents, wrote.contents, List.append_assoc, List.length_append]
        rfl
      · rw [table, wrote.table]
        rfl

/-- Sessions without I/O errors write the records of all their operations. -/
theorem sessions_contents {p : Place} (sound : p.Sound) (split : List (List Op)) :
    (DB.sessions p split).Sound ∧ (DB.sessions p split).contents =
      p.contents ++ encodedAll p.contents.length (split.flatten.map Op.record) := by
  induction split generalizing p with
  | nil => exact ⟨sound, by simp [DB.sessions, encodedAll]⟩
  | cons ops later ih =>
      obtain ⟨db, opened⟩ := sound.opened
      obtain ⟨-, -, sound', contents, -⟩ := run_eq opened.aligned opened.sound ops
      obtain ⟨last, whole⟩ := ih (sound.replaced sound')
      rw [DB.sessions, opened.opened]
      refine ⟨last, whole.trans ?_⟩
      rw [opened.contents] at contents
      have replaced : Place.contents { p with file := some (db.run ops).2.wal.dest } =
          (db.run ops).2.wal.dest.contents := rfl
      rw [replaced, contents, List.flatten_cons, List.map_append, encodedAll_append,
        List.append_assoc, List.length_append]

/-! ## After a crash -/

/-- The operations of a log whose records end in its first `n` bytes. -/
def completedOps (n : Nat) (ops : List Op) : List Op :=
  ((ops.zip (recordEnds 0 (ops.map Op.record))).filter (fun x => x.2.2 ≤ n)).map Prod.fst

theorem filter_recordEnds (pos n : Nat) (ops : List Op) :
    ((recordEnds pos (ops.map Op.record)).filter (fun x => x.2 ≤ n)).map Prod.fst =
      (((ops.zip (recordEnds pos (ops.map Op.record))).filter (fun x => x.2.2 ≤ n)).map
        Prod.fst).map Op.record := by
  induction ops generalizing pos with
  | nil => rfl
  | cons op later ih =>
      simp only [List.map_cons, recordEnds, List.zip_cons_cons, List.filter_cons]
      split
      · simp only [List.map_cons, ih]
      · exact ih _

/-- A cut log replays to the operations that are complete in it. -/
theorem recordsOf_cut (ops : List Op) (n : Nat) :
    recordsOf ((encodedAll 0 (ops.map Op.record)).take n) =
      (completedOps n ops).map Op.record := by
  have read := (records_encodedAll (ops.map Op.record) n).1
  rw [completed_eq_filter, Nat.zero_add, filter_recordEnds] at read
  exact read

theorem completedOps_small {n : Nat} {ops : List Op} (small : ∀ op ∈ ops, op.Small) :
    ∀ op ∈ completedOps n ops, op.Small := by
  intro op member
  obtain ⟨x, filtered, rfl⟩ := List.mem_map.mp member
  exact small _ (List.of_mem_zip (List.mem_filter.mp filtered).1).1

/-- The log of earlier sessions after a crash. -/
def tornWal (earlier : List (List Op)) (n : Nat) : Place := (DB.sessions {} earlier).cut n

/-- The operations of the session after a crash, once acknowledged, are there
    after a further reopening, on top of those that were complete before. -/
def Durable (earlier : List (List Op)) (n : Nat) (new : List Op) : Prop :=
  ∃ db, DB.openAt {} { wal := tornWal earlier n } = .ok db ∧
    ((∀ s ∈ (db.run new).1, s = .ok) →
      ∃ db', DB.openAt {}
          { wal := { tornWal earlier n with file := some (db.run new).2.wal.dest } } = .ok db' ∧
        db'.table = tableOf (completedOps n earlier.flatten ++ new))

theorem tornWal_eq (earlier : List (List Op)) (n : Nat) :
    (tornWal earlier n).Sound ∧
      (tornWal earlier n).contents =
        (encodedAll 0 (earlier.flatten.map Op.record)).take n := by
  have fresh : Place.Sound {} := ⟨rfl, rfl, rfl, rfl, rfl, rfl, rfl⟩
  obtain ⟨sound, contents⟩ := sessions_contents fresh earlier
  have contents : (DB.sessions {} earlier).contents =
      encodedAll 0 (earlier.flatten.map Op.record) := contents
  rw [← contents]
  obtain ⟨makeDir, openRead, reads, size, appendable, file⟩ := sound
  cases present : (DB.sessions {} earlier).file with
  | none =>
      refine ⟨⟨makeDir, openRead, reads, size, appendable, ?_⟩, ?_⟩
      · simpa [tornWal, Place.cut, present] using file
      · simp [tornWal, Place.cut, Place.contents, present]
  | some f =>
      refine ⟨⟨makeDir, openRead, reads, size, appendable, ?_⟩, ?_⟩
      · rw [present] at file
        simpa [tornWal, Place.cut, present] using
          (⟨file.appends, file.syncs⟩ : WritableFile.Sound
            { f with contents := f.contents.take n, synced := min f.synced n })
      · simp [tornWal, Place.cut, Place.contents, present]

/-- What decides durability is how the log reads after the new session. -/
theorem durable_iff {earlier : List (List Op)} {n : Nat} {new : List Op} :
    Durable earlier n new ↔
      (recordsOf ((tornWal earlier n).contents ++
        encodedAll (tornWal earlier n).contents.length (new.map Op.record))).foldl
          DB.applyRecord Table.empty = tableOf (completedOps n earlier.flatten ++ new) := by
  obtain ⟨sound, -⟩ := tornWal_eq earlier n
  obtain ⟨db, opened⟩ := sound.opened
  obtain ⟨statuses, -, sound', contents, -⟩ := run_eq opened.aligned opened.sound new
  obtain ⟨db', opened'⟩ := (sound.replaced sound').opened
  rw [opened.contents] at contents
  have table : db'.table = (recordsOf ((tornWal earlier n).contents ++
      encodedAll (tornWal earlier n).contents.length (new.map Op.record))).foldl
        DB.applyRecord Table.empty := by
    rw [opened'.table, ← contents]
    rfl
  rw [← table]
  constructor
  · rintro ⟨db₁, first, durable⟩
    obtain rfl : db = db₁ := Except.ok.inj (opened.opened.symm.trans first)
    obtain ⟨db₂, second, same⟩ := durable statuses
    obtain rfl : db' = db₂ := Except.ok.inj (opened'.opened.symm.trans second)
    exact same
  · exact fun same => ⟨db, opened.opened, fun _ => ⟨db', opened'.opened, same⟩⟩

theorem durable_of_clean {earlier : List (List Op)} {n : Nat} {new : List Op}
    (smallEarlier : ∀ op ∈ earlier.flatten, op.Small) (smallNew : ∀ op ∈ new, op.Small)
    (clean : endsInRecord 0 (tornWal earlier n).contents = false) : Durable earlier n new := by
  obtain ⟨-, contents⟩ := tornWal_eq earlier n
  have log : IsLog (tornWal earlier n).contents := by
    rw [contents, ← encode_fragmentsAll]
    exact ⟨_, fragmentsAll_chain 0 _, List.take_prefix _ _⟩
  obtain ⟨-, read, -⟩ := log.resume clean (new.map Op.record)
  have before := recordsOf_cut earlier.flatten n
  rw [← contents] at before
  have small : ∀ op ∈ completedOps n earlier.flatten ++ new, op.Small := by
    intro op member
    rcases List.mem_append.mp member with old | fresh
    · exact completedOps_small smallEarlier op old
    · exact smallNew op fresh
  rw [durable_iff, read, before, ← List.map_append, replay_records small]
  rfl

end MiniLsm
