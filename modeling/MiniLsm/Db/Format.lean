import MiniLsm.Machine.Codec
import MiniLsm.Db.Refinement

/-! # What a write-ahead log may hold

Whatever is in `wal.log`, the table that `Open` makes of it is the one that calls
of `Put` and `Delete` make of a new database.
-/

namespace MiniLsm

open Wal

/-- What `DecodeRecord` takes and gives. -/
def recordCodec : Codec UInt8 (UInt8 × Bytes × Bytes) where
  Fits := fun (type, key, value) => key.length < UInt32.size ∧ value.length < UInt32.size ∧
    (type ≠ kTypePut → value = [])
  encode := fun (type, key, value) => encodeRecord type key value
  decode := decodeRecord
  accepts := by
    intro record decoded
    rw [decodeRecord_eq_some_iff]
    exact ⟨fun ⟨smallKey, smallValue, bare, rest, same⟩ =>
        ⟨⟨smallKey, smallValue, bare⟩, rest, same.symm⟩,
      fun ⟨⟨smallKey, smallValue, bare⟩, rest, same⟩ =>
        ⟨smallKey, smallValue, bare, rest, same.symm⟩⟩

/-- The operation that has the effect of a decoded record: any type but that of a
    put erases the key. -/
def Op.ofDecoded : UInt8 × Bytes × Bytes → Op
  | (type, key, value) => if type = kTypePut then .put key value else .delete key

theorem Op.effect_ofDecoded (table : Table) (decoded : UInt8 × Bytes × Bytes) :
    (Op.ofDecoded decoded).effect table = DB.apply table decoded.1 decoded.2.1 decoded.2.2 := by
  obtain ⟨type, key, value⟩ := decoded
  rw [Op.ofDecoded]
  by_cases put : type = kTypePut
  · rw [if_pos put, put]
    rfl
  · rw [if_neg put, DB.apply, if_neg put]
    rfl

theorem Op.small_ofDecoded {decoded : UInt8 × Bytes × Bytes} (fits : recordCodec.Fits decoded) :
    (Op.ofDecoded decoded).Small := by
  obtain ⟨type, key, value⟩ := decoded
  obtain ⟨smallKey, smallValue, -⟩ := fits
  rw [Op.ofDecoded]
  split
  · exact ⟨smallKey, smallValue⟩
  · exact ⟨smallKey, Nat.zero_lt_of_lt smallKey⟩

/-- The operations that `ReplayWal` takes from a file, which may be any bytes and
    may fail to be read. -/
def historyOf (file : SequentialFile) : List Op :=
  ((Reader.records { file }).1.filterMap decodeRecord).map Op.ofDecoded

theorem applyRecord_eq_recordCodec :
    DB.applyRecord = recordCodec.replay fun table (type, key, value) =>
      DB.apply table type key value := by
  funext table record
  rw [DB.applyRecord, Codec.replay]
  show _ = (decodeRecord record).elim _ _
  cases decodeRecord record with
  | none => rfl
  | some decoded => rfl

theorem replayWal_historyOf (p : Place) :
    DB.replayWal p = p.newSequentialFile.map fun file => tableOf (historyOf file) := by
  rw [DB.replayWal]
  cases p.newSequentialFile with
  | error s => rfl
  | ok file =>
      show Except.ok _ = Except.ok (tableOf (historyOf file))
      rw [applyRecord_eq_recordCodec, recordCodec.foldl_replay, tableOf, historyOf, List.foldl_map]
      simp only [Op.effect_ofDecoded]
      rfl

theorem small_historyOf (file : SequentialFile) : ∀ op ∈ historyOf file, op.Small := by
  intro op member
  obtain ⟨decoded, taken, rfl⟩ := List.mem_map.mp member
  exact Op.small_ofDecoded (recordCodec.decoded_fits taken)

theorem Follows.run {db : DB} {history : List Op} (h : Follows db history) {ops : List Op}
    (small : ∀ op ∈ ops, op.Small) :
    (∀ s ∈ (db.run ops).1, s = .ok) ∧ Follows (db.run ops).2 (history ++ ops) := by
  induction ops generalizing db history with
  | nil => exact ⟨by simp [DB.run], by simpa [DB.run] using h⟩
  | cons op later ih =>
      rw [List.forall_mem_cons] at small
      obtain ⟨ok, follows⟩ := h.write small.1
      obtain ⟨statuses, follows'⟩ := ih follows small.2
      rw [List.append_assoc] at follows'
      exact ⟨List.forall_mem_cons.mpr ⟨ok, statuses⟩, follows'⟩

theorem Follows.fresh : ∃ db, DB.openAt {} {} = .ok db ∧ Follows db [] := by
  have sound : Place.Sound {} := ⟨rfl, rfl, rfl, rfl, rfl, rfl, rfl⟩
  obtain ⟨db, opened⟩ := sound.opened
  have table : db.table = tableOf [] := by
    rw [opened.table]
    simp [Place.contents, recordsOf_nil, tableOf]
  exact ⟨db, opened.opened, opened.aligned, opened.sound, opened.contents, table, by simp⟩

/-- The table that `ReplayWal` makes of a file is the one that calls make of a new
    database, and that `Open` rebuilds from the log of these calls. -/
theorem wal_is_history :
    (∀ p : Place, DB.replayWal p =
        p.newSequentialFile.map fun file => tableOf (historyOf file)) ∧
      ∀ file, ∃ db, DB.openAt {} {} = .ok db ∧
        (∀ s ∈ (db.run (historyOf file)).1, s = .ok) ∧
        (db.run (historyOf file)).2.table = tableOf (historyOf file) ∧
        ∃ db', DB.openAt {} { wal := (db.run (historyOf file)).2.place } = .ok db' ∧
          db'.table = tableOf (historyOf file) := by
  refine ⟨replayWal_historyOf, fun file => ?_⟩
  obtain ⟨db, opened, empty⟩ := Follows.fresh
  obtain ⟨statuses, follows⟩ := empty.run (small_historyOf file)
  obtain ⟨db', reopened, follows'⟩ := follows.openAt
  exact ⟨db, opened, statuses, follows.table, db', reopened, follows'.table⟩

end MiniLsm
