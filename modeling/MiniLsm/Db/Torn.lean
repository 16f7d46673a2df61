import MiniLsm.Db.Recovery
import MiniLsm.Wal.Seam

/-! # Databases opened on a torn log

When exactly the session after a crash is durable. The writer continues at the
raw length of the file; unless nothing of a torn record is left, or the rest of
the block is too short for a header, the first record of the session stands
where the reader still looks for the end of the torn one.
-/

namespace MiniLsm

open Wal

/-- The table that `Open` builds from the bytes of a log. -/
def replayed (bytes : Bytes) : Table := (recordsOf bytes).foldl DB.applyRecord Table.empty

/-- The log does not end inside a physical record, or the writer will fill up
    the block with zeros and these do not change what the log replays to. -/
def Resumable (bytes : Bytes) : Prop :=
  endsInRecord 0 bytes = false ∨
    room bytes.length < kHeaderSize ∧
      replayed (bytes ++ List.replicate (room bytes.length) 0) = replayed bytes

theorem tornWal_isLog (earlier : List (List Op)) (n : Nat) : IsLog (tornWal earlier n).contents := by
  rw [(tornWal_eq earlier n).2, ← encode_fragmentsAll]
  exact ⟨_, fragmentsAll_chain 0 _, List.take_prefix _ _⟩

/-- Durability in terms of what the torn log itself replays to. -/
theorem durable_iff_replayed {earlier : List (List Op)} {n : Nat} {new : List Op}
    (small : ∀ op ∈ earlier.flatten, op.Small) :
    Durable earlier n new ↔
      replayed ((tornWal earlier n).contents ++
        encodedAll (tornWal earlier n).contents.length (new.map Op.record)) =
          new.foldl Op.effect (replayed (tornWal earlier n).contents) := by
  have before : replayed (tornWal earlier n).contents =
      tableOf (completedOps n earlier.flatten) := by
    rw [replayed, (tornWal_eq earlier n).2, recordsOf_cut, replay_records (completedOps_small small)]
    rfl
  rw [durable_iff, before, tableOf, List.foldl_append]
  rfl

/-- A session that starts in a new block comes after what the padded log holds. -/
theorem recordsOf_padded {bytes : Bytes} (log : IsLog bytes) (torn : endsInRecord 0 bytes = true)
    (short : room bytes.length < kHeaderSize) (payload : Bytes) (later : List Bytes) :
    recordsOf (bytes ++ encodedAll bytes.length (payload :: later)) =
      recordsOf (bytes ++ List.replicate (room bytes.length) 0) ++ payload :: later := by
  obtain ⟨tail, inside, scratch, isTorn, seam⟩ := log.seam torn
  obtain ⟨state, open_⟩ := @Torn.padded bytes tail isTorn short inside scratch
  have filled : (List.replicate (room bytes.length) (0 : UInt8)).length = room bytes.length := by simp
  have padded : room bytes.length ≤ padding bytes.length := Nat.le_of_eq (if_pos short).symm
  have read := seam _ [] filled trivial
  have resumed := seam _ (fragmentsAll (bytes.length + room bytes.length) (payload :: later)) filled
    (by rw [filled]; exact fragmentsAll_chain _ _)
  rw [encode_nil, List.append_nil] at read
  rw [encode_fragmentsAll, ← encodedAll_shift padded] at resumed
  rw [resumed, read, open_]
  obtain ⟨inside', scratch'⟩ := state
  simp only [afterScan, collect_fragmentsAll]
  simp [collect]

/-! ## A lost operation -/

section Lost

variable {key : Bytes}

/-- The record of a put up to its value of one byte. -/
def putStart (key : Bytes) : Bytes := [kTypePut] ++ encodeSize key.length ++ key ++ encodeSize 1

theorem record_put (key : Bytes) (v : UInt8) : (Op.put key [v]).record = putStart key ++ [v] := by
  simp [Op.record, Op.type, Op.key, Op.value, encodeRecord, putStart]

/-- What a record does to a key is to leave it or to put the value it holds. -/
theorem applyRecord_eq_some {table : Table} {record value : Bytes}
    (h : DB.applyRecord table record key = some value) :
    table key = some value ∨ decodeRecord record = some (kTypePut, key, value) := by
  rw [DB.applyRecord] at h
  cases decoded : decodeRecord record with
  | none =>
      rw [decoded] at h
      exact Or.inl h
  | some found =>
      obtain ⟨type, key', value'⟩ := found
      rw [decoded] at h
      by_cases put : type = kTypePut
      · by_cases same : key = key'
        · right
          simpa [DB.apply, put, same] using h
        · left
          simpa [DB.apply, put, same] using h
      · left
        by_cases same : key = key'
        · simp [DB.apply, put, same] at h
        · simpa [DB.apply, put, same] using h

/-- Two records that differ in their last byte only and decode to puts of that
    byte end with it. -/
theorem put_ends {stem : Bytes} {v w : UInt8} (different : v ≠ w)
    (first : decodeRecord (stem ++ [v]) = some (kTypePut, key, [v]))
    (second : decodeRecord (stem ++ [w]) = some (kTypePut, key, [w])) : stem = putStart key := by
  obtain ⟨rest, split⟩ := decodeRecord_put first
  obtain ⟨rest', split'⟩ := decodeRecord_put second
  have start (v : UInt8) : encodeRecord kTypePut key [v] = putStart key ++ [v] := record_put key v
  rw [start] at split split'
  have lengths := congrArg List.length split
  simp only [List.length_append, List.length_singleton] at lengths
  rcases Nat.lt_or_ge (putStart key).length stem.length with longer | level
  · have next {v : UInt8} {rest : Bytes} (split : stem ++ [v] = putStart key ++ [v] ++ rest) :
        stem.take ((putStart key).length + 1) = putStart key ++ [v] := by
      have front := congrArg (List.take ((putStart key).length + 1)) split
      rwa [List.take_append_of_le_length longer, List.take_left' (by simp)] at front
    have same := (next split).symm.trans (next split')
    exact absurd (by simpa using same) different
  · rw [List.append_assoc] at split
    exact (List.append_inj split (by omega)).1

theorem two_others (found : Option Bytes) :
    ∃ v w : UInt8, v ≠ w ∧ found ≠ some [v] ∧ found ≠ some [w] := by
  by_cases zero : found = some [0]
  · exact ⟨1, 2, by decide, by simp [zero], by simp [zero]⟩
  · by_cases one : found = some [1]
    · exact ⟨0, 2, by decide, zero, by simp [one]⟩
    · exact ⟨0, 1, by decide, zero, one⟩

/-- A long put behind a torn record, of one of two values, is lost. -/
theorem lost_put {bytes : Bytes} (log : IsLog bytes) (torn : endsInRecord 0 bytes = true)
    (enough : kHeaderSize ≤ room bytes.length) (long : room bytes.length ≤ (putStart key).length)
    (distinct : Distinct ((putStart key).take (room bytes.length - kHeaderSize))) :
    ∃ v : UInt8, replayed (bytes ++ encodedAll bytes.length [(Op.put key [v]).record]) key ≠
      some [v] := by
  obtain ⟨done, lost | ⟨scratch, other, joined⟩⟩ := log.seam_long torn enough long distinct
  · obtain ⟨v, -, -, free, -⟩ :=
      two_others (((recordsOf bytes ++ done).foldl DB.applyRecord Table.empty) key)
    refine ⟨v, ?_⟩
    rwa [replayed, record_put, lost]
  · obtain ⟨v, w, different, freeV, freeW⟩ :=
      two_others (((recordsOf bytes ++ done).foldl DB.applyRecord Table.empty) key)
    have decoded {v : UInt8}
        (free : ((recordsOf bytes ++ done).foldl DB.applyRecord Table.empty) key ≠ some [v])
        (kept : replayed (bytes ++ encodedAll bytes.length [(Op.put key [v]).record]) key =
          some [v]) :
        decodeRecord (scratch ++ (putStart key).drop (room bytes.length - kHeaderSize) ++ [v]) =
          some (kTypePut, key, [v]) := by
      rw [replayed, record_put, joined, List.foldl_append, List.foldl_cons, List.foldl_nil] at kept
      exact (applyRecord_eq_some kept).resolve_left free
    apply Classical.byContradiction
    intro none
    have kept (v : UInt8) :
        replayed (bytes ++ encodedAll bytes.length [(Op.put key [v]).record]) key = some [v] :=
      Decidable.byContradiction fun gone => none ⟨v, gone⟩
    have whole := put_ends different (decoded freeV (kept v)) (decoded freeW (kept w))
    conv at whole => rhs; rw [← List.take_append_drop (room bytes.length - kHeaderSize) (putStart key)]
    exact other (List.append_cancel_right whole)

/-- A key that makes the record longer than a block. -/
theorem distinct_putStart (length : key.length = 32768) (plain : ∀ b ∈ key, b = 107) (n : Nat)
    (within : n < 65536) : Distinct ((putStart key).take n) := by
  have start : putStart key = [1, 0, 128, 0, 0] ++ (key ++ [1, 0, 0, 0]) := by
    have sizes : encodeSize 32768 = [0, 128, 0, 0] ∧ encodeSize 1 = [1, 0, 0, 0] := by decide
    rw [putStart, length, sizes.1, sizes.2]
    simp [kTypePut]
  refine ⟨?_, ?_, ?_⟩
  · rw [List.length_take]
    omega
  · intro b member
    have member := List.mem_of_mem_take member
    rw [start, List.mem_append, List.mem_append] at member
    have ends : ∀ b ∈ ([1, 0, 128, 0, 0] ++ [1, 0, 0, 0] : Bytes), b ≠ 2 ∧ b ≠ 3 := by decide +kernel
    rcases member with front | inKey | back
    · exact ends b (List.mem_append_left _ front)
    · rw [plain b inKey]
      decide
    · exact ends b (List.mem_append_right _ back)
  · intro short
    have few : n < 6 := by
      rw [List.length_take, start, List.length_append, List.length_append, length] at short
      simp at short
      omega
    have front : (putStart key).take n = [1, 0, 128, 0, 0].take n := by
      rw [start, List.take_append_of_le_length (by simp; omega)]
    have checked : ∀ n < 6, (Writer.header .first (([1, 0, 128, 0, 0] : Bytes).take n)).headD 0 ∉
        [0, 2, 3] ∧ ∀ i ∈ [1, 2, 3],
          (Writer.header .first (([1, 0, 128, 0, 0] : Bytes).take n)).getD i 0 ≠ 0 := by
      decide +kernel
    rw [front]
    exact checked n few

end Lost

/-! ## When the session after a crash is durable -/

section Durability

variable {earlier : List (List Op)} {n : Nat}

theorem not_durable_of_room (small : ∀ op ∈ earlier.flatten, op.Small)
    (torn : endsInRecord 0 (tornWal earlier n).contents = true)
    (enough : kHeaderSize ≤ room (tornWal earlier n).contents.length) :
    ∃ op : Op, op.Small ∧ ¬ Durable earlier n [op] := by
  have block := room_eq (tornWal earlier n).contents.length
  obtain ⟨key, length, plain⟩ : ∃ key : Bytes, key.length = 32768 ∧ ∀ b ∈ key, b = 107 :=
    ⟨List.replicate 32768 107, List.length_replicate, fun _ => List.eq_of_mem_replicate⟩
  have long : room (tornWal earlier n).contents.length ≤ (putStart key).length := by
    simp only [putStart, List.length_append, List.length_singleton, encodeSize_length, length]
    omega
  obtain ⟨v, gone⟩ := lost_put (tornWal_isLog earlier n) torn enough long
    (distinct_putStart length plain _ (by omega))
  have few : key.length < UInt32.size := by
    rw [length]
    decide
  refine ⟨.put key [v], ⟨few, (by decide : 1 < UInt32.size)⟩, fun durable => gone ?_⟩
  have same := congrFun ((durable_iff_replayed small).mp durable) key
  rw [List.map_singleton] at same
  rw [same]
  simp [Op.effect, DB.apply, Op.type, Op.key, Op.value]

/-- A session behind padding: its operations come on top of what the padded log
    replays to. -/
theorem replayed_padded (torn : endsInRecord 0 (tornWal earlier n).contents = true)
    (short : room (tornWal earlier n).contents.length < kHeaderSize) {op : Op} {later : List Op}
    (small : ∀ o ∈ op :: later, o.Small) :
    replayed ((tornWal earlier n).contents ++
        encodedAll (tornWal earlier n).contents.length ((op :: later).map Op.record)) =
      (op :: later).foldl Op.effect (replayed ((tornWal earlier n).contents ++
        List.replicate (room (tornWal earlier n).contents.length) 0)) := by
  rw [replayed, List.map_cons, recordsOf_padded (tornWal_isLog earlier n) torn short,
    ← List.map_cons, List.foldl_append, replay_records small]
  rfl

/-- Which operations are durable after a crash depends on the torn log alone:
    every session is, exactly if the log can be resumed. -/
theorem durable_iff_resumable (earlier : List (List Op)) (n : Nat)
    (small : ∀ op ∈ earlier.flatten, op.Small) :
    (∀ new : List Op, (∀ op ∈ new, op.Small) → Durable earlier n new) ↔
      Resumable (tornWal earlier n).contents := by
  constructor
  · intro durable
    cases torn : endsInRecord 0 (tornWal earlier n).contents with
    | false => exact Or.inl torn
    | true =>
        have short : room (tornWal earlier n).contents.length < kHeaderSize := by
          apply Nat.lt_of_not_le
          intro enough
          obtain ⟨op, smallOp, lost⟩ := not_durable_of_room small torn enough
          exact lost (durable [op] (by simpa using smallOp))
        refine Or.inr ⟨short, funext fun key => ?_⟩
        -- an operation on another key leaves the difference, if there is one
        obtain ⟨other, different, few⟩ : ∃ other : Bytes, key ≠ other ∧ other.length < UInt32.size := by
          cases key with
          | nil => exact ⟨[0], by simp, by decide⟩
          | cons b rest => exact ⟨[], by simp, by decide⟩
        have smallOp : ∀ op ∈ [Op.put other []], op.Small := by
          simpa [Op.Small, Op.key, Op.value] using few
        have same := (durable_iff_replayed small).mp (durable [.put other []] smallOp)
        rw [replayed_padded torn short smallOp] at same
        simpa [Op.effect, DB.apply, Op.type, Op.key, Op.value, different] using congrFun same key
  · rintro (clean | ⟨short, same⟩) new smallNew
    · exact durable_of_clean small smallNew clean
    · cases torn : endsInRecord 0 (tornWal earlier n).contents with
      | false => exact durable_of_clean small smallNew torn
      | true =>
          rw [durable_iff_replayed small]
          cases new with
          | nil => simp [encodedAll]
          | cons op later => rw [replayed_padded torn short smallNew, same]

/-- A crash behind the first record of a session. -/
theorem durable_iff_resumable_afterFirst :
    completedOps 18 [.put [1] [2], .delete [1]] = [.put [1] [2]] ∧
      ∀ new : List Op, (∀ op ∈ new, op.Small) →
        Durable [[.put [1] [2], .delete [1]]] 18 new := by
  have small : ∀ op ∈ [[Op.put [1] [2], .delete [1]]].flatten, op.Small := by decide
  refine ⟨by decide +kernel,
    (durable_iff_resumable [[.put [1] [2], .delete [1]]] 18 small).mpr (Or.inl ?_)⟩
  rw [(tornWal_eq _ _).2]
  decide +kernel

/-- One byte of a torn record is left. The put after it is acknowledged, and is
    not there after the next reopening. -/
theorem acknowledged_put_lost :
    ¬ ∀ (earlier : List (List Op)) (n : Nat) (new : List Op),
      (∀ op ∈ earlier.flatten, op.Small) → (∀ op ∈ new, op.Small) → Durable earlier n new := by
  intro claim
  have durable := claim [[.put [1] [2]]] 1 [.put [3] [4]] (by decide) (by decide)
  have table := congrFun (durable_iff.mp durable) [3]
  rw [(tornWal_eq _ _).2] at table
  revert table
  decide +kernel

end Durability

end MiniLsm
