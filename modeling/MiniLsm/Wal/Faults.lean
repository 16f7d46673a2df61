import MiniLsm.Wal.Chain

/-! # Writing while calls fail

An `Append` may fail after it wrote a part of its bytes. What a writer leaves in
the file is then a prefix of what it would have written; but its block cursor
moves on as if everything was there.
-/

namespace MiniLsm

/-- An `Append` leaves a prefix of its bytes, all of them if it succeeds. -/
theorem WritableFile.append_written (f : WritableFile) (data : Bytes) :
    ∃ k, (f.append data).2.contents = f.contents ++ data.take k ∧
      ((f.append data).1.isOk = true → data.length ≤ k) := by
  rw [append]
  split
  · exact ⟨_, rfl, by simp⟩
  · exact ⟨data.length, by simp, by simp⟩

namespace Wal

/-- A piece of the front of a list is a piece of the list. -/
theorem take_of_front {short long : Bytes} (front : short <+: long) (k : Nat) :
    short.take k = long.take (min k short.length) := by
  obtain ⟨rest, rfl⟩ := front
  rw [List.take_append_of_le_length (Nat.min_le_right _ _), ← List.take_eq_take_min]

theorem fragmentAt_front (pos : Nat) (left : Bytes) (isBegin : Bool) :
    (fragmentAt pos left isBegin).bytes <+: encode (fragments pos left isBegin) := by
  rw [fragments]
  split
  · exact List.prefix_append _ _
  · exact List.prefix_append _ _

section Writing

variable {w : Writer} {pos : Nat}

/-- The cursor of a writer stands where a file position does in its block. -/
structure Writer.Stands (w : Writer) (pos : Nat) : Prop where
  bound : w.blockOffset ≤ kBlockSize
  cursor : w.blockOffset % kBlockSize = pos % kBlockSize

theorem Writer.Stands.switchBlock (h : w.Stands pos) :
    (∃ k, w.switchBlock.2.dest.contents =
        w.dest.contents ++ (List.replicate (padding pos) 0).take k ∧
      (w.switchBlock.1.isOk = true → padding pos ≤ k)) ∧
    (w.switchBlock.1.isOk = true →
      w.switchBlock.2.blockOffset = kBlockSize - blockRoom pos) ∧
    w.switchBlock.2.blockOffset ≤ kBlockSize := by
  have block : kBlockSize = 32768 := rfl
  have head : kHeaderSize = 7 := rfl
  have cases := block_cases pos
  have size := room_eq pos
  obtain ⟨bound, cursor⟩ := h
  rw [block] at cursor
  by_cases fits : kHeaderSize ≤ kBlockSize - w.blockOffset
  · have pad : padding pos = 0 := by omega
    have offset : kBlockSize - blockRoom pos = w.blockOffset := by omega
    rw [Writer.switchBlock, if_neg (Nat.not_lt_of_le fits)]
    exact ⟨⟨0, by simp, fun _ => by omega⟩, fun _ => offset.symm, bound⟩
  · have pad : padding pos = kBlockSize - w.blockOffset := by omega
    have offset : kBlockSize - blockRoom pos = 0 := by omega
    rw [Writer.switchBlock, if_pos (by omega)]
    split
    · obtain ⟨k, written, whole⟩ :=
        w.dest.append_written (List.replicate (kBlockSize - w.blockOffset) 0)
      rw [List.length_replicate] at whole
      rw [pad]
      dsimp only
      split
      · exact ⟨⟨k, written, whole⟩, fun _ => offset.symm, Nat.zero_le _⟩
      · exact ⟨⟨k, written, whole⟩, fun ok => absurd ok ‹_›, bound⟩
    · exact ⟨⟨0, by simp, fun _ => by omega⟩, fun _ => offset.symm, Nat.zero_le _⟩

theorem Writer.emitPhysicalRecord_written (w : Writer) (type : RecordType) (payload : Bytes) :
    ∃ k, (w.emitPhysicalRecord type payload).2.dest.contents =
        w.dest.contents ++ (header type payload ++ payload).take k ∧
      ((w.emitPhysicalRecord type payload).1.isOk = true → kHeaderSize + payload.length ≤ k) := by
  rw [emitPhysicalRecord]
  obtain ⟨k, written, whole⟩ := w.dest.append_written (header type payload)
  dsimp only
  split
  · rename_i ok
    have all := whole ok
    obtain ⟨k', written', whole'⟩ :=
      (w.dest.append (header type payload)).2.append_written payload
    have contents : ((w.dest.append (header type payload)).2.append payload).2.contents =
        w.dest.contents ++ (header type payload ++ payload).take (kHeaderSize + k') := by
      rw [written', written, List.take_of_length_le all, List.append_assoc,
        ← List.take_length_add_append, Fragment.header_length]
    split
    · exact ⟨_, contents, fun _ => by simp_all⟩
    · exact ⟨_, contents, fun ok' => absurd ok' ‹_›⟩
  · rename_i failed
    refine ⟨min k kHeaderSize, ?_, fun ok => absurd ok failed⟩
    rw [written, List.take_append_of_le_length (by rw [Fragment.header_length]; exact Nat.min_le_right _ _),
      List.take_eq_take_min, Fragment.header_length]

/-- One round of the loop of `AddRecord` leaves a prefix of the next fragment,
    and moves the cursor behind it. -/
theorem Writer.Stands.emit (h : w.Stands pos) (good : w.switchBlock.1.isOk = true) (left : Bytes)
    (isBegin : Bool) (length : Nat) (cut : length = min left.length w.switchBlock.2.avail) :
    let emitted := w.switchBlock.2.emitPhysicalRecord
      (fragmentType isBegin (left.length = length)) (left.take length)
    length = (fragmentAt pos left isBegin).payload.length ∧
      (∃ k, emitted.2.dest.contents =
          w.dest.contents ++ (fragmentAt pos left isBegin).bytes.take k ∧
        (emitted.1.isOk = true → (fragmentAt pos left isBegin).bytes.length ≤ k)) ∧
      emitted.2.Stands (pos + (fragmentAt pos left isBegin).bytes.length) := by
  intro emitted
  have block : kBlockSize = 32768 := rfl
  have head : kHeaderSize = 7 := rfl
  have cases := block_cases pos
  have size := room_eq pos
  obtain ⟨⟨j, padded, whole⟩, offset, -⟩ := h.switchBlock
  have offset := offset good
  rw [List.take_of_length_le (by simpa using whole good)] at padded
  have avail : w.switchBlock.2.avail = blockRoom pos - kHeaderSize := by
    rw [Writer.avail, offset]
    omega
  rw [avail] at cut
  have fragment : fragmentAt pos left isBegin =
      { pad := padding pos
        type := fragmentType isBegin (left.length = length)
        payload := left.take length } := by
    rw [fragmentAt, cut]
  have payload : (left.take length).length = length := by
    rw [List.length_take]
    omega
  obtain ⟨k, written, all⟩ := w.switchBlock.2.emitPhysicalRecord_written
    (fragmentType isBegin (left.length = length)) (left.take length)
  rw [fragment]
  refine ⟨payload.symm, ⟨padding pos + k, ?_, fun ok => ?_⟩, ?_, ?_⟩
  · have prefixed (rest : Bytes) : (List.replicate (padding pos) 0 ++ rest).take (padding pos + k) =
        List.replicate (padding pos) 0 ++ rest.take k := by
      rw [List.take_append, List.length_replicate, Nat.add_sub_cancel_left,
        List.take_of_length_le (by simp)]
    rw [written, padded, Fragment.bytes, List.append_assoc, List.append_assoc, prefixed]
  · have := all ok
    rw [Fragment.bytes_length]
    dsimp only
    omega
  · rw [emitPhysicalRecord_blockOffset, offset, payload]
    omega
  · rw [emitPhysicalRecord_blockOffset, offset, Fragment.bytes_length, payload]
    dsimp only
    rw [block]
    omega

/-- `AddRecord` leaves a prefix of the fragments it cuts at its cursor, all of
    them if it succeeds. -/
theorem Writer.Stands.addRecordLoop (h : w.Stands pos) (left : Bytes) (isBegin : Bool) :
    (∃ k, (w.addRecordLoop left isBegin).2.dest.contents =
        w.dest.contents ++ (encode (fragments pos left isBegin)).take k ∧
      ((w.addRecordLoop left isBegin).1.isOk = true →
        (encode (fragments pos left isBegin)).length ≤ k)) ∧
    (w.addRecordLoop left isBegin).2.blockOffset ≤ kBlockSize := by
  revert pos
  fun_induction Writer.addRecordLoop w left isBegin with
  | case1 w left isBegin good w' length type emitted more =>
      rename_i ih
      intro pos h
      obtain ⟨same, ⟨k, written, all⟩, stands⟩ := h.emit good left isBegin length rfl
      have written : emitted.2.dest.contents = _ := written
      have longer := more.2
      rw [List.length_drop] at longer
      obtain ⟨⟨k', written', all'⟩, bound⟩ := ih stands
      rw [same] at written' all'
      refine ⟨⟨(fragmentAt pos left isBegin).bytes.length + k', ?_, fun ok => ?_⟩, bound⟩
      · rw [fragments_more (by omega), encode_cons, List.take_length_add_append, ← same]
        rw [← same] at written'
        rw [written', written, List.take_of_length_le (all more.1), List.append_assoc]
      · rw [fragments_more (by omega), encode_cons, List.length_append]
        have := all' (same ▸ ok)
        omega
  | case2 w left isBegin good w' length type emitted =>
      rename_i last
      intro pos h
      obtain ⟨same, ⟨k, written, all⟩, stands⟩ := h.emit good left isBegin length rfl
      by_cases ok : emitted.1.isOk = true
      · have last : ¬ (0 < (left.drop length).length) := fun more => last ⟨ok, more⟩
        rw [List.length_drop] at last
        rw [fragments_last (by omega), encode_cons, encode_nil, List.append_nil]
        exact ⟨⟨k, written, all⟩, stands.bound⟩
      · rw [take_of_front (fragmentAt_front pos left isBegin)] at written
        exact ⟨⟨_, written, fun ok' => absurd ok' ok⟩, stands.bound⟩
  | case3 w left isBegin failed =>
      intro pos h
      obtain ⟨⟨k, written, -⟩, -, bound⟩ := h.switchBlock
      have front : List.replicate (padding pos) 0 <+: encode (fragments pos left isBegin) := by
        refine List.IsPrefix.trans ?_ (fragmentAt_front pos left isBegin)
        rw [Fragment.bytes, List.append_assoc]
        exact List.prefix_append _ _
      rw [take_of_front front] at written
      exact ⟨⟨_, written, fun ok => absurd ok failed⟩, bound⟩

/-- After a success the cursor stands behind the record. -/
theorem Writer.Stands.behind (h : w.Stands pos) (left : Bytes) (isBegin : Bool)
    (ok : (w.addRecordLoop left isBegin).1.isOk = true) :
    (w.addRecordLoop left isBegin).2.Stands (pos + (encode (fragments pos left isBegin)).length) := by
  revert pos
  fun_induction Writer.addRecordLoop w left isBegin with
  | case1 w left isBegin good w' length type emitted more =>
      rename_i ih
      intro pos h
      obtain ⟨same, -, stands⟩ := h.emit good left isBegin length rfl
      have longer := more.2
      rw [List.length_drop] at longer
      have last := ih ok stands
      rw [fragments_more (by omega), encode_cons, List.length_append, ← Nat.add_assoc, ← same]
      exact last
  | case2 w left isBegin good w' length type emitted =>
      rename_i last
      intro pos h
      obtain ⟨same, -, stands⟩ := h.emit good left isBegin length rfl
      have last : ¬ (0 < (left.drop length).length) := fun more => last ⟨ok, more⟩
      rw [List.length_drop] at last
      rw [fragments_last (by omega), encode_cons, encode_nil, List.append_nil]
      exact stands
  | case3 w left isBegin failed => exact absurd ok failed

end Writing

end Wal

end MiniLsm
