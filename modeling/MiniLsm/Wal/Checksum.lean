import MiniLsm.Wal.Rounds
import MiniLsm.Wal.Window

/-! # Short damage to a physical record

The stored checksum and the covered bytes determine each other as long as the
damage is in one of them, and no longer than four bytes.
-/

namespace MiniLsm.Wal

open Reader

/-- The checksums of a physical record differ after short damage, whatever
    follows it in the block. -/
structure Guarded (record : Bytes) : Prop where
  /-- Up to four consecutive bytes of type and payload are replaced. -/
  burst : ∀ before w w' later rest, record.drop 6 = before ++ w ++ later →
    w'.length = w.length → w.length ≤ 4 → w' ≠ w →
      checksumMatches (record.take 6 ++ (before ++ w' ++ later) ++ rest) = false
  /-- The stored checksum is replaced. -/
  stored : ∀ crc rest, crc.length = 4 → crc ≠ record.take 4 →
    checksumMatches (crc ++ record.drop 4 ++ rest) = false

section Record

variable {crc covered payload rest : Bytes} {n : Nat}

/-- The two bytes of a length. -/
def lengthField (n : Nat) : Bytes := [UInt8.ofNat (n % 256), UInt8.ofNat (n / 256 % 256)]

theorem header_parts (type : RecordType) (payload : Bytes) :
    Writer.header type payload ++ payload =
      encodeFixed32 (Crc32c.mask (Crc32c.value (type.toByte :: payload))) ++
        (lengthField payload.length ++ (type.toByte :: payload)) := by
  have crc : Crc32c.extend (typeCrc type) payload = Crc32c.value (type.toByte :: payload) :=
    Crc32c.extend_append 0 [type.toByte] payload
  rw [Writer.header, crc]
  simp [lengthField]

/-- The comparison of the reader, in terms of the parts of a physical record. -/
theorem checksumMatches_parts (four : crc.length = 4) (small : n < 65536)
    (size : covered.length = 1 + n) :
    checksumMatches (crc ++ (lengthField n ++ (covered ++ rest))) =
      decide (Crc32c.value covered = Crc32c.unmask (decodeFixed32 crc)) := by
  have length : headerLength (crc ++ (lengthField n ++ (covered ++ rest))) = n := by
    match crc, four with
    | [b₀, b₁, b₂, b₃], _ =>
        simp only [headerLength, lengthField, List.cons_append, List.nil_append,
          List.getD_cons_succ, List.getD_cons_zero, UInt8.toNat_ofNat']
        omega
  have decoded : decodeFixed32 (crc ++ (lengthField n ++ (covered ++ rest))) = decodeFixed32 crc := by
    rw [← decodeFixed32_take (Nat.le_refl 4), List.take_left' four]
  have inside : (crc ++ (lengthField n ++ (covered ++ rest))).drop 6 = covered ++ rest := by
    rw [← List.append_assoc]
    exact List.drop_left' (by rw [List.length_append, four]; rfl)
  rw [checksumMatches, length, decoded, inside, List.take_left' size]

theorem record_guarded (type : RecordType) (small : payload.length < 65536) :
    Guarded (Writer.header type payload ++ payload) where
  burst := by
    intro before w w' later rest split size few other
    have six : (encodeFixed32 (Crc32c.mask (Crc32c.value (type.toByte :: payload))) ++
        lengthField payload.length).length = 6 := rfl
    have parts := header_parts type payload
    rw [← List.append_assoc] at parts
    rw [parts] at split ⊢
    rw [List.drop_left' six] at split
    rw [List.take_left' six, List.append_assoc, List.append_assoc,
      checksumMatches_parts (encodeFixed32_length _) small]
    · apply decide_eq_false
      intro same
      have stored := decodeFixed32_encodeFixed32
        (Crc32c.mask (Crc32c.value (type.toByte :: payload))) []
      rw [List.append_nil] at stored
      rw [stored, Crc32c.unmask_mask, split] at same
      exact other (Crc32c.value_window size (size ▸ few) same)
    · have total := congrArg List.length split
      simp only [List.length_append, List.length_cons] at total ⊢
      omega
  stored := by
    intro crc rest four other
    rw [header_parts] at other ⊢
    rw [List.take_left' (encodeFixed32_length _)] at other
    rw [List.drop_left' (encodeFixed32_length _), List.append_assoc, List.append_assoc,
      checksumMatches_parts four small (by rw [List.length_cons]; omega)]
    apply decide_eq_false
    intro same
    have decoded := encodeFixed32_decodeFixed32 (Nat.le_of_eq four.symm)
    rw [List.drop_eq_nil_of_le (Nat.le_of_eq four), List.append_nil] at decoded
    rw [same, Crc32c.mask_unmask] at other
    exact other decoded.symm

end Record

/-- What a round appends when it succeeds. -/
theorem Writer.round_written (w : Writer) (left : Bytes) (isBegin : Bool)
    (good : (w.round left isBegin).1.isOk = true) :
    (w.round left isBegin).2.dest.contents = w.switchBlock.2.dest.contents ++
      (header (w.roundType left isBegin) (w.roundPayload left) ++ w.roundPayload left) := by
  obtain ⟨k, written, whole⟩ := w.switchBlock.2.emitPhysicalRecord_written
    (w.roundType left isBegin) (w.roundPayload left)
  have all := whole good
  rw [List.take_of_length_le (by rwa [List.length_append, Fragment.header_length])] at written
  exact written

/-- Short damage changes the checksum: two strings that differ only in up to four
    consecutive bytes have different checksums, and the comparison of the reader
    fails for every physical record that a round of `AddRecord` appends when up to
    four consecutive bytes of type and payload, or the stored checksum, are
    replaced. -/
theorem short_damage_told :
    (∀ a b w w' : Bytes, w.length = w'.length → w.length ≤ 4 → w ≠ w' →
      Crc32c.value (a ++ w ++ b) ≠ Crc32c.value (a ++ w' ++ b)) ∧
    ∀ (writer : Writer) (left : Bytes) (isBegin : Bool),
      (writer.round left isBegin).1.isOk = true →
        ∃ record, (writer.round left isBegin).2.dest.contents =
          writer.switchBlock.2.dest.contents ++ record ∧ Guarded record := by
  refine ⟨fun a b w w' size few other same => ?_, fun writer left isBegin good => ?_⟩
  · exact other (Crc32c.value_window size few same)
  · exact ⟨_, writer.round_written left isBegin good,
      record_guarded _ (writer.roundPayload_small left)⟩

/-- One byte in the middle is changed. -/
theorem short_damage_told_byte :
    Crc32c.value ([1] ++ [2] ++ [3]) ≠ Crc32c.value ([1] ++ [4] ++ [3]) :=
  short_damage_told.1 [1] [3] [2] [4] rfl (by decide) (by decide)

end MiniLsm.Wal
