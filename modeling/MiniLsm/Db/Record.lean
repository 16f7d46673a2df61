import MiniLsm.Env.Bytes

/-! # Operations as log payloads

`EncodeRecord` and `DecodeRecord` of `src/db.cc`.
-/

namespace MiniLsm

/-- The values of `enum ValueType : uint8_t`. A decoded type may be any byte. -/
def kTypeDelete : UInt8 := 0

def kTypePut : UInt8 := 1

/-- A length or a size as `EncodeFixed32(buf, static_cast<uint32_t>(size))`
    stores it. -/
def encodeSize (size : Nat) : Bytes := encodeFixed32 (UInt32.ofNat size)

def encodeRecord (type : UInt8) (key value : Bytes) : Bytes :=
  [type] ++ encodeSize key.length ++ key ++
    if type = kTypePut then encodeSize value.length ++ value else []

/-- `none` where the bytes are too short for the advertised fields. -/
def decodeRecord (record : Bytes) : Option (UInt8 × Bytes × Bytes) :=
  if record.length < 1 + 4 then none
  else
    let type := record.headD 0
    let p := record.drop 1
    let klen := (decodeFixed32 p).toNat
    let p := p.drop 4
    if p.length < klen then none
    else
      let key := p.take klen
      let p := p.drop klen
      if type = kTypePut then
        if p.length < 4 then none
        else
          let vlen := (decodeFixed32 p).toNat
          let p := p.drop 4
          if p.length < vlen then none else some (type, key, p.take vlen)
      else some (type, key, [])

@[simp] theorem encodeSize_length (size : Nat) : (encodeSize size).length = 4 := rfl

@[simp] theorem decodeFixed32_encodeSize {size : Nat} (fits : size < UInt32.size) (rest : Bytes) :
    (decodeFixed32 (encodeSize size ++ rest)).toNat = size := by
  rw [encodeSize, decodeFixed32_encodeFixed32]
  simpa using fits

/-- What was encoded is decoded, but for the value of a delete, whatever comes
    behind it. -/
theorem decodeRecord_encodeRecord_append (type : UInt8) {key value : Bytes}
    (smallKey : key.length < UInt32.size) (smallValue : value.length < UInt32.size)
    (rest : Bytes) :
    decodeRecord (encodeRecord type key value ++ rest) =
      some (type, key, if type = kTypePut then value else []) := by
  have length : ¬ (encodeRecord type key value ++ rest).length < 1 + 4 := by
    simp [encodeRecord]
  have whole : encodeRecord type key value ++ rest = type :: (encodeSize key.length ++ (key ++
      ((if type = kTypePut then encodeSize value.length ++ value else []) ++ rest))) := by
    simp [encodeRecord]
  rw [decodeRecord, if_neg length, whole]
  simp only [List.headD_cons, List.drop_succ_cons, List.drop_zero,
    decodeFixed32_encodeSize smallKey, List.drop_left' (encodeSize_length key.length)]
  rw [if_neg (by simp), List.take_left, List.drop_left]
  by_cases put : type = kTypePut
  · simp only [if_pos put, List.append_assoc, decodeFixed32_encodeSize smallValue,
      List.drop_left' (encodeSize_length value.length)]
    rw [if_neg (by simp), if_neg (by simp), List.take_left]
  · simp only [if_neg put]

theorem decodeRecord_encodeRecord (type : UInt8) {key value : Bytes} (smallKey : key.length < UInt32.size)
    (smallValue : value.length < UInt32.size) :
    decodeRecord (encodeRecord type key value) =
      some (type, key, if type = kTypePut then value else []) := by
  simpa using decodeRecord_encodeRecord_append type smallKey smallValue []

/-- A length and as many bytes are the encoding of a field. -/
theorem encodeSize_field {bytes : Bytes} (long : ¬ bytes.length < 4)
    (held : ¬ (bytes.drop 4).length < (decodeFixed32 bytes).toNat) :
    ∃ field rest, (bytes.drop 4).take (decodeFixed32 bytes).toNat = field ∧
      field.length < UInt32.size ∧
      (bytes.drop 4).drop (decodeFixed32 bytes).toNat = rest ∧
      bytes = encodeSize field.length ++ (field ++ rest) := by
  have length : ((bytes.drop 4).take (decodeFixed32 bytes).toNat).length =
      (decodeFixed32 bytes).toNat := by
    rw [List.length_take, Nat.min_eq_left (Nat.le_of_not_lt held)]
  refine ⟨_, _, rfl, ?_, rfl, ?_⟩
  · rw [length]
    exact (decodeFixed32 bytes).toNat_lt
  · rw [length, List.take_append_drop, encodeSize, UInt32.ofNat_toNat]
    exact (encodeFixed32_decodeFixed32 (Nat.le_of_not_lt long)).symm

/-- Bytes that decode begin with the encoding of what they decode to. -/
theorem decodeRecord_some {record key value : Bytes} {type : UInt8}
    (decoded : decodeRecord record = some (type, key, value)) :
    key.length < UInt32.size ∧ value.length < UInt32.size ∧ (type ≠ kTypePut → value = []) ∧
      ∃ rest, record = encodeRecord type key value ++ rest := by
  cases record with
  | nil => simp [decodeRecord] at decoded
  | cons tag p =>
      rw [decodeRecord] at decoded
      simp only [List.headD_cons, List.drop_succ_cons, List.drop_zero, List.length_cons] at decoded
      split at decoded
      · simp at decoded
      · rename_i long
        split at decoded
        · simp at decoded
        · rename_i held
          obtain ⟨key', q, isKey, smallKey, isRest, keyField⟩ :=
            encodeSize_field (show ¬ p.length < 4 by omega) held
          rw [isKey, isRest] at decoded
          split at decoded
          · split at decoded
            · simp at decoded
            · rename_i put sized
              split at decoded
              · simp at decoded
              · rename_i valued
                obtain ⟨value', rest, isValue, smallValue, -, valueField⟩ :=
                  encodeSize_field sized valued
                simp only [isValue, Option.some.injEq, Prod.mk.injEq] at decoded
                obtain ⟨rfl, rfl, rfl⟩ := decoded
                refine ⟨smallKey, smallValue, fun other => absurd put other, rest, ?_⟩
                rw [keyField, valueField, put]
                simp [encodeRecord]
          · rename_i other
            simp only [Option.some.injEq, Prod.mk.injEq] at decoded
            obtain ⟨rfl, rfl, rfl⟩ := decoded
            refine ⟨smallKey, by decide, fun _ => rfl, q, ?_⟩
            rw [keyField]
            simp [encodeRecord, other]

/-- The bytes that are accepted: an encoding, with anything behind it. -/
theorem decodeRecord_eq_some_iff {record key value : Bytes} {type : UInt8} :
    decodeRecord record = some (type, key, value) ↔
      key.length < UInt32.size ∧ value.length < UInt32.size ∧ (type ≠ kTypePut → value = []) ∧
        ∃ rest, record = encodeRecord type key value ++ rest := by
  constructor
  · exact decodeRecord_some
  · rintro ⟨smallKey, smallValue, bare, rest, rfl⟩
    rw [decodeRecord_encodeRecord_append type smallKey smallValue]
    by_cases put : type = kTypePut
    · rw [if_pos put]
    · rw [if_neg put, bare put]

/-- Bytes that decode to a put begin with its encoding. -/
theorem decodeRecord_put {record key value : Bytes}
    (decoded : decodeRecord record = some (kTypePut, key, value)) :
    ∃ rest, record = encodeRecord kTypePut key value ++ rest :=
  (decodeRecord_some decoded).2.2.2

end MiniLsm
