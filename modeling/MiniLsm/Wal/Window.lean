import MiniLsm.Wal.Damage
import MiniLsm.Wal.TypeByte

/-! # Four damaged bytes

A log of which up to four consecutive bytes are overwritten. The first physical
record that is read differently is reported, unless its new header sends the
reader on one of the silent paths.
-/

namespace MiniLsm.Wal

open Reader

/-- The same bytes, but for four consecutive ones. -/
structure Window (original bytes : Bytes) (first : Nat) : Prop where
  length : bytes.length = original.length
  outside : ∀ i, i < first ∨ first + 4 ≤ i → bytes[i]? = original[i]?

/-- What stands at the offset of a fragment is passed over without a report, or
    taken for another physical record. -/
inductive Silent (bytes : Bytes) (start : Nat) (f : Fragment) : Prop where
  /-- The payload runs past the end of the last, short block. -/
  | pastEnd (short : bytes.length < start + (kBlockSize - start % kBlockSize))
      (past : bytes.length < start + (kHeaderSize + headerLength (bytes.drop start)))
  /-- Preallocated space. -/
  | zero (type : headerType (bytes.drop start) = 0) (length : headerLength (bytes.drop start) = 0)
  /-- The checksum, which does not cover the length, verifies for another one. -/
  | collision (verifies : Verifies bytes start)
      (other : headerLength (bytes.drop start) ≠ f.payload.length)

section Record

variable {u v payload later : Bytes} {type : RecordType} {first : Nat}

theorem take_parts (u : Bytes) (n : Nat) :
    u.take (7 + n) = u.take 4 ++ ((u.drop 4).take 2 ++ (u.drop 6).take (1 + n)) := by
  have size : 7 + n = 4 + (2 + (1 + n)) := by omega
  rw [size, List.take_add, List.take_add, List.drop_drop]

theorem take_two (long : 6 ≤ u.length) :
    (u.drop 4).take 2 = [u.getD 4 0, u.getD 5 0] := by
  match u, long with
  | b₀ :: b₁ :: b₂ :: b₃ :: b₄ :: b₅ :: rest, _ => rfl

theorem take_four_eq (longU : 4 ≤ u.length) (longV : 4 ≤ v.length)
    (same : decodeFixed32 u = decodeFixed32 v) : u.take 4 = v.take 4 := by
  have front (w : Bytes) (long : 4 ≤ w.length) : w.take 4 = encodeFixed32 (decodeFixed32 w) := by
    have whole := encodeFixed32_decodeFixed32 long
    have cut := congrArg (List.take 4) whole
    rw [List.take_left' (encodeFixed32_length _)] at cut
    exact cut.symm
  rw [front u longU, front v longV, same]

theorem value_of_checksumMatches (verifies : checksumMatches u = true) :
    Crc32c.value ((u.drop 6).take (1 + headerLength u)) = Crc32c.unmask (decodeFixed32 u) :=
  of_decide_eq_true verifies

/-- The length field is two bytes. -/
theorem take_length_eq (longU : 6 ≤ u.length) (longV : 6 ≤ v.length)
    (same : headerLength u = headerLength v) : (u.drop 4).take 2 = (v.drop 4).take 2 := by
  rw [take_two longU, take_two longV]
  rw [headerLength, headerLength] at same
  have low₁ := (u.getD 4 0).toNat_lt
  have low₂ := (v.getD 4 0).toNat_lt
  have fourth : u.getD 4 0 = v.getD 4 0 := UInt8.toNat_inj.mp (by omega)
  have fifth : u.getD 5 0 = v.getD 5 0 := UInt8.toNat_inj.mp (by omega)
  rw [fourth, fifth]

/-- Where type byte and payload are covered by the same checksum, they are the
    same. -/
theorem covered_eq {n : Nat} (size : u.length = v.length)
    (outside : ∀ i, i < first ∨ first + 4 ≤ i → u[i]? = v[i]?)
    (same : Crc32c.value ((u.drop 6).take n) = Crc32c.value ((v.drop 6).take n)) :
    (u.drop 6).take n = (v.drop 6).take n := by
  refine @Crc32c.value_injective _ _ (first - 6) (by simp [size]) (fun i other => ?_) same
  by_cases low : i < n
  · rw [List.getElem?_take_of_lt low, List.getElem?_take_of_lt low, List.getElem?_drop,
      List.getElem?_drop]
    exact outside _ (by omega)
  · rw [List.getElem?_take_eq_none (by omega), List.getElem?_take_eq_none (by omega)]

/-- The last byte of a word is in its highest bits. -/
theorem decodeFixed32_near (same : ∀ i < 3, u[i]? = v[i]?) :
    Crc32c.Near (decodeFixed32 u) (decodeFixed32 v) := by
  intro i low
  have bytes (k : Nat) (early : k < 3) : u.getD k 0 = v.getD k 0 := by
    rw [List.getD_eq_getElem?_getD, List.getD_eq_getElem?_getD, same k early]
  simp only [decodeFixed32, bytes 0 (by decide), bytes 1 (by decide), bytes 2 (by decide),
    UInt32.toBitVec_or, UInt32.toBitVec_shiftLeft, BitVec.getLsbD_or]
  simp [low]

theorem drop_six (long : 7 ≤ u.length) : u.drop 6 = u.get ⟨6, long⟩ :: u.drop 7 :=
  List.drop_eq_getElem_cons long

/-- Where the checksum is another one, the four bytes do not reach the payload, and
    the type byte only together with the last one of the checksum. -/
theorem covered_of_checksum {n : Nat} (longU : 7 ≤ u.length) (longV : 7 ≤ v.length)
    (outside : ∀ i, i < first ∨ first + 4 ≤ i → u[i]? = v[i]?)
    (inside : kHeaderSize + n ≤ kBlockSize)
    (valueU : Crc32c.value ((u.drop 6).take (1 + n)) = Crc32c.unmask (decodeFixed32 u))
    (valueV : Crc32c.value ((v.drop 6).take (1 + n)) = Crc32c.unmask (decodeFixed32 v))
    (other : u.take 4 ≠ v.take 4) :
    (u.drop 6).take (1 + n) = (v.drop 6).take (1 + n) := by
  have early : first ≤ 3 := by
    by_contra late
    refine other (List.ext_getElem? fun i => ?_)
    by_cases low : i < 4
    · rw [List.getElem?_take_of_lt low, List.getElem?_take_of_lt low]
      exact outside i (by omega)
    · rw [List.getElem?_take_eq_none (by omega), List.getElem?_take_eq_none (by omega)]
  have rest : u.drop 7 = v.drop 7 := by
    refine List.ext_getElem? fun i => ?_
    rw [List.getElem?_drop, List.getElem?_drop]
    exact outside _ (by omega)
  rw [Nat.add_comm] at valueU valueV ⊢
  rw [drop_six longU, List.take_succ_cons, rest] at valueU ⊢
  rw [drop_six longV, List.take_succ_cons] at valueV ⊢
  by_cases type : u.get ⟨6, longU⟩ = v.get ⟨6, longV⟩
  · rw [type]
  · -- both the type byte and the checksum are in the window
    have last : first = 3 := by
      by_contra before
      have same := outside 6 (by omega)
      rw [List.getElem?_eq_getElem longU, List.getElem?_eq_getElem longV] at same
      exact type (Option.some.inj same)
    have short : ((v.drop 7).take n).length ≤ n := List.length_take_le _ _
    exact absurd (decodeFixed32_near fun k before => outside k (by omega))
      (Crc32c.types_told type (by omega) valueU valueV)

/-- A physical record that verifies with the length that was written is the one that
    was written. -/
theorem same_record (front : v = Writer.header type payload ++ (payload ++ later))
    (inside : kHeaderSize + payload.length ≤ kBlockSize) (size : u.length = v.length)
    (outside : ∀ i, i < first ∨ first + 4 ≤ i → u[i]? = v[i]?)
    (verifies : checksumMatches u = true) (length : headerLength u = payload.length) :
    u.take (kHeaderSize + payload.length) = Writer.header type payload ++ payload := by
  have head : kHeaderSize = 7 := rfl
  have block : kBlockSize = 32768 := rfl
  have small : payload.length < 65536 := by omega
  have lengthV : headerLength v = payload.length := by
    rw [front]
    exact View.headerLength_header small _
  have matchesV : checksumMatches v = true := by
    rw [front]
    exact View.checksumMatches_header small _
  have longV : 7 ≤ v.length := by
    rw [front, List.length_append, Fragment.header_length]
    omega
  have whole : v.take (kHeaderSize + payload.length) = Writer.header type payload ++ payload := by
    rw [front, ← List.append_assoc]
    exact List.take_left' (by rw [List.length_append, Fragment.header_length])
  have valueU := value_of_checksumMatches verifies
  have valueV := value_of_checksumMatches matchesV
  rw [length] at valueU
  rw [lengthV] at valueV
  -- checksum and covered bytes determine each other
  have both : u.take 4 = v.take 4 ∧
      (u.drop 6).take (1 + payload.length) = (v.drop 6).take (1 + payload.length) := by
    by_cases four : u.take 4 = v.take 4
    · have stored : decodeFixed32 u = decodeFixed32 v := by
        rw [← @decodeFixed32_take u 4 (Nat.le_refl 4), four, decodeFixed32_take (Nat.le_refl 4)]
      exact ⟨four, covered_eq size outside (by rw [valueU, valueV, stored])⟩
    · have covered := covered_of_checksum (by omega) longV outside inside valueU valueV four
      rw [covered, valueV] at valueU
      have stored := Crc32c.unmask_injective valueU.symm
      exact ⟨take_four_eq (by omega) (by omega) stored, covered⟩
  rw [← whole, head, take_parts u, take_parts v, both.1, both.2,
    take_length_eq (by omega) (by omega) (length.trans lengthV.symm)]

end Record

/-! ## The first physical record that differs -/

section Walk

variable {fs before later : List Fragment} {f : Fragment} {bytes : Bytes} {first : Nat}

/-- What is read where a fragment was written. -/
theorem Window.fragment (window : Window (encode fs) bytes first) (chain : Chain 0 fs)
    (split : fs = before ++ f :: later)
    (heard : ¬ Silent bytes ((encode before).length + f.pad) f) :
    physicalAt bytes (encode before).length = some
        { type := f.type.toByte.toNat, payload := f.payload
          next := (encode before).length + f.bytes.length, reported := false } ∨
      ∃ x, physicalAt bytes (encode before).length = some x ∧ x.type = kBadRecord ∧
        x.reported = true := by
  have head : kHeaderSize = 7 := rfl
  rw [split, chain_append, Nat.zero_add] at chain
  obtain ⟨fits, nonzero⟩ := chain.2.1
  rw [fits.pad] at heard
  generalize place : (encode before).length = pos at *
  have here := start_mod pos
  have low := (blockRoom_bounds pos).1
  have front : (encode fs).drop (pos + padding pos) =
      Writer.header f.type f.payload ++ (f.payload ++ encode later) := by
    rw [split, encode_append, encode_cons, ← List.drop_drop, ← place, List.drop_left, place,
      Fragment.bytes, fits.pad, List.append_assoc, List.append_assoc, List.drop_left' (by simp)]
  have size : (bytes.drop (pos + padding pos)).length =
      ((encode fs).drop (pos + padding pos)).length := by
    rw [List.length_drop, List.length_drop, window.length]
  have enough : kHeaderSize + f.payload.length ≤ (bytes.drop (pos + padding pos)).length := by
    rw [size, front]
    simp only [List.length_append, Fragment.header_length]
    omega
  have inside := fits.inside
  by_cases same : (bytes.drop (pos + padding pos)).take (kHeaderSize + f.payload.length) =
      Writer.header f.type f.payload ++ f.payload
  · refine Or.inl ?_
    have front' : bytes.drop (pos + padding pos) = Writer.header f.type f.payload ++
        (f.payload ++
          (bytes.drop (pos + padding pos)).drop (kHeaderSize + f.payload.length)) := by
      rw [← List.append_assoc, ← same, List.take_append_drop]
    rw [physicalAt_fragment front' inside nonzero, Fragment.bytes_length, fits.pad]
    simp only [Option.some.injEq, Physical.mk.injEq, true_and, and_true]
    omega
  · refine Or.inr ?_
    have length := @headerLength_take (bytes.drop (pos + padding pos)) _ low
    have type := @headerType_take (bytes.drop (pos + padding pos)) _ low
    have buffered := block_length bytes pos
    have total := List.length_drop (i := pos + padding pos) (l := bytes)
    simp only [physicalAt, length, type]
    rw [if_neg (by omega)]
    split
    · rename_i past
      split
      · refine absurd (Silent.pastEnd ?_ ?_) heard
        · omega
        · omega
      · exact ⟨_, rfl, rfl, rfl⟩
    · split
      · rename_i zero
        exact absurd (Silent.zero zero.1 zero.2) heard
      · split
        · -- a checksum that verifies says that nothing was touched
          rename_i verifies
          rw [checksumMatches_take (by omega)] at verifies
          have valid : Verifies bytes (pos + padding pos) := ⟨by omega, by omega, verifies⟩
          have kept : headerLength (bytes.drop (pos + padding pos)) = f.payload.length := by
            by_contra other
            exact heard (Silent.collision valid other)
          refine absurd (@same_record _ _ _ _ _ (first - (pos + padding pos)) front
            (by have high := (blockRoom_bounds pos).2; omega) size (fun i other => ?_) verifies
            kept) same
          rw [List.getElem?_drop, List.getElem?_drop]
          exact window.outside _ (by omega)
        · exact ⟨_, rfl, rfl, rfl⟩

theorem physicalAt_end (bytes : Bytes) : physicalAt bytes bytes.length = none := by
  have head : kHeaderSize = 7 := rfl
  have size := block_length bytes bytes.length
  simp only [physicalAt]
  rw [if_pos (by omega)]

/-- Reading from a fragment on. -/
theorem Window.walk (window : Window (encode fs) bytes first) (chain : Chain 0 fs)
    {gs : List Fragment} (split : fs = before ++ gs)
    (heard : ∀ start f, Placed fs start f → ¬ Silent bytes start f) (inside : Bool)
    (scratch : Bytes) :
    (walk bytes (encode before).length inside scratch).1 = collect gs inside scratch ∨
      (Wal.walk bytes (encode before).length inside scratch).2 = true := by
  induction gs generalizing before inside scratch with
  | nil =>
      have size : (encode before).length = bytes.length := by
        rw [window.length, split, List.append_nil]
      rw [size, walk_none (physicalAt_end bytes)]
      exact Or.inl rfl
  | cons f later ih =>
      have split' : fs = (before ++ [f]) ++ later := by simp [split]
      have nonzero : f.type ≠ .zero := by
        rw [split, chain_append] at chain
        exact chain.2.1.2
      rcases window.fragment chain split (heard _ f ⟨before, later, split, rfl⟩) with
        read | ⟨x, read, bad, reported⟩
      · rw [← encode_concat_length] at read
        rcases assembled_collect f nonzero inside scratch with
          ⟨inside', scratch', result, collected⟩ | ⟨data, result, collected⟩
        · rw [walk_more read result, collected]
          rcases ih split' inside' scratch' with same | reported
          · exact Or.inl same
          · exact Or.inr (by rw [reported, Bool.or_true])
        · rw [walk_record read result, collected]
          rcases ih split' false [] with same | reported
          · exact Or.inl (congrArg (data :: ·) same)
          · exact Or.inr (by rw [reported, Bool.or_true])
      · refine Or.inr ?_
        obtain ⟨scratch', result⟩ := assembled_bad bad x.payload inside scratch
        rw [walk_more read result, reported, Bool.true_or, Bool.true_or]

/-- Up to four consecutive bytes of a log are overwritten. All the payloads are
    returned, or the reporter is called, or the new bytes at the offset of a
    physical record are such that the reader stays silent. -/
theorem window_reported (split : List (List Bytes)) (fs : List Fragment) (bytes : Bytes)
    (first : Nat) (layout : fs = fragmentsAll 0 split.flatten)
    (window : Window (encode fs) bytes first) :
    (sessions {} split).1.contents = encode fs ∧
      ((Reader.records { file := { rest := bytes } }).1 = split.flatten ∨
        (Reader.records { file := { rest := bytes } }).2.reports ≠ [] ∨
        ∃ start f, Placed fs start f ∧ Silent bytes start f) := by
  subst layout
  refine ⟨sessions_encode split, ?_⟩
  by_cases silent : ∃ start f, Placed (fragmentsAll 0 split.flatten) start f ∧ Silent bytes start f
  · exact Or.inr (Or.inr silent)
  · have heard : ∀ start f, Placed (fragmentsAll 0 split.flatten) start f →
        ¬ Silent bytes start f :=
      fun start f placed hidden => silent ⟨start, f, placed, hidden⟩
    rcases @Window.walk _ [] bytes first window (fragmentsAll_chain 0 _) _ rfl heard false [] with
      same | reported
    · refine Or.inl ?_
      rw [collect_fragmentsAll] at same
      exact (recordsOf_walk bytes).trans same
    · refine Or.inr (Or.inl fun quiet => ?_)
      have unreported := (reports_walk bytes).mp quiet
      exact absurd (reported.symm.trans unreported) (by decide)

/-- Comparing byte by byte shows that files differ in a window only. -/
theorem window_of_bytes {original : Bytes} (length : bytes.length = original.length)
    (checked : ∀ i < bytes.length, i < first ∨ first + 4 ≤ i → bytes[i]? = original[i]?) :
    Window original bytes first := by
  refine ⟨length, fun i other => ?_⟩
  by_cases inside : i < bytes.length
  · exact checked i inside other
  · rw [List.getElem?_eq_none (by omega), List.getElem?_eq_none (by omega)]

theorem window_reported_flipped :
    (Reader.records { file := { rest := flipped } }).1 = [[5], [6]] ∨
      (Reader.records { file := { rest := flipped } }).2.reports ≠ [] ∨
      ∃ start f, Placed (fragmentsAll 0 [[5], [6]]) start f ∧ Silent flipped start f :=
  (window_reported [[[5], [6]]] _ flipped 15 rfl
    (window_of_bytes (by decide +kernel) (by decide +kernel))).2

/-- In a log of one record, a damage of up to four bytes is noticed. -/
def Heard (payload bytes : Bytes) : Prop :=
  ∀ first, Window (sessions {} [[payload]]).1.contents bytes first →
    (Reader.records { file := { rest := bytes } }).1 = [payload] ∨
      (Reader.records { file := { rest := bytes } }).2.reports ≠ []

theorem not_heard {payload bytes : Bytes}
    (lost : (Reader.records { file := { rest := bytes } }).1 ≠ [payload])
    (quiet : (Reader.records { file := { rest := bytes } }).2.reports = [])
    (length : bytes.length = (sessions {} [[payload]]).1.contents.length)
    (checked : ∀ i < bytes.length, i < 4 ∨ 4 + 4 ≤ i →
      bytes[i]? = (sessions {} [[payload]]).1.contents[i]?) : ¬ Heard payload bytes := by
  intro heard
  rcases heard 4 (window_of_bytes length checked) with same | reported
  · exact lost same
  · exact reported quiet

/-- One byte is overwritten: a length that runs past the end of the file; the
    type of an empty record; a length for which the checksum is the same. The
    record is lost, or another one is returned, and nothing is reported. -/
theorem window_unreported :
    ¬ Heard [5] ((Writer.header .full [5]).set 4 2 ++ [5]) ∧
    ¬ Heard [] ((Writer.header .full []).set 6 0) ∧
    ¬ Heard [5, 125, 50, 200]
      ((Writer.header .full [5, 125, 50, 200]).set 4 0 ++ [5, 125, 50, 200]) := by
  refine ⟨not_heard ?_ ?_ ?_ ?_, not_heard ?_ ?_ ?_ ?_, not_heard ?_ ?_ ?_ ?_⟩
  all_goals decide +kernel

end Walk

end MiniLsm.Wal
