import MiniLsm.Wal.Damage
import MiniLsm.Wal.Faults

/-! # The rounds of `AddRecord`

Every round of the loop writes one fragment. From the head of any round on, the
loop writes the fragments that the cursor and the rest of the slice call for, and
the ones before are in the file already; so there are as many rounds as fragments.
-/

namespace MiniLsm.Wal

namespace Writer

/-- The part of the payload that the next round emits. -/
def roundPayload (w : Writer) (left : Bytes) : Bytes :=
  left.take (min left.length w.switchBlock.2.avail)

def roundType (w : Writer) (left : Bytes) (isBegin : Bool) : RecordType :=
  fragmentType isBegin (left.length = min left.length w.switchBlock.2.avail)

/-- The call of `EmitPhysicalRecord` in the next round. -/
def round (w : Writer) (left : Bytes) (isBegin : Bool) : Status × Writer :=
  w.switchBlock.2.emitPhysicalRecord (w.roundType left isBegin) (w.roundPayload left)

/-- The head of the loop after some rounds: the writer, what is left of the slice,
    and whether this is its begin. -/
inductive Round (w : Writer) (slice : Bytes) : Nat → Writer → Bytes → Bool → Prop where
  | start : Round w slice 0 w slice true
  | next {n : Nat} {u : Writer} {left : Bytes} {isBegin : Bool}
      (before : Round w slice n u left isBegin) (switched : u.switchBlock.1.isOk = true)
      (emitted : (u.round left isBegin).1.isOk = true)
      (more : 0 < (left.drop (u.roundPayload left).length).length) :
      Round w slice (n + 1) (u.round left isBegin).2
        (left.drop (u.roundPayload left).length) false

section Loop

variable {w u : Writer} {pos n : Nat} {slice left : Bytes} {isBegin : Bool}

theorem roundPayload_length (w : Writer) (left : Bytes) :
    (w.roundPayload left).length = min left.length w.switchBlock.2.avail := by
  rw [roundPayload, List.length_take]
  omega

/-- No fragment is longer than a block. -/
theorem roundPayload_small (w : Writer) (left : Bytes) : (w.roundPayload left).length < 65536 := by
  have block : kBlockSize = 32768 := rfl
  rw [roundPayload_length, avail]
  omega

/-- The loop goes on as long as it emits and something is left. -/
theorem addRecordLoop_round (w : Writer) (left : Bytes) (isBegin : Bool) :
    w.addRecordLoop left isBegin =
      if w.switchBlock.1.isOk then
        if (w.round left isBegin).1.isOk ∧ 0 < (left.drop (w.roundPayload left).length).length then
          (w.round left isBegin).2.addRecordLoop (left.drop (w.roundPayload left).length) false
        else w.round left isBegin
      else w.switchBlock := by
  rw [addRecordLoop, roundPayload_length]
  rfl

/-- The rest of the loop is the same from the head of any round. -/
theorem Round.loop (round : Round w slice n u left isBegin) :
    u.addRecordLoop left isBegin = w.addRecord slice := by
  induction round with
  | start => rfl
  | next before switched emitted more ih =>
      rw [addRecordLoop_round, if_pos switched, if_pos ⟨emitted, more⟩] at ih
      exact ih

theorem Stands.emits (h : u.Stands pos) (switched : u.switchBlock.1.isOk = true) (left : Bytes)
    (isBegin : Bool) :
    (u.roundPayload left).length = (fragmentAt pos left isBegin).payload.length ∧
      (u.round left isBegin).2.Stands (pos + (fragmentAt pos left isBegin).bytes.length) := by
  obtain ⟨size, -, stands⟩ := h.emit switched left isBegin _ rfl
  rw [roundPayload_length]
  exact ⟨size, stands⟩

/-- At the head of a round, as many fragments are written as there were rounds. -/
theorem Round.written (h : w.Stands pos) (round : Round w slice n u left isBegin) :
    ∃ before, before.length = n ∧ u.Stands (pos + (encode before).length) ∧
      fragments pos slice true =
        before ++ fragments (pos + (encode before).length) left isBegin := by
  induction round with
  | start => exact ⟨[], rfl, h, rfl⟩
  | @next n u left isBegin before switched emitted more ih =>
      obtain ⟨done, size, stands, split⟩ := ih
      obtain ⟨same, stands'⟩ := stands.emits switched left isBegin
      rw [same, List.length_drop] at more
      have longer := Nat.lt_of_sub_pos more
      rw [fragments_more longer] at split
      refine ⟨done ++ [fragmentAt (pos + (encode done).length) left isBegin], ?_, ?_, ?_⟩
      · rw [List.length_append, size]
        rfl
      · rw [encode_concat_length, ← Nat.add_assoc]
        exact stands'
      · rw [split, same, encode_concat_length, ← Nat.add_assoc, List.append_assoc]
        rfl

theorem fragments_ne_nil (pos : Nat) (left : Bytes) (isBegin : Bool) :
    fragments pos left isBegin ≠ [] := by
  rw [fragments]
  split <;> simp

theorem Round.count (h : w.Stands pos) (round : Round w slice n u left isBegin) :
    n < (fragments pos slice true).length := by
  obtain ⟨before, size, -, split⟩ := round.written h
  have rest := List.length_pos_iff.mpr (fragments_ne_nil (pos + (encode before).length) left isBegin)
  rw [split, List.length_append]
  omega

/-- A header fits into the block to which a round switches. -/
theorem Stands.header_fits (h : u.Stands pos) (switched : u.switchBlock.1.isOk = true) :
    u.switchBlock.2.blockOffset + kHeaderSize ≤ kBlockSize := by
  obtain ⟨low, high⟩ := blockRoom_bounds pos
  rw [h.switchBlock.2.1 switched]
  omega

end Loop

end Writer

/-! ## The layout of a record -/

/-- A slice is laid out from a file position on. -/
structure Laid (pos : Nat) (slice : Bytes) (fs : List Fragment) : Prop where
  types : fs.map Fragment.type = [.full] ∨
    ∃ n, fs.map Fragment.type = .first :: (List.replicate n .middle ++ [.last])
  payloads : fs.flatMap Fragment.payload = slice
  /-- Zeros stand only in front of a block boundary, and no header fits there. -/
  pads : ∀ start f, Placed fs start f →
    f.pad < kHeaderSize ∧ (0 < f.pad → (pos + start) % kBlockSize = 0)
  /-- A physical record ends in the block in which it starts. -/
  inside : ∀ start f, Placed fs start f →
    (pos + start) % kBlockSize + kHeaderSize + f.payload.length ≤ kBlockSize
  /-- The length fits into its two bytes. -/
  lengths : ∀ f ∈ fs, f.payload.length < 65536

section Fragments

variable {pos start : Nat} {left : Bytes} {fs : List Fragment} {f : Fragment}

theorem fragments_types_rest (pos : Nat) (left : Bytes) :
    ∃ n, (fragments pos left false).map Fragment.type = List.replicate n .middle ++ [.last] := by
  generalize inside : false = isBegin
  fun_induction fragments pos left isBegin with
  | case1 pos left isBegin more ih =>
      subst inside
      obtain ⟨n, types⟩ := ih rfl
      refine ⟨n + 1, ?_⟩
      rw [List.map_cons, types, fragmentAt_type, if_pos more]
      rfl
  | case2 pos left isBegin last =>
      subst inside
      refine ⟨0, ?_⟩
      rw [List.map_singleton, fragmentAt_type, if_neg last]
      rfl

theorem fragments_types (pos : Nat) (left : Bytes) :
    (fragments pos left true).map Fragment.type = [.full] ∨
      ∃ n, (fragments pos left true).map Fragment.type =
        .first :: (List.replicate n .middle ++ [.last]) := by
  by_cases more : (fragmentAt pos left true).payload.length < left.length
  · obtain ⟨n, types⟩ := fragments_types_rest
      (pos + (fragmentAt pos left true).bytes.length)
      (left.drop (fragmentAt pos left true).payload.length)
    refine Or.inr ⟨n, ?_⟩
    rw [fragments_more more, List.map_cons, types, fragmentAt_type, if_pos more]
    rfl
  · refine Or.inl ?_
    rw [fragments_last more, List.map_singleton, fragmentAt_type, if_neg more]
    rfl

theorem fragments_payloads (pos : Nat) (left : Bytes) (isBegin : Bool) :
    (fragments pos left isBegin).flatMap Fragment.payload = left := by
  fun_induction fragments pos left isBegin with
  | case1 pos left isBegin more ih =>
      rw [List.flatMap_cons, ih]
      exact fragmentAt_payload_append pos left isBegin
  | case2 pos left isBegin last =>
      have all := fragmentAt_payload_append pos left isBegin
      rw [List.drop_eq_nil_of_le (Nat.le_of_not_lt last)] at all
      exact all

/-- Each fragment of a chain fits where it stands. -/
theorem Chain.placed (chain : Chain pos fs) (placed : Placed fs start f) :
    ∃ p, f.Fits p ∧ pos + start = p + f.pad := by
  obtain ⟨before, later, rfl, rfl⟩ := placed
  exact ⟨_, (chain_append.mp chain).2.1.1, (Nat.add_assoc _ _ _).symm⟩

theorem fragments_laid (pos : Nat) (slice : Bytes) :
    Laid pos slice (fragments pos slice true) where
  types := fragments_types pos slice
  payloads := fragments_payloads pos slice true
  pads := by
    intro start f placed
    obtain ⟨p, fits, at_p⟩ := (fragments_chain pos slice true).placed placed
    have here := start_mod p
    have cases := block_cases p
    have head : kHeaderSize = 7 := rfl
    rw [at_p, fits.pad]
    omega
  inside := by
    intro start f placed
    obtain ⟨p, fits, at_p⟩ := (fragments_chain pos slice true).placed placed
    have here := start_mod p
    have inside := fits.inside
    rw [at_p, fits.pad]
    omega
  lengths := by
    intro f member
    obtain ⟨before, later, split⟩ := List.append_of_mem member
    obtain ⟨p, fits, -⟩ := (fragments_chain pos slice true).placed ⟨before, later, split, rfl⟩
    exact fits.small

end Fragments

/-- `AddRecord` of a writer whose cursor stands where its file ends. The loop ends
    after as many rounds as there are fragments, and in none of them the space for
    the payload is negative; with all `Append`s succeeding, the fragments are
    appended to the file, and the cursor stands at its end again. -/
theorem addRecord_layout (w : Writer) (slice : Bytes) (stands : w.Stands w.dest.contents.length) :
    Laid w.dest.contents.length slice (fragments w.dest.contents.length slice true) ∧
    (∀ n u left isBegin, Writer.Round w slice n u left isBegin →
      n < (fragments w.dest.contents.length slice true).length ∧
      u.addRecordLoop left isBegin = w.addRecord slice ∧
      (u.switchBlock.1.isOk = true →
        (0 : Int) ≤ kBlockSize - u.switchBlock.2.blockOffset - kHeaderSize)) ∧
    (w.dest.Appends → (w.addRecord slice).1.isOk = true) ∧
    ((w.addRecord slice).1.isOk = true →
      (w.addRecord slice).2.dest.contents =
        w.dest.contents ++ encode (fragments w.dest.contents.length slice true) ∧
      (w.addRecord slice).2.Stands (w.addRecord slice).2.dest.contents.length) := by
  refine ⟨fragments_laid _ _, fun n u left isBegin round => ?_, fun appends => ?_, fun good => ?_⟩
  · obtain ⟨before, -, stands', -⟩ := round.written stands
    refine ⟨round.count stands, round.loop, fun switched => ?_⟩
    have fits := stands'.header_fits switched
    omega
  · have aligned : w.Aligned := ⟨appends, stands.bound, stands.cursor⟩
    obtain ⟨w', written, -, -⟩ := aligned.addRecordLoop slice true
    rw [Writer.addRecord, written]
    rfl
  · obtain ⟨⟨k, written, whole⟩, -⟩ := stands.addRecordLoop slice true
    rw [List.take_of_length_le (whole good)] at written
    have contents : (w.addRecord slice).2.dest.contents = _ := written
    refine ⟨contents, ?_⟩
    rw [contents, List.length_append]
    exact stands.behind slice true good

/-- Six bytes are left in the block: no header fits, and they are filled with
    zeros. -/
theorem addRecord_layout_short :
    Laid 32762 [5] (fragments 32762 [5] true) ∧
      (Writer.addRecord { dest := { contents := List.replicate 32762 0 }, blockOffset := 32762 }
        [5]).1.isOk = true := by
  have layout := addRecord_layout
    { dest := { contents := List.replicate 32762 0 }, blockOffset := 32762 } [5]
    ⟨by decide, congrArg (· % kBlockSize) List.length_replicate.symm⟩
  have size : (List.replicate 32762 (0 : UInt8)).length = 32762 := List.length_replicate
  simp only [size] at layout
  exact ⟨layout.1, layout.2.2.1 rfl⟩

end MiniLsm.Wal
