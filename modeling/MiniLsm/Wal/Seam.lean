import MiniLsm.Wal.Block

/-! # Writing behind a torn record

A log that ends inside a fragment and is continued at its raw length: the
reader finds the torn bytes and what was written behind them in one block.
-/

namespace MiniLsm.Wal

open Reader

/-- The bytes of a fragment's header and payload that a cut left. -/
structure Torn (bytes tail : Bytes) : Prop where
  nonempty : 0 < tail.length
  space : 0 < room bytes.length
  fragment : ∃ type payload, type ≠ RecordType.zero ∧ payload.length < 65536 ∧
    tail <+: Writer.header type payload ++ payload ∧
    tail.length < kHeaderSize + payload.length ∧
    kHeaderSize + payload.length ≤ tail.length + room bytes.length

section Cut

variable {pos n : Nat} {fs : List Fragment}

/-- A cut inside a fragment leaves complete fragments and a part of the next. -/
theorem whole_of_torn (chain : Chain pos fs)
    (torn : endsInRecord pos ((encode fs).take n) = true) :
    ∃ (f : Fragment) (k : Nat), f.Fits (pos + (encode (whole n fs)).length) ∧ f.type ≠ .zero ∧ f.pad < k ∧
      k < f.bytes.length ∧ (encode fs).take n = encode (whole n fs) ++ f.bytes.take k := by
  induction fs generalizing pos n with
  | nil => simp [encode_nil, endsInRecord] at torn
  | cons f later ih =>
      obtain ⟨⟨fits, nonzero⟩, chain'⟩ := chain
      rw [encode_cons, List.take_append] at torn ⊢
      rw [whole]
      by_cases complete : f.bytes.length ≤ n
      · rw [List.take_of_length_le complete] at torn ⊢
        rw [endsInRecord_next fits] at torn
        obtain ⟨g, k, fits', nonzero', pad, cut, same⟩ := ih chain' torn
        rw [if_pos complete, encode_cons, List.length_append, ← Nat.add_assoc]
        exact ⟨g, k, fits', nonzero', pad, cut, by rw [same, List.append_assoc]⟩
      · rw [show n - f.bytes.length = 0 by omega, List.take_zero, List.append_nil] at torn ⊢
        rw [if_neg complete]
        refine ⟨f, n, by simpa [encode_nil] using fits, nonzero, ?_, by omega, by simp [encode_nil]⟩
        apply Nat.lt_of_not_le
        intro padded
        have nothing : (f.bytes.take n).drop (padding pos) = [] := by
          rw [← fits.pad]
          exact List.drop_eq_nil_of_le (by rw [List.length_take]; omega)
        rw [endsInRecord] at torn
        simp [nothing] at torn

end Cut

section Reading

variable {r : Reader} {pos : Nat} {inside : Bool} {scratch later : Bytes}

/-- The reader gets over the zero bytes at the end of a block. -/
theorem View.enter (view : View r (room pos) (List.replicate (padding pos) 0 ++ later)) :
    ∃ r', View r' (blockRoom pos) later ∧
      r.recordsFrom inside scratch = r'.recordsFrom inside scratch := by
  rcases block_cases pos with ⟨short, pad, whole⟩ | ⟨enough, pad, whole⟩
  · rw [pad] at view
    obtain ⟨r', next, view', -⟩ := view.readPhysicalRecord_next short (by simp)
    rw [List.drop_left' (by simp), ← whole] at view'
    exact ⟨r', view', recordsFrom_congr next⟩
  · rw [pad, List.replicate_zero, List.nil_append, ← whole] at view
    exact ⟨r, view, rfl⟩

end Reading

/-- A log that ends inside a fragment: complete fragments, and the first `j`
    bytes of another one's header and payload. -/
theorem IsLog.torn {bytes : Bytes} (h : IsLog bytes) (torn : endsInRecord 0 bytes = true) :
    ∃ (fs : List Fragment) (f : Fragment) (j : Nat), Chain 0 fs ∧ f.Fits (encode fs).length ∧
      f.type ≠ .zero ∧ 0 < j ∧ j < kHeaderSize + f.payload.length ∧
      bytes = encode fs ++ (List.replicate (padding (encode fs).length) 0 ++
        (Writer.header f.type f.payload ++ f.payload).take j) ∧
      recordsOf bytes = collect fs false [] := by
  obtain ⟨fs, chain, log⟩ := h
  have same : bytes = (encode fs).take bytes.length := List.prefix_iff_eq_take.mp log
  rw [same] at torn
  obtain ⟨f, k, fits, nonzero, padded, cut, split⟩ := whole_of_torn chain torn
  rw [Nat.zero_add] at fits
  rw [← same] at split
  rw [Fragment.bytes_length] at cut
  refine ⟨whole bytes.length fs, f, k - f.pad, whole_chain chain _, fits, nonzero, by omega, by omega,
    ?_, ?_⟩
  · conv => lhs; rw [split]
    rw [Fragment.bytes, List.append_assoc, List.take_append, List.length_replicate,
      List.take_of_length_le (by simp; omega), fits.pad]
  · conv => lhs; rw [same]
    exact recordsOf_chain chain _

/-- What a log that ends inside a fragment reads as after bytes that fill its
    last block and complete fragments in the blocks after it. -/
theorem IsLog.seam {bytes : Bytes} (h : IsLog bytes) (torn : endsInRecord 0 bytes = true) :
    ∃ tail inside scratch, Torn bytes tail ∧ ∀ fill fs, fill.length = room bytes.length →
      Chain (bytes.length + fill.length) fs →
      recordsOf (bytes ++ (fill ++ encode fs)) = recordsOf bytes ++
        ((scan (tail ++ fill) inside scratch).1 ++
          afterScan (scan (tail ++ fill) inside scratch).2 fs) := by
  have block : kBlockSize = 32768 := rfl
  have head : kHeaderSize = 7 := rfl
  obtain ⟨before, f, j, chain, fits, nonzero, some_, cut, split, read⟩ := h.torn torn
  have inside := fits.inside
  have tailLength : ((Writer.header f.type f.payload ++ f.payload).take j).length = j := by
    simp only [List.length_take, List.length_append, Fragment.header_length]
    omega
  have left : room bytes.length = blockRoom (encode before).length - j := by
    have size : bytes.length = (encode before).length + (padding (encode before).length + j) := by
      rw [split, List.length_append, List.length_append, List.length_replicate, tailLength]
    have cases := block_cases (encode before).length
    have position := room_eq (encode before).length
    have after := room_eq bytes.length
    omega
  refine ⟨(Writer.header f.type f.payload ++ f.payload).take j, (pendingAfter before false []).1,
    (pendingAfter before false []).2, ⟨by omega, by omega, f.type, f.payload, nonzero, fits.small,
    List.take_prefix _ _, by omega, by omega⟩, ?_⟩
  intro fill fs filled chain'
  -- the complete fragments, then the zero bytes, then the block with the seam
  have whole : bytes ++ (fill ++ encode fs) = encode before ++
      (List.replicate (padding (encode before).length) 0 ++
        ((Writer.header f.type f.payload ++ f.payload).take j ++ fill ++ encode fs)) := by
    rw [split]
    simp only [List.append_assoc]
  rw [recordsOf, records_eq_recordsFrom, whole, read]
  obtain ⟨r, view, first⟩ := @View.collect_chain _ 0 before false []
    _ (View.start (encode before ++ _)) chain
  rw [first, Nat.zero_add] at *
  obtain ⟨r', view', same⟩ := @View.enter r (encode before).length
    (pendingAfter before false []).1 (pendingAfter before false []).2 _ view
  have size : blockRoom (encode before).length =
      ((Writer.header f.type f.payload ++ f.payload).take j ++ fill).length := by
    rw [List.length_append, tailLength, filled, left]
    omega
  rw [size] at view'
  have boundary : room (bytes.length + fill.length) = 0 := by
    have after := room_eq bytes.length
    have next := room_eq (bytes.length + fill.length)
    omega
  rw [same, view'.scan chain' boundary]

theorem getD_take_append {bytes : Bytes} {n i : Nat} (low : i < n) (within : n ≤ bytes.length)
    (later : Bytes) : (bytes.take n ++ later).getD i 0 = bytes.getD i 0 := by
  rw [List.getD_eq_getElem?_getD, List.getElem?_append_left (by rw [List.length_take]; omega),
    List.getElem?_take_of_lt low, List.getD_eq_getElem?_getD]

/-- A torn fragment is longer than what is left of it. -/
theorem Torn.cut {bytes tail : Bytes} (h : Torn bytes tail) (later : Bytes) :
    tail.length < kHeaderSize + headerLength (tail ++ later) := by
  have head : kHeaderSize = 7 := rfl
  obtain ⟨type, payload, -, small, inside, cut, -⟩ := h.fragment
  by_cases long : tail.length < kHeaderSize
  · omega
  · have within := inside.length_le
    have length : headerLength (tail ++ later) = payload.length := by
      rw [List.prefix_iff_eq_take.mp inside, headerLength,
        getD_take_append (by omega) within, getD_take_append (by omega) within]
      exact View.headerLength_header small payload
    omega

/-! ## Zero bytes behind torn bytes -/

section Padded

variable {bytes tail : Bytes}

theorem Torn.padded_type (h : Torn bytes tail) :
    headerType (tail ++ List.replicate (room bytes.length) 0) ≠ 5 := by
  have head : kHeaderSize = 7 := rfl
  obtain ⟨type, payload, -, -, inside, -, -⟩ := h.fragment
  by_cases long : tail.length ≤ 6
  · have zero : (tail ++ List.replicate (room bytes.length) 0).getD 6 0 = 0 := by
      rw [List.getD_eq_getElem?_getD, List.getElem?_append_right long, List.getElem?_replicate]
      split <;> rfl
    rw [headerType, zero]
    decide
  · have own : headerType (tail ++ List.replicate (room bytes.length) 0) = type.toByte.toNat := by
      rw [List.prefix_iff_eq_take.mp inside, headerType,
        getD_take_append (by omega) inside.length_le]
      exact View.headerType_header payload
    rw [own]
    cases type <;> decide

/-- They do not make the reader stop. -/
theorem Torn.padded (h : Torn bytes tail) (short : room bytes.length < kHeaderSize) (inside : Bool)
    (scratch : Bytes) :
    ∃ state, (scan (tail ++ List.replicate (room bytes.length) 0) inside scratch).2 =
      some state := by
  have head : kHeaderSize = 7 := rfl
  have cut := h.cut (List.replicate (room bytes.length) 0)
  obtain ⟨type, payload, -, -, -, -, fits⟩ := h.fragment
  have left : (parsed (tail ++ List.replicate (room bytes.length) 0)).2.2.length < kHeaderSize := by
    rcases parsed_left (tail ++ List.replicate (room bytes.length) 0) with same | same
    · rw [same]
      decide
    · rw [same, List.length_drop, List.length_append, List.length_replicate]
      omega
  rw [scan, if_neg (by rw [List.length_append, List.length_replicate]; omega)]
  split
  · exact ⟨_, by rw [scan, if_pos left]⟩
  · exact ⟨_, by rw [scan, if_pos left]⟩
  · rename_i ended
    have stops := assembled_ended ended
    rcases parsed_cases (tail ++ List.replicate (room bytes.length) 0) with bad | ⟨-, accepted⟩
    · rw [bad] at stops
      exact absurd stops (by decide)
    · rw [accepted] at stops
      exact absurd stops h.padded_type

end Padded

/-! ## A first fragment behind torn bytes -/

/-- A payload whose first fragment, shifted by torn bytes, never reads as the
    start of itself: it has no type byte of a first or a middle fragment, and
    while it is short, the checksum in its header does not read as one or as a
    small length. -/
structure Distinct (body : Bytes) : Prop where
  small : body.length < 65536
  quiet : ∀ b ∈ body, b ≠ 2 ∧ b ≠ 3
  checksum : body.length < 6 → (Writer.header .first body).headD 0 ∉ [0, 2, 3] ∧
    ∀ i ∈ [1, 2, 3], (Writer.header .first body).getD i 0 ≠ 0

/-- The header of a short first fragment, shifted by up to six bytes, does not
    read as a first or a middle fragment that ends before its own type byte. -/
theorem Distinct.shifted {tail body : Bytes} (distinct : Distinct body) (short : body.length < 6)
    (some_ : 0 < tail.length)
    (length : headerLength (tail ++ (Writer.header .first body ++ body)) < tail.length)
    (few : tail.length ≤ 6) :
    headerType (tail ++ (Writer.header .first body ++ body)) ≠ 2 ∧
      headerType (tail ++ (Writer.header .first body ++ body)) ≠ 3 := by
  have checksum := distinct.checksum short
  obtain ⟨c₀, c₁, c₂, c₃, header⟩ : ∃ c₀ c₁ c₂ c₃, Writer.header .first body =
      [c₀, c₁, c₂, c₃, UInt8.ofNat (body.length % 256), UInt8.ofNat (body.length / 256 % 256), 2] :=
    ⟨_, _, _, _, rfl⟩
  rw [header] at checksum length ⊢
  simp only [List.headD_cons, List.mem_cons, List.not_mem_nil, or_false, not_or, forall_eq_or_imp,
    forall_eq, List.getD_cons_succ, List.getD_cons_zero] at checksum
  simp only [ne_eq, ← UInt8.toNat_inj, UInt8.reduceToNat] at checksum
  rcases tail with _ | ⟨t₀, _ | ⟨t₁, _ | ⟨t₂, _ | ⟨t₃, _ | ⟨t₄, _ | ⟨t₅, _ | ⟨t₆, more⟩⟩⟩⟩⟩⟩⟩
  all_goals
    simp [headerLength, headerType] at length some_ few ⊢
    try omega

/-- The partial record after the block of the seam is not the start of the
    record that was written there. -/
theorem Torn.pending {bytes tail body : Bytes} (h : Torn bytes tail) (distinct : Distinct body)
    {inside : Bool} {scratch scratch' : Bytes}
    (pending : (scan (tail ++ (Writer.header .first body ++ body)) inside scratch).2 =
      some (true, scratch')) : scratch' ≠ body := by
  have head : kHeaderSize = 7 := rfl
  have length : (tail ++ (Writer.header .first body ++ body)).length =
      tail.length + (kHeaderSize + body.length) := by simp
  have later : (tail ++ (Writer.header .first body ++ body)).drop (tail.length + 7) = body := by
    rw [← List.append_assoc]
    exact List.drop_left' (by simp [head])
  obtain ⟨type, within, ends, before, joined⟩ := scan_pending (by omega) (h.cut _)
    (by rw [later]; exact distinct.quiet) pending
  rintro rfl
  have covered : headerLength (tail ++ (Writer.header .first scratch' ++ scratch')) ≤
      scratch'.length := by
    have size := congrArg List.length joined
    rw [List.length_append, List.length_take, List.length_drop] at size
    omega
  by_cases reaches :
      tail.length ≤ headerLength (tail ++ (Writer.header .first scratch' ++ scratch'))
  · -- the fragment that was read contains the type byte of the one written there
    have type : (2 : UInt8) ∈ scratch' := by
      have position : (tail ++ (Writer.header .first scratch' ++ scratch'))[tail.length + 6]? =
          some 2 := by
        rw [List.getElem?_append_right (by omega), Nat.add_sub_cancel_left]
        rfl
      have index : kHeaderSize + (tail.length - 1) = tail.length + 6 := by
        have := h.nonempty
        omega
      rw [joined]
      refine List.mem_append_right _ (List.mem_iff_getElem?.mpr ⟨tail.length - 1, ?_⟩)
      rw [List.getElem?_take_of_lt (by have := h.nonempty; omega), List.getElem?_drop, index, position]
    exact (distinct.quiet 2 type).1 rfl
  · have shifted := distinct.shifted (by omega) h.nonempty (by omega) (by omega)
    exact type.elim shifted.1 shifted.2

/-- The later fragments of a record whose start was lost. -/
theorem collect_orphans {pos : Nat} {left scratch : Bytes} {isBegin : Bool}
    (orphan : isBegin = false) : collect (fragments pos left isBegin) false scratch = [] := by
  fun_induction fragments pos left isBegin with
  | case1 pos left isBegin more ih =>
      subst orphan
      rw [collect, fragmentAt_type, if_pos more]
      simpa using ih
  | case2 pos left isBegin last =>
      subst orphan
      rw [collect, fragmentAt_type, if_neg last]
      rfl

/-- The first fragment of a record that fills the rest of a block. -/
def firstFragment (size : Nat) (payload : Bytes) : Bytes :=
  Writer.header .first (payload.take (size - kHeaderSize)) ++ payload.take (size - kHeaderSize)

/-- A record that does not fit into the rest of a block begins with a first
    fragment that fills it. -/
theorem encoded_long {pos : Nat} {payload : Bytes} (enough : kHeaderSize ≤ room pos)
    (long : room pos < kHeaderSize + payload.length) :
    encoded pos payload = firstFragment (room pos) payload ++
      encode (fragments (pos + room pos) (payload.drop (room pos - kHeaderSize)) false) := by
  rcases block_cases pos with ⟨short, -, -⟩ | ⟨-, pad, whole⟩
  · omega
  have length : (payload.take (room pos - kHeaderSize)).length = room pos - kHeaderSize := by
    rw [List.length_take]
    omega
  have taken : (fragmentAt pos payload true).payload = payload.take (room pos - kHeaderSize) := by
    show payload.take (min payload.length (blockRoom pos - kHeaderSize)) = _
    rw [whole, Nat.min_eq_right (by omega)]
  have more : (fragmentAt pos payload true).payload.length < payload.length := by
    rw [taken, length]
    omega
  have type : (fragmentAt pos payload true).type = .first := by
    rw [fragmentAt_type, if_pos more]
    rfl
  have bytes : (fragmentAt pos payload true).bytes = firstFragment (room pos) payload := by
    rw [Fragment.bytes, (fragmentAt_fits pos payload true).pad, pad, type, taken,
      List.replicate_zero, List.nil_append, firstFragment]
  have size : (fragmentAt pos payload true).bytes.length = room pos := by
    rw [bytes, firstFragment, List.length_append, Fragment.header_length, length]
    omega
  rw [encoded, fragments_more more, encode_cons, size, bytes, taken, length]

/-- A long record behind a torn one: whatever its last bytes are, it is lost, or
    it is read with another start. -/
theorem IsLog.seam_long {bytes start : Bytes} (log : IsLog bytes)
    (torn : endsInRecord 0 bytes = true) (enough : kHeaderSize ≤ room bytes.length)
    (long : room bytes.length ≤ start.length)
    (distinct : Distinct (start.take (room bytes.length - kHeaderSize))) :
    ∃ done : List Bytes,
      (∀ last, recordsOf (bytes ++ encodedAll bytes.length [start ++ last]) =
        recordsOf bytes ++ done) ∨
      ∃ scratch, scratch ≠ start.take (room bytes.length - kHeaderSize) ∧
        ∀ last, recordsOf (bytes ++ encodedAll bytes.length [start ++ last]) =
          recordsOf bytes ++ done ++
            [scratch ++ start.drop (room bytes.length - kHeaderSize) ++ last] := by
  have head : kHeaderSize = 7 := rfl
  obtain ⟨tail, inside, scratch, isTorn, seam⟩ := log.seam torn
  have filled : (firstFragment (room bytes.length) start).length = room bytes.length := by
    rw [firstFragment, List.length_append, Fragment.header_length, List.length_take]
    omega
  have written (last : Bytes) : recordsOf (bytes ++ encodedAll bytes.length [start ++ last]) =
      recordsOf bytes ++
        ((scan (tail ++ firstFragment (room bytes.length) start) inside scratch).1 ++
          afterScan (scan (tail ++ firstFragment (room bytes.length) start) inside scratch).2
            (fragments (bytes.length + room bytes.length)
              (start.drop (room bytes.length - kHeaderSize) ++ last) false)) := by
    have encoded := @encoded_long bytes.length (start ++ last) enough
      (by rw [List.length_append]; omega)
    rw [firstFragment, List.take_append_of_le_length (by omega),
      List.drop_append_of_le_length (by omega), ← firstFragment] at encoded
    rw [encodedAll, encodedAll, List.append_nil, encoded]
    exact seam _ _ filled (by rw [filled]; exact fragments_chain _ _ _)
  refine ⟨(scan (tail ++ firstFragment (room bytes.length) start) inside scratch).1, ?_⟩
  cases state : (scan (tail ++ firstFragment (room bytes.length) start) inside scratch).2 with
  | none =>
      refine Or.inl fun last => ?_
      rw [written last, state, afterScan, List.append_nil]
  | some pending =>
      obtain ⟨open_, scratch'⟩ := pending
      cases open_ with
      | false =>
          refine Or.inl fun last => ?_
          rw [written last, state, afterScan, collect_orphans rfl, List.append_nil]
      | true =>
          refine Or.inr ⟨scratch', isTorn.pending distinct state, fun last => ?_⟩
          have joined := @collect_fragments (bytes.length + room bytes.length)
            (start.drop (room bytes.length - kHeaderSize) ++ last) scratch' true [] false
            (fun _ => rfl)
          rw [List.append_nil] at joined
          rw [written last, state, afterScan, joined]
          simp [collect]

end MiniLsm.Wal
