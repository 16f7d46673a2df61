import MiniLsm.Wal.Damage

/-! # Damaged blocks

Some blocks of a log hold arbitrary bytes. Whatever the reader makes of them, it
is back in step at the next block boundary, so that every record whose physical
records all lie in other blocks is returned.
-/

namespace MiniLsm.Wal

open Reader

variable (damaged : Nat → Prop)

/-- Bytes that differ from a log only inside damaged blocks, where no physical
    record verifies with a type that the writer does not have. -/
structure Overwritten (fs : List Fragment) (bytes : Bytes) : Prop where
  length : bytes.length = (encode fs).length
  outside : ∀ i, ¬ damaged (i / kBlockSize) → bytes[i]? = (encode fs)[i]?
  known : ∀ start, damaged (start / kBlockSize) → Verifies bytes start →
    headerType (bytes.drop start) < 5

/-- The blocks in which the physical records of fragments lie. -/
def blocksOf (pos : Nat) : List Fragment → List Nat
  | [] => []
  | f :: later => (pos + f.pad) / kBlockSize :: blocksOf (pos + f.bytes.length) later

section Spared

variable [DecidablePred damaged]

/-- The payloads none of whose physical records lies in a damaged block. -/
def spared (pos : Nat) : List Bytes → List Bytes
  | [] => []
  | payload :: later =>
      if ∀ block ∈ blocksOf pos (fragments pos payload true), ¬ damaged block then
        payload :: spared (pos + (encoded pos payload).length) later
      else spared (pos + (encoded pos payload).length) later

/-- The fragments, with zero types in place of those in damaged blocks. -/
def masked (pos : Nat) : List Fragment → List Fragment
  | [] => []
  | f :: later =>
      (if damaged ((pos + f.pad) / kBlockSize) then { f with type := .zero } else f) ::
        masked (pos + f.bytes.length) later

end Spared

section Masked

variable {damaged} [DecidablePred damaged] {pos : Nat} {fs gs : List Fragment}

theorem masked_append (pos : Nat) (fs gs : List Fragment) :
    masked damaged pos (fs ++ gs) =
      masked damaged pos fs ++ masked damaged (pos + (encode fs).length) gs := by
  induction fs generalizing pos with
  | nil => rfl
  | cons f later ih =>
      rw [List.cons_append, masked, masked, ih, encode_cons, List.length_append, Nat.add_assoc,
        List.cons_append]

theorem masked_spared (intact : ∀ block ∈ blocksOf pos fs, ¬ damaged block) :
    masked damaged pos fs = fs := by
  induction fs generalizing pos with
  | nil => rfl
  | cons f later ih =>
      rw [blocksOf, List.forall_mem_cons] at intact
      rw [masked, if_neg intact.1, ih intact.2]

/-- The spared payloads are assembled from the fragments outside the damaged
    blocks. -/
theorem spared_collect (pos : Nat) (payloads : List Bytes) (inside : Bool) (scratch : Bytes) :
    (spared damaged pos payloads).Sublist
      (collect (masked damaged pos (fragmentsAll pos payloads)) inside scratch) := by
  induction payloads generalizing pos inside scratch with
  | nil => exact List.nil_sublist _
  | cons payload later ih =>
      rw [spared, fragmentsAll, masked_append]
      split
      · rename_i intact
        rw [masked_spared intact, collect_fragments _ (by simp), if_pos rfl]
        exact (ih _ _ _).cons_cons payload
      · exact (ih _ _ _).trans (collect_skip _ _ _ _)

/-- The fragments of a damaged block are all lost; the next ones start with the
    next block. -/
theorem Chain.leaveBlock {f : Fragment} {later : List Fragment} (chain : Chain pos (f :: later))
    (bad : damaged ((pos + padding pos) / kBlockSize)) :
    ∃ skipped rest, f :: later = skipped ++ rest ∧
      (∀ inside scratch, collect (masked damaged pos (f :: later)) inside scratch =
        collect (masked damaged (pos + (encode skipped).length) rest) false []) ∧
      (rest ≠ [] → pos + (encode skipped).length + padding (pos + (encode skipped).length) =
        ((pos + padding pos) / kBlockSize + 1) * kBlockSize) := by
  induction later generalizing f pos with
  | nil =>
      refine ⟨[f], [], rfl, fun inside scratch => ?_, by simp⟩
      simp only [masked, chain.1.1.pad, if_pos bad, collect]
  | cons g rest ih =>
      obtain ⟨⟨fits, -⟩, chain'⟩ := chain
      have lost : ∀ inside scratch, collect (masked damaged pos (f :: g :: rest)) inside scratch =
          collect (masked damaged (pos + f.bytes.length) (g :: rest)) false [] := by
        intro inside scratch
        rw [masked, fits.pad, if_pos bad]
        rfl
      by_cases same : (pos + f.bytes.length + padding (pos + f.bytes.length)) / kBlockSize =
          (pos + padding pos) / kBlockSize
      · obtain ⟨skipped, last, split, collected, boundary⟩ := ih chain' (same ▸ bad)
        refine ⟨f :: skipped, last, by rw [split]; rfl, fun inside scratch => ?_, ?_⟩
        · rw [lost, collected, encode_cons, List.length_append, Nat.add_assoc]
        · rw [encode_cons, List.length_append, ← Nat.add_assoc, ← same]
          exact boundary
      · refine ⟨[f], g :: rest, rfl, fun inside scratch => ?_, fun _ => ?_⟩
        · rw [lost, encode_cons, encode_nil, List.append_nil]
        · rw [encode_cons, encode_nil, List.append_nil]
          have block : kBlockSize = 32768 := rfl
          have head : kHeaderSize = 7 := rfl
          have here := start_mod pos
          have there := start_mod (pos + f.bytes.length)
          have cases := block_cases (pos + f.bytes.length)
          have size := room_eq (pos + f.bytes.length)
          have length := Fragment.bytes_length f
          have pad := fits.pad
          have inside := fits.inside
          simp only [block] at *
          omega

end Masked

/-! ## Reading on -/

section Walk

variable {damaged} {fs before gs : List Fragment} {bytes : Bytes} {pos : Nat}

/-- Anything but the end of the input is followed by the rest. -/
theorem walk_goesOn {x : Physical} (read : physicalAt bytes pos = some x) (more : x.type ≠ kEof)
    (inside : Bool) (scratch : Bytes) :
    ∃ done inside' scratch', (walk bytes pos inside scratch).1 =
      done ++ (walk bytes x.next inside' scratch').1 := by
  cases result : assembled x.type x.payload inside scratch with
  | more inside' scratch' => exact ⟨[], inside', scratch', by rw [walk_more read result]; rfl⟩
  | record data => exact ⟨[data], false, [], by rw [walk_record read result]; rfl⟩
  | ended => exact absurd (assembled_ended result) more

namespace Overwritten

/-- No end of the input is found in a damaged block. -/
theorem goesOn (h : Overwritten damaged fs bytes) {x : Physical}
    (bad : damaged ((pos + padding pos) / kBlockSize)) (read : physicalAt bytes pos = some x) :
    x.type ≠ kEof := by
  rcases physicalAt_cases read with ⟨dropped, -⟩ | ⟨verifies, same⟩
  · rw [dropped]
    decide
  · have known := h.known _ bad verifies
    rw [same]
    exact Nat.ne_of_lt known

/-- The reader leaves a damaged block at its end. -/
theorem leave (h : Overwritten damaged fs bytes) {boundary : Nat} {kept : List Bytes}
    (bad : damaged ((pos + padding pos) / kBlockSize))
    (next : boundary = ((pos + padding pos) / kBlockSize + 1) * kBlockSize)
    (within : boundary ≤ bytes.length)
    (resumed : ∀ pos', pos < pos' → pos' + padding pos' = boundary → ∀ inside scratch,
      kept.Sublist (walk bytes pos' inside scratch).1)
    (inside : Bool) (scratch : Bytes) : kept.Sublist (walk bytes pos inside scratch).1 := by
  have block : kBlockSize = 32768 := rfl
  have head : kHeaderSize = 7 := rfl
  induction size : bytes.length - pos using Nat.strongRecOn generalizing pos inside scratch with
  | _ size ih =>
      have here := start_mod pos
      obtain ⟨x, read⟩ := @physicalAt_full bytes pos (by simp only [block] at *; omega)
      obtain ⟨done, inside', scratch', reads⟩ :=
        walk_goesOn read (h.goesOn bad read) inside scratch
      obtain ⟨low, high, limit⟩ := physicalAt_next read
      have later : kept.Sublist (walk bytes x.next inside' scratch').1 := by
        have there := start_mod x.next
        have cases := block_cases x.next
        have room := room_eq x.next
        by_cases same : (x.next + padding x.next) / kBlockSize = (pos + padding pos) / kBlockSize
        · exact @ih _ (by omega) x.next (same ▸ bad) (same ▸ next)
            (fun pos' beyond => resumed pos' (by omega)) inside' scratch' rfl
        · refine resumed x.next (by omega) ?_ inside' scratch'
          simp only [block] at *
          omega
      rw [reads]
      exact later.trans (List.sublist_append_right _ _)

/-- A fragment outside the damaged blocks is read as it was written. -/
theorem intact (h : Overwritten damaged fs bytes) {f : Fragment} {later : List Fragment}
    (chain : Chain 0 fs) (split : fs = before ++ f :: later)
    (level : pos + padding pos = (encode before).length + padding (encode before).length)
    (good : ¬ damaged ((pos + padding pos) / kBlockSize)) :
    physicalAt bytes pos = some
      { type := f.type.toByte.toNat, payload := f.payload
        next := (encode before).length + f.bytes.length, reported := false } := by
  have block : kBlockSize = 32768 := rfl
  rw [split, chain_append, Nat.zero_add] at chain
  obtain ⟨fits, nonzero⟩ := chain.2.1
  have here := start_mod pos
  have there := start_mod (encode before).length
  have inside := fits.inside
  have same : (bytes.drop (pos + padding pos)).take (blockRoom pos) =
      ((encode fs).drop (pos + padding pos)).take (blockRoom pos) := by
    apply List.ext_getElem?
    intro i
    by_cases low : i < blockRoom pos
    · rw [List.getElem?_take_of_lt low, List.getElem?_take_of_lt low, List.getElem?_drop,
        List.getElem?_drop]
      refine h.outside _ ?_
      have sameBlock : (pos + padding pos + i) / kBlockSize = (pos + padding pos) / kBlockSize := by
        simp only [block] at *
        omega
      rwa [sameBlock]
    · rw [List.getElem?_take_eq_none (by omega), List.getElem?_take_eq_none (by omega)]
  have front : (encode fs).drop (pos + padding pos) =
      Writer.header f.type f.payload ++ (f.payload ++ encode later) := by
    rw [level, split, encode_append, encode_cons, ← List.drop_drop, List.drop_left, Fragment.bytes,
      fits.pad, List.append_assoc, List.append_assoc, List.drop_left' (by simp)]
  rw [physicalAt_congr same, physicalAt_fragment front (by rw [level] at here; omega) nonzero, level,
    Fragment.bytes_length, fits.pad]
  simp only [Option.some.injEq, Physical.mk.injEq, true_and, and_true]
  omega

end Overwritten

/-- The header of a fragment starts inside the file. -/
theorem Chain.start_le {g : Fragment} {rest : List Fragment} (chain : Chain 0 fs)
    (split : fs = before ++ g :: rest) :
    (encode before).length + padding (encode before).length ≤ (encode fs).length := by
  rw [split, chain_append, Nat.zero_add] at chain
  have pad := chain.2.1.1.pad
  rw [split, encode_append, List.length_append, encode_cons, List.length_append,
    Fragment.bytes_length]
  omega

/-- In step with the fragments at a position, the reader returns what the ones
    outside the damaged blocks make up. -/
theorem Overwritten.walk [DecidablePred damaged] (h : Overwritten damaged fs bytes) (chain : Chain 0 fs) (split : fs = before ++ gs)
    (level : gs ≠ [] →
      pos + padding pos = (encode before).length + padding (encode before).length)
    (inside : Bool) (scratch : Bytes) :
    (collect (masked damaged (encode before).length gs) inside scratch).Sublist
      (walk bytes pos inside scratch).1 := by
  have head : kHeaderSize = 7 := rfl
  induction size : bytes.length - pos using Nat.strongRecOn
    generalizing before gs pos inside scratch with
  | _ size ih =>
      cases gs with
      | nil => exact List.nil_sublist _
      | cons f later =>
          have level := level (List.cons_ne_nil _ _)
          have chained := chain
          rw [split, chain_append, Nat.zero_add] at chained
          have fits := chained.2.1.1
          by_cases bad : damaged ((pos + padding pos) / kBlockSize)
          · obtain ⟨skipped, rest, divided, lost, boundary⟩ :=
              chained.2.leaveBlock (level ▸ bad)
            rw [lost]
            cases rest with
            | nil => exact List.nil_sublist _
            | cons g rest =>
                have split' : fs = (before ++ skipped) ++ g :: rest := by
                  rw [split, divided, List.append_assoc]
                have behind : (encode (before ++ skipped)).length =
                    (encode before).length + (encode skipped).length := by
                  rw [encode_append, List.length_append]
                rw [← behind] at boundary ⊢
                have boundary := boundary (List.cons_ne_nil _ _)
                rw [← level] at boundary
                have within := chain.start_le split'
                rw [← h.length] at within
                refine h.leave bad boundary within (fun pos' beyond reached inside scratch => ?_)
                  inside scratch
                refine (collect_forget _ inside scratch).trans ?_
                exact @ih _ (by omega) _ _ pos' split' (fun _ => reached) inside scratch rfl
          · have read := h.intact chain split level bad
            have next := physicalAt_next read
            have behind := encode_concat_length before f
            have split' : fs = (before ++ [f]) ++ later := by simp [split]
            have rest (inside' : Bool) (scratch' : Bytes) :=
              @ih (bytes.length - (encode (before ++ [f])).length) (by dsimp only at next; omega)
                _ later (encode (before ++ [f])).length split' (fun _ => rfl) inside' scratch' rfl
            rw [masked, fits.pad, ← level, if_neg bad, ← behind]
            rw [← behind] at read
            rcases assembled_collect f chained.2.1.2 inside scratch with
              ⟨inside', scratch', result, collected⟩ | ⟨data, result, collected⟩
            · rw [walk_more read result, collected]
              exact rest inside' scratch'
            · rw [walk_record read result, collected]
              exact (rest false []).cons_cons data

/-- Arbitrary bytes in some blocks of a log: the payloads of which no physical
    record lies in these blocks are returned, in their order. -/
theorem spared_records_returned (split : List (List Bytes)) (fs : List Fragment)
    (damaged : Nat → Prop) [DecidablePred damaged] (bytes : Bytes)
    (layout : fs = fragmentsAll 0 split.flatten) (overwritten : Overwritten damaged fs bytes) :
    (sessions {} split).1.contents = encode fs ∧
      (spared damaged 0 split.flatten).Sublist
        (Reader.records { file := { rest := bytes } }).1 := by
  subst layout
  refine ⟨sessions_encode split, ?_⟩
  have returned := @Overwritten.walk damaged _ [] _ bytes 0 _ overwritten (fragmentsAll_chain 0 _)
    rfl (fun _ => rfl) false []
  rw [← recordsOf_walk] at returned
  exact (spared_collect 0 split.flatten false []).trans returned

/-- The block of the first of two records is zeroed. -/
theorem spared_records_returned_zeroed :
    [[5]].Sublist (Reader.records { file :=
      { rest := List.replicate kBlockSize 0 ++ (Writer.header .full [5] ++ [5]) } }).1 := by
  have head : kHeaderSize = 7 := rfl
  have block : kBlockSize = 32768 := rfl
  obtain ⟨body, full⟩ : ∃ body : Bytes, kHeaderSize + body.length = kBlockSize :=
    ⟨List.replicate (kBlockSize - kHeaderSize) 1, by rw [List.length_replicate]; omega⟩
  have zeros : ∀ b ∈ List.replicate kBlockSize (0 : UInt8), b = 0 :=
    fun b member => List.eq_of_mem_replicate member
  have length : (List.replicate kBlockSize (0 : UInt8)).length = kBlockSize := List.length_replicate
  generalize List.replicate kBlockSize (0 : UInt8) = front at zeros length ⊢
  have one : fragments 0 body true = [⟨0, .full, body⟩] := by
    have fitting : min body.length (blockRoom 0 - kHeaderSize) = body.length := by
      have whole : blockRoom 0 = kBlockSize := rfl
      omega
    have first : fragmentAt 0 body true = ⟨0, .full, body⟩ := by
      simp only [fragmentAt, fitting, List.take_length, decide_true]
      rfl
    rw [fragments_last (by rw [first]; exact Nat.lt_irrefl _), first]
  have two : fragments kBlockSize [5] true = [⟨0, .full, [5]⟩] := by decide +kernel
  have size : (encoded 0 body).length = kBlockSize := by
    rw [encoded, one, encode_cons, encode_nil, List.append_nil, Fragment.bytes_length]
    exact (Nat.zero_add _).symm ▸ full
  have layout : fragmentsAll 0 [body, [5]] = [⟨0, .full, body⟩, ⟨0, .full, [5]⟩] := by
    rw [fragmentsAll, fragmentsAll, fragmentsAll, size, Nat.zero_add, one, two]
    rfl
  have lost : spared (fun block => block = 0) 0 [body, [5]] = [[5]] := by
    rw [spared, spared, spared, size, Nat.zero_add, one, two]
    simp [blocksOf, kBlockSize]
  have written : encode [⟨0, .full, body⟩, ⟨0, .full, [5]⟩] =
      (Writer.header .full body ++ body) ++ (Writer.header .full [5] ++ [5]) := by
    rw [encode_cons, encode_cons, encode_nil, List.append_nil, Fragment.bytes, Fragment.bytes,
      List.replicate_zero, List.nil_append]
    rfl
  have size' : (Writer.header .full body ++ body).length = kBlockSize := by
    rw [List.length_append, Fragment.header_length, full]
  have overwritten : Overwritten (fun block => block = 0)
      [⟨0, .full, body⟩, ⟨0, .full, [5]⟩] (front ++ (Writer.header .full [5] ++ [5])) := by
    refine ⟨?_, fun i other => ?_, fun start _ verifies => ?_⟩
    · rw [written, List.length_append, length]
      exact (List.length_append.trans (congrArg (· + _) size')).symm
    · have beyond : kBlockSize ≤ i := by
        simp only [block] at *
        omega
      rw [written, List.getElem?_append_right (length.trans_le beyond),
        List.getElem?_append_right (size'.trans_le beyond), length, size']
    · have inside := verifies.block
      have low : start + 6 < front.length := by
        simp only [block] at *
        omega
      have type : headerType ((front ++ (Writer.header .full [5] ++ [5])).drop start) = 0 := by
        rw [headerType, List.getD_eq_getElem?_getD, List.getElem?_drop,
          List.getElem?_append_left low, List.getElem?_eq_getElem low, Option.getD_some,
          zeros _ (List.getElem_mem low)]
        rfl
      rw [type]
      decide
  have returned := (spared_records_returned [[body, [5]]] _ (fun block => block = 0) _
    layout.symm overwritten).2
  rwa [show [[body, [5]]].flatten = [body, [5]] from rfl, lost] at returned

end Walk

end MiniLsm.Wal
