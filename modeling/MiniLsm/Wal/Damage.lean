import MiniLsm.Wal.Positions

/-! # Damaged logs

Bytes of a log are overwritten anywhere, without forging a checksum: what
verifies at an offset is what the writer put there. The reader may lose records
then, but it returns no other ones, and it does not reorder them.
-/

namespace MiniLsm.Wal

open Reader

section Collect

variable {fs gs : List Fragment} {inside : Bool} {scratch : Bytes}

/-- Outside a record the bytes so far do not matter. -/
theorem collect_outside (fs : List Fragment) (scratch scratch' : Bytes) :
    collect fs false scratch = collect fs false scratch' := by
  induction fs generalizing scratch scratch' with
  | nil => rfl
  | cons f later ih =>
      rw [collect, collect]
      cases f.type with
      | zero | full | first => rfl
      | middle | last => simpa using ih scratch scratch'

/-- A partial record adds at most the record that it becomes. -/
theorem collect_forget (fs : List Fragment) (inside : Bool) (scratch : Bytes) :
    (collect fs false []).Sublist (collect fs inside scratch) := by
  cases inside with
  | false => rw [collect_outside fs [] scratch]
  | true =>
      induction fs generalizing scratch with
      | nil => exact List.Sublist.refl _
      | cons f later ih =>
          rw [collect, collect]
          cases f.type with
          | zero | full | first => exact List.Sublist.refl _
          | middle => simpa using ih (scratch ++ f.payload)
          | last =>
              simp only [Bool.false_eq_true, if_false, if_true]
              exact List.sublist_cons_self _ _

/-- Fragments that are left out lose only records. -/
theorem collect_skip (fs gs : List Fragment) (inside : Bool) (scratch : Bytes) :
    (collect gs false []).Sublist (collect (fs ++ gs) inside scratch) := by
  induction fs generalizing inside scratch with
  | nil => exact collect_forget gs inside scratch
  | cons f later ih =>
      rw [List.cons_append, collect]
      cases f.type with
      | zero => exact ih _ _
      | full => exact (ih _ _).trans (List.sublist_cons_self _ _)
      | first => exact ih _ _
      | middle =>
          dsimp only
          split
          · exact ih _ _
          · exact ih _ _
      | last =>
          dsimp only
          split
          · exact (ih _ _).trans (List.sublist_cons_self _ _)
          · exact ih _ _

/-- The assembly of one fragment, as the reader does it and as `collect` does. -/
theorem assembled_collect (f : Fragment) (nonzero : f.type ≠ .zero) (inside : Bool)
    (scratch : Bytes) :
    (∃ inside' scratch', assembled f.type.toByte.toNat f.payload inside scratch =
        .more inside' scratch' ∧
      ∀ later, collect (f :: later) inside scratch = collect later inside' scratch') ∨
    (∃ data, assembled f.type.toByte.toNat f.payload inside scratch = .record data ∧
      ∀ later, collect (f :: later) inside scratch = data :: collect later false []) := by
  cases type : f.type with
  | zero => exact absurd type nonzero
  | full => exact Or.inr ⟨f.payload, rfl, fun later => by rw [collect, type]⟩
  | first => exact Or.inl ⟨true, f.payload, rfl, fun later => by rw [collect, type]⟩
  | middle =>
      cases inside with
      | true => exact Or.inl ⟨true, scratch ++ f.payload, rfl, fun later => by simp [collect, type]⟩
      | false => exact Or.inl ⟨false, scratch, rfl, fun later => by simp [collect, type]⟩
  | last =>
      cases inside with
      | true => exact Or.inr ⟨scratch ++ f.payload, rfl, fun later => by simp [collect, type]⟩
      | false => exact Or.inl ⟨false, scratch, rfl, fun later => by simp [collect, type]⟩

end Collect

/-! ## Physical records and their offsets -/

/-- The bytes of the physical record whose header stands at an offset. -/
def recordAt (bytes : Bytes) (start : Nat) : Bytes :=
  (bytes.drop start).take (kHeaderSize + headerLength (bytes.drop start))

/-- A fragment of a file of fragments has its header at an offset. -/
def Placed (fs : List Fragment) (start : Nat) (f : Fragment) : Prop :=
  ∃ before later, fs = before ++ f :: later ∧ (encode before).length + f.pad = start

/-- Nothing in the file verifies but what was put there. -/
def Unforged (fs : List Fragment) (bytes : Bytes) : Prop :=
  ∀ start, Verifies bytes start →
    ∃ f, Placed fs start f ∧ recordAt bytes start = Writer.header f.type f.payload ++ f.payload

/-- All the fragments start before a position. -/
def Behind (fs : List Fragment) (pos : Nat) : Prop :=
  ∀ before f, before ++ [f] <+: fs → (encode before).length + f.pad < pos

/-- The fragments of a file that starts at a position, with the offsets of their
    headers. -/
def offsets (pos : Nat) : List Fragment → List (Nat × Fragment)
  | [] => []
  | f :: later => (pos + f.pad, f) :: offsets (pos + f.bytes.length) later

theorem placed_of_mem_offsets {before fs : List Fragment} {x : Nat × Fragment}
    (member : x ∈ offsets (encode before).length fs) : Placed (before ++ fs) x.1 x.2 := by
  induction fs generalizing before with
  | nil => simp [offsets] at member
  | cons f later ih =>
      rcases List.mem_cons.mp member with rfl | member
      · exact ⟨before, later, rfl, rfl⟩
      · rw [← encode_concat_length] at member
        have placed := ih member
        rwa [List.append_assoc, List.singleton_append] at placed

/-- Going through the offsets of a file shows that nothing in it is forged. -/
theorem unforged_of_offsets {fs : List Fragment} {bytes : Bytes}
    (checked : ∀ start < bytes.length, Verifies bytes start → ∃ x ∈ offsets 0 fs, x.1 = start ∧
      recordAt bytes start = Writer.header x.2.type x.2.payload ++ x.2.payload) :
    Unforged fs bytes := by
  intro start verifies
  have head : kHeaderSize = 7 := rfl
  have whole := verifies.whole
  obtain ⟨x, member, offset, same⟩ := checked start (by omega) verifies
  have placed : Placed ([] ++ fs) x.1 x.2 := placed_of_mem_offsets member
  exact ⟨x.2, offset ▸ placed, same⟩

section Placed

variable {fs before gs : List Fragment} {f : Fragment} {bytes : Bytes} {pos start : Nat}

/-- What a verifying physical record says about the fragment it is. -/
theorem header_of_recordAt (small : f.payload.length < 65536)
    (same : recordAt bytes start = Writer.header f.type f.payload ++ f.payload) :
    headerType (bytes.drop start) = f.type.toByte.toNat ∧
      headerLength (bytes.drop start) = f.payload.length ∧
      ((bytes.drop start).drop kHeaderSize).take (headerLength (bytes.drop start)) = f.payload := by
  have front : bytes.drop start = Writer.header f.type f.payload ++ (f.payload ++
      (bytes.drop start).drop (kHeaderSize + headerLength (bytes.drop start))) := by
    rw [← List.append_assoc, ← same, recordAt, List.take_append_drop]
  generalize (bytes.drop start).drop (kHeaderSize + headerLength (bytes.drop start)) = later at front
  rw [front]
  have length := @View.headerLength_header f.payload f.type small (f.payload ++ later)
  refine ⟨View.headerType_header _, length, ?_⟩
  rw [length, List.drop_left' (Fragment.header_length _ _), List.take_left]

/-- A fragment that starts behind a position is not among those before it. -/
theorem Behind.before_placed {first later : List Fragment} (behind : Behind before pos)
    (split : fs = before ++ gs) (placed : fs = first ++ f :: later)
    (ahead : pos ≤ (encode first).length + f.pad) :
    ∃ skipped, first = before ++ skipped ∧ gs = skipped ++ f :: later := by
  have one : before <+: fs := ⟨gs, split.symm⟩
  have two : first ++ [f] <+: fs := ⟨later, by rw [placed]; simp⟩
  rcases List.prefix_or_prefix_of_prefix one two with within | within
  · rcases List.prefix_concat_iff.mp within with same | ⟨skipped, same⟩
    · have := behind first f (same ▸ List.prefix_rfl)
      omega
    · refine ⟨skipped, same.symm, ?_⟩
      rw [split, ← same, List.append_assoc] at placed
      exact List.append_cancel_left placed
  · have := behind first f within
    omega

theorem Behind.mono {pos' : Nat} (behind : Behind fs pos) (le : pos ≤ pos') : Behind fs pos' :=
  fun first g inside => Nat.lt_of_lt_of_le (behind first g inside) le

/-- Complete fragments start before their end. -/
theorem behind_encode (fs : List Fragment) : Behind fs (encode fs).length := by
  rintro first g ⟨later, rfl⟩
  have head : kHeaderSize = 7 := rfl
  rw [encode_append, encode_append, encode_cons, encode_nil]
  simp only [List.length_append, Fragment.bytes_length, List.length_nil]
  omega

/-- The fragment whose header is looked for next is the next one. -/
theorem Chain.next_placed {skipped later : List Fragment} (chain : Chain 0 fs)
    (placed : fs = before ++ skipped ++ f :: later)
    (offset : (encode (before ++ skipped)).length + f.pad =
      (encode before).length + padding (encode before).length) : skipped = [] := by
  have head : kHeaderSize = 7 := rfl
  cases skipped with
  | nil => rfl
  | cons g rest =>
      rw [placed, List.append_assoc, chain_append, Nat.zero_add] at chain
      have pad := chain.2.1.1.pad
      rw [encode_append, encode_cons] at offset
      simp only [List.length_append, Fragment.bytes_length] at offset
      omega

end Placed

/-! ## What is returned was written -/

section Walk

variable {fs before gs : List Fragment} {bytes : Bytes} {pos : Nat} {inside : Bool}
  {scratch : Bytes}

/-- From a position on, the reader returns records that the fragments from there
    on make up. Inside a record it has kept in step with them. -/
theorem Unforged.walk (unforged : Unforged fs bytes) (chain : Chain 0 fs)
    (split : fs = before ++ gs) (behind : Behind before pos)
    (inStep : inside = true → (encode before).length = pos) :
    (walk bytes pos inside scratch).1.Sublist (collect gs inside scratch) := by
  have head : kHeaderSize = 7 := rfl
  induction size : bytes.length - pos using Nat.strongRecOn
    generalizing before gs pos inside scratch with
  | _ size ih =>
      cases read : physicalAt bytes pos with
      | none =>
          rw [walk_none read]
          exact List.nil_sublist _
      | some x =>
          have next := physicalAt_next read
          rcases physicalAt_cases read with ⟨bad, -⟩ | ⟨verifies, same⟩
          · -- a dropped record ends the partial one
            obtain ⟨scratch', result⟩ := assembled_bad bad x.payload inside scratch
            rw [walk_more read result]
            have later := @ih _ (by omega) before gs x.next false scratch' split
              (behind.mono (by omega)) (by simp) rfl
            rw [collect_outside gs scratch' []] at later
            exact later.trans (collect_forget gs inside scratch)
          · obtain ⟨f, ⟨first, later, placed, offset⟩, identical⟩ := unforged _ verifies
            obtain ⟨skipped, firstSplit, gsSplit⟩ :=
              behind.before_placed split placed (by omega)
            obtain ⟨-, fits, nonzero⟩ : _ ∧ f.Fits (encode first).length ∧ f.type ≠ .zero := by
              have chained := chain
              rw [placed, chain_append, Nat.zero_add] at chained
              exact ⟨chained.1, chained.2.1⟩
            obtain ⟨type, length, payload⟩ := header_of_recordAt fits.small identical
            rw [type, payload, length] at same
            have behindEnd : (encode (first ++ [f])).length = x.next := by
              rw [same, encode_append, encode_cons, encode_nil, List.append_nil, List.length_append,
                Fragment.bytes_length]
              dsimp only
              omega
            have split' : fs = (first ++ [f]) ++ later := by simp [placed]
            have behind' : Behind (first ++ [f]) x.next := behindEnd ▸ behind_encode _
            have state : (collect (f :: later) inside scratch).Sublist
                (collect gs inside scratch) := by
              cases inside with
              | false =>
                  rw [gsSplit, collect_outside _ scratch []]
                  exact (collect_skip skipped (f :: later) false []).trans
                    (by rw [collect_outside _ [] scratch])
              | true =>
                  -- in step: the fragment at this offset is the next one
                  have level := inStep rfl
                  rw [firstSplit] at placed offset
                  have nothing := chain.next_placed placed (by rw [offset, level])
                  rw [gsSplit, nothing, List.nil_append]
            rcases assembled_collect f nonzero inside scratch with
              ⟨inside', scratch', result, collected⟩ | ⟨data, result, collected⟩
            · have result : assembled x.type x.payload inside scratch = .more inside' scratch' := by
                rw [same]
                exact result
              rw [walk_more read result]
              rw [collected] at state
              exact (@ih _ (by omega) _ later x.next inside' scratch' split' behind'
                (fun _ => behindEnd) rfl).trans state
            · have result : assembled x.type x.payload inside scratch = .record data := by
                rw [same]
                exact result
              rw [walk_record read result]
              rw [collected] at state
              exact ((@ih _ (by omega) _ later x.next false [] split' behind'
                (fun _ => behindEnd) rfl).cons_cons data).trans state

theorem Unforged.recordsOf {payloads : List Bytes} {bytes : Bytes}
    (unforged : Unforged (fragmentsAll 0 payloads) bytes) :
    (recordsOf bytes).Sublist payloads := by
  have returned := @Unforged.walk _ [] _ bytes 0 false [] unforged (fragmentsAll_chain 0 _) rfl
    (behind_encode []) (by simp)
  rwa [← recordsOf_walk, collect_fragmentsAll] at returned

/-- The log that writer sessions produce is the encoding of its fragments. -/
theorem sessions_encode (split : List (List Bytes)) :
    (sessions {} split).1.contents = encode (fragmentsAll 0 split.flatten) := by
  have appends : WritableFile.Appends {} := rfl
  rw [sessions_eq appends split, encode_fragmentsAll]
  exact List.nil_append _

/-- Whatever bytes of a log are overwritten, as long as no checksum is forged,
    the records that are returned are some of the payloads, in their order. -/
theorem damaged_log_sublist (split : List (List Bytes)) (fs : List Fragment) (bytes : Bytes)
    (layout : fs = fragmentsAll 0 split.flatten) (unforged : Unforged fs bytes) :
    (sessions {} split).1.contents = encode fs ∧
      (Reader.records { file := { rest := bytes } }).1.Sublist split.flatten := by
  subst layout
  exact ⟨sessions_encode split, unforged.recordsOf⟩

/-- The last payload byte of two records is overwritten. -/
def flipped : Bytes := Writer.header .full [5] ++ [5] ++ Writer.header .full [6] ++ [7]

theorem damaged_log_sublist_flipped :
    (Reader.records { file := { rest := flipped } }).1.Sublist [[5], [6]] :=
  (damaged_log_sublist [[[5], [6]]] _ flipped rfl
    (unforged_of_offsets (by decide +kernel))).2

end Walk

end MiniLsm.Wal
