import MiniLsm.Wal.RoundTrip

/-! # Log files that were cut and resumed

A log file is a prefix of a chain of fragments, each in its place. Reading it
assembles the fragments that are complete. A crash leaves a prefix, which is
again a log file; a writer that resumes it continues the chain, unless the file
ends inside a fragment.
-/

namespace MiniLsm.Wal

/-- Fragments that follow each other from a position on. -/
def Chain (pos : Nat) : List Fragment → Prop
  | [] => True
  | f :: later => (f.Fits pos ∧ f.type ≠ .zero) ∧ Chain (pos + f.bytes.length) later

/-- The records that `ReadRecord` assembles from fragments. -/
def collect : List Fragment → Bool → Bytes → List Bytes
  | [], _, _ => []
  | f :: later, inside, scratch =>
      match f.type with
      | .full => f.payload :: collect later false []
      | .first => collect later true f.payload
      | .middle =>
          if inside then collect later true (scratch ++ f.payload)
          else collect later false scratch
      | .last =>
          if inside then (scratch ++ f.payload) :: collect later false []
          else collect later false scratch
      | .zero => collect later false []

/-- The partial record that fragments leave. -/
def pendingAfter : List Fragment → Bool → Bytes → Bool × Bytes
  | [], inside, scratch => (inside, scratch)
  | f :: later, inside, scratch =>
      match f.type with
      | .first => pendingAfter later true f.payload
      | .middle =>
          if inside then pendingAfter later true (scratch ++ f.payload)
          else pendingAfter later false scratch
      | .last => pendingAfter later false (if inside then [] else scratch)
      | .full | .zero => pendingAfter later false []

/-- The fragments that are complete in the first `n` bytes. -/
def whole (n : Nat) : List Fragment → List Fragment
  | [] => []
  | f :: later => if f.bytes.length ≤ n then f :: whole (n - f.bytes.length) later else []

/-- The fragments of several records. -/
def fragmentsAll (pos : Nat) : List Bytes → List Fragment
  | [] => []
  | payload :: later =>
      fragments pos payload true ++ fragmentsAll (pos + (encoded pos payload).length) later

/-- The bytes of a file, walked header by header from a position on, end inside
    a physical record. -/
def endsInRecord (pos : Nat) (bytes : Bytes) : Bool :=
  let rest := bytes.drop (padding pos)
  if rest.length = 0 then false
  else if rest.length < kHeaderSize + Reader.headerLength rest then true
  else
    endsInRecord (pos + padding pos + (kHeaderSize + Reader.headerLength rest))
      (rest.drop (kHeaderSize + Reader.headerLength rest))
termination_by bytes.length
decreasing_by
  have head : kHeaderSize = 7 := rfl
  simp only [List.length_drop, rest] at *
  omega

section Chains

variable {pos n : Nat} {fs gs : List Fragment} {bytes : Bytes}

theorem chain_append : Chain pos (fs ++ gs) ↔
    Chain pos fs ∧ Chain (pos + (encode fs).length) gs := by
  induction fs generalizing pos with
  | nil => simp [Chain, encode]
  | cons f later ih =>
      simp only [List.cons_append, Chain, ih, encode, List.flatMap_cons, List.length_append,
        and_assoc, Nat.add_assoc]

theorem encode_append : encode (fs ++ gs) = encode fs ++ encode gs := List.flatMap_append

theorem encode_concat_length (before : List Fragment) (f : Fragment) :
    (encode (before ++ [f])).length = (encode before).length + f.bytes.length := by
  rw [encode_append, encode_cons, encode_nil, List.append_nil, List.length_append]

theorem fragments_chain (pos : Nat) (left : Bytes) (isBegin : Bool) :
    Chain pos (fragments pos left isBegin) := by
  fun_induction fragments pos left isBegin with
  | case1 pos left isBegin more ih =>
      exact ⟨⟨fragmentAt_fits pos left isBegin, fragmentAt_nonzero pos left isBegin⟩, ih⟩
  | case2 pos left isBegin last =>
      exact ⟨⟨fragmentAt_fits pos left isBegin, fragmentAt_nonzero pos left isBegin⟩, trivial⟩

theorem encode_fragmentsAll (pos : Nat) (payloads : List Bytes) :
    encode (fragmentsAll pos payloads) = encodedAll pos payloads := by
  induction payloads generalizing pos with
  | nil => rfl
  | cons payload later ih => rw [fragmentsAll, encode_append, ih, encodedAll, encoded]

theorem fragmentsAll_chain (pos : Nat) (payloads : List Bytes) :
    Chain pos (fragmentsAll pos payloads) := by
  induction payloads generalizing pos with
  | nil => trivial
  | cons payload later ih => exact chain_append.mpr ⟨fragments_chain _ _ _, ih _⟩

theorem whole_chain (chain : Chain pos fs) (n : Nat) : Chain pos (whole n fs) := by
  induction fs generalizing pos n with
  | nil => trivial
  | cons f later ih =>
      rw [whole]
      split
      · exact ⟨chain.1, ih chain.2 _⟩
      · trivial

theorem whole_all (fs : List Fragment) : whole (encode fs).length fs = fs := by
  induction fs with
  | nil => rfl
  | cons f later ih =>
      rw [whole, encode_cons, List.length_append, if_pos (by omega), Nat.add_sub_cancel_left, ih]

theorem whole_mono {m n : Nat} (le : m ≤ n) (fs : List Fragment) : whole m fs <+: whole n fs := by
  induction fs generalizing m n with
  | nil => exact List.prefix_rfl
  | cons f later ih =>
      rw [whole, whole]
      split
      · rw [if_pos (by omega)]
        exact (List.prefix_cons_inj f).mpr (ih (by omega))
      · exact List.nil_prefix

end Chains

/-! ## Reading a chain -/

/-- What `ReadRecord` returns up to the first false, from inside a record. -/
def Reader.recordsFrom (r : Reader) (inside : Bool) (scratch : Bytes) : List Bytes :=
  match r.readRecordLoop inside scratch with
  | (some data, r') => data :: r'.records.1
  | (none, _) => []

section Reading

variable {r r' : Reader} {pos n : Nat} {fs : List Fragment} {inside : Bool} {scratch : Bytes}

theorem records_eq_recordsFrom (r : Reader) : r.records.1 = r.recordsFrom false [] := by
  rw [Reader.recordsFrom]
  cases read : r.readRecordLoop false [] with
  | mk result r' =>
      cases result with
      | none => rw [Reader.records_none read]
      | some data => rw [Reader.records_some read]

theorem recordsFrom_more {inside' : Bool} {scratch' : Bytes}
    (read : r.readFragment inside scratch = (.more inside' scratch', r')) :
    r.recordsFrom inside scratch = r'.recordsFrom inside' scratch' := by
  rw [Reader.recordsFrom, Reader.readRecordLoop_more read, Reader.recordsFrom]

theorem recordsFrom_record {data : Bytes}
    (read : r.readFragment inside scratch = (.record data, r')) :
    r.recordsFrom inside scratch = data :: r'.recordsFrom false [] := by
  rw [Reader.recordsFrom, Reader.readRecordLoop_record read, ← records_eq_recordsFrom]

theorem recordsFrom_ended (read : r.readFragment inside scratch = (.ended, r')) :
    r.recordsFrom inside scratch = [] := by
  rw [Reader.recordsFrom, Reader.readRecordLoop_ended read]

theorem View.reported {size bytes : Nat} {later : Bytes} (view : View r size later)
    (reason : Status) : View (r.reportDrop bytes reason) size later :=
  ⟨view.buffer, view.rest, view.eof, view.faults⟩

/-- A complete fragment in its place moves the assembly on as `collect` says. -/
theorem View.collect_fragment {f : Fragment} {later : Bytes}
    (view : View r (room pos) (f.bytes ++ later)) (fits : f.Fits pos) (nonzero : f.type ≠ .zero) :
    ∃ done r' inside' scratch', View r' (room (pos + f.bytes.length)) later ∧
      r.recordsFrom inside scratch = done ++ r'.recordsFrom inside' scratch' ∧
      ∀ gs, collect (f :: gs) inside scratch = done ++ collect gs inside' scratch' ∧
        pendingAfter (f :: gs) inside scratch = pendingAfter gs inside' scratch' := by
  obtain ⟨r', read, view', -⟩ := view.readFragment fits nonzero
  have next : r.readFragment inside scratch =
      r'.assemble f.type.toByte.toNat f.payload inside scratch := by
    rw [Reader.readFragment, read]
  cases type : f.type with
  | zero => exact absurd type nonzero
  | full =>
      rw [type] at next
      refine ⟨[f.payload], _, false, [], ?_, recordsFrom_record next, by simp [collect, pendingAfter, type]⟩
      cases inside with
      | false => exact view'
      | true => exact view'.reported _
  | first =>
      rw [type] at next
      refine ⟨[], _, true, f.payload, ?_, recordsFrom_more next, by simp [collect, pendingAfter, type]⟩
      cases inside with
      | false => exact view'
      | true => exact view'.reported _
  | middle =>
      rw [type] at next
      cases inside with
      | false =>
          exact ⟨[], _, false, scratch, view'.reported _, recordsFrom_more next,
            by simp [collect, pendingAfter, type]⟩
      | true =>
          exact ⟨[], _, true, scratch ++ f.payload, view', recordsFrom_more next,
            by simp [collect, pendingAfter, type]⟩
  | last =>
      rw [type] at next
      cases inside with
      | false =>
          exact ⟨[], _, false, scratch, view'.reported _, recordsFrom_more next,
            by simp [collect, pendingAfter, type]⟩
      | true =>
          exact ⟨[scratch ++ f.payload], _, false, [], view', recordsFrom_record next,
            by simp [collect, pendingAfter, type]⟩

/-- Reading a chain that other bytes follow. -/
theorem View.collect_chain {later : Bytes} (view : View r (room pos) (encode fs ++ later))
    (chain : Chain pos fs) :
    ∃ r', View r' (room (pos + (encode fs).length)) later ∧
      r.recordsFrom inside scratch = collect fs inside scratch ++
        r'.recordsFrom (pendingAfter fs inside scratch).1 (pendingAfter fs inside scratch).2 := by
  induction fs generalizing r pos inside scratch with
  | nil => exact ⟨r, view, rfl⟩
  | cons f rest ih =>
      rw [encode_cons, List.append_assoc] at view
      obtain ⟨done, r₁, inside₁, scratch₁, view₁, read, same⟩ :=
        @View.collect_fragment r pos inside scratch f _ view chain.1.1 chain.1.2
      obtain ⟨r', view', read'⟩ := @ih r₁ _ inside₁ scratch₁ view₁ chain.2
      refine ⟨r', ?_, ?_⟩
      · rwa [encode_cons, List.length_append, ← Nat.add_assoc]
      · rw [read, read', (same rest).1, (same rest).2, List.append_assoc]

/-- Reading a chain that is cut anywhere assembles its complete fragments. -/
theorem View.recordsFrom (view : View r (room pos) ((encode fs).take n)) (chain : Chain pos fs) :
    r.recordsFrom inside scratch = collect (whole n fs) inside scratch := by
  induction fs generalizing r pos n inside scratch with
  | nil =>
      rw [encode_nil, List.take_nil] at view
      obtain ⟨r', read, -⟩ := view.readNothing
      rw [recordsFrom_ended (by rw [Reader.readFragment, read]; rfl)]
      rfl
  | cons f later ih =>
      obtain ⟨⟨fits, nonzero⟩, chain'⟩ := chain
      rw [encode_cons, List.take_append] at view
      rw [whole]
      by_cases complete : f.bytes.length ≤ n
      · rw [List.take_of_length_le complete] at view
        rw [if_pos complete]
        obtain ⟨done, r', inside', scratch', view', read, same⟩ :=
          @View.collect_fragment r pos inside scratch f _ view fits nonzero
        rw [read, ih view' chain', (same _).1]
      · rw [show n - f.bytes.length = 0 by omega, List.take_zero, List.append_nil] at view
        obtain ⟨r', read, -⟩ := view.readTorn fits (by omega)
        rw [if_neg complete, recordsFrom_ended (by rw [Reader.readFragment, read]; rfl)]
        rfl

end Reading

/-! ## Resuming -/

/-- The records a reader returns from a file with these bytes. -/
def recordsOf (bytes : Bytes) : List Bytes := (Reader.records { file := { rest := bytes } }).1

theorem recordsOf_chain {fs : List Fragment} (chain : Chain 0 fs) (n : Nat) :
    recordsOf ((encode fs).take n) = collect (whole n fs) false [] := by
  rw [recordsOf, records_eq_recordsFrom]
  exact (View.start _).recordsFrom chain

theorem recordsOf_nil : recordsOf [] = [] := @recordsOf_chain [] trivial 0

section Collect

variable {pos : Nat} {left scratch : Bytes} {inside : Bool}

/-- A record in the chain is assembled whatever was pending before it. -/
theorem collect_fragments (rest : List Fragment) {isBegin : Bool}
    (pending : isBegin = false → inside = true) :
    collect (fragments pos left isBegin ++ rest) inside scratch =
      (if isBegin then left else scratch ++ left) :: collect rest false [] := by
  fun_induction fragments pos left isBegin generalizing inside scratch with
  | case1 pos left isBegin more ih =>
      rw [List.cons_append, collect, fragmentAt_type, if_pos more]
      have joined := fragmentAt_payload_append pos left isBegin
      cases isBegin with
      | true =>
          simp only [if_true]
          rw [ih (fun _ => rfl), if_neg (by simp), joined]
      | false =>
          simp only [pending rfl, if_true, Bool.false_eq_true, if_false]
          rw [ih (fun _ => rfl), if_neg (by simp), List.append_assoc, joined]
  | case2 pos left isBegin last =>
      rw [List.singleton_append, collect, fragmentAt_type, if_neg last]
      have joined := fragmentAt_payload_append pos left isBegin
      rw [List.drop_of_length_le (by omega), List.append_nil] at joined
      cases isBegin with
      | true => simp [joined]
      | false => simp [pending rfl, joined]

theorem collect_fragmentsAll (pos : Nat) (payloads : List Bytes) (inside : Bool) (scratch : Bytes) :
    collect (fragmentsAll pos payloads) inside scratch = payloads := by
  induction payloads generalizing pos inside scratch with
  | nil => rfl
  | cons payload later ih =>
      rw [fragmentsAll, collect_fragments _ (by simp), ih]
      rfl

/-- Records that continue a chain come after those before the seam. -/
theorem collect_append_fragmentsAll (fs : List Fragment) (pos : Nat) (payloads : List Bytes)
    (inside : Bool) (scratch : Bytes) :
    collect (fs ++ fragmentsAll pos payloads) inside scratch =
      collect fs inside scratch ++ payloads := by
  induction fs generalizing inside scratch with
  | nil => exact collect_fragmentsAll pos payloads inside scratch
  | cons f later ih =>
      simp only [List.cons_append, collect, ih]
      cases f.type with
      | zero | full | first => rfl
      | middle | last => cases inside <;> rfl

theorem collect_mono {fs gs : List Fragment} (h : fs <+: gs) (inside : Bool) (scratch : Bytes) :
    collect fs inside scratch <+: collect gs inside scratch := by
  obtain ⟨rest, rfl⟩ := h
  induction fs generalizing inside scratch with
  | nil => exact List.nil_prefix
  | cons f later ih =>
      rw [List.cons_append, collect, collect]
      cases f.type with
      | zero => exact ih false []
      | full => exact (List.prefix_cons_inj _).mpr (ih false [])
      | first => exact ih true _
      | middle =>
          cases inside with
          | false => exact ih false scratch
          | true => exact ih true _
      | last =>
          cases inside with
          | false => exact ih false scratch
          | true => exact (List.prefix_cons_inj _).mpr (ih false [])

end Collect

section Seam

variable {pos k n : Nat} {left : Bytes} {isBegin : Bool} {fs : List Fragment}

/-- Zero bytes that end a block do not move the fragment after them. -/
theorem block_shift (inside : k ≤ padding pos) :
    padding pos = k + padding (pos + k) ∧ blockRoom (pos + k) = blockRoom pos := by
  have block : kBlockSize = 32768 := rfl
  have head : kHeaderSize = 7 := rfl
  have before := block_cases pos
  have after := block_cases (pos + k)
  have size := room_eq pos
  have size' := room_eq (pos + k)
  omega

theorem fragmentAt_shift (inside : k ≤ padding pos) :
    fragmentAt pos left isBegin =
      { fragmentAt (pos + k) left isBegin with
        pad := k + (fragmentAt (pos + k) left isBegin).pad } := by
  obtain ⟨pad, same⟩ := block_shift inside
  simp only [fragmentAt, same, pad]

theorem fragmentAt_bytes_shift (inside : k ≤ padding pos) :
    (fragmentAt pos left isBegin).bytes =
      List.replicate k 0 ++ (fragmentAt (pos + k) left isBegin).bytes := by
  rw [fragmentAt_shift inside]
  simp only [Fragment.bytes, ← List.replicate_append_replicate, List.append_assoc]

theorem encoded_shift (inside : k ≤ padding pos) (payload : Bytes) :
    encoded pos payload = List.replicate k 0 ++ encoded (pos + k) payload := by
  have bytes := @fragmentAt_bytes_shift pos k payload true inside
  have same : (fragmentAt pos payload true).payload = (fragmentAt (pos + k) payload true).payload := by
    rw [fragmentAt_shift inside]
  have next : pos + (fragmentAt pos payload true).bytes.length =
      pos + k + (fragmentAt (pos + k) payload true).bytes.length := by
    rw [bytes, List.length_append, List.length_replicate]
    omega
  rw [encoded, encoded]
  by_cases more : (fragmentAt pos payload true).payload.length < payload.length
  · have more' := more
    rw [same] at more'
    rw [fragments_more more, @fragments_more (pos + k) _ _ more', next, same, encode_cons,
      encode_cons, bytes, List.append_assoc]
  · have last' := more
    rw [same] at last'
    rw [fragments_last more, fragments_last last', encode_cons, encode_cons, encode_nil, bytes,
      List.append_assoc]

theorem encodedAll_shift (inside : k ≤ padding pos) (payload : Bytes) (later : List Bytes) :
    encodedAll pos (payload :: later) =
      List.replicate k 0 ++ encodedAll (pos + k) (payload :: later) := by
  have same := encoded_shift inside payload
  have next : pos + (encoded pos payload).length =
      pos + k + (encoded (pos + k) payload).length := by
    rw [same, List.length_append, List.length_replicate]
    omega
  rw [encodedAll, encodedAll, next, same, List.append_assoc]

/-- The walk over the headers sees a fragment that is cut. -/
theorem endsInRecord_torn {f : Fragment} (fits : f.Fits pos) (pad : f.pad < n)
    (torn : n < f.bytes.length) : endsInRecord pos (f.bytes.take n) = true := by
  have head : kHeaderSize = 7 := rfl
  have rest : (f.bytes.take n).drop (padding pos) =
      (Writer.header f.type f.payload ++ f.payload).take (n - f.pad) := by
    rw [← fits.pad, List.drop_take, Fragment.bytes, List.append_assoc,
      List.drop_left' (by simp)]
  rw [Fragment.bytes_length] at torn
  have length : ((Writer.header f.type f.payload ++ f.payload).take (n - f.pad)).length =
      n - f.pad := by
    simp only [List.length_take, List.length_append, Fragment.header_length]
    omega
  rw [endsInRecord]
  simp only [rest, length]
  rw [if_neg (by omega), if_pos]
  by_cases short : n - f.pad < kHeaderSize
  · omega
  · rw [List.take_append, List.take_of_length_le (by simp; omega),
      View.headerLength_header fits.small]
    omega

theorem endsInRecord_next {f : Fragment} (fits : f.Fits pos) (later : Bytes) :
    endsInRecord pos (f.bytes ++ later) = endsInRecord (pos + f.bytes.length) later := by
  have head : kHeaderSize = 7 := rfl
  have rest : (f.bytes ++ later).drop (padding pos) =
      Writer.header f.type f.payload ++ (f.payload ++ later) := by
    rw [← fits.pad, Fragment.bytes, List.append_assoc, List.append_assoc,
      List.drop_left' (by simp)]
  have length : (Writer.header f.type f.payload ++ (f.payload ++ later)).length =
      kHeaderSize + f.payload.length + later.length := by
    simp [Nat.add_assoc]
  have size : Reader.headerLength (Writer.header f.type f.payload ++ (f.payload ++ later)) =
      f.payload.length := View.headerLength_header fits.small _
  rw [endsInRecord]
  simp only [rest, length, size]
  rw [if_neg (by omega), if_neg (by omega), ← List.append_assoc, List.drop_left' (by simp),
    Fragment.bytes_length, fits.pad]
  congr 1
  omega

theorem endsInRecord_chain (chain : Chain pos fs) : endsInRecord pos (encode fs) = false := by
  induction fs generalizing pos with
  | nil => simp [encode_nil, endsInRecord]
  | cons f later ih => rw [encode_cons, endsInRecord_next chain.1.1, ih chain.2]

/-- A cut that is not inside a fragment leaves complete fragments and a part of
    the zero bytes that would come next. -/
theorem whole_of_clean (chain : Chain pos fs)
    (clean : endsInRecord pos ((encode fs).take n) = false) :
    ∃ k, k ≤ padding (pos + (encode (whole n fs)).length) ∧
      (encode fs).take n = encode (whole n fs) ++ List.replicate k 0 := by
  induction fs generalizing pos n with
  | nil => exact ⟨0, Nat.zero_le _, by simp [encode, whole]⟩
  | cons f later ih =>
      obtain ⟨⟨fits, -⟩, chain'⟩ := chain
      rw [encode_cons, List.take_append] at clean ⊢
      rw [whole]
      by_cases complete : f.bytes.length ≤ n
      · rw [List.take_of_length_le complete] at clean ⊢
        rw [endsInRecord_next fits] at clean
        obtain ⟨k, inside, same⟩ := ih chain' clean
        rw [if_pos complete, encode_cons, List.length_append, ← Nat.add_assoc]
        exact ⟨k, inside, by rw [same, List.append_assoc]⟩
      · rw [show n - f.bytes.length = 0 by omega, List.take_zero, List.append_nil] at clean ⊢
        rw [if_neg complete]
        by_cases pad : f.pad < n
        · rw [endsInRecord_torn fits pad (by omega)] at clean
          exact absurd clean (by simp)
        · refine ⟨n, ?_, ?_⟩
          · rw [encode_nil, List.length_nil, Nat.add_zero, ← fits.pad]
            omega
          · rw [Fragment.bytes, List.append_assoc, List.take_append, List.length_replicate,
              show n - f.pad = 0 by omega, List.take_zero, List.append_nil, List.take_replicate,
              Nat.min_eq_left (by omega)]
            rfl

end Seam

/-- A prefix of a chain of fragments. -/
def IsLog (bytes : Bytes) : Prop := ∃ fs, Chain 0 fs ∧ bytes <+: encode fs

theorem endsInRecord_nil : endsInRecord 0 [] = false := by simp [endsInRecord]

theorem isLog_nil : IsLog [] := ⟨[], trivial, List.nil_prefix⟩

theorem IsLog.cut {bytes short : Bytes} (h : IsLog bytes) (inside : short <+: bytes) :
    IsLog short := by
  obtain ⟨fs, chain, whole⟩ := h
  exact ⟨fs, chain, inside.trans whole⟩

/-- A shorter log has fewer records. -/
theorem IsLog.recordsOf_mono {bytes short : Bytes} (h : IsLog bytes) (inside : short <+: bytes) :
    recordsOf short <+: recordsOf bytes := by
  obtain ⟨fs, chain, log⟩ := h
  rw [List.prefix_iff_eq_take.mp log, List.prefix_iff_eq_take.mp (inside.trans log),
    recordsOf_chain chain, recordsOf_chain chain]
  exact collect_mono (whole_mono inside.length_le fs) false []

/-- Records added by a writer that resumes a log which does not end inside a
    fragment are read back after those that were complete before. -/
theorem IsLog.resume {bytes : Bytes} (h : IsLog bytes) (clean : endsInRecord 0 bytes = false)
    (payloads : List Bytes) :
    IsLog (bytes ++ encodedAll bytes.length payloads) ∧
      recordsOf (bytes ++ encodedAll bytes.length payloads) = recordsOf bytes ++ payloads ∧
      endsInRecord 0 (bytes ++ encodedAll bytes.length payloads) = false := by
  obtain ⟨fs, chain, inside⟩ := h
  have same : bytes = (encode fs).take bytes.length := List.prefix_iff_eq_take.mp inside
  rw [same] at clean
  obtain ⟨k, padded, split⟩ := whole_of_clean chain clean
  rw [Nat.zero_add] at padded
  rw [← same] at split
  have chain' := whole_chain chain bytes.length
  have before : recordsOf bytes = collect (whole bytes.length fs) false [] := by
    rw [same, recordsOf_chain chain, ← same]
  cases payloads with
  | nil =>
      rw [same.symm] at clean
      simpa [encodedAll] using ⟨⟨fs, chain, inside⟩, clean⟩
  | cons payload later =>
      have size : bytes.length = (encode (whole bytes.length fs)).length + k := by
        conv => lhs; rw [split]
        simp
      have joined : bytes ++ encodedAll bytes.length (payload :: later) = encode
          (whole bytes.length fs ++
            fragmentsAll (encode (whole bytes.length fs)).length (payload :: later)) := by
        rw [encode_append, encode_fragmentsAll, encodedAll_shift padded, ← size,
          ← List.append_assoc, ← split]
      have extended : Chain 0 (whole bytes.length fs ++
          fragmentsAll (encode (whole bytes.length fs)).length (payload :: later)) := by
        rw [chain_append, Nat.zero_add]
        exact ⟨chain', fragmentsAll_chain _ _⟩
      rw [joined]
      refine ⟨⟨_, extended, List.prefix_rfl⟩, ?_, endsInRecord_chain extended⟩
      have read := recordsOf_chain extended (encode (whole bytes.length fs ++
        fragmentsAll (encode (whole bytes.length fs)).length (payload :: later))).length
      rw [List.take_length, whole_all, collect_append_fragmentsAll] at read
      rw [read, before]

end MiniLsm.Wal
