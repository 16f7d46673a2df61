import Mathlib.Algebra.Ring.Nat
import MiniLsm.Wal.Reader

/-! # Bytes returned and bytes reported

What a reader returns and what it reports as dropped never add up to more than it
read: a potential of bytes not read yet, bytes reported and one block for a read
that may still fail pays for every record with its headers.
-/

namespace MiniLsm.Wal.Reader

variable {r : Reader}

/-- What the reporter was told, in total. -/
def dropped (r : Reader) : Nat := (r.reports.map Prod.fst).sum

/-- A read that fails is reported as a whole block, whatever is left of the file;
    it is the last one. -/
def credit (r : Reader) : Nat :=
  if r.eof then 0 else if r.file.faults.any Option.isSome then kBlockSize else 0

def budget (r : Reader) : Nat := r.unread + r.dropped + r.credit

theorem budget_reportDrop (r : Reader) (bytes : Nat) (reason : Status) :
    (r.reportDrop bytes reason).budget = r.budget + bytes := by
  have total : (r.reportDrop bytes reason).dropped = r.dropped + bytes := by
    simp [dropped, reportDrop]
  have unread : (r.reportDrop bytes reason).unread = r.unread := rfl
  have credit : (r.reportDrop bytes reason).credit = r.credit := rfl
  rw [budget, budget, total, unread, credit]
  omega

theorem credit_tail (faults : List (Option String)) :
    (if faults.tail.any Option.isSome then kBlockSize else 0) ≤
      if faults.any Option.isSome then kBlockSize else 0 := by
  cases faults with
  | nil => exact Nat.le_refl _
  | cons fault later =>
      by_cases fails : later.any Option.isSome
      · simp [fails]
      · simp [fails]

theorem fails_of_fill (failed : r.fill.1 = false) : r.file.faults.any Option.isSome = true := by
  rw [fill, SequentialFile.read] at failed
  cases faults : r.file.faults with
  | nil => simp [faults] at failed
  | cons fault later =>
      cases fault with
      | none => simp [faults] at failed
      | some msg => rfl

theorem fill_budget (more : r.eof = false) : r.fill.2.budget ≤ r.budget := by
  rcases r.fill_cases with ⟨msg, failed⟩ | read
  · have fails := fails_of_fill (congrArg Prod.fst failed)
    simp [failed, budget, unread, dropped, credit, more, fails]
    omega
  · have held := credit_tail r.file.faults
    have total : r.fill.2.dropped = r.dropped := by
      rw [read]
      rfl
    have unread : r.fill.2.unread = r.file.rest.length := by
      rw [read, unread, List.length_take, List.length_drop]
      omega
    have credit : r.fill.2.credit ≤ r.credit := by
      rw [read, Reader.credit, Reader.credit, more, if_neg Bool.false_ne_true]
      dsimp only
      split
      · exact Nat.zero_le _
      · exact held
    rw [budget, budget, total, unread, Reader.unread]
    omega

/-- A reader that goes on in its block. -/
theorem budget_buffer (r : Reader) (buffer : Bytes) :
    Reader.budget { r with buffer } + r.buffer.length = r.budget + buffer.length := by
  simp only [budget, unread, dropped, credit]
  omega

/-! ## Physical records -/

/-- What a physical record is paid for: nothing at the end of the input and where
    bytes were dropped, even if these are what its type byte says. -/
def cost (type : Nat) (fragment : Bytes) : Nat :=
  if type = kEof ∨ type = kBadRecord then 0 else kHeaderSize + fragment.length

theorem cost_le (type : Nat) (fragment : Bytes) :
    cost type fragment ≤ kHeaderSize + fragment.length := by
  rw [cost]
  split
  · exact Nat.zero_le _
  · exact Nat.le_refl _

theorem cost_eof (fragment : Bytes) : cost kEof fragment = 0 := if_pos (Or.inl rfl)

theorem cost_bad (fragment : Bytes) : cost kBadRecord fragment = 0 := if_pos (Or.inr rfl)

theorem parsePhysicalRecord_budget (long : kHeaderSize ≤ r.buffer.length) :
    r.parsePhysicalRecord.2.2.budget + cost r.parsePhysicalRecord.1 r.parsePhysicalRecord.2.1 ≤
      r.budget := by
  have emptied := r.budget_buffer []
  rw [List.length_nil] at emptied
  rw [parsePhysicalRecord]
  split
  · split
    · rw [cost_eof]
      dsimp only
      omega
    · rw [cost_bad, budget_reportDrop]
      omega
  next short =>
    split
    · have skipped := r.budget_buffer (r.buffer.drop kHeaderSize)
      rw [List.length_drop] at skipped
      rw [cost_bad]
      dsimp only
      omega
    · split
      · have consumed := r.budget_buffer (r.buffer.drop (kHeaderSize + headerLength r.buffer))
        have paid := cost_le (headerType r.buffer)
          ((r.buffer.drop kHeaderSize).take (headerLength r.buffer))
        rw [List.length_take] at paid
        rw [List.length_drop] at consumed
        dsimp only
        omega
      · rw [cost_bad, budget_reportDrop]
        omega

theorem readPhysicalRecord_budget (r : Reader) :
    r.readPhysicalRecord.2.2.budget + cost r.readPhysicalRecord.1 r.readPhysicalRecord.2.1 ≤
      r.budget := by
  fun_induction readPhysicalRecord r with
  | case1 r short ended =>
      have emptied := r.budget_buffer []
      rw [List.length_nil] at emptied
      rw [cost_eof]
      dsimp only
      omega
  | case2 r short more filled ih => exact Nat.le_trans ih (fill_budget (by simpa using more))
  | case3 r short more failed =>
      rw [cost_eof]
      exact fill_budget (by simpa using more)
  | case4 r long => exact parsePhysicalRecord_budget (by omega)

/-! ## Records -/

/-- What is owed for an assembly. -/
def Assembly.held : Assembly → Nat
  | .more _ scratch => scratch.length
  | .record data => kHeaderSize + data.length
  | .ended => 0

theorem cost_known {type : Nat} {fragment : Bytes} (known : type ≠ kEof ∧ type ≠ kBadRecord) :
    cost type fragment = kHeaderSize + fragment.length :=
  if_neg (not_or.mpr known)

theorem assemble_budget (r : Reader) (type : Nat) (fragment : Bytes) {inside : Bool}
    {scratch : Bytes} (bare : inside = false → scratch = []) :
    (r.assemble type fragment inside scratch).2.budget +
        (r.assemble type fragment inside scratch).1.held ≤
      r.budget + cost type fragment + scratch.length := by
  unfold assemble
  split
  · rw [cost_known (by decide)]
    cases inside with
    | true =>
        rw [if_pos rfl, budget_reportDrop, Assembly.held]
        omega
    | false => exact Nat.le_add_right _ _
  · rw [cost_known (by decide)]
    cases inside with
    | true =>
        rw [if_pos rfl, budget_reportDrop, Assembly.held]
        omega
    | false =>
        rw [if_neg (by decide), Assembly.held]
        dsimp only
        omega
  · rw [cost_known (by decide)]
    cases inside with
    | true =>
        rw [if_pos rfl, Assembly.held, List.length_append]
        dsimp only
        omega
    | false =>
        rw [if_neg (by decide), budget_reportDrop, Assembly.held]
        omega
  · rw [cost_known (by decide)]
    cases inside with
    | true =>
        rw [if_pos rfl, Assembly.held, List.length_append]
        dsimp only
        omega
    | false =>
        rw [if_neg (by decide), budget_reportDrop, Assembly.held]
        omega
  · exact Nat.le_add_right_of_le (Nat.le_add_right _ _)
  · cases inside with
    | true =>
        rw [if_pos rfl, budget_reportDrop, Assembly.held, List.length_nil]
        omega
    | false =>
        rw [if_neg (by decide), Assembly.held]
        dsimp only
        omega
  next full first middle last eof bad =>
    rw [cost_known ⟨eof, bad⟩, budget_reportDrop, Assembly.held, List.length_nil]
    split
    · omega
    · omega

theorem assemble_bare (r : Reader) (type : Nat) (fragment : Bytes) {inside inside' : Bool}
    {scratch scratch' : Bytes} (bare : inside = false → scratch = [])
    (more : (r.assemble type fragment inside scratch).1 = .more inside' scratch') :
    inside' = false → scratch' = [] := by
  intro outside
  unfold assemble at more
  split at more
  · cases more
  · cases more
    cases outside
  · cases inside with
    | true =>
        cases more
        cases outside
    | false =>
        cases more
        exact bare rfl
  · cases inside with
    | true => cases more
    | false =>
        cases more
        exact bare rfl
  · cases more
  · cases inside with
    | true =>
        cases more
        rfl
    | false =>
        cases more
        exact bare rfl
  · cases more
    rfl

theorem readFragment_budget (r : Reader) {inside : Bool} {scratch : Bytes}
    (bare : inside = false → scratch = []) :
    (r.readFragment inside scratch).2.budget + (r.readFragment inside scratch).1.held ≤
      r.budget + scratch.length := by
  have read := r.readPhysicalRecord_budget
  have assembled := r.readPhysicalRecord.2.2.assemble_budget r.readPhysicalRecord.1
    r.readPhysicalRecord.2.1 bare
  rw [readFragment]
  omega

theorem readRecordLoop_budget {inside : Bool} {scratch : Bytes}
    (bare : inside = false → scratch = []) :
    (r.readRecordLoop inside scratch).2.budget +
        (r.readRecordLoop inside scratch).1.elim 0 (fun data => kHeaderSize + data.length) ≤
      r.budget + scratch.length := by
  fun_induction readRecordLoop r inside scratch with
  | case1 r inside scratch inside' scratch' r' read ih =>
      have paid := readFragment_budget r bare
      have later := ih (assemble_bare _ _ _ bare (congrArg Prod.fst read))
      rw [read, Assembly.held] at paid
      exact Nat.le_trans later paid
  | case2 r inside scratch data r' read =>
      have paid := readFragment_budget r bare
      rwa [read] at paid
  | case3 r inside scratch r' read =>
      have paid := readFragment_budget r bare
      rwa [read] at paid

theorem records_budget (r : Reader) :
    r.records.2.budget + (r.records.1.map fun data => kHeaderSize + data.length).sum ≤
      r.budget := by
  fun_induction records r with
  | case1 r data r' read later last rest ih =>
      have paid := @readRecordLoop_budget r false [] fun _ => rfl
      rw [← readRecord, read] at paid
      rw [Option.elim_some, List.length_nil] at paid
      rw [rest] at ih
      rw [List.map_cons, List.sum_cons]
      dsimp only at ih paid ⊢
      omega
  | case2 r r' read =>
      have paid := @readRecordLoop_budget r false [] fun _ => rfl
      rwa [← readRecord, read] at paid

/-- Whatever is in a file and whatever reads fail: the records that are returned,
    with a header each, and the bytes that are reported as dropped are no more
    than the file has, and one block for a read that failed. -/
theorem records_accounted (bytes : Bytes) (faults : List (Option String)) :
    let read := Reader.records { file := { rest := bytes, faults } }
    (read.1.map fun data => kHeaderSize + data.length).sum +
        (read.2.reports.map Prod.fst).sum ≤
      bytes.length + if faults.any Option.isSome then kBlockSize else 0 := by
  have paid := records_budget { file := { rest := bytes, faults } }
  have start : Reader.budget { file := { rest := bytes, faults } } =
      bytes.length + if faults.any Option.isSome then kBlockSize else 0 := by
    simp [budget, unread, dropped, credit]
  rw [start, budget, dropped] at paid
  dsimp only at paid ⊢
  omega

end MiniLsm.Wal.Reader
