import MiniLsm.Raft.Storage
import MiniLsm.Raft.Persistence
import MiniLsm.Wal.Chain

/-! # The journal of a node

The records of the storage file as a list of items, and what one `Save` adds to
it. Replaying the file is folding the items.
-/

namespace MiniLsm

inductive Item where
  | hardState (term : Nat) (vote : NodeId)
  | entry (e : LogEntry)
  | truncate (start : Nat)
  deriving Repr, DecidableEq

/-- The fields of an entry have room in its record. -/
structure LogEntry.Fits (e : LogEntry) : Prop where
  term : e.term < UInt64.size
  index : e.index < UInt64.size
  data : e.data.length < UInt32.size

instance (e : LogEntry) : Decidable e.Fits :=
  decidable_of_iff (e.term < UInt64.size ∧ e.index < UInt64.size ∧ e.data.length < UInt32.size)
    ⟨fun h => ⟨h.1, h.2.1, h.2.2⟩, fun h => ⟨h.term, h.index, h.data⟩⟩

namespace Item

def record : Item → Bytes
  | .hardState term vote => hardStateRecord term vote
  | .entry e => entryRecord e
  | .truncate start => truncateRecord start

def apply (state : Recovered) : Item → Recovered
  | .hardState term vote => { state with hs := { term, vote } }
  | .entry e => { state with entries := state.entries ++ [e] }
  | .truncate start => { state with entries := state.entries.rdropWhile fun e => e.index ≥ start }

def Fits : Item → Prop
  | .hardState term vote => term < UInt64.size ∧ vote < UInt64.size
  | .entry e => e.Fits
  | .truncate start => start < UInt64.size

end Item

section Decoding

variable {rest : Bytes} {ok : Bool}

theorem u32_encodeSize {n : Nat} (fits : n < UInt32.size) :
    Decoder.u32 { rest := encodeSize n ++ rest, ok } = (n, { rest, ok }) := by
  have long : ¬ (encodeSize n ++ rest).length < 4 := by simp
  rw [Decoder.u32, if_neg long, decodeFixed32_encodeSize fits,
    List.drop_left' (encodeSize_length n)]

/-- The field of a length that is too large for it. -/
theorem encodeSize_mod (n : Nat) : encodeSize (n % UInt32.size) = encodeSize n := by
  rw [encodeSize, encodeSize]
  congr 1
  apply UInt32.toNat_inj.mp
  simp

theorem u64_putU64 {v : Nat} (fits : v < UInt64.size) :
    Decoder.u64 { rest := putU64 v ++ rest, ok } = (v, { rest, ok }) := by
  have low : encodeFixed32 (UInt32.ofNat v) = encodeSize (v % UInt32.size) :=
    (encodeSize_mod v).symm
  have high : encodeFixed32 (UInt32.ofNat (v / UInt32.size)) = encodeSize (v / UInt32.size) := rfl
  have lowFits : v % UInt32.size < UInt32.size := Nat.mod_lt _ (by decide)
  have highFits : v / UInt32.size < UInt32.size := Nat.div_lt_of_lt_mul fits
  rw [Decoder.u64, putU64, List.append_assoc, low, high]
  simp only [u32_encodeSize lowFits, u32_encodeSize highFits]
  rw [Nat.mod_add_div']

/-- The entry as far as its length field tells. -/
def LogEntry.cut (e : LogEntry) : LogEntry :=
  { e with data := e.data.take (e.data.length % UInt32.size) }

theorem LogEntry.cut_eq_iff {e : LogEntry} : e.cut = e ↔ e.data.length < UInt32.size := by
  constructor
  · intro same
    have length := congrArg (fun e => e.data.length) same
    simp only [LogEntry.cut, List.length_take] at length
    have := Nat.mod_lt e.data.length (show 0 < UInt32.size by decide)
    omega
  · intro fits
    rw [LogEntry.cut, Nat.mod_eq_of_lt fits, List.take_length]

/-- Replay takes an entry of any length for what its length field tells. -/
theorem replay_entryRecord (state : Recovered) {e : LogEntry} (term : e.term < UInt64.size)
    (index : e.index < UInt64.size) :
    state.replay (entryRecord e) = { state with entries := state.entries ++ [e.cut] } := by
  have whole : entryRecord e = 2 :: (putU64 e.term ++ (putU64 e.index ++
      (encodeSize (e.data.length % UInt32.size) ++ e.data))) := by
    simp [entryRecord, encodeSize_mod]
  have small : e.data.length % UInt32.size < UInt32.size := Nat.mod_lt _ (by decide)
  have held : ¬ e.data.length < e.data.length % UInt32.size := Nat.not_lt.mpr (Nat.mod_le _ _)
  rw [whole, Recovered.replay]
  simp only [u64_putU64 term, u64_putU64 index, u32_encodeSize small, Decoder.bytes, if_neg held,
    if_true]
  rfl

/-- Replay decodes what was encoded. -/
theorem replay_record (state : Recovered) {item : Item} (fits : item.Fits) :
    state.replay item.record = item.apply state := by
  cases item with
  | hardState term vote =>
      have whole : hardStateRecord term vote = 1 :: (putU64 term ++ (putU64 vote ++ [])) := by
        simp [hardStateRecord]
      rw [Item.record, whole, Recovered.replay]
      simp only [u64_putU64 fits.1, u64_putU64 fits.2, if_true]
      rfl
  | entry e =>
      rw [Item.record, replay_entryRecord state fits.term fits.index,
        LogEntry.cut_eq_iff.mpr fits.data]
      rfl
  | truncate start =>
      have whole : truncateRecord start = 3 :: (putU64 start ++ []) := by simp [truncateRecord]
      rw [Item.record, whole, Recovered.replay]
      simp only [u64_putU64 fits, if_true]
      rfl

end Decoding

/-- What a journal amounts to. -/
def journalState (items : List Item) : Recovered := items.foldl Item.apply {}

theorem replay_journal {items : List Item} (fits : ∀ item ∈ items, item.Fits) :
    (items.map Item.record).foldl Recovered.replay {} = journalState items := by
  suffices ∀ state : Recovered, (items.map Item.record).foldl Recovered.replay state =
      items.foldl Item.apply state from this {}
  induction items with
  | nil => exact fun _ => rfl
  | cons item later ih =>
      rw [List.forall_mem_cons] at fits
      intro state
      rw [List.map_cons, List.foldl_cons, replay_record state fits.1, ih fits.2]
      rfl

theorem journalState_append (items added : List Item) :
    journalState (items ++ added) = added.foldl Item.apply (journalState items) :=
  List.foldl_append

theorem foldl_entries (entries : List LogEntry) (state : Recovered) :
    (entries.map Item.entry).foldl Item.apply state =
      { state with entries := state.entries ++ entries } := by
  induction entries generalizing state with
  | nil => simp
  | cons e later ih =>
      rw [List.map_cons, List.foldl_cons, ih]
      simp [Item.apply]

/-- On numbered entries a truncation keeps those below its index. -/
theorem Contiguous.truncate {entries : List LogEntry} (h : Contiguous 1 entries) (k : Nat) :
    (entries.rdropWhile fun e => e.index ≥ k + 1) = entries.take k := by
  induction entries using List.reverseRecOn with
  | nil => simp
  | append_singleton entries e ih =>
      obtain ⟨before, index, -⟩ := contiguous_append.mp h
      by_cases dropped : e.index ≥ k + 1
      · rw [List.rdropWhile_concat_pos _ _ _ (by simpa using dropped), ih before,
          List.take_append_of_le_length (by omega)]
      · rw [List.rdropWhile_concat_neg _ _ _ (by simpa using dropped),
          List.take_of_length_le (by simp; omega)]

theorem Contiguous.lastIndex {entries : List LogEntry} (h : Contiguous 1 entries) :
    (entries.getLast?.map LogEntry.index).getD 0 = entries.length := by
  induction entries using List.reverseRecOn with
  | nil => rfl
  | append_singleton entries e _ =>
      obtain ⟨-, index, -⟩ := contiguous_append.mp h
      simp [index, Nat.add_comm]

/-! ## What `Save` writes -/

/-- A writer after records were added to its log. -/
structure Added (w : Wal.Writer) (payloads : List Bytes) (w' : Wal.Writer) : Prop where
  aligned : w'.Aligned
  dest : w'.dest = w.dest.extended (Wal.encodedAll w.dest.contents.length payloads)

theorem Added.nil {w : Wal.Writer} (aligned : w.Aligned) : Added w [] w :=
  ⟨aligned, by simp [Wal.encodedAll]⟩

theorem Added.trans {w w' w'' : Wal.Writer} {first second : List Bytes} (h : Added w first w')
    (h' : Added w' second w'') : Added w (first ++ second) w'' := by
  refine ⟨h'.aligned, ?_⟩
  rw [h'.dest, h.dest, Wal.encodedAll_append]
  simp

theorem addRecord_added {w : Wal.Writer} (aligned : w.Aligned) (payload : Bytes) :
    ∃ w', w.addRecord payload = (.ok, w') ∧ Added w [payload] w' := by
  obtain ⟨w', added, aligned', dest⟩ := aligned.addRecordLoop payload true
  exact ⟨w', added, aligned', by simpa [Wal.encodedAll, Wal.encoded] using dest⟩

namespace RaftStorage

theorem saveEntries_added {w : Wal.Writer} (aligned : w.Aligned) (entries : List LogEntry) :
    ∃ w', saveEntries w entries = (.ok, w') ∧
      Added w ((entries.map Item.entry).map Item.record) w' := by
  induction entries generalizing w with
  | nil => exact ⟨w, rfl, Added.nil aligned⟩
  | cons e later ih =>
      obtain ⟨w', added, wrote⟩ := addRecord_added aligned (entryRecord e)
      obtain ⟨w'', saved, wrote'⟩ := ih wrote.aligned
      refine ⟨w'', ?_, wrote.trans wrote'⟩
      rw [saveEntries, added]
      exact saved

/-- The hard state, if it changed. -/
def hardStateItems (raft : Raft) : List Item :=
  if raft.hardStateDirty then [.hardState raft.currentTerm raft.votedFor] else []

/-- The truncation, if the watermark is below what is stored. -/
def truncationItems (raft : Raft) (persisted : Nat) : List Item :=
  if raft.stableIndex < persisted then [.truncate (raft.stableIndex + 1)] else []

/-- The items of one `Save`. -/
def savedItems (raft : Raft) (persisted : Nat) : List Item :=
  hardStateItems raft ++ truncationItems raft persisted ++
    (entriesFrom raft (min persisted raft.stableIndex + 1)).map Item.entry

theorem entriesFrom_eq {raft : Raft} (nonempty : raft.log ≠ []) (start : Nat) :
    entriesFrom raft start = raft.log.drop start := by
  have positive := List.length_pos_iff.mpr nonempty
  have count : raft.lastIndex + 1 - start = raft.log.length - start := by
    rw [Raft.lastIndex]
    omega
  apply List.ext_getElem
  · simp [entriesFrom, count]
  · intro i _ inside
    rw [List.length_drop] at inside
    simp [entriesFrom, Raft.entryAt, List.getD_eq_getElem?_getD,
      List.getElem?_eq_getElem (show start + i < raft.log.length by omega)]

theorem saveHardState_added {st : RaftStorage} (aligned : st.writer.Aligned) (raft : Raft) :
    ∃ w, st.saveHardState raft =
        (.ok, { st with writer := w }, { raft with hardStateDirty := false }) ∧
      Added st.writer ((hardStateItems raft).map Item.record) w := by
  rw [saveHardState, hardStateItems]
  cases dirty : raft.hardStateDirty with
  | false =>
      have clean : { raft with hardStateDirty := false } = raft := by
        cases raft
        cases dirty
        rfl
      exact ⟨st.writer, by rw [clean]; rfl, Added.nil aligned⟩
  | true =>
      obtain ⟨w, added, wrote⟩ :=
        addRecord_added aligned (hardStateRecord raft.currentTerm raft.votedFor)
      exact ⟨w, by simp [added], wrote⟩

theorem saveTruncation_added {st : RaftStorage} (aligned : st.writer.Aligned) (raft : Raft) :
    ∃ w, st.saveTruncation raft = (.ok,
        { st with writer := w, persistedIndex := min st.persistedIndex raft.stableIndex }) ∧
      Added st.writer ((truncationItems raft st.persistedIndex).map Item.record) w := by
  rw [saveTruncation, truncationItems]
  by_cases lowered : raft.stableIndex < st.persistedIndex
  · obtain ⟨w, added, wrote⟩ := addRecord_added aligned (truncateRecord (raft.stableIndex + 1))
    refine ⟨w, ?_, by rw [if_pos lowered]; exact wrote⟩
    rw [if_pos lowered, added, Nat.min_eq_right (by omega)]
    rfl
  · refine ⟨st.writer, ?_, by rw [if_neg lowered]; exact Added.nil aligned⟩
    rw [if_neg lowered, Nat.min_eq_left (by omega)]

/-- `Save` writes its items and asks for a `Sync`; only if that succeeds do the
    watermarks advance. -/
theorem save_eq {st : RaftStorage} (aligned : st.writer.Aligned) (raft : Raft) :
    ∃ w, Added st.writer ((savedItems raft st.persistedIndex).map Item.record) w ∧
      st.save raft =
        if w.dest.sync.1.isOk then
          (.ok, { st with writer := { w with dest := w.dest.sync.2 },
                          persistedIndex := raft.lastIndex },
            { raft with hardStateDirty := false, stableIndex := raft.lastIndex })
        else
          (w.dest.sync.1,
            { st with writer := { w with dest := w.dest.sync.2 },
                      persistedIndex := min st.persistedIndex raft.stableIndex },
            { raft with hardStateDirty := false }) := by
  obtain ⟨w₁, hard, wrote₁⟩ := saveHardState_added aligned raft
  obtain ⟨w₂, truncated, wrote₂⟩ := @saveTruncation_added { st with writer := w₁ } wrote₁.aligned
    { raft with hardStateDirty := false }
  obtain ⟨w₃, entries, wrote₃⟩ := saveEntries_added wrote₂.aligned
    (entriesFrom raft (min st.persistedIndex raft.stableIndex + 1))
  refine ⟨w₃, ?_, ?_⟩
  · rw [savedItems, List.map_append, List.map_append]
    exact (wrote₁.trans wrote₂).trans wrote₃
  · have same : entriesFrom { raft with hardStateDirty := false } =
        entriesFrom raft := rfl
    simp only [save, hard, truncated, same, entries, Status.isOk_ok, if_true]
    rfl

/-- What the items of one `Save` do to the recovered state. -/
theorem foldl_savedItems {raft : Raft} (numbered : raft.Numbered) {state : Recovered}
    (contiguous : Contiguous 1 state.entries) (persisted : Nat) :
    (savedItems raft persisted).foldl Item.apply state =
      { hs := if raft.hardStateDirty then { term := raft.currentTerm, vote := raft.votedFor }
          else state.hs
        entries :=
          (if raft.stableIndex < persisted then state.entries.take raft.stableIndex
            else state.entries) ++
          (raft.log.drop 1).drop (min persisted raft.stableIndex) } := by
  have hard : (hardStateItems raft).foldl Item.apply state =
      { state with
        hs := if raft.hardStateDirty then { term := raft.currentTerm, vote := raft.votedFor }
          else state.hs } := by
    rw [hardStateItems]
    cases raft.hardStateDirty <;> rfl
  have truncated (hs : HardState) : (truncationItems raft persisted).foldl Item.apply
      { state with hs } =
      { hs
        entries := if raft.stableIndex < persisted then state.entries.take raft.stableIndex
          else state.entries } := by
    rw [truncationItems]
    split
    · simp [Item.apply, ← contiguous.truncate]
    · rfl
  rw [savedItems, List.foldl_append, List.foldl_append, hard, truncated, foldl_entries,
    entriesFrom_eq numbered.nonempty, List.drop_drop, Nat.add_comm 1]

end RaftStorage

end MiniLsm
