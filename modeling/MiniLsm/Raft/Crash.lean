import MiniLsm.Raft.Durability
import MiniLsm.Raft.Voting

/-! # A crash in the middle of a Save

A `Save` writes several records, and a crash may leave any part of them. What
is recovered lies between the state of the last complete `Save` and the one
that was being saved.
-/

namespace MiniLsm

open Wal

/-- What one part of the items of a `Save` leaves of the state before it, and
    brings of the node that is saved. -/
inductive Between (state : Recovered) (raft : Raft) : Recovered → Prop where
  /-- Nothing is written yet. -/
  | before : Between state raft state
  /-- The hard state is written, and no entry is touched. -/
  | hard : Between state raft { hs := raft.hardState, entries := state.entries }
  /-- The entries are those of the node from the watermark on. -/
  | entries (k : Nat) (stable : raft.stableIndex ≤ k) (held : k ≤ raft.lastIndex) :
      Between state raft { hs := raft.hardState, entries := (raft.log.drop 1).take k }

section Items

variable {raft : Raft} {state : Recovered} {persisted : Nat}

/-- The entry items of a `Save`, cut anywhere, continue what is kept below the
    watermark. -/
theorem foldl_entryItems_take (numbered : raft.Numbered)
    (kept : state.entries = (raft.log.drop 1).take raft.stableIndex)
    (hard : state.hs = raft.hardState) (before : Recovered)
    (below : min persisted raft.stableIndex = raft.stableIndex) (j : Nat) :
    Between before raft ((((RaftStorage.entriesFrom raft
      (min persisted raft.stableIndex + 1)).map Item.entry).take j).foldl Item.apply state) := by
  have stable := numbered.stable
  rw [RaftStorage.entriesFrom_eq numbered.nonempty, below, ← List.map_take, foldl_entries, kept, hard]
  have joined : (raft.log.drop 1).take raft.stableIndex ++
      (raft.log.drop (raft.stableIndex + 1)).take j =
        (raft.log.drop 1).take (min (raft.stableIndex + j) raft.lastIndex) := by
    have length : raft.lastIndex = (raft.log.drop 1).length := by simp [Raft.lastIndex]
    rw [length, ← List.take_eq_take_min, List.take_add, List.drop_drop, Nat.add_comm 1]
  rw [joined]
  refine .entries _ ?_ (Nat.min_le_right _ _)
  rw [Raft.lastIndex]
  omega

/-- What a part of the items of one `Save` does to the recovered state. -/
theorem foldl_savedItems_take (numbered : raft.Numbered) (contiguous : Contiguous 1 state.entries)
    (ready : state.entries.length = persisted ∨ raft.stableIndex < persisted)
    (below : raft.stableIndex ≤ persisted)
    (agrees : state.entries.take raft.stableIndex = (raft.log.drop 1).take raft.stableIndex)
    (clean : raft.hardStateDirty = false → state.hs = raft.hardState) (j : Nat) :
    Between state raft (((RaftStorage.savedItems raft persisted).take j).foldl Item.apply state) := by
  cases j with
  | zero => exact .before
  | succ j =>
      have first : (RaftStorage.hardStateItems raft).take (j + 1) = RaftStorage.hardStateItems raft := by
        apply List.take_of_length_le
        rw [RaftStorage.hardStateItems]
        split <;> simp
      have written : (RaftStorage.hardStateItems raft).foldl Item.apply state =
          { hs := raft.hardState, entries := state.entries } := by
        rw [RaftStorage.hardStateItems]
        cases dirty : raft.hardStateDirty with
        | true => rfl
        | false => rw [← clean dirty]; rfl
      rw [RaftStorage.savedItems, List.append_assoc, List.take_append, first, List.foldl_append,
        written]
      generalize j + 1 - (RaftStorage.hardStateItems raft).length = i
      rw [RaftStorage.truncationItems]
      split
      · -- the truncation, then the entries that replace what it drops
        cases i with
        | zero => exact .hard
        | succ i =>
            rw [List.singleton_append, List.take_succ_cons, List.foldl_cons, Item.apply]
            refine foldl_entryItems_take numbered ?_ rfl state (Nat.min_eq_right below) i
            rw [contiguous.truncate, agrees]
      · rename_i level
        have full := ready.resolve_right level
        rw [List.nil_append]
        refine foldl_entryItems_take numbered ?_ rfl state (Nat.min_eq_right below) i
        rw [← agrees, List.take_of_length_le (by omega)]

/-- Entries between two contiguous logs are contiguous. -/
theorem Between.contiguous {result : Recovered} (h : Between state raft result)
    (numbered : raft.Numbered) (contiguous : Contiguous 1 state.entries) :
    Contiguous 1 result.entries := by
  cases h with
  | before => exact contiguous
  | hard => exact contiguous
  | entries k => exact (numbered.log.drop 1).prefix_of (List.take_prefix _ _)

theorem Between.length_lt {result : Recovered} (h : Between state raft result) {size : Nat}
    (before : state.entries.length < size) (after : raft.lastIndex < size) :
    result.entries.length < size := by
  cases h with
  | before => exact before
  | hard => exact before
  | entries k stable held =>
      rw [List.length_take]
      omega

end Items

/-! ## Histories with crashes -/

/-- A call of the node, or a crash that keeps the first bytes of the file and a
    restart. -/
inductive Moment where
  | call (c : Call)
  | crash (kept : Nat)
  deriving Repr, DecidableEq

namespace Process

def live (p : Process) : Moment → Process
  | .call c => p.next c
  | .crash kept => (p.cut kept).reopen

/-- The process after a history. -/
def history (config : Config) (moments : List Moment) : Process :=
  moments.foldl live (fresh config)

/-- The bytes of the storage file. -/
def contents (p : Process) : Bytes := p.storage.writer.dest.contents

end Process

/-- An AppendEntries carries contiguous entries. -/
def Moment.Carries : Moment → Prop
  | .call c => c.Carries
  | .crash _ => True

/-- The journal never lost what the watermark covers, and had no holes whenever a
    record was complete. -/
structure Settled (p : Process) (items : List Item) : Prop where
  stored : Stored p items
  contiguous : ∀ m, Contiguous 1 (journalState (items.take m)).entries
  size : ∀ m, (journalState (items.take m)).entries.length < UInt64.size

variable {p : Process} {items : List Item}

namespace Settled

theorem fresh (config : Config) : Settled (Process.fresh config) [] where
  stored := Stored.fresh config
  contiguous := fun m => by rw [List.take_nil]; trivial
  size := fun m => by rw [List.take_nil]; decide

/-- What a part of the next `Save` replays to, if this is retriable. -/
theorem between (h : Settled p items) (retriable : p.Retriable) (j : Nat) :
    Between (journalState items) p.raft (journalState (items ++
      (RaftStorage.savedItems p.raft p.storage.persistedIndex).take j)) := by
  rw [journalState_append]
  exact foldl_savedItems_take h.stored.node h.stored.contiguous
    (h.stored.retriable_iff.mp retriable) h.stored.stable h.stored.agrees h.stored.hard j

theorem save (h : Settled p items) (fits : p.raft.Fits) (retriable : p.Retriable)
    (fault : Option String) :
    Settled (p.save fault).2
      (items ++ RaftStorage.savedItems p.raft p.storage.persistedIndex) := by
  obtain ⟨stored, -⟩ := h.stored.save fits retriable fault
  have last : p.raft.lastIndex < UInt64.size := fits.lastIndex h.stored.node
  have parts (m : Nat) : ∃ k, (items ++
      RaftStorage.savedItems p.raft p.storage.persistedIndex).take m = items.take k ∨
      (items ++ RaftStorage.savedItems p.raft p.storage.persistedIndex).take m = items ++
        (RaftStorage.savedItems p.raft p.storage.persistedIndex).take k := by
    rcases Nat.le_total m items.length with inside | beyond
    · exact ⟨m, Or.inl (List.take_append_of_le_length inside)⟩
    · refine ⟨m - items.length, Or.inr ?_⟩
      rw [List.take_append, List.take_of_length_le beyond]
  refine ⟨stored, fun m => ?_, fun m => ?_⟩
  · obtain ⟨k, part | part⟩ := parts m
    · rw [part]
      exact h.contiguous k
    · rw [part]
      exact (h.between retriable k).contiguous h.stored.node h.stored.contiguous
  · obtain ⟨k, part | part⟩ := parts m
    · rw [part]
      exact h.size k
    · rw [part]
      exact (h.between retriable k).length_lt h.stored.size last

/-- A call that is not a `Save` leaves the journal. -/
theorem steps (h : Settled p items) {call : Call} (carries : call.Carries)
    (noSave : ∀ fault, call ≠ .save fault) : Settled (p.next call) items := by
  cases call with
  | tick => exact ⟨h.stored.evolves (Raft.tick_evolves h.stored.node), h.contiguous, h.size⟩
  | propose data =>
      exact ⟨h.stored.evolves (Raft.propose_evolves h.stored.node data), h.contiguous, h.size⟩
  | step msg =>
      exact ⟨h.stored.evolves (Raft.step_evolves h.stored.node carries), h.contiguous, h.size⟩
  | takeMessages | takeCommitted =>
      exact ⟨h.stored.evolves (h.stored.node.kept rfl rfl rfl fun clean => ⟨clean, rfl, rfl⟩),
        h.contiguous, h.size⟩
  | reopen => exact ⟨h.stored.reopen.1, h.contiguous, h.size⟩
  | save fault => exact absurd rfl (noSave fault)

/-- The items that a cut leaves. -/
theorem cut (h : Settled p items) (n : Nat) :
    Journaled (p.cut n).storage.writer.dest
      (items.take (recordsOf (p.contents.take n)).length) := by
  have inside : p.contents.take n <+: p.contents := List.take_prefix n _
  have read := h.stored.holds.log.recordsOf_mono inside
  rw [h.stored.holds.records] at read
  have left := List.prefix_iff_eq_take.mp read
  rw [← List.map_take] at left
  exact ⟨h.stored.holds.appends, h.stored.holds.syncs, h.stored.holds.log.cut inside, left,
    fun item member => h.stored.holds.fits item (List.mem_of_mem_take member)⟩

theorem crash (h : Settled p items) {kept : Nat}
    (whole : endsInRecord 0 (p.contents.take kept) = false) :
    ∃ fewer, Settled (p.cut kept).reopen fewer := by
  obtain ⟨stored, -⟩ := Stored.restart (h.cut kept) whole (h.contiguous _) (h.size _)
  refine ⟨_, stored, fun k => ?_, fun k => ?_⟩
  · rw [List.take_take]
    exact h.contiguous _
  · rw [List.take_take]
    exact h.size _

end Settled

section Runs

variable {config : Config} {moments : List Moment}

/-- After a retriable `Save` the journal replays to the node that was saved. -/
theorem Settled.saved_state (h : Settled p items) (retriable : p.Retriable) :
    journalState (items ++ RaftStorage.savedItems p.raft p.storage.persistedIndex) =
      { hs := p.raft.hardState, entries := p.raft.log.drop 1 } := by
  have entries := h.stored.saved_entries_iff.mpr retriable
  rw [h.stored.saved_state] at entries ⊢
  exact congrArg (Recovered.mk p.raft.hardState) entries

/-- What is recovered when a `Save` is cut. -/
theorem Settled.cut_save (h : Settled p items) (fits : p.raft.Fits) (retriable : p.Retriable)
    {n : Nat} (kept : p.contents.length ≤ n) :
    ∃ result, ((p.save none).2.cut n).recovered = .ok (result.hs, result.entries) ∧
      Between (journalState items) p.raft result := by
  have saved := h.save fits retriable none
  have longer : p.contents <+: (p.save none).2.contents.take n := by
    obtain ⟨w, -, -, contents, -, same⟩ := p.save_eq h.stored.holds.aligned none
    refine List.prefix_take_iff.mpr ⟨?_, kept⟩
    rw [same]
    show p.contents <+: w.dest.contents
    rw [contents]
    exact List.prefix_append _ _
  have read := (saved.stored.holds.log.cut (List.take_prefix n _)).recordsOf_mono longer
  have covered : items.length ≤ (recordsOf ((p.save none).2.contents.take n)).length := by
    have records : recordsOf p.contents = items.map Item.record := h.stored.holds.records
    have count := read.length_le
    rwa [records, List.length_map] at count
  have left := (saved.cut n).recovered
  rw [List.take_append, List.take_of_length_le covered] at left
  exact ⟨_, left, h.between retriable _⟩

end Runs

end MiniLsm
