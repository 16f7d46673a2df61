import MiniLsm.Raft.Durability
import MiniLsm.Raft.ReadErrors
import MiniLsm.Wal.Damage

/-! # Holes in a recovered log

`ReplayFile` appends every entry it reads. When a damaged file has lost an entry
and kept later ones, the entries that are recovered do not start at 1 or leave
out a number, and `Restore` puts them at other places than their indexes say.
-/

namespace MiniLsm

open Wal

/-- What a record does to the numbers of the recovered entries. -/
inductive Mark where
  | entry (index : Nat)
  | truncate (start : Nat)
  deriving Repr, DecidableEq

/-- The number of an entry, or the start of a truncation, as `ReplayFile` decodes
    it. -/
def markOf (record : Bytes) : Option Mark :=
  match record with
  | [] => none
  | tag :: payload =>
      let d : Decoder := { rest := payload }
      if tag = 2 then
        let (_, d) := d.u64
        let (index, d) := d.u64
        let (len, d) := d.u32
        let (_, d) := d.bytes len
        if d.ok then some (.entry index) else none
      else if tag = 3 then
        let (start, d) := d.u64
        if d.ok then some (.truncate start) else none
      else none

/-- How many entries are in their places, and the lowest number that was read
    since the first one that is not. -/
structure Tally where
  count : Nat := 0
  gap : Option Nat := none
  deriving Repr, DecidableEq

def Tally.read (t : Tally) : Mark → Tally
  | .entry index =>
      match t.gap with
      | none => if index = t.count + 1 then { t with count := index } else { t with gap := some index }
      | some low => { t with gap := some (min low index) }
  | .truncate start =>
      match t.gap with
      | none => { t with count := min t.count (start - 1) }
      | some low => if start ≤ low then { count := min t.count (start - 1) } else t

/-- The tally of the records of a file. -/
def tally (records : List Bytes) : Tally := (records.filterMap markOf).foldl Tally.read {}

/-- What a tally says about entries. -/
structure Counted (t : Tally) (entries : List LogEntry) : Prop where
  split : ∃ front rest, entries = front ++ rest ∧ Contiguous 1 front ∧ front.length = t.count ∧
    match t.gap with
    | none => rest = []
    | some low => (∃ e ∈ rest, e.index = low) ∧ (∀ e ∈ rest, low ≤ e.index) ∧
        ∀ e ∈ rest.head?, e.index ≠ t.count + 1

section Truncation

variable {front rest : List LogEntry} {start : Nat}

theorem rdropWhile_append_all (p : LogEntry → Bool) (all : ∀ e ∈ rest, p e) :
    (front ++ rest).rdropWhile p = front.rdropWhile p := by
  induction rest using List.reverseRecOn with
  | nil => rw [List.append_nil]
  | append_singleton rest e ih =>
      rw [← List.append_assoc, List.rdropWhile_concat_pos _ _ _ (all e (by simp))]
      exact ih fun e member => all e (by simp [member])

theorem rdropWhile_append_some (p : LogEntry → Bool) {e : LogEntry} (member : e ∈ rest)
    (kept : ¬ p e) : (front ++ rest).rdropWhile p = front ++ rest.rdropWhile p ∧
      e ∈ rest.rdropWhile p := by
  induction rest using List.reverseRecOn with
  | nil => simp at member
  | append_singleton rest last ih =>
      rw [← List.append_assoc]
      by_cases dropped : p last
      · rw [List.rdropWhile_concat_pos _ _ _ dropped, List.rdropWhile_concat_pos _ _ _ dropped]
        refine ih ?_
        rcases List.mem_append.mp member with before | same
        · exact before
        · rw [List.mem_singleton.mp same] at kept
          exact absurd dropped kept
      · rw [List.rdropWhile_concat_neg _ _ _ dropped, List.rdropWhile_concat_neg _ _ _ dropped,
          List.append_assoc]
        exact ⟨rfl, member⟩

/-- A truncation of numbered entries. -/
theorem Contiguous.truncate_start (h : Contiguous 1 front) (start : Nat) :
    (front.rdropWhile fun e => e.index ≥ start) = front.take (start - 1) := by
  cases start with
  | zero => simp [List.rdropWhile_eq_nil_iff]
  | succ k => exact h.truncate k

end Truncation

namespace Counted

variable {t : Tally} {entries : List LogEntry}

theorem start : Counted {} [] := ⟨[], [], rfl, trivial, rfl, rfl⟩

theorem entry (h : Counted t entries) (e : LogEntry) :
    Counted (t.read (.entry e.index)) (entries ++ [e]) := by
  obtain ⟨front, rest, rfl, contiguous, count, state⟩ := h.split
  rw [Tally.read]
  cases gap : t.gap with
  | none =>
      rw [gap] at state
      obtain rfl : rest = [] := state
      dsimp only
      split
      · rename_i next
        refine ⟨front ++ [e], [], by simp, ?_, by simp [count, next], rfl⟩
        exact contiguous_append.mpr ⟨contiguous, by rw [next, count, Nat.add_comm], trivial⟩
      · rename_i skips
        exact ⟨front, [e], by simp, contiguous, count, by simp, by simp, by simpa using skips⟩
  | some low =>
      rw [gap] at state
      obtain ⟨⟨lowest, member, same⟩, bound, first⟩ := state
      refine ⟨front, rest ++ [e], by simp, contiguous, count, ?_, ?_, ?_⟩
      · by_cases lower : e.index < low
        · exact ⟨e, by simp, by omega⟩
        · exact ⟨lowest, by simp [member], by omega⟩
      · intro o inside
        rcases List.mem_append.mp inside with old | new
        · exact (Nat.min_le_left _ _).trans (bound o old)
        · rw [List.mem_singleton.mp new]
          exact Nat.min_le_right _ _
      · rw [List.head?_append_of_ne_nil _ (List.ne_nil_of_mem member)]
        exact first

theorem truncate (h : Counted t entries) (start : Nat) :
    Counted (t.read (.truncate start)) (entries.rdropWhile fun e => e.index ≥ start) := by
  obtain ⟨front, rest, rfl, contiguous, count, state⟩ := h.split
  have shortened : Contiguous 1 (front.rdropWhile fun e => e.index ≥ start) ∧
      (front.rdropWhile fun e => e.index ≥ start).length = min t.count (start - 1) := by
    rw [contiguous.truncate_start, List.length_take, count, Nat.min_comm]
    exact ⟨contiguous.prefix_of (List.take_prefix _ _), rfl⟩
  rw [Tally.read]
  cases gap : t.gap with
  | none =>
      rw [gap] at state
      obtain rfl : rest = [] := state
      rw [List.append_nil]
      exact ⟨_, [], (List.append_nil _).symm, shortened.1, shortened.2, rfl⟩
  | some low =>
      rw [gap] at state
      obtain ⟨⟨lowest, member, same⟩, bound, first⟩ := state
      dsimp only
      split
      · -- everything since the gap goes, and more of what was in place may go with it
        rename_i covers
        rw [rdropWhile_append_all _ fun e inside => by
          have := bound e inside
          simp only [decide_eq_true_eq]
          omega]
        exact ⟨_, [], by simp, shortened.1, shortened.2, rfl⟩
      · -- the lowest entry stays, and with it the first one out of place
        rename_i beyond
        obtain ⟨split, stays⟩ := @rdropWhile_append_some front rest
          (fun e => decide (e.index ≥ start)) lowest member (by simp; omega)
        rw [split]
        have inside := List.rdropWhile_prefix (fun e => decide (LogEntry.index e ≥ start)) (l := rest)
        refine ⟨front, _, rfl, contiguous, count, ?_⟩
        rw [gap]
        refine ⟨⟨lowest, stays, same⟩, fun e left => bound e (inside.subset left), ?_⟩
        obtain ⟨dropped, joined⟩ := inside
        rw [← joined, List.head?_append_of_ne_nil _ (List.ne_nil_of_mem stays)] at first
        exact first

/-- The entries are numbered exactly if no gap is open. -/
theorem numbered_iff (h : Counted t entries) : Contiguous 1 entries ↔ t.gap = none := by
  obtain ⟨front, rest, rfl, contiguous, count, state⟩ := h.split
  cases gap : t.gap with
  | none =>
      rw [gap] at state
      obtain rfl : rest = [] := state
      simpa using contiguous
  | some low =>
      rw [gap] at state
      obtain ⟨⟨lowest, member, -⟩, -, first⟩ := state
      cases rest with
      | nil => simp at member
      | cons e later =>
          have skips := first e rfl
          simp only [reduceCtorEq, iff_false]
          intro numbered
          have index := (contiguous_append.mp numbered).2.1
          omega

end Counted

/-! ## Replay -/

section Replay

variable {state : Recovered} {record : Bytes}

/-- What one record does to the entries. -/
theorem replay_cases (state : Recovered) (record : Bytes) :
    (markOf record = none ∧ (state.replay record).entries = state.entries) ∨
    (∃ e : LogEntry, markOf record = some (.entry e.index) ∧
      (state.replay record).entries = state.entries ++ [e]) ∨
    (∃ start, markOf record = some (.truncate start) ∧
      (state.replay record).entries = state.entries.rdropWhile fun e => e.index ≥ start) := by
  cases record with
  | nil => exact Or.inl ⟨rfl, rfl⟩
  | cons tag payload =>
      rcases first : Decoder.u64 { rest := payload } with ⟨v, d₁⟩
      rcases second : d₁.u64 with ⟨w, d₂⟩
      rcases third : d₂.u32 with ⟨len, d₃⟩
      rcases fourth : d₃.bytes len with ⟨data, d₄⟩
      simp only [Recovered.replay, markOf, first, second, third, fourth]
      by_cases hard : tag = 1
      · subst hard
        cases d₂.ok with
        | true => exact Or.inl ⟨rfl, rfl⟩
        | false => exact Or.inl ⟨rfl, rfl⟩
      · rw [if_neg hard]
        by_cases entry : tag = 2
        · rw [if_pos entry, if_pos entry]
          cases d₄.ok with
          | true => exact Or.inr (Or.inl ⟨{ term := v, index := w, data }, rfl, rfl⟩)
          | false => exact Or.inl ⟨rfl, rfl⟩
        · rw [if_neg entry, if_neg entry]
          by_cases truncation : tag = 3
          · rw [if_pos truncation, if_pos truncation]
            cases d₁.ok with
            | true => exact Or.inr (Or.inr ⟨v, rfl, rfl⟩)
            | false => exact Or.inl ⟨rfl, rfl⟩
          · rw [if_neg truncation, if_neg truncation]
            exact Or.inl ⟨rfl, rfl⟩

theorem replay_counted (records : List Bytes) :
    Counted (tally records) (records.foldl Recovered.replay {}).entries := by
  induction records using List.reverseRecOn with
  | nil => exact Counted.start
  | append_singleton records record ih =>
      rw [tally, List.filterMap_append, List.foldl_append, List.foldl_append, List.foldl_cons,
        List.foldl_nil, ← tally]
      rcases replay_cases (records.foldl Recovered.replay {}) record with
        ⟨mark, same⟩ | ⟨e, mark, appended⟩ | ⟨start, mark, dropped⟩
      · rw [same]
        simpa [mark] using ih
      · rw [appended]
        simpa [mark] using ih.entry e
      · rw [dropped]
        simpa [mark] using ih.truncate start

end Replay

/-! ## Recovery -/

/-- The process with other bytes in its file. -/
def Process.overwritten (p : Process) (bytes : Bytes) : Process :=
  { p with storage := { p.storage with writer := { p.storage.writer with
      dest := { p.storage.writer.dest with contents := bytes } } } }

/-- The node that `Restore` makes of what was recovered. -/
def RaftStorage.restored (storage : RaftStorage) (config : Config) : Raft :=
  (Raft.new config).restore storage.recover.1.term storage.recover.1.vote storage.recover.2

/-- The recovered entries are numbered from 1, so that each of them is restored
    to its index, and the watermarks of node and storage agree. -/
structure RaftStorage.InPlace (storage : RaftStorage) (config : Config) : Prop where
  numbered : ∀ i (inside : i < storage.recover.2.length),
    (storage.recover.2.get ⟨i, inside⟩).index = i + 1
  placed : ∀ e ∈ storage.recover.2, (storage.restored config).log[e.index]? = some e
  stable : (storage.restored config).stableIndex = storage.persistedIndex

section Recovery

variable {entries : List LogEntry}

theorem contiguous_of_index {start : Nat}
    (index : ∀ i (inside : i < entries.length), (entries.get ⟨i, inside⟩).index = start + i) :
    Contiguous start entries := by
  induction entries generalizing start with
  | nil => trivial
  | cons e later ih =>
      refine ⟨index 0 (by simp), ih fun i inside => ?_⟩
      have same := index (i + 1) (by simpa using inside)
      rw [Nat.add_right_comm]
      exact same

theorem RaftStorage.inPlace_of_contiguous {storage : RaftStorage} (config : Config)
    (contiguous : Contiguous 1 storage.recovered.entries)
    (persisted : storage.persistedIndex =
      (storage.recovered.entries.getLast?.map LogEntry.index).getD 0) :
    storage.InPlace config where
  numbered := fun i inside => by
    have index := contiguous.index inside
    rw [Nat.add_comm] at index
    exact index
  placed := fun e member => by
    obtain ⟨i, inside, rfl⟩ := List.mem_iff_getElem.mp member
    have index := contiguous.index inside
    rw [Nat.add_comm] at index
    show ([_] ++ storage.recovered.entries)[_]? = _
    rw [show storage.recover.2[i].index = i + 1 from index, List.singleton_append,
      List.getElem?_cons_succ]
    exact List.getElem?_eq_getElem inside
  stable := by
    rw [persisted, contiguous.lastIndex]
    show ([_] ++ storage.recovered.entries).length - 1 = _
    rw [List.singleton_append, List.length_cons, Nat.add_sub_cancel]

/-- A damaged storage file, in which no checksum is forged, is always opened. The
    entries have no holes exactly if every gap in the entry records that are
    left is closed by a truncation record that is left. -/
theorem damaged_inPlace_iff (config : Config) (calls : List Call) (bytes : Bytes)
    (unforged : Unforged
      (fragmentsAll 0 (((Process.fresh config).journal calls).map Item.record)) bytes) :
    ∃ storage, RaftStorage.openAt ((Process.run config calls).overwritten bytes).place =
        .ok storage ∧
      (recordsOf bytes).Sublist (((Process.fresh config).journal calls).map Item.record) ∧
      (storage.InPlace config ↔ (tally (recordsOf bytes)).gap = none) := by
  have wrote := Process.run_wrote config calls
  have sound : ((Process.run config calls).overwritten bytes).place.Sound :=
    ⟨rfl, rfl, rfl, rfl, rfl, wrote.aligned.appends, wrote.syncs⟩
  refine ⟨_, RaftStorage.openAt_eq sound, unforged.recordsOf, ?_⟩
  have counted := replay_counted (recordsOf bytes)
  rw [← counted.numbered_iff]
  constructor
  · intro inPlace
    refine contiguous_of_index fun i inside => ?_
    rw [Nat.add_comm 1]
    exact inPlace.numbered i inside
  · intro contiguous
    exact RaftStorage.inPlace_of_contiguous config contiguous rfl

/-- Two entries, the first of which has no data: its physical record is as long as
    four headers. -/
def twoEntries : List Call := [.tick, .propose [], .propose [5], .save none]

/-- The last byte of a storage file is overwritten: the second entry is lost. -/
def lastFlipped : Bytes :=
  (Process.run lonely twoEntries).storage.writer.dest.contents.take 80 ++ [6]

theorem damaged_inPlace_iff_lastFlipped :
    ∃ storage, RaftStorage.openAt ((Process.run lonely twoEntries).overwritten lastFlipped).place =
        .ok storage ∧
      (storage.InPlace lonely ↔ (tally (recordsOf lastFlipped)).gap = none) := by
  obtain ⟨storage, opened, -, same⟩ := damaged_inPlace_iff lonely twoEntries lastFlipped
    (unforged_of_offsets (by decide +kernel))
  exact ⟨storage, opened, same⟩

/-- The first entry is overwritten with zeros, which read as four empty headers. -/
def firstZeroed : Bytes :=
  (Process.run lonely twoEntries).storage.writer.dest.contents.take 24 ++ List.replicate 28 0 ++
    (Process.run lonely twoEntries).storage.writer.dest.contents.drop 52

/-- Only the second entry is recovered then. -/
theorem damaged_not_inPlace :
    ¬ ∀ (config : Config) (calls : List Call) (bytes : Bytes),
      (∀ call ∈ calls, call.Carries) → (∀ msg, Call.save (some msg) ∉ calls) →
      bytes.length = (Process.run config calls).storage.writer.dest.contents.length →
      Unforged (fragmentsAll 0 (((Process.fresh config).journal calls).map Item.record)) bytes →
      ∀ storage, RaftStorage.openAt ((Process.run config calls).overwritten bytes).place =
        .ok storage → storage.InPlace config := by
  intro claim
  have unforged : Unforged (fragmentsAll 0
      (((Process.fresh lonely).journal twoEntries).map Item.record)) firstZeroed :=
    unforged_of_offsets (by decide +kernel)
  have inPlace := claim lonely twoEntries firstZeroed (by simp [twoEntries, Call.Carries])
    (by simp [twoEntries]) (by decide +kernel) unforged _ rfl
  have index := inPlace.numbered 0 (by decide +kernel)
  revert index
  decide +kernel

end Recovery

end MiniLsm
