import MiniLsm.Raft.Process

/-! # What a node gets back from its storage

After a `Save` the file replays to the node's term, vote and log. Without I/O
errors this holds for every run; when a `Sync` failed before, it depends on
what the failed `Save` left in the file.
-/

namespace MiniLsm

variable {p : Process} {items : List Item}

namespace Stored

/-- A retriable `Save` leaves exactly the node's log in the file. -/
theorem save (h : Stored p items) (fits : p.raft.Fits) (retriable : p.Retriable)
    (fault : Option String) :
    Stored (p.save fault).2 (items ++ RaftStorage.savedItems p.raft p.storage.persistedIndex) ∧
      (fault = none →
        (journalState (items ++
          RaftStorage.savedItems p.raft p.storage.persistedIndex)).entries.length =
            (p.save fault).2.storage.persistedIndex) := by
  obtain ⟨w, aligned, syncs, contents, -, saved⟩ := p.save_eq h.holds.aligned fault
  have holds (persistedIndex : Nat) :
      Holds { p.storage with writer := w, persistedIndex }
        (items ++ RaftStorage.savedItems p.raft p.storage.persistedIndex) :=
    h.holds.add (h.savedItems_fit fits) aligned syncs contents
  have entries := h.saved_entries_iff.mpr retriable
  have hard : (journalState (items ++
      RaftStorage.savedItems p.raft p.storage.persistedIndex)).hs =
        { term := p.raft.currentTerm, vote := p.raft.votedFor } := by rw [h.saved_state]
  have stable := h.node.stable
  have last : p.raft.lastIndex = (p.raft.log.drop 1).length := by simp [Raft.lastIndex]
  have numbered : Contiguous 1 (p.raft.log.drop 1) := h.node.log.drop 1
  have size : (p.raft.log.drop 1).length < UInt64.size := by
    rw [← last]
    exact fits.lastIndex h.node
  refine ⟨?_, ?_⟩
  · cases fault with
    | none =>
        rw [saved]
        refine ⟨holds _, ⟨h.node.log, ?_⟩,
          entries ▸ numbered, entries ▸ size, ?_, le_rfl, by rw [entries], fun _ => hard⟩
        · show p.raft.lastIndex < p.raft.log.length
          rw [Raft.lastIndex]
          omega
        · rw [entries]
          exact le_of_eq last
    | some msg =>
        rw [saved]
        refine ⟨holds _, ⟨h.node.log, stable⟩,
          entries ▸ numbered, entries ▸ size, ?_, ?_, by rw [entries], fun _ => hard⟩
        · rw [entries, ← last, Raft.lastIndex]
          exact (Nat.min_le_right _ _).trans (by omega)
        · exact le_of_eq (Nat.min_eq_right h.stable).symm
  · rintro rfl
    rw [saved, entries]
    exact last.symm

/-- What one call does to the journal. -/
theorem next (h : Stored p items) {call : Call} (carries : call.Carries)
    (saves : ∀ fault, call = .save fault → p.raft.Fits ∧ p.Retriable) :
    ∃ added, Stored (p.next call) added ∧
      ((journalState items).entries.length = p.storage.persistedIndex →
        (∀ msg, call ≠ .save (some msg)) →
        (journalState added).entries.length = (p.next call).storage.persistedIndex) := by
  cases call with
  | tick => exact ⟨items, h.evolves (Raft.tick_evolves h.node), fun full _ => full⟩
  | propose data => exact ⟨items, h.evolves (Raft.propose_evolves h.node data), fun full _ => full⟩
  | step msg => exact ⟨items, h.evolves (Raft.step_evolves h.node carries), fun full _ => full⟩
  | takeMessages | takeCommitted =>
      exact ⟨items, h.evolves (h.node.kept rfl rfl rfl fun clean => ⟨clean, rfl, rfl⟩),
        fun full _ => full⟩
  | reopen => exact ⟨items, h.reopen.1, fun _ _ => h.reopen.2⟩
  | save fault =>
      obtain ⟨fits, retriable⟩ := saves fault rfl
      obtain ⟨stored, full⟩ := h.save fits retriable fault
      refine ⟨_, stored, fun _ succeeds => full ?_⟩
      cases fault with
      | none => rfl
      | some msg => exact absurd rfl (succeeds msg)

end Stored

section Runs

variable {config : Config} {calls : List Call}

/-- A run keeps the journal sound as long as its Saves are retriable. -/
theorem run_stored (carries : ∀ call ∈ calls, call.Carries)
    (fits : ∀ before, before <+: calls → (Process.run config before).raft.Fits)
    (saves : ∀ before fault, before ++ [.save fault] <+: calls →
      (Process.run config before).Retriable) :
    ∃ items, Stored (Process.run config calls) items := by
  apply run_invariant Process.next (Process.fresh config) fun p => ∃ items, Stored p items
  · exact ⟨[], Stored.fresh config⟩
  · rintro before call inside ⟨items, stored⟩
    have ready : ∀ fault, call = .save fault →
        (Process.run config before).raft.Fits ∧ (Process.run config before).Retriable := by
      rintro fault rfl
      exact ⟨fits before (before_step inside), saves before fault inside⟩
    obtain ⟨added, stored', -⟩ := stored.next (carries call (mem_of_step inside)) ready
    exact ⟨added, stored'⟩

/-- Without I/O errors the file never runs ahead of `persisted_index_`. -/
theorem run_stored_full (carries : ∀ call ∈ calls, call.Carries)
    (noError : ∀ msg, Call.save (some msg) ∉ calls)
    (fits : ∀ before, before <+: calls → (Process.run config before).raft.Fits) :
    ∃ items, Stored (Process.run config calls) items ∧
      (journalState items).entries.length = (Process.run config calls).storage.persistedIndex := by
  apply run_invariant Process.next (Process.fresh config) fun p => ∃ items, Stored p items ∧
    (journalState items).entries.length = p.storage.persistedIndex
  · exact ⟨[], Stored.fresh config, rfl⟩
  · rintro before call inside ⟨items, stored, full⟩
    have ready : ∀ fault, call = .save fault →
        (Process.run config before).raft.Fits ∧ (Process.run config before).Retriable :=
      fun _ _ => ⟨fits before (before_step inside), stored.retriable_iff.mpr (Or.inl full)⟩
    obtain ⟨added, stored', full'⟩ := stored.next (carries call (mem_of_step inside)) ready
    refine ⟨added, stored', full' full ?_⟩
    rintro msg rfl
    exact noError msg (mem_of_step inside)

/-- A `Save` that succeeds returns OK, and what is recovered afterwards are the
    node's term and vote and the entries of the extended journal. -/
theorem Stored.save_recovers (h : Stored p items) (fits : p.raft.Fits) :
    (p.save none).1 = .ok ∧ (p.save none).2.recovered = .ok
      ({ term := p.raft.currentTerm, vote := p.raft.votedFor },
        (journalState (items ++
          RaftStorage.savedItems p.raft p.storage.persistedIndex)).entries) := by
  obtain ⟨w, aligned, syncs, contents, -, saved⟩ := p.save_eq h.holds.aligned none
  have found : Holds (p.save none).2.storage
      (items ++ RaftStorage.savedItems p.raft p.storage.persistedIndex) := by
    rw [saved]
    exact h.holds.add (h.savedItems_fit fits) aligned syncs contents
  refine ⟨by rw [saved], ?_⟩
  rw [found.recovered, h.saved_state]

/-- In every run without I/O errors, reopening after a `Save` gives back the
    term, the vote and the whole log. -/
theorem save_then_recover (config : Config) (calls : List Call)
    (carries : ∀ call ∈ calls, call.Carries) (noError : ∀ msg, Call.save (some msg) ∉ calls)
    (fits : ∀ before, before <+: calls → (Process.run config before).raft.Fits) :
    ((Process.run config calls).save none).1 = .ok ∧
      ((Process.run config calls).save none).2.recovered = .ok
        ({ term := (Process.run config calls).raft.currentTerm
           vote := (Process.run config calls).raft.votedFor },
          (Process.run config calls).raft.log.drop 1) := by
  obtain ⟨items, stored, full⟩ := run_stored_full carries noError fits
  have retriable := stored.retriable_iff.mpr (Or.inl full)
  obtain ⟨succeeds, recovered⟩ := stored.save_recovers (fits calls List.prefix_rfl)
  rw [stored.saved_entries_iff.mpr retriable] at recovered
  exact ⟨succeeds, recovered⟩

/-- A node that is its own majority. -/
def lonely : Config := { id := 1, peers := [1], electionTimeout := 1 }

/-- A second leader replaces stored entries of the first. -/
def replaced : List Call :=
  [.step { type := .appendEntries, fromNode := 2, toNode := 1, term := 1,
           entries := [{ term := 1, index := 1, data := [7] }, { term := 1, index := 2 }] },
    .save none,
    .step { type := .appendEntries, fromNode := 3, toNode := 1, term := 2,
            entries := [{ term := 2, index := 1, data := [9] }] },
    .save none, .reopen, .tick]

theorem save_then_recover_replaced :
    ((Process.run lonely replaced).save none).2.recovered =
      .ok ({ term := 3, vote := 1 }, [{ term := 2, index := 1, data := [9] }]) := by
  have fits : ∀ before ∈ replaced.inits, (Process.run lonely before).raft.Fits := by decide +kernel
  have recovered := (save_then_recover lonely replaced
    (by simp [replaced, Call.Carries, Message.Carries, Contiguous]) (by simp [replaced])
    (fun before inside => fits before ((List.mem_inits _ _).mpr inside))).2
  exact recovered.trans (by decide +kernel)

/-- When earlier Saves may have failed to sync but were all retriable, the
    `Save` that succeeds is read back exactly if it is retriable too. -/
theorem retried_save_then_recover (config : Config) (calls : List Call)
    (carries : ∀ call ∈ calls, call.Carries)
    (fits : ∀ before, before <+: calls → (Process.run config before).raft.Fits)
    (saves : ∀ before fault, before ++ [.save fault] <+: calls →
      (Process.run config before).Retriable) :
    ((Process.run config calls).save none).1 = .ok ∧
      (((Process.run config calls).save none).2.recovered = .ok
        ({ term := (Process.run config calls).raft.currentTerm
           vote := (Process.run config calls).raft.votedFor },
          (Process.run config calls).raft.log.drop 1) ↔
        (Process.run config calls).Retriable) := by
  obtain ⟨items, stored⟩ := run_stored carries fits saves
  obtain ⟨succeeds, recovered⟩ := stored.save_recovers (fits calls List.prefix_rfl)
  refine ⟨succeeds, ?_⟩
  rw [recovered, ← stored.saved_entries_iff, Except.ok.injEq, Prod.mk.injEq]
  exact ⟨fun same => same.2, fun same => ⟨rfl, same⟩⟩

/-- The `Sync` of a vote fails once. -/
def unsyncedVote : List Call :=
  [.tick, .propose [7], .save none,
    .step { type := .requestVote, fromNode := 2, toNode := 1, term := 5, lastLogTerm := 4 },
    .save (some "fsync")]

theorem retried_save_then_recover_unsyncedVote :
    ((Process.run lonely unsyncedVote).save none).2.recovered =
      .ok ({ term := 5, vote := 2 }, [{ term := 1, index := 1, data := [7] }]) := by
  have fits : ∀ before ∈ unsyncedVote.inits,
      (Process.run lonely before).raft.Fits ∧ (Process.run lonely before).Retriable := by
    decide +kernel
  have recovered := (retried_save_then_recover lonely unsyncedVote
    (by simp [unsyncedVote, Call.Carries, Message.Carries])
    (fun before inside => (fits before ((List.mem_inits _ _).mpr inside)).1)
    (fun before fault inside => (fits before ((List.mem_inits _ _).mpr
      ((List.prefix_append _ _).trans inside))).2)).2.mpr (by decide +kernel)
  exact recovered.trans (by decide +kernel)

/-- After a failed `Sync` the entry that was being stored is written, and
    recovered, a second time. -/
theorem retried_save_recovers_twice :
    ¬ ∀ (config : Config) (calls : List Call), (∀ call ∈ calls, call.Carries) →
      (∀ before, before <+: calls → (Process.run config before).raft.Fits) →
      ((Process.run config calls).save none).1 = .ok →
      ((Process.run config calls).save none).2.recovered = .ok
        ({ term := (Process.run config calls).raft.currentTerm
           vote := (Process.run config calls).raft.votedFor },
          (Process.run config calls).raft.log.drop 1) := by
  intro claim
  have fits : ∀ before ∈ ([.tick, .propose [7], .save (some "fsync")] : List Call).inits,
      (Process.run lonely before).raft.Fits := by decide +kernel
  have recovered := claim lonely [.tick, .propose [7], .save (some "fsync")]
    (by simp [Call.Carries]) (fun before inside => fits before ((List.mem_inits _ _).mpr inside))
    (by decide +kernel)
  revert recovered
  decide +kernel

end Runs

end MiniLsm
