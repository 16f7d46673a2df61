import MiniLsm.Consensus.Safety

/-! # A node that goes down while it stores

Storing a part of a term's ledger may replace the end of a log, and a node that
goes down in between comes back with a log that is neither the old nor the new
one. Nothing was acknowledged yet, so this is no `accept`. It is harmless all
the same: whatever the node ever promised to hold lies in its old log and in the
ledger, and this much is left.
-/

namespace Consensus.Protocol

variable {N E : Type} {P : Protocol N E} {n : N} {s : State N E} {left : List E}

/-- A log that a node may come back with: a start of its term's ledger that lost
    nothing the old log shared with the ledger. -/
structure Salvages (n : N) (s : State N E) (left : List E) : Prop where
  led : s.leader (s.term n) ≠ none
  inside : left <+: s.ledger (s.term n)
  shared : ∀ entries, entries <+: s.log n → entries <+: s.ledger (s.term n) → entries <+: left

/-- What a quorum stored is in the log of each of its nodes. -/
theorem Chosen.held (inv : P.Inv s) {t : ℕ} {entries : List E} (h : P.Chosen s t entries) {q : N}
    (stored : entries.length ≤ s.acked q t) : entries <+: s.log q :=
  inv.kept q t entries h.toOwn stored h.choosable

/-- A decided prefix is in the logs of a quorum. -/
theorem Decided.held (inv : P.Inv s) {bound : ℕ} {entries : List E} (h : P.Decided s bound entries)
    (some : entries ≠ []) : P.IsQuorum {q | entries <+: s.log q} := by
  rcases h with rfl | ⟨t, chosen, isChosen, -, inside⟩
  · exact absurd rfl some
  · exact P.grow (fun q stored => inside.trans (isChosen.held inv stored)) isChosen.stored

/-- What a node stored belongs to a term it reached. -/
theorem Own.reached (inv : P.Inv s) {t : ℕ} {entries : List E} (h : P.Own s t entries)
    (stored : entries.length ≤ s.acked n t) : t ≤ s.term n := by
  have positive := h.length_pos
  exact inv.ackedReached n t (by omega)

/-- The part of a merge that was written before the node went down. -/
theorem Merged.salvages {result : List E} {size : ℕ} (led : s.leader (s.term n) ≠ none)
    (merged : Merged (s.log n) ((s.ledger (s.term n)).take size) result) (inside : left <+: result)
    (shared : ∀ entries, entries <+: s.log n → entries <+: result → entries <+: left) :
    left = s.log n ∨ Salvages n s left := by
  rcases merged with ⟨-, rfl⟩ | ⟨conflict, rfl⟩
  · have whole := shared _ List.prefix_rfl List.prefix_rfl
    exact Or.inl (inside.eq_of_length (le_antisymm inside.length_le whole.length_le))
  · refine Or.inr ⟨led, inside.trans (List.take_prefix _ _), fun entries held written => ?_⟩
    rcases List.prefix_or_prefix_of_prefix written (List.take_prefix size _) with short | long
    · exact shared entries held short
    · exact absurd (long.trans held) conflict

/-- A stored prefix that can still be chosen survives: it is in the old log, and
    in the ledger, which is of its own or of a later term. -/
theorem Salvages.kept (h : Salvages n s left) (inv : P.Inv s) {t : ℕ} {entries : List E}
    (own : P.Own s t entries) (stored : entries.length ≤ s.acked n t)
    (choosable : P.Choosable s t entries.length) : entries <+: left := by
  refine h.shared entries (inv.kept n t entries own stored choosable) ?_
  rcases Nat.lt_or_eq_of_le (own.reached inv stored) with before | rfl
  · exact inv.later t _ entries h.led before own choosable
  · exact own.inLedger

variable [DecidableEq N]

/-- The node comes back with what is left of its log, and knows nothing to be
    chosen. -/
def salvaged (n : N) (s : State N E) (left : List E) : State N E :=
  { s with log := Function.update s.log n left, commit := Function.update s.commit n 0 }

@[simp] theorem salvaged_log_here : (salvaged n s left).log n = left := by simp [salvaged]

theorem salvaged_log_elsewhere {m : N} (other : m ≠ n) : (salvaged n s left).log m = s.log m := by
  simp [salvaged, other]

theorem salvaged_extends : P.Extends s (salvaged n s left) :=
  { Extends.refl s with }

theorem salvaged_frame : Frame n s (salvaged n s left) :=
  { Frame.refl n s with
    log := fun _ other => salvaged_log_elsewhere other
    commit := fun m other => by simp [salvaged, other] }

namespace Salvages

theorem logs (h : Salvages n s left) (inv : P.Inv s) : P.Logs (salvaged n s left) where
  unled := inv.unled
  ledgerTerms := inv.ledgerTerms
  logTerms := by
    intro m e member
    by_cases here : m = n
    · subst here
      rw [salvaged_log_here] at member
      exact inv.ledgerTerms _ e (h.inside.subset member)
    · rw [salvaged_log_elsewhere here] at member
      exact inv.logTerms m e member
  ledgerBacked := inv.ledgerBacked
  logBacked := by
    intro m
    by_cases here : m = n
    · subst here
      rw [salvaged_log_here]
      exact (inv.ledgerBacked (s.term m)).cut h.inside
    · rw [salvaged_log_elsewhere here]
      exact inv.logBacked m
  stoodBacked := inv.stoodBacked

theorem acks (h : Salvages n s left) (inv : P.Inv s) : Acks (salvaged n s left) where
  ackedWritten := inv.ackedWritten
  ackedReached := inv.ackedReached
  ackedHeld := by
    intro m
    by_cases here : m = n
    · subst here
      rw [salvaged_log_here]
      exact h.shared _ (inv.ackedHeld m) (List.take_prefix _ _)
    · rw [salvaged_log_elsewhere here]
      exact inv.ackedHeld m

theorem completeness (h : Salvages n s left) (inv : P.Inv s) :
    P.Completeness (salvaged n s left) where
  later := fun t u entries led early own choosable =>
    inv.later t u entries led early ⟨own.inLedger, own.ends⟩ choosable
  kept := by
    rintro m t entries ⟨inLedger, ends⟩ stored choosable
    have own : P.Own s t entries := ⟨inLedger, ends⟩
    by_cases here : m = n
    · subst here
      rw [salvaged_log_here]
      exact h.kept inv own stored choosable
    · rw [salvaged_log_elsewhere here]
      exact inv.kept m t entries own stored choosable
  voted := fun m c t u log entries votedFor stood early own stored choosable =>
    inv.voted m c t u log entries votedFor stood early ⟨own.inLedger, own.ends⟩ stored choosable

theorem commits (inv : P.Inv s) : P.Commits (salvaged n s left) where
  commitHeld := by
    intro m
    by_cases here : m = n
    · subst here
      simp [salvaged]
    · simpa [salvaged, here] using inv.commitHeld m
  commitDecided := by
    intro m
    by_cases here : m = n
    · subst here
      exact Or.inl (by simp [salvaged])
    · have decided := (inv.commitDecided m).mono
        (show P.Extends s (salvaged n s left) from salvaged_extends) le_rfl
      simpa [salvaged, here] using decided

/-- The invariant survives the crash. -/
theorem inv (h : Salvages n s left) (inv : P.Inv s) : P.Inv (salvaged n s left) where
  toElections := ⟨inv.voteTerm, inv.voteStood, inv.stoodVote, inv.stoodPos, inv.stoodTerms,
    inv.leaderVotes⟩
  toLogs := h.logs inv
  toAcks := h.acks inv
  toCompleteness := h.completeness inv
  toCommits := commits inv

end Salvages

end Consensus.Protocol
