import MiniLsm.Consensus.Protocol

/-! # The invariant of the replication protocol

The invariant is kept in five layers: elections, the shape of logs, what
followers stored, completeness of later leaders, and what nodes count as
chosen. Completeness is stated for prefixes that are still *choosable*, not
only for chosen ones: a later leader may be elected before the last member of
the quorum stores the prefix, and then only "a quorum can still be reached"
connects the two.
-/

namespace Consensus.Protocol

variable {N E : Type} (P : Protocol N E)

/-- Votes, candidacies and winners. -/
structure Elections (s : State N E) : Prop where
  voteTerm : ∀ n t c, s.vote n t = some c → t ≤ s.term n
  voteStood : ∀ n t c, s.vote n t = some c → ∃ log, s.standing c t = some log
  stoodVote : ∀ n t log, s.standing n t = some log → s.vote n t = some n
  stoodPos : ∀ n t log, s.standing n t = some log → 0 < t
  stoodTerms : ∀ n t log, s.standing n t = some log → ∀ e ∈ log, P.termOf e < t
  leaderVotes : ∀ t n, s.leader t = some n → P.IsQuorum {v | s.vote v t = some n}

/-- Every log, ledger and standing log is made of ledger prefixes. -/
structure Logs (s : State N E) : Prop where
  unled : ∀ t, s.leader t = none → s.ledger t = []
  ledgerTerms : ∀ t, ∀ e ∈ s.ledger t, P.termOf e ≤ t
  logTerms : ∀ n, ∀ e ∈ s.log n, P.termOf e ≤ s.term n
  ledgerBacked : ∀ t, P.Backed s (s.ledger t)
  logBacked : ∀ n, P.Backed s (s.log n)
  stoodBacked : ∀ n t log, s.standing n t = some log → P.Backed s log

/-- Stored prefixes were written, belong to reached terms, and are still held
    by a node that has not left the term. -/
structure Acks (s : State N E) : Prop where
  ackedWritten : ∀ n t, s.acked n t ≤ (s.ledger t).length
  ackedReached : ∀ n t, s.acked n t ≠ 0 → t ≤ s.term n
  ackedHeld : ∀ n, (s.ledger (s.term n)).take (s.acked n (s.term n)) <+: s.log n

/-- A prefix that can still be chosen is in every later ledger, in the log of
    every node that stored it, and in the log of every candidate such a node
    later voted for. -/
structure Completeness (s : State N E) : Prop where
  later : ∀ t u entries, s.leader u ≠ none → t < u → P.Own s t entries →
    P.Choosable s t entries.length → entries <+: s.ledger u
  kept : ∀ n t entries, P.Own s t entries → entries.length ≤ s.acked n t →
    P.Choosable s t entries.length → entries <+: s.log n
  voted : ∀ n c t u log entries, s.vote n u = some c → s.standing c u = some log → t < u →
    P.Own s t entries → entries.length ≤ s.acked n t →
    P.Choosable s t entries.length → entries <+: log

/-- What a node counts as chosen is held and decided. -/
structure Commits (s : State N E) : Prop where
  commitHeld : ∀ n, s.commit n ≤ (s.log n).length
  commitDecided : ∀ n, P.Decided s (s.term n) ((s.log n).take (s.commit n))

structure Inv (s : State N E) : Prop extends
  P.Elections s, P.Logs s, Acks s, P.Completeness s, P.Commits s

/-- The history only grows, and a led term grows by entries of its own. -/
structure Extends (s s' : State N E) : Prop where
  term : ∀ n, s.term n ≤ s'.term n
  vote : ∀ n t c, s.vote n t = some c → s'.vote n t = some c
  standing : ∀ n t log, s.standing n t = some log → s'.standing n t = some log
  leader : ∀ t n, s.leader t = some n → s'.leader t = some n
  ledger : ∀ t, s.ledger t <+: s'.ledger t
  grown : ∀ t, s.leader t ≠ none →
    ∃ more, s'.ledger t = s.ledger t ++ more ∧ ∀ e ∈ more, P.termOf e = t
  acked : ∀ n t, s.acked n t ≤ s'.acked n t

section Facts

variable {P} {s s' : State N E}

@[simp] theorem tip_nil : P.tip ([] : List E) = none := rfl

@[simp] theorem tip_concat (log : List E) (e : E) : P.tip (log ++ [e]) = some (P.termOf e) := by
  simp [tip]

theorem tip_mem {log : List E} {t : ℕ} (h : P.tip log = some t) :
    ∃ e ∈ log, P.termOf e = t := by
  obtain ⟨e, last, rfl⟩ := Option.map_eq_some_iff.mp h
  exact ⟨e, List.mem_of_getLast? last, rfl⟩

theorem tip_of_ne_nil {log : List E} (h : log ≠ []) : P.tip log = some (P.lastTerm log) := by
  obtain ⟨init, e, rfl⟩ := (List.eq_nil_or_concat' log).resolve_left h
  simp [lastTerm]

theorem Backed.cut {log short : List E} (h : P.Backed s log) (inside : short <+: log) :
    P.Backed s short :=
  fun entries t within ends => h entries t (within.trans inside) ends

theorem Backed.mono {log : List E} (h : P.Backed s log)
    (ledger : ∀ t, s.ledger t <+: s'.ledger t) : P.Backed s' log :=
  fun entries t within ends => (h entries t within ends).trans (ledger t)

/-- An entry of a backed log sits in the ledger of its own term. -/
theorem Backed.upto {log : List E} (h : P.Backed s log) {e : E} (member : e ∈ log) :
    ∃ before, before ++ [e] <+: log ∧ before ++ [e] <+: s.ledger (P.termOf e) := by
  obtain ⟨before, after, rfl⟩ := List.append_of_mem member
  have inside : before ++ [e] <+: before ++ e :: after := ⟨after, by simp⟩
  exact ⟨before, inside, h _ _ inside (tip_concat before e)⟩

/-- Terms never decrease along a backed log. -/
theorem Backed.terms_le {log entries : List E} {t : ℕ} (logs : P.Logs s) (h : P.Backed s log)
    (inside : entries <+: log) (ends : P.tip entries = some t) :
    ∀ e ∈ entries, P.termOf e ≤ t := fun e member =>
  logs.ledgerTerms t e ((h entries t inside ends).subset member)

theorem Backed.sorted {log : List E} (logs : P.Logs s) (h : P.Backed s log) :
    log.Pairwise fun e e' => P.termOf e ≤ P.termOf e' := by
  induction log using List.reverseRecOn with
  | nil => exact List.Pairwise.nil
  | append_singleton init e ih =>
      refine List.pairwise_append.mpr ⟨ih (h.cut (List.prefix_append _ _)),
        List.pairwise_singleton _ _, ?_⟩
      intro x member last isLast
      rw [List.mem_singleton] at isLast
      subst isLast
      exact h.terms_le logs List.prefix_rfl (tip_concat init last) x
        (List.mem_append_left _ member)

theorem Own.mono {t : ℕ} {entries : List E} (h : P.Own s t entries)
    (ledger : ∀ t, s.ledger t <+: s'.ledger t) : P.Own s' t entries :=
  ⟨h.inLedger.trans (ledger t), h.ends⟩

theorem Own.terms_le {t : ℕ} {entries : List E} (logs : P.Logs s) (h : P.Own s t entries) :
    ∀ e ∈ entries, P.termOf e ≤ t :=
  fun e member => logs.ledgerTerms t e (h.inLedger.subset member)

theorem Own.ne_nil {t : ℕ} {entries : List E} (h : P.Own s t entries) : entries ≠ [] := by
  rintro rfl
  exact absurd h.ends (by simp)

theorem Own.length_pos {t : ℕ} {entries : List E} (h : P.Own s t entries) : 0 < entries.length :=
  List.length_pos_iff.mpr h.ne_nil

theorem Chosen.mono {t : ℕ} {entries : List E} (h : P.Chosen s t entries)
    (ext : P.Extends s s') : P.Chosen s' t entries where
  toOwn := h.toOwn.mono ext.ledger
  stored := P.grow (fun q held => le_trans held (ext.acked q t)) h.stored

theorem Chosen.choosable {t : ℕ} {entries : List E} (h : P.Chosen s t entries) :
    P.Choosable s t entries.length :=
  P.grow (fun _ held => Or.inl held) h.stored

theorem Decided.mono {bound bound' : ℕ} {entries : List E} (h : P.Decided s bound entries)
    (ext : P.Extends s s') (le : bound ≤ bound') : P.Decided s' bound' entries := by
  rcases h with rfl | ⟨t, chosen, isChosen, early, inside⟩
  · exact Or.inl rfl
  · exact Or.inr ⟨t, chosen, isChosen.mono ext, early.trans le, inside⟩

/-- A prefix stays choosable only if it was: nodes leave a term for good, and
    storing happens while still in it. -/
theorem Choosable.anti {t size : ℕ} (h : P.Choosable s' t size)
    (term : ∀ q, s.term q ≤ s'.term q)
    (acked : ∀ q, s'.acked q t ≤ s.acked q t ∨ s.term q ≤ t) : P.Choosable s t size := by
  refine P.grow ?_ h
  rintro q (stored | open_)
  · exact (acked q).imp (fun le => le_trans stored le) id
  · exact Or.inr ((term q).trans open_)

/-- The winner of a term has voters that have all reached it. -/
theorem Elections.reached (el : P.Elections s) {t u size : ℕ} (led : s.leader u ≠ none)
    (h : P.Choosable s t size) (early : t < u) :
    ∃ q c, s.vote q u = some c ∧ s.leader u = some c ∧ size ≤ s.acked q t := by
  obtain ⟨c, isLeader⟩ := Option.ne_none_iff_exists'.mp led
  obtain ⟨q, votedFor, stored | open_⟩ := P.meet (el.leaderVotes u c isLeader) h
  · exact ⟨q, c, votedFor, isLeader, stored⟩
  · have := el.voteTerm q u c votedFor
    omega

theorem Extends.refl (s : State N E) : P.Extends s s where
  term := fun _ => le_rfl
  vote := fun _ _ _ h => h
  standing := fun _ _ _ h => h
  leader := fun _ _ h => h
  ledger := fun _ => List.prefix_rfl
  grown := fun _ _ => ⟨[], by simp⟩
  acked := fun _ _ => le_rfl

theorem Extends.trans {s'' : State N E} (h : P.Extends s s') (h' : P.Extends s' s'') :
    P.Extends s s'' where
  term := fun n => (h.term n).trans (h'.term n)
  vote := fun n t c v => h'.vote n t c (h.vote n t c v)
  standing := fun n t log v => h'.standing n t log (h.standing n t log v)
  leader := fun t n v => h'.leader t n (h.leader t n v)
  ledger := fun t => (h.ledger t).trans (h'.ledger t)
  grown := by
    intro t led
    obtain ⟨n, isLeader⟩ := Option.ne_none_iff_exists'.mp led
    obtain ⟨first, same, own⟩ := h.grown t led
    obtain ⟨second, same', own'⟩ := h'.grown t (by simp [h.leader t n isLeader])
    refine ⟨first ++ second, by rw [same', same, List.append_assoc], ?_⟩
    intro e member
    exact (List.mem_append.mp member).elim (own e) (own' e)
  acked := fun n t => (h.acked n t).trans (h'.acked n t)

/-- The up-to-date check moves a choosable prefix from the voter's log to the
    candidate's: either both logs end in the same ledger, or the candidate ends
    in a later one, which already has the prefix. -/
theorem upToDate_carries (inv : P.Inv s) {t u : ℕ} {log voterLog entries : List E}
    (voterBacked : P.Backed s voterLog) (backed : P.Backed s log)
    (terms : ∀ e ∈ log, P.termOf e < u) (upToDate : P.UpToDate log voterLog)
    (own : P.Own s t entries) (choosable : P.Choosable s t entries.length)
    (held : entries <+: voterLog) : entries <+: log := by
  have voterSome : voterLog ≠ [] := by
    rintro rfl
    exact own.ne_nil (List.prefix_nil.mp held)
  have voterTip := tip_of_ne_nil (P := P) voterSome
  have late : t ≤ P.lastTerm voterLog := by
    obtain ⟨e, member, rfl⟩ := tip_mem own.ends
    exact voterBacked.terms_le inv.toLogs List.prefix_rfl voterTip e (held.subset member)
  rcases upToDate with greater | ⟨equal, longer⟩
  · have logSome : log ≠ [] := by
      rintro rfl
      simp [lastTerm] at greater
    have logTip := tip_of_ne_nil (P := P) logSome
    have inLedger := backed log _ List.prefix_rfl logTip
    have led : s.leader (P.lastTerm log) ≠ none := by
      intro none
      rw [inv.unled _ none] at inLedger
      exact logSome (List.prefix_nil.mp inLedger)
    have carried := inv.later t _ entries led (by omega) own choosable
    rcases List.prefix_or_prefix_of_prefix carried inLedger with inside | short
    · exact inside
    · obtain ⟨e, member, same⟩ := tip_mem logTip
      have := own.terms_le inv.toLogs e (short.subset member)
      omega
  · have logSome : log ≠ [] := by
      rintro rfl
      exact voterSome (List.length_eq_zero_iff.mp (by simpa using longer))
    have voterInside := voterBacked voterLog _ List.prefix_rfl voterTip
    have inside := backed log _ List.prefix_rfl (tip_of_ne_nil (P := P) logSome)
    rw [equal] at inside
    exact held.trans (List.prefix_of_prefix_length_le voterInside inside longer)

/-- A prefix decided by the node's term is in the ledger of that term. -/
theorem Decided.inLedger (inv : P.Inv s) {t : ℕ} {entries : List E} (led : s.leader t ≠ none)
    (h : P.Decided s t entries) : entries <+: s.ledger t := by
  rcases h with rfl | ⟨u, chosen, isChosen, early, inside⟩
  · exact List.nil_prefix
  · rcases Nat.lt_or_eq_of_le early with before | rfl
    · exact inside.trans (inv.later u t chosen led before isChosen.toOwn isChosen.choosable)
    · exact inside.trans isChosen.inLedger

/-- What a merge leaves is the old log or a prefix of the ledger. -/
theorem merged_cases {log ledger result : List E} {size : ℕ}
    (merged : Merged log (ledger.take size) result) :
    result = log ∨ result <+: ledger := by
  rcases merged with ⟨-, same⟩ | ⟨-, same⟩
  · exact Or.inl same
  · exact Or.inr (same ▸ List.take_prefix size ledger)

/-- Merging a ledger prefix keeps every other prefix of that ledger the log had. -/
theorem Merged.keeps {log incoming result ledger entries : List E}
    (merged : Merged log incoming result) (incomingInside : incoming <+: ledger)
    (inside : entries <+: ledger) (held : entries <+: log) : entries <+: result := by
  rcases merged with ⟨-, rfl⟩ | ⟨conflict, rfl⟩
  · exact held
  · rcases List.prefix_or_prefix_of_prefix inside incomingInside with short | long
    · exact short
    · exact absurd (long.trans held) conflict

theorem Merged.holds {log incoming result : List E} (merged : Merged log incoming result) :
    incoming <+: result := by
  rcases merged with ⟨inside, rfl⟩ | ⟨-, rfl⟩
  · exact inside
  · exact List.prefix_rfl

end Facts

end Consensus.Protocol
