import MiniLsm.Consensus.Invariant

/-! # Every action preserves the protocol invariant

What an action adds to each part of the state is said once, and each layer of
the invariant follows from that. The steps that matter are `grant`, where the
up-to-date check moves a prefix from the voter's log to the candidate's, `win`,
where the quorum of voters meets the quorum that can still choose a prefix, and
`accept`, where a later ledger replaces the log.
-/

namespace Consensus.Protocol

variable {N E : Type} {P : Protocol N E} {s s' : State N E} {n : N}

theorem initial_inv : P.Inv (initial N E) where
  voteTerm := by simp [initial]
  voteStood := by simp [initial]
  stoodVote := by simp [initial]
  stoodPos := by simp [initial]
  stoodTerms := by simp [initial]
  leaderVotes := by simp [initial]
  unled := by simp [initial]
  ledgerTerms := by simp [initial]
  logTerms := by simp [initial]
  ledgerBacked := fun t entries u inside ends => by simp_all [initial]
  logBacked := fun m entries u inside ends => by simp_all [initial]
  stoodBacked := by simp [initial]
  ackedWritten := by simp [initial]
  ackedReached := by simp [initial]
  ackedHeld := by simp [initial]
  later := by simp [initial]
  kept := by
    intro m t entries own short
    have := own.length_pos
    simp only [initial] at short
    omega
  voted := by simp [initial]
  commitHeld := by simp [initial]
  commitDecided := by simp [initial, Decided]

/-- In a term that a node has not reached it has stored nothing. -/
theorem Acks.fresh (acks : Acks s) {m : N} {t : ℕ} (later : s.term m < t) : s.acked m t = 0 := by
  by_contra stored
  exact absurd (acks.ackedReached m t stored) (Nat.not_le_of_lt later)

variable [DecidableEq N]

theorem step_term (step : P.Step n s s') (m : N) : s.term m ≤ s'.term m := by
  cases step with
  | observe t later =>
      by_cases here : m = n
      · subst here; simpa using later.le
      · simp [here]
  | stand =>
      by_cases here : m = n
      · subst here; simp
      · simp [here]
  | grant | win | append | accept | advance | restart => exact le_rfl

/-- A node records a vote only once in a term. -/
theorem step_vote (el : P.Elections s) (step : P.Step n s s') {m : N} {t : ℕ} {c : N}
    (h : s.vote m t = some c) : s'.vote m t = some c := by
  cases step with
  | stand =>
      have reached := el.voteTerm m t c h
      have other : ¬ (m = n ∧ t = s.term n + 1) := by
        rintro ⟨rfl, rfl⟩
        omega
      simpa [record_elsewhere other] using h
  | grant candidate log free stood upToDate =>
      have other : ¬ (m = n ∧ t = s.term n) := by
        rintro ⟨rfl, rfl⟩
        simp [free] at h
      simpa [record_elsewhere other] using h
  | observe | win | append | accept | advance | restart => exact h

theorem step_standing (el : P.Elections s) (step : P.Step n s s') {m : N} {t : ℕ} {log : List E}
    (h : s.standing m t = some log) : s'.standing m t = some log := by
  cases step with
  | stand =>
      have reached := el.voteTerm m t m (el.stoodVote m t log h)
      have other : ¬ (m = n ∧ t = s.term n + 1) := by
        rintro ⟨rfl, rfl⟩
        omega
      simpa [record_elsewhere other] using h
  | observe | grant | win | append | accept | advance | restart => exact h

theorem step_grown (logs : P.Logs s) (step : P.Step n s s') (t : ℕ) :
    s.ledger t <+: s'.ledger t ∧ (s.leader t ≠ none →
      ∃ more, s'.ledger t = s.ledger t ++ more ∧ ∀ e ∈ more, P.termOf e = t) := by
  have still : s.ledger t <+: s.ledger t ∧ (s.leader t ≠ none →
      ∃ more, s.ledger t = s.ledger t ++ more ∧ ∀ e ∈ more, P.termOf e = t) :=
    ⟨List.prefix_rfl, fun _ => ⟨[], by simp⟩⟩
  cases step with
  | win stood vacant elected =>
      by_cases here : t = s.term n
      · subst here
        simp [logs.unled _ vacant, vacant]
      · simp [here]
  | append entry leads same current =>
      by_cases here : t = s.term n
      · subst here
        simp [← same, current]
      · simp [here]
  | observe | stand | grant | accept | advance | restart => exact still

theorem step_acked (step : P.Step n s s') (m : N) (t : ℕ) :
    s.acked m t ≤ s'.acked m t ∧ (s'.acked m t ≤ s.acked m t ∨ s.term m ≤ t) := by
  cases step with
  | accept size result led written merged =>
      by_cases here : m = n ∧ t = s.term n
      · obtain ⟨rfl, rfl⟩ := here
        simp
      · simp [record_elsewhere here]
  | observe | stand | grant | win | append | advance | restart => exact ⟨le_rfl, Or.inl le_rfl⟩

theorem step_extends (inv : P.Inv s) (step : P.Step n s s') : P.Extends s s' where
  term := step_term step
  vote := fun _ _ _ => step_vote inv.toElections step
  standing := fun _ _ _ => step_standing inv.toElections step
  leader := by
    intro t m isLeader
    cases step with
    | win stood vacant elected =>
        have other : t ≠ s.term n := by
          rintro rfl
          simp [vacant] at isLeader
        simpa [other] using isLeader
    | observe | stand | grant | append | accept | advance | restart => exact isLeader
  ledger := fun t => (step_grown inv.toLogs step t).1
  grown := fun t => (step_grown inv.toLogs step t).2
  acked := fun m t => (step_acked step m t).1

theorem step_choosable (step : P.Step n s s') {t size : ℕ} (h : P.Choosable s' t size) :
    P.Choosable s t size :=
  h.anti (step_term step) (fun q => (step_acked step q t).2)

/-! ## What an action adds -/

/-- A new vote is one of a node's current term, for a node that stood. -/
theorem vote_cases (step : P.Step n s s') {m : N} {t : ℕ} {c : N} (h : s'.vote m t = some c) :
    s.vote m t = some c ∨ t ≤ s'.term m ∧ ∃ log, s'.standing c t = some log := by
  cases step with
  | stand =>
      by_cases here : m = n ∧ t = s.term n + 1
      · obtain ⟨rfl, rfl⟩ := here
        obtain rfl : m = c := by simpa using h
        exact Or.inr ⟨by simp, s.log m, by simp⟩
      · exact Or.inl (by simpa [record_elsewhere here] using h)
  | grant candidate log free stood upToDate =>
      by_cases here : m = n ∧ t = s.term n
      · obtain ⟨rfl, rfl⟩ := here
        obtain rfl : candidate = c := by simpa using h
        exact Or.inr ⟨le_rfl, log, stood⟩
      · exact Or.inl (by simpa [record_elsewhere here] using h)
  | observe | win | append | accept | advance | restart => exact Or.inl h

/-- A node stands with its log, for the next term, and votes for itself. -/
theorem standing_cases (step : P.Step n s s') {m : N} {t : ℕ} {log : List E}
    (h : s'.standing m t = some log) :
    s.standing m t = some log ∨ t = s.term m + 1 ∧ log = s.log m ∧ s'.vote m t = some m := by
  cases step with
  | stand =>
      by_cases here : m = n ∧ t = s.term n + 1
      · obtain ⟨rfl, rfl⟩ := here
        exact Or.inr ⟨rfl, by simpa using h.symm, by simp⟩
      · exact Or.inl (by simpa [record_elsewhere here] using h)
  | observe | grant | win | append | accept | advance | restart => exact Or.inl h

theorem leader_cases (step : P.Step n s s') {t : ℕ} {m : N} (h : s'.leader t = some m) :
    s.leader t = some m ∨ P.IsQuorum {v | s'.vote v t = some m} := by
  cases step with
  | win stood vacant elected =>
      by_cases here : t = s.term n
      · subst here
        obtain rfl : n = m := by simpa using h
        exact Or.inr elected
      · exact Or.inl (by simpa [here] using h)
  | observe | stand | grant | append | accept | advance | restart => exact Or.inl h

/-- Only the leader of its current term writes a ledger, and keeps it as its log. -/
theorem ledger_cases (step : P.Step n s s') (t : ℕ) :
    s'.ledger t = s.ledger t ∨
      s'.leader t ≠ none ∧ s'.term n = t ∧ s'.ledger t = s'.log n := by
  cases step with
  | win stood vacant elected =>
      by_cases here : t = s.term n
      · subst here
        exact Or.inr ⟨by simp, rfl, by simp⟩
      · exact Or.inl (by simp [here])
  | append entry leads same current =>
      by_cases here : t = s.term n
      · subst here
        exact Or.inr ⟨by simp [leads], rfl, by simp⟩
      · exact Or.inl (by simp [here])
  | observe | stand | grant | accept | advance | restart => exact Or.inl rfl

/-- A log changes to what is in the ledger of the current term, or grows by an
    entry that goes into the ledger, too. -/
theorem log_cases (step : P.Step n s s') (m : N) :
    s'.log m = s.log m ∨ s'.log m <+: s.ledger (s.term m) ∨
      ∃ entry, P.termOf entry = s.term m ∧ s'.log m = s.log m ++ [entry] ∧
        s'.ledger (s.term m) = s'.log m := by
  cases step with
  | append entry leads same current =>
      by_cases here : m = n
      · subst here
        exact Or.inr (Or.inr ⟨entry, current, by simp, by simp⟩)
      · exact Or.inl (by simp [here])
  | accept size result led written merged =>
      by_cases here : m = n
      · subst here
        simp only [Function.update_self]
        exact (merged_cases merged).imp id Or.inl
      · exact Or.inl (by simp [here])
  | observe | stand | grant | win | advance | restart => exact Or.inl rfl

/-- A node stores a written prefix of the ledger of its term; while it stores
    nothing, its log grows at most. -/
theorem acked_cases (step : P.Step n s s') (m : N) :
    (∀ t, s'.acked m t = s.acked m t) ∧ s.log m <+: s'.log m ∨
      ∃ size, (∀ t, t ≠ s.term m → s'.acked m t = s.acked m t) ∧
        s'.acked m (s.term m) = max (s.acked m (s.term m)) size ∧ s'.term m = s.term m ∧
        s'.ledger = s.ledger ∧ size ≤ (s.ledger (s.term m)).length ∧
        Merged (s.log m) ((s.ledger (s.term m)).take size) (s'.log m) := by
  cases step with
  | append entry leads same current =>
      by_cases here : m = n
      · subst here
        exact Or.inl ⟨fun t => rfl, by simp⟩
      · exact Or.inl ⟨fun t => rfl, by simp [here]⟩
  | accept size result led written merged =>
      by_cases here : m = n
      · subst here
        refine Or.inr ⟨size, fun t other => ?_, by simp, rfl, rfl, written, by simpa using merged⟩
        exact record_elsewhere (fun at_ => other at_.2)
      · refine Or.inl ⟨fun t => ?_, by simp [here]⟩
        exact record_elsewhere (fun at_ => here at_.1)
  | observe | stand | grant | win | advance | restart =>
      exact Or.inl ⟨fun t => rfl, List.prefix_rfl⟩

/-! ## The layers of the invariant -/

theorem elections_step (inv : P.Inv s) (step : P.Step n s s') : P.Elections s' where
  voteTerm := by
    intro m t c h
    cases vote_cases step h with
    | inl old => exact (inv.voteTerm m t c old).trans (step_term step m)
    | inr new => exact new.1
  voteStood := by
    intro m t c h
    cases vote_cases step h with
    | inl old =>
        obtain ⟨log, stood⟩ := inv.voteStood m t c old
        exact ⟨log, (step_extends inv step).standing c t log stood⟩
    | inr new => exact new.2
  stoodVote := by
    intro m t log h
    cases standing_cases step h with
    | inl old => exact (step_extends inv step).vote m t m (inv.stoodVote m t log old)
    | inr new => exact new.2.2
  stoodPos := by
    intro m t log h
    cases standing_cases step h with
    | inl old => exact inv.stoodPos m t log old
    | inr new =>
        rw [new.1]
        exact Nat.succ_pos _
  stoodTerms := by
    intro m t log h e member
    cases standing_cases step h with
    | inl old => exact inv.stoodTerms m t log old e member
    | inr new =>
        obtain ⟨next, same, -⟩ := new
        rw [same] at member
        rw [next]
        exact Nat.lt_succ_of_le (inv.logTerms m e member)
  leaderVotes := by
    intro t m h
    cases leader_cases step h with
    | inl old =>
        exact P.grow (fun v => (step_extends inv step).vote v t m) (inv.leaderVotes t m old)
    | inr elected => exact elected

theorem logTerms_step (inv : P.Inv s) (step : P.Step n s s') (m : N) {e : E}
    (member : e ∈ s'.log m) : P.termOf e ≤ s'.term m := by
  apply le_trans _ (step_term step m)
  rcases log_cases step m with same | inside | ⟨entry, current, grown, -⟩
  · rw [same] at member
    exact inv.logTerms m e member
  · exact inv.ledgerTerms _ e (inside.subset member)
  · rw [grown, List.mem_append, List.mem_singleton] at member
    cases member with
    | inl old => exact inv.logTerms m e old
    | inr new => rw [new, current]

theorem logBacked_step (inv : P.Inv s) (step : P.Step n s s') (m : N) : P.Backed s' (s'.log m) := by
  have ext := step_extends inv step
  have old := (inv.logBacked m).mono ext.ledger
  rcases log_cases step m with same | inside | ⟨entry, current, grown, written⟩
  · rw [same]
    exact old
  · exact ((inv.ledgerBacked _).mono ext.ledger).cut inside
  · intro entries t front ends
    rw [grown] at front
    cases List.prefix_concat_iff.mp front with
    | inl whole =>
        subst whole
        obtain rfl : s.term m = t := by simpa [current] using ends
        rw [written, grown]
    | inr short => exact old entries t short ends

theorem logs_step (inv : P.Inv s) (step : P.Step n s s') : P.Logs s' where
  unled := by
    intro t open_
    cases ledger_cases step t with
    | inl same =>
        rw [same]
        apply inv.unled t
        apply Option.eq_none_iff_forall_ne_some.mpr
        intro m isLeader
        rw [(step_extends inv step).leader t m isLeader] at open_
        cases open_
    | inr written => exact absurd open_ written.1
  ledgerTerms := by
    intro t e member
    cases ledger_cases step t with
    | inl same =>
        rw [same] at member
        exact inv.ledgerTerms t e member
    | inr new =>
        obtain ⟨-, current, written⟩ := new
        rw [written] at member
        exact current ▸ logTerms_step inv step n member
  logTerms := fun m e => logTerms_step inv step m
  ledgerBacked := by
    intro t
    cases ledger_cases step t with
    | inl same =>
        rw [same]
        exact (inv.ledgerBacked t).mono (step_extends inv step).ledger
    | inr written =>
        rw [written.2.2]
        exact logBacked_step inv step n
  logBacked := logBacked_step inv step
  stoodBacked := by
    intro m t log h
    cases standing_cases step h with
    | inl old => exact (inv.stoodBacked m t log old).mono (step_extends inv step).ledger
    | inr new =>
        rw [new.2.1]
        exact (inv.logBacked m).mono (step_extends inv step).ledger

theorem ackedHeld_step (inv : P.Inv s) (step : P.Step n s s') (m : N) :
    (s'.ledger (s'.term m)).take (s'.acked m (s'.term m)) <+: s'.log m := by
  have held := inv.ackedHeld m
  rcases acked_cases step m with ⟨same, grows⟩ | ⟨size, -, stored, current, ledger, -, merged⟩
  · cases Nat.lt_or_eq_of_le (step_term step m) with
    | inl later =>
        rw [same, inv.toAcks.fresh later, List.take_zero]
        exact List.nil_prefix
    | inr current =>
        -- what is added to a ledger stands behind what was stored of it
        have short : (s'.ledger (s.term m)).take (s.acked m (s.term m)) =
            (s.ledger (s.term m)).take (s.acked m (s.term m)) := by
          obtain ⟨more, longer⟩ := (step_extends inv step).ledger (s.term m)
          rw [← longer, List.take_append_of_le_length (inv.ackedWritten m _)]
        rw [same, ← current, short]
        exact held.trans grows
  · rw [ledger, current, stored]
    cases le_total (s.acked m (s.term m)) size with
    | inl le =>
        rw [max_eq_right le]
        exact merged.holds
    | inr le =>
        rw [max_eq_left le]
        exact merged.keeps (List.take_prefix _ _) (List.take_prefix _ _) held

theorem acks_step (inv : P.Inv s) (step : P.Step n s s') : Acks s' where
  ackedWritten := by
    intro m t
    have old := (inv.ackedWritten m t).trans ((step_extends inv step).ledger t).length_le
    rcases acked_cases step m with ⟨same, -⟩ | ⟨size, elsewhere, stored, -, ledger, written, -⟩
    · rw [same]
      exact old
    · by_cases here : t = s.term m
      · rw [here, stored, ledger]
        exact max_le (inv.ackedWritten m _) written
      · rw [elsewhere t here]
        exact old
  ackedReached := by
    intro m t stored
    have reached := step_term step m
    rcases acked_cases step m with ⟨same, -⟩ | ⟨size, elsewhere, -⟩
    · rw [same] at stored
      exact (inv.ackedReached m t stored).trans reached
    · by_cases here : t = s.term m
      · rw [here]
        exact reached
      · rw [elsewhere t here] at stored
        exact (inv.ackedReached m t stored).trans reached
  ackedHeld := ackedHeld_step inv step

/-- A stored prefix that ends in an entry of its term was there before: a leader
    that has just won has written nothing, and nobody has stored what a leader
    has just written. -/
theorem step_own (inv : P.Inv s) (step : P.Step n s s') {q : N} {t : ℕ} {entries : List E}
    (own : P.Own s' t entries) (stored : entries.length ≤ s.acked q t) : P.Own s t entries := by
  have positive := own.length_pos
  have written := inv.ackedWritten q t
  cases step with
  | observe | stand | grant | accept | advance | restart => exact ⟨own.inLedger, own.ends⟩
  | win stood vacant elected =>
      by_cases here : t = s.term n
      · subst here
        rw [inv.unled _ vacant, List.length_nil] at written
        omega
      · exact ⟨by simpa [here] using own.inLedger, own.ends⟩
  | append entry leads same current =>
      by_cases here : t = s.term n
      · subst here
        have inside : entries <+: s.log n ++ [entry] := by simpa using own.inLedger
        rcases List.prefix_concat_iff.mp inside with rfl | short
        · rw [List.length_append, same, List.length_singleton] at stored
          omega
        · exact ⟨same ▸ short, own.ends⟩
      · exact ⟨by simpa [here] using own.inLedger, own.ends⟩

/-- What is stored after an action was stored before, or is stored now under the
    leader of the current term. -/
theorem step_stored (step : P.Step n s s') {m : N} {t size : ℕ} (stored : size ≤ s'.acked m t) :
    size ≤ s.acked m t ∨ t = s.term m ∧ s'.vote = s.vote ∧ s'.ledger = s.ledger ∧
      (s.ledger t).take size <+: s'.log m := by
  cases step with
  | observe | stand | grant | win | append | advance | restart => exact Or.inl stored
  | accept accepted result led written merged =>
      by_cases here : m = n ∧ t = s.term n
      · obtain ⟨rfl, rfl⟩ := here
        rcases le_max_iff.mp (by simpa using stored) with old | new
        · exact Or.inl old
        · refine Or.inr ⟨rfl, rfl, rfl, ?_⟩
          have taken : (s.ledger (s.term m)).take size <+: (s.ledger (s.term m)).take accepted :=
            List.take_prefix_take_left new
          simpa using taken.trans merged.holds
      · exact Or.inl (by simpa [record_elsewhere here] using stored)

/-- A prefix that can still be chosen is in the ledger of every later leader: its
    voters meet the nodes that can choose it. -/
theorem later_step (inv : P.Inv s) (step : P.Step n s s') {t u : ℕ} {entries : List E}
    (led : s'.leader u ≠ none) (early : t < u) (own : P.Own s' t entries)
    (choosable : P.Choosable s t entries.length) : entries <+: s'.ledger u := by
  by_cases before : s.leader u = none
  · cases step with
    | observe | stand | grant | append | accept | advance | restart => exact absurd before led
    | win stood vacant elected =>
        have here : u = s.term n := by
          by_contra other
          exact led (by simpa [other] using before)
        subst here
        obtain ⟨q, votedFor, stored | open_⟩ := P.meet elected choosable
        · have old := step_own inv (.win stood vacant elected) own stored
          simpa using inv.voted q n t _ _ entries votedFor stood early old stored choosable
        · have := inv.voteTerm q _ n votedFor
          omega
  · obtain ⟨q, c, votedFor, isLeader, stored⟩ := inv.toElections.reached before choosable early
    have carried := inv.later t u entries before early (step_own inv step own stored) choosable
    exact carried.trans ((step_extends inv step).ledger u)

/-- The node that stored a prefix that can still be chosen keeps it. -/
theorem kept_step (inv : P.Inv s) (step : P.Step n s s') {m : N} {t : ℕ} {entries : List E}
    (own : P.Own s t entries) (stored : entries.length ≤ s.acked m t)
    (choosable : P.Choosable s t entries.length) : entries <+: s'.log m := by
  have held := inv.kept m t entries own stored choosable
  cases step with
  | observe | stand | grant | win | advance | restart => exact held
  | append entry leads same current =>
      by_cases here : m = n
      · subst here
        simpa using held.trans ⟨[entry], rfl⟩
      · simpa [here] using held
  | accept size result led written merged =>
      by_cases here : m = n
      · subst here
        have positive := own.length_pos
        have reached := inv.ackedReached m t (by omega)
        have inLedger : entries <+: s.ledger (s.term m) := by
          rcases Nat.lt_or_eq_of_le reached with before | rfl
          · exact inv.later t (s.term m) entries led before own choosable
          · exact own.inLedger
        simpa using merged.keeps (List.take_prefix _ _) inLedger held
      · simpa [here] using held

/-- Who stored a prefix that can still be chosen votes only for candidates that
    have it. -/
theorem voted_step (inv : P.Inv s) (step : P.Step n s s') {m c : N} {t u : ℕ}
    {log entries : List E} (vote : s'.vote m u = some c) (stood : s'.standing c u = some log)
    (early : t < u) (own : P.Own s t entries) (stored : entries.length ≤ s.acked m t)
    (choosable : P.Choosable s t entries.length) : entries <+: log := by
  cases step with
  | observe | win | append | accept | advance | restart =>
      exact inv.voted m c t u log entries vote stood early own stored choosable
  | stand =>
      by_cases here : m = n ∧ u = s.term n + 1
      · -- the candidate's own vote: it stood with the log it has
        obtain ⟨rfl, rfl⟩ := here
        obtain rfl : m = c := by simpa using vote
        obtain rfl : s.log m = log := by simpa using stood
        exact inv.kept m t entries own stored choosable
      · have vote : s.vote m u = some c := by simpa [record_elsewhere here] using vote
        obtain ⟨oldLog, oldStood⟩ := inv.voteStood m u c vote
        have reached := inv.voteTerm c u c (inv.stoodVote c u oldLog oldStood)
        have other : ¬ (c = n ∧ u = s.term n + 1) := by
          rintro ⟨rfl, rfl⟩
          omega
        exact inv.voted m c t u log entries vote (by simpa [record_elsewhere other] using stood)
          early own stored choosable
  | grant candidate standing free isStanding upToDate =>
      by_cases here : m = n ∧ u = s.term n
      · obtain ⟨rfl, rfl⟩ := here
        obtain rfl : candidate = c := by simpa using vote
        obtain rfl : standing = log := by
          rw [isStanding] at stood
          exact Option.some.inj stood
        exact upToDate_carries inv (inv.logBacked m) (inv.stoodBacked _ _ _ isStanding)
          (inv.stoodTerms _ _ _ isStanding) upToDate own choosable
          (inv.kept m t entries own stored choosable)
      · exact inv.voted m c t u log entries (by simpa [record_elsewhere here] using vote)
          stood early own stored choosable

theorem completeness_step (inv : P.Inv s) (step : P.Step n s s') : P.Completeness s' where
  later := fun t u entries led early own choosable =>
    later_step inv step led early own (step_choosable step choosable)
  kept := by
    intro m t entries own stored choosable
    rcases step_stored step stored with old | ⟨rfl, -, same, now⟩
    · exact kept_step inv step (step_own inv step own old) old (step_choosable step choosable)
    · have whole := List.prefix_iff_eq_take.mp own.inLedger
      rwa [← same, ← whole] at now
  voted := by
    intro m c t u log entries vote stood early own stored choosable
    rcases step_stored step stored with old | ⟨rfl, same, -⟩
    · exact voted_step inv step vote stood early (step_own inv step own old) old
        (step_choosable step choosable)
    · -- who votes in a later term has left the one in which it could store
      have := inv.voteTerm m u c (same ▸ vote)
      omega

/-- No action changes an entry that a node counts as chosen. -/
theorem committed_kept (inv : P.Inv s) (step : P.Step n s s') (m : N) :
    (s.log m).take (s.commit m) <+: s'.log m := by
  have held : (s.log m).take (s.commit m) <+: s.log m := List.take_prefix _ _
  cases step with
  | append entry leads same current =>
      by_cases here : m = n
      · subst here
        simpa using held.trans ⟨[entry], rfl⟩
      · simpa [here] using held
  | accept size result led written merged =>
      by_cases here : m = n
      · subst here
        simpa using merged.keeps (List.take_prefix _ _)
          ((inv.commitDecided m).inLedger inv led) held
      · simpa [here] using held
  | observe | stand | grant | win | advance | restart => exact held

/-- What a node counts as chosen stays, is forgotten, or is decided. -/
theorem commit_cases (step : P.Step n s s') (m : N) :
    s'.commit m = s.commit m ∨ s'.commit m = 0 ∨
      s'.commit m ≤ (s'.log m).length ∧
        P.Decided s (s'.term m) ((s'.log m).take (s'.commit m)) := by
  cases step with
  | advance size further held decided =>
      by_cases here : m = n
      · subst here
        exact Or.inr (Or.inr (by simpa using ⟨held, decided⟩))
      · exact Or.inl (by simp [here])
  | restart =>
      by_cases here : m = n
      · subst here
        exact Or.inr (Or.inl (by simp))
      · exact Or.inl (by simp [here])
  | observe | stand | grant | win | append | accept => exact Or.inl rfl

theorem commits_step (inv : P.Inv s) (step : P.Step n s s') : P.Commits s' := by
  have ext := step_extends inv step
  have kept := committed_kept inv step
  have full : ∀ m, ((s.log m).take (s.commit m)).length = s.commit m := fun m => by
    simpa using inv.commitHeld m
  constructor
  · intro m
    rcases commit_cases step m with same | forgotten | ⟨held, -⟩
    · rw [same]
      exact (full m).symm.le.trans (kept m).length_le
    · rw [forgotten]
      exact Nat.zero_le _
    · exact held
  · intro m
    rcases commit_cases step m with same | forgotten | ⟨-, decided⟩
    · have front := List.prefix_iff_eq_take.mp (kept m)
      rw [full m] at front
      rw [same, ← front]
      exact (inv.commitDecided m).mono ext (ext.term m)
    · rw [forgotten]
      exact Or.inl rfl
    · exact decided.mono ext le_rfl

theorem inv_step (inv : P.Inv s) (step : P.Step n s s') : P.Inv s' where
  toElections := elections_step inv step
  toLogs := logs_step inv step
  toAcks := acks_step inv step
  toCompleteness := completeness_step inv step
  toCommits := commits_step inv step

end Consensus.Protocol
