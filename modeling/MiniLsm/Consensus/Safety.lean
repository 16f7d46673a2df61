import MiniLsm.Consensus.Preservation

/-! # What every run of the protocol guarantees

The invariant holds along runs, the history only grows, and an action of one
node leaves the others alone. From these follow the statements an
implementation wants: decided prefixes are comparable, and every later leader
holds them, at whatever two moments of a run they are looked at.
-/

namespace Consensus.Protocol

variable {N E : Type} [DecidableEq N] {P : Protocol N E} {s s' : State N E} {n : N}

variable (P) in
/-- Any number of actions of one node, none of which forgets a chosen entry. -/
def Acts (n : N) : State N E → State N E → Prop :=
  Relation.ReflTransGen (fun s s' => P.Step n s s' ∧ s.commit n ≤ s'.commit n)

theorem Acts.refl (s : State N E) : P.Acts n s s := Relation.ReflTransGen.refl

theorem Acts.trans {s'' : State N E} (h : P.Acts n s s') (h' : P.Acts n s' s'') :
    P.Acts n s s'' :=
  Relation.ReflTransGen.trans h h'

theorem Acts.single (step : P.Step n s s') (keeps : s.commit n ≤ s'.commit n) : P.Acts n s s' :=
  Relation.ReflTransGen.single ⟨step, keeps⟩

/-- What an action of `n` leaves unchanged: the local state and the past votes
    of every other node, and the terms the others lead. -/
structure Frame (n : N) (s s' : State N E) : Prop where
  term : ∀ m, m ≠ n → s'.term m = s.term m
  log : ∀ m, m ≠ n → s'.log m = s.log m
  commit : ∀ m, m ≠ n → s'.commit m = s.commit m
  vote : ∀ m t, m ≠ n → s'.vote m t = s.vote m t
  standing : ∀ m t, m ≠ n → s'.standing m t = s.standing m t
  leader : ∀ m t, m ≠ n → (s'.leader t = some m ↔ s.leader t = some m)
  ledger : ∀ m t, m ≠ n → s.leader t = some m → s'.ledger t = s.ledger t

omit [DecidableEq N] in
theorem Frame.refl (n : N) (s : State N E) : Frame n s s where
  term := fun _ _ => rfl
  log := fun _ _ => rfl
  commit := fun _ _ => rfl
  vote := fun _ _ _ => rfl
  standing := fun _ _ _ => rfl
  leader := fun _ _ _ => Iff.rfl
  ledger := fun _ _ _ _ => rfl

omit [DecidableEq N] in
theorem Frame.trans {s'' : State N E} (h : Frame n s s') (h' : Frame n s' s'') :
    Frame n s s'' where
  term := fun m other => (h'.term m other).trans (h.term m other)
  log := fun m other => (h'.log m other).trans (h.log m other)
  commit := fun m other => (h'.commit m other).trans (h.commit m other)
  vote := fun m t other => (h'.vote m t other).trans (h.vote m t other)
  standing := fun m t other => (h'.standing m t other).trans (h.standing m t other)
  leader := fun m t other => (h'.leader m t other).trans (h.leader m t other)
  ledger := fun m t other led =>
    (h'.ledger m t other ((h.leader m t other).mpr led)).trans (h.ledger m t other led)

theorem step_frame (step : P.Step n s s') : Frame n s s' := by
  cases step with
  | observe t later => exact { Frame.refl n s with term := fun m other => by simp [other] }
  | stand => exact
      { Frame.refl n s with
        term := fun m other => by simp [other]
        vote := fun m t other => record_elsewhere (by simp [other])
        standing := fun m t other => record_elsewhere (by simp [other]) }
  | grant candidate log free stood upToDate => exact
      { Frame.refl n s with vote := fun m t other => record_elsewhere (by simp [other]) }
  | win stood vacant elected => exact
      { Frame.refl n s with
        leader := by
          intro m t other
          by_cases here : t = s.term n
          · subst here
            simp [vacant, Ne.symm other]
          · simp [here]
        ledger := by
          intro m t other led
          have elsewhere : t ≠ s.term n := by
            rintro rfl
            simp [vacant] at led
          simp [elsewhere] }
  | append entry leads same current => exact
      { Frame.refl n s with
        log := fun m other => by simp [other]
        ledger := by
          intro m t other led
          have elsewhere : t ≠ s.term n := by
            rintro rfl
            rw [leads] at led
            exact other (Option.some.inj led).symm
          simp [elsewhere] }
  | accept size result led written merged => exact
      { Frame.refl n s with log := fun m other => by simp [other] }
  | advance size further held decided => exact
      { Frame.refl n s with commit := fun m other => by simp [other] }
  | restart => exact { Frame.refl n s with commit := fun m other => by simp [other] }

/-- What a node counts as chosen only grows, and stays in its log. -/
structure Kept (m : N) (s s' : State N E) : Prop where
  commit : s.commit m ≤ s'.commit m
  log : (s.log m).take (s.commit m) <+: s'.log m

omit [DecidableEq N] in
theorem Kept.refl (m : N) (s : State N E) : Kept m s s where
  commit := le_rfl
  log := List.take_prefix _ _

omit [DecidableEq N] in
theorem Kept.trans {m : N} {s'' : State N E} (h : Kept m s s') (h' : Kept m s' s'') :
    Kept m s s'' where
  commit := h.commit.trans h'.commit
  log := by
    have short : ((s.log m).take (s.commit m)).length ≤ s'.commit m :=
      (List.length_take_le _ _).trans h.commit
    exact (List.prefix_take_iff.mpr ⟨h.log, short⟩).trans h'.log

theorem step_kept (inv : P.Inv s) (step : P.Step n s s') {m : N}
    (keeps : m = n → s.commit m ≤ s'.commit m) : Kept m s s' where
  commit := by
    by_cases here : m = n
    · exact keeps here
    · exact ((step_frame step).commit m here).ge
  log := committed_kept inv step m

/-- The invariant, the growth of the history and the frame along the actions
    of one node. -/
theorem acts_sound (inv : P.Inv s) (acts : P.Acts n s s') :
    P.Inv s' ∧ P.Extends s s' ∧ Frame n s s' ∧ ∀ m, Kept m s s' := by
  induction acts with
  | refl => exact ⟨inv, Extends.refl s, Frame.refl n s, fun m => Kept.refl m s⟩
  | tail _ action ih =>
      obtain ⟨inv', ext, frame, kept⟩ := ih
      obtain ⟨step, keeps⟩ := action
      refine ⟨inv_step inv' step, ext.trans (step_extends inv' step),
        frame.trans (step_frame step), fun m => (kept m).trans (step_kept inv' step ?_)⟩
      rintro rfl
      exact keeps

omit [DecidableEq N] in
/-- A quorum of votes in a term decides who can lead it. -/
theorem leader_of_votes (inv : P.Inv s) {t : ℕ} {m : N} (led : s.leader t = some m)
    (votes : P.IsQuorum {v | s.vote v t = some n}) : m = n := by
  obtain ⟨v, forM, forN⟩ := P.meet (inv.leaderVotes t m led) votes
  have forM : s.vote v t = some m := forM
  have forN : s.vote v t = some n := forN
  rw [forM] at forN
  exact Option.some.inj forN

omit [DecidableEq N] in
theorem leader_pos (inv : P.Inv s) {t : ℕ} (led : s.leader t ≠ none) : 0 < t := by
  obtain ⟨m, isLeader⟩ := Option.ne_none_iff_exists'.mp led
  have votes := inv.leaderVotes t m isLeader
  obtain ⟨v, forM, -⟩ := P.meet votes votes
  obtain ⟨log, stood⟩ := inv.voteStood v t m forM
  exact inv.stoodPos m t log stood

omit [DecidableEq N] in
/-- Entries were created in a term that had a leader. -/
theorem Backed.term_pos (inv : P.Inv s) {log : List E} (h : P.Backed s log) {e : E}
    (member : e ∈ log) : 0 < P.termOf e := by
  obtain ⟨before, -, inLedger⟩ := h.upto member
  refine leader_pos inv (fun none => ?_)
  rw [inv.unled _ none] at inLedger
  simp at inLedger

omit [DecidableEq N] in
/-- Log matching: two backed logs with an entry of one term at one position
    agree up to that position. -/
theorem Backed.matching {left right : List E} (hl : P.Backed s left) (hr : P.Backed s right)
    {i : ℕ} (inLeft : i < left.length) (inRight : i < right.length)
    (sameTerm : P.termOf left[i] = P.termOf right[i]) :
    left.take (i + 1) = right.take (i + 1) := by
  have leftTip : P.tip (left.take (i + 1)) = some (P.termOf left[i]) := by
    rw [← List.take_concat_get' _ _ inLeft, tip_concat]
  have rightTip : P.tip (right.take (i + 1)) = some (P.termOf left[i]) := by
    rw [← List.take_concat_get' _ _ inRight, tip_concat, sameTerm]
  have leftInside := hl _ _ (List.take_prefix _ _) leftTip
  have rightInside := hr _ _ (List.take_prefix _ _) rightTip
  have sameLength : (left.take (i + 1)).length = (right.take (i + 1)).length := by
    simp only [List.length_take]
    omega
  exact (List.prefix_of_prefix_length_le leftInside rightInside sameLength.le).eq_of_length
    sameLength

omit [DecidableEq N] in
/-- Two decided prefixes never disagree. -/
theorem decided_comparable (inv : P.Inv s) {b b' : ℕ} {left right : List E}
    (hl : P.Decided s b left) (hr : P.Decided s b' right) : left <+: right ∨ right <+: left := by
  rcases hl with rfl | ⟨t, chosen, isChosen, -, inside⟩
  · exact Or.inl List.nil_prefix
  rcases hr with rfl | ⟨t', chosen', isChosen', -, inside'⟩
  · exact Or.inr List.nil_prefix
  have led : ∀ {u entries}, P.Chosen s u entries → s.leader u ≠ none := by
    intro u entries h none
    have := h.inLedger
    rw [inv.unled u none] at this
    exact h.ne_nil (List.prefix_nil.mp this)
  -- both lie in the ledger of the later of the two terms
  have common : ∃ ledger, left <+: ledger ∧ right <+: ledger := by
    rcases le_total t t' with early | early
    · exact ⟨s.ledger t',
        Decided.inLedger inv (led isChosen') (Or.inr ⟨t, chosen, isChosen, early, inside⟩),
        inside'.trans isChosen'.inLedger⟩
    · exact ⟨s.ledger t, inside.trans isChosen.inLedger,
        Decided.inLedger inv (led isChosen) (Or.inr ⟨t', chosen', isChosen', early, inside'⟩)⟩
  obtain ⟨ledger, leftInside, rightInside⟩ := common
  exact List.prefix_or_prefix_of_prefix leftInside rightInside

omit [DecidableEq N] in
/-- Leader completeness looked at from two moments: a prefix decided by term
    `t` at the later moment was already in the ledger of any later term that
    had a leader at the earlier one. -/
theorem ledger_complete (inv : P.Inv s') (ext : P.Extends s s') {t u : ℕ} {entries : List E}
    (decided : P.Decided s' t entries) (early : t < u) (led : s.leader u ≠ none) :
    entries <+: s.ledger u := by
  obtain ⟨m, isLeader⟩ := Option.ne_none_iff_exists'.mp led
  have led' : s'.leader u ≠ none := by simp [ext.leader u m isLeader]
  obtain ⟨more, grown, own⟩ := ext.grown u led
  have bound : ∀ e ∈ entries, P.termOf e ≤ t := by
    intro e member
    rcases decided with rfl | ⟨v, chosen, isChosen, le, inside⟩
    · simp at member
    · exact (isChosen.toOwn.terms_le inv.toLogs e (inside.subset member)).trans le
  have inside : entries <+: s'.ledger u := by
    rcases decided with rfl | ⟨v, chosen, isChosen, le, inside⟩
    · exact List.nil_prefix
    · exact inside.trans (inv.later v u chosen led' (by omega) isChosen.toOwn isChosen.choosable)
  -- whatever the later leader added has its own term, and `entries` has none of it
  rw [grown] at inside
  rcases List.prefix_or_prefix_of_prefix inside (List.prefix_append _ more) with short | long
  · exact short
  · obtain ⟨extra, rfl⟩ := long
    cases extra with
    | nil => simp
    | cons e rest =>
        have inMore : e :: rest <+: more := (List.prefix_append_right_inj _).mp inside
        have isLate := own e (inMore.subset (by simp))
        have isEarly := bound e (by simp)
        omega

end Consensus.Protocol
