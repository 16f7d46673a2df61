import Mathlib.Data.List.Induction

/-! # Runs of a machine

A machine is a start state and a step function, a run is a list of events. What
a run is allowed to do is said about its prefixes: at each event, the state in
which it happens.
-/

namespace MiniLsm

variable {S E : Type*}

/-- An invariant of a run: it holds at the start, and every step of this run
    keeps it. -/
theorem run_invariant (next : S → E → S) (start : S) (I : S → Prop) {events : List E}
    (initial : I start)
    (step : ∀ before e, before ++ [e] <+: events → I (before.foldl next start) →
      I (next (before.foldl next start) e)) :
    I (events.foldl next start) := by
  induction events using List.reverseRecOn with
  | nil => exact initial
  | append_singleton events e ih =>
      have earlier := ih fun before e inside => step before e (inside.trans (List.prefix_append _ _))
      rw [List.foldl_append]
      exact step events e List.prefix_rfl earlier

/-- The event of a step is one of the run. -/
theorem mem_of_step {before events : List E} {e : E} (inside : before ++ [e] <+: events) :
    e ∈ events :=
  inside.subset (by simp)

/-- The state of a step belongs to a shorter run. -/
theorem before_step {before events : List E} {e : E} (inside : before ++ [e] <+: events) :
    before <+: events :=
  (List.prefix_append _ _).trans inside

/-- The steps of a run, by number. -/
theorem forall_steps (events : List E) (P : List E → E → Prop)
    (h : ∀ i < events.length, ∀ e ∈ events[i]?, P (events.take i) e) :
    ∀ before e, before ++ [e] <+: events → P before e := by
  rintro before e ⟨later, rfl⟩
  have step := h before.length (by simp) e (by simp)
  rwa [List.append_assoc, List.take_left] at step

/-! ## Machines that answer -/

section Answers

variable {S' O : Type*}

/-- The answers to events one after the other, and the state after them. -/
def answers (next : S → E → O × S) (s : S) : List E → List O × S
  | [] => ([], s)
  | e :: later => ((next s e).1 :: (answers next (next s e).2 later).1,
      (answers next (next s e).2 later).2)

theorem answers_concat (next : S → E → O × S) (s : S) (events : List E) (e : E) :
    answers next s (events ++ [e]) =
      ((answers next s events).1 ++ [(next (answers next s events).2 e).1],
        (next (answers next s events).2 e).2) := by
  induction events generalizing s with
  | nil => rfl
  | cons first later ih => simp only [List.cons_append, answers, ih]

/-- A machine that follows another one step by step gives the same answers. -/
theorem answers_sim (next : S → E → O × S) (next' : S' → E → O × S') {start : S} {start' : S'}
    {events : List E} (R : S → S' → Prop) (initial : R start start')
    (step : ∀ before e, before ++ [e] <+: events →
      R (answers next start before).2 (answers next' start' before).2 →
      (next (answers next start before).2 e).1 = (next' (answers next' start' before).2 e).1 ∧
        R (next (answers next start before).2 e).2 (next' (answers next' start' before).2 e).2) :
    (answers next start events).1 = (answers next' start' events).1 ∧
      R (answers next start events).2 (answers next' start' events).2 := by
  induction events using List.reverseRecOn with
  | nil => exact ⟨rfl, initial⟩
  | append_singleton events e ih =>
      obtain ⟨same, related⟩ :=
        ih fun before e inside => step before e (inside.trans (List.prefix_append _ _))
      obtain ⟨answer, related'⟩ := step events e List.prefix_rfl related
      rw [answers_concat, answers_concat, same, answer]
      exact ⟨rfl, related'⟩

end Answers

end MiniLsm
