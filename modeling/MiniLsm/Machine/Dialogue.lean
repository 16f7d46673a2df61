import Mathlib.Tactic.TypeStar

/-! # Programs that call an object

A program that makes calls and goes on as they are answered runs against any
object that answers them. How two objects compare over single calls is then how
they compare over whole runs, whatever the program is.
-/

namespace MiniLsm

/-- A program that makes calls `Q` with answers `A`, and its result. -/
inductive Dialogue (Q A : Type) (α : Type) where
  | done (result : α)
  | call (question : Q) (next : A → Dialogue Q A α)

namespace Dialogue

variable {Q A α β C D : Type}

def bind : Dialogue Q A α → (α → Dialogue Q A β) → Dialogue Q A β
  | .done result, f => f result
  | .call question next, f => .call question fun answer => (next answer).bind f

instance : Monad (Dialogue Q A) where
  pure := .done
  bind := bind

/-- A single call. -/
def ask (question : Q) : Dialogue Q A A := .call question .done

/-- Run a program against an object. -/
def run (serve : C → Q → A × C) : Dialogue Q A α → C → α × C
  | .done result, c => (result, c)
  | .call question next, c => (next (serve c question).1).run serve (serve c question).2

section Equations

variable (serve : C → Q → A × C) (c : C)

@[simp] theorem run_pure (result : α) :
    (pure result : Dialogue Q A α).run serve c = (result, c) := rfl

@[simp] theorem run_ask (question : Q) : (ask question).run serve c = serve c question := by
  rw [ask, run, run]

@[simp] theorem run_bind (p : Dialogue Q A α) (f : α → Dialogue Q A β) :
    (p >>= f).run serve c = (f (p.run serve c).1).run serve (p.run serve c).2 := by
  change (p.bind f).run serve c = _
  induction p generalizing c with
  | done result => rfl
  | call question next ih => exact ih _ _

/-- A test of the program's own data is a test of its runs. -/
theorem run_ite (test : Prop) [Decidable test] (p q : Dialogue Q A α) :
    (if test then p else q).run serve c = if test then p.run serve c else q.run serve c :=
  apply_ite (fun p => p.run serve c) test p q

end Equations

section Simulation

variable {serve : C → Q → A × C} {serve' : D → Q → A × D} {R : C → D → Prop}

/-- An object that gives the same answers step by step does so in every run. -/
theorem run_forward
    (step : ∀ c d question, R c d → (serve' d question).1 = (serve c question).1 ∧
      R (serve c question).2 (serve' d question).2) (p : Dialogue Q A α) {c : C} {d : D}
    (start : R c d) :
    (p.run serve' d).1 = (p.run serve c).1 ∧ R (p.run serve c).2 (p.run serve' d).2 := by
  induction p generalizing c d with
  | done result => exact ⟨rfl, start⟩
  | call question next ih =>
      obtain ⟨same, after⟩ := step c d question start
      have rest := ih (serve c question).1 after
      rw [← same] at rest
      rwa [run, run, ← same]

/-- An object whose choices are made in advance: where a step can be followed
    back to a state that makes it, whole runs can be followed back. -/
theorem run_backward
    (step : ∀ c question d', R (serve c question).2 d' →
      ∃ d, R c d ∧ serve' d question = ((serve c question).1, d')) (p : Dialogue Q A α) {c : C}
    {d' : D} (final : R (p.run serve c).2 d') :
    ∃ d, R c d ∧ p.run serve' d = ((p.run serve c).1, d') := by
  induction p generalizing c with
  | done result => exact ⟨d', final, rfl⟩
  | call question next ih =>
      obtain ⟨between, related, rest⟩ := ih (serve c question).1 final
      obtain ⟨d, start, same⟩ := step c question between related
      refine ⟨d, start, ?_⟩
      rw [run, same]
      exact rest

end Simulation

end Dialogue

end MiniLsm
