import Mathlib.Data.List.Basic

/-! # What a run can still lead to

A machine whose events are chosen by someone else can reach a goal if some
events that may follow lead there. Goals are properties of whole runs, so that
a goal can be compared with where the run came from.
-/

namespace MiniLsm

variable {E A : Type*} {allowed : E → Prop} {P Q : List E → Prop} {events : List E}

/-- Allowed events can follow after which the goal holds of the whole run. -/
def Can (allowed : E → Prop) (P : List E → Prop) (events : List E) : Prop :=
  ∃ more, (∀ e ∈ more, allowed e) ∧ P (events ++ more)

namespace Can

theorem here (h : P events) : Can allowed P events :=
  ⟨[], by simp, by simpa using h⟩

theorem event {e : E} (ok : allowed e) (h : Can allowed P (events ++ [e])) :
    Can allowed P events := by
  obtain ⟨more, all, goal⟩ := h
  refine ⟨e :: more, ?_, by simpa using goal⟩
  exact List.forall_mem_cons.mpr ⟨ok, all⟩

theorem bind (h : Can allowed P events) (next : ∀ later, P later → Can allowed Q later) :
    Can allowed Q events := by
  obtain ⟨first, all, goal⟩ := h
  obtain ⟨second, all', goal'⟩ := next _ goal
  refine ⟨first ++ second, ?_, by simpa using goal'⟩
  exact fun e member => (List.mem_append.mp member).elim (all e) (all' e)

theorem mono (h : Can allowed P events) (weaker : ∀ later, P later → Q later) :
    Can allowed Q events :=
  h.bind fun later goal => here (weaker later goal)

/-- A goal that can be reached or approached is reached in the end. -/
theorem descend (distance : List E → ℕ)
    (closer : ∀ later, P later →
      Can allowed (fun last => Q last ∨ P last ∧ distance last < distance later) later)
    (h : P events) : Can allowed Q events := by
  obtain ⟨d, far⟩ : ∃ d, distance events < d := ⟨_, Nat.lt_succ_self _⟩
  induction d generalizing events with
  | zero => exact absurd far (Nat.not_lt_zero _)
  | succ d ih =>
      refine (closer events h).bind fun later step => ?_
      rcases step with done | ⟨goal, nearer⟩
      · exact here done
      · exact ih goal (by omega)

/-- Goals for each of some items are reached together, when reaching one keeps
    what was reached for the others. -/
theorem each (items : List A) (D : A → List E → Prop)
    (one : ∀ a ∈ items, ∀ later, P later →
      Can allowed (fun last => P last ∧ D a last ∧ ∀ b, D b later → D b last) later)
    (h : P events) : Can allowed (fun last => P last ∧ ∀ a ∈ items, D a last) events := by
  induction items with
  | nil => exact here ⟨h, by simp⟩
  | cons a items ih =>
      have rest := ih fun b member => one b (List.mem_cons_of_mem a member)
      refine rest.bind fun later ⟨goal, all⟩ => ?_
      refine (one a List.mem_cons_self later goal).mono fun last ⟨goal', first, kept⟩ => ?_
      exact ⟨goal', List.forall_mem_cons.mpr ⟨first, fun b member => kept b (all b member)⟩⟩

end Can

end MiniLsm
