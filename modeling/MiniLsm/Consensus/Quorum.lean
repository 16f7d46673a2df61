import Mathlib.Data.Set.Basic
import Mathlib.Data.Finset.Card
import Mathlib.Data.Finset.Dedup

/-! # Quorum systems

A quorum system is an upward closed family of sets any two of which meet. The
election and the commit argument use nothing else about majorities.
-/

namespace Consensus

/-- An upward closed family of pairwise intersecting sets. -/
structure QuorumSystem (N : Type) where
  IsQuorum : Set N → Prop
  grow : ∀ {A B : Set N}, A ⊆ B → IsQuorum A → IsQuorum B
  meet : ∀ {A B : Set N}, IsQuorum A → IsQuorum B → ∃ n, n ∈ A ∧ n ∈ B

/-- Two duplicate-free lists drawn from `peers` whose lengths together exceed
    it share a member. -/
theorem shared_member {N : Type} {peers left right : List N}
    (leftDistinct : left.Nodup) (rightDistinct : right.Nodup)
    (leftInside : left ⊆ peers) (rightInside : right ⊆ peers)
    (many : peers.length < left.length + right.length) : ∃ n, n ∈ left ∧ n ∈ right := by
  classical
  by_contra none
  have disjoint : Disjoint left.toFinset right.toFinset := by
    rw [Finset.disjoint_left]
    intro n inLeft inRight
    exact none ⟨n, List.mem_toFinset.mp inLeft, List.mem_toFinset.mp inRight⟩
  have inside : left.toFinset ∪ right.toFinset ⊆ peers.toFinset := by
    intro n member
    rcases Finset.mem_union.mp member with h | h
    · exact List.mem_toFinset.mpr (leftInside (List.mem_toFinset.mp h))
    · exact List.mem_toFinset.mpr (rightInside (List.mem_toFinset.mp h))
  have counted := Finset.card_le_card inside
  rw [Finset.card_union_of_disjoint disjoint, List.toFinset_card_of_nodup leftDistinct,
    List.toFinset_card_of_nodup rightDistinct] at counted
  have bound := List.toFinset_card_le peers
  omega

/-- The majorities of a membership list: sets containing more than half of it. -/
def majority {N : Type} (peers : List N) : QuorumSystem N where
  IsQuorum A := ∃ voters : List N, voters.Nodup ∧ voters ⊆ peers ∧
    (∀ n ∈ voters, n ∈ A) ∧ peers.length < 2 * voters.length
  grow := by
    rintro A B inside ⟨voters, distinct, members, held, many⟩
    exact ⟨voters, distinct, members, fun n h => inside (held n h), many⟩
  meet := by
    rintro A B ⟨left, leftDistinct, leftInside, leftHeld, leftMany⟩
      ⟨right, rightDistinct, rightInside, rightHeld, rightMany⟩
    obtain ⟨n, inLeft, inRight⟩ :=
      shared_member leftDistinct rightDistinct leftInside rightInside (by omega)
    exact ⟨n, leftHeld n inLeft, rightHeld n inRight⟩

end Consensus
