import Mathlib.Data.List.Infix
import Mathlib.Tactic.TypeStar

/-! # Codecs that ignore what comes behind an encoding

A decoder that accepts exactly the strings that begin with an encoding, and what
follows for replaying a log of strings: those that are not accepted might as well
not be there, and the others be nothing but their encodings.
-/

namespace MiniLsm

structure Codec (B A : Type*) where
  /-- The values that have an encoding. -/
  Fits : A → Prop
  encode : A → List B
  decode : List B → Option A
  accepts : ∀ {bytes : List B} {a : A}, decode bytes = some a ↔ Fits a ∧ encode a <+: bytes

namespace Codec

variable {A B S : Type*} (codec : Codec B A)

theorem decode_encode {a : A} (fits : codec.Fits a) : codec.decode (codec.encode a) = some a :=
  codec.accepts.mpr ⟨fits, List.prefix_rfl⟩

variable (apply : S → A → S)

/-- Apply what a string decodes to, and skip what does not decode. -/
def replay (state : S) (bytes : List B) : S := (codec.decode bytes).elim state (apply state)

theorem foldl_replay (records : List (List B)) (state : S) :
    records.foldl (codec.replay apply) state =
      (records.filterMap codec.decode).foldl apply state := by
  induction records generalizing state with
  | nil => rfl
  | cons record later ih =>
      rw [List.foldl_cons, ih, replay]
      cases decoded : codec.decode record with
      | none =>
          rw [List.filterMap_cons_none decoded]
          rfl
      | some a =>
          rw [List.filterMap_cons_some decoded]
          rfl

theorem decoded_fits {records : List (List B)} {a : A}
    (member : a ∈ records.filterMap codec.decode) : codec.Fits a := by
  obtain ⟨record, -, decoded⟩ := List.mem_filterMap.mp member
  exact (codec.accepts.mp decoded).1

theorem filterMap_encode {items : List A} (fits : ∀ a ∈ items, codec.Fits a) :
    (items.map codec.encode).filterMap codec.decode = items := by
  induction items with
  | nil => rfl
  | cons a later ih =>
      rw [List.forall_mem_cons] at fits
      rw [List.map_cons, List.filterMap_cons_some (codec.decode_encode fits.1), ih fits.2]

end Codec

end MiniLsm
