import Mathlib.Logic.Function.Iterate

/-! # Shift registers

A register that is fed from below and shifts down. When the bit that falls out is
set, the feedback polynomial is added. Addition is exclusive or, and everything
here follows from two facts: a step is linear, and with the highest bit of the
polynomial set it loses nothing.
-/

namespace ShiftRegister

variable {w : Nat} (p : BitVec w)

/-- Shift down by one place. -/
def step (c : BitVec w) : BitVec w := if c.getLsbD 0 then p ^^^ (c >>> 1) else c >>> 1

def steps (n : Nat) (c : BitVec w) : BitVec w := (step p)^[n] c

/-- Add a chunk of `k` bits and shift it through. -/
def feed (k : Nat) (c chunk : BitVec w) : BitVec w := steps p k (c ^^^ chunk)

/-- Chunks of `k` bits as one word, the first one lowest. -/
def pack (k : Nat) : List (BitVec w) → BitVec w
  | [] => 0#w
  | chunk :: later => chunk ^^^ (pack k later <<< k)

/-- Only the lowest `k` bits may be set. -/
def Low (k : Nat) (c : BitVec w) : Prop := ∀ i, k ≤ i → c.getLsbD i = false

section Linear

variable {p} {n k : Nat} {a b c lo : BitVec w}

theorem xor_left_comm (a b c : BitVec w) : a ^^^ (b ^^^ c) = b ^^^ (a ^^^ c) := by
  rw [← BitVec.xor_assoc, BitVec.xor_comm a b, BitVec.xor_assoc]

theorem step_xor (a b : BitVec w) : step p (a ^^^ b) = step p a ^^^ step p b := by
  simp only [step, BitVec.getLsbD_xor, BitVec.ushiftRight_xor_distrib]
  cases a.getLsbD 0 <;> cases b.getLsbD 0
  · rfl
  · exact xor_left_comm p (a >>> 1) (b >>> 1)
  · exact (BitVec.xor_assoc p (a >>> 1) (b >>> 1)).symm
  · -- the polynomial is added twice
    simp only [Bool.xor_self, Bool.false_eq_true, if_false, if_true]
    rw [BitVec.xor_assoc, xor_left_comm (a >>> 1), ← BitVec.xor_assoc p, BitVec.xor_self,
      BitVec.zero_xor]

theorem steps_succ (n : Nat) (c : BitVec w) : steps p (n + 1) c = steps p n (step p c) := rfl

theorem steps_add (m n : Nat) (c : BitVec w) : steps p (m + n) c = steps p m (steps p n c) :=
  Function.iterate_add_apply _ _ _ _

theorem steps_xor (n : Nat) (a b : BitVec w) :
    steps p n (a ^^^ b) = steps p n a ^^^ steps p n b := by
  induction n generalizing a b with
  | zero => rfl
  | succ n ih => rw [steps_succ, step_xor, ih, ← steps_succ, ← steps_succ]

/-- While only zeros fall out, a register shifts. -/
theorem steps_clear (clear : ∀ i < n, c.getLsbD i = false) : steps p n c = c >>> n := by
  induction n generalizing c with
  | zero => simp [steps]
  | succ n ih =>
      have first : step p c = c >>> 1 := by
        rw [step, clear 0 (Nat.succ_pos n)]
        rfl
      rw [steps_succ, first, ih, ← BitVec.shiftRight_add, Nat.add_comm]
      intro i inside
      rw [BitVec.getLsbD_ushiftRight]
      exact clear _ (by omega)

theorem Low.shiftRight (h : Low n c) : c >>> n = 0#w := by
  apply BitVec.eq_of_getLsbD_eq
  intro i _
  rw [BitVec.getLsbD_ushiftRight, h _ (Nat.le_add_right n i), BitVec.getLsbD_zero]

/-- A table of what becomes of the lowest bits is enough: the others only shift. -/
theorem steps_split (low : Low n lo) (same : ∀ i < n, lo.getLsbD i = c.getLsbD i) :
    steps p n c = steps p n lo ^^^ (c >>> n) := by
  have parts : c = lo ^^^ (lo ^^^ c) := by
    rw [← BitVec.xor_assoc, BitVec.xor_self, BitVec.zero_xor]
  have rest : steps p n (lo ^^^ c) = c >>> n := by
    rw [steps_clear, BitVec.ushiftRight_xor_distrib, low.shiftRight, BitVec.zero_xor]
    intro i inside
    rw [BitVec.getLsbD_xor, same i inside, Bool.xor_self]
  rw [← rest, ← steps_xor, ← parts]

/-! ## Nothing is lost -/

theorem step_eq_zero (top : p.msb = true) (zero : step p c = 0#w) : c = 0#w := by
  have positive : 0 < w := by
    by_contra none
    rw [BitVec.msb_eq_getLsbD_last, BitVec.getLsbD_of_ge _ _ (by omega)] at top
    exact absurd top (by decide)
  rw [step] at zero
  cases bit : c.getLsbD 0 with
  | true =>
      rw [bit, if_pos rfl] at zero
      have high := congrArg (fun c => c.getLsbD (w - 1)) zero
      simp only [BitVec.getLsbD_xor, BitVec.getLsbD_ushiftRight, BitVec.getLsbD_zero] at high
      rw [← BitVec.msb_eq_getLsbD_last, top, BitVec.getLsbD_of_ge c _ (by omega)] at high
      exact absurd high (by decide)
  | false =>
      rw [bit, if_neg Bool.false_ne_true] at zero
      apply BitVec.eq_of_getLsbD_eq
      intro i _
      cases i with
      | zero => rw [bit, BitVec.getLsbD_zero]
      | succ i =>
          have shifted := congrArg (fun c => c.getLsbD i) zero
          rw [BitVec.getLsbD_ushiftRight, BitVec.getLsbD_zero, Nat.add_comm] at shifted
          rw [shifted, BitVec.getLsbD_zero]

theorem step_injective (top : p.msb = true) (same : step p a = step p b) : a = b := by
  have zero : step p (a ^^^ b) = 0#w := by rw [step_xor, same, BitVec.xor_self]
  exact BitVec.xor_eq_zero_iff.mp (step_eq_zero top zero)

theorem steps_injective (top : p.msb = true) (same : steps p n a = steps p n b) : a = b := by
  induction n generalizing a b with
  | zero => exact same
  | succ n ih => exact step_injective top (ih same)

theorem feed_injective (top : p.msb = true) (same : feed p k a c = feed p k b c) : a = b :=
  (BitVec.xor_left_inj c).mp (steps_injective top same)

end Linear

/-! ## Chunks -/

section Chunks

variable {p} {k : Nat} {s s' : BitVec w} {before chunks chunks' later : List (BitVec w)}

theorem foldl_feed_injective (top : p.msb = true)
    (same : later.foldl (feed p k) s = later.foldl (feed p k) s') : s = s' := by
  induction later generalizing s s' with
  | nil => exact same
  | cons chunk later ih => exact feed_injective top (ih same)

/-- Two registers that are fed alike differ as if nothing was fed. -/
theorem foldl_feed_xor (s s' : BitVec w) (chunks : List (BitVec w)) :
    chunks.foldl (feed p k) s ^^^ chunks.foldl (feed p k) s' =
      steps p (k * chunks.length) (s ^^^ s') := by
  induction chunks generalizing s s' with
  | nil => rfl
  | cons chunk later ih =>
      have once : feed p k s chunk ^^^ feed p k s' chunk = steps p k (s ^^^ s') := by
        rw [feed, feed, ← steps_xor, BitVec.xor_assoc, xor_left_comm chunk, BitVec.xor_self,
          BitVec.xor_zero]
      rw [List.foldl_cons, List.foldl_cons, ih, once, ← steps_add, List.length_cons, Nat.mul_succ]

theorem pack_low (low : ∀ chunk ∈ chunks, Low k chunk) : Low (k * chunks.length) (pack k chunks) := by
  induction chunks with
  | nil => exact fun i _ => BitVec.getLsbD_zero
  | cons chunk later ih =>
      rw [List.forall_mem_cons] at low
      intro i high
      rw [List.length_cons, Nat.mul_succ] at high
      rw [pack, BitVec.getLsbD_xor, low.1 i (by omega), BitVec.getLsbD_shiftLeft,
        ih low.2 (i - k) (by omega)]
      simp

/-- What is shifted up and fits comes down again. -/
theorem steps_shiftLeft {c : BitVec w} (fits : Low (w - k) c) : steps p k (c <<< k) = c := by
  rw [steps_clear]
  · apply BitVec.eq_of_getLsbD_eq
    intro i inside
    rw [BitVec.getLsbD_ushiftRight, BitVec.getLsbD_shiftLeft]
    by_cases room : k + i < w
    · simp [room]
    · rw [fits i (by omega)]
      simp [room]
  · intro i inside
    rw [BitVec.getLsbD_shiftLeft]
    simp [inside]

/-- Chunks that fit into the register may as well be fed as one. -/
theorem foldl_feed (low : ∀ chunk ∈ chunks, Low k chunk) (fits : k * chunks.length ≤ w) :
    chunks.foldl (feed p k) s = steps p (k * chunks.length) (s ^^^ pack k chunks) := by
  induction chunks generalizing s with
  | nil => simp [pack, steps]
  | cons chunk later ih =>
      rw [List.forall_mem_cons] at low
      rw [List.length_cons, Nat.mul_succ] at fits
      have room : Low (w - k) (pack k later) := fun i high => pack_low low.2 i (by omega)
      rw [List.foldl_cons, ih low.2 (by omega), List.length_cons, Nat.mul_succ, steps_add, pack,
        ← BitVec.xor_assoc, steps_xor k, steps_shiftLeft room, feed]

theorem pack_injective (size : chunks.length = chunks'.length)
    (low : ∀ chunk ∈ chunks, Low k chunk) (low' : ∀ chunk ∈ chunks', Low k chunk)
    (fits : k * chunks.length ≤ w) (same : pack k chunks = pack k chunks') : chunks = chunks' := by
  induction chunks generalizing chunks' with
  | nil => exact (List.eq_nil_of_length_eq_zero size.symm).symm
  | cons chunk later ih =>
      cases chunks' with
      | nil => cases size
      | cons chunk' later' =>
          rw [List.forall_mem_cons] at low low'
          rw [List.length_cons, List.length_cons, Nat.add_right_cancel_iff] at size
          rw [List.length_cons, Nat.mul_succ] at fits
          have bits := fun i => congrArg (fun c => c.getLsbD i) same
          simp only [pack, BitVec.getLsbD_xor, BitVec.getLsbD_shiftLeft] at bits
          have first : chunk = chunk' := by
            apply BitVec.eq_of_getLsbD_eq
            intro i _
            by_cases inside : i < k
            · simpa [inside] using bits i
            · rw [low.1 i (Nat.le_of_not_lt inside), low'.1 i (Nat.le_of_not_lt inside)]
          have rest : pack k later = pack k later' := by
            apply BitVec.eq_of_getLsbD_eq
            intro i inside
            by_cases room : i + k < w
            · simpa [first, room, Nat.not_lt.mpr (Nat.le_add_left k i)] using bits (i + k)
            · rw [pack_low low.2 i (by omega), pack_low low'.2 i (by rw [← size]; omega)]
          rw [first, ih size low.2 low'.2 (by omega) rest]

/-- A register tells strings apart that differ only in a window it has room for. -/
theorem window_told (top : p.msb = true) (size : chunks.length = chunks'.length)
    (low : ∀ chunk ∈ chunks, Low k chunk) (low' : ∀ chunk ∈ chunks', Low k chunk)
    (fits : k * chunks.length ≤ w)
    (same : (before ++ chunks ++ later).foldl (feed p k) s =
      (before ++ chunks' ++ later).foldl (feed p k) s) : chunks = chunks' := by
  rw [List.foldl_append, List.foldl_append, List.foldl_append, List.foldl_append] at same
  have window := foldl_feed_injective top same
  rw [foldl_feed low fits, foldl_feed low' (size ▸ fits), ← size] at window
  exact pack_injective size low low' fits
    ((BitVec.xor_right_inj _).mp (steps_injective top window))

end Chunks

end ShiftRegister
