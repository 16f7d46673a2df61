import Mathlib.Data.Nat.Bitwise
import Mathlib.Dynamics.PeriodicPts.Lemmas
import Mathlib.Tactic.Ring
import MiniLsm.Bits.ShiftRegister

/-! # Far ahead in a shift register

Where a register is after very many steps, found by squaring: the steps from the
highest bit determine those from any other state. The computation is on numbers,
which can be evaluated. A state that comes back after a prime number of steps
does not come back before.
-/

namespace ShiftRegister

/-- A step of a register that is kept as a number. -/
def stepNat (p c : Nat) : Nat := c / 2 ^^^ p * (c % 2)

/-- The sum of what becomes of `c` in `0, 1, …` steps, over the lowest `n` bits of
    `v` from above. -/
def combine (p v : Nat) : Nat → Nat → Nat
  | 0, _ => 0
  | n + 1, c => c * (v >>> n % 2) ^^^ combine p v n (stepNat p c)

/-- From `v`, `k` times as many steps as there are from the highest bit to `c`, for a
    `k` of `n` bits. -/
def leap (p w : Nat) : Nat → Nat → Nat → Nat → Nat
  | 0, _, _, v => v
  | n + 1, c, k, v =>
      leap p w n (combine p c w c) (k / 2) (if k % 2 = 0 then v else combine p v w c)

section Leap

variable {w : Nat} {p : BitVec w} {k n : Nat} {v : BitVec w}

theorem step_toNat (c : BitVec w) : (step p c).toNat = stepNat p.toNat c.toNat := by
  have bit : c.toNat % 2 = (c.getLsbD 0).toNat := by
    rw [← BitVec.testBit_toNat, Nat.toNat_testBit, pow_zero, Nat.div_one]
  rw [stepNat, bit, step]
  cases c.getLsbD 0
  · simp [Nat.shiftRight_one]
  · simp [Nat.shiftRight_one, Nat.xor_comm]

theorem bit_toNat (v c : BitVec w) (n : Nat) :
    c.toNat * (v.toNat >>> n % 2) = (if v.getLsbD n then c else 0#w).toNat := by
  rw [Nat.shiftRight_eq_div_pow, ← Nat.toNat_testBit, BitVec.testBit_toNat]
  cases v.getLsbD n <;> simp

theorem steps_step (n : Nat) (c : BitVec w) : step p (steps p n c) = steps p n (step p c) := by
  rw [← steps_succ, Nat.add_comm, steps_add]
  rfl

theorem steps_zero (n : Nat) : steps p n 0#w = 0#w := by
  have twice := @steps_xor w p n 0#w 0#w
  rwa [BitVec.xor_self, BitVec.xor_self] at twice

/-- Only the lowest `n` bits of a word. -/
def lowest (n : Nat) (v : BitVec w) : BitVec w := (v.setWidth n).setWidth w

theorem getLsbD_lowest (n i : Nat) (v : BitVec w) :
    (lowest n v).getLsbD i = (decide (i < n) && v.getLsbD i) := by
  rw [lowest, BitVec.getLsbD_setWidth, BitVec.getLsbD_setWidth]
  by_cases inside : i < w
  · simp [inside]
  · simp [BitVec.getLsbD_of_ge v i (Nat.le_of_not_lt inside)]

theorem lowest_succ (inside : n < w) :
    lowest (n + 1) v = (if v.getLsbD n then BitVec.twoPow w n else 0#w) ^^^ lowest n v := by
  apply BitVec.eq_of_getLsbD_eq
  intro i _
  rw [BitVec.getLsbD_xor, getLsbD_lowest, getLsbD_lowest]
  rcases Nat.lt_trichotomy i n with below | rfl | above
  · cases v.getLsbD n <;> simp [below, Nat.lt_succ_of_lt below, Nat.ne_of_gt below]
  · cases v.getLsbD i <;> simp [inside]
  · cases v.getLsbD n <;>
      simp [Nat.not_lt.mpr above, Nat.not_lt.mpr (Nat.le_of_lt above), Nat.ne_of_lt above]

theorem step_twoPow (inside : n + 1 < w) :
    step p (BitVec.twoPow w (n + 1)) = BitVec.twoPow w n := by
  have clear : ∀ i < 1, (BitVec.twoPow w (n + 1)).getLsbD i = false := by
    intro i first
    rw [BitVec.getLsbD_twoPow, decide_eq_false (show ¬ n + 1 = i by omega), Bool.and_false]
  have once : step p (BitVec.twoPow w (n + 1)) = steps p 1 (BitVec.twoPow w (n + 1)) := rfl
  rw [once, steps_clear clear]
  apply BitVec.eq_of_getLsbD_eq
  intro i _
  rw [BitVec.getLsbD_ushiftRight, BitVec.getLsbD_twoPow, BitVec.getLsbD_twoPow]
  simp [inside, Nat.lt_of_succ_lt inside, Nat.add_comm 1]

/-- The steps from the highest bit move down through the bits of `v`. -/
theorem combine_lowest (k : Nat) (inside : n ≤ w) {c : BitVec w}
    (start : ∀ m, n = m + 1 → c = steps p k (BitVec.twoPow w m)) :
    combine p.toNat v.toNat n c.toNat = (steps p k (lowest n v)).toNat := by
  induction n generalizing c with
  | zero =>
      have none : lowest 0 v = 0#w := by
        apply BitVec.eq_of_getLsbD_eq
        intro i _
        rw [getLsbD_lowest, decide_eq_false (Nat.not_lt_zero i), Bool.false_and,
          BitVec.getLsbD_zero]
      rw [combine, none, steps_zero, BitVec.toNat_zero]
  | succ n ih =>
      have here := start n rfl
      have next : ∀ m, n = m + 1 → step p c = steps p k (BitVec.twoPow w m) := by
        rintro m rfl
        rw [here, steps_step, step_twoPow inside]
      rw [combine, bit_toNat, ← step_toNat, ih (Nat.le_of_succ_le inside) next, lowest_succ inside,
        steps_xor, BitVec.toNat_xor, here]
      cases v.getLsbD n
      · simp [steps_zero]
      · simp

/-- The highest bit, from which every state can be told. -/
def one (w : Nat) : BitVec w := BitVec.twoPow w (w - 1)

/-- What `k` steps make of the highest bit tells what they make of `v`. -/
theorem combine_steps (k : Nat) (v : BitVec w) :
    combine p.toNat v.toNat w (steps p k (one w)).toNat = (steps p k v).toNat := by
  have whole : lowest w v = v := by
    apply BitVec.eq_of_getLsbD_eq
    intro i inside
    rw [getLsbD_lowest, decide_eq_true inside, Bool.true_and]
  have start : ∀ m, w = m + 1 → steps p k (one w) = steps p k (BitVec.twoPow w m) := by
    rintro m rfl
    rfl
  rw [combine_lowest k (Nat.le_refl w) start, whole]

/-- Square and multiply. -/
theorem leap_steps {m : Nat} (few : k < 2 ^ n) (v : BitVec w) :
    leap p.toNat w n (steps p m (one w)).toNat k v.toNat = (steps p (m * k) v).toNat := by
  induction n generalizing m k v with
  | zero =>
      obtain rfl : k = 0 := by omega
      rfl
  | succ n ih =>
      have half : k / 2 < 2 ^ n := by
        rw [Nat.pow_succ] at few
        omega
      rw [leap, combine_steps, ← steps_add]
      by_cases even : k % 2 = 0
      · have count : (m + m) * (k / 2) = m * k := by
          calc (m + m) * (k / 2) = m * (2 * (k / 2)) := by ring
            _ = m * k := by rw [Nat.mul_div_cancel' (Nat.dvd_of_mod_eq_zero even)]
        rw [if_pos even, ih half, count]
      · have count : (m + m) * (k / 2) + m = m * k := by
          calc (m + m) * (k / 2) + m = m * (2 * (k / 2) + 1) := by ring
            _ = m * k := by rw [Nat.two_mul_div_two_add_one_of_odd (Nat.odd_iff.mpr (by omega))]
        rw [if_neg even, combine_steps, ih half, ← steps_add, count]

end Leap

/-! ## Round and round -/

section Orbit

variable {w : Nat} {p : BitVec w} {k l n q : Nat} {c z : BitVec w}

/-- The states before the first return are different ones, when it is after a prime
    number of steps. -/
theorem steps_eq_of_prime (prime : q.Prime) (back : steps p q z = z) (moves : step p z ≠ z)
    (inside : k < q) (inside' : l < q) (same : steps p k z = steps p l z) : k = l := by
  have : Fact q.Prime := ⟨prime⟩
  have period : Function.minimalPeriod (step p) z = q := Function.minimalPeriod_eq_prime back moves
  exact (Function.iterate_eq_iterate_iff_of_lt_minimalPeriod (period.symm ▸ inside)
    (period.symm ▸ inside')).mp same

/-- The sum of a state and the next one. -/
def twist (p c : BitVec w) : BitVec w := step p c ^^^ c

theorem steps_twist (n : Nat) (c : BitVec w) : steps p n (twist p c) = twist p (steps p n c) := by
  rw [twist, twist, steps_xor, steps_step]

/-- The highest bit that is set. -/
theorem Low.highest (low : Low k c) (nonzero : c ≠ 0#w) :
    ∃ i < k, c.getLsbD i = true ∧ Low (i + 1) c := by
  induction k with
  | zero =>
      refine absurd (BitVec.eq_of_getLsbD_eq fun i _ => ?_) nonzero
      rw [low i (Nat.zero_le i), BitVec.getLsbD_zero]
  | succ k ih =>
      cases bit : c.getLsbD k with
      | true => exact ⟨k, Nat.lt_succ_self k, bit, low⟩
      | false =>
          have lower : Low k c := by
            intro i high
            rcases Nat.eq_or_lt_of_le high with rfl | higher
            · exact bit
            · exact low i higher
          obtain ⟨i, below, set, rest⟩ := ih lower
          exact ⟨i, Nat.lt_succ_of_lt below, set, rest⟩

/-- A state of `k` low bits is fewer than `k` steps behind one that has the highest
    of them set. -/
theorem Low.behind (low : Low k c) (fits : k ≤ w) (nonzero : c ≠ 0#w) :
    ∃ n d, n < k ∧ Low k d ∧ d.getLsbD (k - 1) = true ∧ steps p n d = c := by
  obtain ⟨i, below, set, rest⟩ := low.highest nonzero
  refine ⟨k - 1 - i, c <<< (k - 1 - i), by omega, ?_, ?_, ?_⟩
  · intro j high
    rw [BitVec.getLsbD_shiftLeft, rest _ (by omega), Bool.and_false]
  · rw [BitVec.getLsbD_shiftLeft, show k - 1 - (k - 1 - i) = i by omega, set,
      decide_eq_true (show k - 1 < w by omega),
      decide_eq_false (show ¬ k - 1 < k - 1 - i by omega)]
    rfl
  · apply steps_shiftLeft
    intro j high
    exact rest j (by omega)

end Orbit

end ShiftRegister
