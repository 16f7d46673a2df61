import Mathlib.Data.List.Pairwise
import Mathlib.NumberTheory.LucasLehmer
import MiniLsm.Bits.Logarithm
import MiniLsm.Wal.Burst
import MiniLsm.Wal.Layout

/-! # Another type byte

The type byte and the last byte of the checksum are covered by one window. If both
are changed, the checksums of the two types would have to differ in eight places
next to each other, the payload between. A register comes from one byte to
another only after more steps than a block has bits: the bytes are far apart on
the cycle on which it goes round.
-/

namespace MiniLsm.Crc32c

open ShiftRegister

/-! ## Bytes on their cycle -/

/-- The number of states on the cycle, a prime. -/
def cycle : Nat := 2147483647

/-- Where the bytes `128 + d` are on the cycle, counted from the first of them. -/
def logarithms : List Nat :=
  [0, 1252318923, 236755090, 2030613359, 1810423386, 148735581, 276181442, 1360466188, 1509342648,
   900666681, 1242688799, 1613489044, 1068422568, 359735414, 1891361685, 2077699096, 118377545,
   1840131821, 108990269, 1896043912, 1429355751, 701803729, 311904024, 1177169989, 1495111499,
   1627720193, 852285995, 612984762, 302273900, 1459863780, 2116984732, 1913449750, 754671324,
   215992216, 507277723, 1490069003, 1752547737, 417611063, 1813463768, 14050685, 1629567413,
   176707382, 116530325, 46914374, 605794864, 1042714075, 1293775709, 1823093892, 1695086223,
   36543428, 785029360, 1255067906, 873048869, 1555839887, 804632157, 274758816, 1704716347,
   1126552002, 1174129607, 1056945224, 1141372588, 1747944958, 102299176, 1484029473, 377335662,
   308953556, 1112733341, 614090752, 1436128106, 653517104, 40275401, 675008537, 228459202,
   121213700, 1445758230, 383709265, 1886678310, 882414471, 1946855367, 1620024461, 1327380685,
   346836747, 679609562, 1460466903, 1872447161, 11653489, 1370609296, 1229621657, 495713207,
   980690300, 2044906801, 486325931, 407693698, 689239686, 1806691413, 1493589620, 1888525530,
   479634838, 1518708250, 1923545425, 2082052009, 249112912, 324468067, 1551465269, 2072421885,
   809464451, 1536114088, 1162365022, 474950333, 1181967819, 1250384531, 560491440, 1132006986,
   605462254, 1236153382, 884613385, 1514026023, 43315783, 2129883399, 1867323727, 1433087724,
   1671111371, 983130526, 1170397634, 2006903075, 73488974, 874983261, 493865987]

/-- More states than a block has bits are between them. -/
def Apart (k l : Nat) : Prop := k + 300000 < l ∨ l + 300000 < k

instance (k l : Nat) : Decidable (Apart k l) := inferInstanceAs (Decidable (_ ∨ _))

instance : Std.Symm Apart := ⟨fun _ _ => Or.symm⟩

theorem cycle_prime : cycle.Prime := lucas_lehmer_sufficiency 31 (by norm_num) (by norm_num)

theorem logarithms_apart : logarithms.Pairwise Apart := by
  decide +kernel

theorem logarithms_early : ∀ k ∈ logarithms, k + 300000 < cycle := by
  decide +kernel

/-- The first byte, twisted into a state on the cycle. -/
def base : BitVec 32 := twist polynomial 128#32

/-- So many steps from the first byte, computed. -/
def ahead (k : Nat) : Nat :=
  leap polynomial.toNat 32 31 (step polynomial (one 32)).toNat k base.toNat

theorem ahead_eq {k : Nat} (inside : k ≤ cycle) : ahead k = (steps polynomial k base).toNat := by
  have few : k < 2 ^ 31 := Nat.lt_of_le_of_lt inside (by decide)
  have leaped := @leap_steps 32 polynomial k 31 1 few base
  rwa [Nat.one_mul] at leaped

theorem base_returns : steps polynomial cycle base = base := by
  apply BitVec.eq_of_toNat_eq
  rw [← ahead_eq (Nat.le_refl cycle)]
  decide +kernel

theorem base_moves : step polynomial base ≠ base := by
  decide +kernel

theorem logarithms_ahead : ∀ d < 128,
    ahead (logarithms.getD d 0) = (twist polynomial (BitVec.ofNat 32 (128 + d))).toNat := by
  decide +kernel

section Far

variable {c d e : BitVec 32} {n : Nat}

/-- A byte with its highest bit is in the table. -/
theorem logarithm (low : Low 8 d) (top : d.getLsbD 7 = true) :
    ∃ k ∈ logarithms, steps polynomial k base = twist polynomial d := by
  have below : d.toNat < 2 ^ 8 := Nat.lt_pow_two_of_testBit _ low
  have above : 2 ^ 7 ≤ d.toNat := Nat.ge_two_pow_of_testBit top
  have entry : d.toNat - 128 < logarithms.length := by
    rw [show logarithms.length = 128 from rfl]
    omega
  have member : logarithms.getD (d.toNat - 128) 0 ∈ logarithms := by
    rw [List.getD_eq_getElem _ _ entry]
    exact List.getElem_mem entry
  refine ⟨_, member, BitVec.eq_of_toNat_eq ?_⟩
  have early := logarithms_early _ member
  rw [← ahead_eq (by omega), logarithms_ahead _ entry, show 128 + (d.toNat - 128) = d.toNat by omega,
    BitVec.ofNat_toNat, BitVec.setWidth_eq]

/-- Bytes with their highest bit are not so close to each other. -/
theorem tops_apart (lowD : Low 8 d) (topD : d.getLsbD 7 = true) (lowE : Low 8 e)
    (topE : e.getLsbD 7 = true) (positive : 0 < n) (near : n ≤ 300000) :
    steps polynomial n d ≠ e := by
  intro same
  obtain ⟨k, memberK, atD⟩ := logarithm lowD topD
  obtain ⟨l, memberL, atE⟩ := logarithm lowE topE
  have earlyK := logarithms_early k memberK
  have earlyL := logarithms_early l memberL
  have met : steps polynomial (n + k) base = steps polynomial l base := by
    rw [steps_add, atD, steps_twist, same, atE]
  have there : n + k = l :=
    steps_eq_of_prime cycle_prime base_returns base_moves (by omega) (by omega) met
  rcases logarithms_apart.forall memberK memberL (by omega) with before | behind
  · omega
  · omega

/-- Between a byte and the next one the register needs more steps than a block has
    bits. -/
theorem low_once (low : Low 8 c) (nonzero : c ≠ 0#32) (far : 8 ≤ n) (near : n ≤ 8 * Wal.kBlockSize) :
    ¬ Low 8 (steps polynomial n c) := by
  intro again
  have top : polynomial.msb = true := by decide
  have block : Wal.kBlockSize = 32768 := rfl
  have nonzero' : steps polynomial n c ≠ 0#32 := by
    intro zero
    rw [← @steps_zero 32 polynomial n] at zero
    exact nonzero (steps_injective top zero)
  -- both are some steps behind a byte of the table
  obtain ⟨a, d, few, lowD, topD, fromD⟩ := @Low.behind 32 polynomial 8 c low (by decide) nonzero
  obtain ⟨b, e, few', lowE, topE, fromE⟩ :=
    @Low.behind 32 polynomial 8 (steps polynomial n c) again (by decide) nonzero'
  refine tops_apart lowD topD lowE topE (n := n + a - b) (by omega) (by omega) ?_
  apply @steps_injective 32 polynomial b _ _ top
  rw [← steps_add, show b + (n + a - b) = n + a by omega, steps_add, fromD, fromE]

end Far

/-! ## Two types of one payload -/

/-- Two words that may differ in their last byte only. -/
def Near (x y : UInt32) : Prop := ∀ i < 24, x.toBitVec.getLsbD i = y.toBitVec.getLsbD i

section Types

variable {a b : UInt8} {payload : Bytes} {x y : UInt32}

/-- What the payload does to the difference of two checksums depends on its length
    only. -/
theorem value_xor (a b : UInt8) (payload : Bytes) :
    (value (a :: payload)).toBitVec ^^^ (value (b :: payload)).toBitVec =
      steps polynomial (8 * (payload.length + 1)) (chunk a ^^^ chunk b) := by
  have first (s : BitVec 32) : feed polynomial 8 s (chunk a) ^^^ feed polynomial 8 s (chunk b) =
      steps polynomial 8 (chunk a ^^^ chunk b) := by
    rw [feed, feed, ← steps_xor, BitVec.xor_assoc, xor_left_comm (chunk a), ← BitVec.xor_assoc s,
      BitVec.xor_self, BitVec.zero_xor]
  rw [value, value, extend_toBitVec, extend_toBitVec, ← BitVec.not_xor_left, ← BitVec.not_xor_right,
    BitVec.not_not, List.map_cons, List.map_cons, List.foldl_cons, List.foldl_cons,
    foldl_feed_xor, List.length_map, first, ← steps_add, Nat.mul_succ]

theorem Near.sub (near : Near x y) (z : UInt32) : Near (x - z) (y - z) := by
  intro i low
  have cut : x.toBitVec.setWidth 24 = y.toBitVec.setWidth 24 := by
    apply BitVec.eq_of_getLsbD_eq
    intro i inside
    rw [BitVec.getLsbD_setWidth, BitVec.getLsbD_setWidth, near i inside]
  have bits := congrArg (fun c => c.getLsbD i) (congrArg (· + (-z.toBitVec).setWidth 24) cut)
  simpa only [← BitVec.setWidth_add _ _ (show 24 ≤ 32 by decide), ← BitVec.sub_eq_add_neg,
    ← UInt32.toBitVec_sub, BitVec.getLsbD_setWidth, low, decide_true, Bool.true_and] using bits

/-- The checksums that they mask differ in eight places next to each other. -/
theorem Near.unmask (near : Near x y) {i : Nat} (outside : i < 7 ∨ 15 ≤ i) :
    (Crc32c.unmask x).toBitVec.getLsbD i = (Crc32c.unmask y).toBitVec.getLsbD i := by
  have parts (w : UInt32) : (Crc32c.unmask w).toBitVec.getLsbD i =
      ((w - kMaskDelta).toBitVec.getLsbD (17 + i) ||
        (decide (i < 32) && !decide (i < 15) && (w - kMaskDelta).toBitVec.getLsbD (i - 15))) := by
    rw [Crc32c.unmask, UInt32.toBitVec_or, BitVec.getLsbD_or, UInt32.toBitVec_shiftRight,
      UInt32.toBitVec_shiftLeft]
    simp
  rw [parts, parts]
  rcases outside with low | high
  · rw [near.sub kMaskDelta (17 + i) (by omega), decide_eq_true (show i < 15 by omega)]
    simp
  · rw [BitVec.getLsbD_of_ge _ (17 + i) (by omega), BitVec.getLsbD_of_ge _ (17 + i) (by omega)]
    by_cases inside : i < 32
    · rw [near.sub kMaskDelta (i - 15) (by omega)]
    · rw [decide_eq_false inside]
      simp

/-- The checksums of two types over one payload, if it is in a block, do not only
    differ in the last byte of their words. -/
theorem types_told (other : a ≠ b) (inside : Wal.kHeaderSize + payload.length ≤ Wal.kBlockSize)
    (sameA : value (a :: payload) = unmask x) (sameB : value (b :: payload) = unmask y) :
    ¬ Near x y := by
  intro near
  have head : Wal.kHeaderSize = 7 := rfl
  have difference := value_xor a b payload
  rw [sameA, sameB] at difference
  generalize whole : (unmask x).toBitVec ^^^ (unmask y).toBitVec = gap at difference
  have clear : ∀ i, i < 7 ∨ 15 ≤ i → gap.getLsbD i = false := by
    intro i outside
    rw [← whole, BitVec.getLsbD_xor, near.unmask outside, Bool.xor_self]
  -- in seven more steps the eight places are the lowest ones
  have moved : steps polynomial 7 gap = gap >>> 7 := steps_clear fun i low => clear i (Or.inl low)
  have again : Low 8 (steps polynomial (7 + 8 * (payload.length + 1)) (chunk a ^^^ chunk b)) := by
    intro i high
    rw [steps_add, ← difference, moved, BitVec.getLsbD_ushiftRight]
    exact clear _ (Or.inr (by omega))
  have low : Low 8 (chunk a ^^^ chunk b) := by
    intro i high
    rw [BitVec.getLsbD_xor, chunk_low a i high, chunk_low b i high, Bool.xor_self]
  have nonzero : chunk a ^^^ chunk b ≠ 0#32 := by
    intro zero
    exact other (chunk_injective (BitVec.xor_eq_zero_iff.mp zero))
  exact low_once low nonzero (by omega) (by omega) again

end Types

end MiniLsm.Crc32c
