import MiniLsm.Wal.Reference

/-! # What CRC-32C detects

Two byte strings of one length that differ only within four consecutive bytes
have different checksums: a register of 32 bits has room for all four.
-/

namespace MiniLsm.Crc32c

open ShiftRegister

/-! ## Four bytes -/

section Window

variable {before w w' later : Bytes}

theorem chunks_low (data : Bytes) : ∀ c ∈ data.map chunk, Low 8 c := by
  rw [List.forall_mem_map]
  exact fun byte _ => chunk_low byte

/-- Strings that differ within four consecutive bytes have different checksums. -/
theorem value_window (size : w.length = w'.length) (few : w.length ≤ 4)
    (same : value (before ++ w ++ later) = value (before ++ w' ++ later)) : w = w' := by
  have top : polynomial.msb = true := by decide
  have registers := congrArg UInt32.toBitVec same
  rw [value, value, extend_toBitVec, extend_toBitVec, BitVec.not_inj, List.map_append,
    List.map_append, List.map_append, List.map_append] at registers
  have window := window_told top (by simpa using size) (chunks_low w) (chunks_low w')
    (by rw [List.length_map]; omega) registers
  exact (List.map_inj_right fun _ _ => chunk_injective).mp window

theorem value_injective {data data' : Bytes} {first : Nat} (size : data.length = data'.length)
    (outside : ∀ i, i < first ∨ first + 4 ≤ i → data[i]? = data'[i]?)
    (same : value data = value data') : data = data' := by
  have parts (d : Bytes) : d = d.take first ++ (d.drop first).take 4 ++ d.drop (first + 4) := by
    rw [List.append_assoc, ← List.drop_drop, List.take_append_drop, List.take_append_drop]
  have front : data.take first = data'.take first := by
    apply List.ext_getElem?
    intro i
    by_cases low : i < first
    · rw [List.getElem?_take_of_lt low, List.getElem?_take_of_lt low]
      exact outside i (Or.inl low)
    · rw [List.getElem?_take_eq_none (by omega), List.getElem?_take_eq_none (by omega)]
  have back : data.drop (first + 4) = data'.drop (first + 4) := by
    apply List.ext_getElem?
    intro i
    rw [List.getElem?_drop, List.getElem?_drop]
    exact outside _ (Or.inr (Nat.le_add_right _ _))
  rw [parts data, parts data', front, back] at same
  have window := value_window (by simp [size]) (List.length_take_le _ _) same
  rw [parts data, front, window, back, ← parts data']

end Window

/-! ## Masking -/

theorem mask_unmask (crc : UInt32) : mask (unmask crc) = crc := by
  have undo : (unmask crc >>> 15) ||| (unmask crc <<< 17) = crc - kMaskDelta := by
    simp only [unmask]
    generalize crc - kMaskDelta = rot
    apply UInt32.eq_of_toBitVec_eq
    apply BitVec.eq_of_getLsbD_eq
    intro i inside
    simp [inside]
    grind
  rw [mask, undo, UInt32.sub_add_cancel]

theorem unmask_injective {crc crc' : UInt32} (same : unmask crc = unmask crc') : crc = crc' := by
  rw [← mask_unmask crc, same, mask_unmask]

end MiniLsm.Crc32c
