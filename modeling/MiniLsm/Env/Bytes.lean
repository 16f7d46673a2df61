import Mathlib.Data.List.Infix

/-! # Byte strings, statuses and fixed-width integers

`mlsm/slice.h`, `mlsm/status.h` and `mlsm/coding.h`.
-/

namespace MiniLsm

/-- A `std::string` or a `Slice`: bytes. -/
abbrev Bytes := List UInt8

inductive Code where
  | ok
  | notFound
  | corruption
  | ioError
  | invalidArgument
  deriving Repr, DecidableEq

structure Status where
  code : Code := .ok
  msg : String := ""
  deriving Repr, DecidableEq

namespace Status

/-- `s.ok()`. -/
def isOk (s : Status) : Bool := s.code = .ok

def ok : Status := {}

def notFound (msg : String) : Status := { code := .notFound, msg }

def corruption (msg : String) : Status := { code := .corruption, msg }

def ioError (msg : String) : Status := { code := .ioError, msg }

def invalidArgument (msg : String) : Status := { code := .invalidArgument, msg }

@[simp] theorem isOk_ok : ok.isOk = true := rfl

@[simp] theorem isOk_ioError (msg : String) : (ioError msg).isOk = false := rfl

end Status

/-! ## Fixed-width integers, little-endian -/

def encodeFixed32 (value : UInt32) : Bytes :=
  [(value &&& 0xff).toUInt8, ((value >>> 8) &&& 0xff).toUInt8,
    ((value >>> 16) &&& 0xff).toUInt8, ((value >>> 24) &&& 0xff).toUInt8]

/-- The first four bytes; callers check that they are there. -/
def decodeFixed32 (ptr : Bytes) : UInt32 :=
  (ptr.getD 0 0).toUInt32 ||| ((ptr.getD 1 0).toUInt32 <<< 8) |||
    ((ptr.getD 2 0).toUInt32 <<< 16) ||| ((ptr.getD 3 0).toUInt32 <<< 24)

@[simp] theorem encodeFixed32_length (value : UInt32) : (encodeFixed32 value).length = 4 := rfl

theorem toUInt8_masked (value : UInt32) : (value &&& 0xff).toUInt8 = value.toUInt8 := by
  simp only [UInt32.toUInt8_and]
  exact UInt8.and_neg_one

@[simp] theorem decodeFixed32_encodeFixed32 (value : UInt32) (rest : Bytes) :
    decodeFixed32 (encodeFixed32 value ++ rest) = value := by
  apply UInt32.eq_of_toBitVec_eq
  apply BitVec.eq_of_getLsbD_eq
  intro i inside
  simp only [decodeFixed32, encodeFixed32, toUInt8_masked, List.cons_append, List.getD_cons_zero,
    List.getD_cons_succ, UInt32.toBitVec_or, UInt32.toBitVec_shiftLeft, UInt8.toBitVec_toUInt32,
    UInt32.toBitVec_toUInt8, UInt32.toBitVec_shiftRight, BitVec.getLsbD_or,
    BitVec.getLsbD_setWidth]
  simp [inside]
  grind

/-- Four bytes are the encoding of what they decode to. -/
theorem encodeFixed32_decodeFixed32 {bytes : Bytes} (long : 4 ≤ bytes.length) :
    encodeFixed32 (decodeFixed32 bytes) ++ bytes.drop 4 = bytes := by
  match bytes, long with
  | b₀ :: b₁ :: b₂ :: b₃ :: rest, _ =>
      simp only [decodeFixed32, encodeFixed32, toUInt8_masked, List.getD_cons_zero,
        List.getD_cons_succ, List.drop_succ_cons, List.drop_zero, List.cons_append, List.nil_append,
        List.cons.injEq, and_true]
      refine ⟨?_, ?_, ?_, ?_⟩
      all_goals
        apply UInt8.eq_of_toBitVec_eq
        apply BitVec.eq_of_getLsbD_eq
        intro i inside
        simp [inside] <;> grind

end MiniLsm
