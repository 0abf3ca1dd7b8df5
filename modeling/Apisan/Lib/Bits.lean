/-
# Bit vectors of integers

The bits of an integer, in two's complement, are those of its residue. Bitwise
operations on integers, and shifts, are those on the bit vectors.

Key theorems: `Bits.getLsbD_ofInt`, `Bits.ofInt_land`, `Bits.ofInt_lor`, `Bits.ofInt_xor`,
`Bits.ofInt_shiftLeft`.
-/
import Mathlib.Data.Int.Bitwise

namespace Bits

variable {w : ℕ}

/-- The bits of the vector are those of the integer. -/
theorem getLsbD_ofInt (x : ℤ) {i : ℕ} (hi : i < w) : (BitVec.ofInt w x).getLsbD i = x.testBit i := by
  have hnat : ∀ n : ℕ, (BitVec.ofNat w n).getLsbD i = n.testBit i := fun n => by
    rw [BitVec.getLsbD_ofNat, decide_eq_true hi, Bool.true_and]
  cases x with
  | ofNat n => exact hnat n
  | negSucc n =>
    rw [BitVec.ofInt_negSucc_eq_not_ofNat, BitVec.getLsbD_not, hnat, decide_eq_true hi, Bool.true_and]
    rfl

theorem ofInt_land (x y : ℤ) : BitVec.ofInt w (x.land y) = BitVec.ofInt w x &&& BitVec.ofInt w y := by
  apply BitVec.eq_of_getLsbD_eq
  intro i hi
  rw [BitVec.getLsbD_and, getLsbD_ofInt _ hi, getLsbD_ofInt _ hi, getLsbD_ofInt _ hi, Int.testBit_land]

theorem ofInt_lor (x y : ℤ) : BitVec.ofInt w (x.lor y) = BitVec.ofInt w x ||| BitVec.ofInt w y := by
  apply BitVec.eq_of_getLsbD_eq
  intro i hi
  rw [BitVec.getLsbD_or, getLsbD_ofInt _ hi, getLsbD_ofInt _ hi, getLsbD_ofInt _ hi, Int.testBit_lor]

theorem ofInt_xor (x y : ℤ) : BitVec.ofInt w (x.xor y) = BitVec.ofInt w x ^^^ BitVec.ofInt w y := by
  apply BitVec.eq_of_getLsbD_eq
  intro i hi
  rw [BitVec.getLsbD_xor, getLsbD_ofInt _ hi, getLsbD_ofInt _ hi, getLsbD_ofInt _ hi, Int.testBit_lxor]

theorem ofInt_shiftLeft (x : ℤ) (n : ℕ) : BitVec.ofInt w (x <<< (n : ℤ)) = BitVec.ofInt w x <<< n := by
  have htwo : BitVec.ofInt w ((2 ^ n : ℕ) : ℤ) = BitVec.twoPow w n := by
    apply BitVec.eq_of_toNat_eq
    rw [BitVec.ofInt_natCast, BitVec.toNat_ofNat, BitVec.toNat_twoPow]
  calc BitVec.ofInt w (x <<< (n : ℤ)) = BitVec.ofInt w (x * (2 ^ n : ℕ)) := by rw [Int.shiftLeft_eq_mul_pow]
    _ = BitVec.ofInt w x * BitVec.twoPow w n := by rw [BitVec.ofInt_mul, htwo]
    _ = BitVec.ofInt w x <<< n := (BitVec.shiftLeft_eq_mul_twoPow _ _).symm

end Bits
