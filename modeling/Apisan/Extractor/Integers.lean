/-
# Machine integers as integers of a window

The values of an integer type are a window of the integers, and conversions,
sums and differences are those of the integers, wrapped into it
(`APSIntType.value_convert`, `APSInt.value_sub`). The test of the constraint
manager whether a type has a value is right about values that are too small or
too large, but takes values of the other sign for their residues
(`APSIntType.mem_of_within`).

Key definitions: `APSIntType.window`, `APSIntType.Into`.
Key theorems: `APSInt.value_mem`, `APSInt.eq_of_value`, `APSIntType.value_convert`,
`APSIntType.testInRange_cases`, `APSIntType.mem_of_within`.
-/
import Mathlib.Algebra.Order.Ring.Int
import Mathlib.Tactic.Zify
import Mathlib.Tactic.Push
import Apisan.Lib.Window
import Apisan.Extractor.Ranges

namespace Apisan
namespace Ento

/-- The values of a type. -/
def APSIntType.window (t : APSIntType) : Window where
  low := if t.isUnsigned then 0 else -(2 ^ t.bitWidth / 2)
  size := 2 ^ t.bitWidth
  size_pos := Int.pow_pos (by decide)

namespace APSInt

variable {i j : APSInt} {t : APSIntType}

theorem value_mem (i : APSInt) : i.value ∈ i.type.window := by
  obtain ⟨w, u, b⟩ := i
  rw [Window.mem_iff]
  cases u with
  | true =>
    show 0 ≤ (b.toNat : ℤ) ∧ (b.toNat : ℤ) < 0 + 2 ^ w
    have hlt := b.isLt
    zify at hlt
    exact ⟨Int.natCast_nonneg _, by omega⟩
  | false =>
    show -(2 ^ w / 2) ≤ b.toInt ∧ b.toInt < -(2 ^ w / 2) + 2 ^ w
    have hlow := b.le_two_mul_toInt
    have hhigh := b.two_mul_toInt_lt
    have hpos : (0 : ℤ) < 2 ^ w := Int.pow_pos (by decide)
    generalize (2 : ℤ) ^ w = N at *
    exact ⟨by omega, by omega⟩

theorem value_modEq (i : APSInt) : i.value ≡ i.bits.toNat [ZMOD i.type.window.size] := by
  obtain ⟨w, u, b⟩ := i
  cases u with
  | true => exact Int.ModEq.refl _
  | false =>
    show b.toInt % 2 ^ w = (b.toNat : ℤ) % 2 ^ w
    rw [BitVec.toInt_eq_toNat_bmod]
    have h := Int.bmod_emod (x := (b.toNat : ℤ)) (m := 2 ^ w)
    push_cast at h
    exact h

/-- **A type has one integer of a value.** -/
theorem eq_of_value (ht : i.type = j.type) (h : i.value = j.value) : i = j := by
  obtain ⟨w, u, b⟩ := i
  obtain ⟨w', u', b'⟩ := j
  obtain ⟨rfl, rfl⟩ := (APSIntType.mk.injEq _ _ _ _).mp ht
  have hbits : b = b' := by
    cases u with
    | true =>
      have h' : (b.toNat : ℤ) = b'.toNat := h
      exact BitVec.eq_of_toNat_eq (by omega)
    | false => exact BitVec.toInt_inj.mp h
  rw [hbits]

theorem value_eq_of_modEq {z : ℤ} (hz : i.value ≡ z [ZMOD i.type.window.size]) :
    i.value = i.type.window.wrap z :=
  (Window.eq_wrap_iff i.value_mem).mpr hz

@[simp] theorem type_succ (i : APSInt) : i.succ.type = i.type := rfl

@[simp] theorem type_pred (i : APSInt) : i.pred.type = i.type := rfl

@[simp] theorem type_sub (i j : APSInt) : (i.sub j).type = i.type := rfl

@[simp] theorem type_neg (i : APSInt) : i.neg.type = i.type := rfl

/-- The bits of a sum, as residues. -/
theorem toNat_add_modEq {w : ℕ} (b c : BitVec w) :
    ((b + c).toNat : ℤ) ≡ b.toNat + c.toNat [ZMOD 2 ^ w] := by
  rw [BitVec.toNat_add]
  push_cast
  exact Int.mod_modEq _ _

theorem toNat_sub_modEq {w : ℕ} (b c : BitVec w) :
    ((b - c).toNat : ℤ) ≡ b.toNat - c.toNat [ZMOD 2 ^ w] := by
  have h := toNat_add_modEq (b - c) c
  rw [BitVec.sub_add_cancel] at h
  have h' := (h.sub_right (c.toNat : ℤ)).symm
  rwa [add_sub_cancel_right] at h'

theorem toNat_one_modEq (w : ℕ) : ((1#w).toNat : ℤ) ≡ 1 [ZMOD 2 ^ w] := by
  rw [BitVec.toNat_ofNat]
  push_cast
  exact Int.mod_modEq _ _

theorem value_succ (i : APSInt) : i.succ.value = i.type.window.wrap (i.value + 1) := by
  apply value_eq_of_modEq (i := i.succ)
  calc i.succ.value ≡ (i.bits + 1#i.bitWidth).toNat [ZMOD 2 ^ i.bitWidth] := i.succ.value_modEq
    _ ≡ i.bits.toNat + (1#i.bitWidth).toNat [ZMOD 2 ^ i.bitWidth] := toNat_add_modEq _ _
    _ ≡ i.value + 1 [ZMOD 2 ^ i.bitWidth] := (i.value_modEq.symm).add (toNat_one_modEq _)

theorem value_pred (i : APSInt) : i.pred.value = i.type.window.wrap (i.value - 1) := by
  apply value_eq_of_modEq (i := i.pred)
  calc i.pred.value ≡ (i.bits - 1#i.bitWidth).toNat [ZMOD 2 ^ i.bitWidth] := i.pred.value_modEq
    _ ≡ i.bits.toNat - (1#i.bitWidth).toNat [ZMOD 2 ^ i.bitWidth] := toNat_sub_modEq _ _
    _ ≡ i.value - 1 [ZMOD 2 ^ i.bitWidth] := (i.value_modEq.symm).sub (toNat_one_modEq _)

theorem value_sub (hw : j.bitWidth = i.bitWidth) :
    (i.sub j).value = i.type.window.wrap (i.value - j.value) := by
  apply value_eq_of_modEq (i := i.sub j)
  have hsame : ((j.bits.setWidth i.bitWidth).toNat : ℤ) ≡ j.value [ZMOD 2 ^ i.bitWidth] := by
    have hj := j.value_modEq
    show _ % _ = _ % _
    have hsize : j.type.window.size = 2 ^ i.bitWidth := congrArg (fun w : ℕ => (2 : ℤ) ^ w) hw
    rw [hsize] at hj
    rw [BitVec.toNat_setWidth, Nat.mod_eq_of_lt (hw ▸ j.bits.isLt)]
    exact hj.symm
  calc (i.sub j).value ≡ (i.bits - j.bits.setWidth i.bitWidth).toNat [ZMOD 2 ^ i.bitWidth] :=
        (i.sub j).value_modEq
    _ ≡ i.bits.toNat - (j.bits.setWidth i.bitWidth).toNat [ZMOD 2 ^ i.bitWidth] := toNat_sub_modEq _ _
    _ ≡ i.value - j.value [ZMOD 2 ^ i.bitWidth] := (i.value_modEq.symm).sub hsame

theorem value_sub_of_type (h : i.type = j.type) : (i.sub j).value = j.type.window.wrap (i.value - j.value) := by
  rw [← h]
  exact value_sub (congrArg APSIntType.bitWidth h).symm

theorem value_neg (i : APSInt) : i.neg.value = i.type.window.wrap (-i.value) := by
  apply value_eq_of_modEq (i := i.neg)
  have hneg : ((-i.bits).toNat : ℤ) ≡ -i.bits.toNat [ZMOD 2 ^ i.bitWidth] := by
    have h := toNat_sub_modEq 0#i.bitWidth i.bits
    simpa using h
  calc i.neg.value ≡ (-i.bits).toNat [ZMOD 2 ^ i.bitWidth] := i.neg.value_modEq
    _ ≡ -i.bits.toNat [ZMOD 2 ^ i.bitWidth] := hneg
    _ ≡ -i.value [ZMOD 2 ^ i.bitWidth] := i.value_modEq.symm.neg

end APSInt

namespace APSIntType

variable {t u : APSIntType}

theorem size_eq (h : t.bitWidth = u.bitWidth) : t.window.size = u.window.size :=
  congrArg (fun w : ℕ => (2 : ℤ) ^ w) h

@[simp] theorem type_convert (t : APSIntType) (i : APSInt) : (t.convert i).type = t := rfl

@[simp] theorem type_getZeroValue (t : APSIntType) : t.getZeroValue.type = t := rfl

@[simp] theorem type_getMinValue (t : APSIntType) : t.getMinValue.type = t := rfl

@[simp] theorem type_getMaxValue (t : APSIntType) : t.getMaxValue.type = t := rfl

/-- **A conversion wraps the value.** -/
theorem value_convert (t : APSIntType) (i : APSInt) : (t.convert i).value = t.window.wrap i.value := by
  apply APSInt.value_eq_of_modEq (i := t.convert i)
  have hbits : (((t.convert i).bits.toNat : ℕ) : ℤ) ≡ i.value [ZMOD 2 ^ t.bitWidth] := by
    obtain ⟨w, s, b⟩ := i
    cases s with
    | true =>
      show ((b.setWidth t.bitWidth).toNat : ℤ) ≡ b.toNat [ZMOD 2 ^ t.bitWidth]
      rw [BitVec.toNat_setWidth]
      push_cast
      exact Int.mod_modEq _ _
    | false =>
      show ((b.signExtend t.bitWidth).toNat : ℤ) ≡ b.toInt [ZMOD 2 ^ t.bitWidth]
      have hvalue := APSInt.value_modEq ⟨t.bitWidth, false, b.signExtend t.bitWidth⟩
      have hsign : (b.signExtend t.bitWidth).toInt ≡ b.toInt [ZMOD 2 ^ t.bitWidth] := by
        rcases le_total w t.bitWidth with hle | hle
        · rw [BitVec.toInt_signExtend_of_le hle]
        · rw [BitVec.toInt_signExtend_eq_toInt_bmod_of_le b hle]
          have h := Int.bmod_emod (x := b.toInt) (m := 2 ^ t.bitWidth)
          push_cast at h
          exact h
      exact hvalue.symm.trans hsign
  exact (t.convert i).value_modEq.trans hbits

@[simp] theorem value_getZeroValue (t : APSIntType) : t.getZeroValue.value = 0 := by
  obtain ⟨w, s⟩ := t
  cases s <;> simp [APSInt.value, getZeroValue]

@[simp] theorem value_getMinValue (t : APSIntType) : t.getMinValue.value = t.window.low := by
  obtain ⟨w, s⟩ := t
  cases s with
  | true => simp [APSInt.value, getMinValue, window]
  | false =>
    show (BitVec.intMin w).toInt = -(2 ^ w / 2)
    rcases Nat.eq_zero_or_pos w with rfl | hw
    · rfl
    · rw [BitVec.toInt_intMin_of_pos hw]
      obtain ⟨n, rfl⟩ : ∃ n, w = n + 1 := ⟨w - 1, by omega⟩
      rw [Nat.add_sub_cancel, pow_succ]
      omega

@[simp] theorem value_getMaxValue (t : APSIntType) (hw : 0 < t.bitWidth) :
    t.getMaxValue.value = t.window.low + t.window.size - 1 := by
  obtain ⟨w, s⟩ := t
  cases s with
  | true =>
    show ((BitVec.allOnes w).toNat : ℤ) = 0 + 2 ^ w - 1
    have hpos : 0 < 2 ^ w := Nat.pow_pos (by decide)
    rw [BitVec.toNat_allOnes]
    push_cast [hpos]
    omega
  | false =>
    show (BitVec.intMax w).toInt = -(2 ^ w / 2) + 2 ^ w - 1
    have hw' : 0 < w := hw
    obtain ⟨n, rfl⟩ : ∃ n, w = n + 1 := ⟨w - 1, by omega⟩
    rw [BitVec.toInt_intMax, Nat.add_sub_cancel, pow_succ]
    omega

end APSIntType

/-- The bits are zero for the value zero only. -/
theorem APSInt.bits_ne_zero_iff {i : APSInt} : i.bits ≠ 0 ↔ i.value ≠ 0 := by
  refine not_congr ⟨fun h => ?_, fun h => ?_⟩
  · unfold APSInt.value
    rw [h]
    split_ifs <;> simp
  · have hzero : i = i.type.getZeroValue := APSInt.eq_of_value rfl (by rw [h, APSIntType.value_getZeroValue])
    rw [hzero]
    rfl

/-! ### The range test -/

namespace APSInt

variable {i : APSInt} {n : ℕ}

/-- Without its leading zeros, a word has as many bits as its number needs. -/
theorem sub_clz_le_iff {w : ℕ} (b : BitVec w) : w - b.clz.toNat ≤ n ↔ b.toNat < 2 ^ n := by
  constructor
  · intro h
    calc b.toNat < 2 ^ (w - b.clz.toNat) := BitVec.toNat_lt_two_pow_sub_clz
      _ ≤ 2 ^ n := Nat.pow_le_pow_right (by decide) h
  · intro h
    by_contra hlt
    have hw : 0 < w := by omega
    have hzero : b ≠ 0#w := fun hb => by
      have hclz : b.clz.toNat = w := by
        rw [BitVec.clz_eq_iff_eq_zero.mpr hb]
        exact Nat.mod_eq_of_lt Nat.lt_two_pow_self
      omega
    have hle := BitVec.two_pow_sub_clz_le_toNat_of_ne_zero hw hzero
    have hpow : 2 ^ n ≤ 2 ^ (w - 1 - b.clz.toNat) := Nat.pow_le_pow_right (by decide) (by omega)
    omega

theorem getActiveBits_le_iff : i.getActiveBits ≤ n ↔ i.bits.toNat < 2 ^ n := sub_clz_le_iff i.bits

/-- The bits that a signed value needs. -/
theorem getMinSignedBits_le_iff : i.getMinSignedBits ≤ n ↔
    0 < n ∧ -(2 ^ n / 2) ≤ i.bits.toInt ∧ i.bits.toInt < 2 ^ n / 2 := by
  have hhalf : ∀ m : ℕ, (2 : ℤ) ^ (m + 1) / 2 = 2 ^ m := fun m => by
    rw [pow_succ]
    omega
  have hcond := BitVec.toInt_eq_msb_cond i.bits
  have hlt := i.bits.isLt
  unfold getMinSignedBits isNegative
  cases hmsb : i.bits.msb with
  | true =>
    rw [hmsb, if_pos rfl] at hcond
    rw [if_pos rfl]
    cases n with
    | zero => simp
    | succ m =>
      have hnot : (~~~i.bits).toNat = 2 ^ i.bitWidth - 1 - i.bits.toNat := BitVec.toNat_not
      have hbits : i.bitWidth - i.countLeadingOnes ≤ m ↔ (~~~i.bits).toNat < 2 ^ m := sub_clz_le_iff _
      rw [Nat.add_le_add_iff_right, hbits, hnot, hhalf, hcond]
      zify at hlt ⊢
      have hcast : ((2 ^ i.bitWidth - 1 - i.bits.toNat : ℕ) : ℤ) = 2 ^ i.bitWidth - 1 - i.bits.toNat := by
        push_cast [Nat.sub_sub, Nat.cast_sub (show 1 + i.bits.toNat ≤ 2 ^ i.bitWidth by omega)]
        ring
      rw [hcast]
      have hpos : (0 : ℤ) < 2 ^ m := Int.pow_pos (by decide)
      omega
  | false =>
    rw [hmsb, if_neg Bool.false_ne_true] at hcond
    rw [if_neg Bool.false_ne_true]
    cases n with
    | zero => simp
    | succ m =>
      rw [Nat.add_le_add_iff_right, getActiveBits_le_iff, hhalf, hcond]
      zify
      have hpos : (0 : ℤ) < 2 ^ m := Int.pow_pos (by decide)
      omega

end APSInt

namespace APSIntType

variable {t : APSIntType} {i : APSInt}

theorem low_of_unsigned (h : t.isUnsigned = true) : t.window.low = 0 := if_pos h

theorem low_of_signed (h : t.isUnsigned = false) : t.window.low = -(2 ^ t.bitWidth / 2) := by
  show (if t.isUnsigned then (0 : ℤ) else _) = _
  rw [h, if_neg Bool.false_ne_true]

/-- The test says within exactly of the values that fit, read as residues where
one side is unsigned. -/
theorem testInRange_eq_within : t.testInRange i = .within ↔
    if i.isUnsigned = false ∧ t.isUnsigned = false then
      0 < t.bitWidth ∧ -(2 ^ t.bitWidth / 2) ≤ i.bits.toInt ∧ i.bits.toInt < 2 ^ t.bitWidth / 2
    else i.bits.toNat < 2 ^ t.bitWidth := by
  have hwithin : ∀ n, (if n ≤ t.bitWidth then RangeTestResult.within
      else if !i.isUnsigned && i.isNegative then .below else .above) = .within ↔ n ≤ t.bitWidth := fun n => by
    by_cases hn : n ≤ t.bitWidth
    · simp [hn]
    · rw [if_neg hn]
      cases !i.isUnsigned && i.isNegative <;> simp [hn]
  unfold testInRange
  simp only [hwithin]
  by_cases h : i.isUnsigned = false ∧ t.isUnsigned = false
  · rw [if_pos h, h.1, h.2]
    exact APSInt.getMinSignedBits_le_iff
  · have hbool : (!i.isUnsigned && !t.isUnsigned) = false := by
      cases hi : i.isUnsigned <;> cases ht : t.isUnsigned <;> simp_all
    rw [if_neg h, hbool]
    exact APSInt.getActiveBits_le_iff

/-- **The range test.** A value that is not within is below the type's values or
above them. -/
theorem testInRange_cases (ht : 0 < t.bitWidth) : t.testInRange i = .within ∨
    (t.testInRange i = .below ∧ i.value < t.window.low) ∨
    (t.testInRange i = .above ∧ t.window.low + t.window.size ≤ i.value) := by
  by_cases hwithin : t.testInRange i = .within
  · exact .inl hwithin
  refine .inr ?_
  have hout := (not_congr testInRange_eq_within).mp hwithin
  have hresult : t.testInRange i = if !i.isUnsigned && i.isNegative then .below else .above := by
    unfold testInRange at hwithin ⊢
    simp only at hwithin ⊢
    split_ifs at hwithin ⊢ with h1 h2 h3 <;> first | rfl | exact absurd rfl hwithin
  have hpos : (0 : ℤ) < 2 ^ t.bitWidth := Int.pow_pos (by decide)
  have hcond := BitVec.toInt_eq_msb_cond i.bits
  have hlt := i.bits.isLt
  have hsize : t.window.size = 2 ^ t.bitWidth := rfl
  cases hi : i.isUnsigned with
  | true =>
    -- an unsigned value that does not fit is above
    rw [hi, Bool.not_true, Bool.false_and, if_neg Bool.false_ne_true] at hresult
    have hvalue : i.value = i.bits.toNat := by rw [APSInt.value, hi, if_pos rfl]
    rw [if_neg (by simp [hi])] at hout
    zify at hout
    refine .inr ⟨hresult, ?_⟩
    cases htu : t.isUnsigned with
    | true =>
      rw [low_of_unsigned htu, hsize, hvalue]
      omega
    | false =>
      rw [low_of_signed htu, hsize, hvalue]
      omega
  | false =>
    have hvalue : i.value = i.bits.toInt := by rw [APSInt.value, hi, if_neg Bool.false_ne_true]
    rw [hi, Bool.not_false, Bool.true_and] at hresult
    cases htu : t.isUnsigned with
    | true =>
      rw [if_neg (by simp [htu])] at hout
      rw [low_of_unsigned htu, hsize, hvalue]
      zify at hout
      cases hmsb : i.bits.msb with
      | true =>
        have hneg : i.isNegative = true := hmsb
        rw [hmsb, if_pos rfl] at hcond
        rw [hneg, if_pos rfl] at hresult
        zify at hlt
        exact .inl ⟨hresult, by omega⟩
      | false =>
        have hneg : i.isNegative = false := hmsb
        rw [hmsb, if_neg Bool.false_ne_true] at hcond
        rw [hneg, if_neg Bool.false_ne_true] at hresult
        exact .inr ⟨hresult, by omega⟩
    | false =>
      rw [if_pos ⟨hi, htu⟩] at hout
      rw [low_of_signed htu, hsize, hvalue]
      obtain ⟨n, hn⟩ : ∃ n, t.bitWidth = n + 1 := ⟨t.bitWidth - 1, by omega⟩
      rw [hn, pow_succ] at hout hpos ⊢
      cases hmsb : i.bits.msb with
      | true =>
        have hneg : i.isNegative = true := hmsb
        rw [hmsb, if_pos rfl] at hcond
        rw [hneg, if_pos rfl] at hresult
        zify at hlt
        exact .inl ⟨hresult, by omega⟩
      | false =>
        have hneg : i.isNegative = false := hmsb
        rw [hmsb, if_neg Bool.false_ne_true] at hcond
        rw [hneg, if_neg Bool.false_ne_true] at hresult
        exact .inr ⟨hresult, by omega⟩

/-- Values of the type are within. -/
theorem within_of_mem (ht : 0 < t.bitWidth) (h : i.value ∈ t.window) : t.testInRange i = .within := by
  rw [Window.mem_iff] at h
  rcases testInRange_cases (i := i) ht with hw | ⟨-, hlow⟩ | ⟨-, hhigh⟩
  · exact hw
  · omega
  · omega

/-- In a narrower type, what is within is a value of the type, unless an
unsigned number is read as a signed one. -/
theorem mem_of_within (hlt : t.bitWidth < i.bitWidth) (hsign : t.isUnsigned = true ∨ i.isUnsigned = false)
    (h : t.testInRange i = .within) : i.value ∈ t.window := by
  have hpow : (2 : ℤ) ^ t.bitWidth ≤ 2 ^ (i.bitWidth - 1) :=
    pow_le_pow_right₀ (by decide) (by omega)
  have hhalf : (2 : ℤ) ^ i.bitWidth = 2 ^ (i.bitWidth - 1) * 2 := by
    rw [← pow_succ, Nat.sub_add_cancel (by omega)]
  have hpos : (0 : ℤ) < 2 ^ t.bitWidth := Int.pow_pos (by decide)
  have hsize : t.window.size = 2 ^ t.bitWidth := rfl
  rw [testInRange_eq_within] at h
  rw [Window.mem_iff, hsize]
  cases htu : t.isUnsigned with
  | true =>
    rw [if_neg (by simp [htu])] at h
    rw [low_of_unsigned htu]
    zify at h
    cases hi : i.isUnsigned with
    | true =>
      rw [APSInt.value, hi, if_pos rfl]
      omega
    | false =>
      -- the word is too small to be negative
      have hcond := BitVec.toInt_eq_toNat_cond i.bits
      rw [if_pos (by zify; omega)] at hcond
      rw [APSInt.value, hi, if_neg Bool.false_ne_true, hcond]
      omega
  | false =>
    have hi : i.isUnsigned = false := hsign.resolve_left (by simp [htu])
    rw [if_pos ⟨hi, htu⟩] at h
    rw [low_of_signed htu, APSInt.value, hi, if_neg Bool.false_ne_true]
    omega

/-- Whatever is as wide as the type is within. -/
theorem within_of_width (ht : 0 < t.bitWidth) (h : t.bitWidth = i.bitWidth) : t.testInRange i = .within := by
  have hlt := i.bits.isLt
  rw [testInRange_eq_within, h]
  split_ifs with hsigned
  · have hlow := i.bits.le_two_mul_toInt
    have hhigh := i.bits.two_mul_toInt_lt
    obtain ⟨n, hn⟩ : ∃ n, i.bitWidth = n + 1 := ⟨i.bitWidth - 1, by omega⟩
    have heven : (2 : ℤ) ^ i.bitWidth = 2 ^ n * 2 := by rw [hn, pow_succ]
    exact ⟨by omega, by omega, by omega⟩
  · exact hlt

/-- Conversions from the type keep the values, or wrap them back and forth. -/
structure Into (t u : APSIntType) : Prop where
  pos : 0 < t.bitWidth
  keeps : t.bitWidth = u.bitWidth ∨ (t.bitWidth < u.bitWidth ∧ (t.isUnsigned = true ∨ u.isUnsigned = false))

instance (t u : APSIntType) : Decidable (t.Into u) :=
  decidable_of_iff (0 < t.bitWidth ∧ (t.bitWidth = u.bitWidth ∨
    (t.bitWidth < u.bitWidth ∧ (t.isUnsigned = true ∨ u.isUnsigned = false))))
    ⟨fun h => ⟨h.1, h.2⟩, fun h => ⟨h.1, h.2⟩⟩

theorem Into.refl (ht : 0 < t.bitWidth) : t.Into t := ⟨ht, .inl rfl⟩

/-- A wider type has the values. -/
theorem Into.mem {u : APSIntType} {x : ℤ} (hlt : t.bitWidth < u.bitWidth)
    (hsign : t.isUnsigned = true ∨ u.isUnsigned = false) (h : x ∈ t.window) : x ∈ u.window := by
  have hpow : (2 : ℤ) ^ t.bitWidth ≤ 2 ^ (u.bitWidth - 1) := pow_le_pow_right₀ (by decide) (by omega)
  have hhalf : (2 : ℤ) ^ u.bitWidth = 2 ^ (u.bitWidth - 1) * 2 := by
    rw [← pow_succ, Nat.sub_add_cancel (by omega)]
  have hpos : (0 : ℤ) < 2 ^ t.bitWidth := Int.pow_pos (by decide)
  have hsize : t.window.size = 2 ^ t.bitWidth := rfl
  have hsize' : u.window.size = 2 ^ u.bitWidth := rfl
  rw [Window.mem_iff, hsize] at h
  rw [Window.mem_iff, hsize']
  cases htu : t.isUnsigned with
  | true =>
    rw [low_of_unsigned htu] at h
    cases huu : u.isUnsigned with
    | true =>
      rw [low_of_unsigned huu]
      omega
    | false =>
      rw [low_of_signed huu]
      omega
  | false =>
    rw [low_of_signed htu] at h
    rw [low_of_signed (hsign.resolve_left (by simp [htu]))]
    omega

end APSIntType

end Ento
end Apisan
