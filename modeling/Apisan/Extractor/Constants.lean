/-
# Operations on constants

An operation on two constants of a type gives the integer that it gives for
their values, wrapped into the type (`evalAPSInt_arithmetic`). A shift has a
value where its amount is not negative and less than the width
(`evalAPSInt_shift`).

Key definitions: `evalAPSInt`, `Opcode.Defined`.
Key theorems: `APSInt.value_eq_wrap`, `evalAPSInt_arithmetic`, `evalAPSInt_shift`,
`evalAPSInt_comparison`.
-/
import Apisan.Lib.Bits
import Apisan.Extractor.Switches

namespace Apisan
namespace Ento
namespace APSInt

variable {i j : APSInt}

/-- An operator on bits, of constants of one type. -/
def lift (f : (w : ℕ) → BitVec w → BitVec w → BitVec w) (i j : APSInt) : APSInt :=
  { i with bits := f i.bitWidth i.bits (j.bits.setWidth i.bitWidth) }

def mul (i j : APSInt) : APSInt := lift (fun _ b c => b * c) i j

def div (i j : APSInt) : APSInt := lift (fun _ b c => if i.isUnsigned then b.udiv c else b.sdiv c) i j

def rem (i j : APSInt) : APSInt := lift (fun _ b c => if i.isUnsigned then b.umod c else b.srem c) i j

def add (i j : APSInt) : APSInt := lift (fun _ b c => b + c) i j

def and (i j : APSInt) : APSInt := lift (fun _ b c => b &&& c) i j

def xor (i j : APSInt) : APSInt := lift (fun _ b c => b ^^^ c) i j

def or (i j : APSInt) : APSInt := lift (fun _ b c => b ||| c) i j

def shl (i : APSInt) (amt : ℕ) : APSInt := { i with bits := i.bits <<< amt }

def shr (i : APSInt) (amt : ℕ) : APSInt :=
  { i with bits := if i.isUnsigned then i.bits >>> amt else i.bits.sshiftRight amt }

def isAllOnesValue (i : APSInt) : Bool := decide (i.bits = BitVec.allOnes i.bitWidth)

/-- The amount of a shift, which must not be negative or reach the width. -/
def shiftAmount (v1 v2 : APSInt) : Option ℕ :=
  if !v2.isUnsigned && v2.isNegative then none
  else if v1.bitWidth ≤ v2.getZExtValue then none
  else some v2.getZExtValue

end APSInt

/-- `evalAPSInt`; `conditionTy` is the type of truth values. The opcodes at the
end are invalid. -/
def evalAPSInt (conditionTy : QualType) (op : Opcode) (v1 v2 : APSInt) : Option APSInt :=
  match op with
  | .mul => some (v1.mul v2)
  | .div => some (v1.div v2)
  | .rem => some (v1.rem v2)
  | .add => some (v1.add v2)
  | .sub => some (v1.sub v2)
  | .shl => (APSInt.shiftAmount v1 v2).map v1.shl
  | .shr => (APSInt.shiftAmount v1 v2).map v1.shr
  | .lt => some (getTruthValue (decide (v1.value < v2.value)) conditionTy)
  | .gt => some (getTruthValue (decide (v1.value > v2.value)) conditionTy)
  | .le => some (getTruthValue (decide (v1.value ≤ v2.value)) conditionTy)
  | .ge => some (getTruthValue (decide (v1.value ≥ v2.value)) conditionTy)
  | .eq => some (getTruthValue (decide (v1.value = v2.value)) conditionTy)
  | .ne => some (getTruthValue (decide (v1.value ≠ v2.value)) conditionTy)
  | .and => some (v1.and v2)
  | .or => some (v1.or v2)
  | .xor => some (v1.xor v2)
  | _ => none

/-- The operators that work on two integers of one type. -/
def Opcode.isArithmeticOp : Opcode → Bool
  | .mul | .div | .rem | .add | .sub | .and | .xor | .or => true
  | _ => false

/-- The right operand is one that the operation is defined for: no divisor is
zero, and no shift reaches the width of the type. -/
def Opcode.Defined (op : Opcode) (type : APSIntType) (b : ℤ) : Prop :=
  match op with
  | .div | .rem => b ≠ 0
  | .shl | .shr => 0 ≤ b ∧ b < type.bitWidth ∧ b < 2 ^ 64
  | _ => True

instance (op : Opcode) (type : APSIntType) (b : ℤ) : Decidable (op.Defined type b) := by
  unfold Opcode.Defined
  split <;> infer_instance

namespace APSInt

variable {i j : APSInt}

/-- The bits are those of the value. -/
theorem bits_eq (i : APSInt) : i.bits = BitVec.ofInt i.bitWidth i.value := by
  unfold value
  split_ifs with h
  · exact (BitVec.eq_of_toNat_eq (by simp)).symm
  · exact BitVec.ofInt_toInt.symm

/-- **The bits of an integer** have its value, wrapped into the type. -/
theorem value_eq_wrap {z : ℤ} (h : i.bits = BitVec.ofInt i.bitWidth z) : i.value = i.type.window.wrap z := by
  apply value_eq_of_modEq
  have hnat : (i.bits.toNat : ℤ) = z % (2 ^ i.bitWidth : ℕ) := by
    rw [h, BitVec.toNat_ofInt]
    exact Int.toNat_of_nonneg (Int.emod_nonneg _ (Int.natCast_ne_zero.mpr (Nat.pow_pos (by decide)).ne'))
  have hmod : (i.bits.toNat : ℤ) ≡ z [ZMOD 2 ^ i.bitWidth] := by
    rw [hnat]
    push_cast
    exact Int.mod_modEq _ _
  exact i.value_modEq.trans hmod

/-- A value that the integer has already is not wrapped. -/
theorem value_eq_wrap_self {z : ℤ} (h : i.value = z) : i.value = i.type.window.wrap z := by
  rw [← h, Window.wrap_of_mem i.value_mem]

theorem bits_of_type (h : j.type = i.type) : j.bits.setWidth i.bitWidth = BitVec.ofInt i.bitWidth j.value := by
  obtain ⟨w, u, b⟩ := j
  obtain ⟨rfl, rfl⟩ := (APSIntType.mk.injEq _ _ _ _).mp h
  rw [BitVec.setWidth_eq]
  exact bits_eq _

@[simp] theorem type_lift (f : (w : ℕ) → BitVec w → BitVec w → BitVec w) : (lift f i j).type = i.type := rfl

/-- An operator that is one on the bits of all integers. -/
theorem value_lift {f : (w : ℕ) → BitVec w → BitVec w → BitVec w} {g : ℤ → ℤ → ℤ}
    (hfg : ∀ w x y, BitVec.ofInt w (g x y) = f w (BitVec.ofInt w x) (BitVec.ofInt w y)) (h : j.type = i.type) :
    (lift f i j).value = i.type.window.wrap (g i.value j.value) := by
  apply value_eq_wrap (i := lift f i j)
  show f i.bitWidth i.bits (j.bits.setWidth i.bitWidth) = BitVec.ofInt i.bitWidth (g i.value j.value)
  rw [hfg, bits_of_type h, ← bits_eq]

theorem value_div (h : j.type = i.type) : (i.div j).value = i.type.window.wrap (i.value.tdiv j.value) := by
  obtain ⟨w, u, b⟩ := i
  obtain ⟨w', u', c⟩ := j
  obtain ⟨rfl, rfl⟩ := (APSIntType.mk.injEq _ _ _ _).mp h
  cases u' with
  | true =>
    apply value_eq_wrap_self (i := div _ _)
    show (((b.udiv (c.setWidth _)).toNat : ℕ) : ℤ) = (b.toNat : ℤ).tdiv c.toNat
    rw [BitVec.setWidth_eq, BitVec.udiv_eq, BitVec.toNat_udiv, Int.ofNat_tdiv]
  | false =>
    apply value_eq_wrap (i := div _ _)
    show b.sdiv (c.setWidth _) = BitVec.ofInt _ (b.toInt.tdiv c.toInt)
    rw [BitVec.setWidth_eq]
    apply BitVec.eq_of_toInt_eq
    rw [BitVec.toInt_sdiv, BitVec.toInt_ofInt]

theorem value_rem (h : j.type = i.type) : (i.rem j).value = i.type.window.wrap (i.value.tmod j.value) := by
  obtain ⟨w, u, b⟩ := i
  obtain ⟨w', u', c⟩ := j
  obtain ⟨rfl, rfl⟩ := (APSIntType.mk.injEq _ _ _ _).mp h
  apply value_eq_wrap_self (i := rem _ _)
  cases u' with
  | true =>
    show (((b.umod (c.setWidth _)).toNat : ℕ) : ℤ) = (b.toNat : ℤ).tmod c.toNat
    rw [BitVec.setWidth_eq, BitVec.umod_eq, BitVec.toNat_umod, Int.ofNat_tmod]
  | false =>
    show (b.srem (c.setWidth _)).toInt = b.toInt.tmod c.toInt
    rw [BitVec.setWidth_eq, BitVec.toInt_srem]

theorem value_shl (i : APSInt) (n : ℕ) : (i.shl n).value = i.type.window.wrap (i.value <<< (n : ℤ)) := by
  apply value_eq_wrap (i := i.shl n)
  show i.bits <<< n = BitVec.ofInt i.bitWidth (i.value <<< (n : ℤ))
  rw [Bits.ofInt_shiftLeft, ← bits_eq]

theorem value_shr (i : APSInt) (n : ℕ) : (i.shr n).value = i.type.window.wrap (i.value >>> (n : ℤ)) := by
  apply value_eq_wrap_self (i := i.shr n)
  obtain ⟨w, u, b⟩ := i
  rw [Int.shiftRight_natCast_right]
  cases u with
  | true =>
    show (((b >>> n).toNat : ℕ) : ℤ) = (b.toNat : ℤ) >>> n
    rw [BitVec.toNat_ushiftRight]
    rfl
  | false => exact BitVec.toInt_sshiftRight

/-- All ones are minus one. -/
theorem value_of_isAllOnesValue (h : i.isAllOnesValue = true) (hsigned : i.isUnsigned = false)
    (hw : 0 < i.bitWidth) : i.value = -1 := by
  unfold value
  rw [hsigned, if_neg Bool.false_ne_true, of_decide_eq_true h, BitVec.toInt_allOnes, if_pos hw]

/-- The amount of a shift is the value of its right operand. -/
theorem shiftAmount_eq (hlow : 0 ≤ j.value) (hwidth : j.value < i.bitWidth) (hword : j.value < 2 ^ 64) :
    shiftAmount i j = some j.value.toNat := by
  -- the amount is not negative, if it is signed
  have hmsb : j.isUnsigned = false → j.bits.msb = false := fun h => by
    have hval : j.value = j.bits.toInt := if_neg (by simp [h])
    rw [BitVec.msb_eq_toInt, ← hval]
    exact decide_eq_false (by omega)
  have hvalue : (j.bits.toNat : ℤ) = j.value := by
    unfold value
    split_ifs with h
    · rfl
    · exact (BitVec.toInt_eq_toNat_of_msb (hmsb (by simpa using h))).symm
  have hnat : j.getZExtValue = j.value.toNat := by
    unfold getZExtValue
    rw [Nat.mod_eq_of_lt (by omega)]
    omega
  have hneg : ¬ (!j.isUnsigned && j.isNegative) = true := fun h => by
    obtain ⟨hsigned, hnegative⟩ := Bool.and_eq_true_iff.mp h
    rw [isNegative, hmsb (by simpa using hsigned)] at hnegative
    cases hnegative
  unfold shiftAmount
  rw [if_neg hneg, hnat, if_neg (by omega)]

end APSInt

variable (conditionTy : QualType) {op : Opcode} {v1 v2 : APSInt}

/-- **Arithmetic on constants** of one type is that on their values. -/
theorem evalAPSInt_arithmetic (hop : op.isArithmeticOp = true) (h : v2.type = v1.type) :
    ∃ r, evalAPSInt conditionTy op v1 v2 = some r ∧ r.type = v1.type ∧
      r.value = v1.type.window.wrap (op.compute v1.value v2.value) := by
  cases op
  case mul => exact ⟨_, rfl, rfl, APSInt.value_lift (fun w x y => BitVec.ofInt_mul x y) h⟩
  case div => exact ⟨_, rfl, rfl, APSInt.value_div h⟩
  case rem => exact ⟨_, rfl, rfl, APSInt.value_rem h⟩
  case add => exact ⟨_, rfl, rfl, APSInt.value_lift (fun w x y => BitVec.ofInt_add x y) h⟩
  case sub => exact ⟨_, rfl, rfl, APSInt.value_sub (congrArg APSIntType.bitWidth h)⟩
  case and => exact ⟨_, rfl, rfl, APSInt.value_lift (fun w x y => Bits.ofInt_land x y) h⟩
  case xor => exact ⟨_, rfl, rfl, APSInt.value_lift (fun w x y => Bits.ofInt_xor x y) h⟩
  case or => exact ⟨_, rfl, rfl, APSInt.value_lift (fun w x y => Bits.ofInt_lor x y) h⟩
  all_goals cases hop

/-- **A shift of a constant** is that of its value, if it is defined. -/
theorem evalAPSInt_shift (hop : op.isShiftOp = true) (h : op.Defined v1.type v2.value) :
    ∃ r, evalAPSInt conditionTy op v1 v2 = some r ∧ r.type = v1.type ∧
      r.value = v1.type.window.wrap (op.compute v1.value v2.value) := by
  have hamount : 0 ≤ v2.value ∧ v2.value < v1.bitWidth ∧ v2.value < 2 ^ 64 → APSInt.shiftAmount v1 v2 =
      some v2.value.toNat ∧ ((v2.value.toNat : ℕ) : ℤ) = v2.value := fun ⟨hlow, hwidth, hword⟩ =>
    ⟨APSInt.shiftAmount_eq hlow hwidth hword, Int.toNat_of_nonneg hlow⟩
  cases op
  case shl =>
    obtain ⟨heq, hcast⟩ := hamount h
    refine ⟨v1.shl v2.value.toNat, by rw [evalAPSInt, heq, Option.map_some], rfl, ?_⟩
    rw [APSInt.value_shl, hcast]
    rfl
  case shr =>
    obtain ⟨heq, hcast⟩ := hamount h
    refine ⟨v1.shr v2.value.toNat, by rw [evalAPSInt, heq, Option.map_some], rfl, ?_⟩
    rw [APSInt.value_shr, hcast]
    rfl
  all_goals cases hop

/-- **A comparison of constants** says whether it holds. -/
theorem evalAPSInt_comparison (v1 v2 : APSInt) (hop : op.isComparisonOp = true) :
    ∃ b, evalAPSInt conditionTy op v1 v2 = some (getTruthValue b conditionTy) ∧
      (b = true ↔ op.Holds v1.value v2.value) := by
  cases op
  case lt => exact ⟨_, rfl, decide_eq_true_iff⟩
  case gt => exact ⟨_, rfl, decide_eq_true_iff⟩
  case le => exact ⟨_, rfl, decide_eq_true_iff⟩
  case ge => exact ⟨_, rfl, decide_eq_true_iff⟩
  case eq => exact ⟨_, rfl, decide_eq_true_iff⟩
  case ne => exact ⟨_, rfl, decide_eq_true_iff⟩
  all_goals cases hop

end Ento
end Apisan
