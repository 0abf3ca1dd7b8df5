/-
# What binary operations give

In every execution that the state admits, the value that `evalBinOpNN` gives is
that of the operation on the values of its operands, and it has the type of the
result (`evalBinOpNN_gives`). This asks that the symbols have the types that C
gives the operands, as the evaluator ignores casts of symbols, and that the
operation is defined.

What a turn of the loop preserves is `BinOp.Computes`: the operation that is left
has the value of the one at the start (`BinOp.Turn.computes`).

Key definitions: `SymExpr.Typed`, `NonLoc.HasType`, `Opcode.Takes`,
`Opcode.outcome`, `Gives`, `BinOp.Computes`.
Key theorems: `makeSymIntVal_gives`, `BinOp.Turn.computes`, `BinOp.Ends.gives`,
`evalBinOpNN_gives`.
-/
import Apisan.Extractor.Arithmetic

namespace Apisan
namespace Ento

/-! ### Types -/

/-- An integer type, of some width. -/
def QualType.IsInteger (type : QualType) : Prop :=
  type.isIntegralOrEnumerationType = true ∧ 0 < type.getAPSIntType.bitWidth

instance (type : QualType) : Decidable type.IsInteger := inferInstanceAs (Decidable (_ ∧ _))

/-- The symbols in a symbol have the types of the operands. -/
def SymExpr.Typed : SymExpr → Prop
  | symInt lhs op rhs type => lhs.Typed ∧ (op.isAdditiveOp = true → lhs.getType = type) ∧
      (op.isComparisonOp = true → lhs.getType.IsInteger ∧ rhs.type = lhs.getType.getAPSIntType)
  | symSym lhs op _ _ => op.isComparisonOp = true → lhs.getType.IsInteger
  | _ => True

/-- Whether a symbol is typed can be decided. -/
def SymExpr.decideTyped : (sym : SymExpr) → Decidable sym.Typed
  | symInt lhs op rhs type =>
    have := decideTyped lhs
    inferInstanceAs (Decidable (lhs.Typed ∧ (op.isAdditiveOp = true → lhs.getType = type) ∧
      (op.isComparisonOp = true → lhs.getType.IsInteger ∧ rhs.type = lhs.getType.getAPSIntType)))
  | symSym lhs op _ _ => inferInstanceAs (Decidable (op.isComparisonOp = true → lhs.getType.IsInteger))
  | data _ _ _ => .isTrue trivial
  | intSym _ _ _ _ => .isTrue trivial
  | cast _ _ _ => .isTrue trivial

instance (sym : SymExpr) : Decidable sym.Typed := sym.decideTyped

/-- The value is one of a type. -/
def NonLoc.HasType : NonLoc → QualType → Prop
  | symbolVal sym, type => sym.getType = type ∧ sym.Typed
  | concreteInt value, type => value.type = type.getAPSIntType

/-- The types of an operation, as C converts them: operands are compared in one
type, to a truth value, which is an `int`; a shift has the type of its left
operand; other operations have one type. -/
structure Opcode.Takes (builder : SValBuilder) (op : Opcode) (resultTy lhsTy rhsTy : QualType) : Prop where
  result : resultTy.IsInteger
  left : lhsTy.IsInteger
  right : rhsTy.IsInteger
  comparison : op.isComparisonOp = true →
    resultTy = builder.conditionTy ∧ resultTy.getAPSIntType.isUnsigned = false ∧ lhsTy = rhsTy
  shift : op.isShiftOp = true → lhsTy = resultTy ∧ builder.isBooleanType resultTy = false
  arithmetic : op.isComparisonOp = false → op.isShiftOp = false →
    op.isArithmeticOp = true ∧ lhsTy = resultTy ∧ rhsTy = resultTy ∧ builder.isBooleanType resultTy = false

instance (op : Opcode) (resultTy lhsTy rhsTy : QualType) (builder : SValBuilder) :
    Decidable (op.Takes builder resultTy lhsTy rhsTy) :=
  decidable_of_iff (resultTy.IsInteger ∧ lhsTy.IsInteger ∧ rhsTy.IsInteger ∧
      (op.isComparisonOp = true →
        resultTy = builder.conditionTy ∧ resultTy.getAPSIntType.isUnsigned = false ∧ lhsTy = rhsTy) ∧
      (op.isShiftOp = true → lhsTy = resultTy ∧ builder.isBooleanType resultTy = false) ∧
      (op.isComparisonOp = false → op.isShiftOp = false →
        op.isArithmeticOp = true ∧ lhsTy = resultTy ∧ rhsTy = resultTy ∧ builder.isBooleanType resultTy = false))
    ⟨fun ⟨h1, h2, h3, h4, h5, h6⟩ => ⟨h1, h2, h3, h4, h5, h6⟩,
      fun h => ⟨h.result, h.left, h.right, h.comparison, h.shift, h.arithmetic⟩⟩

/-- What an operation gives for two integers, as an integer of any size. -/
def Opcode.outcome (op : Opcode) (a b : ℤ) : ℤ :=
  if op.isComparisonOp then (if op.Holds a b then 1 else 0) else op.compute a b

/-- The evaluation gives no value, or one of the type and the value. -/
structure Gives (ρ : ℕ → ℤ) (type : QualType) (x : ℤ) (res : ConditionSVal) : Prop where
  defined : res ≠ .undefined
  value : ∀ v, res = .nonLoc v → v.HasType type ∧ v.eval ρ = x

variable {builder : SValBuilder} {isTainted : NonLoc → Bool} {state : ProgramState} {L : Set SymExpr} {ρ : ℕ → ℤ}
variable {resultTy lhsTy rhsTy type : QualType} {op : Opcode} {lhs rhs v : NonLoc} {sym : SymExpr} {c : APSInt}
variable {a b x : ℤ}

theorem Gives.unknown : Gives ρ type x .unknown where
  defined h := by cases h
  value _ h := by cases h

theorem Gives.nonLoc (hv : v.HasType type) (hx : v.eval ρ = x) : Gives ρ type x (.nonLoc v) where
  defined h := by cases h
  value _ h := ConditionSVal.nonLoc.inj h ▸ ⟨hv, hx⟩

namespace QualType.IsInteger

theorem eq_integer (h : type.IsInteger) :
    type = .integer type.getAPSIntType.bitWidth type.getAPSIntType.isUnsigned := by
  obtain ⟨hintegral, -⟩ := h
  cases type with
  | integer w u => rfl
  | pointer w => cases hintegral
  | reference w => cases hintegral
  | other w => cases hintegral

theorem not_isLocType (h : type.IsInteger) : type.isLocType = false := by
  rw [h.eq_integer]
  rfl

theorem not_isReferenceType (h : type.IsInteger) : type.isReferenceType = false := by
  rw [h.eq_integer]
  rfl

theorem zero_mem (type : QualType) : (0 : ℤ) ∈ type.getAPSIntType.window :=
  APSIntType.value_getZeroValue _ ▸ type.getAPSIntType.getZeroValue.value_mem

end QualType.IsInteger

/-- A typed value is one of the type's. -/
theorem NonLoc.HasType.eval_mem (h : v.HasType type) : v.eval ρ ∈ type.getAPSIntType.window := by
  cases v with
  | symbolVal sym => exact h.1 ▸ Ento.eval_mem sym
  | concreteInt value =>
    have hmem := value.value_mem
    rwa [show value.type = type.getAPSIntType from h] at hmem

/-- Integers with the same bits are one value. -/
theorem wrap_eq_of_ofInt {t : APSIntType} (h : BitVec.ofInt t.bitWidth a = BitVec.ofInt t.bitWidth b) :
    t.window.wrap a = t.window.wrap b := by
  have hvalue : ∀ z, APSInt.value ⟨t.bitWidth, t.isUnsigned, BitVec.ofInt t.bitWidth z⟩ = t.window.wrap z :=
    fun z => APSInt.value_eq_wrap (i := ⟨t.bitWidth, t.isUnsigned, BitVec.ofInt t.bitWidth z⟩) rfl
  rw [← hvalue, ← hvalue, h]

theorem convert_value (h : c.type = type.getAPSIntType) : (type.getAPSIntType.convert c).value = c.value := by
  rw [APSIntType.value_convert, Window.wrap_of_mem (h ▸ c.value_mem)]

/-! ### Operations of typed operands -/

/-- On operands of its types, an operation needs no conversion. -/
theorem apply_eq (h : op.Takes builder resultTy lhsTy rhsTy) (ha : a ∈ lhsTy.getAPSIntType.window)
    (hb : b ∈ rhsTy.getAPSIntType.window) :
    op.apply resultTy.getAPSIntType lhsTy.getAPSIntType rhsTy.getAPSIntType a b =
      resultTy.getAPSIntType.window.wrap (op.outcome a b) := by
  unfold Opcode.apply Opcode.outcome
  cases hcomparison : op.isComparisonOp with
  | true =>
    obtain ⟨-, -, rfl⟩ := h.comparison hcomparison
    rw [if_pos rfl, if_pos rfl, max_self, Window.wrap_of_mem ha, Window.wrap_of_mem hb]
  | false =>
    rw [if_neg Bool.false_ne_true, if_neg Bool.false_ne_true]
    cases hshift : op.isShiftOp with
    | true =>
      obtain ⟨rfl, -⟩ := h.shift hshift
      rw [if_pos rfl, Window.wrap_of_mem ha]
    | false =>
      obtain ⟨-, rfl, rfl, -⟩ := h.arithmetic hcomparison hshift
      rw [if_neg Bool.false_ne_true, Window.wrap_of_mem ha, Window.wrap_of_mem hb]

theorem getTruthValue_value (hsigned : type.getAPSIntType.isUnsigned = false) (p : Bool) :
    (getTruthValue p type).type = type.getAPSIntType ∧
      (getTruthValue p type).value = type.getAPSIntType.window.wrap (if p then 1 else 0) := by
  have htype : (getTruthValue p type).type = type.getAPSIntType := by
    show APSIntType.mk type.getAPSIntType.bitWidth false = _
    rw [← hsigned]
  refine ⟨htype, ?_⟩
  rw [← htype]
  apply APSInt.value_eq_wrap
  cases p <;> rfl

/-- A truth value is what a comparison gives. -/
theorem makeTruthVal_gives {p : Bool} (h : op.Takes builder resultTy lhsTy rhsTy) (hop : op.isComparisonOp = true)
    (hp : p = true ↔ op.Holds a b) :
    Gives ρ resultTy (resultTy.getAPSIntType.window.wrap (op.outcome a b)) (.nonLoc (makeTruthVal p resultTy)) := by
  obtain ⟨htype, hvalue⟩ := getTruthValue_value (h.comparison hop).2.1 p
  refine .nonLoc htype (hvalue.trans ?_)
  unfold Opcode.outcome
  rw [if_pos hop, if_congr hp rfl rfl]

/-- A cast to the value's own type keeps it. -/
theorem evalCastFromNonLoc_gives (htype : type.IsInteger) (hbool : builder.isBooleanType type = false)
    (hv : v.HasType type) : Gives ρ type (v.eval ρ) (evalCastFromNonLoc builder v type) := by
  unfold evalCastFromNonLoc
  cases v with
  | symbolVal sym =>
    have hsame : haveSameType sym.getType type = true := by
      rw [haveSameType, decide_eq_true hv.1, Bool.true_or]
    simp only [hsame, if_true]
    exact .nonLoc hv rfl
  | concreteInt c =>
    simp only [hbool, Bool.false_eq_true, if_false, htype.1, Bool.not_true]
    exact .nonLoc (APSIntType.type_convert _ _) (convert_value hv)

theorem makeZeroVal_gives (type : QualType) : Gives ρ type 0 (.nonLoc (makeZeroVal type)) :=
  .nonLoc (APSIntType.type_getZeroValue _) (APSIntType.value_getZeroValue _)

/-- The constant of a symbolic expression keeps its value. -/
theorem convertedRHS_value (h : op.Takes builder resultTy lhsTy rhsTy) (hsym : sym.getType = lhsTy)
    (hc : c.type = rhsTy.getAPSIntType) (hdef : op.Defined resultTy.getAPSIntType c.value) :
    (convertedRHS resultTy sym op c).value = c.value ∧
      (op.isComparisonOp = true → convertedRHS resultTy sym op c = c) := by
  unfold convertedRHS
  cases hcomparison : op.isComparisonOp with
  | true =>
    obtain ⟨-, -, rfl⟩ := h.comparison hcomparison
    subst hsym
    have hwidth : c.bitWidth = sym.getType.getAPSIntType.bitWidth := congrArg APSIntType.bitWidth hc
    have hsign : ¬ (c.bitWidth = sym.getType.getAPSIntType.bitWidth ∧ (!c.isUnsigned) = true ∧
        (!sym.getType.isSignedIntegerOrEnumerationType) = true) := by
      have hunsigned : c.isUnsigned = sym.getType.getAPSIntType.isUnsigned := congrArg APSIntType.isUnsigned hc
      rw [h.left.eq_integer] at hunsigned ⊢
      rw [hunsigned]
      simp [QualType.isSignedIntegerOrEnumerationType, QualType.getAPSIntType]
    have heq : (if c.bitWidth < sym.getType.getAPSIntType.bitWidth then sym.getType.getAPSIntType.convert c
        else if c.bitWidth = sym.getType.getAPSIntType.bitWidth ∧ (!c.isUnsigned) = true ∧
          (!sym.getType.isSignedIntegerOrEnumerationType) = true then sym.getType.getAPSIntType.convert c
        else c) = c := by rw [if_neg (by omega), if_neg hsign]
    simp only [if_true]
    exact ⟨congrArg APSInt.value heq, fun _ => heq⟩
  | false =>
    simp only [Bool.false_eq_true, if_false, false_implies, and_true]
    cases hshift : op.isShiftOp with
    | true =>
      -- the amount of a shift is less than the width
      have hamount : 0 ≤ c.value ∧ c.value < resultTy.getAPSIntType.bitWidth := by
        cases op <;> first | exact ⟨hdef.1, hdef.2.1⟩ | cases hshift
      have hwidth := h.result.2
      rw [APSIntType.value_convert]
      apply Window.wrap_of_mem
      rw [Window.mem_iff]
      generalize resultTy.getAPSIntType = t at *
      have hlt : t.bitWidth - 1 < 2 ^ (t.bitWidth - 1) := Nat.lt_two_pow_self
      have hpow : 2 ^ t.bitWidth = 2 ^ (t.bitWidth - 1) * 2 := by rw [← pow_succ, Nat.sub_add_cancel hwidth]
      have hsize : t.window.size = ((2 ^ t.bitWidth : ℕ) : ℤ) := by
        push_cast
        rfl
      cases ht : t.isUnsigned with
      | true =>
        rw [APSIntType.low_of_unsigned ht, hsize]
        omega
      | false =>
        have hlow : t.window.low = -(((2 ^ t.bitWidth : ℕ) : ℤ) / 2) := by
          rw [APSIntType.low_of_signed ht]
          push_cast
          rfl
        rw [hlow, hsize]
        omega
    | false =>
      obtain ⟨-, -, rfl, -⟩ := h.arithmetic hcomparison hshift
      exact convert_value hc

/-- An expression of a symbol and a constant. -/
theorem symInt_gives (h : op.Takes builder resultTy lhsTy rhsTy) (hsym : (NonLoc.symbolVal sym).HasType lhsTy)
    (hc : c.type = rhsTy.getAPSIntType) (hdef : op.Defined resultTy.getAPSIntType c.value) :
    Gives ρ resultTy (resultTy.getAPSIntType.window.wrap (op.outcome (sym.eval ρ) c.value))
      (.nonLoc (.symbolVal (.symInt sym op (convertedRHS resultTy sym op c) resultTy))) := by
  obtain ⟨hvalue, hsame⟩ := convertedRHS_value h hsym.1 hc hdef
  have hmem : sym.eval ρ ∈ lhsTy.getAPSIntType.window := hsym.eval_mem
  have hmem' : c.value ∈ rhsTy.getAPSIntType.window := hc ▸ c.value_mem
  refine .nonLoc ⟨rfl, hsym.2, fun hadditive => ?_, fun hcomparison => ?_⟩ ?_
  · have hop : op.isComparisonOp = false ∧ op.isShiftOp = false := by
      cases op <;> first | exact ⟨rfl, rfl⟩ | cases hadditive
    exact hsym.1.trans (h.arithmetic hop.1 hop.2).2.1
  · obtain ⟨-, -, rfl⟩ := h.comparison hcomparison
    rw [hsame hcomparison, hsym.1]
    exact ⟨h.left, hc⟩
  · show op.apply resultTy.getAPSIntType sym.getType.getAPSIntType (convertedRHS resultTy sym op c).type
      (sym.eval ρ) (convertedRHS resultTy sym op c).value = _
    rw [hvalue, hsym.1]
    cases hcomparison : op.isComparisonOp with
    | true =>
      rw [hsame hcomparison, hc]
      exact apply_eq h hmem hmem'
    | false =>
      -- the type of the constant is not looked at
      rw [← apply_eq h hmem hmem']
      unfold Opcode.apply
      rw [hcomparison, if_neg Bool.false_ne_true, if_neg Bool.false_ne_true]

/-- **`MakeSymIntVal`** gives the value of the operation. -/
theorem makeSymIntVal_gives (h : op.Takes builder resultTy lhsTy rhsTy)
    (hsym : (NonLoc.symbolVal sym).HasType lhsTy) (hc : c.type = rhsTy.getAPSIntType)
    (hdef : op.Defined resultTy.getAPSIntType c.value) :
    Gives ρ resultTy (resultTy.getAPSIntType.window.wrap (op.outcome (sym.eval ρ) c.value))
      (makeSymIntVal builder resultTy sym op c) := by
  have hgeneral := symInt_gives (ρ := ρ) h hsym hc hdef
  have hzero := QualType.IsInteger.zero_mem resultTy
  have hmem : sym.eval ρ ∈ lhsTy.getAPSIntType.window := hsym.eval_mem
  -- an operation that changes nothing gives the symbol, and one that gives zero gives that
  have hsame : lhsTy = resultTy → builder.isBooleanType resultTy = false →
      BitVec.ofInt resultTy.getAPSIntType.bitWidth (op.outcome (sym.eval ρ) c.value) =
        BitVec.ofInt resultTy.getAPSIntType.bitWidth (sym.eval ρ) →
      Gives ρ resultTy (resultTy.getAPSIntType.window.wrap (op.outcome (sym.eval ρ) c.value))
        (evalCastFromNonLoc builder (.symbolVal sym) resultTy) := by
    rintro rfl hbool hbits
    rw [wrap_eq_of_ofInt hbits, Window.wrap_of_mem hmem]
    exact evalCastFromNonLoc_gives h.result hbool hsym
  have hnone : BitVec.ofInt resultTy.getAPSIntType.bitWidth (op.outcome (sym.eval ρ) c.value) =
        BitVec.ofInt resultTy.getAPSIntType.bitWidth 0 →
      Gives ρ resultTy (resultTy.getAPSIntType.window.wrap (op.outcome (sym.eval ρ) c.value))
        (.nonLoc (makeZeroVal resultTy)) := by
    intro hbits
    rw [wrap_eq_of_ofInt hbits, Window.wrap_of_mem hzero]
    exact makeZeroVal_gives resultTy
  have hones : c.isAllOnesValue = true → rhsTy = resultTy →
      BitVec.ofInt resultTy.getAPSIntType.bitWidth c.value = BitVec.allOnes _ := by
    rintro hones rfl
    have hbits := c.bits_eq
    rw [of_decide_eq_true hones] at hbits
    have hwidth : c.bitWidth = rhsTy.getAPSIntType.bitWidth := congrArg APSIntType.bitWidth hc
    rw [← hwidth]
    exact hbits.symm
  unfold makeSymIntVal
  cases op <;> dsimp only
  case mul =>
    obtain ⟨-, hleft, -, hbool⟩ := h.arithmetic rfl rfl
    split_ifs with h0 h1
    · exact hnone (by rw [h0]; exact congrArg _ (mul_zero _))
    · exact hsame hleft hbool (by rw [h1]; exact congrArg _ (mul_one _))
    · exact hgeneral
  case div =>
    obtain ⟨-, hleft, -, hbool⟩ := h.arithmetic rfl rfl
    split_ifs with h0 h1
    · exact absurd h0 hdef
    · exact hsame hleft hbool (by rw [h1]; exact congrArg _ (Int.tdiv_one _))
    · exact hgeneral
  case rem =>
    split_ifs with h0 h1
    · exact absurd h0 hdef
    · exact hnone (by rw [h1]; exact congrArg _ (Int.tmod_one _))
    · exact hgeneral
  case add =>
    obtain ⟨-, hleft, -, hbool⟩ := h.arithmetic rfl rfl
    split_ifs with h0
    · exact hsame hleft hbool (by rw [h0]; exact congrArg _ (add_zero _))
    · exact hgeneral
  case sub =>
    obtain ⟨-, hleft, -, hbool⟩ := h.arithmetic rfl rfl
    split_ifs with h0
    · exact hsame hleft hbool (by rw [h0]; exact congrArg _ (sub_zero _))
    · exact hgeneral
  case shl =>
    obtain ⟨hleft, hbool⟩ := h.shift rfl
    split_ifs with h0
    · refine hsame hleft hbool ?_
      rw [h0]
      exact (Bits.ofInt_shiftLeft _ 0).trans (BitVec.shiftLeft_zero _)
    · exact hgeneral
  case shr =>
    obtain ⟨hleft, hbool⟩ := h.shift rfl
    split_ifs with h0
    · refine hsame hleft hbool ?_
      rw [h0]
      exact congrArg _ ((Int.shiftRight_natCast_right _ 0).trans (Int.shiftRight_zero _))
    · exact hgeneral
  case xor =>
    obtain ⟨-, hleft, -, hbool⟩ := h.arithmetic rfl rfl
    split_ifs with h0
    · refine hsame hleft hbool ?_
      rw [h0]
      exact (Bits.ofInt_xor _ _).trans BitVec.xor_zero
    · exact hgeneral
  case and =>
    obtain ⟨-, hleft, hright, hbool⟩ := h.arithmetic rfl rfl
    split_ifs with h0 h1
    · refine hnone ?_
      rw [h0]
      exact (Bits.ofInt_land _ _).trans BitVec.and_zero
    · refine hsame hleft hbool ((Bits.ofInt_land _ _).trans ?_)
      rw [hones h1 hright, BitVec.and_allOnes]
    · exact hgeneral
  case or =>
    obtain ⟨-, hleft, hright, hbool⟩ := h.arithmetic rfl rfl
    split_ifs with h0 h1
    · refine hsame hleft hbool ?_
      rw [h0]
      exact (Bits.ofInt_lor _ _).trans BitVec.or_zero
    · have hbits : BitVec.ofInt resultTy.getAPSIntType.bitWidth (Opcode.or.outcome (sym.eval ρ) c.value) =
          BitVec.ofInt resultTy.getAPSIntType.bitWidth c.value := by
        refine (Bits.ofInt_lor _ _).trans ?_
        rw [hones h1 hright, BitVec.or_allOnes]
      have htype : c.type = resultTy.getAPSIntType := hright ▸ hc
      rw [wrap_eq_of_ofInt hbits]
      exact .nonLoc (APSIntType.type_convert _ _) (APSIntType.value_convert _ _)
    · exact hgeneral
  case lt | gt | le | ge | eq | ne => exact hgeneral
  all_goals cases (h.arithmetic rfl rfl).1

/-- **Two constants** give the value of the operation. -/
theorem evalConstants_gives {d : APSInt} (h : op.Takes builder resultTy lhsTy rhsTy)
    (hc : c.type = lhsTy.getAPSIntType) (hd : d.type = rhsTy.getAPSIntType)
    (hdef : op.Defined resultTy.getAPSIntType d.value) :
    Gives ρ resultTy (resultTy.getAPSIntType.window.wrap (op.outcome c.value d.value))
      (evalConstants builder resultTy op c d) := by
  unfold evalConstants
  simp only
  cases hcomparison : op.isComparisonOp with
  | true =>
    have hshift : op.isShiftOp = false := by cases op <;> first | rfl | cases hcomparison
    obtain ⟨hresult, -, rfl⟩ := h.comparison hcomparison
    obtain ⟨p, heval, hp⟩ := evalAPSInt_comparison builder.conditionTy (lhsTy.getAPSIntType.convert c)
      (lhsTy.getAPSIntType.convert d) hcomparison
    rw [convert_value hc, convert_value hd] at hp
    rw [hshift, if_pos rfl, if_neg Bool.false_ne_true, hc, hd, max_self, heval, ← hresult]
    exact makeTruthVal_gives h hcomparison hp
  | false =>
    rw [if_neg Bool.false_ne_true]
    have houtcome : op.outcome c.value d.value = op.compute c.value d.value := by
      rw [Opcode.outcome, hcomparison, if_neg Bool.false_ne_true]
    rw [houtcome]
    cases hshift : op.isShiftOp with
    | true =>
      obtain ⟨rfl, -⟩ := h.shift hshift
      have hdef' : op.Defined c.type d.value := hc ▸ hdef
      obtain ⟨r, heval, htype, hvalue⟩ := evalAPSInt_shift builder.conditionTy hshift hdef'
      rw [if_pos rfl, heval]
      exact .nonLoc (htype.trans hc) (hvalue.trans (by rw [hc]))
    | false =>
      obtain ⟨harith, rfl, rfl, -⟩ := h.arithmetic hcomparison hshift
      have hsame : (rhsTy.getAPSIntType.convert d).type = (rhsTy.getAPSIntType.convert c).type := rfl
      obtain ⟨r, heval, htype, hvalue⟩ := evalAPSInt_arithmetic builder.conditionTy harith hsame
      rw [convert_value hc, convert_value hd] at hvalue
      rw [if_neg Bool.false_ne_true, heval]
      exact .nonLoc htype hvalue

/-- **An expression of two values** has the value of the operation. -/
theorem makeSymExprValNN_gives (h : op.Takes builder resultTy lhsTy rhsTy) (hlhs : lhs.HasType lhsTy)
    (hrhs : rhs.HasType rhsTy) :
    Gives ρ resultTy (resultTy.getAPSIntType.window.wrap (op.outcome (lhs.eval ρ) (rhs.eval ρ)))
      (makeSymExprValNN isTainted resultTy op lhs rhs) := by
  have hvalue := apply_eq h (hlhs.eval_mem (ρ := ρ)) (hrhs.eval_mem (ρ := ρ))
  unfold makeSymExprValNN
  split_ifs with htainted
  · exact .unknown
  cases lhs with
  | symbolVal symLHS =>
    obtain ⟨rfl, htyped⟩ := hlhs
    cases rhs with
    | symbolVal symRHS =>
      obtain ⟨rfl, -⟩ := hrhs
      dsimp only
      split_ifs
      · exact .nonLoc ⟨rfl, fun _ => h.left⟩ hvalue
      · exact .unknown
    | concreteInt rInt =>
      dsimp only
      split_ifs
      · refine .nonLoc ⟨rfl, htyped, fun hadditive => ?_, fun hcomparison => ?_⟩ ?_
        · have hop : op.isComparisonOp = false ∧ op.isShiftOp = false := by
            cases op <;> first | exact ⟨rfl, rfl⟩ | cases hadditive
          exact (h.arithmetic hop.1 hop.2).2.1
        · obtain ⟨-, -, rfl⟩ := h.comparison hcomparison
          exact ⟨h.left, hrhs⟩
        · have htype : rInt.type = rhsTy.getAPSIntType := hrhs
          rw [← htype] at hvalue
          exact hvalue
      · exact .unknown
  | concreteInt lInt =>
    cases rhs with
    | symbolVal symRHS =>
      obtain ⟨rfl, -⟩ := hrhs
      dsimp only
      split_ifs
      · have htype : lInt.type = lhsTy.getAPSIntType := hlhs
        rw [← htype] at hvalue
        exact .nonLoc ⟨rfl, trivial⟩ hvalue
      · exact .unknown
    | concreteInt rInt => exact .unknown

/-- A known value has the operand's type. -/
theorem getKnownValue_type (hgood : state.Good) (hv : v.HasType type) (h : getKnownValue state v = some c) :
    c.type = type.getAPSIntType := by
  cases v with
  | symbolVal sym =>
    obtain ⟨ranges, hranges, hconcrete⟩ := Option.bind_eq_some_iff.mp h
    have htyped := (hgood sym ranges hranges).typed
    unfold RangeSet.getConcreteValue at hconcrete
    split at hconcrete
    · next r =>
      split_ifs at hconcrete
      rw [← Option.some.inj hconcrete, (htyped r List.mem_cons_self).1, hv.1]
    · cases hconcrete
  | concreteInt w =>
    obtain rfl := Option.some.inj h
    exact hv

/-- A known value is the operand's. -/
theorem getKnownValue_eval (hadmits : Admits L ρ state) (hv : v.HasType type) (h : getKnownValue state v = some c) :
    c.type = type.getAPSIntType ∧ c.value = v.eval ρ := by
  cases v with
  | symbolVal sym =>
    obtain ⟨htype, hvalue⟩ := getSymVal_eval hadmits h
    exact ⟨htype.trans (congrArg _ hv.1), hvalue⟩
  | concreteInt w =>
    obtain rfl := Option.some.inj h
    exact ⟨hv, rfl⟩

/-! ### The loop -/

/-- The operands have the types of the operation. -/
def BinOp.Typed (builder : SValBuilder) (resultTy : QualType) (s : BinOp) : Prop :=
  ∃ lhsTy rhsTy, s.op.Takes builder resultTy lhsTy rhsTy ∧ s.lhs.HasType lhsTy ∧ s.rhs.HasType rhsTy

/-- **What a turn preserves**: the operation that is left is typed and defined,
and has the value. -/
structure BinOp.Computes (builder : SValBuilder) (ρ : ℕ → ℤ) (resultTy : QualType) (x : ℤ) (s : BinOp) : Prop where
  typed : s.Typed builder resultTy
  defined : s.op.Defined resultTy.getAPSIntType (s.rhs.eval ρ)
  value : resultTy.getAPSIntType.window.wrap (s.op.outcome (s.lhs.eval ρ) (s.rhs.eval ρ)) = x

theorem Opcode.outcome_comparison (hop : op.isComparisonOp = true) :
    op.outcome a b = if op.Holds a b then 1 else 0 := if_pos hop

/-- Swapped operands have the same outcome. -/
theorem Opcode.outcome_swap (hop : op.swaps = true) (t : APSIntType) (a b : ℤ) :
    t.window.wrap (op.reverseComparisonOp.outcome b a) = t.window.wrap (op.outcome a b) := by
  cases hcomparison : op.isComparisonOp with
  | true =>
    rw [outcome_comparison (Opcode.isComparisonOp_reverse hcomparison), outcome_comparison hcomparison,
      if_congr Opcode.reverse_holds rfl rfl]
  | false =>
    cases op
    case add => exact congrArg _ (add_comm b a)
    case mul => exact congrArg _ (mul_comm b a)
    case and =>
      show t.window.wrap (b.land a) = t.window.wrap (a.land b)
      apply wrap_eq_of_ofInt
      rw [Bits.ofInt_land, Bits.ofInt_land, BitVec.and_comm]
    case xor =>
      show t.window.wrap (b.xor a) = t.window.wrap (a.xor b)
      apply wrap_eq_of_ofInt
      rw [Bits.ofInt_xor, Bits.ofInt_xor, BitVec.xor_comm]
    case or =>
      show t.window.wrap (b.lor a) = t.window.wrap (a.lor b)
      apply wrap_eq_of_ofInt
      rw [Bits.ofInt_lor, Bits.ofInt_lor, BitVec.or_comm]
    all_goals first | cases hcomparison; done | cases hop

theorem Opcode.Takes.swap (h : op.Takes builder resultTy lhsTy rhsTy) (hop : op.swaps = true) :
    op.reverseComparisonOp.Takes builder resultTy rhsTy lhsTy where
  result := h.result
  left := h.right
  right := h.left
  comparison hcomparison := by
    have hop' : op.isComparisonOp = true := by cases op <;> first | rfl | cases hcomparison
    obtain ⟨hresult, hsigned, heq⟩ := h.comparison hop'
    exact ⟨hresult, hsigned, heq.symm⟩
  shift hshift := by cases op <;> first | cases hop; done | cases hshift
  arithmetic hcomparison hshift := by
    have hop' : op.isComparisonOp = false ∧ op.isShiftOp = false ∧ op.reverseComparisonOp = op := by
      cases op <;> first | exact ⟨rfl, rfl, rfl⟩ | cases hop; done | cases hcomparison
    obtain ⟨harith, hleft, hright, hbool⟩ := h.arithmetic hop'.1 hop'.2.1
    rw [hop'.2.2]
    exact ⟨harith, hright, hleft, hbool⟩

/-- Constants that are added one after the other are added at once. -/
theorem fold_value {W : Window} {lop : Opcode} (hop : op.isAdditiveOp = true) (hlop : lop.isAdditiveOp = true)
    (a c d : ℤ) :
    W.wrap (lop.outcome a (W.wrap (if lop = op then c + d else c - d))) =
      W.wrap (op.outcome (W.wrap (lop.outcome a c)) d) := by
  apply Window.wrap_eq_iff.mpr
  cases lop
  case add =>
    cases op
    case add =>
      calc a + W.wrap (c + d) ≡ a + (c + d) [ZMOD W.size] := (Window.wrap_modEq _ _).add_left _
        _ = (a + c) + d := (add_assoc _ _ _).symm
        _ ≡ W.wrap (a + c) + d [ZMOD W.size] := (Window.wrap_modEq _ _).symm.add_right _
    case sub =>
      calc a + W.wrap (c - d) ≡ a + (c - d) [ZMOD W.size] := (Window.wrap_modEq _ _).add_left _
        _ = (a + c) - d := (add_sub_assoc _ _ _).symm
        _ ≡ W.wrap (a + c) - d [ZMOD W.size] := (Window.wrap_modEq _ _).symm.sub_right _
    all_goals cases hop
  case sub =>
    cases op
    case add =>
      calc a - W.wrap (c - d) ≡ a - (c - d) [ZMOD W.size] := (Window.wrap_modEq _ _).sub_left _
        _ = (a - c) + d := by omega
        _ ≡ W.wrap (a - c) + d [ZMOD W.size] := (Window.wrap_modEq _ _).symm.add_right _
    case sub =>
      calc a - W.wrap (c + d) ≡ a - (c + d) [ZMOD W.size] := (Window.wrap_modEq _ _).sub_left _
        _ = (a - c) - d := by omega
        _ ≡ W.wrap (a - c) - d [ZMOD W.size] := (Window.wrap_modEq _ _).symm.sub_right _
    all_goals cases hop
  all_goals cases hlop

namespace BinOp

variable {input s t : BinOp} {res : ConditionSVal}

/-- Of sums and differences. -/
theorem kind_of_isAdditiveOp (h : op.isAdditiveOp = true) :
    op.isComparisonOp = false ∧ op.isShiftOp = false ∧ op.isArithmeticOp = true := by
  cases op <;> first | exact ⟨rfl, rfl, rfl⟩ | cases h

theorem takes_of_isAdditiveOp {lop : Opcode} (hop : op.isAdditiveOp = true) (hlop : lop.isAdditiveOp = true)
    (h : op.Takes builder resultTy lhsTy rhsTy) :
    lhsTy = resultTy ∧ rhsTy = resultTy ∧ lop.Takes builder resultTy resultTy resultTy := by
  obtain ⟨hcomparison, hshift, -⟩ := kind_of_isAdditiveOp hop
  obtain ⟨hcomparison', hshift', harith'⟩ := kind_of_isAdditiveOp hlop
  obtain ⟨-, rfl, rfl, hbool⟩ := h.arithmetic hcomparison hshift
  refine ⟨rfl, rfl, h.result, h.result, h.result, fun h => ?_, fun h => ?_, fun _ _ => ⟨harith', rfl, rfl, hbool⟩⟩
  · rw [hcomparison'] at h
    cases h
  · rw [hshift'] at h
    cases h

/-- A turn keeps the types. -/
theorem Turn.typed (hgood : state.Good) (hs : s.Typed builder resultTy) (h : Turn state resultTy s t) :
    t.Typed builder resultTy := by
  obtain ⟨lhsTy, rhsTy, htakes, hlhs, hrhs⟩ := hs
  cases h with
  | swap hconstant hunknown hop => exact ⟨rhsTy, lhsTy, htakes.swap hop, hrhs, hlhs⟩
  | constant hsym hc =>
    rw [hsym] at hlhs
    exact ⟨lhsTy, rhsTy, htakes, getKnownValue_type hgood hlhs hc, hrhs⟩
  | @fold l lop c d type hsym hd hop hlop =>
    obtain ⟨rfl, rfl, htakes'⟩ := takes_of_isAdditiveOp hop hlop htakes
    rw [hsym] at hlhs
    obtain ⟨rfl, hl, hadditive, -⟩ := hlhs
    refine ⟨type, type, htakes', ⟨hadditive hlop, hl⟩, ?_⟩
    show (if lop = s.op then _ else _ : APSInt).type = _
    split_ifs <;> rfl

/-- **A turn keeps the value** of the operation. -/
theorem Turn.computes (hadmits : Admits L ρ state) (hs : s.Computes builder ρ resultTy x)
    (h : Turn state resultTy s t) : t.Computes builder ρ resultTy x := by
  refine ⟨h.typed hadmits.good hs.typed, ?_, ?_⟩
  · cases h with
    | swap hconstant hunknown hop =>
      cases hsop : s.op <;> rw [hsop] at hop <;> first | exact trivial | cases hop
    | constant hsym hc => exact hs.defined
    | @fold l lop c d type hsym hd hop hlop => cases lop <;> first | exact trivial | cases hlop
  obtain ⟨lhsTy, rhsTy, htakes, hlhs, hrhs⟩ := hs.typed
  cases h with
  | swap hconstant hunknown hop => exact (Opcode.outcome_swap hop _ _ _).trans hs.value
  | constant hsym hc =>
    rw [hsym] at hlhs
    obtain ⟨htype, hvalue⟩ := getKnownValue_eval hadmits hlhs hc
    rw [← hs.value, hsym, ← hvalue]
    rfl
  | @fold l lop c d type hsym hd hop hlop =>
    have hvalue := hs.value
    obtain ⟨htype, hdvalue⟩ := getKnownValue_eval hadmits hrhs hd
    obtain ⟨rfl, rfl, htakes'⟩ := takes_of_isAdditiveOp hop hlop htakes
    rw [hsym] at hlhs hvalue
    obtain ⟨hsame, hl, hadditive, -⟩ := hlhs
    obtain rfl : type = rhsTy := hsame
    obtain ⟨hcomparison, hshift, -⟩ := kind_of_isAdditiveOp hlop
    -- the constants are folded in the type of the result
    have hmem : l.eval ρ ∈ type.getAPSIntType.window := hadditive hlop ▸ Ento.eval_mem l
    have hinner : (NonLoc.symbolVal (.symInt l lop c type)).eval ρ = type.getAPSIntType.window.wrap
        (lop.outcome (l.eval ρ) (type.getAPSIntType.convert c).value) := by
      have happly := apply_eq htakes' hmem (b := (type.getAPSIntType.convert c).value) (APSInt.value_mem _)
      rw [← happly]
      show lop.apply type.getAPSIntType l.getType.getAPSIntType c.type (l.eval ρ) c.value = _
      unfold Opcode.apply
      rw [hcomparison, hshift, if_neg Bool.false_ne_true, if_neg Bool.false_ne_true,
        if_neg Bool.false_ne_true, if_neg Bool.false_ne_true, APSIntType.value_convert, Window.wrap_wrap rfl]
    have hconstant : (if lop = s.op then (type.getAPSIntType.convert c).add (type.getAPSIntType.convert d)
          else (type.getAPSIntType.convert c).sub (type.getAPSIntType.convert d)).value =
        type.getAPSIntType.window.wrap (if lop = s.op then (type.getAPSIntType.convert c).value + s.rhs.eval ρ
          else (type.getAPSIntType.convert c).value - s.rhs.eval ρ) := by
      rw [← hdvalue, ← convert_value htype]
      split_ifs
      · exact APSInt.value_lift (fun w x y => BitVec.ofInt_add x y) rfl
      · exact APSInt.value_sub rfl
    rw [← hvalue, hinner]
    refine (congrArg (fun z => type.getAPSIntType.window.wrap (lop.outcome (l.eval ρ) z)) hconstant).trans ?_
    exact fold_value hop hlop _ _ _

/-- **The turn that ends the loop** gives the value. -/
theorem Ends.gives (hadmits : Admits L ρ state) (hinput : input.Computes builder ρ resultTy x)
    (hs : s.Computes builder ρ resultTy x) (hop : getKnownValue state s.rhs = none → s.op = input.op)
    (h : Ends builder isTainted state resultTy input s res) : Gives ρ resultTy x res := by
  obtain ⟨lhsTy, rhsTy, htakes, hlhs, hrhs⟩ := hs.typed
  have hdef := hs.defined
  cases h with
  | @constants c d hconstant hd =>
    obtain ⟨htype, hvalue⟩ := getKnownValue_eval hadmits hrhs hd
    rw [hconstant] at hlhs
    have hgives := evalConstants_gives (ρ := ρ) (c := c) (d := d) htakes hlhs htype (hvalue ▸ hdef)
    rw [← hs.value, hconstant, ← hvalue]
    exact hgives
  | @shifted c hconstant hshift hc =>
    obtain ⟨rfl, hbool⟩ := htakes.shift hshift
    have hgives := evalCastFromNonLoc_gives (ρ := ρ) htakes.result hbool hlhs
    have hsame : s.op.outcome (s.lhs.eval ρ) (s.rhs.eval ρ) = s.lhs.eval ρ := by
      rw [hconstant]
      cases hsop : s.op <;> rw [hsop] at hshift hdef
      case shl =>
        obtain ⟨n, hn⟩ : ∃ n : ℕ, (n : ℤ) = s.rhs.eval ρ := ⟨_, Int.toNat_of_nonneg hdef.1⟩
        have hzero : c.value = 0 := hc.resolve_right fun h => by
          rw [hsop] at h
          cases h.1
        show c.value <<< s.rhs.eval ρ = c.value
        rw [hzero, ← hn, Int.shiftLeft_eq_mul_pow, zero_mul]
      case shr =>
        obtain ⟨n, hn⟩ : ∃ n : ℕ, (n : ℤ) = s.rhs.eval ρ := ⟨_, Int.toNat_of_nonneg hdef.1⟩
        show c.value >>> s.rhs.eval ρ = c.value
        rw [← hn]
        rcases hc with hzero | ⟨-, hones, hsigned⟩
        · rw [hzero, Int.shiftRight_natCast_right, Int.zero_shiftRight]
        · have hwidth : 0 < c.bitWidth := by
            rw [hconstant] at hlhs
            have hwidth := congrArg APSIntType.bitWidth hlhs
            exact lt_of_lt_of_eq htakes.result.2 hwidth.symm
          rw [APSInt.value_of_isAllOnesValue hones hsigned hwidth, Int.shiftRight_natCast_right]
          show Int.negSucc (0 >>> n) = _
          rw [Nat.zero_shiftRight]
          rfl
      all_goals cases hshift
    have hx : s.lhs.eval ρ = x := by
      rw [← hs.value, hsame, Window.wrap_of_mem (hlhs.eval_mem (ρ := ρ))]
    rw [← hx]
    exact hgives
  | @negated l lop c type hsym heq hzero hlop =>
    have hx := hs.value
    rw [hsym] at hlhs hx
    rw [heq] at htakes hx
    obtain ⟨rfl, hl, -, hcompares⟩ := hlhs
    obtain ⟨hlty, hc⟩ := hcompares hlop
    obtain ⟨hresult, hsigned, -⟩ := htakes.comparison rfl
    have hnegate : lop.negateComparisonOp.isComparisonOp = true := Opcode.isComparisonOp_negate.trans hlop
    have hother : lop.negateComparisonOp.isShiftOp = false ∧ lop.negateComparisonOp.isAdditiveOp = false := by
      cases lop <;> first | exact ⟨rfl, rfl⟩ | cases hlop
    have htakes' : lop.negateComparisonOp.Takes builder resultTy l.getType l.getType := by
      refine ⟨htakes.result, hlty, hlty, fun _ => ⟨hresult, hsigned, rfl⟩, fun h => ?_, fun h => ?_⟩
      · rw [hother.1] at h
        cases h
      · rw [hnegate] at h
        cases h
    refine .nonLoc ⟨rfl, hl, fun h => ?_, fun _ => ⟨hlty, hc⟩⟩ ?_
    · rw [hother.2] at h
      cases h
    · have hmem := Ento.eval_mem (ρ := ρ) l
      have hmem' : c.value ∈ l.getType.getAPSIntType.window := hc ▸ c.value_mem
      have happly : SymExpr.eval ρ (.symInt l lop.negateComparisonOp c resultTy) =
          resultTy.getAPSIntType.window.wrap (lop.negateComparisonOp.outcome (l.eval ρ) c.value) := by
        rw [SymExpr.eval, hc]
        exact apply_eq htakes' hmem hmem'
      have htrue : SymExpr.eval ρ (.symInt l lop c type) ≠ 0 ↔ lop.Holds (l.eval ρ) c.value := by
        rw [SymExpr.eval, hc]
        refine (apply_comparison hlop htakes.left.2 _ _ _ _).trans ?_
        rw [max_self, Window.wrap_of_mem hmem, Window.wrap_of_mem hmem']
      have hrhs0 : s.rhs.eval ρ = 0 := by
        cases hsrhs : s.rhs with
        | concreteInt d =>
          rw [hsrhs] at hzero
          exact of_decide_eq_true hzero
        | symbolVal sym =>
          rw [hsrhs] at hzero
          cases hzero
      have hiff : lop.negateComparisonOp.Holds (l.eval ρ) c.value ↔
          Opcode.eq.Holds (SymExpr.eval ρ (.symInt l lop c type)) (s.rhs.eval ρ) := by
        rw [Opcode.negate_holds hlop, ← htrue, hrhs0, not_not]
        rfl
      calc SymExpr.eval ρ (.symInt l lop.negateComparisonOp c resultTy)
          = resultTy.getAPSIntType.window.wrap (lop.negateComparisonOp.outcome (l.eval ρ) c.value) := happly
        _ = resultTy.getAPSIntType.window.wrap
            (Opcode.eq.outcome (SymExpr.eval ρ (.symInt l lop c type)) (s.rhs.eval ρ)) := by
          rw [Opcode.outcome_comparison hnegate, Opcode.outcome_comparison rfl, if_congr hiff rfl rfl]
        _ = x := hx
  | @symInt sym c hsym hc =>
    rw [hsym] at hlhs
    obtain ⟨htype, hvalue⟩ := getKnownValue_eval hadmits hrhs hc
    have hgives := makeSymIntVal_gives (ρ := ρ) htakes hlhs htype (hvalue ▸ hdef)
    rw [← hs.value, hsym, ← hvalue]
    exact hgives
  | giveUp hunknown =>
    obtain ⟨lhsTy', rhsTy', htakes', hlhs', hrhs'⟩ := hinput.typed
    rw [hop hunknown, ← hinput.value]
    exact makeSymExprValNN_gives htakes' hlhs' hrhs'

/-- **The loop** keeps the value of the operation at its start. -/
theorem run_gives (hadmits : Admits L ρ state) (hinput : input.Computes builder ρ resultTy x) {n : ℕ}
    (h : Machine.run (step builder isTainted state resultTy input) n input = some res) :
    Gives ρ resultTy x res := by
  obtain ⟨t, hreach, hends⟩ := Machine.exists_reach_of_run h
  -- what is not known on the right is as it was
  have hinvariant : t.Computes builder ρ resultTy x ∧ (getKnownValue state t.rhs = none → t.op = input.op) := by
    refine hreach.invariant (I := fun s => s.Computes builder ρ resultTy x ∧
      (getKnownValue state s.rhs = none → s.op = input.op)) (fun s t hs hnext => ?_) ⟨hinput, fun _ => rfl⟩
    have hturn := turn_of_step hnext
    refine ⟨hturn.computes hadmits hs.1, fun hunknown => ?_⟩
    cases hturn with
    | swap hlhs hrhs hop =>
      rw [hlhs] at hunknown
      cases hunknown
    | constant hlhs hc => exact hs.2 hunknown
    | fold hlhs hrhs hop hlop => cases hunknown
  exact (ends_of_step hends).gives hadmits hinput hinvariant.1 hinvariant.2

end BinOp

/-- The same value on both sides. -/
theorem sameOperands_gives {res : ConditionSVal} (h : op.Takes builder resultTy lhsTy rhsTy)
    (hlhs : lhs.HasType lhsTy) (hres : sameOperands builder resultTy op lhs = some res) :
    Gives ρ resultTy (resultTy.getAPSIntType.window.wrap (op.outcome (lhs.eval ρ) (lhs.eval ρ))) res := by
  have hzero := QualType.IsInteger.zero_mem resultTy
  have hmem := hlhs.eval_mem (ρ := ρ)
  unfold sameOperands at hres
  cases op <;> dsimp only at hres
  case eq => exact Option.some.inj hres ▸ makeTruthVal_gives h rfl (iff_of_true rfl rfl)
  case le | ge => exact Option.some.inj hres ▸ makeTruthVal_gives h rfl (iff_of_true rfl (le_refl _))
  case lt | gt => exact Option.some.inj hres ▸ makeTruthVal_gives h rfl (iff_of_false Bool.false_ne_true (lt_irrefl _))
  case ne => exact Option.some.inj hres ▸ makeTruthVal_gives h rfl (iff_of_false Bool.false_ne_true fun h => h rfl)
  case xor =>
    rw [if_pos h.result.1] at hres
    have hbits : BitVec.ofInt resultTy.getAPSIntType.bitWidth (Opcode.xor.outcome (lhs.eval ρ) (lhs.eval ρ)) =
        BitVec.ofInt resultTy.getAPSIntType.bitWidth 0 := (Bits.ofInt_xor _ _).trans BitVec.xor_self
    rw [wrap_eq_of_ofInt hbits, Window.wrap_of_mem hzero]
    exact Option.some.inj hres ▸ makeZeroVal_gives resultTy
  case sub =>
    rw [if_pos h.result.1] at hres
    have hsub : Opcode.sub.outcome (lhs.eval ρ) (lhs.eval ρ) = 0 := sub_self (lhs.eval ρ)
    rw [hsub, Window.wrap_of_mem hzero]
    exact Option.some.inj hres ▸ makeZeroVal_gives resultTy
  case and =>
    obtain ⟨-, rfl, -, hbool⟩ := h.arithmetic rfl rfl
    have hbits : BitVec.ofInt lhsTy.getAPSIntType.bitWidth (Opcode.and.outcome (lhs.eval ρ) (lhs.eval ρ)) =
        BitVec.ofInt lhsTy.getAPSIntType.bitWidth (lhs.eval ρ) := (Bits.ofInt_land _ _).trans BitVec.and_self
    rw [wrap_eq_of_ofInt hbits, Window.wrap_of_mem hmem]
    exact Option.some.inj hres ▸ evalCastFromNonLoc_gives h.result hbool hlhs
  case or =>
    obtain ⟨-, rfl, -, hbool⟩ := h.arithmetic rfl rfl
    have hbits : BitVec.ofInt lhsTy.getAPSIntType.bitWidth (Opcode.or.outcome (lhs.eval ρ) (lhs.eval ρ)) =
        BitVec.ofInt lhsTy.getAPSIntType.bitWidth (lhs.eval ρ) := (Bits.ofInt_lor _ _).trans BitVec.or_self
    rw [wrap_eq_of_ofInt hbits, Window.wrap_of_mem hmem]
    exact Option.some.inj hres ▸ evalCastFromNonLoc_gives h.result hbool hlhs
  all_goals cases hres

/-- **A binary operation** gives no value, or the value of the operation, in
every execution that the state admits. -/
theorem evalBinOpNN_gives (isTainted : NonLoc → Bool) (hadmits : Admits L ρ state)
    (h : op.Takes builder resultTy lhsTy rhsTy) (hlhs : lhs.HasType lhsTy) (hrhs : rhs.HasType rhsTy)
    (hdef : op.Defined resultTy.getAPSIntType (rhs.eval ρ)) :
    Gives ρ resultTy (resultTy.getAPSIntType.window.wrap (op.outcome (lhs.eval ρ) (rhs.eval ρ)))
      (evalBinOpNN builder isTainted state op lhs rhs resultTy) := by
  have hloop := BinOp.halts builder isTainted state resultTy ⟨op, lhs, rhs⟩ ⟨op, lhs, rhs⟩
  have hinput : BinOp.Computes builder ρ resultTy
      (resultTy.getAPSIntType.window.wrap (op.outcome (lhs.eval ρ) (rhs.eval ρ))) ⟨op, lhs, rhs⟩ :=
    ⟨⟨lhsTy, rhsTy, h, hlhs, hrhs⟩, hdef, rfl⟩
  have hrun := BinOp.run_gives hadmits hinput (Option.some_get hloop).symm
  unfold evalBinOpNN
  split_ifs with hsame
  · subst hsame
    cases hres : sameOperands builder resultTy op lhs with
    | some res => exact sameOperands_gives h hlhs hres
    | none => exact hrun
  · exact hrun

end Ento
end Apisan
