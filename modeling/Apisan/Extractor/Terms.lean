/-
# Expressions of the program

The engine evaluates an expression of the program from its parts up, in the
state that it has reached. If the expression has the types that C gives it, and
all of its operations are defined, then what it evaluates to, if to anything, is
its value in every execution that the state admits; and an expression without
variables always evaluates to a constant (`Term.evaluate_value`).

Key definitions: `Term`, `Term.evaluate`, `Term.value`, `Term.WellTyped`.
Key theorems: `evaluateUnary_gives`, `Term.gives`, `Term.evaluate_value`.
-/
import Apisan.Extractor.Unknown

namespace Apisan
namespace Ento

/-- The unary operators on integers. -/
inductive UnaryOp
  | plus | minus | not | lnot
  deriving DecidableEq, Repr

/-- What an operator gives for an integer. -/
def UnaryOp.outcome (op : UnaryOp) (x : ℤ) : ℤ :=
  match op with
  | plus => x
  | minus => -x
  | not => -x - 1
  | lnot => if x = 0 then 1 else 0

/-- The types of a unary operation: `!e` has those of `e == 0`. -/
structure UnaryOp.Takes (builder : SValBuilder) (op : UnaryOp) (resultTy operandTy : QualType) : Prop where
  lnot : op = .lnot → Opcode.eq.Takes builder resultTy operandTy operandTy
  other : op ≠ .lnot → resultTy = operandTy

/-- An expression of integers, with the types of its parts; a symbol is what a
variable holds, or what a call returns. -/
inductive Term
  | constant (value : APSInt) (type : QualType)
  | symbol (sym : SymExpr)
  | unary (op : UnaryOp) (operand : Term) (type : QualType)
  | binary (op : Opcode) (lhs rhs : Term) (type : QualType)
  deriving DecidableEq, Repr

variable {builder : SValBuilder} {isTainted : NonLoc → Bool} {state : ProgramState} {L : Set SymExpr} {ρ : ℕ → ℤ}
variable {v : NonLoc}

/-- `~`, on the bits. -/
def APSInt.not (i : APSInt) : APSInt := { i with bits := ~~~i.bits }

/-- `evalMinus`: only constants are negated. -/
def evalMinus : NonLoc → ConditionSVal
  | .concreteInt value => .nonLoc (.concreteInt value.neg)
  | .symbolVal _ => .unknown

/-- `evalComplement`, likewise. -/
def evalComplement : NonLoc → ConditionSVal
  | .concreteInt value => .nonLoc (.concreteInt value.not)
  | .symbolVal _ => .unknown

namespace Term

def type : Term → QualType
  | constant _ type => type
  | symbol sym => sym.getType
  | unary _ _ type => type
  | binary _ _ _ type => type

/-- `VisitUnaryOperator`, of an operand that has a value; `!e` is `e == 0`. -/
def evaluateUnary (builder : SValBuilder) (isTainted : NonLoc → Bool) (state : ProgramState) (op : UnaryOp)
    (operandTy type : QualType) (v : NonLoc) : ConditionSVal :=
  match op with
  | .plus => .nonLoc v
  | .minus => evalMinus v
  | .not => evalComplement v
  | .lnot => evalBinOpNN builder isTainted state .eq v (makeZeroVal operandTy) type

/-- What the engine evaluates an expression to: `VisitBinaryOperator` and
`VisitUnaryOperator`, of operators that neither assign nor branch. -/
def evaluate (builder : SValBuilder) (isTainted : NonLoc → Bool) (state : ProgramState) : Term → ConditionSVal
  | constant value _ => .nonLoc (.concreteInt value)
  | symbol sym => .nonLoc (.symbolVal sym)
  | unary op operand type =>
    match evaluate builder isTainted state operand with
    | .nonLoc v => evaluateUnary builder isTainted state op operand.type type v
    | x => x
  | binary op lhs rhs type =>
    evalBinOp builder isTainted state op (evaluate builder isTainted state lhs) (evaluate builder isTainted state rhs)
      type

/-- The value of an expression in an execution. -/
def value (ρ : ℕ → ℤ) : Term → ℤ
  | constant value _ => value.value
  | symbol sym => sym.eval ρ
  | unary op operand type => type.getAPSIntType.window.wrap (op.outcome (operand.value ρ))
  | binary op lhs rhs type => type.getAPSIntType.window.wrap (op.outcome (lhs.value ρ) (rhs.value ρ))

/-- The expression reads no variable. -/
def Closed : Term → Prop
  | constant _ _ => True
  | symbol _ => False
  | unary _ operand _ => operand.Closed
  | binary _ lhs rhs _ => lhs.Closed ∧ rhs.Closed

/-- The expression has the types that C gives it, and its operations are defined
in the execution. -/
def WellTyped (builder : SValBuilder) (ρ : ℕ → ℤ) : Term → Prop
  | constant value type => value.type = type.getAPSIntType ∧ type.IsInteger
  | symbol sym => sym.Typed ∧ sym.getType.IsInteger
  | unary op operand type => operand.WellTyped builder ρ ∧ op.Takes builder type operand.type
  | binary op lhs rhs type => lhs.WellTyped builder ρ ∧ rhs.WellTyped builder ρ ∧
      op.Takes builder type lhs.type rhs.type ∧ op.Defined type.getAPSIntType (rhs.value ρ)

instance (op : UnaryOp) (resultTy operandTy : QualType) : Decidable (op.Takes builder resultTy operandTy) :=
  decidable_of_iff ((op = .lnot → Opcode.eq.Takes builder resultTy operandTy operandTy) ∧
      (op ≠ .lnot → resultTy = operandTy))
    ⟨fun h => ⟨h.1, h.2⟩, fun h => ⟨h.lnot, h.other⟩⟩

/-- Whether an expression is typed and defined can be decided. -/
def decideWellTyped (builder : SValBuilder) (ρ : ℕ → ℤ) : (t : Term) → Decidable (t.WellTyped builder ρ)
  | constant _ _ => inferInstanceAs (Decidable (_ ∧ _))
  | symbol _ => inferInstanceAs (Decidable (_ ∧ _))
  | unary _ operand _ =>
    have := decideWellTyped builder ρ operand
    inferInstanceAs (Decidable (_ ∧ _))
  | binary _ lhs rhs _ =>
    have := decideWellTyped builder ρ lhs
    have := decideWellTyped builder ρ rhs
    inferInstanceAs (Decidable (_ ∧ _ ∧ _ ∧ _))

instance (t : Term) : Decidable (t.WellTyped builder ρ) := t.decideWellTyped builder ρ

end Term

theorem APSInt.value_not (i : APSInt) : i.not.value = i.type.window.wrap (-i.value - 1) := by
  apply APSInt.value_eq_wrap (i := i.not)
  show ~~~i.bits = BitVec.ofInt i.bitWidth (-i.value - 1)
  have hneg : -i.value - 1 = -(i.value + 1) := by omega
  have hofInt : BitVec.ofInt i.bitWidth (-(i.value + 1)) = -(BitVec.ofInt i.bitWidth i.value + 1#i.bitWidth) := by
    rw [BitVec.ofInt_neg, BitVec.ofInt_add]
    rfl
  rw [hneg, hofInt, ← APSInt.bits_eq, BitVec.neg_add, BitVec.not_eq_neg_add]

/-- **A unary operation** gives the value of the operation. -/
theorem evaluateUnary_gives {op : UnaryOp} {resultTy operandTy : QualType} (hadmits : Admits L ρ state)
    (hv : v.HasType operandTy) (h : op.Takes builder resultTy operandTy) :
    Gives ρ resultTy (resultTy.getAPSIntType.window.wrap (op.outcome (v.eval ρ)))
      (Term.evaluateUnary builder isTainted state op operandTy resultTy v) := by
  cases op with
  | plus =>
    obtain rfl := h.other (by decide)
    exact .nonLoc hv (Window.wrap_of_mem hv.eval_mem).symm
  | minus =>
    obtain rfl := h.other (by decide)
    cases v with
    | symbolVal sym => exact .unknown
    | concreteInt c =>
      have hc : c.type = resultTy.getAPSIntType := hv
      exact .nonLoc hc (hc ▸ APSInt.value_neg c)
  | not =>
    obtain rfl := h.other (by decide)
    cases v with
    | symbolVal sym => exact .unknown
    | concreteInt c =>
      have hc : c.type = resultTy.getAPSIntType := hv
      exact .nonLoc hc (hc ▸ APSInt.value_not c)
  | lnot =>
    have hzero : (makeZeroVal operandTy).HasType operandTy := APSIntType.type_getZeroValue _
    have hgives := evalBinOpNN_gives isTainted hadmits (h.lnot rfl) hv hzero trivial
    rw [show (makeZeroVal operandTy).eval ρ = 0 from APSIntType.value_getZeroValue _] at hgives
    exact hgives

/-- **An expression** evaluates to no value, or to its value in every execution
that the state admits. -/
theorem Term.gives {t : Term} (isTainted : NonLoc → Bool) (hadmits : Admits L ρ state) (h : t.WellTyped builder ρ) :
    Gives ρ t.type (t.value ρ) (t.evaluate builder isTainted state) := by
  induction t with
  | constant value type => exact .nonLoc h.1 rfl
  | symbol sym => exact .nonLoc ⟨rfl, h.1⟩ rfl
  | unary op operand type ih =>
    obtain ⟨hoperand, htakes⟩ := h
    have hgives := ih hoperand
    unfold evaluate value
    cases hres : operand.evaluate builder isTainted state with
    | unknown => exact .unknown
    | undefined => exact absurd hres hgives.defined
    | nonLoc v =>
      obtain ⟨hv, hvalue⟩ := hgives.value v hres
      rw [← hvalue]
      exact evaluateUnary_gives hadmits hv htakes
  | binary op lhs rhs type ihl ihr =>
    obtain ⟨hlhs, hrhs, htakes, hdef⟩ := h
    have hl := ihl hlhs
    have hr := ihr hrhs
    unfold evaluate value
    cases hresl : lhs.evaluate builder isTainted state with
    | undefined => exact absurd hresl hl.defined
    | unknown =>
      cases hresr : rhs.evaluate builder isTainted state with
      | undefined => exact absurd hresr hr.defined
      | unknown => exact .unknown
      | nonLoc w => exact .unknown
    | nonLoc v =>
      cases hresr : rhs.evaluate builder isTainted state with
      | undefined => exact absurd hresr hr.defined
      | unknown => exact .unknown
      | nonLoc w =>
        obtain ⟨hv, hvalue⟩ := hl.value v hresl
        obtain ⟨hw, hvalue'⟩ := hr.value w hresr
        rw [← hvalue'] at hdef
        rw [← hvalue, ← hvalue']
        exact evalBinOpNN_gives isTainted hadmits htakes hv hw hdef

/-- A well-typed expression is an integer. -/
theorem Term.WellTyped.isInteger {t : Term} (h : t.WellTyped builder ρ) : t.type.IsInteger := by
  induction t with
  | constant value type => exact h.2
  | symbol sym => exact h.2
  | unary op operand type ih =>
    obtain ⟨hoperand, htakes⟩ := h
    by_cases hop : op = .lnot
    · exact (htakes.lnot hop).result
    · have hsame : type = operand.type := htakes.other hop
      exact hsame ▸ ih hoperand
  | binary op lhs rhs type => exact h.2.2.1.result

/-- What is evaluated is a constant, unless it is undefined. -/
def ConditionSVal.Folded (x : ConditionSVal) : Prop :=
  x = .undefined ∨ ∃ c, x = .nonLoc (.concreteInt c)

theorem evalCastFromNonLoc_folded {type : QualType} (htype : type.IsInteger) (c : APSInt) :
    (evalCastFromNonLoc builder (.concreteInt c) type).Folded := by
  unfold evalCastFromNonLoc
  simp only [htype.1, Bool.not_true, Bool.false_eq_true, if_false]
  split_ifs
  · exact .inr ⟨_, rfl⟩
  · exact .inr ⟨_, rfl⟩

theorem evalConstants_folded (op : Opcode) (c d : APSInt) (resultTy : QualType) :
    (evalConstants builder resultTy op c d).Folded := by
  unfold evalConstants
  dsimp only
  split
  · exact .inl rfl
  · exact .inr ⟨_, rfl⟩

/-- **An operation on two constants** is folded. -/
theorem evalBinOpNN_folded {resultTy : QualType} (hresult : resultTy.IsInteger) (op : Opcode) (c d : APSInt) :
    (evalBinOpNN builder isTainted state op (.concreteInt c) (.concreteInt d) resultTy).Folded := by
  have hsame : ∀ res, sameOperands builder resultTy op (.concreteInt c) = some res → res.Folded := by
    intro res hres
    unfold sameOperands at hres
    cases op <;> dsimp only at hres
    case xor | sub =>
      rw [if_pos hresult.1] at hres
      exact Option.some.inj hres ▸ .inr ⟨_, rfl⟩
    case and | or => exact Option.some.inj hres ▸ evalCastFromNonLoc_folded hresult c
    case eq | le | ge | lt | gt | ne => exact Option.some.inj hres ▸ .inr ⟨_, rfl⟩
    all_goals cases hres
  have hloop : ∀ h, (Machine.run (BinOp.step builder isTainted state resultTy ⟨op, .concreteInt c, .concreteInt d⟩)
      (BinOp.measure state ⟨op, .concreteInt c, .concreteInt d⟩ + 1) ⟨op, .concreteInt c, .concreteInt d⟩).get h =
        evalConstants builder resultTy op c d :=
    fun h => Option.some.inj ((Option.some_get h).trans (Machine.run_halt rfl))
  unfold evalBinOpNN
  simp only [hloop]
  split_ifs with hcd
  · cases hres : sameOperands builder resultTy op (.concreteInt c) with
    | some res => exact hsame res hres
    | none => exact evalConstants_folded op c d resultTy
  · exact evalConstants_folded op c d resultTy

/-- **A closed expression** is folded. -/
theorem Term.evaluate_folded {t : Term} (hclosed : t.Closed) (h : t.WellTyped builder ρ) :
    (t.evaluate builder isTainted state).Folded := by
  induction t with
  | constant value type => exact .inr ⟨value, rfl⟩
  | symbol sym => exact hclosed.elim
  | unary op operand type ih =>
    obtain ⟨hoperand, htakes⟩ := h
    unfold evaluate
    obtain hundef | ⟨c, hc⟩ := ih hclosed hoperand
    · rw [hundef]
      exact .inl rfl
    · rw [hc]
      cases op with
      | lnot => exact evalBinOpNN_folded (htakes.lnot rfl).result .eq c _
      | _ => exact .inr ⟨_, rfl⟩
  | binary op lhs rhs type ihl ihr =>
    obtain ⟨hlhs, hrhs, htakes, -⟩ := h
    unfold evaluate
    obtain hundef | ⟨c, hc⟩ := ihl hclosed.1 hlhs
    · rw [hundef]
      exact .inl rfl
    · obtain hundef | ⟨d, hd⟩ := ihr hclosed.2 hrhs
      · rw [hc, hundef]
        exact .inl rfl
      · rw [hc, hd]
        exact evalBinOpNN_folded htakes.result op c d

/-- **The evaluation of an expression** is sound, and complete where nothing is
read: it is never undefined; what it gives has the type of the expression and its
value, in every execution that the state admits; and a closed expression gives a
constant. -/
theorem Term.evaluate_value {t : Term} (isTainted : NonLoc → Bool) (hadmits : Admits L ρ state)
    (h : t.WellTyped builder ρ) :
    t.evaluate builder isTainted state ≠ .undefined ∧
      (∀ v, t.evaluate builder isTainted state = .nonLoc v → v.HasType t.type ∧ v.eval ρ = t.value ρ) ∧
      (t.Closed → ∃ c : APSInt, t.evaluate builder isTainted state = .nonLoc (.concreteInt c) ∧
        c.type = t.type.getAPSIntType ∧ c.value = t.value ρ) := by
  have hgives := Term.gives isTainted hadmits h
  refine ⟨hgives.defined, hgives.value, fun hclosed => ?_⟩
  have hfolded : (t.evaluate builder isTainted state).Folded := Term.evaluate_folded hclosed h
  obtain hundef | ⟨c, hc⟩ := hfolded
  · exact absurd hundef hgives.defined
  · obtain ⟨htype, hvalue⟩ := hgives.value _ hc
    exact ⟨c, hc, htype, hvalue⟩

/-- `!(4 < (x + 1) + 2)`. -/
def sumTerm : Term :=
  .unary .lnot (.binary .lt (.constant (intValue 4) intType)
    (.binary .add (.binary .add (.symbol paramX) (.constant (intValue 1) intType) intType)
      (.constant (intValue 2) intType) intType) intType) intType

/-- The constants are folded and the comparison is turned around: `x + 3 <= 4`. -/
theorem Term.evaluate_value_sumTerm :
    sumTerm.evaluate cBuilder (fun _ => false) .initial =
        .nonLoc (.symbolVal (.symInt (.symInt paramX .add (intValue 3) intType) .le (intValue 4) intType)) ∧
      (NonLoc.symbolVal (.symInt (.symInt paramX .add (intValue 3) intType) .le (intValue 4) intType)).eval
        (fun _ => 2) = 0 := by
  have hadmits : Admits ∅ (fun _ => 2) .initial := .initial
  have htyped : sumTerm.WellTyped cBuilder fun _ => 2 := by decide +kernel
  have hres : sumTerm.evaluate cBuilder (fun _ => false) .initial =
      .nonLoc (.symbolVal (.symInt (.symInt paramX .add (intValue 3) intType) .le (intValue 4) intType)) := by
    decide +kernel
  obtain ⟨-, hgives, -⟩ := Term.evaluate_value (fun _ => false) hadmits htyped
  have hvalue : sumTerm.value (fun _ => 2) = 0 := by decide +kernel
  exact ⟨hres, (hgives _ hres).2.trans hvalue⟩

end Ento
end Apisan
