/-
# Binary operations on symbolic values

`evalBinOpNN` computes with constants, and makes expressions of symbols, as
simple ones as it can: it swaps operands, folds constants that are added, negates
comparisons, and takes a symbol that has only one value for that value. It is a
loop, in which each turn that goes on is one of three (`BinOp.Turn`) and makes a
measure smaller, so it ends (`BinOp.halts`).

Casts of symbols between integer types are ignored (`evalCastFromNonLoc`), so the
symbols must have the types of their operands.

Key definitions: `makeSymIntVal`, `BinOp.step`, `BinOp.Turn`, `BinOp.Ends`,
`evalBinOpNN`.
Key theorems: `BinOp.turn_of_step`, `BinOp.ends_of_step`, `BinOp.Turn.measure_lt`,
`BinOp.halts`, `evalEQ_eq`.
-/
import Apisan.Lib.Machine
import Apisan.Extractor.Constants

namespace Apisan
namespace Ento

/-! ### The evaluator -/

/-- What the builder of values knows of the language: the types of conditions
and of `int`, and which types are boolean. -/
structure SValBuilder where
  conditionTy : QualType
  intTy : QualType
  isBooleanType : QualType → Bool

/-- The types are the same, or both are integers: truncations and extensions of
symbols are not handled. -/
def haveSameType (ty1 ty2 : QualType) : Bool :=
  decide (ty1 = ty2) || (ty1.isIntegralOrEnumerationType && ty2.isIntegralOrEnumerationType)

/-- `getKnownValue`: the only value, if there is one. -/
def getKnownValue (state : ProgramState) : NonLoc → Option APSInt
  | .concreteInt value => some value
  | .symbolVal sym => getSymVal state sym

def NonLoc.isZeroConstant : NonLoc → Bool
  | concreteInt value => decide (value.value = 0)
  | symbolVal _ => false

def Opcode.isAdditiveOp : Opcode → Bool
  | .add | .sub => true
  | _ => false

/-- `computeComplexity`: the number of symbols in a symbol. -/
def SymExpr.computeComplexity : SymExpr → ℕ
  | data _ _ _ => 1
  | symInt lhs _ _ _ => lhs.computeComplexity + 1
  | intSym _ _ rhs _ => rhs.computeComplexity + 1
  | symSym lhs _ rhs _ => lhs.computeComplexity + rhs.computeComplexity + 1
  | cast operand _ _ => operand.computeComplexity + 1

def makeTruthVal (b : Bool) (type : QualType) : NonLoc := .concreteInt (getTruthValue b type)

/-- `makeIntVal`, of zero. -/
def makeZeroVal (type : QualType) : NonLoc := .concreteInt type.getAPSIntType.getZeroValue

section

variable (builder : SValBuilder) (isTainted : NonLoc → Bool) (state : ProgramState) (resultTy : QualType)

/-- `evalCastFromNonLoc`, to a type that is no location. Casts of symbols between
integers are ignored. -/
def evalCastFromNonLoc (val : NonLoc) (castTy : QualType) : ConditionSVal :=
  match val with
  | .symbolVal sym =>
    if haveSameType sym.getType castTy then .nonLoc val
    else if !castTy.isLocType then .nonLoc (.symbolVal (.cast sym sym.getType castTy))
    else .unknown
  | .concreteInt i =>
    if builder.isBooleanType castTy then .nonLoc (makeTruthVal (decide (i.bits ≠ 0)) castTy)
    else if !castTy.isIntegralOrEnumerationType then .unknown
    else .nonLoc (.concreteInt (castTy.getAPSIntType.convert i))

/-- The constant of a symbolic expression: one that is compared is converted if
the symbol's type is larger, others are converted to the type of the result. -/
def convertedRHS (lhs : SymExpr) (op : Opcode) (rhs : APSInt) : APSInt :=
  let type := lhs.getType.getAPSIntType
  if op.isComparisonOp then
    if rhs.bitWidth < type.bitWidth then type.convert rhs
    else if rhs.bitWidth = type.bitWidth ∧ !rhs.isUnsigned ∧ !lhs.getType.isSignedIntegerOrEnumerationType then
      type.convert rhs
    else rhs
  else resultTy.getAPSIntType.convert rhs

/-- `MakeSymIntVal`: an operation on a symbol and a constant, reduced if that is
zero, one or all ones. -/
def makeSymIntVal (lhs : SymExpr) (op : Opcode) (rhs : APSInt) : ConditionSVal :=
  let idempotent := evalCastFromNonLoc builder (.symbolVal lhs) resultTy
  let zero := ConditionSVal.nonLoc (makeZeroVal resultTy)
  let symInt := ConditionSVal.nonLoc (.symbolVal (.symInt lhs op (convertedRHS resultTy lhs op rhs) resultTy))
  match op with
  | .mul => if rhs.value = 0 then zero else if rhs.value = 1 then idempotent else symInt
  | .div => if rhs.value = 0 then .undefined else if rhs.value = 1 then idempotent else symInt
  | .rem => if rhs.value = 0 then .undefined else if rhs.value = 1 then zero else symInt
  | .add | .sub | .shl | .shr | .xor => if rhs.value = 0 then idempotent else symInt
  | .and => if rhs.value = 0 then zero else if rhs.isAllOnesValue then idempotent else symInt
  | .or =>
    if rhs.value = 0 then idempotent
    else if rhs.isAllOnesValue then .nonLoc (.concreteInt (resultTy.getAPSIntType.convert rhs))
    else symInt
  | _ => symInt

/-- `MaxComp`. -/
def maxComp : ℕ := 10000

/-- `makeSymExprValNN`: an expression of two symbols, or of a symbol and a
constant, if one of them is tainted. -/
def makeSymExprValNN (op : Opcode) (lhs rhs : NonLoc) : ConditionSVal :=
  if !isTainted rhs && !isTainted lhs then .unknown
  else
    match lhs, rhs with
    | .symbolVal symLHS, .symbolVal symRHS =>
      if symLHS.computeComplexity + symRHS.computeComplexity < maxComp then
        .nonLoc (.symbolVal (.symSym symLHS op symRHS resultTy))
      else .unknown
    | .symbolVal symLHS, .concreteInt rInt =>
      if symLHS.computeComplexity < maxComp then .nonLoc (.symbolVal (.symInt symLHS op rInt resultTy))
      else .unknown
    | .concreteInt lInt, .symbolVal symRHS =>
      if symRHS.computeComplexity < maxComp then .nonLoc (.symbolVal (.intSym lInt op symRHS resultTy))
      else .unknown
    | .concreteInt _, .concreteInt _ => .unknown

/-- Two known constants: a comparison is made in the larger type, a shift in the
left one's, other operations in the result's. -/
def evalConstants (op : Opcode) (lhsValue rhsValue : APSInt) : ConditionSVal :=
  let type := if op.isComparisonOp then lhsValue.type.max rhsValue.type else resultTy.getAPSIntType
  let result :=
    if op.isShiftOp then evalAPSInt builder.conditionTy op lhsValue rhsValue
    else evalAPSInt builder.conditionTy op (type.convert lhsValue) (type.convert rhsValue)
  match result with
  | none => .undefined
  | some result => .nonLoc (.concreteInt result)

/-- The trivial case, where the left side and the right side are the same. -/
def sameOperands (op : Opcode) (lhs : NonLoc) : Option ConditionSVal :=
  match op with
  | .eq | .le | .ge => some (.nonLoc (makeTruthVal true resultTy))
  | .lt | .gt | .ne => some (.nonLoc (makeTruthVal false resultTy))
  | .xor | .sub =>
    some (if resultTy.isIntegralOrEnumerationType then .nonLoc (makeZeroVal resultTy)
      else evalCastFromNonLoc builder (makeZeroVal builder.intTy) resultTy)
  | .or | .and => some (evalCastFromNonLoc builder lhs resultTy)
  | _ => none

/-- A binary operation: what the loop of `evalBinOpNN` changes. -/
structure BinOp where
  op : Opcode
  lhs : NonLoc
  rhs : NonLoc
  deriving DecidableEq, Repr

/-- The left side is a constant, the right side is not known: commutative
operations and comparisons are swapped. -/
def BinOp.stepConstant (input s : BinOp) (lhsValue : APSInt) : BinOp ⊕ ConditionSVal :=
  let giveUp := makeSymExprValNN isTainted resultTy s.op input.lhs input.rhs
  match s.op with
  | .lt | .gt | .le | .ge | .eq | .ne | .add | .mul | .and | .xor | .or =>
    .inl ⟨s.op.reverseComparisonOp, s.rhs, s.lhs⟩
  | .shr =>
    if (lhsValue.isAllOnesValue && !lhsValue.isUnsigned) || decide (lhsValue.value = 0) then
      .inr (evalCastFromNonLoc builder s.lhs resultTy)
    else .inr giveUp
  | .shl => if lhsValue.value = 0 then .inr (evalCastFromNonLoc builder s.lhs resultTy) else .inr giveUp
  | _ => .inr giveUp

/-- The left side is a symbol; one that has only one value is taken for it. -/
def BinOp.stepSymbol (input s : BinOp) (sym : SymExpr) : BinOp ⊕ ConditionSVal :=
  match getSymVal state sym with
  | some constant => .inl { s with lhs := .concreteInt constant }
  | none =>
    match getKnownValue state s.rhs with
    | some rhsValue => .inr (makeSymIntVal builder resultTy sym s.op rhsValue)
    | none => .inr (makeSymExprValNN isTainted resultTy s.op input.lhs input.rhs)

/-- One turn of the loop. The zero of `x == 0` negates a comparison; constants
that are added one after the other are folded. -/
def BinOp.step (input s : BinOp) : BinOp ⊕ ConditionSVal :=
  match s.lhs with
  | .concreteInt lhsValue =>
    match getKnownValue state s.rhs with
    | some rhsValue => .inr (evalConstants builder resultTy s.op lhsValue rhsValue)
    | none => stepConstant builder isTainted resultTy input s lhsValue
  | .symbolVal (.symInt l lop c type) =>
    if s.op = .eq ∧ s.rhs.isZeroConstant ∧ lop.isComparisonOp then
      .inr (.nonLoc (.symbolVal (.symInt l lop.negateComparisonOp c resultTy)))
    else
      match getKnownValue state s.rhs with
      | some rhsValue =>
        if s.op.isAdditiveOp && lop.isAdditiveOp then
          let first := resultTy.getAPSIntType.convert c
          let second := resultTy.getAPSIntType.convert rhsValue
          .inl ⟨lop, .symbolVal l, .concreteInt (if lop = s.op then first.add second else first.sub second)⟩
        else .inr (makeSymIntVal builder resultTy (.symInt l lop c type) s.op rhsValue)
      | none => stepSymbol builder isTainted state resultTy input s (.symInt l lop c type)
  | .symbolVal sym => stepSymbol builder isTainted state resultTy input s sym

/-- What is left for the loop to do. -/
def BinOp.measure (s : BinOp) : ℕ :=
  let size : NonLoc → ℕ
    | .concreteInt _ => 0
    | .symbolVal sym => sym.computeComplexity
  if (getKnownValue state s.rhs).isSome then
    match s.lhs with
    | .concreteInt _ => 0
    | .symbolVal sym => 1 + sym.computeComplexity
  else
    match s.lhs with
    | .concreteInt _ => 2 + size s.rhs
    | .symbolVal _ => 3 + size s.rhs

end

/-! ### What a turn can do -/

section

variable {builder : SValBuilder} {isTainted : NonLoc → Bool} {state : ProgramState} {resultTy : QualType}
variable {input s t : BinOp} {res : ConditionSVal}

/-- The operations whose operands are swapped. -/
def Opcode.swaps : Opcode → Bool
  | .lt | .gt | .le | .ge | .eq | .ne | .add | .mul | .and | .xor | .or => true
  | _ => false

/-- The turns that go on. -/
inductive BinOp.Turn (state : ProgramState) (resultTy : QualType) (s : BinOp) : BinOp → Prop
  | swap {v : APSInt} (hlhs : s.lhs = .concreteInt v) (hrhs : getKnownValue state s.rhs = none)
      (hop : s.op.swaps = true) : Turn state resultTy s ⟨s.op.reverseComparisonOp, s.rhs, s.lhs⟩
  | constant {sym : SymExpr} {c : APSInt} (hlhs : s.lhs = .symbolVal sym) (hc : getSymVal state sym = some c) :
      Turn state resultTy s { s with lhs := .concreteInt c }
  | fold {l : SymExpr} {lop : Opcode} {c rhsValue : APSInt} {type : QualType}
      (hlhs : s.lhs = .symbolVal (.symInt l lop c type)) (hrhs : getKnownValue state s.rhs = some rhsValue)
      (hop : s.op.isAdditiveOp = true) (hlop : lop.isAdditiveOp = true) :
      Turn state resultTy s ⟨lop, .symbolVal l, .concreteInt
        (if lop = s.op then (resultTy.getAPSIntType.convert c).add (resultTy.getAPSIntType.convert rhsValue)
          else (resultTy.getAPSIntType.convert c).sub (resultTy.getAPSIntType.convert rhsValue))⟩

/-- The turns that end the loop. -/
inductive BinOp.Ends (builder : SValBuilder) (isTainted : NonLoc → Bool) (state : ProgramState)
    (resultTy : QualType) (input s : BinOp) : ConditionSVal → Prop
  | constants {v rhsValue : APSInt} (hlhs : s.lhs = .concreteInt v)
      (hrhs : getKnownValue state s.rhs = some rhsValue) :
      Ends builder isTainted state resultTy input s (evalConstants builder resultTy s.op v rhsValue)
  | shifted {v : APSInt} (hlhs : s.lhs = .concreteInt v) (hop : s.op.isShiftOp = true)
      (hv : v.value = 0 ∨ (s.op = .shr ∧ v.isAllOnesValue = true ∧ v.isUnsigned = false)) :
      Ends builder isTainted state resultTy input s (evalCastFromNonLoc builder s.lhs resultTy)
  | negated {l : SymExpr} {lop : Opcode} {c : APSInt} {type : QualType}
      (hlhs : s.lhs = .symbolVal (.symInt l lop c type)) (hop : s.op = .eq) (hrhs : s.rhs.isZeroConstant = true)
      (hlop : lop.isComparisonOp = true) :
      Ends builder isTainted state resultTy input s
        (.nonLoc (.symbolVal (.symInt l lop.negateComparisonOp c resultTy)))
  | symInt {sym : SymExpr} {rhsValue : APSInt} (hlhs : s.lhs = .symbolVal sym)
      (hrhs : getKnownValue state s.rhs = some rhsValue) :
      Ends builder isTainted state resultTy input s (makeSymIntVal builder resultTy sym s.op rhsValue)
  | giveUp (hrhs : getKnownValue state s.rhs = none) :
      Ends builder isTainted state resultTy input s (makeSymExprValNN isTainted resultTy s.op input.lhs input.rhs)

/-- What `stepConstant` and `stepSymbol` give is such a turn. -/
theorem BinOp.turn_of_stepConstant {v : APSInt} (hlhs : s.lhs = .concreteInt v)
    (hrhs : getKnownValue state s.rhs = none) (h : stepConstant builder isTainted resultTy input s v = .inl t) :
    Turn state resultTy s t := by
  have hswap : s.op.swaps = true → Sum.inl ⟨s.op.reverseComparisonOp, s.rhs, s.lhs⟩ =
      (Sum.inl t : BinOp ⊕ ConditionSVal) → Turn state resultTy s t := fun hop heq =>
    Sum.inl.inj heq ▸ .swap hlhs hrhs hop
  unfold stepConstant at h
  simp only at h
  split at h
  all_goals first
    | (next hop => exact hswap (by rw [hop]; rfl) h)
    | (split_ifs at h)
    | cases h

theorem BinOp.ends_of_stepConstant {v : APSInt} (hlhs : s.lhs = .concreteInt v)
    (hrhs : getKnownValue state s.rhs = none) (h : stepConstant builder isTainted resultTy input s v = .inr res) :
    Ends builder isTainted state resultTy input s res := by
  have hgive : Sum.inr (makeSymExprValNN isTainted resultTy s.op input.lhs input.rhs) =
      (Sum.inr res : BinOp ⊕ ConditionSVal) → Ends builder isTainted state resultTy input s res := fun heq =>
    Sum.inr.inj heq ▸ .giveUp hrhs
  unfold stepConstant at h
  simp only at h
  split at h
  case h_12 hop =>
    split_ifs at h with hv
    · refine Sum.inr.inj h ▸ .shifted hlhs (by rw [hop]; rfl) ?_
      simp only [Bool.or_eq_true, Bool.and_eq_true, Bool.not_eq_true', decide_eq_true_eq] at hv
      exact hv.symm.imp_right fun hv => ⟨hop, hv⟩
    · exact hgive h
  case h_13 hop =>
    split_ifs at h with hv
    · exact Sum.inr.inj h ▸ .shifted hlhs (by rw [hop]; rfl) (.inl hv)
    · exact hgive h
  case h_14 => exact hgive h
  all_goals cases h

theorem BinOp.turn_of_stepSymbol {sym : SymExpr} (hlhs : s.lhs = .symbolVal sym)
    (h : stepSymbol builder isTainted state resultTy input s sym = .inl t) : Turn state resultTy s t := by
  unfold stepSymbol at h
  cases hval : getSymVal state sym with
  | some c =>
    rw [hval] at h
    exact Sum.inl.inj h ▸ .constant hlhs hval
  | none =>
    rw [hval] at h
    simp only at h
    split at h <;> cases h

theorem BinOp.ends_of_stepSymbol {sym : SymExpr} (hlhs : s.lhs = .symbolVal sym)
    (h : stepSymbol builder isTainted state resultTy input s sym = .inr res) :
    Ends builder isTainted state resultTy input s res := by
  unfold stepSymbol at h
  cases hval : getSymVal state sym with
  | some c =>
    rw [hval] at h
    cases h
  | none =>
    rw [hval] at h
    cases hrhs : getKnownValue state s.rhs with
    | some rhsValue =>
      rw [hrhs] at h
      exact Sum.inr.inj h ▸ .symInt hlhs hrhs
    | none =>
      rw [hrhs] at h
      exact Sum.inr.inj h ▸ .giveUp hrhs

/-- **What a turn does.** -/
theorem BinOp.turn_of_step (h : step builder isTainted state resultTy input s = .inl t) :
    Turn state resultTy s t := by
  unfold step at h
  split at h
  · next v hlhs =>
    cases hrhs : getKnownValue state s.rhs with
    | some rhsValue =>
      rw [hrhs] at h
      cases h
    | none =>
      rw [hrhs] at h
      exact turn_of_stepConstant hlhs hrhs h
  · next l lop c type hlhs =>
    by_cases hnegated : s.op = .eq ∧ s.rhs.isZeroConstant = true ∧ lop.isComparisonOp = true
    · rw [if_pos hnegated] at h
      cases h
    rw [if_neg hnegated] at h
    cases hrhs : getKnownValue state s.rhs with
    | some rhsValue =>
      rw [hrhs] at h
      by_cases hadditive : (s.op.isAdditiveOp && lop.isAdditiveOp) = true
      · simp only [if_pos hadditive] at h
        obtain ⟨hop, hlop⟩ := Bool.and_eq_true_iff.mp hadditive
        exact Sum.inl.inj h ▸ .fold hlhs hrhs hop hlop
      · simp only [if_neg hadditive] at h
        cases h
    | none =>
      rw [hrhs] at h
      exact turn_of_stepSymbol hlhs h
  · next sym _ hlhs => exact turn_of_stepSymbol hlhs h

theorem BinOp.ends_of_step (h : step builder isTainted state resultTy input s = .inr res) :
    Ends builder isTainted state resultTy input s res := by
  unfold step at h
  split at h
  · next v hlhs =>
    cases hrhs : getKnownValue state s.rhs with
    | some rhsValue =>
      rw [hrhs] at h
      exact Sum.inr.inj h ▸ .constants hlhs hrhs
    | none =>
      rw [hrhs] at h
      exact ends_of_stepConstant hlhs hrhs h
  · next l lop c type hlhs =>
    by_cases hnegated : s.op = .eq ∧ s.rhs.isZeroConstant = true ∧ lop.isComparisonOp = true
    · rw [if_pos hnegated] at h
      obtain ⟨hop, hzero, hlop⟩ := hnegated
      exact Sum.inr.inj h ▸ .negated hlhs hop hzero hlop
    rw [if_neg hnegated] at h
    cases hrhs : getKnownValue state s.rhs with
    | some rhsValue =>
      rw [hrhs] at h
      by_cases hadditive : (s.op.isAdditiveOp && lop.isAdditiveOp) = true
      · simp only [if_pos hadditive] at h
        cases h
      · simp only [if_neg hadditive] at h
        exact Sum.inr.inj h ▸ .symInt hlhs hrhs
    | none =>
      rw [hrhs] at h
      exact ends_of_stepSymbol hlhs h
  · next sym _ hlhs => exact ends_of_stepSymbol hlhs h

/-- **Every turn leaves less to do.** -/
theorem BinOp.Turn.measure_lt (h : Turn state resultTy s t) : t.measure state < s.measure state := by
  cases h with
  | swap hlhs hrhs hop =>
    obtain ⟨op, lhs, rhs⟩ := s
    cases hlhs
    cases rhs with
    | concreteInt w => cases hrhs
    | symbolVal sym =>
      have hknown : getSymVal state sym = none := hrhs
      simp only [measure, getKnownValue, Option.isSome_some, if_true, hknown, Option.isSome_none,
        Bool.false_eq_true, if_false]
      omega
  | constant hlhs hc =>
    obtain ⟨op, lhs, rhs⟩ := s
    cases hlhs
    simp only [measure]
    split_ifs <;> omega
  | @fold l lop c rhsValue type hlhs hrhs hop hlop =>
    obtain ⟨op, lhs, rhs⟩ := s
    cases hlhs
    have hknown : getKnownValue state rhs = some rhsValue := hrhs
    have hconstant : ∀ v, getKnownValue state (.concreteInt v) = some v := fun _ => rfl
    simp only [measure, hknown, hconstant, Option.isSome_some, if_true, SymExpr.computeComplexity]
    omega

variable (builder isTainted state resultTy input) in
/-- The loop ends. -/
theorem BinOp.halts (s : BinOp) :
    (Machine.run (step builder isTainted state resultTy input) (s.measure state + 1) s).isSome := by
  apply Option.isSome_iff_exists.mpr
  exact Machine.run_of_measure (BinOp.measure state) (fun _ _ h => (turn_of_step h).measure_lt)
    (Nat.lt_succ_self (s.measure state))

variable (builder isTainted state) in
/-- `evalBinOpNN`. -/
def evalBinOpNN (op : Opcode) (lhs rhs : NonLoc) (resultTy : QualType) : ConditionSVal :=
  let input : BinOp := ⟨op, lhs, rhs⟩
  (if lhs = rhs then sameOperands builder resultTy op lhs else none).getD
    ((Machine.run (BinOp.step builder isTainted state resultTy input) (input.measure state + 1) input).get
      (BinOp.halts builder isTainted state resultTy input input))

variable (builder isTainted state) in
/-- `evalBinOp`, of operands that are no locations. -/
def evalBinOp (op : Opcode) (lhs rhs : ConditionSVal) (type : QualType) : ConditionSVal :=
  match lhs, rhs with
  | .undefined, _ | _, .undefined => .undefined
  | .unknown, _ | _, .unknown => .unknown
  | .nonLoc lhs, .nonLoc rhs => evalBinOpNN builder isTainted state op lhs rhs type

/-- What the loop gives, if the sides are not the same. -/
theorem evalBinOpNN_of_run {op : Opcode} {lhs rhs : NonLoc} {n : ℕ} (hne : lhs ≠ rhs)
    (h : Machine.run (BinOp.step builder isTainted state resultTy ⟨op, lhs, rhs⟩) n ⟨op, lhs, rhs⟩ = some res) :
    evalBinOpNN builder isTainted state op lhs rhs resultTy = res := by
  unfold evalBinOpNN
  rw [if_neg hne, Option.getD_none]
  exact Machine.run_unique (Option.some_get _).symm h

/-- **The equality of a switch** is the binary operation. -/
theorem evalEQ_eq (lhs : ConditionSVal) (rhs : APSInt) :
    evalBinOp builder isTainted state .eq lhs (.nonLoc (.concreteInt rhs)) builder.conditionTy =
      evalEQ builder.conditionTy state lhs rhs := by
  cases lhs with
  | unknown => rfl
  | undefined => rfl
  | nonLoc lhs =>
    show evalBinOpNN builder isTainted state .eq lhs (.concreteInt rhs) builder.conditionTy = _
    unfold evalEQ
    by_cases hsame : lhs = .concreteInt rhs
    · simp only [if_pos hsame]
      unfold evalBinOpNN
      rw [if_pos hsame]
      rfl
    simp only [if_neg hsame]
    have hsymbol : ∀ sym, lhs = .symbolVal sym → (∀ l op c type, sym ≠ .symInt l op c type) →
        evalBinOpNN builder isTainted state .eq lhs (.concreteInt rhs) builder.conditionTy =
          symbolEQ builder.conditionTy state sym rhs := by
      rintro sym rfl hsym
      have hstep : BinOp.step builder isTainted state builder.conditionTy ⟨.eq, .symbolVal sym, .concreteInt rhs⟩
            ⟨.eq, .symbolVal sym, .concreteInt rhs⟩ =
          BinOp.stepSymbol builder isTainted state builder.conditionTy ⟨.eq, .symbolVal sym, .concreteInt rhs⟩
            ⟨.eq, .symbolVal sym, .concreteInt rhs⟩ sym := by
        cases sym with
        | symInt l op c type => exact absurd rfl (hsym l op c type)
        | _ => rfl
      unfold symbolEQ
      cases hval : getSymVal state sym with
      | some c =>
        have hnext : BinOp.step builder isTainted state builder.conditionTy ⟨.eq, .symbolVal sym, .concreteInt rhs⟩
            ⟨.eq, .symbolVal sym, .concreteInt rhs⟩ = .inl ⟨.eq, .concreteInt c, .concreteInt rhs⟩ := by
          rw [hstep, BinOp.stepSymbol, hval]
        exact evalBinOpNN_of_run (n := 2) hsame ((Machine.run_next hnext).trans (Machine.run_halt rfl))
      | none =>
        refine evalBinOpNN_of_run (n := 1) hsame (Machine.run_halt (hstep.trans ?_))
        rw [BinOp.stepSymbol, hval]
        rfl
    cases lhs with
    | concreteInt value => exact evalBinOpNN_of_run (n := 1) hsame (Machine.run_halt rfl)
    | symbolVal sym =>
      cases sym with
      | symInt l lop c type =>
        simp only
        refine evalBinOpNN_of_run (n := 1) hsame (Machine.run_halt ?_)
        by_cases hzero : rhs.value = 0 ∧ lop.isComparisonOp = true
        · rw [if_pos hzero]
          exact if_pos ⟨rfl, decide_eq_true hzero.1, hzero.2⟩
        · rw [if_neg hzero]
          exact if_neg fun h => hzero ⟨of_decide_eq_true h.2.1, h.2.2⟩
      | data id type text => exact hsymbol _ rfl fun _ _ _ _ h => by cases h
      | intSym l op r type => exact hsymbol _ rfl fun _ _ _ _ h => by cases h
      | symSym l op r type => exact hsymbol _ rfl fun _ _ _ _ h => by cases h
      | cast operand fromTy toTy => exact hsymbol _ rfl fun _ _ _ _ h => by cases h

end

end Ento
end Apisan
