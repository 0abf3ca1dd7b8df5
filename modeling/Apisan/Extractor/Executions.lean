/-
# Executions and what the constraint manager knows of them

An execution gives every `SymbolData` a value, and with it every symbolic
expression. A condition that is assumed asks something of one symbol
(`question`): for a comparison of what a constant is added to, for pointers of
their difference, else of the condition itself.

A state admits an execution if every recorded range set has the symbol's value,
and every logged condition shows such ranges. Assuming a condition that is true
keeps the executions that a state admits, if the condition is read as it is meant
(`assume_admits`): conversions keep the values that are compared, pointers are near
enough, and no reference is zero (`Meant`). Assuming a list of conditions leaves for
each symbol the values that answer what is asked of it, and is infeasible exactly if
no values answer all (`assumeAll_solutions`), if each question is asked in a type
that keeps the symbol's values and not only for one integer that the symbol's type
does not have (`Decided`).

Key definitions: `SymExpr.eval`, `Question`, `question`, `Meant`, `Admits`,
`Decided`.
Key theorems: `assumeAux_eq`, `question_holds`, `assume_admits`,
`assumeAll_solutions`.
-/
import Mathlib.Data.Int.Bitwise
import Apisan.Lib.Assumption
import Apisan.Extractor.Feasible

namespace Apisan
namespace Ento

/-! ### The values of expressions -/

/-- What an operation other than a comparison gives for two integers; the
remaining operators are in no symbol. -/
def Opcode.compute (op : Opcode) (a b : ℤ) : ℤ :=
  match op with
  | mul => a * b
  | div => a.tdiv b
  | rem => a.tmod b
  | add => a + b
  | sub => a - b
  | shl => a <<< b
  | shr => a >>> b
  | and => a.land b
  | xor => a.xor b
  | or => a.lor b
  | _ => 0

def Opcode.isShiftOp : Opcode → Bool
  | shl | shr => true
  | _ => false

/-- The value of an operation in a type, on operands of two types: a comparison
converts both to the larger type, other operations to the result's. -/
def Opcode.apply (op : Opcode) (result t u : APSIntType) (a b : ℤ) : ℤ :=
  if op.isComparisonOp then
    result.window.wrap (if op.Holds ((t.max u).window.wrap a) ((t.max u).window.wrap b) then 1 else 0)
  else if op.isShiftOp then result.window.wrap (op.compute (result.window.wrap a) b)
  else result.window.wrap (op.compute (result.window.wrap a) (result.window.wrap b))

namespace SymExpr

/-- The value of an expression in an execution, which gives the values of the
`SymbolData`. -/
def eval (ρ : ℕ → ℤ) : SymExpr → ℤ
  | data id type _ => type.getAPSIntType.window.wrap (ρ id)
  | symInt lhs op rhs type => op.apply type.getAPSIntType lhs.getType.getAPSIntType rhs.type (eval ρ lhs) rhs.value
  | intSym lhs op rhs type => op.apply type.getAPSIntType lhs.type rhs.getType.getAPSIntType lhs.value (eval ρ rhs)
  | symSym lhs op rhs type =>
    op.apply type.getAPSIntType lhs.getType.getAPSIntType rhs.getType.getAPSIntType (eval ρ lhs) (eval ρ rhs)
  | cast operand _ toTy => toTy.getAPSIntType.window.wrap (eval ρ operand)

end SymExpr

theorem Opcode.apply_mem (op : Opcode) (result t u : APSIntType) (a b : ℤ) :
    op.apply result t u a b ∈ result.window := by
  unfold Opcode.apply
  split_ifs <;> exact Window.wrap_mem _ _

variable {ρ : ℕ → ℤ}

/-- The value is one of the expression's type. -/
theorem eval_mem (sym : SymExpr) : sym.eval ρ ∈ sym.getType.getAPSIntType.window := by
  cases sym with
  | data id type text => exact Window.wrap_mem _ _
  | symInt lhs op rhs type => exact op.apply_mem _ _ _ _ _
  | intSym lhs op rhs type => exact op.apply_mem _ _ _ _ _
  | symSym lhs op rhs type => exact op.apply_mem _ _ _ _ _
  | cast operand fromTy toTy => exact Window.wrap_mem _ _

/-- A truth value is not zero exactly if it is true. -/
theorem wrap_truth {t : APSIntType} (ht : 0 < t.bitWidth) (p : Prop) [Decidable p] :
    t.window.wrap (if p then 1 else 0) ≠ 0 ↔ p := by
  have hsize := one_lt_size ht
  have hzero : (0 : ℤ) ∈ t.window := t.value_getZeroValue ▸ t.getZeroValue.value_mem
  by_cases hp : p
  · rw [if_pos hp]
    refine iff_of_true (fun h => ?_) hp
    have hmod : (1 : ℤ) ≡ 0 [ZMOD t.window.size] := by
      rw [← Window.wrap_eq_iff, h, Window.wrap_of_mem hzero]
    have h1 : (1 : ℤ) % t.window.size = 0 % t.window.size := hmod
    rw [Int.emod_eq_of_lt (by omega) hsize, Int.zero_emod] at h1
    omega
  · rw [if_neg hp, Window.wrap_of_mem hzero]
    exact iff_of_false (fun h => h rfl) hp

/-- A comparison is true if it holds in the larger type. -/
theorem apply_comparison {op : Opcode} (hop : op.isComparisonOp = true) {result : APSIntType}
    (hresult : 0 < result.bitWidth) (t u : APSIntType) (a b : ℤ) :
    op.apply result t u a b ≠ 0 ↔ op.Holds ((t.max u).window.wrap a) ((t.max u).window.wrap b) := by
  unfold Opcode.apply
  rw [if_pos hop]
  exact wrap_truth hresult _

/-- An expression is a symbol with a constant added. -/
theorem eval_base (lhs : SymExpr) :
    lhs.eval ρ = lhs.getType.getAPSIntType.window.wrap ((base lhs).eval ρ + (added lhs).value) := by
  have hself : ∀ s : SymExpr, s.eval ρ =
      s.getType.getAPSIntType.window.wrap (s.eval ρ + s.getType.getAPSIntType.getZeroValue.value) := fun s => by
    rw [APSIntType.value_getZeroValue, add_zero, Window.wrap_of_mem (eval_mem s)]
  unfold base added computeAdjustment
  split
  · next l c t =>
    show Opcode.apply .add t.getAPSIntType l.getType.getAPSIntType c.type (l.eval ρ) c.value =
      t.getAPSIntType.window.wrap (l.eval ρ + (t.getAPSIntType.convert c).value)
    rw [APSIntType.value_convert]
    show t.getAPSIntType.window.wrap (t.getAPSIntType.window.wrap _ + _) = _
    exact Window.wrap_add _ _ _
  · next l c t =>
    show Opcode.apply .sub t.getAPSIntType l.getType.getAPSIntType c.type (l.eval ρ) c.value =
      t.getAPSIntType.window.wrap (l.eval ρ + (t.getAPSIntType.convert c).neg.value)
    rw [APSInt.value_neg, APSIntType.type_convert, APSIntType.value_convert]
    show t.getAPSIntType.window.wrap (t.getAPSIntType.window.wrap _ - _) = _
    rw [sub_eq_add_neg, Window.wrap_add]
    exact Window.wrap_eq_iff.mpr ((Window.wrap_modEq _ _).symm.add_left _)
  · exact hself lhs

/-! ### What a condition asks -/

/-- What is asked of a symbol: its value plus an adjustment compares with a
constant. -/
structure Question where
  op : Opcode
  sym : SymExpr
  int : APSInt
  adjustment : APSInt
  deriving DecidableEq, Repr

namespace Question

/-- The question has the answer for a value. -/
def Holds (q : Question) (x : ℤ) : Prop := Compares q.op q.int q.adjustment x

instance (q : Question) : DecidablePred q.Holds := fun _ => inferInstanceAs (Decidable (Opcode.Holds _ _ _))

/-- The opposite question. -/
def negate (q : Question) : Question := { q with op := q.op.negateComparisonOp }

/-- A comparison of an expression with a constant. -/
def relation (lhs : SymExpr) (op : Opcode) (int : APSInt) : Question :=
  ⟨op, base lhs, (comparisonType lhs int).convert int, Ento.adjustment lhs int⟩

/-- Whether a symbol is not zero, which is asked of integers only. -/
def nonzero (sym : SymExpr) : Option Question :=
  if sym.getType.isIntegralOrEnumerationType then
    some ⟨.ne, sym, sym.getType.getAPSIntType.getZeroValue, sym.getType.getAPSIntType.getZeroValue⟩
  else none

/-- The question is asked in a type that keeps the symbol's values and has the
constant. -/
structure Fair (q : Question) : Prop where
  comparison : q.op.isComparisonOp = true
  into : q.sym.getType.getAPSIntType.Into q.adjustment.type
  fits : Fits q.int q.adjustment

/-- One sum only answers the question, and no value of the symbol's type has
it. -/
def Missed (q : Question) : Prop :=
  RangeSet.Outside q.sym.getType.getAPSIntType (bounds q.op q.int q.adjustment).1 (bounds q.op q.int q.adjustment).2

instance (q : Question) : Decidable q.Missed := inferInstanceAs (Decidable (RangeSet.Outside _ _ _))

end Question

/-- What it asks of a symbol that a condition is true. -/
def question (ptrDiffTy : QualType) (cond : SymExpr) : Option Question :=
  match cond with
  | .symInt lhs op rhs _ => if op.isComparisonOp then some (.relation lhs op rhs) else Question.nonzero cond
  | .symSym lhs op rhs _ =>
    if op.isComparisonOp && lhs.getType.isLocType then
      some (.relation (.symSym rhs .sub lhs ptrDiffTy) op.reverseComparisonOp ptrDiffTy.getAPSIntType.getZeroValue)
    else Question.nonzero cond
  | _ => Question.nonzero cond

/-- What it asks that a condition is true, or that it is false. -/
def asked (ptrDiffTy : QualType) (cond : SymExpr) (assumption : Bool) : Option Question :=
  (question ptrDiffTy cond).map fun q => if assumption then q else q.negate

/-- Assume the answer to a question. -/
def assumeQuestion (state : ProgramState) : Option Question → Option ProgramState
  | some q => assumeSym q.op state q.sym q.int q.adjustment
  | none => some state

section

variable {state state' : ProgramState} {sym : SymExpr} {ptrDiffTy : QualType} {assumption : Bool} {q : Question}

theorem assumeAuxForSymbol_eq : assumeAuxForSymbol state sym assumption =
    assumeQuestion state ((Question.nonzero sym).map fun q => if assumption then q else q.negate) := by
  unfold assumeAuxForSymbol Question.nonzero
  by_cases hint : sym.getType.isIntegralOrEnumerationType = true
  · cases assumption <;> simp only [hint, Bool.not_true, Bool.false_eq_true, if_false, if_true] <;> rfl
  · simp only [hint, Bool.not_false, if_true, Bool.false_eq_true, if_false]
    rfl

/-- The answer to a question changes the ranges of its symbol only. -/
theorem assumeQuestion_narrows (h : assumeQuestion state (some q) = some state') :
    Narrows state q.sym state' := by
  have hnone : ∀ s ∈ (none : Option ProgramState), s = state := fun s hs => by cases hs
  have hsome : ∀ s ∈ some state, s = state := fun s hs => (Option.some.inj hs).symm
  have h' : assumeSym q.op state q.sym q.int q.adjustment = some state' := h
  unfold assumeSym at h'
  split at h'
  · exact assumeSymEQ_narrows h'
  · exact assumeSymNE_narrows h'
  · unfold assumeSymGT at h'
    exact assumeInequality_narrows hsome hnone hnone h'
  · unfold assumeSymGE at h'
    exact assumeInequality_narrows hsome hnone hsome h'
  · unfold assumeSymLT at h'
    exact assumeInequality_narrows hnone hsome hnone h'
  · unfold assumeSymLE at h'
    exact assumeInequality_narrows hnone hsome hsome h'
  · cases h'

/-- **What is assumed** is the answer to the condition's question. -/
theorem assumeAux_eq (cond : SymExpr) : assumeAux ptrDiffTy state (.symbolVal cond) assumption =
    assumeQuestion state (asked ptrDiffTy cond assumption) := by
  have hrel : ∀ lhs op int, assumeSymRel state lhs (if assumption then op else op.negateComparisonOp) int =
      assumeQuestion state
        ((some (Question.relation lhs op int)).map fun q => if assumption then q else q.negate) := by
    intro lhs op int
    rw [assumeSymRel_eq]
    cases assumption <;> rfl
  cases cond with
  | symInt lhs op rhs type =>
    by_cases hop : op.isComparisonOp = true
    · simp only [assumeAux, canReasonAbout_comparison hop, hop, Bool.not_true, Bool.false_eq_true, if_false,
        if_true, asked, question]
      exact hrel lhs op rhs
    · simp only [assumeAux, hop, Bool.false_eq_true, if_false, ite_self, asked, question]
      exact assumeAuxForSymbol_eq
  | symSym lhs op rhs type =>
    by_cases hop : (op.isComparisonOp && lhs.getType.isLocType) = true
    · simp only [assumeAux, canReasonAbout, hop, Bool.not_true, Bool.false_eq_true, if_false, if_true, asked,
        question]
      exact hrel _ _ _
    · simp only [assumeAux, canReasonAbout, hop, Bool.not_false, if_true, Bool.false_eq_true, if_false, asked,
        question]
      exact assumeAuxForSymbol_eq
  | data id type text => exact assumeAuxForSymbol_eq
  | intSym lhs op rhs type => exact assumeAuxForSymbol_eq
  | cast operand fromTy toTy => exact assumeAuxForSymbol_eq

namespace Question

theorem negate_holds (h : q.op.isComparisonOp = true) (x : ℤ) : q.negate.Holds x ↔ ¬ q.Holds x :=
  Opcode.negate_holds h

theorem Fair.negate (h : q.Fair) : q.negate.Fair := ⟨Opcode.isComparisonOp_negate.trans h.comparison, h.into, h.fits⟩

/-- **An answered question restricts its symbol.** -/
theorem restricts (h : q.Fair) (hstate : state.Good) :
    Restricts state q.sym q.Holds (¬ q.Missed) (assumeQuestion state (some q)) :=
  assumeSym_restricts h.comparison hstate h.into h.fits

theorem fair_relation {lhs : SymExpr} {op : Opcode} {int : APSInt} (hop : op.isComparisonOp = true)
    (h : Converts lhs int) : (relation lhs op int).Fair := ⟨hop, h.symbol, fits_convert h.expression⟩

theorem fair_nonzero (hpos : 0 < sym.getType.getAPSIntType.bitWidth) (hq : nonzero sym = some q) : q.Fair := by
  unfold nonzero at hq
  split_ifs at hq
  obtain rfl := Option.some.inj hq
  exact ⟨rfl, .refl hpos, fun _ => sym.getType.getAPSIntType.getZeroValue.value_mem⟩

/-- The answer for a comparison is the truth of it. -/
theorem relation_holds {lhs : SymExpr} {op : Opcode} {int : APSInt}
    (h : lhs.getType.getAPSIntType.Into (comparisonType lhs int)) :
    (relation lhs op int).Holds ((base lhs).eval ρ) ↔
      op.Holds ((comparisonType lhs int).window.wrap (lhs.eval ρ))
        ((comparisonType lhs int).window.wrap int.value) := by
  rw [eval_base lhs]
  exact compares_iff h _

theorem nonzero_holds (hq : nonzero sym = some q) : q.sym = sym ∧ (q.Holds (sym.eval ρ) ↔ sym.eval ρ ≠ 0) := by
  unfold nonzero at hq
  split_ifs at hq
  obtain rfl := Option.some.inj hq
  refine ⟨rfl, ?_⟩
  show sym.getType.getAPSIntType.window.wrap (sym.eval ρ + sym.getType.getAPSIntType.getZeroValue.value) ≠
    sym.getType.getAPSIntType.getZeroValue.value ↔ _
  rw [APSIntType.value_getZeroValue, add_zero, Window.wrap_of_mem (eval_mem sym)]

end Question

/-- Two pointers of one width, whose difference is one of the type for it. -/
structure Subtracts (ptrDiffTy : QualType) (ρ : ℕ → ℤ) (lhs rhs : SymExpr) : Prop where
  width : 0 < ptrDiffTy.getAPSIntType.bitWidth
  same : lhs.getType.getAPSIntType = rhs.getType.getAPSIntType
  difference : rhs.eval ρ - lhs.eval ρ ∈ ptrDiffTy.getAPSIntType.window

/-- **Conditions that are read as they are meant** in an execution: conversions
keep the values that are compared, pointers are near enough, and no reference
is zero. -/
structure Meant (ptrDiffTy : QualType) (ρ : ℕ → ℤ) (cond : SymExpr) : Prop where
  width : 0 < cond.getType.getAPSIntType.bitWidth
  converts : ∀ lhs op rhs type, cond = .symInt lhs op rhs type → op.isComparisonOp = true → Converts lhs rhs
  subtracts : ∀ lhs op rhs type, cond = .symSym lhs op rhs type →
    (op.isComparisonOp && lhs.getType.isLocType) = true → Subtracts ptrDiffTy ρ lhs rhs
  refers : ∀ q, question ptrDiffTy cond = some q → q.sym.getType.isReferenceType = true → q.sym.eval ρ ≠ 0

theorem max_self (t : APSIntType) : t.max t = t := ite_self _

/-- Pointers compare as their difference does with zero. -/
theorem difference_holds {lhs rhs : SymExpr} {op : Opcode} {type : QualType} (hop : op.isComparisonOp = true)
    (htype : 0 < type.getAPSIntType.bitWidth) (h : Subtracts ptrDiffTy ρ lhs rhs) :
    Question.Fair (.relation (.symSym rhs .sub lhs ptrDiffTy) op.reverseComparisonOp
        ptrDiffTy.getAPSIntType.getZeroValue) ∧
      (Question.Holds (.relation (.symSym rhs .sub lhs ptrDiffTy) op.reverseComparisonOp
          ptrDiffTy.getAPSIntType.getZeroValue) (SymExpr.eval ρ (.symSym rhs .sub lhs ptrDiffTy)) ↔
        SymExpr.eval ρ (.symSym lhs op rhs type) ≠ 0) := by
  have hcomparison : comparisonType (.symSym rhs .sub lhs ptrDiffTy) ptrDiffTy.getAPSIntType.getZeroValue =
      ptrDiffTy.getAPSIntType := max_self _
  have hinto : APSIntType.Into (SymExpr.symSym rhs .sub lhs ptrDiffTy).getType.getAPSIntType
      (comparisonType (.symSym rhs .sub lhs ptrDiffTy) ptrDiffTy.getAPSIntType.getZeroValue) := by
    rw [hcomparison]
    exact .refl h.width
  have hadjust : (adjustment (.symSym rhs .sub lhs ptrDiffTy) ptrDiffTy.getAPSIntType.getZeroValue).type =
      ptrDiffTy.getAPSIntType := by
    rw [type_adjustment, hcomparison]
    exact if_pos rfl
  refine ⟨Question.fair_relation (Opcode.isComparisonOp_reverse hop) ⟨hinto, ?_⟩, ?_⟩
  · rw [hadjust]
    exact .refl h.width
  have heval : SymExpr.eval ρ (.symSym rhs .sub lhs ptrDiffTy) = rhs.eval ρ - lhs.eval ρ := by
    show ptrDiffTy.getAPSIntType.window.wrap (ptrDiffTy.getAPSIntType.window.wrap _ -
      ptrDiffTy.getAPSIntType.window.wrap _) = _
    rw [← Window.wrap_of_mem h.difference]
    exact Window.wrap_eq_iff.mpr ((Window.wrap_modEq _ _).sub (Window.wrap_modEq _ _))
  have hrel : Question.Holds (.relation (.symSym rhs .sub lhs ptrDiffTy) op.reverseComparisonOp
      ptrDiffTy.getAPSIntType.getZeroValue) (SymExpr.eval ρ (.symSym rhs .sub lhs ptrDiffTy)) ↔
      op.reverseComparisonOp.Holds (rhs.eval ρ - lhs.eval ρ) 0 := by
    have hzero : (0 : ℤ) ∈ ptrDiffTy.getAPSIntType.window :=
      APSIntType.value_getZeroValue _ ▸ ptrDiffTy.getAPSIntType.getZeroValue.value_mem
    refine (Question.relation_holds hinto).trans ?_
    rw [hcomparison, heval, Window.wrap_of_mem h.difference, APSIntType.value_getZeroValue,
      Window.wrap_of_mem hzero]
  rw [hrel, Opcode.reverse_holds]
  show _ ↔ op.apply type.getAPSIntType lhs.getType.getAPSIntType rhs.getType.getAPSIntType (lhs.eval ρ)
    (rhs.eval ρ) ≠ 0
  have hmem := eval_mem (ρ := ρ) lhs
  have hmem' := eval_mem (ρ := ρ) rhs
  rw [apply_comparison hop htype, ← h.same, max_self, Window.wrap_of_mem hmem,
    Window.wrap_of_mem (h.same ▸ hmem')]
  cases op <;> first | cases hop; done | (dsimp only [Opcode.Holds]; omega)

/-- **The question of a condition** has the answer exactly if the condition is
true. -/
theorem question_holds {cond : SymExpr} (h : Meant ptrDiffTy ρ cond) (hq : question ptrDiffTy cond = some q) :
    q.Fair ∧ (q.Holds (q.sym.eval ρ) ↔ cond.eval ρ ≠ 0) := by
  have hnonzero : Question.nonzero cond = some q → q.Fair ∧ (q.Holds (q.sym.eval ρ) ↔ cond.eval ρ ≠ 0) := by
    intro hq
    obtain ⟨hsym, hiff⟩ := Question.nonzero_holds (ρ := ρ) hq
    exact ⟨Question.fair_nonzero h.width hq, hsym ▸ hiff⟩
  unfold question at hq
  split at hq
  · next lhs op rhs type =>
    split_ifs at hq with hop
    · obtain rfl := Option.some.inj hq
      have hconverts := h.converts lhs op rhs type rfl hop
      refine ⟨Question.fair_relation hop hconverts, (Question.relation_holds hconverts.expression).trans ?_⟩
      exact (apply_comparison hop h.width _ _ _ _).symm
    · exact hnonzero hq
  · next lhs op rhs type =>
    split_ifs at hq with hop
    · obtain rfl := Option.some.inj hq
      exact difference_holds (Bool.and_eq_true_iff.mp hop).1 h.width (h.subtracts lhs op rhs type rfl hop)
    · exact hnonzero hq
  · exact hnonzero hq

/-- What is asked of a condition assumed to be true or false. -/
theorem asked_holds {cond : SymExpr} (h : Meant ptrDiffTy ρ cond) (hq : asked ptrDiffTy cond assumption = some q) :
    q.Fair ∧ (q.Holds (q.sym.eval ρ) ↔ (cond.eval ρ ≠ 0 ↔ assumption = true)) ∧
      (q.sym.getType.isReferenceType = true → q.sym.eval ρ ≠ 0) := by
  obtain ⟨q', hq', rfl⟩ := Option.map_eq_some_iff.mp hq
  obtain ⟨hfair, hiff⟩ := question_holds h hq'
  have hrefers := h.refers q' hq'
  cases assumption with
  | true => exact ⟨hfair, by simpa using hiff, hrefers⟩
  | false =>
    refine ⟨hfair.negate, ?_, hrefers⟩
    have hneg := Question.negate_holds hfair.comparison (q'.sym.eval ρ)
    rw [hiff] at hneg
    show q'.negate.Holds (q'.sym.eval ρ) ↔ _
    simpa using hneg

/-! ### The executions that a state admits -/

/-- The symbol whose ranges are logged with a condition. -/
def NonLoc.logged : NonLoc → List SymExpr
  | symbolVal (.symInt lhs _ _ _) => [lhs]
  | _ => []

/-- A logged condition shows one of the symbols, with ranges that have its
value. -/
def Shows (L : Set SymExpr) (ρ : ℕ → ℤ) (e : SymExecEvent) : Prop :=
  ∃ sym ∈ L, ∃ ranges : RangeSet, e = .ofCond .assume (condText sym ranges) ∧ sym.eval ρ ∈ ranges.points

/-- **The executions of a state**: the values are in the recorded ranges, and in
those that are logged, of the symbols that may be. -/
structure Admits (L : Set SymExpr) (ρ : ℕ → ℤ) (state : ProgramState) : Prop where
  good : state.Good
  ranges : ∀ sym ranges, state.constraintRange sym = some ranges → sym.eval ρ ∈ ranges.points
  logged : ∀ e ∈ state.eventList, e.kind = .assume → Shows L ρ e

namespace Admits

variable {L : Set SymExpr}

theorem initial : Admits L ρ .initial where
  good _ _ h := by cases h
  ranges _ _ h := by cases h
  logged _ h := (List.not_mem_nil h).elim

theorem mono {L' : Set SymExpr} (h : Admits L ρ state) (hL : L ⊆ L') : Admits L' ρ state where
  good := h.good
  ranges := h.ranges
  logged e he hkind := by
    obtain ⟨sym, hsym, hshows⟩ := h.logged e he hkind
    exact ⟨sym, hL hsym, hshows⟩

/-- The value of a symbol is one that it may have. -/
theorem values (h : Admits L ρ state) (hpos : 0 < sym.getType.getAPSIntType.bitWidth)
    (href : sym.getType.isReferenceType = true → sym.eval ρ ≠ 0) : sym.eval ρ ∈ state.values sym := by
  cases hranges : state.constraintRange sym with
  | some ranges =>
    have hget : getRange state sym = ranges := by rw [getRange, hranges]
    rw [ProgramState.values, hget]
    exact h.ranges sym ranges hranges
  | none => exact ((getRange_spec h.good hpos).2 hranges _).mpr ⟨eval_mem sym, href⟩

theorem addEvent (h : Admits L ρ state) {e : SymExecEvent} (he : e.kind = .assume → Shows L ρ e) :
    Admits L ρ (state.addEvent e) where
  good := h.good
  ranges := h.ranges
  logged e' hmem := by
    rcases List.mem_cons.mp hmem with rfl | hmem
    · exact he
    · exact h.logged e' hmem

/-- The extractor logs ranges that are recorded. -/
theorem evalAssume (h : Admits L ρ state) {cond : NonLoc} (hL : ∀ sym ∈ cond.logged, sym ∈ L) (assumption : Bool) :
    Admits L ρ (evalAssume state cond assumption) := by
  cases cond with
  | concreteInt value => exact h
  | symbolVal cond =>
    cases cond with
    | symInt lhs op rhs type =>
      rw [evalAssume_symInt]
      cases hranges : state.constraintRange lhs with
      | none => exact h
      | some ranges =>
        have hlhs : lhs ∈ L := hL lhs (List.mem_singleton_self _)
        exact h.addEvent fun _ => ⟨lhs, hlhs, ranges, rfl, h.ranges lhs ranges hranges⟩
    | data id type text => exact h
    | intSym lhs op rhs type => exact h
    | symSym lhs op rhs type => exact h
    | cast operand fromTy toTy => exact h

/-- **An answered question** keeps the executions that answer it so. -/
theorem assumeQuestion {q : Question} (h : Admits L ρ state) (hfair : q.Fair) (hholds : q.Holds (q.sym.eval ρ))
    (href : q.sym.getType.isReferenceType = true → q.sym.eval ρ ≠ 0) :
    ∃ state', assumeQuestion state (some q) = some state' ∧ Admits L ρ state' := by
  have hrestricts := Question.restricts hfair h.good
  have hvalue := h.values hfair.into.pos href
  cases hresult : Ento.assumeQuestion state (some q) with
  | none => exact absurd hholds (hrestricts.infeasible hresult _ hvalue)
  | some state' =>
    have hkeeps := hrestricts.keeps state' hresult _ hvalue hholds
    refine ⟨state', rfl, hrestricts.good state' hresult, ?_, ?_⟩
    · intro sym ranges hranges
      obtain rfl | ⟨new, hne, rfl⟩ := hrestricts.narrows state' hresult
      · exact h.ranges sym ranges hranges
      · by_cases hsym : sym = q.sym
        · subst hsym
          have hself : (state.setRange q.sym new hne).constraintRange q.sym = some new :=
            Function.update_self _ _ _
          rw [ProgramState.values_setRange] at hkeeps
          rw [hself] at hranges
          exact Option.some.inj hranges ▸ hkeeps
        · have hother : (state.setRange q.sym new hne).constraintRange sym = state.constraintRange sym :=
            Function.update_of_ne hsym _ _
          exact h.ranges sym ranges (hother ▸ hranges)
    · obtain rfl | ⟨new, hne, rfl⟩ := hrestricts.narrows state' hresult
      · exact h.logged
      · exact h.logged

end Admits

/-- A condition that is no location is read as it is meant. -/
def NonLoc.Meant (ptrDiffTy : QualType) (ρ : ℕ → ℤ) : NonLoc → Prop
  | symbolVal cond => Ento.Meant ptrDiffTy ρ cond
  | concreteInt _ => True

/-- The value of a condition. -/
def NonLoc.eval (ρ : ℕ → ℤ) : NonLoc → ℤ
  | symbolVal cond => cond.eval ρ
  | concreteInt value => value.value

/-- **Assuming what is true** loses no execution. -/
theorem assume_admits {L : Set SymExpr} {cond : NonLoc} (h : Admits L ρ state) (hmeant : cond.Meant ptrDiffTy ρ)
    (hL : ∀ sym ∈ cond.logged, sym ∈ L) (htrue : cond.eval ρ ≠ 0 ↔ assumption = true) :
    ∃ state', assume ptrDiffTy state cond assumption = some state' ∧ Admits L ρ state' := by
  have haux : ∃ state', assumeAux ptrDiffTy state cond assumption = some state' ∧ Admits L ρ state' := by
    cases cond with
    | symbolVal cond =>
      rw [assumeAux_eq]
      cases hq : asked ptrDiffTy cond assumption with
      | none => exact ⟨state, rfl, h⟩
      | some q =>
        obtain ⟨hfair, hiff, href⟩ := asked_holds hmeant hq
        exact h.assumeQuestion hfair (hiff.mpr htrue) href
    | concreteInt value =>
      refine ⟨state, if_pos ?_, h⟩
      rw [Bool.eq_iff_iff, decide_eq_true_iff, APSInt.bits_ne_zero_iff]
      exact htrue
  obtain ⟨mid, hmid, hadmits⟩ := haux
  exact ⟨_, congrArg (Option.map _) hmid, hadmits.evalAssume hL assumption⟩

/-! ### Lists of conditions -/

instance (q : Question) : Decidable q.Fair :=
  decidable_of_iff (q.op.isComparisonOp = true ∧ q.sym.getType.getAPSIntType.Into q.adjustment.type ∧
    Fits q.int q.adjustment) ⟨fun h => ⟨h.1, h.2.1, h.2.2⟩, fun h => ⟨h.comparison, h.into, h.fits⟩⟩

/-- What an assumed condition asks of a symbol. -/
def NonLoc.asked (ptrDiffTy : QualType) (a : NonLoc × Bool) : Option Question :=
  match a.1 with
  | symbolVal cond => Ento.asked ptrDiffTy cond a.2
  | concreteInt _ => none

/-- An assumed condition is asked in a fair way, and not missed. -/
def Decided (ptrDiffTy : QualType) (a : NonLoc × Bool) : Prop :=
  ∀ q ∈ NonLoc.asked ptrDiffTy a, q.Fair ∧ ¬ q.Missed

instance (ptrDiffTy : QualType) (a : NonLoc × Bool) : Decidable (Decided ptrDiffTy a) :=
  inferInstanceAs (Decidable (∀ q ∈ NonLoc.asked ptrDiffTy a, q.Fair ∧ ¬ q.Missed))

/-- The values of the symbols answer what a condition asks; a constant answers
for itself. -/
def Answers (ptrDiffTy : QualType) (v : SymExpr → ℤ) (a : NonLoc × Bool) : Prop :=
  (∀ value, a.1 = .concreteInt value → (value.value ≠ 0 ↔ a.2 = true)) ∧
    ∀ q ∈ NonLoc.asked ptrDiffTy a, q.Holds (v q.sym)

theorem answers_concreteInt {v : SymExpr → ℤ} {value : APSInt} :
    Answers ptrDiffTy v (.concreteInt value, assumption) ↔ (value.value ≠ 0 ↔ assumption = true) := by
  refine ⟨fun hv => hv.1 value rfl, fun hv => ⟨fun value' hvalue => ?_, fun q hq => by cases hq⟩⟩
  obtain rfl := NonLoc.concreteInt.inj hvalue
  exact hv

theorem answers_symbolVal {v : SymExpr → ℤ} {cond : SymExpr} :
    Answers ptrDiffTy v (.symbolVal cond, assumption) ↔ ∀ q ∈ asked ptrDiffTy cond assumption, q.Holds (v q.sym) :=
  and_iff_right fun value hvalue => by cases hvalue

/-- The values are those that the symbols may have. -/
def Allows (state : ProgramState) (v : SymExpr → ℤ) : Prop :=
  ∀ sym, 0 < sym.getType.getAPSIntType.bitWidth → v sym ∈ state.values sym

theorem evalAssume_constraintRange (cond : NonLoc) :
    (evalAssume state cond assumption).constraintRange = state.constraintRange := by
  cases cond with
  | concreteInt value => rfl
  | symbolVal cond =>
    cases cond with
    | symInt lhs op rhs type => exact evalAssume_range lhs op rhs type assumption
    | data id type text => rfl
    | intSym lhs op rhs type => rfl
    | symSym lhs op rhs type => rfl
    | cast operand fromTy toTy => rfl

theorem values_eq (h : state'.constraintRange = state.constraintRange) (sym : SymExpr) :
    state'.values sym = state.values sym := by
  rw [ProgramState.values, ProgramState.values, getRange, getRange, h]

/-- A symbol has some value. -/
theorem values_nonempty (hstate : state.Good) (hpos : 0 < sym.getType.getAPSIntType.bitWidth) :
    (state.values sym).Nonempty := by
  obtain ⟨hproper, hinitial⟩ := getRange_spec hstate hpos
  cases hranges : state.constraintRange sym with
  | some ranges =>
    have hget : getRange state sym = ranges := by rw [getRange, hranges]
    rw [Set.nonempty_iff_ne_empty, ProgramState.values, hget]
    intro hempty
    rw [RangeSet.points_eq_empty (hget ▸ hproper)] at hempty
    exact state.range_ne_nil sym (hempty ▸ hranges)
  | none =>
    refine ⟨sym.getType.getAPSIntType.window.wrap 1, (hinitial hranges _).mpr ⟨Window.wrap_mem _ _, fun _ => ?_⟩⟩
    have h := (wrap_truth hpos True).mpr trivial
    rwa [if_pos trivial] at h

/-- **One condition** leaves the values that answer it. -/
theorem assume_exact {a : NonLoc × Bool} (h : Decided ptrDiffTy a) :
    Assumption.Exact (fun state a => assume ptrDiffTy state a.1 a.2) Allows (Answers ptrDiffTy)
      ProgramState.Good a := by
  obtain ⟨cond, assumption⟩ := a
  -- what comes of the constraint manager's assumption
  have haux : ∀ state : ProgramState, state.Good →
      (∀ mid, assumeAux ptrDiffTy state cond assumption = some mid →
        mid.Good ∧ ∀ v, Allows mid v ↔ Allows state v ∧ Answers ptrDiffTy v (cond, assumption)) ∧
      (assumeAux ptrDiffTy state cond assumption = none →
        ∀ v, Allows state v → ¬ Answers ptrDiffTy v (cond, assumption)) := by
    intro state hstate
    cases cond with
    | concreteInt value =>
      have hiff : ∀ v, Answers ptrDiffTy v (.concreteInt value, assumption) ↔
          decide (value.bits ≠ 0) = assumption := by
        intro v
        rw [answers_concreteInt, ← APSInt.bits_ne_zero_iff]
        cases assumption <;> simp
      unfold assumeAux
      simp only [hiff]
      by_cases hv : decide (value.bits ≠ 0) = assumption
      · rw [if_pos hv]
        refine ⟨fun mid hmid => ?_, fun hnone => by cases hnone⟩
        obtain rfl := Option.some.inj hmid
        exact ⟨hstate, fun v => (and_iff_left hv).symm⟩
      · rw [if_neg hv]
        exact ⟨fun mid hmid => (by cases hmid), fun _ v _ => hv⟩
    | symbolVal cond =>
      simp only [assumeAux_eq, answers_symbolVal]
      cases hq : asked ptrDiffTy cond assumption with
      | none =>
        refine ⟨fun mid hmid => ?_, fun hnone => by cases hnone⟩
        obtain rfl := Option.some.inj hmid
        exact ⟨hstate, fun v => (and_iff_left fun q hq => by cases hq).symm⟩
      | some q =>
        obtain ⟨hfair, hmissed⟩ := h q hq
        have hrestricts := Question.restricts hfair hstate
        simp only [Option.mem_some_iff, forall_eq']
        refine ⟨fun mid hmid => ⟨hrestricts.good mid hmid, fun v => ?_⟩, fun hnone v hv hholds => ?_⟩
        · have hother : ∀ sym, sym ≠ q.sym → mid.values sym = state.values sym := by
            intro sym hne
            obtain rfl | ⟨new, hnew, rfl⟩ := hrestricts.narrows mid hmid
            · rfl
            · exact ProgramState.values_setRange_of_ne hne
          constructor
          · intro hv
            have hsym := hv q.sym hfair.into.pos
            refine ⟨fun sym hpos => ?_, hrestricts.exact hmissed mid hmid _ hsym⟩
            by_cases hne : sym = q.sym
            · exact hne ▸ hrestricts.sub mid hmid _ hsym
            · exact hother sym hne ▸ hv sym hpos
          · rintro ⟨hv, hholds⟩ sym hpos
            by_cases hne : sym = q.sym
            · subst hne
              exact hrestricts.keeps mid hmid _ (hv q.sym hpos) hholds
            · exact hother sym hne ▸ hv sym hpos
        · exact hrestricts.infeasible hnone _ (hv q.sym hfair.into.pos) hholds
  constructor
  · intro state state' hstate hassume
    obtain ⟨mid, hmid, rfl⟩ := Option.map_eq_some_iff.mp hassume
    obtain ⟨hgood, hiff⟩ := (haux state hstate).1 mid hmid
    have hrange : (evalAssume mid cond assumption).constraintRange = mid.constraintRange :=
      evalAssume_constraintRange cond
    refine ⟨fun sym ranges hranges => hgood sym ranges (hrange ▸ hranges), fun v => ?_⟩
    rw [← hiff]
    unfold Allows
    simp only [values_eq hrange]
  · intro state hstate hassume
    exact (haux state hstate).2 (Option.map_eq_none_iff.mp hassume)

/-- The values that the symbols may have in the state, if all conditions are
answered. -/
def Solutions (ptrDiffTy : QualType) (state : ProgramState) (conds : List (NonLoc × Bool)) : Set (SymExpr → ℤ) :=
  {v | Allows state v ∧ ∀ a ∈ conds, Answers ptrDiffTy v a}

/-- **What a list of conditions leaves**, one assumed after the other. The state
is feasible exactly if the conditions have a solution, and every symbol has its
values in the solutions. -/
theorem assumeAll_solutions {ptrDiffTy : QualType} {state : ProgramState} {conds : List (NonLoc × Bool)}
    (hstate : state.Good) (h : ∀ a ∈ conds, Decided ptrDiffTy a) :
    ((∃ state', Assumption.assumeAll (fun state a => assume ptrDiffTy state a.1 a.2) state conds = some state') ↔
        (Solutions ptrDiffTy state conds).Nonempty) ∧
      ∀ state', Assumption.assumeAll (fun state a => assume ptrDiffTy state a.1 a.2) state conds = some state' →
        ∀ sym, 0 < sym.getType.getAPSIntType.bitWidth →
          state'.values sym = {x | ∃ v ∈ Solutions ptrDiffTy state conds, v sym = x} := by
  have hexact := Assumption.assumeAll_exact (fun a ha => assume_exact (h a ha)) hstate
  have hfeasible : ∀ state',
      Assumption.assumeAll (fun state a => assume ptrDiffTy state a.1 a.2) state conds = some state' →
        state'.Good ∧ ∀ v, Allows state' v ↔ v ∈ Solutions ptrDiffTy state conds := hexact.feasible
  classical
  -- a valuation of a state, with a given value of one symbol
  have hvaluation : ∀ state' : ProgramState, state'.Good → ∀ sym, ∀ x ∈ state'.values sym,
      ∃ v, Allows state' v ∧ v sym = x := by
    intro state' hgood sym x hx
    have hsome : ∀ s : SymExpr, ∃ y, 0 < s.getType.getAPSIntType.bitWidth → y ∈ state'.values s := fun s => by
      by_cases hpos : 0 < s.getType.getAPSIntType.bitWidth
      · obtain ⟨y, hy⟩ := values_nonempty hgood hpos
        exact ⟨y, fun _ => hy⟩
      · exact ⟨0, fun h => absurd h hpos⟩
    choose v hv using hsome
    refine ⟨Function.update v sym x, fun s hpos => ?_, Function.update_self _ _ _⟩
    by_cases hs : s = sym
    · subst hs
      rwa [Function.update_self]
    · rw [Function.update_of_ne hs]
      exact hv s hpos
  constructor
  · constructor
    · rintro ⟨state', hrun⟩
      obtain ⟨hgood, hiff⟩ := hfeasible state' hrun
      have hsome : (state'.values (.data 0 intType "")).Nonempty := values_nonempty hgood (by decide)
      obtain ⟨y, hy⟩ := hsome
      obtain ⟨v, hv, -⟩ := hvaluation state' hgood _ y hy
      exact ⟨v, (hiff v).mp hv⟩
    · rintro ⟨v, hv, hall⟩
      cases hrun : Assumption.assumeAll (fun state a => assume ptrDiffTy state a.1 a.2) state conds with
      | some state' => exact ⟨state', rfl⟩
      | none => exact absurd hall (hexact.infeasible hrun v hv)
  · intro state' hrun sym hpos
    obtain ⟨hgood, hiff⟩ := hfeasible state' hrun
    ext x
    constructor
    · intro hx
      obtain ⟨v, hv, hvx⟩ := hvaluation state' hgood sym x hx
      exact ⟨v, (hiff v).mp hv, hvx⟩
    · rintro ⟨v, hv, rfl⟩
      exact (hiff v).mpr hv sym hpos

/-- `x > 0`, and `x - 3 < 4` is false. -/
def twoConditions : List (NonLoc × Bool) :=
  [(.symbolVal (.symInt paramX .gt (intValue 0) intType), true),
    (.symbolVal (.symInt (.symInt paramX .sub (intValue 3) intType) .lt (intValue 4) intType), false)]

theorem good_initial : ProgramState.initial.Good := fun _ _ h => by cases h

theorem assumeAll_solutions_paramX :
    ((∃ state', Assumption.assumeAll (fun state a => assume (.integer 64 false) state a.1 a.2) .initial
        twoConditions = some state') ↔ (Solutions (.integer 64 false) .initial twoConditions).Nonempty) ∧
      ∀ state', Assumption.assumeAll (fun state a => assume (.integer 64 false) state a.1 a.2) .initial
          twoConditions = some state' →
        ∀ sym, 0 < sym.getType.getAPSIntType.bitWidth →
          state'.values sym = {x | ∃ v ∈ Solutions (.integer 64 false) .initial twoConditions, v sym = x} :=
  assumeAll_solutions good_initial (by decide +kernel)

end

end Ento
end Apisan
