/-
# The paths of the program

Along a path the engine branches and switches on what it evaluates the
program's expressions to. An execution goes the way of their values; if the
expressions are typed and defined, then some state at the end of the path admits
the execution (`exploreActions_admits`). That the conditions of these branches and
switches are read as they are meant follows from the types. Of what a checker
assumes, and of a branch or a switch on a symbolic condition, it is asked as before
(`Step.Taken`).

Key definitions: `Action`, `Action.toStep`, `Action.Taken`, `exploreActions`.
Key theorems: `NonLoc.HasType.meant`, `Action.taken_toStep`, `exploreActions_admits`.
-/
import Mathlib.Data.List.Find
import Apisan.Extractor.Terms
import Apisan.Extractor.Paths

namespace Apisan
namespace Ento

variable {builder : SValBuilder} {isTainted : NonLoc → Bool} {state : ProgramState} {L : Set SymExpr} {ρ : ℕ → ℤ}
variable {ptrDiffTy : QualType} {v : NonLoc}

/-- The symbol that a constant is added to has the type of the sum. -/
theorem base_getType {lhs : SymExpr} (h : lhs.Typed) : (base lhs).getType = lhs.getType := by
  unfold base computeAdjustment
  split
  · exact h.2.1 rfl
  · exact h.2.1 rfl
  · rfl

/-- A typed comparison with a constant converts nothing. -/
theorem converts_of_typed {lhs : SymExpr} {int : APSInt} (h : lhs.Typed) (hlhs : lhs.getType.IsInteger)
    (hint : int.type = lhs.getType.getAPSIntType) : Converts lhs int := by
  have hcomparison : comparisonType lhs int = lhs.getType.getAPSIntType := by
    rw [comparisonType, hint, max_self]
  refine ⟨by rw [hcomparison]; exact .refl hlhs.2, ?_⟩
  rw [type_adjustment, hcomparison, if_pos rfl, base_getType h]
  exact .refl hlhs.2

/-- **Typed conditions** are read as they are meant. -/
theorem NonLoc.HasType.meant {type : QualType} (h : v.HasType type) (htype : type.IsInteger) :
    v.Meant ptrDiffTy ρ := by
  cases v with
  | concreteInt value => trivial
  | symbolVal sym =>
    obtain ⟨rfl, htyped⟩ := h
    have hnonzero : ∀ q, Question.nonzero sym = some q → q.sym.getType.isReferenceType ≠ true := by
      intro q hq href
      have hsym : q.sym = sym := by
        unfold Question.nonzero at hq
        split_ifs at hq
        exact (congrArg Question.sym (Option.some.inj hq)).symm
      rw [hsym, htype.not_isReferenceType] at href
      cases href
    refine ⟨htype.2, fun lhs op rhs type hsym hop => ?_, fun lhs op rhs type hsym hop => ?_, fun q hq href => ?_⟩
    · subst hsym
      obtain ⟨hlhs, -, hcompares⟩ := htyped
      obtain ⟨hlty, hrhs⟩ := hcompares hop
      exact converts_of_typed hlhs hlty hrhs
    · subst hsym
      obtain ⟨hcomparison, hloc⟩ := Bool.and_eq_true_iff.mp hop
      rw [(htyped hcomparison).not_isLocType] at hloc
      cases hloc
    · exfalso
      unfold question at hq
      split at hq
      · next lhs op rhs type =>
        split_ifs at hq with hop
        · obtain ⟨hlhs, -, hcompares⟩ := htyped
          rw [← Option.some.inj hq, Question.relation, base_getType hlhs,
            (hcompares hop).1.not_isReferenceType] at href
          cases href
        · exact hnonzero q hq href
      · next lhs op rhs type =>
        split_ifs at hq with hop
        · obtain ⟨hcomparison, hloc⟩ := Bool.and_eq_true_iff.mp hop
          rw [(htyped hcomparison).not_isLocType] at hloc
          cases hloc
        · exact hnonzero q hq href
      · exact hnonzero q hq href

/-- What happens along a path of the program: a step, or a branch or a switch on
an expression, some values being tainted. -/
inductive Action
  | step (step : Step)
  | branch (cond : Term) (isTainted : NonLoc → Bool) (dstT dstF branch : Bool)
  | switch (cond : Term) (isTainted : NonLoc → Bool) (defaultBlock allEnumCasesCovered : Bool) (cases : List Case)
      (choice : Option ℕ)

/-- The step that an action is in a state, where its expression is evaluated. -/
def Action.toStep (builder : SValBuilder) (state : ProgramState) : Action → Step
  | step s => s
  | branch cond isTainted dstT dstF b => .branch (some (cond.evaluate builder isTainted state)) dstT dstF b
  | switch cond isTainted defaultBlock allEnumCasesCovered cases choice =>
    .switch (cond.evaluate builder isTainted state) defaultBlock allEnumCasesCovered cases choice

/-- The states after an action. -/
def Action.states (ptrDiffTy : QualType) (builder : SValBuilder) (state : ProgramState) (a : Action) :
    List ProgramState :=
  (a.toStep builder state).states ptrDiffTy builder.conditionTy state

/-- The states at the end of a path of the program. -/
def exploreActions (ptrDiffTy : QualType) (builder : SValBuilder) (actions : List Action) (state : ProgramState) :
    List ProgramState :=
  Assumption.explore (Action.states ptrDiffTy builder) actions state

/-- The case of a switch that an execution takes: the first that has the value of
the expression. -/
def Term.chosen (ρ : ℕ → ℤ) (t : Term) (items : List (ℕ × APSInt)) : Option ℕ :=
  (items.find? fun p => decide (t.value ρ = p.2.value)).map Prod.fst

/-- **An execution takes an action**: it goes the way of the expression's value,
which is typed and defined, and the graph has the blocks on its way. The
constants of a switch have the type of its condition. -/
def Action.Taken (ptrDiffTy : QualType) (builder : SValBuilder) (ρ : ℕ → ℤ) : Action → Prop
  | step s => s.Taken ptrDiffTy builder.conditionTy ρ
  | branch cond _ dstT dstF b =>
    (if b then dstT else dstF) = true ∧ cond.WellTyped builder ρ ∧ (cond.value ρ ≠ 0 ↔ b = true)
  | switch cond _ defaultBlock allEnumCasesCovered cases choice =>
    cond.WellTyped builder ρ ∧ Opcode.eq.Takes builder builder.conditionTy cond.type cond.type ∧
      (∀ p ∈ caseConstants cases, p.2.type = cond.type.getAPSIntType) ∧
      choice = cond.chosen ρ (caseConstants cases) ∧
      (choice = none → defaultBlock = true ∧ allEnumCasesCovered = false ∧ (caseConstants cases = [] → cases = []))

/-- The call of an action. -/
def Action.call : Action → List SymExecEvent
  | step s => s.call
  | _ => []

/-- The equality of a typed value and a constant of its type is typed. -/
theorem equality_hasType {type : QualType} {sym : SymExpr} {c : APSInt}
    (htakes : Opcode.eq.Takes builder builder.conditionTy type type) (hsym : (NonLoc.symbolVal sym).HasType type)
    (hc : c.type = type.getAPSIntType) :
    (NonLoc.symbolVal (equality builder.conditionTy sym c)).HasType builder.conditionTy := by
  have hmake : (NonLoc.symbolVal (makeSymIntEQ builder.conditionTy sym c)).HasType builder.conditionTy :=
    ((symInt_gives (ρ := fun _ => 0) htakes hsym hc trivial).value _ rfl).1
  unfold equality
  split
  · next l opc d type' =>
    split_ifs with hzero
    · obtain ⟨rfl, hl, -, hcompares⟩ := hsym
      have hadditive : opc.negateComparisonOp.isAdditiveOp = false := by
        cases opc <;> first | rfl | cases hzero.2
      refine ⟨rfl, hl, fun h => ?_, fun _ => hcompares hzero.2⟩
      rw [hadditive] at h
      cases h
    · exact hmake
  · exact hmake

theorem distinguishes_of_typed {type : QualType} {c : APSInt}
    (htakes : Opcode.eq.Takes builder builder.conditionTy type type) (hv : v.HasType type)
    (hc : c.type = type.getAPSIntType) : Distinguishes ptrDiffTy builder.conditionTy ρ v c where
  width := htakes.result.2
  symbol sym hsym := by
    subst hsym
    have hmeant : (NonLoc.symbolVal (equality builder.conditionTy sym c)).Meant ptrDiffTy ρ :=
      (equality_hasType htakes hv hc).meant htakes.result
    obtain ⟨rfl, -⟩ := hv
    exact ⟨htakes.left.2, hmeant⟩

/-- A typed value matches a constant of its type if it is equal. -/
theorem matches_of_typed {type : QualType} {c : APSInt} (hv : v.HasType type) (hc : c.type = type.getAPSIntType) :
    Matches ρ v c ↔ v.eval ρ = c.value := by
  have hmem := hv.eval_mem (ρ := ρ)
  have hmem' : c.value ∈ type.getAPSIntType.window := hc ▸ c.value_mem
  unfold Matches
  cases v with
  | concreteInt d =>
    have hd : d.type = type.getAPSIntType := hv
    simp only [hd, hc, max_self]
    rw [Window.wrap_of_mem hmem, Window.wrap_of_mem hmem']
  | symbolVal sym =>
    obtain ⟨rfl, -⟩ := hv
    simp only [hc, max_self]
    rw [Window.wrap_of_mem hmem, Window.wrap_of_mem hmem']

/-- **An action that an execution takes** is a step that it takes, in every state
that admits it. -/
theorem Action.taken_toStep {a : Action} (hadmits : Admits L ρ state) (h : a.Taken ptrDiffTy builder ρ) :
    (a.toStep builder state).Taken ptrDiffTy builder.conditionTy ρ := by
  cases a with
  | step s => exact h
  | branch cond isTainted dstT dstF b =>
    obtain ⟨hblock, htyped, hbranch⟩ := h
    refine ⟨hblock, fun hnone => (by cases hnone), fun x hx => ?_⟩
    obtain rfl := Option.some.inj hx
    have hgives := Term.gives isTainted hadmits htyped
    cases hres : cond.evaluate builder isTainted state with
    | unknown => exact trivial
    | undefined => exact trivial
    | nonLoc v =>
      obtain ⟨hv, hvalue⟩ := hgives.value v hres
      exact ⟨hv.meant htyped.isInteger, hvalue.symm ▸ hbranch⟩
  | switch cond isTainted defaultBlock covered cases choice =>
    obtain ⟨htyped, htakes, hconstants, hchoice, hdefault⟩ := h
    refine ⟨?_, hdefault⟩
    have hgives := Term.gives isTainted hadmits htyped
    show Chooses ptrDiffTy builder.conditionTy ρ (caseConstants cases) choice (cond.evaluate builder isTainted state)
    cases hres : cond.evaluate builder isTainted state with
    | undefined => exact absurd hres hgives.defined
    | unknown =>
      intro i hi
      rw [hchoice] at hi
      obtain ⟨p, hp, rfl⟩ := Option.map_eq_some_iff.mp hi
      exact ⟨p, List.mem_of_find?_eq_some hp, rfl⟩
    | nonLoc v =>
      obtain ⟨hv, hvalue⟩ := hgives.value v hres
      refine ⟨fun p hp => distinguishes_of_typed htakes hv (hconstants p hp), hchoice.trans ?_⟩
      have hfind : ∀ items : List (ℕ × APSInt), (∀ p ∈ items, p.2.type = cond.type.getAPSIntType) →
          cond.chosen ρ items = taken ρ v items := by
        intro items hitems
        have hsame : ∀ p ∈ items, decide (cond.value ρ = p.2.value) = decide (Matches ρ v p.2) := fun p hp =>
          decide_eq_decide.mpr (by rw [matches_of_typed hv (hitems p hp), hvalue])
        unfold Term.chosen taken
        rw [List.find?_congr hsame]
      exact hfind _ hconstants

/-- A branch on `!(4 < (x + 1) + 2)`, which is false, a call, and a switch on `x - 1` with the cases 1 and 2. -/
def threeActions : List Action :=
  [.branch sumTerm (fun _ => false) true true false, .step (.event (.ofCall .fnCall "a.c:3" "f(x)")),
    .switch (.binary .sub (.symbol paramX) (.constant (intValue 1) intType) intType) (fun _ => false) true false
      [⟨true, intValue 1, intValue 2⟩] (some 0)]

end Ento
end Apisan
