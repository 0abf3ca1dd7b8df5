/-
# Switches

The engine assumes that the condition of a switch equals the constants of the
cases, one after the other, and for the default case that it equals none. An
execution goes on in the node for the first case that has its value, or in the
default one (`switchCases_admits`), if the equalities are read as they are meant
(`Distinguishes`). A switch whose cases have all been pruned has
no node at all, not even the default one (`processSwitch_pruned`).

Key definitions: `evalEQ`, `Case`, `switchCases`, `processSwitch`, `Matches`,
`taken`.
Key theorems: `evalEQ_holds`, `switchCases_admits`, `processSwitch_pruned`.
-/
import Apisan.Extractor.Branches

namespace Apisan
namespace Ento

variable {L : Set SymExpr} {ρ : ℕ → ℤ} {ptrDiffTy conditionTy : QualType} {state : ProgramState} {sym : SymExpr}

/-- `getTruthValue`. -/
def getTruthValue (b : Bool) (type : QualType) : APSInt :=
  ⟨type.getAPSIntType.bitWidth, false, if b then 1 else 0⟩

/-- `isSignedIntegerOrEnumerationType`. -/
def QualType.isSignedIntegerOrEnumerationType : QualType → Bool
  | integer _ isUnsigned => !isUnsigned
  | _ => false

/-- `MakeSymIntVal`, of an equality: the constant is converted to the symbol's
type if that is larger. -/
def makeSymIntEQ (conditionTy : QualType) (sym : SymExpr) (rhs : APSInt) : SymExpr :=
  let type := sym.getType.getAPSIntType
  let convertedRHS :=
    if rhs.bitWidth < type.bitWidth then type.convert rhs
    else if rhs.bitWidth = type.bitWidth ∧ !rhs.isUnsigned ∧ !sym.getType.isSignedIntegerOrEnumerationType then
      type.convert rhs
    else rhs
  .symInt sym .eq convertedRHS conditionTy

/-- What two constants give for equality, in the larger of their types. -/
def constantEQ (conditionTy : QualType) (lhs rhs : APSInt) : NonLoc :=
  let compareType := lhs.type.max rhs.type
  .concreteInt (getTruthValue (decide ((compareType.convert lhs).value = (compareType.convert rhs).value)) conditionTy)

/-- The equality of a symbol and a constant; a symbol that has only one value is
that constant. -/
def symbolEQ (conditionTy : QualType) (state : ProgramState) (sym : SymExpr) (rhs : APSInt) : ConditionSVal :=
  match getSymVal state sym with
  | some constant => .nonLoc (constantEQ conditionTy constant rhs)
  | none => .nonLoc (.symbolVal (makeSymIntEQ conditionTy sym rhs))

/-- `evalEQ` with a constant, as `evalBinOpNN` has it: the equality of a
comparison with zero negates it. -/
def evalEQ (conditionTy : QualType) (state : ProgramState) (lhs : ConditionSVal) (rhs : APSInt) : ConditionSVal :=
  match lhs with
  | .nonLoc lhs =>
    if lhs = .concreteInt rhs then .nonLoc (.concreteInt (getTruthValue true conditionTy))
    else
      match lhs with
      | .concreteInt value => .nonLoc (constantEQ conditionTy value rhs)
      | .symbolVal (.symInt l opc c type) =>
        if rhs.value = 0 ∧ opc.isComparisonOp then
          .nonLoc (.symbolVal (.symInt l opc.negateComparisonOp c conditionTy))
        else .nonLoc (.symbolVal (makeSymIntEQ conditionTy (.symInt l opc c type) rhs))
      | .symbolVal sym => symbolEQ conditionTy state sym rhs
  | x => x

/-- `ProgramState::assume`; an unknown condition says nothing. -/
def ConditionSVal.assume (ptrDiffTy : QualType) (state : ProgramState) (cond : ConditionSVal) (assumption : Bool) :
    Option ProgramState :=
  match cond with
  | .nonLoc val => Ento.assume ptrDiffTy state val assumption
  | _ => some state

/-- A case of a switch: whether its block is in the graph, and the constants
from the first to the last. -/
structure Case where
  hasBlock : Bool
  first : APSInt
  last : APSInt
  deriving DecidableEq, Repr

/-- So many constants in a row. -/
def constants : ℕ → APSInt → List APSInt
  | 0, _ => []
  | n + 1, v => v :: constants n v.succ

/-- The constants of a case. -/
def Case.constants (c : Case) : List APSInt :=
  if c.hasBlock then Ento.constants ((c.last.value - c.first.value).toNat + 1) c.first else []

/-- The constants of the cases, with the case they are of. -/
def caseConstants (cases : List Case) : List (ℕ × APSInt) :=
  cases.zipIdx.flatMap fun (c, i) => c.constants.map fun v => (i, v)

def ConditionSVal.isConcreteInt : ConditionSVal → Bool
  | .nonLoc (.concreteInt _) => true
  | _ => false

/-- The loop of `processSwitch`: the nodes of the cases, and the state of the
default one. A constant takes the first case that it equals, and no other. -/
def switchCases (ptrDiffTy conditionTy : QualType) (state : ProgramState) (cond : ConditionSVal) :
    List (ℕ × APSInt) → Option ProgramState → Bool → List (ℕ × ProgramState) × Option ProgramState
  | [], defaultSt, defaultIsFeasible => ([], if defaultIsFeasible then defaultSt else none)
  | (i, v) :: rest, defaultSt, defaultIsFeasible =>
    let res := evalEQ conditionTy (defaultSt.getD state) cond v
    let stateNew := res.assume ptrDiffTy state true
    if stateNew.isSome && cond.isConcreteInt then (stateNew.toList.map fun s => (i, s), none)
    else
      let defaultNew := defaultSt.bind fun defaultSt => res.assume ptrDiffTy defaultSt false
      let nodes := switchCases ptrDiffTy conditionTy state cond rest defaultNew
        (if defaultSt.isSome then defaultNew.isSome else defaultIsFeasible)
      (stateNew.toList.map (fun s => (i, s)) ++ nodes.1, nodes.2)

/-- `processSwitch`: the nodes of the cases and of the default one, if its block
is in the graph and the constants of an enumeration are not all covered. -/
def processSwitch (ptrDiffTy conditionTy : QualType) (defaultBlock allEnumCasesCovered : Bool) (cases : List Case)
    (state : ProgramState) (cond : ConditionSVal) : List (ℕ × ProgramState) × Option ProgramState :=
  match cond with
  | .undefined => ([], none)
  | _ =>
    let nodes := switchCases ptrDiffTy conditionTy state cond (caseConstants cases) (some state) cases.isEmpty
    (nodes.1, if allEnumCasesCovered || !defaultBlock then none else nodes.2)

/-- The condition of a switch equals a constant, in the larger of their types. -/
def Matches (ρ : ℕ → ℤ) (cond : NonLoc) (v : APSInt) : Prop :=
  let type := match cond with
    | .concreteInt value => value.type.max v.type
    | .symbolVal sym => sym.getType.getAPSIntType.max v.type
  type.window.wrap (cond.eval ρ) = type.window.wrap v.value

instance (cond : NonLoc) (v : APSInt) : Decidable (Matches ρ cond v) := inferInstanceAs (Decidable (_ = _))

/-- The symbol for the equality of a symbol and a constant, if the symbol may
have other values. -/
def equality (conditionTy : QualType) (sym : SymExpr) (rhs : APSInt) : SymExpr :=
  match sym with
  | .symInt l opc c type =>
    if rhs.value = 0 ∧ opc.isComparisonOp then .symInt l opc.negateComparisonOp c conditionTy
    else makeSymIntEQ conditionTy (.symInt l opc c type) rhs
  | sym => makeSymIntEQ conditionTy sym rhs

/-- The symbol whose ranges are logged with an equality. -/
def loggedEQ (conditionTy : QualType) (cond : NonLoc) (rhs : APSInt) : List SymExpr :=
  match cond with
  | .symbolVal sym => (NonLoc.symbolVal (equality conditionTy sym rhs)).logged
  | .concreteInt _ => []

/-- The equality with a constant is read as it is meant. -/
structure Distinguishes (ptrDiffTy conditionTy : QualType) (ρ : ℕ → ℤ) (cond : NonLoc) (v : APSInt) : Prop where
  width : 0 < conditionTy.getAPSIntType.bitWidth
  symbol : ∀ sym, cond = .symbolVal sym →
    0 < sym.getType.getAPSIntType.bitWidth ∧ Meant ptrDiffTy ρ (equality conditionTy sym v)

variable {v lhs rhs : APSInt}

theorem getTruthValue_ne_zero (h : 0 < conditionTy.getAPSIntType.bitWidth) (b : Bool) :
    (getTruthValue b conditionTy).value ≠ 0 ↔ b = true := by
  rw [← APSInt.bits_ne_zero_iff]
  unfold getTruthValue
  cases b with
  | false => simp
  | true =>
    refine iff_of_true (fun hzero => ?_) rfl
    have hnat := congrArg BitVec.toNat hzero
    have hone : 1 < 2 ^ conditionTy.getAPSIntType.bitWidth := Nat.one_lt_two_pow h.ne'
    have htoNat : (1 : BitVec conditionTy.getAPSIntType.bitWidth).toNat = 1 := by
      exact Nat.mod_eq_of_lt hone
    have hzero' : (0 : BitVec conditionTy.getAPSIntType.bitWidth).toNat = 0 := BitVec.toNat_zero
    exact absurd (htoNat.symm.trans (hnat.trans hzero')) (by decide)

theorem constantEQ_eval (h : 0 < conditionTy.getAPSIntType.bitWidth) :
    (constantEQ conditionTy lhs rhs).eval ρ ≠ 0 ↔
      (lhs.type.max rhs.type).window.wrap lhs.value = (lhs.type.max rhs.type).window.wrap rhs.value := by
  show (getTruthValue _ conditionTy).value ≠ 0 ↔ _
  rw [getTruthValue_ne_zero h, decide_eq_true_iff, APSIntType.value_convert, APSIntType.value_convert]

/-- The type of a comparison is at least as wide as either type. -/
theorem max_bitWidth (t u : APSIntType) : t.bitWidth ≤ (t.max u).bitWidth := by
  unfold APSIntType.max APSIntType.lt
  split_ifs with h
  · simp only [Bool.or_eq_true, decide_eq_true_eq, Bool.and_eq_true, beq_iff_eq] at h
    omega
  · exact le_rfl

/-- A value of a type is zero in a wider one only if it is zero. -/
theorem wrap_eq_wrap_zero {t u : APSIntType} {x : ℤ} (hle : t.bitWidth ≤ u.bitWidth) (hx : x ∈ t.window) :
    u.window.wrap x = u.window.wrap 0 ↔ x = 0 := by
  refine ⟨fun h => ?_, fun h => by rw [h]⟩
  have hdvd : t.window.size ∣ u.window.size := pow_dvd_pow 2 hle
  have hzero : (0 : ℤ) ∈ t.window := t.value_getZeroValue ▸ t.getZeroValue.value_mem
  exact Window.eq_of_modEq hx hzero ((Window.wrap_eq_iff.mp h).of_dvd hdvd)

/-- The constant of an equality keeps what it compares with. -/
theorem makeSymIntEQ_eval (h : 0 < conditionTy.getAPSIntType.bitWidth) (sym : SymExpr) (rhs : APSInt) :
    (makeSymIntEQ conditionTy sym rhs).eval ρ ≠ 0 ↔ Matches ρ (.symbolVal sym) rhs := by
  -- a conversion to the symbol's type, which is the larger one
  have hconvert : sym.getType.getAPSIntType.max rhs.type = sym.getType.getAPSIntType →
      (SymExpr.eval ρ (.symInt sym .eq (sym.getType.getAPSIntType.convert rhs) conditionTy) ≠ 0 ↔
        Matches ρ (.symbolVal sym) rhs) := by
    intro hmax
    refine (apply_comparison rfl h _ _ _ _).trans ?_
    unfold Matches
    simp only [hmax, APSIntType.type_convert, max_self, APSIntType.value_convert, Opcode.Holds]
    rw [Window.wrap_wrap rfl]
    rfl
  unfold makeSymIntEQ
  simp only
  split_ifs with hlt hsame
  · refine hconvert (if_neg ?_)
    unfold APSIntType.lt
    simp only [Bool.or_eq_true, decide_eq_true_eq, Bool.and_eq_true, beq_iff_eq]
    have hwidth : rhs.type.bitWidth = rhs.bitWidth := rfl
    omega
  · refine hconvert (if_neg ?_)
    have hunsigned : sym.getType.getAPSIntType.isUnsigned = true := by
      have hsigned := hsame.2.2
      cases htype : sym.getType with
      | integer w u =>
        rw [htype] at hsigned
        show u = true
        simpa [QualType.isSignedIntegerOrEnumerationType] using hsigned
      | pointer w => rfl
      | reference w => rfl
      | other w => rfl
    have hwidth : rhs.type.bitWidth = rhs.bitWidth := rfl
    unfold APSIntType.lt
    simp only [hunsigned, Bool.not_true, Bool.and_false, Bool.false_and, Bool.or_false, decide_eq_true_eq]
    omega
  · exact apply_comparison rfl h _ _ _ _

/-- The value that a symbol must have. -/
theorem getSymVal_eval {c : APSInt} (h : Admits L ρ state) (hval : getSymVal state sym = some c) :
    c.type = sym.getType.getAPSIntType ∧ c.value = sym.eval ρ := by
  obtain ⟨ranges, hranges, hconcrete⟩ := Option.bind_eq_some_iff.mp hval
  have hmem := h.ranges sym ranges hranges
  have htyped := (h.good sym ranges hranges).typed
  unfold RangeSet.getConcreteValue at hconcrete
  split at hconcrete
  · next r =>
    split_ifs at hconcrete with heq
    obtain rfl := Option.some.inj hconcrete
    obtain ⟨p, hp, hlow, hhigh⟩ := hmem
    obtain rfl := List.mem_singleton.mp hp
    refine ⟨(htyped r List.mem_cons_self).1, le_antisymm hlow ?_⟩
    rw [heq]
    exact hhigh
  · cases hconcrete

/-- **The equality with a constant** is true exactly if the condition has the
constant's value. -/
theorem evalEQ_holds {cond : NonLoc} (h : Admits L ρ state) (hmeant : Distinguishes ptrDiffTy conditionTy ρ cond v) :
    ∃ res, evalEQ conditionTy state (.nonLoc cond) v = .nonLoc res ∧ res.Meant ptrDiffTy ρ ∧
      (∀ s ∈ res.logged, s ∈ loggedEQ conditionTy cond v) ∧ (res.eval ρ ≠ 0 ↔ Matches ρ cond v) := by
  have htrue := getTruthValue_ne_zero hmeant.width
  unfold evalEQ
  by_cases hsame : cond = .concreteInt v
  · subst hsame
    simp only [if_true]
    refine ⟨_, rfl, trivial, fun s hs => (List.not_mem_nil hs).elim, ?_⟩
    exact iff_of_true ((htrue true).mpr rfl) rfl
  · simp only [if_neg hsame]
    cases cond with
    | concreteInt value =>
      exact ⟨_, rfl, trivial, fun s hs => (List.not_mem_nil hs).elim, constantEQ_eval hmeant.width⟩
    | symbolVal sym =>
      obtain ⟨hpos, hequality⟩ := hmeant.symbol sym rfl
      -- a symbol that is not folded, or one that has a value
      have hmake : equality conditionTy sym v = makeSymIntEQ conditionTy sym v →
          NonLoc.Meant ptrDiffTy ρ (.symbolVal (makeSymIntEQ conditionTy sym v)) ∧
            (∀ s ∈ (NonLoc.symbolVal (makeSymIntEQ conditionTy sym v)).logged,
              s ∈ loggedEQ conditionTy (.symbolVal sym) v) ∧
            ((NonLoc.symbolVal (makeSymIntEQ conditionTy sym v)).eval ρ ≠ 0 ↔ Matches ρ (.symbolVal sym) v) :=
        fun heq => ⟨heq ▸ hequality, fun s hs => by rwa [loggedEQ, heq], makeSymIntEQ_eval hmeant.width sym v⟩
      have hfold : ∀ c, getSymVal state sym = some c →
          ((constantEQ conditionTy c v).eval ρ ≠ 0 ↔ Matches ρ (.symbolVal sym) v) := by
        intro c hval
        obtain ⟨htype, hvalue⟩ := getSymVal_eval h hval
        rw [constantEQ_eval hmeant.width, htype, hvalue]
        rfl
      have hother : equality conditionTy sym v = makeSymIntEQ conditionTy sym v →
          ∃ res, symbolEQ conditionTy state sym v = .nonLoc res ∧ res.Meant ptrDiffTy ρ ∧
            (∀ s ∈ res.logged, s ∈ loggedEQ conditionTy (.symbolVal sym) v) ∧
              (res.eval ρ ≠ 0 ↔ Matches ρ (.symbolVal sym) v) := by
        intro heq
        unfold symbolEQ
        cases hval : getSymVal state sym with
        | none => exact ⟨_, rfl, hmake heq⟩
        | some c => exact ⟨_, rfl, trivial, fun s hs => (List.not_mem_nil hs).elim, hfold c hval⟩
      cases sym with
      | symInt l opc c type =>
        by_cases hzero : v.value = 0 ∧ opc.isComparisonOp = true
        · simp only [if_pos hzero]
          have heq : equality conditionTy (.symInt l opc c type) v =
              .symInt l opc.negateComparisonOp c conditionTy := if_pos hzero
          refine ⟨_, rfl, heq ▸ hequality, fun s hs => by rwa [loggedEQ, heq], ?_⟩
          show SymExpr.eval ρ (.symInt l opc.negateComparisonOp c conditionTy) ≠ 0 ↔ _
          have hneg := apply_comparison (Opcode.isComparisonOp_negate.trans hzero.2) hmeant.width
            l.getType.getAPSIntType c.type (l.eval ρ) c.value
          have hpos' := apply_comparison hzero.2 hpos l.getType.getAPSIntType c.type (l.eval ρ) c.value
          rw [Opcode.negate_holds hzero.2, ← hpos', not_not] at hneg
          refine hneg.trans ?_
          unfold Matches
          simp only [hzero.1]
          have hwrap := wrap_eq_wrap_zero (max_bitWidth _ v.type) (eval_mem (ρ := ρ) (.symInt l opc c type))
          exact hwrap.symm
        · simp only [if_neg hzero]
          exact ⟨_, rfl, hmake (if_neg hzero)⟩
      | data id type text => exact hother rfl
      | intSym l op r type => exact hother rfl
      | symSym l op r type => exact hother rfl
      | cast operand fromTy toTy => exact hother rfl

/-- A constant is not assumed to equal another one. -/
theorem evalEQ_assume {value : APSInt} {res : NonLoc}
    (hres : evalEQ conditionTy state (.nonLoc (.concreteInt value)) v = .nonLoc res) (hfalse : ¬ res.eval ρ ≠ 0)
    (state' : ProgramState) : assume ptrDiffTy state' res true = none := by
  obtain ⟨c, rfl⟩ : ∃ c, res = .concreteInt c := by
    unfold evalEQ at hres
    simp only at hres
    split_ifs at hres
    · exact ⟨_, (ConditionSVal.nonLoc.inj hres).symm⟩
    · exact ⟨_, (ConditionSVal.nonLoc.inj hres).symm⟩
  have hbits : ¬ c.bits ≠ 0 := APSInt.bits_ne_zero_iff.not.mpr hfalse
  have hne : ¬ decide (c.bits ≠ 0) = true := fun h => hbits (of_decide_eq_true h)
  exact congrArg (Option.map _) (if_neg hne)

/-- The case that an execution takes: the first that has its value. -/
def taken (ρ : ℕ → ℤ) (cond : NonLoc) (items : List (ℕ × APSInt)) : Option ℕ :=
  (items.find? fun p => Matches ρ cond p.2).map Prod.fst

/-- **The loop of a switch** has a node for the case that an execution takes, or
the default state for one that takes none. -/
theorem switchCases_admits {cond : NonLoc} {items : List (ℕ × APSInt)} {defaultSt : ProgramState} (feasible : Bool)
    (h : Admits L ρ state) (hdefault : Admits L ρ defaultSt)
    (hmeant : ∀ p ∈ items, Distinguishes ptrDiffTy conditionTy ρ cond p.2)
    (hL : ∀ p ∈ items, ∀ s ∈ loggedEQ conditionTy cond p.2, s ∈ L) :
    (∀ i, taken ρ cond items = some i → ∃ state',
        (i, state') ∈ (switchCases ptrDiffTy conditionTy state (.nonLoc cond) items (some defaultSt) feasible).1 ∧
          Admits L ρ state') ∧
      (taken ρ cond items = none → (items = [] → feasible = true) → ∃ state',
        (switchCases ptrDiffTy conditionTy state (.nonLoc cond) items (some defaultSt) feasible).2 = some state' ∧
          Admits L ρ state') := by
  induction items generalizing defaultSt feasible with
  | nil =>
    refine ⟨fun i hi => (by cases hi), fun _ hfeasible => ⟨defaultSt, ?_, hdefault⟩⟩
    rw [switchCases, hfeasible rfl]
    rfl
  | cons p items ih =>
    obtain ⟨i, v⟩ := p
    rw [List.forall_mem_cons] at hmeant hL
    obtain ⟨res, hres, hresMeant, hlogged, hiff⟩ := evalEQ_holds hdefault hmeant.1
    have hresL : ∀ s ∈ res.logged, s ∈ L := fun s hs => hL.1 s (hlogged s hs)
    unfold switchCases
    simp only [Option.getD_some, hres, ConditionSVal.assume, Option.bind_some, Option.isSome_some, if_true]
    by_cases hmatch : Matches ρ cond v
    · -- the case is taken
      have htaken : taken ρ cond ((i, v) :: items) = some i := by
        rw [taken, List.find?_cons_of_pos (by exact decide_eq_true hmatch)]
        rfl
      have htrue : res.eval ρ ≠ 0 ↔ true = true := iff_of_true (hiff.mpr hmatch) rfl
      obtain ⟨state', hstate', hadmits⟩ := assume_admits h hresMeant hresL htrue
      rw [htaken, hstate']
      refine ⟨fun j hj => ⟨state', ?_, hadmits⟩, fun hnone => by cases hnone⟩
      obtain rfl := Option.some.inj hj
      split_ifs
      · exact List.mem_singleton_self _
      · exact List.mem_append_left _ (List.mem_singleton_self _)
    · -- the case is not taken, and the default state goes on
      have htaken : taken ρ cond ((i, v) :: items) = taken ρ cond items := by
        rw [taken, List.find?_cons_of_neg (by exact fun h => hmatch (of_decide_eq_true h))]
        rfl
      have hfalse : res.eval ρ ≠ 0 ↔ false = true := iff_of_false (fun hne => hmatch (hiff.mp hne)) (by decide)
      obtain ⟨defaultNew, hnew, hadmits⟩ := assume_admits hdefault hresMeant hresL hfalse
      obtain ⟨hcase, hrest⟩ := ih true hadmits hmeant.2 hL.2
      have hstop : ¬ ((assume ptrDiffTy state res true).isSome &&
          (ConditionSVal.nonLoc cond).isConcreteInt) = true := by
        intro hstop
        rw [Bool.and_eq_true] at hstop
        cases cond with
        | symbolVal sym => cases hstop.2
        | concreteInt value =>
          rw [evalEQ_assume hres fun hne => hmatch (hiff.mp hne)] at hstop
          cases hstop.1
      rw [htaken, hnew, if_neg hstop]
      refine ⟨fun j hj => ?_, fun hnone _ => ?_⟩
      · obtain ⟨state', hmem, hstate'⟩ := hcase j hj
        exact ⟨state', List.mem_append_right _ hmem, hstate'⟩
      · exact hrest hnone fun _ => rfl

/-- With an unknown condition, every case and the default one may be taken. -/
theorem switchCases_unknown {items : List (ℕ × APSInt)} {feasible : Bool} :
    switchCases ptrDiffTy conditionTy state .unknown items (some state) feasible =
      (items.map fun p => (p.1, state), if items = [] ∧ feasible = false then none else some state) := by
  induction items generalizing feasible with
  | nil => cases feasible <;> rfl
  | cons p items ih =>
    unfold switchCases
    simp only [evalEQ, ConditionSVal.assume, ConditionSVal.isConcreteInt, Option.isSome_some, Bool.and_false,
      Option.bind_some, if_true, ih]
    simp

/-- A switch whose cases are all pruned has no successor. -/
theorem processSwitch_pruned {defaultBlock covered : Bool} {cases : List Case} {cond : ConditionSVal}
    (hcases : cases ≠ []) (hpruned : ∀ c ∈ cases, c.hasBlock = false) :
    processSwitch ptrDiffTy conditionTy defaultBlock covered cases state cond = ([], none) := by
  have hitems : caseConstants cases = [] := by
    unfold caseConstants
    rw [List.flatMap_eq_nil_iff]
    rintro ⟨c, i⟩ hmem
    have hc : c ∈ cases := (List.mem_zipIdx' hmem).2 ▸ List.getElem_mem _
    show c.constants.map _ = []
    rw [Case.constants, hpruned c hc, if_neg Bool.false_ne_true, List.map_nil]
  have hempty : cases.isEmpty = false := by simpa using hcases
  cases cond <;> simp [processSwitch, hitems, hempty, switchCases]

end Ento
end Apisan
