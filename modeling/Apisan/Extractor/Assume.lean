/-
# Assumed conditions

The constraint manager files the ranges of an assumed condition under one
symbol: for a comparison the left side, or what the left side adds a constant
to; for any other condition the condition itself (`target`). The extractor
then logs the ranges of the left side.

So the new ranges are logged, with the symbol they are of, exactly for the
comparisons whose left side adds and subtracts no constant (`logs_iff`).

Key definitions: `SymExpr`, `ProgramState`, `assumeAux`, `evalAssume`, `assume`,
`target`.
Key theorems: `assumeSymRel_narrows`, `assumeAux_narrows`, `logs_iff`.
-/
import Apisan.Extractor.EventList
import Apisan.Extractor.Ranges

namespace Apisan
namespace Ento

/-! ### Symbols and states -/

/-- `BinaryOperatorKind`. -/
inductive Opcode
  | ptrMemD | ptrMemI
  | mul | div | rem
  | add | sub
  | shl | shr
  | lt | gt | le | ge
  | eq | ne
  | and
  | xor
  | or
  | lAnd
  | lOr
  | assign | mulAssign | divAssign | remAssign | addAssign | subAssign | shlAssign | shrAssign
  | andAssign | xorAssign | orAssign
  | comma
  deriving DecidableEq, Repr

namespace Opcode

/-- `BinaryOperator::getOpcodeStr`. -/
def getOpcodeStr : Opcode → String
  | ptrMemD => ".*"
  | ptrMemI => "->*"
  | mul => "*"
  | div => "/"
  | rem => "%"
  | add => "+"
  | sub => "-"
  | shl => "<<"
  | shr => ">>"
  | lt => "<"
  | gt => ">"
  | le => "<="
  | ge => ">="
  | eq => "=="
  | ne => "!="
  | and => "&"
  | xor => "^"
  | or => "|"
  | lAnd => "&&"
  | lOr => "||"
  | assign => "="
  | mulAssign => "*="
  | divAssign => "/="
  | remAssign => "%="
  | addAssign => "+="
  | subAssign => "-="
  | shlAssign => "<<="
  | shrAssign => ">>="
  | andAssign => "&="
  | xorAssign => "^="
  | orAssign => "|="
  | comma => ","

def isComparisonOp : Opcode → Bool
  | lt | gt | le | ge | eq | ne => true
  | _ => false

/-- `negateComparisonOp`, on the comparisons. -/
def negateComparisonOp : Opcode → Opcode
  | lt => ge
  | gt => le
  | le => gt
  | ge => lt
  | eq => ne
  | ne => eq
  | op => op

/-- `reverseComparisonOp`, on the comparisons. -/
def reverseComparisonOp : Opcode → Opcode
  | lt => gt
  | gt => lt
  | le => ge
  | ge => le
  | op => op

end Opcode

/-- A symbol. For a `SymbolData` the text is what its `dumpToStream` writes. -/
inductive SymExpr
  | data (id : ℕ) (type : QualType) (text : String)
  | symInt (lhs : SymExpr) (op : Opcode) (rhs : APSInt) (type : QualType)
  | intSym (lhs : APSInt) (op : Opcode) (rhs : SymExpr) (type : QualType)
  | symSym (lhs : SymExpr) (op : Opcode) (rhs : SymExpr) (type : QualType)
  | cast (operand : SymExpr) (fromTy toTy : QualType)
  deriving DecidableEq, Repr

namespace SymExpr

def getType : SymExpr → QualType
  | data _ type _ => type
  | symInt _ _ _ type => type
  | intSym _ _ _ type => type
  | symSym _ _ _ type => type
  | cast _ _ toTy => toTy

/-- `dumpToStream` with `AS_FORMAT`. -/
def dumpToStream : SymExpr → String
  | data _ _ text => text
  | symInt lhs op rhs _ => dumpToStream lhs ++ " " ++ op.getOpcodeStr ++ " " ++ toString rhs.getZExtValue
  | intSym lhs op rhs _ => dumpToStream rhs ++ " " ++ op.getOpcodeStr ++ " " ++ toString lhs.getZExtValue
  | symSym lhs op rhs _ => dumpToStream lhs ++ op.getOpcodeStr ++ dumpToStream rhs
  | cast operand _ _ => dumpToStream operand

end SymExpr

/-- What the extractor and the constraint manager keep in a state: the range
sets (`ConstraintRange`), none of them empty, and the events, newest first. -/
structure ProgramState where
  constraintRange : SymExpr → Option RangeSet
  eventList : List SymExecEvent
  range_ne_nil : ∀ s, constraintRange s ≠ some []

namespace ProgramState

/-- `set<ConstraintRange>(sym, ranges)`. -/
def setRange (state : ProgramState) (sym : SymExpr) (ranges : RangeSet) (h : ranges ≠ []) : ProgramState where
  constraintRange := Function.update state.constraintRange sym (some ranges)
  eventList := state.eventList
  range_ne_nil s := by
    by_cases hs : s = sym
    · rw [hs, Function.update_self]
      exact fun he => h (Option.some.inj he)
    · rw [Function.update_of_ne hs]
      exact state.range_ne_nil s

/-- `add<EventList>(e)`. -/
def addEvent (state : ProgramState) (e : SymExecEvent) : ProgramState :=
  { state with eventList := e :: state.eventList }

end ProgramState

/-! ### The range constraint manager -/

/-- `GetRange`: the ranges recorded, or all values of the symbol's type;
references are not zero. -/
def getRange (state : ProgramState) (sym : SymExpr) : RangeSet :=
  match state.constraintRange sym with
  | some ranges => ranges
  | none =>
    let type := sym.getType.getAPSIntType
    let result : RangeSet := [⟨type.getMinValue, type.getMaxValue⟩]
    if sym.getType.isReferenceType then result.intersect type.getZeroValue.succ type.getZeroValue.pred
    else result

/-- Keep the part of the symbol's ranges within the bounds; none is left in an
infeasible state. -/
def assumeWithin (state : ProgramState) (sym : SymExpr) (lower upper : APSInt) : Option ProgramState :=
  let new := (getRange state sym).intersect lower upper
  if h : new = [] then none else some (state.setRange sym new h)

def assumeSymNE (state : ProgramState) (sym : SymExpr) (int adjustment : APSInt) : Option ProgramState :=
  if adjustment.type.testInRange int ≠ .within then some state
  else
    let lower := (adjustment.type.convert int).sub adjustment
    assumeWithin state sym lower.succ lower.pred

def assumeSymEQ (state : ProgramState) (sym : SymExpr) (int adjustment : APSInt) : Option ProgramState :=
  if adjustment.type.testInRange int ≠ .within then none
  else
    let adjInt := (adjustment.type.convert int).sub adjustment
    assumeWithin state sym adjInt adjInt

/-- An inequality: what comes of a constant below or above the type, the
constant that decides it, what comes of that one, and the bounds of a symbol
that compares with another constant. -/
def assumeInequality (state : ProgramState) (sym : SymExpr) (int adjustment : APSInt)
    (below above : Option ProgramState) (extreme : APSInt) (atExtreme : Option ProgramState)
    (bounds : APSInt → APSInt × APSInt) : Option ProgramState :=
  match adjustment.type.testInRange int with
  | .below => below
  | .above => above
  | .within =>
    let comparisonVal := adjustment.type.convert int
    if comparisonVal = extreme then atExtreme
    else assumeWithin state sym (bounds comparisonVal).1 (bounds comparisonVal).2

def assumeSymLT (state : ProgramState) (sym : SymExpr) (int adjustment : APSInt) : Option ProgramState :=
  let min := adjustment.type.getMinValue
  assumeInequality state sym int adjustment none (some state) min none
    fun val => (min.sub adjustment, (val.sub adjustment).pred)

def assumeSymGT (state : ProgramState) (sym : SymExpr) (int adjustment : APSInt) : Option ProgramState :=
  let max := adjustment.type.getMaxValue
  assumeInequality state sym int adjustment (some state) none max none
    fun val => ((val.sub adjustment).succ, max.sub adjustment)

def assumeSymGE (state : ProgramState) (sym : SymExpr) (int adjustment : APSInt) : Option ProgramState :=
  let max := adjustment.type.getMaxValue
  assumeInequality state sym int adjustment (some state) none adjustment.type.getMinValue (some state)
    fun val => (val.sub adjustment, max.sub adjustment)

def assumeSymLE (state : ProgramState) (sym : SymExpr) (int adjustment : APSInt) : Option ProgramState :=
  let min := adjustment.type.getMinValue
  assumeInequality state sym int adjustment none (some state) adjustment.type.getMaxValue (some state)
    fun val => (min.sub adjustment, val.sub adjustment)

/-! ### The simple constraint manager -/

/-- The conditions that are no locations. -/
inductive NonLoc
  | symbolVal (sym : SymExpr)
  | concreteInt (value : APSInt)
  deriving DecidableEq, Repr

/-- `SVal::getAsSymbol`. -/
def NonLoc.getAsSymbol : NonLoc → Option SymExpr
  | symbolVal sym => some sym
  | concreteInt _ => none

/-- `canReasonAbout`, of a symbol. -/
def canReasonAbout : SymExpr → Bool
  | .data _ _ _ => true
  | .symInt _ op _ _ =>
    match op with
    | .and | .or | .xor | .mul | .div | .rem | .shl | .shr => false
    | _ => true
  | .symSym lhs op _ _ => op.isComparisonOp && lhs.getType.isLocType
  | _ => false

def assumeAuxForSymbol (state : ProgramState) (sym : SymExpr) (assumption : Bool) : Option ProgramState :=
  if !sym.getType.isIntegralOrEnumerationType then some state
  else
    let zero := sym.getType.getAPSIntType.getZeroValue
    if assumption then assumeSymNE state sym zero zero else assumeSymEQ state sym zero zero

/-- `computeAdjustment`, of a symbol and the zero of its type. -/
def computeAdjustment (sym : SymExpr) (adjustment : APSInt) : SymExpr × APSInt :=
  match sym with
  | .symInt lhs .add rhs _ => (lhs, adjustment.type.convert rhs)
  | .symInt lhs .sub rhs _ => (lhs, (adjustment.type.convert rhs).neg)
  | _ => (sym, adjustment)

def assumeSymRel (state : ProgramState) (lhs : SymExpr) (op : Opcode) (int : APSInt) : Option ProgramState :=
  let wraparoundType := lhs.getType.getAPSIntType
  let (sym, adjustment) := computeAdjustment lhs wraparoundType.getZeroValue
  let comparisonType := wraparoundType.max int.type
  let convertedInt := comparisonType.convert int
  let adjustment :=
    -- unsigned comparisons are preferred
    if comparisonType.bitWidth = wraparoundType.bitWidth ∧ comparisonType.isUnsigned ∧
      ¬ wraparoundType.isUnsigned then { adjustment with isUnsigned := true }
    else adjustment
  match op with
  | .eq => assumeSymEQ state sym convertedInt adjustment
  | .ne => assumeSymNE state sym convertedInt adjustment
  | .gt => assumeSymGT state sym convertedInt adjustment
  | .ge => assumeSymGE state sym convertedInt adjustment
  | .lt => assumeSymLT state sym convertedInt adjustment
  | .le => assumeSymLE state sym convertedInt adjustment
  | _ => none

/-- `assumeAux`; `ptrDiffTy` is the type of a difference of pointers. -/
def assumeAux (ptrDiffTy : QualType) (state : ProgramState) (cond : NonLoc) (assumption : Bool) :
    Option ProgramState :=
  match cond with
  | .symbolVal sym =>
    if !canReasonAbout sym then assumeAuxForSymbol state sym assumption
    else
      match sym with
      | .symInt lhs op rhs _ =>
        if op.isComparisonOp then
          assumeSymRel state lhs (if assumption then op else op.negateComparisonOp) rhs
        else assumeAuxForSymbol state sym assumption
      | .symSym lhs op rhs _ =>
        let op := op.reverseComparisonOp
        assumeSymRel state (.symSym rhs .sub lhs ptrDiffTy) (if assumption then op else op.negateComparisonOp)
          ptrDiffTy.getAPSIntType.getZeroValue
      | _ => assumeAuxForSymbol state sym assumption
  | .concreteInt value => if decide (value.bits ≠ 0) = assumption then some state else none

/-! ### The extractor -/

/-- `SymExecExtractor::evalAssume`. -/
def evalAssume (state : ProgramState) (cond : NonLoc) (_assumption : Bool) : ProgramState :=
  match cond.getAsSymbol with
  | some (.symInt lhs _ _ _) =>
    let serialized := getCond lhs.dumpToStream ((state.constraintRange lhs).map RangeSet.values)
    if serialized.isEmpty then state else state.addEvent (.ofCond .assume serialized)
  | _ => state

/-- `SimpleConstraintManager::assume`, whose client is the extractor. -/
def assume (ptrDiffTy : QualType) (state : ProgramState) (cond : NonLoc) (assumption : Bool) :
    Option ProgramState :=
  (assumeAux ptrDiffTy state cond assumption).map fun state => evalAssume state cond assumption

/-! ### The symbol whose ranges change -/

/-- The symbol is a symbol plus or minus a constant. -/
def SymExpr.addsConstant : SymExpr → Bool
  | symInt _ .add _ _ | symInt _ .sub _ _ => true
  | _ => false

/-- The symbol under which the ranges of a condition are filed. -/
def target : SymExpr → SymExpr
  | .symInt lhs op rhs type =>
    if op.isComparisonOp then (computeAdjustment lhs lhs.getType.getAPSIntType.getZeroValue).1
    else .symInt lhs op rhs type
  | sym => sym

/-- A feasible assumption about a symbol leaves the state as it was, or records
ranges of the symbol. -/
def Narrows (state : ProgramState) (sym : SymExpr) (state' : ProgramState) : Prop :=
  state' = state ∨ ∃ ranges h, state' = state.setRange sym ranges h

variable {state state' : ProgramState} {sym : SymExpr} {int adjustment : APSInt}

theorem assumeWithin_narrows {lower upper : APSInt} (h : assumeWithin state sym lower upper = some state') :
    Narrows state sym state' := by
  unfold assumeWithin at h
  simp only at h
  split_ifs at h with hnew
  exact .inr ⟨_, hnew, (Option.some.inj h).symm⟩

theorem assumeInequality_narrows {below above atExtreme : Option ProgramState} {extreme : APSInt}
    {bounds : APSInt → APSInt × APSInt} (hbelow : ∀ s ∈ below, s = state) (habove : ∀ s ∈ above, s = state)
    (hextreme : ∀ s ∈ atExtreme, s = state)
    (h : assumeInequality state sym int adjustment below above extreme atExtreme bounds = some state') :
    Narrows state sym state' := by
  unfold assumeInequality at h
  split at h
  · exact .inl (hbelow _ h)
  · exact .inl (habove _ h)
  · simp only at h
    split_ifs at h
    · exact .inl (hextreme _ h)
    · exact assumeWithin_narrows h

theorem assumeSymNE_narrows (h : assumeSymNE state sym int adjustment = some state') :
    Narrows state sym state' := by
  unfold assumeSymNE at h
  split_ifs at h
  · exact .inl (Option.some.inj h).symm
  · exact assumeWithin_narrows h

theorem assumeSymEQ_narrows (h : assumeSymEQ state sym int adjustment = some state') :
    Narrows state sym state' := by
  unfold assumeSymEQ at h
  split_ifs at h
  exact assumeWithin_narrows h

theorem assumeSymRel_narrows {lhs : SymExpr} {op : Opcode} (h : assumeSymRel state lhs op int = some state') :
    Narrows state (computeAdjustment lhs lhs.getType.getAPSIntType.getZeroValue).1 state' := by
  unfold assumeSymRel at h
  simp only at h
  have hnone : ∀ s ∈ (none : Option ProgramState), s = state := fun s hs => by cases hs
  have hsome : ∀ s ∈ some state, s = state := fun s hs => (Option.some.inj hs).symm
  split at h
  · exact assumeSymEQ_narrows h
  · exact assumeSymNE_narrows h
  · unfold assumeSymGT at h
    exact assumeInequality_narrows hsome hnone hnone h
  · unfold assumeSymGE at h
    exact assumeInequality_narrows hsome hnone hsome h
  · unfold assumeSymLT at h
    exact assumeInequality_narrows hnone hsome hnone h
  · unfold assumeSymLE at h
    exact assumeInequality_narrows hnone hsome hsome h
  · cases h

theorem assumeAuxForSymbol_narrows {assumption : Bool}
    (h : assumeAuxForSymbol state sym assumption = some state') : Narrows state sym state' := by
  unfold assumeAuxForSymbol at h
  simp only at h
  split_ifs at h
  · exact .inl (Option.some.inj h).symm
  · exact assumeSymNE_narrows h
  · exact assumeSymEQ_narrows h

theorem canReasonAbout_comparison {lhs : SymExpr} {op : Opcode} {rhs : APSInt} {type : QualType}
    (h : op.isComparisonOp = true) : canReasonAbout (.symInt lhs op rhs type) = true := by
  cases op <;> first | rfl | cases h

/-- **What an assumption changes**: the ranges of the condition's target. -/
theorem assumeAux_narrows {ptrDiffTy : QualType} {lhs : SymExpr} {op : Opcode} {rhs : APSInt} {type : QualType}
    {assumption : Bool}
    (h : assumeAux ptrDiffTy state (.symbolVal (.symInt lhs op rhs type)) assumption = some state') :
    Narrows state (target (.symInt lhs op rhs type)) state' := by
  by_cases hop : op.isComparisonOp = true
  · simp only [assumeAux, canReasonAbout_comparison hop, hop, Bool.not_true, Bool.false_eq_true, if_false,
      if_true] at h
    rw [target, if_pos hop]
    exact assumeSymRel_narrows h
  · rw [target, if_neg hop]
    simp only [assumeAux, hop, Bool.false_eq_true, if_false, ite_self] at h
    exact assumeAuxForSymbol_narrows h

theorem computeAdjustment_of_addsConstant (h : sym.addsConstant = true) (adjustment : APSInt) :
    ∃ lhs op rhs type, sym = .symInt lhs op rhs type ∧ (computeAdjustment sym adjustment).1 = lhs := by
  unfold SymExpr.addsConstant at h
  split at h
  · exact ⟨_, _, _, _, rfl, rfl⟩
  · exact ⟨_, _, _, _, rfl, rfl⟩
  · cases h

theorem computeAdjustment_of_not_addsConstant (h : sym.addsConstant = false) (adjustment : APSInt) :
    (computeAdjustment sym adjustment).1 = sym := by
  unfold computeAdjustment
  split
  · cases h
  · cases h
  · rfl

/-! ### What is logged -/

/-- The text of a symbol and its ranges. -/
def condText (sym : SymExpr) (ranges : RangeSet) : String :=
  sym.dumpToStream ++ ("@=" ++ Apisan.RangeSet.print ranges.values)

/-- One more event is logged, of the ranges that the symbol has now. -/
def Logged (state : ProgramState) (sym : SymExpr) (state' : ProgramState) : Prop :=
  ∃ ranges, state'.constraintRange sym = some ranges ∧
    state'.eventList = .ofCond .assume (condText sym ranges) :: state.eventList

theorem getCond_values {ranges : RangeSet} (h : ranges ≠ []) :
    getCond sym.dumpToStream (some ranges.values) = condText sym ranges := by
  obtain ⟨r, ranges, rfl⟩ := List.exists_cons_of_ne_nil h
  exact getCond_cons _ _ _

theorem condText_isEmpty (ranges : RangeSet) : (condText sym ranges).isEmpty = false := by
  simp [condText]

/-- The extractor logs the ranges of the left side, if there are any. -/
theorem evalAssume_symInt (lhs : SymExpr) (op : Opcode) (rhs : APSInt) (type : QualType) (assumption : Bool) :
    evalAssume state (.symbolVal (.symInt lhs op rhs type)) assumption =
      match state.constraintRange lhs with
      | some ranges => state.addEvent (.ofCond .assume (condText lhs ranges))
      | none => state := by
  simp only [evalAssume, NonLoc.getAsSymbol]
  cases hranges : state.constraintRange lhs with
  | none => rfl
  | some ranges =>
    have hne : ranges ≠ [] := fun h => state.range_ne_nil lhs (by rw [hranges, h])
    simp only [Option.map_some, getCond_values hne, condText_isEmpty, Bool.false_eq_true, if_false]

/-- Where a text goes on, a blank is not the constraint operator. -/
theorem condText_ne {sym' : SymExpr} {rest : String}
    (h : sym'.dumpToStream = sym.dumpToStream ++ (" " ++ rest)) (ranges ranges' : RangeSet) :
    condText sym ranges ≠ condText sym' ranges' := by
  intro he
  have hlist := congrArg String.toList he
  simp only [condText, h, String.toList_append, List.append_assoc] at hlist
  have hrest := List.append_cancel_left hlist
  cases hrest

theorem dump_symInt (lhs : SymExpr) (op : Opcode) (rhs : APSInt) (type : QualType) :
    (SymExpr.symInt lhs op rhs type).dumpToStream =
      lhs.dumpToStream ++ (" " ++ (op.getOpcodeStr ++ " " ++ toString rhs.getZExtValue)) := by
  simp only [SymExpr.dumpToStream, String.append_assoc]

theorem evalAssume_range (lhs : SymExpr) (op : Opcode) (rhs : APSInt) (type : QualType) (assumption : Bool) :
    (evalAssume state (.symbolVal (.symInt lhs op rhs type)) assumption).constraintRange =
      state.constraintRange := by
  rw [evalAssume_symInt]
  cases state.constraintRange lhs <;> rfl

/-- Where another symbol's text goes on after the left side's, that symbol's
ranges are not logged. -/
theorem not_logged {lhs : SymExpr} {op : Opcode} {rhs : APSInt} {type : QualType} {assumption : Bool}
    (htext : ∀ ranges ranges', condText sym ranges ≠ condText lhs ranges')
    (hevents : state'.eventList = state.eventList) :
    ¬ Logged state sym (evalAssume state' (.symbolVal (.symInt lhs op rhs type)) assumption) := by
  rintro ⟨ranges, -, hlist⟩
  rw [evalAssume_symInt] at hlist
  cases hranges : state'.constraintRange lhs with
  | none =>
    rw [hranges] at hlist
    exact List.cons_ne_self _ _ (hlist.symm.trans hevents)
  | some ranges' =>
    rw [hranges] at hlist
    have hhead := (List.cons.inj hlist).1
    exact htext ranges ranges' (congrArg SymExecEvent.sv hhead).symm

/-- **When assumed ranges are logged.** Of the assumptions that change the
ranges of a symbol, those of a comparison whose left side adds and subtracts no
constant log them, with the symbol. -/
theorem logs_iff {ptrDiffTy : QualType} {state state' : ProgramState} {lhs : SymExpr} {op : Opcode}
    {rhs : APSInt} {type : QualType} {assumption : Bool} {sym : SymExpr}
    (h : assume ptrDiffTy state (.symbolVal (.symInt lhs op rhs type)) assumption = some state')
    (hchange : state'.constraintRange sym ≠ state.constraintRange sym) :
    Logged state sym state' ↔ op.isComparisonOp = true ∧ lhs.addsConstant = false := by
  obtain ⟨mid, hmid, rfl⟩ := Option.map_eq_some_iff.mp h
  rw [evalAssume_range] at hchange
  obtain rfl | ⟨ranges, hne, rfl⟩ := assumeAux_narrows hmid
  · exact absurd rfl hchange
  obtain rfl : sym = target (.symInt lhs op rhs type) := by
    by_contra hsym
    exact hchange (Function.update_of_ne hsym _ _)
  by_cases hop : op.isComparisonOp = true
  · by_cases hadds : lhs.addsConstant = true
    · -- the ranges are filed under the operand of the sum
      obtain ⟨l, o, c, t, rfl, hl⟩ :=
        computeAdjustment_of_addsConstant hadds lhs.getType.getAPSIntType.getZeroValue
      have htarget : target (.symInt (.symInt l o c t) op rhs type) = l := by rw [target, if_pos hop, hl]
      rw [htarget]
      refine iff_of_false (not_logged (condText_ne (dump_symInt l o c t)) rfl) fun hcond => ?_
      rw [hadds] at hcond
      exact Bool.noConfusion hcond.2
    · have hadds' := eq_false_of_ne_true hadds
      have htarget : target (.symInt lhs op rhs type) = lhs := by
        rw [target, if_pos hop, computeAdjustment_of_not_addsConstant hadds']
      rw [htarget]
      refine ⟨fun _ => ⟨hop, hadds'⟩, fun _ => ⟨ranges, ?_, ?_⟩⟩
      · rw [evalAssume_range]
        exact Function.update_self _ _ _
      · have hrange : (state.setRange lhs ranges hne).constraintRange lhs = some ranges :=
          Function.update_self _ _ _
        rw [evalAssume_symInt, hrange]
        rfl
  · -- the ranges are filed under the condition
    have htarget : target (.symInt lhs op rhs type) = .symInt lhs op rhs type := by rw [target, if_neg hop]
    rw [htarget]
    have htext : ∀ ranges ranges',
        condText (.symInt lhs op rhs type) ranges ≠ condText lhs ranges' := fun _ _ =>
      (condText_ne (dump_symInt lhs op rhs type) _ _).symm
    exact iff_of_false (not_logged htext rfl) fun hcond => hop hcond.1

/-! ### Two conditions on an integer -/

/-- A state without ranges and events. -/
def ProgramState.initial : ProgramState := ⟨fun _ => none, [], fun _ h => by cases h⟩

/-- `int`. -/
def intType : QualType := .integer 32 false

/-- The constant of type `int`. -/
def intValue (n : ℤ) : APSInt := ⟨32, false, BitVec.ofInt 32 n⟩

/-- The value of an `int` parameter `x`. -/
def paramX : SymExpr := .data 0 intType "x"

/-- What the state after an assumption has for a symbol, and its events. -/
def assumed (cond sym : SymExpr) (assumption : Bool) : Option (Option RangeSet × List SymExecEvent) :=
  (assume (.integer 64 false) .initial (.symbolVal cond) assumption).map fun state =>
    (state.constraintRange sym, state.eventList)

theorem assumed_eq_some {cond sym : SymExpr} {assumption : Bool} {r : Option RangeSet × List SymExecEvent}
    (h : assumed cond sym assumption = some r) : ∃ state, r = (state.constraintRange sym, state.eventList) ∧
      assume (.integer 64 false) .initial (.symbolVal cond) assumption = some state := by
  obtain ⟨state, hstate, hr⟩ := Option.map_eq_some_iff.mp h
  exact ⟨state, hr.symm, hstate⟩

/-- `x == 0`. -/
theorem logs_iff_zero : ∃ state, assume (.integer 64 false) .initial
      (.symbolVal (.symInt paramX .eq (intValue 0) intType)) true = some state ∧
    (Logged .initial paramX state ↔ Opcode.eq.isComparisonOp = true ∧ paramX.addsConstant = false) := by
  have hview : assumed (.symInt paramX .eq (intValue 0) intType) paramX true =
      some (some [⟨intValue 0, intValue 0⟩], [.ofCond .assume "x@={ [0, 0] }"]) := by decide +kernel
  obtain ⟨state, hr, hstate⟩ := assumed_eq_some hview
  refine ⟨state, hstate, logs_iff hstate ?_⟩
  rw [← (Prod.mk.inj hr).1]
  simp [ProgramState.initial]

/-- `x & 4` is assumed, and no event is logged. -/
theorem masked_not_logged : ¬ ∀ (ptrDiffTy : QualType) (state state' : ProgramState) (lhs : SymExpr)
    (op : Opcode) (rhs : APSInt) (type : QualType) (assumption : Bool) (sym : SymExpr),
    assume ptrDiffTy state (.symbolVal (.symInt lhs op rhs type)) assumption = some state' →
      state'.constraintRange sym ≠ state.constraintRange sym → Logged state sym state' := by
  intro hclaim
  have hview : assumed (.symInt paramX .and (intValue 4) intType) (.symInt paramX .and (intValue 4) intType) true =
      some (some [⟨intValue (-2147483648), intValue (-1)⟩, ⟨intValue 1, intValue 2147483647⟩], []) := by
    decide +kernel
  obtain ⟨state, hr, hstate⟩ := assumed_eq_some hview
  obtain ⟨hrange, hevents⟩ := Prod.mk.inj hr
  have hchange : state.constraintRange (.symInt paramX .and (intValue 4) intType) ≠
      ProgramState.initial.constraintRange (.symInt paramX .and (intValue 4) intType) := by
    rw [← hrange]
    simp [ProgramState.initial]
  obtain ⟨_, -, hlist⟩ := hclaim _ _ _ _ _ _ _ _ _ hstate hchange
  rw [← hevents] at hlist
  cases hlist

end Ento
end Apisan
