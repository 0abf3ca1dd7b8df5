/-
# Printing conjured symbols

A conjured symbol is printed as its statement, by an `AsStmtPrinter` under the
state that the symbol keeps, which looks up values for the statement and its
parts there and prints these, with the symbols in them, in turn. A printer is a
function of its fuel here, and so are the other functions that take part.

A symbol is told apart from others by its profile, and a state is no part of
it, so the symbol keeps the one it was created with. What that state mentions
is older than the symbol (`SymbolManager.Reachable.older`). A print goes either
to a part of the same statement or value, or to an older symbol, so it returns
(`SymbolManager.dumpToStream_returns`).

Key definitions: `Stmt`, `SVal`, `MemRegion`, `SymbolManager.getSymbol`,
`SymbolManager.dumpToStream`, `SymbolManager.visit`,
`SymbolManager.Reachable`.
Key theorems: `SymbolManager.Reachable.older`,
`SymbolManager.dumpToStream_returns`.
-/
import Apisan.Lib.Fuel

namespace Apisan
namespace Ento
namespace Dumping

/-! ### Statements and values -/

mutual

/-- A statement, as its `Visit` function writes it. `call` has the name of its
direct callee, if any; `expr` is an expression of another class, and `stmt` no
expression, or one that is never evaluated (`sizeof`). An expression is looked
up by its address. -/
inductive Stmt
  | call (address : ℕ) (directCallee : Option String) (args : Args)
  | expr (address : ℕ) (parts : Parts)
  | stmt (parts : Parts)
  deriving DecidableEq, Repr

/-- The arguments of a call. -/
inductive Args
  | nil
  | defaulted (rest : Args)
  | cons (arg : Stmt) (rest : Args)
  deriving DecidableEq, Repr

/-- What a `Visit` function writes: texts, and other statements. -/
inductive Parts
  | nil
  | text (s : String) (rest : Parts)
  | visit (s : Stmt) (rest : Parts)
  deriving DecidableEq, Repr

end

mutual

/-- A value. A symbol is its position in the order of creation. -/
inductive SVal
  | undefined
  | unknown
  | concreteInt (text : String)
  | gotoLabel (name : String)
  | symbolVal (sym : ℕ)
  | locAsInteger (loc : SVal)
  | compoundVal (vals : SVals)
  | lazyCompoundVal (region : MemRegion)
  | memRegionVal (region : MemRegion)
  deriving DecidableEq, Repr

inductive SVals
  | nil
  | cons (val : SVal) (rest : SVals)
  deriving DecidableEq, Repr

/-- A region. `named` is one whose text has no other region or value in it; the
index of an element is not written if it is zero or the element has no size. -/
inductive MemRegion
  | named (text : String)
  | symbolic (sym : ℕ)
  | element (superRegion : MemRegion) (indexWritten : Bool) (index : SVal)
  | field (superRegion : MemRegion) (name : String)
  | baseObject (superRegion : MemRegion) (name : String)
  | ivar (superRegion : MemRegion) (name : String)
  | staticGlobals (code : MemRegion)
  | blockData (code : MemRegion) (vars : Captured)
  deriving DecidableEq, Repr

/-- The captured and original regions of a block's variables. -/
inductive Captured
  | nil
  | cons (captured original : MemRegion) (rest : Captured)
  deriving DecidableEq, Repr

end

/-- What a state has for an expression in a location context. -/
structure ProgramState where
  getSVal : ℕ → ℕ → SVal

/-! ### Symbols -/

/-- `Profile` of a symbol. Types and tags are what they are told apart by. -/
inductive Profile
  | regionValue (region : MemRegion)
  | conjured (stmt : Stmt) (lctx : ℕ) (type : String) (count tag : ℕ)
  | derived (parent : ℕ) (region : MemRegion)
  | extent (region : MemRegion)
  | metadata (region : MemRegion) (stmt : ℕ) (type : String) (count tag : ℕ)
  | castSymbol (operand : ℕ) (fromTy toTy : String)
  | symInt (lhs : ℕ) (opcode : String) (rhs : ℕ) (type : String)
  | intSym (lhs : ℕ) (opcode : String) (rhs : ℕ) (type : String)
  | symSym (lhs : ℕ) (opcode : String) (rhs : ℕ) (type : String)
  deriving DecidableEq, Repr

namespace Profile

/-- `isa<SymbolData>`: these symbols have a number. -/
def isData : Profile → Bool
  | regionValue _ | conjured .. | derived .. | extent _ | metadata .. => true
  | _ => false

def isConjured : Profile → Bool
  | conjured .. => true
  | _ => false

end Profile

/-- A symbol; a conjured one may keep a state. -/
structure SymExpr where
  symbolID : ℕ
  profile : Profile
  ps : Option ProgramState

/-- The symbols in the order of their creation, and the number of the next
one. -/
structure SymbolManager where
  dataSet : List SymExpr
  symbolCounter : ℕ

namespace SymbolManager

/-- `FindNodeOrInsertPos`. -/
def find (m : SymbolManager) (k : Profile) : Option ℕ :=
  m.dataSet.findIdx? fun sd => decide (sd.profile = k)

/-- `conjureSymbol`, and the functions for the other symbols, which have no
state. -/
def getSymbol (m : SymbolManager) (k : Profile) (ps : Option ProgramState) : ℕ × SymbolManager :=
  match m.find k with
  | some i => (i, m)
  | none => (m.dataSet.length,
      ⟨m.dataSet ++ [⟨m.symbolCounter, k, ps⟩], m.symbolCounter + if k.isData then 1 else 0⟩)

/-! ### The print -/

mutual

/-- `dumpToStream`, of the symbol at a position. -/
def dumpToStream (m : SymbolManager) : ℕ → ℕ → Option String
  | 0, _ => none
  | n + 1, i =>
    match m.dataSet[i]? with
    | none => none
    | some sd =>
      match sd.profile with
      | .regionValue r => m.dumpRegion n r
      | .conjured stmt lctx type _ _ =>
        match sd.ps with
        | some ps => m.visit n ps lctx stmt
        | none => some ("conj_$" ++ toString sd.symbolID ++ "\x7b" ++ type ++ "\x7d")
      | .derived parent r =>
        if (m.dataSet[parent]?).any (·.profile.isConjured) then m.dumpRegion n r
        else
          (m.dumpToStream n parent).bind fun parent =>
          (m.dumpRegion n r).bind fun region =>
          some ("derived_$" ++ toString sd.symbolID ++ "\x7b" ++ parent ++ "," ++ region ++ "\x7d")
      | .extent r =>
        (m.dumpRegion n r).map fun region => "extent_$" ++ toString sd.symbolID ++ "\x7b" ++ region ++ "\x7d"
      | .metadata r _ type _ _ =>
        (m.dumpRegion n r).map fun region =>
          "meta_$" ++ toString sd.symbolID ++ "\x7b" ++ region ++ "," ++ type ++ "\x7d"
      | .castSymbol operand _ _ => m.dumpToStream n operand
      | .symInt lhs opcode rhs _ =>
        (m.dumpToStream n lhs).map fun lhs => lhs ++ " " ++ opcode ++ " " ++ toString rhs
      -- the operands of both kinds stand in one order
      | .intSym lhs opcode rhs _ =>
        (m.dumpToStream n rhs).map fun rhs => rhs ++ " " ++ opcode ++ " " ++ toString lhs
      | .symSym lhs opcode rhs _ =>
        (m.dumpToStream n lhs).bind fun lhs =>
        (m.dumpToStream n rhs).bind fun rhs =>
        some (lhs ++ opcode ++ rhs)
termination_by structural n => n

/-- `MemRegion::dumpToStream`. -/
def dumpRegion (m : SymbolManager) : ℕ → MemRegion → Option String
  | 0, _ => none
  | n + 1, r =>
    match r with
    | .named text => some text
    | .symbolic sym => m.dumpToStream n sym
    | .element superRegion false _ => m.dumpRegion n superRegion
    | .element superRegion true index =>
      (m.dumpRegion n superRegion).bind fun region =>
      (m.dumpSVal n index).bind fun index =>
      some (region ++ "[" ++ index ++ "]")
    | .field superRegion name => (m.dumpRegion n superRegion).map fun region => region ++ "->" ++ name
    | .baseObject superRegion name =>
      (m.dumpRegion n superRegion).map fun region => "base\x7b" ++ region ++ "," ++ name ++ "\x7d"
    | .ivar superRegion name =>
      (m.dumpRegion n superRegion).map fun region => "ivar\x7b" ++ region ++ "," ++ name ++ "\x7d"
    | .staticGlobals code =>
      (m.dumpRegion n code).map fun region => "StaticGlobalsMemSpace\x7b" ++ region ++ "\x7d"
    | .blockData code vars =>
      (m.dumpRegion n code).bind fun code =>
      (m.dumpCaptured n vars).bind fun vars =>
      some ("block_data\x7b" ++ code ++ "; " ++ vars ++ "\x7d")
termination_by structural n => n

/-- The loop of `BlockDataRegion::dumpToStream`. -/
def dumpCaptured (m : SymbolManager) : ℕ → Captured → Option String
  | 0, _ => none
  | _ + 1, .nil => some ""
  | n + 1, .cons captured original rest =>
    (m.dumpRegion n captured).bind fun captured =>
    (m.dumpRegion n original).bind fun original =>
    (m.dumpCaptured n rest).bind fun rest =>
    some ("(" ++ captured ++ "," ++ original ++ ") " ++ rest)
termination_by structural n => n

/-- `SVal::dumpToStream`. -/
def dumpSVal (m : SymbolManager) : ℕ → SVal → Option String
  | 0, _ => none
  | n + 1, v =>
    match v with
    | .undefined => some "Undefined"
    | .unknown => some "Unknown"
    | .concreteInt text => some text
    | .gotoLabel name => some ("&&" ++ name)
    | .symbolVal sym => m.dumpToStream n sym
    | .locAsInteger loc => m.dumpSVal n loc
    | .compoundVal vals => (m.dumpSVals n true vals).map fun vals => "compoundVal\x7b" ++ vals ++ "\x7d"
    | .lazyCompoundVal r => m.dumpRegion n r
    | .memRegionVal r => m.dumpRegion n r
termination_by structural n => n

/-- The loop of `NonLoc::dumpToStream` over the parts of a compound value. -/
def dumpSVals (m : SymbolManager) : ℕ → Bool → SVals → Option String
  | 0, _, _ => none
  | _ + 1, _, .nil => some ""
  | n + 1, first, .cons val rest =>
    (m.dumpSVal n val).bind fun val =>
    (m.dumpSVals n false rest).bind fun rest =>
    some ((if first then " " else ", ") ++ val ++ rest)
termination_by structural n => n

/-- `AsStmtPrinter::tryToEvalSymExprOrSVal`, where no l-value is wanted: what it
writes, if it does. -/
def tryToEvalSymExprOrSVal (m : SymbolManager) : ℕ → ProgramState → ℕ → ℕ → Option (Option String)
  | 0, _, _, _ => none
  | n + 1, ps, lctx, address =>
    match ps.getSVal address lctx with
    | .undefined | .unknown => some none
    | .memRegionVal _ => some none
    | v => (m.dumpSVal n v).map some
termination_by structural n => n

/-- `AsStmtPrinter::Visit`, under a state and in a location context. -/
def visit (m : SymbolManager) : ℕ → ProgramState → ℕ → Stmt → Option String
  | 0, _, _, _ => none
  | n + 1, ps, lctx, .call address directCallee args =>
    (m.tryToEvalSymExprOrSVal n ps lctx address).bind fun
    | some text => some text
    | none =>
      match directCallee with
      | some name => (m.printCallArgs n ps lctx true args).map fun args => name ++ "(" ++ args ++ ")"
      | none => some ""
  | n + 1, ps, lctx, .expr address parts =>
    (m.tryToEvalSymExprOrSVal n ps lctx address).bind fun
    | some text => some text
    | none => m.printParts n ps lctx parts
  | n + 1, ps, lctx, .stmt parts => m.printParts n ps lctx parts
termination_by structural n => n

/-- The loop of `AsStmtPrinter::PrintCallArgs`. -/
def printCallArgs (m : SymbolManager) : ℕ → ProgramState → ℕ → Bool → Args → Option String
  | 0, _, _, _, _ => none
  | _ + 1, _, _, _, .nil => some ""
  | _ + 1, _, _, _, .defaulted _ => some ""
  | n + 1, ps, lctx, first, .cons arg rest =>
    (m.visit n ps lctx arg).bind fun arg =>
    (m.printCallArgs n ps lctx false rest).bind fun rest =>
    some ((if first then "" else ", ") ++ arg ++ rest)
termination_by structural n => n

/-- What a `Visit` function writes in turn. -/
def printParts (m : SymbolManager) : ℕ → ProgramState → ℕ → Parts → Option String
  | 0, _, _, _ => none
  | _ + 1, _, _, .nil => some ""
  | n + 1, ps, lctx, .text s rest => (m.printParts n ps lctx rest).map fun rest => s ++ rest
  | n + 1, ps, lctx, .visit s rest =>
    (m.visit n ps lctx s).bind fun s =>
    (m.printParts n ps lctx rest).bind fun rest =>
    some (s ++ rest)
termination_by structural n => n

end

end SymbolManager

/-! ### What is mentioned -/

mutual

/-- All symbols in a value come before position `n`. -/
def SVal.Below (n : ℕ) : SVal → Prop
  | .undefined | .unknown | .concreteInt _ | .gotoLabel _ => True
  | .symbolVal sym => sym < n
  | .locAsInteger loc => loc.Below n
  | .compoundVal vals => vals.Below n
  | .lazyCompoundVal r => r.Below n
  | .memRegionVal r => r.Below n

def SVals.Below (n : ℕ) : SVals → Prop
  | .nil => True
  | .cons val rest => val.Below n ∧ rest.Below n

def MemRegion.Below (n : ℕ) : MemRegion → Prop
  | .named _ => True
  | .symbolic sym => sym < n
  | .element superRegion _ index => superRegion.Below n ∧ index.Below n
  | .field superRegion _ => superRegion.Below n
  | .baseObject superRegion _ => superRegion.Below n
  | .ivar superRegion _ => superRegion.Below n
  | .staticGlobals code => code.Below n
  | .blockData code vars => code.Below n ∧ vars.Below n

def Captured.Below (n : ℕ) : Captured → Prop
  | .nil => True
  | .cons captured original rest => captured.Below n ∧ original.Below n ∧ rest.Below n

end

/-- All values of a state do so. -/
def ProgramState.Below (n : ℕ) (ps : ProgramState) : Prop :=
  ∀ address lctx, (ps.getSVal address lctx).Below n

/-- The symbols that a symbol is made of come before position `n`. -/
def Profile.Below (n : ℕ) : Profile → Prop
  | regionValue r => r.Below n
  | conjured .. => True
  | derived parent r => parent < n ∧ r.Below n
  | extent r => r.Below n
  | metadata r _ _ _ _ => r.Below n
  | castSymbol operand _ _ => operand < n
  | symInt lhs _ _ _ => lhs < n
  | intSym _ _ rhs _ => rhs < n
  | symSym lhs _ rhs _ => lhs < n ∧ rhs < n

/-- What a symbol is made of and what its state mentions come before
position `n`. -/
structure SymExpr.Below (n : ℕ) (sd : SymExpr) : Prop where
  profile : sd.profile.Below n
  ps : ∀ ps ∈ sd.ps, ps.Below n

namespace SymbolManager

/-- The managers that are filled by creating symbols one after another, from
what there is: a state that is handed in mentions symbols that exist. -/
inductive Reachable : SymbolManager → Prop
  | empty : Reachable ⟨[], 0⟩
  | getSymbol {m : SymbolManager} (h : Reachable m) {k : Profile} {ps : Option ProgramState}
      (hk : k.Below m.dataSet.length) (hps : ∀ s ∈ ps, s.Below m.dataSet.length) :
      Reachable (m.getSymbol k ps).2

/-- **A symbol keeps what is older**: all that it and its state mention was
created before it. -/
theorem Reachable.older {m : SymbolManager} (h : m.Reachable) :
    ∀ (i : ℕ) (sd : SymExpr), m.dataSet[i]? = some sd → sd.Below i := by
  induction h with
  | empty => simp
  | @getSymbol m _ k ps hk hps ih =>
    intro i sd hi
    cases hfind : m.find k with
    | some j =>
      have hsame : (m.getSymbol k ps).2 = m := by rw [SymbolManager.getSymbol, hfind]
      rw [hsame] at hi
      exact ih i sd hi
    | none =>
      have hnew : (m.getSymbol k ps).2.dataSet = m.dataSet ++ [⟨m.symbolCounter, k, ps⟩] := by
        rw [SymbolManager.getSymbol, hfind]
      rw [hnew] at hi
      by_cases hlt : i < m.dataSet.length
      · rw [List.getElem?_append_left hlt] at hi
        exact ih i sd hi
      · rw [List.getElem?_append_right (by omega), List.getElem?_singleton] at hi
        have hlast : i - m.dataSet.length = 0 := by
          by_contra hne
          rw [if_neg hne] at hi
          cases hi
        rw [if_pos hlast] at hi
        cases hi
        have heq : i = m.dataSet.length := by omega
        rw [heq]
        exact ⟨hk, hps⟩

/-! ### Termination -/

section

variable {m : SymbolManager} {k : ℕ}

mutual

/-- The text of a value, if those of the symbols in it are written. -/
theorem dumpSVal_returns (h : ∀ j < k, Returns fun n => m.dumpToStream n j) : ∀ v : SVal, v.Below k →
    Returns fun n => m.dumpSVal n v
  | .undefined, _ => .of_succ (.pure "Undefined")
  | .unknown, _ => .of_succ (.pure "Unknown")
  | .concreteInt text, _ => .of_succ (.pure text)
  | .gotoLabel name, _ => .of_succ (.pure ("&&" ++ name))
  | .symbolVal sym, hv => .of_succ (h sym hv)
  | .locAsInteger loc, hv => .of_succ (dumpSVal_returns h loc hv)
  | .compoundVal vals, hv => .of_succ ((dumpSVals_returns h vals true hv).map _)
  | .lazyCompoundVal r, hv => .of_succ (dumpRegion_returns h r hv)
  | .memRegionVal r, hv => .of_succ (dumpRegion_returns h r hv)

theorem dumpSVals_returns (h : ∀ j < k, Returns fun n => m.dumpToStream n j) : ∀ (vals : SVals) (first : Bool),
    vals.Below k → Returns fun n => m.dumpSVals n first vals
  | .nil, _, _ => .of_succ (.pure "")
  | .cons val rest, _, hv =>
    .of_succ ((dumpSVal_returns h val hv.1).bind fun _ =>
      (dumpSVals_returns h rest false hv.2).bind fun _ => .pure _)

theorem dumpRegion_returns (h : ∀ j < k, Returns fun n => m.dumpToStream n j) : ∀ r : MemRegion, r.Below k →
    Returns fun n => m.dumpRegion n r
  | .named text, _ => .of_succ (.pure text)
  | .symbolic sym, hr => .of_succ (h sym hr)
  | .element superRegion false _, hr => .of_succ (dumpRegion_returns h superRegion hr.1)
  | .element superRegion true index, hr =>
    .of_succ ((dumpRegion_returns h superRegion hr.1).bind fun _ =>
      (dumpSVal_returns h index hr.2).bind fun _ => .pure _)
  | .field superRegion _, hr => .of_succ ((dumpRegion_returns h superRegion hr).map _)
  | .baseObject superRegion _, hr => .of_succ ((dumpRegion_returns h superRegion hr).map _)
  | .ivar superRegion _, hr => .of_succ ((dumpRegion_returns h superRegion hr).map _)
  | .staticGlobals code, hr => .of_succ ((dumpRegion_returns h code hr).map _)
  | .blockData code vars, hr =>
    .of_succ ((dumpRegion_returns h code hr.1).bind fun _ =>
      (dumpCaptured_returns h vars hr.2).bind fun _ => .pure _)

theorem dumpCaptured_returns (h : ∀ j < k, Returns fun n => m.dumpToStream n j) : ∀ vars : Captured,
    vars.Below k → Returns fun n => m.dumpCaptured n vars
  | .nil, _ => .of_succ (.pure "")
  | .cons captured original rest, hr =>
    .of_succ ((dumpRegion_returns h captured hr.1).bind fun _ =>
      (dumpRegion_returns h original hr.2.1).bind fun _ =>
        (dumpCaptured_returns h rest hr.2.2).bind fun _ => .pure _)

end

/-- What is looked up for an expression is written, or nothing is. -/
theorem tryToEvalSymExprOrSVal_returns (h : ∀ j < k, Returns fun n => m.dumpToStream n j) {ps : ProgramState}
    (hps : ps.Below k) (lctx address : ℕ) : Returns fun n => m.tryToEvalSymExprOrSVal n ps lctx address := by
  refine .of_succ ?_
  have hv := hps address lctx
  unfold tryToEvalSymExprOrSVal
  cases hval : ps.getSVal address lctx with
  | undefined => exact .pure none
  | unknown => exact .pure none
  | memRegionVal r => exact .pure none
  | concreteInt | gotoLabel | symbolVal | locAsInteger | compoundVal | lazyCompoundVal =>
    rw [hval] at hv
    exact (dumpSVal_returns h _ hv).map some

mutual

/-- The text of a statement under a state, if those of the symbols in the state
are written. -/
theorem visit_returns (h : ∀ j < k, Returns fun n => m.dumpToStream n j) {ps : ProgramState} (hps : ps.Below k)
    (lctx : ℕ) : ∀ s : Stmt, Returns fun n => m.visit n ps lctx s
  | .call address directCallee args => by
    refine .of_succ ((tryToEvalSymExprOrSVal_returns h hps lctx address).bind fun written => ?_)
    cases written with
    | some text => exact .pure text
    | none =>
      cases directCallee with
      | some name => exact (printCallArgs_returns h hps lctx true args).map _
      | none => exact .pure ""
  | .expr address parts => by
    refine .of_succ ((tryToEvalSymExprOrSVal_returns h hps lctx address).bind fun written => ?_)
    cases written with
    | some text => exact .pure text
    | none => exact printParts_returns h hps lctx parts
  | .stmt parts => .of_succ (printParts_returns h hps lctx parts)

theorem printCallArgs_returns (h : ∀ j < k, Returns fun n => m.dumpToStream n j) {ps : ProgramState}
    (hps : ps.Below k) (lctx : ℕ) (first : Bool) : ∀ args : Args,
    Returns fun n => m.printCallArgs n ps lctx first args
  | .nil => .of_succ (.pure "")
  | .defaulted _ => .of_succ (.pure "")
  | .cons arg rest =>
    .of_succ ((visit_returns h hps lctx arg).bind fun _ =>
      (printCallArgs_returns h hps lctx false rest).bind fun _ => .pure _)

theorem printParts_returns (h : ∀ j < k, Returns fun n => m.dumpToStream n j) {ps : ProgramState}
    (hps : ps.Below k) (lctx : ℕ) : ∀ parts : Parts, Returns fun n => m.printParts n ps lctx parts
  | .nil => .of_succ (.pure "")
  | .text _ rest => .of_succ ((printParts_returns h hps lctx rest).map _)
  | .visit s rest =>
    .of_succ ((visit_returns h hps lctx s).bind fun _ =>
      (printParts_returns h hps lctx rest).bind fun _ => .pure _)

end

/-- **A symbol's text is written** if those of all older symbols are: what it
is made of, or its state, mentions no others. -/
theorem dumpToStream_step {sd : SymExpr} (hget : m.dataSet[k]? = some sd) (hbelow : sd.Below k)
    (h : ∀ j < k, Returns fun n => m.dumpToStream n j) : Returns fun n => m.dumpToStream n k := by
  refine .of_succ ?_
  obtain ⟨id, profile, ps⟩ := sd
  obtain ⟨hprofile, hstate⟩ := hbelow
  unfold dumpToStream
  rw [hget]
  cases profile with
  | regionValue r => exact dumpRegion_returns h r hprofile
  | conjured stmt lctx type count tag =>
    cases ps with
    | none => exact .pure _
    | some ps => exact visit_returns h (hstate ps rfl) lctx stmt
  | derived parent r =>
    have hregion := dumpRegion_returns h r hprofile.2
    by_cases hconjured : (m.dataSet[parent]?).any (·.profile.isConjured) = true
    · simp only [hconjured, if_true]
      exact hregion
    · simp only [hconjured]
      exact (h parent hprofile.1).bind fun _ => hregion.bind fun _ => .pure _
  | extent r => exact (dumpRegion_returns h r hprofile).map _
  | metadata r stmt type count tag => exact (dumpRegion_returns h r hprofile).map _
  | castSymbol operand fromTy toTy => exact h operand hprofile
  | symInt lhs opcode rhs type => exact (h lhs hprofile).map _
  | intSym lhs opcode rhs type => exact (h rhs hprofile).map _
  | symSym lhs opcode rhs type =>
    exact (h lhs hprofile.1).bind fun _ => (h rhs hprofile.2).bind fun _ => .pure _

end

/-- **Every symbol prints.** In every manager that is filled by creating symbols
one after another, the text of each symbol is written. -/
theorem dumpToStream_returns {m : SymbolManager} (h : m.Reachable) :
    ∀ i < m.dataSet.length, Returns fun n => m.dumpToStream n i := by
  intro i
  -- by the order of creation
  induction i using Nat.strong_induction_on with
  | _ i ih =>
    intro hi
    have hget : m.dataSet[i]? = some m.dataSet[i] := List.getElem?_eq_getElem hi
    exact dumpToStream_step hget (h.older i _ hget) fun j hj => ih j hj (by omega)

end SymbolManager

/-! ### An example -/

/-- The argument `g(x)`, at address 1. -/
def callOfG : Stmt := .call 1 (some "g") (.cons (.expr 0 (.text "x" .nil)) .nil)

/-- The call `f(g(x))`, at address 2. -/
def callOfF : Stmt := .call 2 (some "f") (.cons callOfG .nil)

/-- A state that has the values of some expressions. -/
def stateOf (vals : List (ℕ × SVal)) : ProgramState := ⟨fun address _ => (vals.lookup address).getD .unknown⟩

/-- The result of `g(x)`; that of `f(g(x))`, in a state that has the first; and
the latter in a later turn of a loop, in a state that has the result of the
same call. -/
def nestedCalls : SymbolManager :=
  let m : SymbolManager := ⟨[], 0⟩
  let m := (m.getSymbol (.conjured callOfG 0 "int" 1 0) (some (stateOf []))).2
  let m := (m.getSymbol (.conjured callOfF 0 "int" 1 0) (some (stateOf [(1, .symbolVal 0)]))).2
  (m.getSymbol (.conjured callOfF 0 "int" 2 0) (some (stateOf [(2, .symbolVal 1)]))).2

theorem stateOf_below {n : ℕ} {vals : List (ℕ × SVal)} (h : ∀ x ∈ vals, x.2.Below n) : (stateOf vals).Below n := by
  intro address lctx
  show ((vals.lookup address).getD .unknown).Below n
  cases hlookup : vals.lookup address with
  | none => exact trivial
  | some v =>
    obtain ⟨l₁, l₂, hsplit, -⟩ := List.lookup_eq_some_iff.mp hlookup
    exact h (address, v) (by rw [hsplit]; simp)

theorem nestedCalls_reachable : nestedCalls.Reachable := by
  unfold nestedCalls
  -- from the last symbol to the first
  refine .getSymbol ?_ trivial ?_
  · refine .getSymbol ?_ trivial ?_
    · refine .getSymbol .empty trivial ?_
      rintro s ⟨⟩
      exact stateOf_below (by simp)
    · rintro s ⟨⟩
      exact stateOf_below (List.forall_mem_singleton.mpr Nat.zero_lt_one)
  · rintro s ⟨⟩
    exact stateOf_below (List.forall_mem_singleton.mpr Nat.one_lt_two)

/-- All three print, the last one as the second. -/
theorem nestedCalls_prints : (∀ i < nestedCalls.dataSet.length, Returns fun n => nestedCalls.dumpToStream n i) ∧
    nestedCalls.dumpToStream 20 2 = some "f(g(x))" :=
  ⟨SymbolManager.dumpToStream_returns nestedCalls_reachable, by decide +kernel⟩

end Dumping
end Ento
end Apisan
