/-
# Calls as text

`AsStmtPrinter` writes a call as the name of its direct callee and its
arguments, each with the value it has in the state; a call without a direct
callee writes nothing. The classes of expressions other than calls are kept as
far as the direct callee depends on them, and what their `Visit` functions
write is a parameter.

Key definitions: `Expr`, `SVal`, `Expr.getDirectCallee`, `AsStmtPrinter`,
`AsStmtPrinter.visit`, `AsStmtPrinter.printed`.
Key theorems: `AsStmtPrinter.visit_direct`, `AsStmtPrinter.printCallArgs_eq`.
-/
import Mathlib.Data.List.Basic

namespace Apisan
namespace Ento

/-! ### Declarations and expressions -/

/-- The name of a declaration: an identifier, or another name as it is printed. -/
inductive DeclarationName
  | identifier (s : String)
  | special (s : String)
  deriving DecidableEq, Repr

def DeclarationName.getAsString : DeclarationName → String
  | identifier s => s
  | special s => s

structure FunctionDecl where
  name : DeclarationName
  deriving DecidableEq, Repr

/-- `ValueDecl`: a function, or a variable or field. -/
inductive ValueDecl
  | function (fd : FunctionDecl)
  | other (name : String)
  deriving DecidableEq, Repr

/-- `dyn_cast<FunctionDecl>`. -/
def ValueDecl.asFunction : ValueDecl → Option FunctionDecl
  | function fd => some fd
  | other _ => none

/-- An expression. `selected` is a generic selection or `__builtin_choose_expr`
with the expression it chooses; `cast` is an explicit cast; `ptrMem` is `.*` or
`->*`; `overloaded` is a call whose class has a `Visit` function of its own (an
operator, a literal, a conversion or a kernel call). -/
inductive Expr
  | declRef (d : ValueDecl)
  | member (base : Expr) (d : ValueDecl)
  | paren (e : Expr)
  | extension (e : Expr)
  | selected (e : Expr)
  | implicitCast (e : Expr)
  | cast (e : Expr)
  | materializeTemporary (e : Expr)
  | substNonTypeTemplateParm (replacement : Expr)
  | deref (e : Expr)
  | ptrMem (lhs rhs : Expr)
  | call (callee : Expr) (args : List Expr)
  | overloaded (id : ℕ) (callee : Expr) (args : List Expr)
  | cxxDefaultArg
  | other (id : ℕ)

namespace Expr

/-- `IgnoreParenImpCasts`. -/
def ignoreParenImpCasts : Expr → Expr
  | paren e | extension e | selected e | implicitCast e | materializeTemporary e
  | substNonTypeTemplateParm e => ignoreParenImpCasts e
  | e => e

/-- `IgnoreParenCasts`. -/
def ignoreParenCasts : Expr → Expr
  | paren e | extension e | selected e | implicitCast e | cast e | materializeTemporary e
  | substNonTypeTemplateParm e => ignoreParenCasts e
  | e => e

/-- The declaration that an expression refers to. -/
def getDecl : Expr → Option ValueDecl
  | declRef d => some d
  | member _ d => some d
  | _ => none

/-- `CallExpr::getCalleeDecl`, of a callee. -/
def getCalleeDecl (callee : Expr) : Option ValueDecl :=
  match callee.ignoreParenImpCasts with
  | ptrMem _ rhs => rhs.ignoreParenCasts.getDecl
  | deref e => e.ignoreParenCasts.getDecl
  | e => e.getDecl

/-- `CallExpr::getDirectCallee`, of a callee. -/
def getDirectCallee (callee : Expr) : Option FunctionDecl := callee.getCalleeDecl.bind ValueDecl.asFunction

/-- `isa<CXXDefaultArgExpr>`. -/
def isDefaultArg : Expr → Bool
  | cxxDefaultArg => true
  | _ => false

end Expr

/-! ### Values -/

/-- A symbol as `dumpToStream` writes it, and whether it is a conjured one. -/
structure PrintedSymbol where
  text : String
  isConjured : Bool
  deriving DecidableEq, Repr

/-- `MemRegion`: the code of a function, a symbolic region, a region within a
symbolic one, or another. -/
inductive MemRegion
  | functionText (fd : FunctionDecl)
  | symbolic (sym : PrintedSymbol)
  | within (base : PrintedSymbol)
  | other
  deriving DecidableEq, Repr

/-- A value. The texts are what `dumpToStream` writes. -/
inductive SVal
  | undefined
  | unknown
  | symbolVal (sym : PrintedSymbol)
  | memRegionVal (r : MemRegion)
  | locAsInteger (r : MemRegion) (text : String)
  | other (text : String)
  deriving DecidableEq, Repr

/-- `getAsLocSymbol`, of a region. -/
def MemRegion.getSymbol (includeBaseRegions : Bool) : MemRegion → Option PrintedSymbol
  | symbolic sym => some sym
  | within base => if includeBaseRegions then some base else none
  | _ => none

namespace SVal

def getAsSymbol (includeBaseRegions : Bool) : SVal → Option PrintedSymbol
  | symbolVal sym => some sym
  | memRegionVal r => r.getSymbol includeBaseRegions
  | locAsInteger r _ => r.getSymbol false
  | _ => none

def getAsFunctionDecl : SVal → Option FunctionDecl
  | memRegionVal (.functionText fd) => some fd
  | _ => none

/-- What is written for a value that is no location; a region is left to the
`Visit` function. -/
def dumped : SVal → Option String
  | symbolVal sym => some sym.text
  | locAsInteger _ text => some text
  | other text => some text
  | _ => none

end SVal

/-! ### The printer -/

/-- A printer: the values of a state in a location context, what the `Visit`
functions of other classes write there, and whether l-values are wanted. -/
structure AsStmtPrinter where
  getSVal : Expr → SVal
  visitOther : Expr → String
  isLValue : Bool

namespace AsStmtPrinter

variable (P : AsStmtPrinter)

/-- `tryToEvalSymExprOrSVal`: what it writes, if it does. -/
def tryToEvalSymExprOrSVal (e : Expr) : Option String :=
  let sv := P.getSVal e
  if P.isLValue then
    match sv.getAsSymbol false with
    | some sym => if sym.isConjured then none else some sym.text
    | none => sv.dumped
  else sv.dumped

mutual

/-- `Visit`; for a call `VisitCallExpr`. -/
def visit : Expr → String
  | .call callee args =>
    match P.tryToEvalSymExprOrSVal (.call callee args) with
    | some text => text
    | none =>
      match callee.getDirectCallee with
      | some fd => fd.name.getAsString ++ "(" ++ printCallArgs true args ++ ")"
      | none => ""
  | e => P.visitOther e

/-- The loop of `PrintCallArgs`. -/
def printCallArgs : Bool → List Expr → String
  | _, [] => ""
  | isFirst, e :: es =>
    if e.isDefaultArg then ""
    else (if isFirst then "" else ", ") ++ visit e ++ printCallArgs false es

end

/-- The texts of the arguments that are printed: those before a default one. -/
def printed (args : List Expr) : List String := (args.takeWhile fun e => !e.isDefaultArg).map P.visit

theorem printed_cons_default {e : Expr} (h : e.isDefaultArg = true) (es : List Expr) :
    P.printed (e :: es) = [] := by
  simp [printed, h]

theorem printed_cons {e : Expr} (h : e.isDefaultArg = false) (es : List Expr) :
    P.printed (e :: es) = P.visit e :: P.printed es := by
  simp [printed, h]

theorem printCallArgs_false : ∀ es : List Expr,
    P.printCallArgs false es = String.join ((P.printed es).map fun t => ", " ++ t)
  | [] => by simp [printCallArgs, printed, String.join_nil]
  | e :: es => by
    rw [printCallArgs]
    by_cases h : e.isDefaultArg = true
    · rw [if_pos h, printed_cons_default P h, List.map_nil, String.join_nil]
    · have h' := eq_false_of_ne_true h
      rw [if_neg h, printed_cons P h', List.map_cons, String.join_cons, printCallArgs_false es]
      rfl

theorem intercalate_eq_join (t : String) (ts : List String) :
    String.intercalate ", " (t :: ts) = t ++ String.join (ts.map fun t => ", " ++ t) := by
  induction ts generalizing t with
  | nil => simp [String.join_nil]
  | cons u ts ih =>
    rw [String.intercalate_cons_cons, ih, List.map_cons, String.join_cons]
    simp only [String.append_assoc]

/-- **The arguments are printed** with commas between them. -/
theorem printCallArgs_eq (es : List Expr) :
    P.printCallArgs true es = String.intercalate ", " (P.printed es) := by
  cases es with
  | nil => simp [printCallArgs, printed]
  | cons e es =>
    rw [printCallArgs]
    by_cases h : e.isDefaultArg = true
    · rw [if_pos h, printed_cons_default P h, String.intercalate_nil]
    · have h' := eq_false_of_ne_true h
      rw [if_neg h, printed_cons P h', intercalate_eq_join, printCallArgs_false]
      simp only [if_true, String.empty_append]

/-- **A call that has no value is printed** with the name of its direct callee. -/
theorem visit_direct {callee : Expr} {args : List Expr} {fd : FunctionDecl}
    (hval : P.tryToEvalSymExprOrSVal (.call callee args) = none) (hfd : callee.getDirectCallee = some fd) :
    P.visit (.call callee args) =
      fd.name.getAsString ++ "(" ++ String.intercalate ", " (P.printed args) ++ ")" := by
  rw [visit, hval, hfd]
  simp only [printCallArgs_eq]

end AsStmtPrinter
end Ento
end Apisan
