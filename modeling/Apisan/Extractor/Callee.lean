/-
# The callee of a logged call

Whether a call is logged depends on the function that the callee's value is;
the text of the event is the printer's, which names the callee as it is
written. The analyzer reads a call from the event whose text is not empty, and
its name is the text before the first parenthesis. So a call through a pointer
is logged without a text and is no call for the analyzer. A call is read with
the name of its callee exactly if its location, which is not escaped, is read
(`Located`), what is written has only characters of XML, and it begins with the
name, which for a call without a value means that the direct callee has the name
(`reads_iff`).

Key definitions: `CheckerContext`, `checkPreStmt`, `WritesCallee`.
Key theorems: `located_presumed`, `visit_calls_iff`, `reads_iff`.
-/
import Apisan.Extractor.AsStmtPrinter
import Apisan.Extractor.CallXml
import Apisan.Parse.Spelling

namespace Apisan
namespace Ento

/-! ### What is logged -/

/-- The callee of a call. -/
def Expr.getCallee : Expr → Option Expr
  | call callee _ => some callee
  | overloaded _ callee _ => some callee
  | _ => none

/-- `SourceLocation`: one that is invalid, one without a presumed location, or a
line of a file. -/
inductive SourceLocation
  | invalid
  | unpresumed
  | presumed (filename : String) (line : ℕ)

/-- `SourceLocation::printWithoutColumn`. -/
def SourceLocation.printWithoutColumn : SourceLocation → String
  | invalid => "<invalid loc>"
  | unpresumed => "<invalid>"
  | presumed filename line => filename ++ ":" ++ String.ofList (Nat.toDigits 10 line)

/-- `CheckerContext`: the values of the state in the location context, what the
printer writes for expressions other than calls, and where expressions start in
the code. -/
structure CheckerContext where
  getSVal : Expr → SVal
  visitOther : Expr → String
  getLocStart : Expr → SourceLocation

namespace CheckerContext

variable (C : CheckerContext)

/-- `getCalleeDecl`, of a callee. -/
def getCalleeDecl (callee : Expr) : Option FunctionDecl := (C.getSVal callee).getAsFunctionDecl

/-- The printer of an event. -/
def printer : AsStmtPrinter := ⟨C.getSVal, C.visitOther, true⟩

/-- `getCodeAsString`. -/
def getCodeAsString (e : Expr) : String := (C.getLocStart e).printWithoutColumn

/-- The constructor of the event of a call. -/
def callEvent (k : Kind) (ce : Expr) : SymExecEvent :=
  .ofCall k (C.getCodeAsString ce) <|
    match (C.getSVal ce).getAsSymbol true with
    | some se => se.text
    | none => C.printer.visit ce

end CheckerContext

/-- `isInBlackList`. -/
def isInBlackList (fd : FunctionDecl) : Bool := fd.name == .identifier "__builtin_expect"

/-- `checkPreStmt`: the event it adds. -/
def checkPreStmt (C : CheckerContext) (ce : Expr) : Option SymExecEvent := do
  let callee ← ce.getCallee
  let fd ← C.getCalleeDecl callee
  if isInBlackList fd then none else some (C.callEvent .fnCall ce)

/-! ### What is written -/

/-- What is written in the place of a name and arguments: a value, or what a
class writes whose `Visit` function is its own. -/
def AsStmtPrinter.writtenInstead (P : AsStmtPrinter) : Expr → Option String
  | .call callee args => P.tryToEvalSymExprOrSVal (.call callee args)
  | e => some (P.visitOther e)

/-- The name of the callee is written: at the beginning of a text in its place,
or as the name of the direct callee. -/
def WritesCallee (P : AsStmtPrinter) (ce : Expr) (name : String) : Prop :=
  match P.writtenInstead ce with
  | some text => Calls (asRead text) name
  | none => ∃ callee fd, ce.getCallee = some callee ∧ callee.getDirectCallee = some fd ∧
      beforeParen (asRead fd.name.getAsString) = name

theorem calls_append (s rest name : String) :
    Calls (s ++ "(" ++ rest) name ↔ beforeParen s = name := by
  have htake : (s.toList ++ '(' :: rest.toList).takeWhile (· != '(') = s.toList.takeWhile (· != '(') :=
    (SLexer.takeWhile_break (by decide) rest.toList s.toList).1
  have hlist : (s ++ "(" ++ rest).toList = s.toList ++ '(' :: rest.toList := by
    simp [String.toList_append]
  simp only [Calls, beforeParen, hlist, htake]
  simp

theorem asRead_append (s rest : String) : asRead (s ++ "(" ++ rest) = asRead s ++ "(" ++ asRead rest := by
  refine String.toList_inj.mp ?_
  have hlist : (s ++ "(" ++ rest).toList = s.toList ++ '(' :: rest.toList := by simp
  rw [toList_asRead, hlist, Xml.lineEnds_append (by simp), Xml.lineEnds_cons (by decide)]
  simp [toList_asRead]

/-- **What the printer writes** for a call begins with the name it writes. -/
theorem visit_calls_iff {P : AsStmtPrinter} {ce callee : Expr} (hce : ce.getCallee = some callee)
    (name : String) : Calls (asRead (P.visit ce)) name ↔ WritesCallee P ce name := by
  cases ce with
  | call callee' args =>
    obtain rfl : callee' = callee := Option.some.inj hce
    rw [WritesCallee]
    cases hval : P.tryToEvalSymExprOrSVal (.call callee' args) with
    | some text =>
      have hinstead : P.writtenInstead (.call callee' args) = some text := hval
      simp only [hinstead, AsStmtPrinter.visit, hval]
    | none =>
      have hinstead : P.writtenInstead (.call callee' args) = none := hval
      simp only [hinstead, AsStmtPrinter.visit, hval, hce, Option.some.injEq, exists_and_left, exists_eq_left']
      cases hfd : callee'.getDirectCallee with
      | none => simp [Calls, asRead, Xml.lineEnds]
      | some fd =>
        have hcalls := calls_append (asRead fd.name.getAsString) (asRead (P.printCallArgs true args ++ ")")) name
        rw [← asRead_append, ← String.append_assoc] at hcalls
        simp only [Option.some.injEq, exists_eq_left']
        exact hcalls
  | overloaded id callee' args =>
    simp only [WritesCallee, AsStmtPrinter.writtenInstead, AsStmtPrinter.visit]
  | _ => cases hce

theorem isChar_of_isDigit {c : Char} (h : c.isDigit = true) : Xml.isChar c = true := by
  simp only [Char.isDigit, Bool.and_eq_true, decide_eq_true_eq, ge_iff_le, UInt32.le_iff_toNat_le] at h
  have hlower : 0x20 ≤ c.toNat := Nat.le_trans (by decide) h.1
  have hupper : c.toNat ≤ 0xd7ff := Nat.le_trans h.2 (by decide)
  simp [Xml.isChar, hlower, hupper]

/-- A line of a file whose name has nothing to escape is read. -/
theorem located_presumed (ns : Xml.Namespaces) {filename : String} (hlegal : Legal filename)
    (h : Xml.Plain filename.toList) (line : ℕ) :
    Located ns (SourceLocation.presumed filename line).printWithoutColumn := by
  have hdigits : ∀ c ∈ ':' :: Nat.toDigits 10 line, c = ':' ∨ c.isDigit = true := by
    rw [List.forall_mem_cons]
    exact ⟨.inl rfl, fun c hc => .inr (List.all_eq_true.mp (SLexer.digitChars_all line) c hc)⟩
  have hne : ∀ d : Char, d ≠ ':' → d.isDigit = false → ∀ c ∈ ':' :: Nat.toDigits 10 line, c ≠ d := by
    rintro d hd hdigit c hc rfl
    rcases hdigits c hc with hcolon | hc
    · exact hd hcolon
    · rw [hdigit] at hc
      cases hc
  have hlist : (SourceLocation.presumed filename line).printWithoutColumn.toList =
      filename.toList ++ ':' :: Nat.toDigits 10 line := by
    simp [SourceLocation.printWithoutColumn]
  refine located_of_plain ns (fun c hc => ?_) ?_
  · rw [hlist, List.mem_append] at hc
    rcases hc with hc | hc
    · exact hlegal c hc
    · refine ⟨?_, hne '\r' (by decide) (by decide) c hc⟩
      rcases hdigits c hc with rfl | hdigit
      · decide
      · exact isChar_of_isDigit hdigit
  · rw [hlist]
    exact h.append fun c hc => ⟨hne '<' (by decide) (by decide) c hc, hne '&' (by decide) (by decide) c hc,
      hne '>' (by decide) (by decide) c hc⟩

/-- **When a logged call names its callee.** A call that is logged and has no
symbol as its value is read as a call of its callee exactly if its location is
read, and what is written has characters of XML and names the callee. -/
theorem reads_iff {C : CheckerContext} {ce callee : Expr} {fd : FunctionDecl} {e : SymExecEvent}
    (hce : ce.getCallee = some callee) (hfd : C.getCalleeDecl callee = some fd)
    (hlogged : checkPreStmt C ce = some e) (hval : (C.getSVal ce).getAsSymbol true = none)
    (ns : Xml.Namespaces) :
    ReadsCall ns e fd.name.getAsString ↔ Located ns (C.getCodeAsString ce) ∧ Chars (C.printer.visit ce) ∧
      WritesCallee C.printer ce fd.name.getAsString := by
  have hevent : e = .ofCall .fnCall (C.getCodeAsString ce) (C.printer.visit ce) := by
    simp only [checkPreStmt, hce, hfd, Option.bind_eq_bind, Option.bind_some] at hlogged
    split_ifs at hlogged
    rw [← Option.some.inj hlogged, CheckerContext.callEvent, hval]
  rw [hevent, readsCall_iff, visit_calls_iff hce]

/-- A state in which pointers to functions point to `g`. -/
def pointsToG : CheckerContext where
  getSVal
    | .implicitCast _ => .memRegionVal (.functionText ⟨.identifier "g"⟩)
    | _ => .unknown
  visitOther _ := "1"
  getLocStart _ := .presumed "a.c" 3

/-- The call `g(1)`. -/
theorem reads_iff_direct : ReadsCall Xml.noNamespaces (.ofCall .fnCall "a.c:3" "g(1)") "g" := by
  have hfd : pointsToG.getCalleeDecl (.implicitCast (.declRef (.function ⟨.identifier "g"⟩))) =
      some ⟨.identifier "g"⟩ := rfl
  have hlogged : checkPreStmt pointsToG
      (.call (.implicitCast (.declRef (.function ⟨.identifier "g"⟩))) [.other 0]) =
      some (.ofCall .fnCall "a.c:3" "g(1)") := by decide +kernel
  have hinstead : pointsToG.printer.writtenInstead
      (.call (.implicitCast (.declRef (.function ⟨.identifier "g"⟩))) [.other 0]) = none := by decide +kernel
  have hlegal : Legal "a.c" := by decide
  have hplain : Xml.Plain "a.c".toList := by decide
  refine (reads_iff rfl hfd hlogged rfl Xml.noNamespaces).mpr ⟨located_presumed _ hlegal hplain 3, ?_, ?_⟩
  · decide +kernel
  · rw [WritesCallee, hinstead]
    exact ⟨_, _, rfl, rfl, by decide⟩

/-- The call `fp(1)` of a pointer to `g` is logged without a text. -/
theorem pointer_not_read : ¬ ∀ (C : CheckerContext) (ce callee : Expr) (fd : FunctionDecl) (e : SymExecEvent),
    ce.getCallee = some callee → C.getCalleeDecl callee = some fd → checkPreStmt C ce = some e →
      (C.getSVal ce).getAsSymbol true = none → ReadsCall Xml.noNamespaces e fd.name.getAsString := by
  intro h
  have hlogged : checkPreStmt pointsToG (.call (.implicitCast (.declRef (.other "fp"))) [.other 0]) =
      some (.ofCall .fnCall "a.c:3" "") := by decide +kernel
  have hread := h pointsToG _ _ ⟨.identifier "g"⟩ _ rfl rfl hlogged rfl
  exact absurd ((readsCall_iff _ _ _ _).mp hread).2.2.1 (by decide)

end Ento
end Apisan
