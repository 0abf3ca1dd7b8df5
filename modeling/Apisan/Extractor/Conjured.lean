/-
# Returned symbols

The value of a call that is not followed is a conjured symbol, and its text is
the call printed with the values of its arguments in the state that the symbol
keeps. The symbols are unique by statement, context, type, count and tag
(`SymbolConjured::Profile`), without the state: the manager is a memo table
of states (`SymbolManager.states_explore`), and every path that reaches the
call gets the symbol, and the text, of the path that reached it first. So paths
log their own values exactly if the calls that share a profile print alike
(`logsOwnValues_iff`).

Key definitions: `Profile`, `SymbolManager.conjureSymbol`,
`SymbolManager.explore`, `Program.print`, `LogsOwnValues`.
Key theorems: `SymbolManager.states_explore`, `SymbolManager.ps_returned`,
`logsOwnValues_iff`.
-/
import Apisan.Lib.Memo
import Apisan.Extractor.Callee
import Apisan.Extractor.Conditions

namespace Apisan
namespace Ento

/-- `SymbolConjured::Profile`. The statements, contexts, types and tags are
pointers. -/
structure Profile (S L T G : Type) where
  stmt : S
  lctx : L
  type : T
  count : ℕ
  tag : G
  deriving DecidableEq, Repr

/-- A conjured symbol, with the state it keeps. -/
structure SymbolConjured (S L T G PS : Type) where
  symbolID : ℕ
  profile : Profile S L T G
  ps : PS
  deriving DecidableEq, Repr

/-- A call of `conjureSymbol` for the value of a call expression in a state. -/
structure Conjuring (S L T G PS : Type) where
  profile : Profile S L T G
  ps : PS
  deriving DecidableEq, Repr

/-- The conjured symbols of a `SymbolManager`, latest first. -/
structure SymbolManager (S L T G PS : Type) where
  dataSet : List (SymbolConjured S L T G PS)
  symbolCounter : ℕ

namespace SymbolManager

variable {S L T G PS : Type} [DecidableEq S] [DecidableEq L] [DecidableEq T] [DecidableEq G]

/-- `FindNodeOrInsertPos`. -/
def find (m : SymbolManager S L T G PS) (k : Profile S L T G) : Option (SymbolConjured S L T G PS) :=
  m.dataSet.find? fun sd => decide (sd.profile = k)

def conjureSymbol (m : SymbolManager S L T G PS) (c : Conjuring S L T G PS) :
    SymbolConjured S L T G PS × SymbolManager S L T G PS :=
  match m.find c.profile with
  | some sd => (sd, m)
  | none =>
    let sd : SymbolConjured S L T G PS := ⟨m.symbolCounter, c.profile, c.ps⟩
    (sd, ⟨sd :: m.dataSet, m.symbolCounter + 1⟩)

/-- The manager after the calls of all paths, in the order they were made. -/
def explore (calls : List (Conjuring S L T G PS)) : SymbolManager S L T G PS :=
  calls.foldl (fun m c => (m.conjureSymbol c).2) ⟨[], 0⟩

/-- The symbol that a call returns after the calls before it. -/
def returned (before : List (Conjuring S L T G PS)) (c : Conjuring S L T G PS) :
    SymbolConjured S L T G PS :=
  ((explore before).conjureSymbol c).1

/-! ### The first state of a profile -/

/-- The state that is kept for a profile. -/
def states (m : SymbolManager S L T G PS) (k : Profile S L T G) : Option PS := (m.find k).map (·.ps)

/-- What a symbol keeps of the call that makes it. -/
def keep (_ : Profile S L T G) (ps : PS) : Except Empty PS := .ok ps

/-- The call, as a call of the memo table. -/
def toMemo (c : Conjuring S L T G PS) : Memo.Call (Profile S L T G) PS := ⟨c.profile, c.ps⟩

theorem conjureSymbol_profile (m : SymbolManager S L T G PS) (c : Conjuring S L T G PS) :
    (m.conjureSymbol c).1.profile = c.profile := by
  unfold conjureSymbol
  cases hfind : m.find c.profile with
  | none => rfl
  | some sd =>
    have hfound : m.dataSet.find? (fun sd => decide (sd.profile = c.profile)) = some sd := hfind
    simpa using List.find?_some hfound

/-- A call gets the state that is kept, or keeps its own. -/
theorem conjureSymbol_result (m : SymbolManager S L T G PS) (c : Conjuring S L T G PS) :
    Memo.result keep m.states (toMemo c) = .ok (m.conjureSymbol c).1.ps := by
  unfold Memo.result conjureSymbol states toMemo
  cases m.find c.profile <;> rfl

theorem conjureSymbol_states (m : SymbolManager S L T G PS) (c : Conjuring S L T G PS) :
    (m.conjureSymbol c).2.states = Memo.call keep m.states (toMemo c) := by
  funext k
  rw [Memo.call, conjureSymbol_result]
  unfold conjureSymbol
  by_cases hk : k = c.profile
  · subst hk
    rw [show (toMemo c).key = c.profile from rfl, Function.update_self]
    cases hfind : m.find c.profile with
    | none => simp [states, find, Except.toOption]
    | some sd => simp [states, hfind, Except.toOption]
  · rw [show (toMemo c).key = c.profile from rfl, Function.update_of_ne hk]
    cases m.find c.profile with
    | none => simp [states, find, Ne.symm hk]
    | some sd => rfl

/-- **The manager is a memo table** of the states. -/
theorem states_explore (calls : List (Conjuring S L T G PS)) :
    (explore calls).states = Memo.tableAfter keep (calls.map toMemo) := by
  induction calls using List.reverseRecOn with
  | nil => rfl
  | append_singleton calls c ih =>
    rw [List.map_append, List.map_singleton, Memo.tableAfter_concat, ← ih, ← conjureSymbol_states, explore,
      List.foldl_append]
    rfl

/-- The state of the first call with the profile. -/
def firstState (calls : List (Conjuring S L T G PS)) (k : Profile S L T G) : Option PS :=
  Memo.first keep (calls.map toMemo) k

/-- **A call returns the symbol** of the first call with its profile. -/
theorem ps_returned {calls before after : List (Conjuring S L T G PS)} {c : Conjuring S L T G PS}
    (h : calls = before ++ c :: after) :
    firstState calls c.profile = some (returned before c).ps := by
  have hresult := Memo.result_eq (f := keep) (before.map toMemo) c.profile c.ps
  rw [← states_explore] at hresult
  have hps := (conjureSymbol_result (explore before) c).symm.trans hresult
  have hself : Memo.first keep [toMemo c] c.profile = some c.ps := by
    simp [Memo.first, toMemo, keep, Except.isOk, Except.toBool]
  have hsplit : calls.map toMemo = before.map toMemo ++ ([toMemo c] ++ after.map toMemo) := by
    rw [h, List.map_append]
    rfl
  rw [firstState, hsplit, Memo.first_append, Memo.first_append, hself, Option.some_or]
  change Except.ok (returned before c).ps = _ at hps
  rw [Except.ok.inj hps]
  cases Memo.first keep (before.map toMemo) c.profile <;> rfl

/-- The first state is one of a call with the profile. -/
theorem exists_of_firstState {calls : List (Conjuring S L T G PS)} {k : Profile S L T G} {ps : PS}
    (h : firstState calls k = some ps) : ∃ c ∈ calls, c.profile = k ∧ c.ps = ps := by
  obtain ⟨m, hm, rfl⟩ := Option.map_eq_some_iff.mp h
  obtain ⟨c, hc, rfl⟩ := List.mem_map.mp (List.mem_of_find?_eq_some hm)
  have hkey := List.find?_some hm
  rw [Bool.and_eq_true, decide_eq_true_eq] at hkey
  exact ⟨c, hc, hkey.1, rfl⟩

end SymbolManager

/-! ### What is logged -/

/-- The call expressions of a program, the values of the states, and what the
printer writes in them for other expressions. -/
structure Program (S L PS : Type) where
  callee : S → Expr
  args : S → List Expr
  getSVal : L → PS → Expr → SVal
  visitOther : L → PS → Expr → String

namespace Program

variable {S L T G PS : Type} (P : Program S L PS)

/-- The call expression. -/
def expr (s : S) : Expr := .call (P.callee s) (P.args s)

/-- The call expression printed in a state. -/
def print (k : Profile S L T G) (ps : PS) : String :=
  (AsStmtPrinter.mk (P.getSVal k.lctx ps) (P.visitOther k.lctx ps) false).visit (P.expr k.stmt)

/-- The values of the arguments in a state. -/
def values (k : Profile S L T G) (ps : PS) : List SVal := (P.args k.stmt).map (P.getSVal k.lctx ps)

/-- `SymbolConjured::dumpToStream`. -/
def dumpToStream (sym : SymbolConjured S L T G PS) : String := P.print sym.profile sym.ps

end Program

variable {S L T G PS : Type} [DecidableEq S] [DecidableEq L] [DecidableEq T] [DecidableEq G]

/-- The text of a symbol, its return event and its conditions show the call with
the values of its own state. -/
structure LogsOwn (P : Program S L PS) (c : Conjuring S L T G PS) (sym : SymbolConjured S L T G PS) :
    Prop where
  dump : P.dumpToStream sym = P.print c.profile c.ps
  ret : ∀ C : CheckerContext,
    (C.getSVal (P.expr c.profile.stmt)).getAsSymbol true = some ⟨P.dumpToStream sym, true⟩ →
      (C.callEvent .fnReturn (P.expr c.profile.stmt)).sv = P.print c.profile c.ps
  cond : ∀ ranges : Apisan.RangeSet, ranges ≠ [] →
    getCond (P.dumpToStream sym) (some ranges) = P.print c.profile c.ps ++ ("@=" ++ ranges.print)

/-- In a sequence of calls every path logs its own values, and paths with
different values log different texts. -/
structure LogsOwnValues (P : Program S L PS) (calls : List (Conjuring S L T G PS)) : Prop where
  own : ∀ before c after, calls = before ++ c :: after → LogsOwn P c (SymbolManager.returned before c)
  apart : ∀ before c after before' c' after', calls = before ++ c :: after → calls = before' ++ c' :: after' →
    c.profile.stmt = c'.profile.stmt → P.values c.profile c.ps ≠ P.values c'.profile c'.ps →
    P.dumpToStream (SymbolManager.returned before c) ≠ P.dumpToStream (SymbolManager.returned before' c')

/-- Calls with one profile print alike in their states, and calls at one site
with different values print differently. -/
structure PrintsApart (P : Program S L PS) (calls : List (Conjuring S L T G PS)) : Prop where
  alike : ∀ c ∈ calls, ∀ c' ∈ calls, c.profile = c'.profile →
    P.print c.profile c.ps = P.print c'.profile c'.ps
  apart : ∀ c ∈ calls, ∀ c' ∈ calls, c.profile.stmt = c'.profile.stmt →
    P.values c.profile c.ps ≠ P.values c'.profile c'.ps →
    P.print c.profile c.ps ≠ P.print c'.profile c'.ps

omit [DecidableEq S] [DecidableEq L] [DecidableEq T] [DecidableEq G] in
/-- The events follow the text of the symbol. -/
theorem logsOwn_iff (P : Program S L PS) (c : Conjuring S L T G PS) (sym : SymbolConjured S L T G PS) :
    LogsOwn P c sym ↔ P.dumpToStream sym = P.print c.profile c.ps := by
  refine ⟨LogsOwn.dump, fun h => ⟨h, fun C hC => ?_, fun ranges hne => ?_⟩⟩
  · simp only [CheckerContext.callEvent, SymExecEvent.ofCall, hC]
    exact h
  · obtain ⟨i, ranges, rfl⟩ := List.exists_cons_of_ne_nil hne
    rw [h, getCond_cons]

/-- **When paths log their own values.** -/
theorem logsOwnValues_iff (P : Program S L PS) (calls : List (Conjuring S L T G PS)) :
    LogsOwnValues P calls ↔ PrintsApart P calls := by
  have hdump : ∀ before c after, calls = before ++ c :: after → ∃ ps,
      SymbolManager.firstState calls c.profile = some ps ∧
        P.dumpToStream (SymbolManager.returned before c) = P.print c.profile ps := by
    intro before c after h
    refine ⟨_, SymbolManager.ps_returned h, ?_⟩
    have hprofile : (SymbolManager.returned before c).profile = c.profile :=
      SymbolManager.conjureSymbol_profile _ c
    rw [Program.dumpToStream, hprofile]
  constructor
  · intro h
    have hown : ∀ c ∈ calls, ∃ ps, SymbolManager.firstState calls c.profile = some ps ∧
        P.print c.profile ps = P.print c.profile c.ps := by
      intro c hc
      obtain ⟨before, after, hcalls⟩ := List.append_of_mem hc
      obtain ⟨ps, hps, htext⟩ := hdump before c after hcalls
      exact ⟨ps, hps, htext.symm.trans (h.own before c after hcalls).dump⟩
    refine ⟨fun c hc c' hc' hk => ?_, fun c hc c' hc' hstmt hvalues => ?_⟩
    · obtain ⟨ps, hps, htext⟩ := hown c hc
      obtain ⟨ps', hps', htext'⟩ := hown c' hc'
      rw [hk, hps'] at hps
      obtain rfl := Option.some.inj hps
      rw [← htext, ← htext', hk]
    · obtain ⟨before, after, hcalls⟩ := List.append_of_mem hc
      obtain ⟨before', after', hcalls'⟩ := List.append_of_mem hc'
      have hne := h.apart before c after before' c' after' hcalls hcalls' hstmt hvalues
      rwa [(h.own before c after hcalls).dump, (h.own before' c' after' hcalls').dump] at hne
  · intro h
    have hown : ∀ before c after, calls = before ++ c :: after →
        P.dumpToStream (SymbolManager.returned before c) = P.print c.profile c.ps := by
      intro before c after hcalls
      obtain ⟨ps, hps, htext⟩ := hdump before c after hcalls
      obtain ⟨c₀, hc₀, hk, rfl⟩ := SymbolManager.exists_of_firstState hps
      have hc : c ∈ calls := by simp [hcalls]
      rw [htext, ← h.alike c₀ hc₀ c hc hk, hk]
    refine ⟨fun before c after hcalls => (logsOwn_iff P c _).mpr (hown before c after hcalls), ?_⟩
    intro before c after before' c' after' hcalls hcalls' hstmt hvalues
    rw [hown before c after hcalls, hown before' c' after' hcalls']
    exact h.apart c (by simp [hcalls]) c' (by simp [hcalls']) hstmt hvalues

/-- The call `g(x)`, in states that are the values of `x`. -/
def callOfX : Program Unit Unit ℕ where
  callee _ := .implicitCast (.declRef (.function ⟨.identifier "g"⟩))
  args _ := [.other 0]
  getSVal _ x
    | .other _ => .other (toString x)
    | _ => .unknown
  visitOther _ x _ := toString x

/-- Two paths reach `g(x)`, with 1 and 2 as the values of `x`. -/
def twoPaths : List (Conjuring Unit Unit Unit Unit ℕ) := [⟨⟨(), (), (), 1, ()⟩, 1⟩, ⟨⟨(), (), (), 1, ()⟩, 2⟩]

/-- The second path logs `g(1)`. -/
theorem secondPath_logs_first : ¬ ∀ (P : Program Unit Unit ℕ) (calls : List (Conjuring Unit Unit Unit Unit ℕ)),
    LogsOwnValues P calls := by
  intro h
  have hdump := ((h callOfX twoPaths).own [⟨⟨(), (), (), 1, ()⟩, 1⟩] ⟨⟨(), (), (), 1, ()⟩, 2⟩ [] rfl).dump
  have hreturned : callOfX.dumpToStream (SymbolManager.returned [⟨⟨(), (), (), 1, ()⟩, 1⟩]
      (⟨⟨(), (), (), 1, ()⟩, 2⟩ : Conjuring Unit Unit Unit Unit ℕ)) = "g(1)" := by decide +kernel
  rw [hreturned] at hdump
  revert hdump
  decide +kernel

end Ento
end Apisan
