/-
# The tables are finite

The operators, token types, nonterminals, productions and states as finite
types: a fact about every entry of the tables is decided by going through
them.

Key definitions: the `Fintype` instances.
-/
import Mathlib.Data.Fintype.Option
import Apisan.Parse.Automaton

namespace Apisan

def BinaryOp.all : List BinaryOp :=
  [.times, .divide, .mod, .plus, .minus, .rshift, .lshift, .lt, .le, .ge, .gt, .eq, .ne, .and, .or, .xor,
    .land, .lor]

theorem BinaryOp.mem_all (o : BinaryOp) : o ∈ BinaryOp.all := by cases o <;> decide

theorem BinaryOp.mem_map_all {α : Type} {f : BinaryOp → α} (o : BinaryOp) : f o ∈ BinaryOp.all.map f :=
  List.mem_map_of_mem o.mem_all

instance : Fintype BinaryOp := ⟨⟨BinaryOp.all, by decide +kernel⟩, BinaryOp.mem_all⟩

/-- The token types that are no operators. -/
def TokenType.others : List TokenType :=
  [.id, .not, .lnot, .lparen, .rparen, .lbracket, .rbracket, .lbrace, .rbrace, .colon, .comma, .intConstDec,
    .stringLiteral, .arrow, .constraintOp]

instance : Fintype TokenType where
  elems := ⟨↑(TokenType.others ++ BinaryOp.all.map TokenType.op), by decide +kernel⟩
  complete t := by
    show t ∈ TokenType.others ++ BinaryOp.all.map TokenType.op
    cases t with
    | op o => exact List.mem_append_right _ o.mem_map_all
    | _ => exact List.mem_append_left _ (by decide)

namespace SParser

/-- The states that wait for no operator's right side. -/
def State.others : List State :=
  [.start, .done, .binary, .cast, .unary, .post, .amp, .ampPost, .primary, .ident, .integer, .string,
    .intConst, .neg, .negConst, .paren, .parenExpr, .parenClose, .arrow, .arrowId, .index, .indexExpr,
    .indexClose, .call, .callArgs, .callClose, .argOne, .argComma, .argNext, .cond, .condOpen, .condList,
    .condClose, .rangeOne, .rangeComma, .rangeNext, .rangeOpen, .rangeLo, .rangeSep, .rangeHi, .rangeClose]

instance : Fintype State where
  elems := ⟨↑(State.others ++ (BinaryOp.all.map State.op ++ BinaryOp.all.map State.opRhs)), by decide +kernel⟩
  complete s := by
    show s ∈ State.others ++ (BinaryOp.all.map State.op ++ BinaryOp.all.map State.opRhs)
    cases s with
    | op o => exact List.mem_append_right _ (List.mem_append_left _ o.mem_map_all)
    | opRhs o => exact List.mem_append_right _ (List.mem_append_right _ o.mem_map_all)
    | _ => exact List.mem_append_left _ (by decide)

def Nonterminal.all : List Nonterminal :=
  [.expression, .binaryExpression, .castExpression, .unaryExpression, .postfixExpression,
    .primaryExpression, .concreteIntegerExpression, .argumentList, .constraint, .constraintList]

instance : Fintype Nonterminal where
  elems := ⟨↑Nonterminal.all, by decide +kernel⟩
  complete n := by
    show n ∈ Nonterminal.all
    cases n <;> decide

/-- The productions without an operator. -/
def Production.others : List Production :=
  [.expression1, .binaryExpression1, .binaryExpression3, .constraint, .constraintListAppend,
    .constraintListOne, .castExpression1, .unaryExpression1, .unaryExpression2, .postfixExpression1,
    .postfixExpression2, .postfixExpression3, .postfixExpression4, .primaryExpression1, .primaryExpression2,
    .primaryExpression3, .primaryExpression4, .concreteIntegerPos, .concreteIntegerNeg, .argumentListEmpty,
    .argumentListOne, .argumentListAppend]

instance : Fintype Production where
  elems := ⟨↑(Production.others ++ BinaryOp.all.map Production.binaryExpression2), by decide +kernel⟩
  complete p := by
    show p ∈ Production.others ++ BinaryOp.all.map Production.binaryExpression2
    cases p with
    | binaryExpression2 o => exact List.mem_append_right _ o.mem_map_all
    | _ => exact List.mem_append_left _ (by decide)

/-! ### The accepting state -/

/-- What is checked of every entry. -/
theorem entries_checked : ∀ s : State,
    (∀ la : Option TokenType, (action s la = .accept → s = .done ∧ la = none) ∧ action s la ≠ .shift .done) ∧
      (∀ n : Nonterminal, goto s n = some .done → s = .start) ∧
        (action s none).production.all (fun p =>
          decide (∀ la : Option TokenType, followExpression la = true → action s la = .reduce p)) = true := by
  decide +kernel

theorem action_accept (s : State) (la : Option TokenType) (h : action s la = .accept) : s = .done ∧ la = none :=
  ((entries_checked s).1 la).1 h

theorem shift_ne_done (s : State) (la : Option TokenType) : action s la ≠ .shift .done :=
  ((entries_checked s).1 la).2

theorem goto_done (s : State) (n : Nonterminal) (h : goto s n = some .done) : s = .start :=
  (entries_checked s).2.1 n h

/-- Where the end of the text is reduced on, so is all that follows an expression. -/
theorem action_follow {la : Option TokenType} (hla : followExpression la = true) (s : State) (p : Production)
    (h : action s none = .reduce p) : action s la = .reduce p := by
  have hall := ShiftReduce.Action.production_all (entries_checked s).2.2 h
  exact of_decide_eq_true hall la hla

end SParser
end Apisan
