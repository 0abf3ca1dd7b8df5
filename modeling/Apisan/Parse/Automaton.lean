/-
# The LALR(1) automaton

The automaton of the grammar, as PLY builds it. A state is named by its
kernel items, given beside it; the 18 binary operators share the two states
`op` and `opRhs`, so the 43 constructors are 77 states. The only conflicts of
the grammar are the ones between the binary operators (`opRhs`), resolved by
the precedence table: reduce if the token's level is at most the production's.
The lookaheads of every other reduction are the tokens that may follow its
left side. No state reduces on a single lookahead, so PLY has no defaulted
states.

Key definitions: `SParser.State`, `SParser.tables`, `SParser.rank`.
-/
import Apisan.Lib.ShiftReduce
import Apisan.Parse.Grammar

namespace Apisan
namespace SParser

open ShiftReduce

inductive State
  /-- `S' → . expression` -/
  | start
  /-- `S' → expression .` and `expression → expression . @= ..` -/
  | done
  /-- `expression → binary .` and `binary → binary . OP binary` -/
  | binary
  /-- `binary → cast .` -/
  | cast
  /-- `cast → unary .` -/
  | unary
  /-- `unary → postfix .` and `postfix → postfix . ..` -/
  | post
  /-- `unary → & . postfix` -/
  | amp
  /-- `unary → & postfix .` and `postfix → postfix . ..` -/
  | ampPost
  /-- `postfix → primary .` -/
  | primary
  /-- `primary → ID .` -/
  | ident
  /-- `primary → integer .` -/
  | integer
  /-- `primary → STRING .` -/
  | string
  /-- `integer → INT .` -/
  | intConst
  /-- `integer → - . INT` -/
  | neg
  /-- `integer → - INT .` -/
  | negConst
  /-- `primary → ( . expression )` -/
  | paren
  /-- `primary → ( expression . )` and `expression → expression . @= ..` -/
  | parenExpr
  /-- `primary → ( expression ) .` -/
  | parenClose
  /-- `binary → binary OP . binary` -/
  | op (o : BinaryOp)
  /-- `binary → binary OP binary .` and `binary → binary . OP' binary` -/
  | opRhs (o : BinaryOp)
  /-- `postfix → postfix -> . ID` -/
  | arrow
  /-- `postfix → postfix -> ID .` -/
  | arrowId
  /-- `postfix → postfix [ . expression ]` -/
  | index
  /-- `postfix → postfix [ expression . ]` and `expression → expression . @= ..` -/
  | indexExpr
  /-- `postfix → postfix [ expression ] .` -/
  | indexClose
  /-- `postfix → postfix ( . args )` -/
  | call
  /-- `postfix → postfix ( args . )` and `args → args . , expression` -/
  | callArgs
  /-- `postfix → postfix ( args ) .` -/
  | callClose
  /-- `args → expression .` and `expression → expression . @= ..` -/
  | argOne
  /-- `args → args , . expression` -/
  | argComma
  /-- `args → args , expression .` and `expression → expression . @= ..` -/
  | argNext
  /-- `expression → expression @= . { list }` -/
  | cond
  /-- `expression → expression @= { . list }` -/
  | condOpen
  /-- `expression → expression @= { list . }` and `list → list . , constraint` -/
  | condList
  /-- `expression → expression @= { list } .` -/
  | condClose
  /-- `list → constraint .` -/
  | rangeOne
  /-- `list → list , . constraint` -/
  | rangeComma
  /-- `list → list , constraint .` -/
  | rangeNext
  /-- `constraint → [ . integer , integer ]` -/
  | rangeOpen
  /-- `constraint → [ integer . , integer ]` -/
  | rangeLo
  /-- `constraint → [ integer , . integer ]` -/
  | rangeSep
  /-- `constraint → [ integer , integer . ]` -/
  | rangeHi
  /-- `constraint → [ integer , integer ] .` -/
  | rangeClose
  deriving DecidableEq, Repr

/-- The tokens that may follow `expression`. -/
def followExpression : Option TokenType → Bool
  | none | some .comma | some .constraintOp | some .rbracket | some .rparen => true
  | _ => false

/-- The tokens that may follow `binary_expression`, and so `cast_expression`
and `unary_expression`. -/
def followBinary : Option TokenType → Bool
  | some (.op _) => true
  | la => followExpression la

/-- The tokens that may follow `postfix_expression`, and so
`primary_expression` and `concrete_integer_expression`. -/
def followPostfix : Option TokenType → Bool
  | some .arrow | some .lbracket | some .lparen => true
  | la => followBinary la

/-- The shifts of a state that awaits `postfix_expression`. -/
def shiftPostfix : Option TokenType → Action State Production
  | some .id => .shift .ident
  | some .intConstDec => .shift .intConst
  | some (.op .minus) => .shift .neg
  | some .lparen => .shift .paren
  | some .stringLiteral => .shift .string
  | _ => .error

/-- The shifts of a state that awaits `binary_expression`. -/
def shiftOperand : Option TokenType → Action State Production
  | some (.op .and) => .shift .amp
  | la => shiftPostfix la

/-- Reduce by `p` on the tokens of `follow`, else what `other` says. -/
def reduceOn (p : Production) (follow : Option TokenType → Bool) (la : Option TokenType)
    (other : Action State Production) : Action State Production :=
  if follow la then .reduce p else other

/-- The shift of `@=` after an expression. -/
def shiftCond : Option TokenType → Action State Production
  | some .constraintOp => .shift .cond
  | _ => .error

/-- The shifts after a postfix expression. -/
def shiftSuffix : Option TokenType → Action State Production
  | some .arrow => .shift .arrow
  | some .lbracket => .shift .index
  | some .lparen => .shift .call
  | _ => .error

/-- A state with one shift. -/
def shiftOnly (t : TokenType) (s : State) (la : Option TokenType) : Action State Production :=
  if la = some t then .shift s else .error

/-- The tokens that end or go on with a list: a comma and the closing token. -/
def followList (close : TokenType) (la : Option TokenType) : Bool :=
  la == some .comma || la == some close

/-- The actions after a complete binary expression with operator `o`: on an
operator the precedence table decides. -/
def actionRhs (o : BinaryOp) : Option TokenType → Action State Production
  | some (.op o') =>
    if level (.op o') ≤ level (.op o) then .reduce (.binaryExpression2 o) else .shift (.op o')
  | la => reduceOn (.binaryExpression2 o) followExpression la .error

/-- The action table. -/
def action (s : State) (la : Option TokenType) : Action State Production :=
  match s with
  | .start | .paren | .index | .argComma | .op _ => shiftOperand la
  | .call => reduceOn .argumentListEmpty (followList .rparen) la (shiftOperand la)
  | .amp => shiftPostfix la
  | .done => if la = none then .accept else shiftCond la
  | .binary =>
    match la with
    | some (.op o) => .shift (.op o)
    | _ => reduceOn .expression1 followExpression la .error
  | .cast => reduceOn .binaryExpression1 followBinary la .error
  | .unary => reduceOn .castExpression1 followBinary la .error
  | .post => reduceOn .unaryExpression1 followBinary la (shiftSuffix la)
  | .ampPost => reduceOn .unaryExpression2 followBinary la (shiftSuffix la)
  | .primary => reduceOn .postfixExpression1 followPostfix la .error
  | .ident => reduceOn .primaryExpression1 followPostfix la .error
  | .integer => reduceOn .primaryExpression2 followPostfix la .error
  | .string => reduceOn .primaryExpression4 followPostfix la .error
  | .intConst => reduceOn .concreteIntegerPos followPostfix la .error
  | .neg => shiftOnly .intConstDec .negConst la
  | .negConst => reduceOn .concreteIntegerNeg followPostfix la .error
  | .parenExpr => if la = some .rparen then .shift .parenClose else shiftCond la
  | .parenClose => reduceOn .primaryExpression3 followPostfix la .error
  | .opRhs o => actionRhs o la
  | .arrow => shiftOnly .id .arrowId la
  | .arrowId => reduceOn .postfixExpression2 followPostfix la .error
  | .indexExpr => if la = some .rbracket then .shift .indexClose else shiftCond la
  | .indexClose => reduceOn .postfixExpression3 followPostfix la .error
  | .callArgs =>
    match la with
    | some .comma => .shift .argComma
    | some .rparen => .shift .callClose
    | _ => .error
  | .callClose => reduceOn .postfixExpression4 followPostfix la .error
  | .argOne => reduceOn .argumentListOne (followList .rparen) la (shiftCond la)
  | .argNext => reduceOn .argumentListAppend (followList .rparen) la (shiftCond la)
  | .cond => shiftOnly .lbrace .condOpen la
  | .condOpen | .rangeComma => shiftOnly .lbracket .rangeOpen la
  | .condList =>
    match la with
    | some .comma => .shift .rangeComma
    | some .rbrace => .shift .condClose
    | _ => .error
  | .condClose => reduceOn .binaryExpression3 followExpression la .error
  | .rangeOne => reduceOn .constraintListOne (followList .rbrace) la .error
  | .rangeNext => reduceOn .constraintListAppend (followList .rbrace) la .error
  | .rangeOpen | .rangeSep =>
    match la with
    | some .intConstDec => .shift .intConst
    | some (.op .minus) => .shift .neg
    | _ => .error
  | .rangeLo => shiftOnly .comma .rangeSep la
  | .rangeHi => shiftOnly .rbracket .rangeClose la
  | .rangeClose => reduceOn .constraint (followList .rbrace) la .error

/-- The states that await an operand of a binary expression. -/
def State.operand : State → Bool
  | start | paren | index | argComma | call | op _ => true
  | _ => false

/-- The goto table. -/
def goto (s : State) : Nonterminal → Option State
  | .expression =>
    match s with
    | .start => some .done
    | .paren => some .parenExpr
    | .index => some .indexExpr
    | .call => some .argOne
    | .argComma => some .argNext
    | _ => none
  | .binaryExpression =>
    match s with
    | .op o => some (.opRhs o)
    | _ => if s.operand then some .binary else none
  | .castExpression => if s.operand then some .cast else none
  | .unaryExpression => if s.operand then some .unary else none
  | .postfixExpression =>
    if s.operand then some .post else if s = .amp then some .ampPost else none
  | .primaryExpression => if s.operand ∨ s = .amp then some .primary else none
  | .concreteIntegerExpression =>
    match s with
    | .rangeOpen => some .rangeLo
    | .rangeSep => some .rangeHi
    | _ => if s.operand ∨ s = .amp then some .integer else none
  | .argumentList => if s = .call then some .callArgs else none
  | .constraint =>
    match s with
    | .condOpen => some .rangeOne
    | .rangeComma => some .rangeNext
    | _ => none
  | .constraintList => if s = .condOpen then some .condList else none

def tables : Tables State TokenType Nonterminal Production where
  start := .start
  action := action
  goto := goto
  lhs := Production.lhs
  length p := p.rhs.length

end SParser
end Apisan
