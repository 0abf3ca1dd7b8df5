/-
# The grammar

The productions of `sparser.py` with their semantic actions, and the
precedence table. A production has the name of the function whose docstring
declares it (without the `p_`); where a docstring declares several, one
constructor each. The start symbol is the left side of the first production,
`expression`.

Key definitions: `SParser.Production`, `SParser.Production.rhs`,
`SParser.level`, `SParser.act`.
-/
import Apisan.Parse.SLexer

namespace Apisan
namespace SParser

/-- The level of a token in the `precedence` table, lowest first; all levels
are left associative. A token outside the table has level 0. -/
def level : TokenType → ℕ
  | .op .lor => 1
  | .op .land => 2
  | .op .or => 3
  | .op .xor => 4
  | .op .and => 5
  | .op .eq | .op .ne => 6
  | .op .gt | .op .ge | .op .lt | .op .le => 7
  | .op .rshift | .op .lshift => 8
  | .op .plus | .op .minus => 9
  | .op .times | .op .divide | .op .mod => 10
  | _ => 0

inductive Nonterminal
  | expression
  | binaryExpression
  | castExpression
  | unaryExpression
  | postfixExpression
  | primaryExpression
  | concreteIntegerExpression
  | argumentList
  | constraint
  | constraintList
  deriving DecidableEq, Repr

inductive Production
  | expression1
  | binaryExpression1
  | binaryExpression2 (o : BinaryOp)
  | binaryExpression3
  | constraint
  | constraintListAppend
  | constraintListOne
  | castExpression1
  | unaryExpression1
  | unaryExpression2
  | postfixExpression1
  | postfixExpression2
  | postfixExpression3
  | postfixExpression4
  | primaryExpression1
  | primaryExpression2
  | primaryExpression3
  | primaryExpression4
  | concreteIntegerPos
  | concreteIntegerNeg
  | argumentListEmpty
  | argumentListOne
  | argumentListAppend
  deriving DecidableEq, Repr

namespace Production

/-- The left side of a production. -/
def lhs : Production → Nonterminal
  | expression1 | binaryExpression3 => .expression
  | binaryExpression1 | binaryExpression2 _ => .binaryExpression
  | constraint => .constraint
  | constraintListAppend | constraintListOne => .constraintList
  | castExpression1 => .castExpression
  | unaryExpression1 | unaryExpression2 => .unaryExpression
  | postfixExpression1 | postfixExpression2 | postfixExpression3 | postfixExpression4 =>
    .postfixExpression
  | primaryExpression1 | primaryExpression2 | primaryExpression3 | primaryExpression4 =>
    .primaryExpression
  | concreteIntegerPos | concreteIntegerNeg => .concreteIntegerExpression
  | argumentListEmpty | argumentListOne | argumentListAppend => .argumentList

/-- The right side of a production: terminals and nonterminals. -/
def rhs : Production → List (TokenType ⊕ Nonterminal)
  | expression1 => [.inr .binaryExpression]
  | binaryExpression1 => [.inr .castExpression]
  | binaryExpression2 o => [.inr .binaryExpression, .inl (.op o), .inr .binaryExpression]
  | binaryExpression3 =>
    [.inr .expression, .inl .constraintOp, .inl .lbrace, .inr .constraintList, .inl .rbrace]
  | constraint =>
    [.inl .lbracket, .inr .concreteIntegerExpression, .inl .comma,
      .inr .concreteIntegerExpression, .inl .rbracket]
  | constraintListAppend => [.inr .constraintList, .inl .comma, .inr .constraint]
  | constraintListOne => [.inr .constraint]
  | castExpression1 => [.inr .unaryExpression]
  | unaryExpression1 => [.inr .postfixExpression]
  | unaryExpression2 => [.inl (.op .and), .inr .postfixExpression]
  | postfixExpression1 => [.inr .primaryExpression]
  | postfixExpression2 => [.inr .postfixExpression, .inl .arrow, .inl .id]
  | postfixExpression3 =>
    [.inr .postfixExpression, .inl .lbracket, .inr .expression, .inl .rbracket]
  | postfixExpression4 =>
    [.inr .postfixExpression, .inl .lparen, .inr .argumentList, .inl .rparen]
  | primaryExpression1 => [.inl .id]
  | primaryExpression2 => [.inr .concreteIntegerExpression]
  | primaryExpression3 => [.inl .lparen, .inr .expression, .inl .rparen]
  | primaryExpression4 => [.inl .stringLiteral]
  | concreteIntegerPos => [.inl .intConstDec]
  | concreteIntegerNeg => [.inl (.op .minus), .inl .intConstDec]
  | argumentListEmpty => []
  | argumentListOne => [.inr .expression]
  | argumentListAppend => [.inr .argumentList, .inl .comma, .inr .expression]

end Production

/-- What the symbol stack holds: the text of a token, or what a production
made. -/
inductive Val
  | text (s : String)
  | symbol (s : Symbol)
  | int (n : ℤ)
  | constraint (c : ℤ × ℤ)
  | constraints (cs : List (ℤ × ℤ))
  | args (ss : List Symbol)

/-- The semantic action of a production, on the values of its right side. The
last case is for values no production puts there. -/
def act : Production → List Val → Except Python.Error Val
  | .expression1, [.symbol s] => .ok (.symbol s)
  | .binaryExpression1, [.symbol s] => .ok (.symbol s)
  | .binaryExpression2 o, [.symbol l, .text _, .symbol r] => .ok (.symbol (.binaryOperator l o r))
  | .binaryExpression3, [.symbol s, .text _, .text _, .constraints cs, .text _] =>
    .ok (.symbol (.constraint s cs))
  | .constraint, [.text _, .int lo, .text _, .int hi, .text _] => .ok (.constraint (lo, hi))
  | .constraintListAppend, [.constraints cs, .text _, .constraint c] => .ok (.constraints (cs ++ [c]))
  | .constraintListOne, [.constraint c] => .ok (.constraints [c])
  | .castExpression1, [.symbol s] => .ok (.symbol s)
  | .unaryExpression1, [.symbol s] => .ok (.symbol s)
  | .unaryExpression2, [.text _, .symbol s] => .ok (.symbol s)
  | .postfixExpression1, [.symbol s] => .ok (.symbol s)
  | .postfixExpression2, [.symbol s, .text _, .text m] => .ok (.symbol (.field s m))
  | .postfixExpression3, [.symbol s, .text _, .symbol i, .text _] => .ok (.symbol (.array s i))
  | .postfixExpression4, [.symbol s, .text _, .args ss, .text _] => .ok (.symbol (.call s ss))
  | .primaryExpression1, [.text t] => .ok (.symbol (.id t))
  | .primaryExpression2, [.int n] => .ok (.symbol (.concreteInt n))
  | .primaryExpression3, [.text _, .symbol s, .text _] => .ok (.symbol s)
  | .primaryExpression4, [.text t] => .ok (.symbol (.stringLiteral t))
  | .concreteIntegerPos, [.text t] => (Python.int t).map .int
  | .concreteIntegerNeg, [.text _, .text t] => (Python.int t).map fun n => .int (-n)
  | .argumentListEmpty, [] => .ok (.args [])
  | .argumentListOne, [.symbol s] => .ok (.args [s])
  | .argumentListAppend, [.args ss, .text _, .symbol s] => .ok (.args (ss ++ [s]))
  | _, _ => .error .typeError

end SParser
end Apisan
