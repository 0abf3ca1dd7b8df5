/-
# Symbols

The trees the parser of the analyzer builds (`symbol.py`), with their
`__repr__`. Two symbols are equal for Python (`==`, and as keys of a
dictionary or members of a set) when the hashes of their representations are.

Key definitions: `BinaryOp`, `Symbol`, `Symbol.repr`, `Symbol.key`.
-/
import Apisan.Lib.Python

namespace Apisan

/-- The binary operators of the grammar, by token name. -/
inductive BinaryOp
  | times | divide | mod | plus | minus | rshift | lshift | lt | le | ge | gt | eq | ne | and | or
  | xor | land | lor
  deriving DecidableEq, Repr

/-- The text of the operator's token. -/
def BinaryOp.text : BinaryOp → String
  | times => "*"
  | divide => "/"
  | mod => "%"
  | plus => "+"
  | minus => "-"
  | rshift => ">>"
  | lshift => "<<"
  | lt => "<"
  | le => "<="
  | ge => ">="
  | gt => ">"
  | eq => "=="
  | ne => "!="
  | and => "&"
  | or => "|"
  | xor => "^"
  | land => "&&"
  | lor => "||"

/-- A symbol. The name of a call is the symbol of its callee. -/
inductive Symbol
  | concreteInt (value : ℤ)
  | call (name : Symbol) (args : List Symbol)
  | stringLiteral (string : String)
  | binaryOperator (lhs : Symbol) (op : BinaryOp) (rhs : Symbol)
  | field (base : Symbol) (member : String)
  | array (base : Symbol) (index : Symbol)
  | constraint (symbol : Symbol) (constraints : List (ℤ × ℤ))
  | id (id : String)
  deriving Repr

namespace Symbol

/-- A list of texts as Python prints it. -/
def bracket (texts : List String) : String := "[" ++ String.intercalate ", " texts ++ "]"

/-- A pair of integers as Python prints it. -/
def pairText (p : ℤ × ℤ) : String := "(" ++ toString p.1 ++ ", " ++ toString p.2 ++ ")"

mutual

/-- `__repr__` of the symbol. -/
def repr : Symbol → String
  | concreteInt value => toString value
  | call name args => repr name ++ "(" ++ bracket (reprs args) ++ ")"
  | stringLiteral string => "\"" ++ string ++ "\""
  | binaryOperator lhs op rhs => repr lhs ++ " " ++ op.text ++ " " ++ repr rhs
  | field base member => repr base ++ "->" ++ member
  | array base index => repr base ++ "[" ++ repr index ++ "]"
  | constraint symbol constraints =>
    "Const(" ++ repr symbol ++ ", " ++ bracket (constraints.map pairText) ++ ")"
  | id name => name

/-- `__repr__` of each symbol of a list. -/
def reprs : List Symbol → List String
  | [] => []
  | s :: ss => repr s :: reprs ss

end

/-- `__hash__`: all that `==`, a dictionary and a set see of a symbol. -/
def key [Python.StrHash] (s : Symbol) : ℤ := Python.StrHash.hash (repr s)

/-- The symbols a node of the tree holds (`children`): a call's arguments, but
not its name, and an array's base, but not its index. -/
def children : Symbol → List Symbol
  | call _ args => args
  | binaryOperator lhs _ rhs => [lhs, rhs]
  | field base _ => [base]
  | array base _ => [base]
  | constraint symbol _ => [symbol]
  | _ => []

end Symbol
end Apisan
