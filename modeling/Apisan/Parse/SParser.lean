/-
# The parser

`SParser.parse` runs the LALR(1) automaton on the tokens of a text. Every
reduction lowers the weight of the stack (`rank`), so the parse of every text
halts and its fuel is no restriction (`ShiftReduce.parse_total`).

A parse without a text goes on with what the lexer has left of the texts before
(`SParser.Unread`): nothing after a parse that came to the end of its text, but
the tokens behind the constant where `int()` raised.

Key definitions: `SParser.State.completed`, `SParser.rank`, `SParser.parse`,
`SParser.parseSymbol`, `SParser.Unread`, `SParser.parseUnread`.
Key theorems: `SParser.action_reduce`, `SParser.goto_weight`,
`SParser.parse_of_reach`, `SParser.reach_of_parse`,
`SParser.parseUnread_of_ok`.
-/
import Apisan.Parse.Finite

namespace Apisan
namespace SParser

open ShiftReduce Machine

/-! ### The weights of the states -/

/-- The production a state can reduce by: the one of its complete item. -/
def State.completed : State → Option Production
  | binary => some .expression1
  | cast => some .binaryExpression1
  | unary => some .castExpression1
  | post => some .unaryExpression1
  | ampPost => some .unaryExpression2
  | primary => some .postfixExpression1
  | ident => some .primaryExpression1
  | integer => some .primaryExpression2
  | string => some .primaryExpression4
  | intConst => some .concreteIntegerPos
  | negConst => some .concreteIntegerNeg
  | parenClose => some .primaryExpression3
  | opRhs o => some (.binaryExpression2 o)
  | arrowId => some .postfixExpression2
  | indexClose => some .postfixExpression3
  | call => some .argumentListEmpty
  | callClose => some .postfixExpression4
  | argOne => some .argumentListOne
  | argNext => some .argumentListAppend
  | condClose => some .binaryExpression3
  | rangeOne => some .constraintListOne
  | rangeNext => some .constraintListAppend
  | rangeClose => some .constraint
  | _ => none

theorem shiftPostfix_ne_reduce (la : Option TokenType) (p : Production) :
    shiftPostfix la ≠ .reduce p := by
  unfold shiftPostfix
  split <;> simp

theorem shiftOperand_ne_reduce (la : Option TokenType) (p : Production) :
    shiftOperand la ≠ .reduce p := by
  unfold shiftOperand
  split
  · simp
  · exact shiftPostfix_ne_reduce la p

theorem shiftCond_ne_reduce (la : Option TokenType) (p : Production) : shiftCond la ≠ .reduce p := by
  unfold shiftCond
  split <;> simp

theorem shiftSuffix_ne_reduce (la : Option TokenType) (p : Production) :
    shiftSuffix la ≠ .reduce p := by
  unfold shiftSuffix
  split <;> simp

theorem shiftOnly_ne_reduce (t : TokenType) (s : State) (la : Option TokenType) (p : Production) :
    shiftOnly t s la ≠ .reduce p := by
  unfold shiftOnly
  split <;> simp

theorem reduceOn_eq_reduce {q p : Production} {follow : Option TokenType → Bool}
    {la : Option TokenType} {other : Action State Production} (hother : other ≠ .reduce p)
    (h : reduceOn q follow la other = .reduce p) : some q = some p := by
  unfold reduceOn at h
  split_ifs at h
  · cases h; rfl
  · exact absurd h hother

/-- A state reduces by its complete item only. -/
theorem action_reduce {s : State} {la : Option TokenType} {p : Production}
    (h : action s la = .reduce p) : s.completed = some p := by
  cases s
  case start | paren | index | argComma | op => exact absurd h (shiftOperand_ne_reduce la p)
  case amp => exact absurd h (shiftPostfix_ne_reduce la p)
  case neg | arrow | cond | condOpen | rangeComma | rangeLo | rangeHi =>
    exact absurd h (shiftOnly_ne_reduce _ _ la p)
  case done | parenExpr | indexExpr =>
    simp only [action] at h
    split_ifs at h
    exact absurd h (shiftCond_ne_reduce la p)
  case callArgs | condList | rangeOpen | rangeSep =>
    simp only [action] at h
    split at h <;> cases h
  case call => exact reduceOn_eq_reduce (shiftOperand_ne_reduce la p) h
  case post | ampPost => exact reduceOn_eq_reduce (shiftSuffix_ne_reduce la p) h
  case argOne | argNext => exact reduceOn_eq_reduce (shiftCond_ne_reduce la p) h
  case binary =>
    simp only [action] at h
    split at h
    · cases h
    · exact reduceOn_eq_reduce (by simp) h
  case opRhs o =>
    simp only [action, actionRhs] at h
    split at h
    · split_ifs at h
      cases h; rfl
    · exact reduceOn_eq_reduce (by simp) h
  all_goals exact reduceOn_eq_reduce (by simp) h

/-- The weight of a state. -/
def State.weight : State → ℕ
  | done | parenExpr | indexExpr | argOne | argNext | condList => 3
  | binary | opRhs _ => 4
  | cast | rangeOne | rangeNext => 5
  | unary => 6
  | post | ampPost => 7
  | primary => 8
  | integer | ident | string => 9
  | intConst | negConst | parenClose | arrowId | indexClose | callClose | condClose
  | rangeClose => 10
  | callArgs => 2
  | _ => 1

/-- A call's parenthesis pays for the empty argument list. -/
def State.bonus : State → ℕ
  | call => 3
  | _ => 0

/-- The weight of the states a nonterminal leads to. -/
def Nonterminal.weight : Nonterminal → ℕ
  | expression | constraintList => 3
  | binaryExpression => 4
  | castExpression | constraint => 5
  | unaryExpression => 6
  | postfixExpression => 7
  | primaryExpression => 8
  | concreteIntegerExpression => 9
  | argumentList => 2

theorem goto_weight {s g : State} {n : Nonterminal} (h : goto s n = some g) :
    g.weight + g.bonus ≤ n.weight := by
  cases n <;> simp only [goto] at h <;> split at h <;> (try split_ifs at h) <;> cases h <;>
    simp [State.weight, State.bonus, Nonterminal.weight]

theorem State.weight_le (s : State) : s.weight + s.bonus ≤ 10 := by
  cases s <;> simp [State.weight, State.bonus]

theorem completed_weight {s : State} {p : Production} (h : s.completed = some p) :
    (p.rhs ≠ [] → p.lhs.weight + 1 < s.weight + s.bonus + p.rhs.length) ∧
      (p.rhs = [] → p.lhs.weight < s.bonus) := by
  cases s <;> cases h <;>
    simp [State.weight, State.bonus, Nonterminal.weight, Production.lhs, Production.rhs]

/-- Every reduction lowers the weight of the stack. -/
def rank : Rank tables where
  weight := State.weight
  bonus := State.bonus
  token := 11
  weight_pos s := by cases s <;> simp [State.weight]
  start_lt := by decide
  shift_lt _ _ s' _ := by
    have := State.weight_le s'
    omega
  reduce_lt _ _ p _ _ hact hgoto hlen := by
    have h1 := (completed_weight (action_reduce hact)).1 fun h => hlen (List.length_eq_zero_iff.mpr h)
    have h2 := goto_weight hgoto
    simp only [tables] at h2 ⊢
    omega
  empty_lt _ _ p _ hact hgoto hlen := by
    have h1 := (completed_weight (action_reduce hact)).2 (List.length_eq_zero_iff.mp hlen)
    have h2 := goto_weight hgoto
    simp only [tables] at h2
    omega

/-! ### The parser -/

/-- The tokens as the symbol stack takes them. -/
def symbols (ts : List LexToken) : List (TokenType × Val) := ts.map fun t => (t.type, .text t.value)

/-- The symbol a parse returns, or what it raises. -/
def result : Outcome Python.Error Val → Except Python.Error (Option Symbol)
  | .value (some (.symbol s)) => .ok (some s)
  | .value _ => .ok none
  | .raised e => .error e
  | .stuck => .error .keyError

/-- `SParser.parse`: the symbol of a text, or none after a syntax error at its
end. -/
def parse (text : String) : Except Python.Error (Option Symbol) :=
  let l := SLexer.lex text
  result (ShiftReduce.parse act l.eof rank (symbols l.tokens))

/-- `Event._parse_symbol`: an exception of the parser counts as no symbol. -/
def parseSymbol (text : String) : Option Symbol :=
  match parse text with
  | .ok s => s
  | .error _ => none

/-! ### What the lexer has left -/

/-- What the lexer has left: the tokens to come, as the symbol stack takes them,
and what it raises after them. -/
structure Unread where
  tokens : List (TokenType × Val)
  eof : Option Python.Error

namespace Unread

/-- A lexer at the end of its text, or before its first one. -/
def empty : Unread := ⟨[], none⟩

/-- The lexer at the start of a text. -/
def ofText (text : String) : Unread :=
  let l := SLexer.lex text
  ⟨symbols l.tokens, l.eof⟩

end Unread

/-- The parse of what the lexer has left, and what is left after it. The lexer
stays at a character it has no token for, and raises again. -/
def parseUnread (l : Unread) : Except Python.Error (Option Symbol) × Unread :=
  (result (ShiftReduce.parse act l.eof rank l.tokens),
    ⟨ShiftReduce.unread act l.eof rank l.tokens, l.eof⟩)

theorem parseUnread_ofText (text : String) : (parseUnread (.ofText text)).1 = parse text := rfl

/-- **A parse that returns** has read its text to the end. -/
theorem parseUnread_of_ok {l : Unread} {s : Option Symbol} (h : (parseUnread l).1 = .ok s) :
    (parseUnread l).2 = .empty := by
  obtain ⟨tokens, eof⟩ := l
  obtain ⟨c, hreach, hhalt⟩ := ShiftReduce.reach_of_parse act eof rank tokens
  have hunread := ShiftReduce.unread_of_reach rank hreach hhalt
  simp only [parseUnread, Unread.empty, Unread.mk.injEq] at h ⊢
  rw [hunread]
  cases hparse : ShiftReduce.parse act eof rank tokens with
  | raised e =>
    rw [hparse] at h
    cases h
  | stuck =>
    rw [hparse] at h
    cases h
  | value w =>
    rw [hparse] at hhalt
    obtain ⟨hseen, hend⟩ := halt_value hhalt
    have hinput : c.input = [] := by
      rcases hend with ⟨haccept, -⟩ | ⟨hnil, -, -⟩
      · simpa using (action_accept _ _ haccept).2
      · exact hnil
    exact ⟨by rw [hinput]; rfl, hseen.resolve_left fun hne => hne hinput⟩

/-! ### The runs of the parser -/

/-- The steps of the parser on a text that lexes to its end. -/
abbrev Steps : ShiftReduce.Config State TokenType Val → ShiftReduce.Config State TokenType Val → Prop :=
  Reach (step tables act (none : Option Python.Error))

/-- A run of the automaton to its accepting state is what the parser returns. -/
theorem parse_of_reach {text : String} {ts : List LexToken} {st : List (State × Val)} {s : Symbol}
    (hlex : SLexer.lex text = ⟨ts, none⟩)
    (h : Steps ⟨[], symbols ts⟩ ⟨(.done, .symbol s) :: st, []⟩) : parse text = .ok (some s) := by
  unfold parse
  rw [hlex]
  simp only
  rw [ShiftReduce.parse_of_reach rank h (halt_accept rfl)]
  rfl

/-- **A text that does not lex to its end** has no symbol, and is not turned down
either. -/
theorem parse_illegal {text : String} {ts : List LexToken} {e : Python.Error} (hlex : SLexer.lex text = ⟨ts, some e⟩)
    (s : Option Symbol) : parse text ≠ .ok s := by
  have hvalue : ∀ w, ShiftReduce.parse act (some e) rank (symbols ts) ≠ .value w := by
    intro w hparse
    obtain ⟨c, -, hhalt⟩ := ShiftReduce.reach_of_parse act (some e) rank (symbols ts)
    rw [hparse] at hhalt
    obtain ⟨hseen, hend⟩ := halt_value hhalt
    have hinput : c.input ≠ [] := hseen.resolve_right nofun
    rcases hend with ⟨haccept, -⟩ | ⟨hnil, -, -⟩
    · exact hinput (by simpa using (action_accept _ _ haccept).2)
    · exact hinput hnil
  unfold parse
  rw [hlex]
  intro h
  simp only at h
  cases hparse : ShiftReduce.parse act (some e) rank (symbols ts) with
  | value w => exact hvalue w hparse
  | raised e' =>
    rw [hparse] at h
    cases h
  | stuck =>
    rw [hparse] at h
    cases h

/-- The accepting state stands on the start state only. -/
theorem linked_done {eof : Option Python.Error} {inp : List (TokenType × Val)}
    {c : ShiftReduce.Config State TokenType Val} (h : Reach (step tables act eof) ⟨[], inp⟩ c) :
    Linked tables (fun s x => x.1 = .done → s = .start) c.stack := by
  refine (linked_reach (I := fun _ => True) ?_ ?_ (fun _ _ => trivial) h).1
  · rintro s t v s' - hact rfl
    exact absurd hact (shift_ne_done s (some t))
  · rintro p s v fr st la - - - - hgoto rfl
    exact goto_done _ _ hgoto

/-- **A parse that returns a symbol** ran to the accepting state on a text that
lexes to its end. -/
theorem reach_of_parse {text : String} {s : Symbol} (h : parse text = .ok (some s)) :
    ∃ ts st, SLexer.lex text = ⟨ts, none⟩ ∧ top tables st = .start ∧
      Steps ⟨[], symbols ts⟩ ⟨(.done, .symbol s) :: st, []⟩ := by
  unfold parse at h
  generalize SLexer.lex text = l at h ⊢
  obtain ⟨ts, eof⟩ := l
  simp only at h
  obtain ⟨⟨stack, inp⟩, hreach, hhalt⟩ := ShiftReduce.reach_of_parse act eof rank (symbols ts)
  cases hparse : ShiftReduce.parse act eof rank (symbols ts) with
  | raised e =>
    rw [hparse] at h
    cases h
  | stuck =>
    rw [hparse] at h
    cases h
  | value w =>
    rw [hparse] at h hhalt
    obtain ⟨hseen, ⟨haccept, hw⟩ | ⟨-, -, rfl⟩⟩ := halt_value hhalt
    · obtain ⟨htop, hla⟩ := action_accept _ _ haccept
      obtain rfl : inp = [] := by simpa using hla
      obtain rfl : eof = none := hseen.resolve_left fun hne => hne rfl
      cases stack with
      | nil => cases htop
      | cons x st =>
        obtain ⟨q, v⟩ := x
        obtain rfl : q = .done := htop
        obtain rfl : w = some v := hw
        have hlinked := linked_done hreach
        cases v with
        | symbol s' =>
          obtain rfl : s' = s := by simpa [result] using h
          exact ⟨ts, st, rfl, hlinked.1 rfl, hreach⟩
        | _ => cases h
    · cases h

end SParser
end Apisan
