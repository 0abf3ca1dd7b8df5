/-
# The lexer

The token rules of `slexer.py`, tried at a position in the order PLY gives
them: first the rules written as functions (`t_ID`, `t_INT_CONST_DEC`), then
the ones written as strings by decreasing length of the regular expression, so
that a string literal comes first and an operator of two characters before its
one-character prefixes. Blanks and tabs are skipped. Where no rule matches,
`t_error` skips nothing and PLY raises `LexError`.

A lexed text is its tokens up to the first illegal character, and what asking
for the next token then does (`Lexed.eof`): PLY reads tokens one by one, so the
exception comes after the parser has consumed all of them.

Key definitions: `TokenType`, `LexToken`, `SLexer.token`, `SLexer.lex`.
Key theorems: `SLexer.token_append`, `SLexer.lexChars_token`.
-/
import Apisan.Parse.Symbol

namespace Apisan

/-- The token types. The binary operators are one constructor. -/
inductive TokenType
  | id
  | op (o : BinaryOp)
  | not
  | lnot
  | lparen
  | rparen
  | lbracket
  | rbracket
  | lbrace
  | rbrace
  | colon
  | comma
  | intConstDec
  | stringLiteral
  | arrow
  | constraintOp
  deriving DecidableEq, Repr

/-- A token: its type and its text (`t.value`). -/
structure LexToken where
  type : TokenType
  value : String
  deriving DecidableEq, Repr

namespace SLexer

/-- `[a-zA-Z_$]` -/
def identifierStart (c : Char) : Bool := c.isAlpha || c == '_' || c == '$'

/-- `[0-9a-zA-Z_$]` -/
def identifierPart (c : Char) : Bool := c.isDigit || identifierStart c

/-- What the lexer skips (`t_ignore`). -/
def ignored (c : Char) : Bool := c == ' ' || c == '\t'

/-- `integer_suffix_opt` at the front of a text: the first alternative that
matches, and the rest. -/
def integerSuffix : List Char → List Char × List Char
  | 'u' :: 'l' :: 'l' :: cs => (['u', 'l', 'l'], cs)
  | 'U' :: 'l' :: 'l' :: cs => (['U', 'l', 'l'], cs)
  | 'u' :: 'L' :: 'L' :: cs => (['u', 'L', 'L'], cs)
  | 'U' :: 'L' :: 'L' :: cs => (['U', 'L', 'L'], cs)
  | 'l' :: 'l' :: 'u' :: cs => (['l', 'l', 'u'], cs)
  | 'l' :: 'l' :: 'U' :: cs => (['l', 'l', 'U'], cs)
  | 'l' :: 'l' :: cs => (['l', 'l'], cs)
  | 'L' :: 'L' :: 'u' :: cs => (['L', 'L', 'u'], cs)
  | 'L' :: 'L' :: 'U' :: cs => (['L', 'L', 'U'], cs)
  | 'L' :: 'L' :: cs => (['L', 'L'], cs)
  | 'u' :: 'l' :: cs => (['u', 'l'], cs)
  | 'u' :: 'L' :: cs => (['u', 'L'], cs)
  | 'U' :: 'l' :: cs => (['U', 'l'], cs)
  | 'U' :: 'L' :: cs => (['U', 'L'], cs)
  | 'l' :: 'u' :: cs => (['l', 'u'], cs)
  | 'l' :: 'U' :: cs => (['l', 'U'], cs)
  | 'L' :: 'u' :: cs => (['L', 'u'], cs)
  | 'L' :: 'U' :: cs => (['L', 'U'], cs)
  | 'l' :: cs => (['l'], cs)
  | 'L' :: cs => (['L'], cs)
  | 'u' :: cs => (['u'], cs)
  | 'U' :: cs => (['U'], cs)
  | cs => ([], cs)

/-- The characters that may follow a backslash in a string literal:
`simple_escape`, or the first digit of `decimal_escape` (whose further digits,
like those of `hex_escape`, are ordinary characters as well). -/
def escapable (c : Char) : Bool :=
  c.isAlpha || "._~!=&^-\\?'\"".toList.contains c || Python.isDecimal c

/-- The part of a string literal after its opening quote, closing quote
included, and the rest of the text. -/
def stringBody : List Char → Option (List Char × List Char)
  | [] => none
  | c :: cs =>
    if c = '"' then some ([c], cs)
    else if c = '\n' then none
    else if c = '\\' then
      match cs with
      | [] => none
      | d :: ds =>
        if escapable d then (stringBody ds).map fun (b, r) => (c :: d :: b, r) else none
    else (stringBody cs).map fun (b, r) => (c :: b, r)

/-- The rules of two characters. -/
def twoChars : Char → Char → Option TokenType
  | '|', '|' => some (.op .lor)
  | '&', '&' => some (.op .land)
  | '<', '<' => some (.op .lshift)
  | '>', '>' => some (.op .rshift)
  | '<', '=' => some (.op .le)
  | '>', '=' => some (.op .ge)
  | '=', '=' => some (.op .eq)
  | '!', '=' => some (.op .ne)
  | '-', '>' => some .arrow
  | '@', '=' => some .constraintOp
  | _, _ => none

/-- The rules of one character. -/
def oneChar : Char → Option TokenType
  | '+' => some (.op .plus)
  | '-' => some (.op .minus)
  | '*' => some (.op .times)
  | '/' => some (.op .divide)
  | '%' => some (.op .mod)
  | '|' => some (.op .or)
  | '&' => some (.op .and)
  | '~' => some .not
  | '^' => some (.op .xor)
  | '!' => some .lnot
  | '<' => some (.op .lt)
  | '>' => some (.op .gt)
  | ':' => some .colon
  | '(' => some .lparen
  | ')' => some .rparen
  | '[' => some .lbracket
  | ']' => some .rbracket
  | '{' => some .lbrace
  | '}' => some .rbrace
  | ',' => some .comma
  | _ => none

/-- The rules of the operators and delimiters. -/
def symbolToken : List Char → Option (TokenType × List Char × List Char)
  | [] => none
  | [c] => (oneChar c).map fun type => (type, [c], [])
  | c :: d :: cs =>
    match twoChars c d with
    | some type => some (type, [c, d], cs)
    | none => (oneChar c).map fun type => (type, [c], d :: cs)

/-- The token at the front of a text without leading blanks: its type, its
characters and the rest of the text. -/
def token (cs : List Char) : Option (TokenType × List Char × List Char) :=
  match cs with
  | [] => none
  | c :: rest =>
    if identifierStart c then
      some (.id, c :: rest.takeWhile identifierPart, rest.dropWhile identifierPart)
    else if c == '0' then
      some (.intConstDec, c :: (integerSuffix rest).1, (integerSuffix rest).2)
    else if c.isDigit then
      some (.intConstDec,
        c :: rest.takeWhile Char.isDigit ++ (integerSuffix (rest.dropWhile Char.isDigit)).1,
        (integerSuffix (rest.dropWhile Char.isDigit)).2)
    else if c == '"' then
      (stringBody rest).map fun (b, r) => (.stringLiteral, c :: b, r)
    else symbolToken cs

end SLexer

/-- A lexed text. -/
structure Lexed where
  tokens : List LexToken
  eof : Option Python.Error

namespace SLexer

/-- The tokens of a text, `n` characters or fewer. -/
def lexAll : ℕ → List Char → Lexed
  | _, [] => ⟨[], none⟩
  | 0, _ :: _ => ⟨[], some .lexError⟩
  | n + 1, c :: cs =>
    if ignored c then lexAll n cs
    else
      match token (c :: cs) with
      | none => ⟨[], some .lexError⟩
      | some (type, value, rest) =>
        let l := lexAll n rest
        ⟨⟨type, String.ofList value⟩ :: l.tokens, l.eof⟩

/-- The tokens of the characters of a text. -/
def lexChars (cs : List Char) : Lexed := lexAll cs.length cs

/-- The tokens of a text. -/
def lex (text : String) : Lexed := lexChars text.toList

/-! ### Every token consumes a character -/

theorem integerSuffix_append (cs : List Char) : (integerSuffix cs).1 ++ (integerSuffix cs).2 = cs := by
  fun_cases integerSuffix cs <;> rfl

theorem stringBody_append : ∀ {cs b r : List Char}, stringBody cs = some (b, r) → b ++ r = cs := by
  intro cs
  fun_induction stringBody cs with
  | case1 | case3 | case4 | case6 => intro b r h; cases h
  | case2 cs => intro b r h; cases h; rfl
  | case5 d ds _ _ _ ih | case7 d ds _ _ _ ih =>
    intro b r h
    obtain ⟨⟨b', r'⟩, hb, he⟩ := Option.map_eq_some_iff.mp h
    cases he
    simp [ih hb]

theorem symbolToken_append {cs v r : List Char} {ty : TokenType}
    (h : symbolToken cs = some (ty, v, r)) : v ++ r = cs ∧ v ≠ [] := by
  fun_cases symbolToken cs with
  | case1 => simp [symbolToken] at h
  | case2 c =>
    obtain ⟨ty', -, he⟩ := Option.map_eq_some_iff.mp h
    cases he
    simp
  | case3 c d cs ty' h2 =>
    simp only [symbolToken, h2] at h
    cases h
    simp
  | case4 c d cs h2 =>
    simp only [symbolToken, h2] at h
    obtain ⟨ty', -, he⟩ := Option.map_eq_some_iff.mp h
    cases he
    simp

/-- A token is the front of the text, and not empty. -/
theorem token_append {cs v r : List Char} {ty : TokenType} (h : token cs = some (ty, v, r)) :
    v ++ r = cs ∧ v ≠ [] := by
  unfold token at h
  split at h
  · cases h
  · rename_i c rest
    split_ifs at h with h1 h2 h3 h4
    · cases h
      simp [List.takeWhile_append_dropWhile]
    · cases h
      simp [integerSuffix_append]
    · cases h
      simp [integerSuffix_append, List.takeWhile_append_dropWhile]
    · obtain ⟨⟨b, r'⟩, hb, he⟩ := Option.map_eq_some_iff.mp h
      cases he
      simp [stringBody_append hb]
    · exact symbolToken_append h

theorem token_length {cs v r : List Char} {ty : TokenType} (h : token cs = some (ty, v, r)) :
    r.length < cs.length := by
  obtain ⟨rfl, hv⟩ := token_append h
  have := List.length_pos_iff.mpr hv
  simp only [List.length_append]
  omega

/-- The fuel is no restriction: any amount that covers the text gives the same
tokens. -/
theorem lexAll_fuel : ∀ (n m : ℕ) (cs : List Char), cs.length ≤ n → cs.length ≤ m →
    lexAll n cs = lexAll m cs
  | 0, m, [], _, _ => by cases m <;> rfl
  | n + 1, m, [], _, _ => by cases m <;> rfl
  | n + 1, 0, c :: cs, _, h => by simp at h
  | n + 1, m + 1, c :: cs, hn, hm => by
    simp only [List.length_cons, Nat.add_le_add_iff_right] at hn hm
    unfold lexAll
    split_ifs with hi
    · exact lexAll_fuel n m cs hn hm
    · cases ht : token (c :: cs) with
      | none => rfl
      | some t =>
        obtain ⟨ty, v, r⟩ := t
        have hr := token_length ht
        simp only [List.length_cons] at hr
        simp only [lexAll_fuel n m r (by omega) (by omega)]

theorem lexChars_nil : lexChars [] = ⟨[], none⟩ := rfl

theorem lexChars_ignored {c : Char} (h : ignored c = true) (cs : List Char) :
    lexChars (c :: cs) = lexChars cs := by
  simp [lexChars, lexAll, h]

theorem lexChars_token {c : Char} {cs v r : List Char} {ty : TokenType} (hc : ignored c = false)
    (h : token (c :: cs) = some (ty, v, r)) :
    lexChars (c :: cs) = ⟨⟨ty, String.ofList v⟩ :: (lexChars r).tokens, (lexChars r).eof⟩ := by
  have hr := token_length h
  simp only [List.length_cons] at hr
  have hfuel := lexAll_fuel cs.length r.length r (by omega) (Nat.le_refl _)
  simp only [lexChars, List.length_cons, lexAll, hc, Bool.false_eq_true, if_false, h, hfuel]

end SLexer
end Apisan
