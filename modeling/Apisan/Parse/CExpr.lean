/-
# C's expressions

The expressions of C that the grammar covers, printed the way C needs it: with
the parentheses that the precedence and left associativity of the operators
require and no others (a negative integer counts as a unary expression, so it
takes parentheses as the base of `->`, `[]` or a call). The parser returns the
tree that was printed, whatever blanks stand between the tokens
(`parse_words`).

The induction is on the expression, for runs of the automaton in any context
(`runs`); that the words lex back is an induction too, for the words an
expression can start and end with (`spaced`).

Key definitions: `CExpr`, `CExpr.words`, `CExpr.toSymbol`.
Key theorems: `CExpr.runs`, `CExpr.spaced`, `CExpr.reach_words`,
`CExpr.parse_words`, `CExpr.toSymbol_injective`.
-/
import Mathlib.Data.List.Chain
import Apisan.Parse.Runs

namespace Apisan

/-- An expression. -/
inductive CExpr
  | ident (x : Identifier)
  | string (x : StringToken)
  | int (n : ℤ)
  | member (base : CExpr) (m : Identifier)
  | index (base : CExpr) (i : CExpr)
  | call (f : CExpr) (args : List CExpr)
  | binary (l : CExpr) (o : BinaryOp) (r : CExpr)

namespace CExpr

/-- C's precedence of an expression: postfix 12, unary 11. -/
def level : CExpr → ℕ
  | binary _ o _ => o.cLevel
  | int n => if n < 0 then 11 else 12
  | _ => 12

/-- Words in parentheses, if needed. -/
def wrap (needed : Bool) (ws : List Word) : List Word :=
  if needed then .lparen :: (ws ++ [.rparen]) else ws

mutual

/-- The expression as C prints it. -/
def words : CExpr → List Word
  | ident x => [.id x]
  | string x => [.string x]
  | int n => if n < 0 then [.op .minus, .int n.natAbs] else [.int n.natAbs]
  | member base m => wrap (base.level < 12) (words base) ++ [.arrow, .id m]
  | index base i => wrap (base.level < 12) (words base) ++ .lbracket :: (words i ++ [.rbracket])
  | call f args => wrap (f.level < 12) (words f) ++ .lparen :: (argWords args ++ [.rparen])
  | binary l o r =>
    wrap (l.level < o.cLevel) (words l) ++ .op o :: wrap (r.level < o.cLevel + 1) (words r)

/-- The arguments of a call, with commas between. -/
def argWords : List CExpr → List Word
  | [] => []
  | a :: as => words a ++ moreWords as

/-- The arguments after the first. -/
def moreWords : List CExpr → List Word
  | [] => []
  | a :: as => .comma :: (words a ++ moreWords as)

end

mutual

/-- The symbol of an expression. -/
def toSymbol : CExpr → Symbol
  | ident x => .id x.1
  | string x => .stringLiteral x.1
  | int n => .concreteInt n
  | member base m => .field (toSymbol base) m.1
  | index base i => .array (toSymbol base) (toSymbol i)
  | call f args => .call (toSymbol f) (toSymbols args)
  | binary l o r => .binaryOperator (toSymbol l) o (toSymbol r)

def toSymbols : List CExpr → List Symbol
  | [] => []
  | a :: as => toSymbol a :: toSymbols as

end

/-! ### Runs over expressions -/

open ShiftReduce Machine SParser

/-- What the parser does with an expression. -/
structure Runs (e : CExpr) : Prop where
  binary : RunsBinary e.level e.words e.toSymbol
  post : 11 ≤ e.level → RunsPost e.words e.toSymbol

theorem Runs.of_post {e : CExpr} (h : RunsPost e.words e.toSymbol) : Runs e :=
  ⟨h.binary _, fun _ => h⟩

/-- An operand, with parentheses if its level is below `n`. -/
theorem Runs.wrap_binary {e : CExpr} (h : Runs e) (n : ℕ) :
    RunsBinary n (wrap (e.level < n) e.words) e.toSymbol := by
  unfold wrap
  split_ifs with hn
  · exact h.binary.paren.binary n
  · exact h.binary.mono (by simpa using hn)

/-- The base of a postfix expression. -/
theorem Runs.wrap_post {e : CExpr} (h : Runs e) :
    RunsPost (wrap (e.level < 12) e.words) e.toSymbol := by
  unfold wrap
  split_ifs with hn
  · exact h.binary.paren
  · have := h.post
    simp only [decide_eq_true_eq] at hn
    exact this (by omega)

/-- After an argument come a comma or the closing parenthesis. -/
theorem la_moreWords : ∀ (as : List CExpr) {rest : List (TokenType × Val)},
    la rest = some .rparen →
    la (input (moreWords as) ++ rest) = some .comma ∨ la (input (moreWords as) ++ rest) = some .rparen
  | [], _, h => .inr h
  | _ :: _, _, _ => .inl rfl

mutual

/-- **An expression is parsed to its symbol**, in every context. -/
theorem runs : ∀ e : CExpr, Runs e
  | ident x => .of_post (runsPost_ident x)
  | string x => .of_post (runsPost_string x)
  | int n => by
    refine .of_post ?_
    simp only [words, toSymbol]
    split_ifs with hn
    · have := runsPost_neg n.natAbs
      rwa [show -(n.natAbs : ℤ) = n by omega] at this
    · have := runsPost_nat n.natAbs
      rwa [show (n.natAbs : ℤ) = n by omega] at this
  | member base m => .of_post ((runs base).wrap_post.member m)
  | index base i => .of_post ((runs base).wrap_post.index (runs i).binary)
  | call f args => .of_post ((runs f).wrap_post.call (runs_args args))
  | binary l o r => by
    have h := ((runs l).wrap_binary o.cLevel).op ((runs r).wrap_binary (o.cLevel + 1))
    refine ⟨h, fun h11 => ?_⟩
    have : o.cLevel ≤ 10 := by cases o <;> simp [BinaryOp.cLevel]
    simp only [level] at h11
    omega

theorem runs_args : ∀ (as : List CExpr) (st : Stack) (rest : List (TokenType × Val)),
    top tables st = .call → la rest = some .rparen →
    Steps ⟨st, input (argWords as) ++ rest⟩ ⟨(.callArgs, .args (toSymbols as)) :: st, rest⟩
  | [], st, rest, hst, hla => by
    refine reduce .argumentListEmpty [] ?_ rfl rfl (by rw [hst]; rfl)
    simp only [argWords, input_nil, List.nil_append, hst, hla]
    rfl
  | a :: as, st, rest, hst, hla => by
    simp only [argWords, input_append, List.append_assoc]
    have hnext := la_moreWords as hla
    refine ((runs a).binary.expression (g := .argOne) (by rw [hst]; rfl) ?_).trans ?_
    · rcases hnext with h | h <;> rw [h] <;> rfl
    refine (reduce .argumentListOne (v := .args [toSymbol a]) (s := .callArgs) [_] ?_ rfl rfl
      (by rw [hst]; rfl)).trans ?_
    · rcases hnext with h | h <;> rw [h] <;> rfl
    exact runs_more as st [toSymbol a] rest hst hla

theorem runs_more : ∀ as : List CExpr, RunsArgs (moreWords as) (toSymbols as)
  | [], st, done, rest, _, _ => by
    simp only [moreWords, toSymbols, List.append_nil]
    exact .refl
  | a :: as, st, done, rest, hst, hla => by
    simp only [moreWords, input_cons, input_append, List.cons_append, List.append_assoc]
    have hnext := la_moreWords as hla
    refine (shift (s := .argComma) rfl).trans ?_
    refine ((runs a).binary.expression (g := .argNext) rfl ?_).trans ?_
    · rcases hnext with h | h <;> rw [h] <;> rfl
    refine (reduce .argumentListAppend (v := .args (done ++ [toSymbol a])) (s := .callArgs)
      [_, _, _] ?_ rfl rfl (by rw [hst]; rfl)).trans ?_
    · rcases hnext with h | h <;> rw [h] <;> rfl
    have := runs_more as st (done ++ [toSymbol a]) rest hst hla
    rwa [List.append_assoc] at this

end

/-! ### No two words of an expression run together -/

end CExpr

namespace Word

/-- The words an expression can start with. -/
def opens : Word → Bool
  | id _ | int _ | string _ | op .minus | lparen => true
  | _ => false

/-- The words an expression can end with. -/
def ends : Word → Bool
  | id _ | int _ | string _ | rparen | rbracket => true
  | _ => false

/-- The words that are operators or delimiters. -/
def sign : Word → Bool
  | id _ | int _ | string _ => false
  | _ => true

end Word

namespace SLexer

theorem identifier_head {x : Identifier} {c : Char} (h : c ∈ x.1.toList.head?) :
    identifierStart c = true := by
  obtain ⟨s, hs⟩ := x
  simp only [isIdentifier] at hs
  split at hs
  · cases hs
  · rename_i d ds hd
    obtain rfl : d = c := by simpa [hd] using h
    simp only [Bool.and_eq_true] at hs
    exact hs.1

theorem string_head {x : StringToken} {c : Char} (h : c ∈ x.1.toList.head?) : c = '"' := by
  obtain ⟨s, hs⟩ := x
  simp only [isStringLiteral] at hs
  split at hs
  · cases hs
  · rename_i d ds hd
    obtain rfl : d = c := by simpa [hd] using h
    simp only [Bool.and_eq_true, beq_iff_eq] at hs
    exact hs.1

theorem int_head {n : ℕ} {c : Char} (h : c ∈ (Word.int n).text.toList.head?) : c.isDigit = true := by
  simp only [Word.text, String.toList_ofList] at h
  exact List.all_eq_true.mp (digitChars_all n) c (List.mem_of_mem_head? h)

/-- A sign starts with a character of no identifier and no number. -/
theorem sign_head {v : Word} (h : v.sign = true) {c : Char} (hc : c ∈ v.text.toList.head?) :
    identifierPart c = false := by
  cases v with
  | id | int | string => cases h
  | op o => cases o <;> cases hc <;> rfl
  | _ => cases hc; rfl

/-- The words an expression starts with go on with no operator. -/
theorem opens_head {v : Word} (h : v.opens = true) {c : Char} (hc : c ∈ v.text.toList.head?) :
    c ≠ '<' ∧ c ≠ '=' ∧ c ≠ '>' ∧ c ≠ '&' ∧ c ≠ '|' := by
  cases v with
  | id x =>
    have := identifier_head hc
    refine ⟨?_, ?_, ?_, ?_, ?_⟩ <;> rintro rfl <;> cases this
  | int n =>
    have := int_head hc
    refine ⟨?_, ?_, ?_, ?_, ?_⟩ <;> rintro rfl <;> cases this
  | string x =>
    obtain rfl := string_head hc
    decide
  | op o =>
    cases o <;> cases h
    cases hc
    decide
  | lparen => cases hc; decide
  | _ => cases h

theorem apart_sign (w : Word) {v : Word} (hw : w.ends = true) (hv : v.sign = true) : Apart w v := by
  intro c hc
  have := sign_head hv hc
  cases w with
  | id | int => simpa [stops, Word.type] using this
  | string | rparen | rbracket => rfl
  | _ => cases hw

theorem apart_opens {w v : Word} (hw : w.sign = true) (hv : v.opens = true) : Apart w v := by
  intro c hc
  obtain ⟨h1, h2, h3, h4, h5⟩ := opens_head hv hc
  cases w with
  | id | int | string => cases hw
  | op o => cases o <;> simp [stops, Word.type, *]
  | _ => rfl

/-- Words of an expression: each apart from the next, and what they start and
end with. -/
structure Spaced (ws : List Word) : Prop where
  chain : ws.IsChain Apart
  opens : ∃ w ∈ ws.head?, w.opens = true
  ends : ∃ w ∈ ws.getLast?, w.ends = true

namespace Spaced

theorem single {w : Word} (ho : w.opens = true) (he : w.ends = true) : Spaced [w] :=
  ⟨List.isChain_singleton w, ⟨w, rfl, ho⟩, ⟨w, rfl, he⟩⟩

/-- A sign before what an expression starts with. -/
theorem sign_cons {w : Word} {ws : List Word} (hw : w.sign = true) (h : Spaced ws) :
    (w :: ws).IsChain Apart := by
  obtain ⟨v, hv, ho⟩ := h.opens
  refine h.chain.cons fun u hu => ?_
  obtain rfl : v = u := Option.mem_unique hv hu
  exact apart_opens hw ho

theorem append {a b : List Word} (ha : Spaced a) (hb : b.IsChain Apart)
    (hs : ∃ w ∈ b.head?, w.sign = true) (he : ∃ w ∈ b.getLast?, w.ends = true) :
    Spaced (a ++ b) := by
  obtain ⟨v, hv, hvo⟩ := ha.opens
  obtain ⟨u, hu, hue⟩ := ha.ends
  obtain ⟨w, hw, hws⟩ := hs
  obtain ⟨x, hx, hxe⟩ := he
  refine ⟨List.isChain_append.mpr ⟨ha.chain, hb, fun u' hu' w' hw' => ?_⟩, ⟨v, ?_, hvo⟩, ⟨x, ?_, hxe⟩⟩
  · obtain rfl : u = u' := Option.mem_unique hu hu'
    obtain rfl : w = w' := Option.mem_unique hw hw'
    exact apart_sign u hue hws
  · rw [List.head?_append]
    simp_all
  · rw [List.getLast?_append]
    simp_all

theorem close {a : List Word} (ha : Spaced a) {w : Word} (hs : w.sign = true)
    (he : w.ends = true) : Spaced (a ++ [w]) :=
  ha.append (List.isChain_singleton w) ⟨w, rfl, hs⟩ ⟨w, rfl, he⟩

theorem join {a b : List Word} (ha : Spaced a) {w : Word} (hw : w.sign = true) (hb : Spaced b) :
    Spaced (a ++ w :: b) := by
  obtain ⟨x, hx, hxe⟩ := hb.ends
  refine ha.append (sign_cons hw hb) ⟨w, rfl, hw⟩ ⟨x, ?_, hxe⟩
  cases b with
  | nil => cases hx
  | cons y b => exact hx

theorem opened {w : Word} {ws : List Word} (hs : w.sign = true) (ho : w.opens = true)
    (h : Spaced ws) : Spaced (w :: ws) := by
  obtain ⟨x, hx, hxe⟩ := h.ends
  refine ⟨sign_cons hs h, ⟨w, rfl, ho⟩, ⟨x, ?_, hxe⟩⟩
  cases ws with
  | nil => cases hx
  | cons y b => exact hx

end Spaced
end SLexer

namespace CExpr

open SLexer SParser

theorem wrap_spaced {ws : List Word} (h : Spaced ws) (needed : Bool) : Spaced (wrap needed ws) := by
  cases needed
  · exact h
  · exact .opened rfl rfl (h.close rfl rfl)

mutual

theorem spaced : ∀ e : CExpr, Spaced e.words
  | ident _ => .single rfl rfl
  | string _ => .single rfl rfl
  | int n => by
    simp only [words]
    split_ifs
    · exact .opened rfl rfl (.single rfl rfl)
    · exact .single rfl rfl
  | member base _ =>
    (wrap_spaced (spaced base) _).append (by simp [Apart, stops, Word.type]) ⟨_, rfl, rfl⟩
      ⟨_, rfl, rfl⟩
  | index base i => (wrap_spaced (spaced base) _).join rfl ((spaced i).close rfl rfl)
  | call f [] =>
    (wrap_spaced (spaced f) _).append (by simp [argWords, Apart, stops, Word.type]) ⟨_, rfl, rfl⟩
      ⟨_, rfl, rfl⟩
  | call f (a :: as) =>
    (wrap_spaced (spaced f) _).join rfl ((spaced_more as (spaced a)).close rfl rfl)
  | binary l _ r => (wrap_spaced (spaced l) _).join rfl (wrap_spaced (spaced r) _)

theorem spaced_more : ∀ as : List CExpr, ∀ {ws : List Word}, Spaced ws → Spaced (ws ++ moreWords as)
  | [], ws, h => by simpa [moreWords] using h
  | a :: as, _, h => h.join rfl (spaced_more as (spaced a))

end

/-! ### The parser gives the tree back -/

theorem symbols_token (ws : List Word) : symbols (ws.map Word.token) = input ws := by
  simp [symbols, input, Word.token]

/-- A text of an expression lexes, and its tokens run to its symbol. -/
theorem reach_words {e : CExpr} {cs : List Char} (h : Written e.words cs) :
    ∃ ts, lex (String.ofList cs) = ⟨ts, none⟩ ∧
      Steps ⟨[], symbols ts⟩ ⟨[(.done, .symbol e.toSymbol)], []⟩ := by
  refine ⟨e.words.map Word.token, by simpa [lex] using lex_written h (spaced e).chain, ?_⟩
  have hrun : Steps ⟨[], input e.words ++ []⟩ ⟨[(.done, .symbol e.toSymbol)], []⟩ :=
    (runs e).binary.expression rfl rfl
  rwa [List.append_nil, ← symbols_token] at hrun

/-- **The parser gives C's tree.** Whatever blanks stand between the words of
an expression, the text parses to its symbol. -/
theorem parse_words {e : CExpr} {cs : List Char} (h : Written e.words cs) :
    SParser.parse (String.ofList cs) = .ok (some e.toSymbol) := by
  obtain ⟨ts, hlex, hrun⟩ := reach_words h
  exact parse_of_reach hlex hrun

/-- The text `p->n * (f(a,-1) - b)`. -/
theorem parse_words_product :
    SParser.parse "p->n * (f(a,-1) - b)" = .ok (some (.binaryOperator (.field (.id "p") "n") .times
      (.binaryOperator (.call (.id "f") [.id "a", .concreteInt (-1)]) .minus (.id "b")))) :=
  have h : Written [.id ⟨"p", rfl⟩, .arrow, .id ⟨"n", rfl⟩, .op .times, .lparen,
      .id ⟨"f", rfl⟩, .lparen, .id ⟨"a", rfl⟩, .comma, .op .minus, .int 1, .rparen, .op .minus,
      .id ⟨"b", rfl⟩, .rparen] "p->n * (f(a,-1) - b)".toList :=
    .cons (b := []) rfl <| .cons (b := []) rfl <| .cons (b := []) rfl <| .cons (b := [' ']) rfl <|
    .cons (b := [' ']) rfl <| .cons (b := []) rfl <| .cons (b := []) rfl <| .cons (b := []) rfl <|
    .cons (b := []) rfl <| .cons (b := []) rfl <| .cons (b := []) rfl <| .cons (b := []) rfl <|
    .cons (b := [' ']) rfl <| .cons (b := [' ']) rfl <| .cons (b := []) rfl <| .nil (b := []) rfl
  parse_words (e := .binary (.member (.ident ⟨"p", rfl⟩) ⟨"n", rfl⟩) .times
    (.binary (.call (.ident ⟨"f", rfl⟩) [.ident ⟨"a", rfl⟩, .int (-1)]) .minus
      (.ident ⟨"b", rfl⟩))) h

mutual

/-- Different expressions have different symbols. -/
theorem toSymbol_injective : ∀ {e e' : CExpr}, e.toSymbol = e'.toSymbol → e = e'
  | ident x, e', h => by
    cases e' <;> simp only [toSymbol, reduceCtorEq, Symbol.id.injEq] at h
    rw [Subtype.ext h]
  | string x, e', h => by
    cases e' <;> simp only [toSymbol, reduceCtorEq, Symbol.stringLiteral.injEq] at h
    rw [Subtype.ext h]
  | int n, e', h => by
    cases e' <;> simp only [toSymbol, reduceCtorEq, Symbol.concreteInt.injEq] at h
    rw [h]
  | member base m, e', h => by
    cases e' <;> simp only [toSymbol, reduceCtorEq, Symbol.field.injEq] at h
    rw [toSymbol_injective h.1, Subtype.ext h.2]
  | index base i, e', h => by
    cases e' <;> simp only [toSymbol, reduceCtorEq, Symbol.array.injEq] at h
    rw [toSymbol_injective h.1, toSymbol_injective h.2]
  | call f as, e', h => by
    cases e' <;> simp only [toSymbol, reduceCtorEq, Symbol.call.injEq] at h
    rw [toSymbol_injective h.1, toSymbols_injective h.2]
  | binary l o r, e', h => by
    cases e' <;> simp only [toSymbol, reduceCtorEq, Symbol.binaryOperator.injEq] at h
    rw [toSymbol_injective h.1, h.2.1, toSymbol_injective h.2.2]

theorem toSymbols_injective : ∀ {as bs : List CExpr}, toSymbols as = toSymbols bs → as = bs
  | [], bs, h => by cases bs <;> simp_all [toSymbols]
  | a :: as, bs, h => by
    cases bs <;> simp only [toSymbols, reduceCtorEq, List.cons.injEq] at h
    rw [toSymbol_injective h.1, toSymbols_injective h.2]

end

end CExpr
end Apisan
