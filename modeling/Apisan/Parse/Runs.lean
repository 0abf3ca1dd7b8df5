/-
# Runs of the parser

What the automaton does with a list of words, in every context: a postfix
expression is parsed wherever an operand is awaited (`RunsPost`); a binary
expression of level `n` is parsed when the operator waiting on the stack
binds less tightly than `n` and the one that follows does not bind more
tightly (`RunsBinary`). One lemma for each way the grammar builds an
expression of smaller ones.

Key definitions: `BinaryOp.cLevel`, `SParser.RunsPost`, `SParser.RunsBinary`,
`SParser.RunsArgs`.
Key theorems: `SParser.RunsPost.binary`, `SParser.RunsBinary.paren`,
`SParser.RunsBinary.op`.
-/
import Apisan.Parse.SParser
import Apisan.Parse.Spelling

namespace Apisan

/-- C's precedence of the binary operators, from `||` up. -/
def BinaryOp.cLevel : BinaryOp → ℕ
  | lor => 1
  | land => 2
  | or => 3
  | xor => 4
  | and => 5
  | eq | ne => 6
  | lt | le | gt | ge => 7
  | lshift | rshift => 8
  | plus | minus => 9
  | times | divide | mod => 10

namespace SParser

open ShiftReduce Machine

/-! ### Runs of the automaton -/

/-- The lookahead of an input. -/
def la (inp : List (TokenType × Val)) : Option TokenType := inp.head?.map Prod.fst

/-- The words as the automaton reads them. -/
def input (ws : List Word) : List (TokenType × Val) := ws.map fun w => (w.type, .text w.text)

@[simp] theorem input_nil : input [] = [] := rfl
@[simp] theorem input_cons (w : Word) (ws : List Word) :
    input (w :: ws) = (w.type, .text w.text) :: input ws := rfl
@[simp] theorem input_append (a b : List Word) : input (a ++ b) = input a ++ input b := by
  simp [input]
@[simp] theorem la_nil : la [] = none := rfl
@[simp] theorem la_cons (x : TokenType × Val) (inp : List (TokenType × Val)) :
    la (x :: inp) = some x.1 := rfl

abbrev Stack := List (State × Val)

theorem shift {s : State} {x : TokenType × Val} {st : Stack} {inp : List (TokenType × Val)}
    (h : action (top tables st) (some x.1) = .shift s) :
    Steps ⟨st, x :: inp⟩ ⟨(s, x.2) :: st, inp⟩ :=
  .single (next_shift (T := tables) h)

theorem reduce (p : Production) {s : State} {v : Val} (fr : Stack) {st : Stack}
    {inp : List (TokenType × Val)} (hact : action (top tables (fr ++ st)) (la inp) = .reduce p)
    (hlen : fr.length = p.rhs.length) (hsem : act p (fr.map Prod.snd).reverse = .ok v)
    (hgoto : goto (top tables st) p.lhs = some s) :
    Steps ⟨fr ++ st, inp⟩ ⟨(s, v) :: st, inp⟩ :=
  .single (next_reduce (T := tables) (.inr rfl) hact hlen hsem hgoto)

/-! ### What the tables do at an expression -/

/-- The state a binary expression leads to. -/
def State.afterBinary : State → State
  | op o => opRhs o
  | _ => binary

theorem goto_binary {s : State} (hs : s.operand = true) :
    goto s .binaryExpression = some s.afterBinary := by
  cases s <;> first | rfl | cases hs

theorem goto_post {s : State} (hs : s.operand = true) :
    goto s .postfixExpression = some .post := by
  simp [goto, hs]

theorem goto_primary {s : State} (hs : s.operand = true) :
    goto s .primaryExpression = some .primary := by
  simp [goto, hs]

theorem goto_integer {s : State} (hs : s.operand = true) :
    goto s .concreteIntegerExpression = some .integer := by
  cases s <;> first | rfl | cases hs

theorem goto_expression {s g : State} (h : goto s .expression = some g) :
    s.operand = true ∧ (∀ o, s ≠ .op o) ∧ s.afterBinary = .binary := by
  cases s <;> simp_all [goto, State.operand, State.afterBinary]

theorem action_operand {s s' : State} {t : TokenType} (hs : s.operand = true)
    (ht : shiftOperand (some t) = .shift s') : action s (some t) = .shift s' := by
  cases s <;> try cases hs
  case call => cases t <;> first | exact ht | cases ht
  all_goals exact ht

theorem followBinary_of_expression {la : Option TokenType} (h : followExpression la = true) :
    followBinary la = true := by
  unfold followBinary
  split <;> simp_all

theorem followPostfix_of_binary {la : Option TokenType} (h : followBinary la = true) :
    followPostfix la = true := by
  unfold followPostfix
  split <;> simp_all

theorem followExpression_not_op {la : Option TokenType} (h : followExpression la = true)
    (o : BinaryOp) : la ≠ some (.op o) := by
  rintro rfl
  cases h

@[simp] theorem level_op (o : BinaryOp) : level (.op o) = o.cLevel := by cases o <;> rfl

/-! ### Runs over words -/

/-- The operator that waits in the state binds less tightly than `n`. -/
def Above (s : State) (n : ℕ) : Prop := ∀ o, s = .op o → o.cLevel < n

/-- The operator that follows binds at most as tightly as `n`. -/
def Below (n : ℕ) (la : Option TokenType) : Prop := ∀ o, la = some (.op o) → o.cLevel ≤ n

/-- The words are parsed to a postfix expression, in every context. -/
def RunsPost (ws : List Word) (s : Symbol) : Prop :=
  ∀ (st : Stack) (rest : List (TokenType × Val)), (top tables st).operand = true →
    followPostfix (la rest) = true →
    Steps ⟨st, input ws ++ rest⟩ ⟨(.post, .symbol s) :: st, rest⟩

/-- The words are parsed to a binary expression between operators that leave
level `n` alone. -/
def RunsBinary (n : ℕ) (ws : List Word) (s : Symbol) : Prop :=
  ∀ (st : Stack) (rest : List (TokenType × Val)), (top tables st).operand = true →
    Above (top tables st) n → followBinary (la rest) = true → Below n (la rest) →
    Steps ⟨st, input ws ++ rest⟩ ⟨((top tables st).afterBinary, .symbol s) :: st, rest⟩

/-- The words are parsed to the rest of an argument list. -/
def RunsArgs (ws : List Word) (ss : List Symbol) : Prop :=
  ∀ (st : Stack) (done : List Symbol) (rest : List (TokenType × Val)), top tables st = .call →
    la rest = some .rparen →
    Steps ⟨(.callArgs, .args done) :: st, input ws ++ rest⟩
      ⟨(.callArgs, .args (done ++ ss)) :: st, rest⟩

theorem RunsBinary.mono {n m : ℕ} {ws : List Word} {s : Symbol} (hnm : n ≤ m)
    (h : RunsBinary m ws s) : RunsBinary n ws s :=
  fun st rest hst ha hf hb => h st rest hst (fun o ho => Nat.lt_of_lt_of_le (ha o ho) hnm) hf
    fun o ho => Nat.le_trans (hb o ho) hnm

/-- A postfix expression is reduced to a binary one. -/
theorem post_binary {s : Symbol} {st : Stack} {rest : List (TokenType × Val)}
    (hst : (top tables st).operand = true) (hf : followBinary (la rest) = true) :
    Steps ⟨(.post, .symbol s) :: st, rest⟩ ⟨((top tables st).afterBinary, .symbol s) :: st, rest⟩ := by
  refine (reduce .unaryExpression1 (s := .unary) [(.post, .symbol s)] ?_ rfl rfl ?_).trans ?_
  · simp [action, reduceOn, hf]
  · simp [goto, hst, Production.lhs]
  refine (reduce .castExpression1 (s := .cast) [(.unary, .symbol s)] ?_ rfl rfl ?_).trans ?_
  · simp [action, reduceOn, hf]
  · simp [goto, hst, Production.lhs]
  refine reduce .binaryExpression1 [(.cast, .symbol s)] ?_ rfl rfl (goto_binary hst)
  simp [action, reduceOn, hf]

/-- A binary expression is reduced where an expression is awaited. -/
theorem binary_expression {s : Symbol} {st : Stack} {rest : List (TokenType × Val)} {g : State}
    (hg : goto (top tables st) .expression = some g) (hf : followExpression (la rest) = true) :
    Steps ⟨(.binary, .symbol s) :: st, rest⟩ ⟨(g, .symbol s) :: st, rest⟩ := by
  refine reduce .expression1 [(.binary, .symbol s)] ?_ rfl rfl hg
  simp only [List.cons_append, top_cons, action]
  split
  · exact absurd ‹_› (followExpression_not_op hf _)
  · simp [reduceOn, hf]

/-- A postfix expression is an operand of every operator. -/
theorem RunsPost.binary {ws : List Word} {s : Symbol} (h : RunsPost ws s) (n : ℕ) :
    RunsBinary n ws s :=
  fun st rest hst _ hf _ => (h st rest hst (followPostfix_of_binary hf)).trans (post_binary hst hf)

/-- A binary expression where an expression is awaited. -/
theorem RunsBinary.expression {n : ℕ} {ws : List Word} {s : Symbol} (h : RunsBinary n ws s)
    {st : Stack} {rest : List (TokenType × Val)} {g : State}
    (hg : goto (top tables st) .expression = some g) (hf : followExpression (la rest) = true) :
    Steps ⟨st, input ws ++ rest⟩ ⟨(g, .symbol s) :: st, rest⟩ := by
  obtain ⟨hst, hop, hafter⟩ := goto_expression hg
  have hrun := h st rest hst (fun o ho => absurd ho (hop o)) (followBinary_of_expression hf)
    fun o ho => absurd ho (followExpression_not_op hf o)
  rw [hafter] at hrun
  exact hrun.trans (binary_expression hg hf)

/-- A primary expression where an operand is awaited. -/
theorem primary_post {p : Production} {s : Symbol} (fr : Stack) {st : Stack}
    {rest : List (TokenType × Val)} (hst : (top tables st).operand = true)
    (hf : followPostfix (la rest) = true) (hlhs : p.lhs = .primaryExpression)
    (hact : action (top tables (fr ++ st)) (la rest) = .reduce p) (hlen : fr.length = p.rhs.length)
    (hsem : act p (fr.map Prod.snd).reverse = .ok (.symbol s)) :
    Steps ⟨fr ++ st, rest⟩ ⟨(.post, .symbol s) :: st, rest⟩ := by
  refine (reduce p fr hact hlen hsem (hlhs ▸ goto_primary hst)).trans ?_
  refine reduce .postfixExpression1 [(.primary, .symbol s)] ?_ rfl rfl (goto_post hst)
  simp [action, reduceOn, hf]

theorem runsPost_ident (x : Identifier) : RunsPost [.id x] (.id x.1) := by
  intro st rest hst hf
  refine (shift (s := .ident) (action_operand hst rfl)).trans ?_
  exact primary_post (p := .primaryExpression1) [_] hst hf rfl
    (by simp [action, reduceOn, hf]) rfl rfl

theorem runsPost_string (x : StringToken) : RunsPost [.string x] (.stringLiteral x.1) := by
  intro st rest hst hf
  refine (shift (s := .string) (action_operand hst rfl)).trans ?_
  exact primary_post (p := .primaryExpression4) [_] hst hf rfl
    (by simp [action, reduceOn, hf]) rfl rfl

theorem act_pos (n : ℕ) : act .concreteIntegerPos [.text (Word.int n).text] = .ok (.int n) := by
  show (Python.int (Word.int n).text).map Val.int = _
  rw [Word.text, Python.int_repr]
  rfl

theorem act_neg (n : ℕ) (t : String) :
    act .concreteIntegerNeg [.text t, .text (Word.int n).text] = .ok (.int (-n)) := by
  show (Python.int (Word.int n).text).map (fun n => Val.int (-n)) = _
  rw [Word.text, Python.int_repr]
  rfl

theorem runsPost_nat (n : ℕ) : RunsPost [.int n] (.concreteInt n) := by
  intro st rest hst hf
  refine (shift (s := .intConst) (action_operand hst rfl)).trans ?_
  refine (reduce .concreteIntegerPos (v := .int n) [_] (by simp [action, reduceOn, hf]) rfl ?_
    (goto_integer hst)).trans ?_
  · exact act_pos n
  · exact primary_post (p := .primaryExpression2) [_] hst hf rfl
      (by simp [action, reduceOn, hf]) rfl rfl

theorem runsPost_neg (n : ℕ) : RunsPost [.op .minus, .int n] (.concreteInt (-n)) := by
  intro st rest hst hf
  refine (shift (s := .neg) (action_operand hst rfl)).trans ?_
  refine (shift (s := .negConst) (by simp [action, shiftOnly, Word.type])).trans ?_
  refine (reduce .concreteIntegerNeg (v := .int (-n)) [_, _] (by simp [action, reduceOn, hf]) rfl ?_
    (goto_integer hst)).trans ?_
  · exact act_neg n _
  · exact primary_post (p := .primaryExpression2) [_] hst hf rfl
      (by simp [action, reduceOn, hf]) rfl rfl

/-- Parentheses make an operand of an expression. -/
theorem RunsBinary.paren {n : ℕ} {ws : List Word} {s : Symbol} (h : RunsBinary n ws s) :
    RunsPost (.lparen :: (ws ++ [.rparen])) s := by
  intro st rest hst hf
  simp only [input_cons, input_append, List.cons_append, List.append_assoc, input_nil,
    List.nil_append]
  refine (shift (s := .paren) (action_operand hst rfl)).trans ?_
  refine (h.expression (g := .parenExpr) rfl rfl).trans ?_
  refine (shift (s := .parenClose) rfl).trans ?_
  exact primary_post (p := .primaryExpression3) [_, _, _] hst hf rfl
    (by simp [action, reduceOn, hf]) rfl rfl

theorem RunsPost.member {ws : List Word} {s : Symbol} (h : RunsPost ws s) (m : Identifier) :
    RunsPost (ws ++ [.arrow, .id m]) (.field s m.1) := by
  intro st rest hst hf
  simp only [input_cons, input_append, List.cons_append, List.append_assoc, input_nil,
    List.nil_append]
  refine (h st _ hst rfl).trans ?_
  refine (shift (s := .arrow) rfl).trans ?_
  refine (shift (s := .arrowId) rfl).trans ?_
  refine reduce .postfixExpression2 [_, _, _] ?_ rfl rfl (goto_post hst)
  simp [action, reduceOn, hf]

theorem RunsPost.index {ws : List Word} {s : Symbol} (h : RunsPost ws s) {n : ℕ} {is : List Word}
    {i : Symbol} (hi : RunsBinary n is i) :
    RunsPost (ws ++ .lbracket :: (is ++ [.rbracket])) (.array s i) := by
  intro st rest hst hf
  simp only [input_cons, input_append, List.cons_append, List.append_assoc, input_nil,
    List.nil_append]
  refine (h st _ hst rfl).trans ?_
  refine (shift (s := .index) rfl).trans ?_
  refine (hi.expression (g := .indexExpr) rfl rfl).trans ?_
  refine (shift (s := .indexClose) rfl).trans ?_
  refine reduce .postfixExpression3 [_, _, _, _] ?_ rfl rfl (goto_post hst)
  simp [action, reduceOn, hf]

theorem RunsPost.call {ws : List Word} {s : Symbol} (h : RunsPost ws s) {as : List Word}
    {ss : List Symbol}
    (ha : ∀ st rest, top tables st = .call → la rest = some .rparen →
      Steps ⟨st, input as ++ rest⟩ ⟨(.callArgs, .args ss) :: st, rest⟩) :
    RunsPost (ws ++ .lparen :: (as ++ [.rparen])) (.call s ss) := by
  intro st rest hst hf
  simp only [input_cons, input_append, List.cons_append, List.append_assoc, input_nil,
    List.nil_append]
  refine (h st _ hst rfl).trans ?_
  refine (shift (s := .call) rfl).trans ?_
  refine (ha _ _ rfl rfl).trans ?_
  refine (shift (s := .callClose) rfl).trans ?_
  refine reduce .postfixExpression4 [_, _, _, _] ?_ rfl rfl (goto_post hst)
  simp [action, reduceOn, hf]

/-- The two operands of an operator, each closed against it. -/
theorem RunsBinary.op {o : BinaryOp} {l r : List Word} {sl sr : Symbol}
    (hl : RunsBinary o.cLevel l sl) (hr : RunsBinary (o.cLevel + 1) r sr) :
    RunsBinary o.cLevel (l ++ .op o :: r) (.binaryOperator sl o sr) := by
  intro st rest hst ha hf hb
  simp only [input_cons, input_append, List.cons_append, List.append_assoc]
  refine (hl st _ hst ha rfl fun o' ho' => ?_).trans ?_
  · obtain rfl : o = o' := by simpa [Word.type] using ho'
    exact Nat.le_refl _
  refine (shift (s := .op o) ?_).trans ?_
  · cases hs : top tables st with
    | op o' =>
      have := ha o' hs
      simp [State.afterBinary, action, actionRhs, Word.type, Nat.not_le.mpr this]
    | _ => rfl
  refine (hr _ rest rfl (fun o' ho' => ?_) hf fun o' ho' => Nat.le_succ_of_le (hb o' ho')).trans ?_
  · obtain rfl : o = o' := by simpa using ho'
    exact Nat.lt_succ_self _
  refine reduce (.binaryExpression2 o) [_, _, _] ?_ rfl rfl (goto_binary hst)
  simp only [List.cons_append, top_cons, State.afterBinary, action, actionRhs]
  split
  · rename_i o' ho'
    simp [hb o' ho']
  · rename_i hop
    unfold followBinary at hf
    split at hf
    · exact absurd ‹_› (hop _)
    · simp [reduceOn, hf]

end SParser
end Apisan
