/-
# Symbolic expressions as text

The extractor prints a symbolic expression with `dumpToStream`, without
parentheses and with the constant last on either side of an operator; the
analyzer parses the text. What comes out is the tree that the operators'
precedence makes of the operands in the order printed (`read`, `parse_dump`).

It is the tree of the expression exactly for the expressions without a
constant on the left and with no operand that needs parentheses
(`parse_tree_iff`). The value is also kept where a constant moves across a
commutative operator and where the operand on the right of `+` or `*` starts
with an operator of the same level, which is associative there
(`preserved_of_plain`).

Key definitions: `SymExpr`, `SymExpr.dumpToStream`, `SymExpr.eval`,
`Arith.attach`, `SymExpr.read`, `SymExpr.plain`, `SymExpr.Preserved`.
Key theorems: `Arith.attach_eq_binary`, `Arith.attach_eval`,
`SymExpr.parse_dump`, `SymExpr.parse_tree_iff`, `SymExpr.preserved_of_plain`.
-/
import Mathlib.Tactic.Ring
import Apisan.Parse.CExpr

namespace Apisan

/-! ### Expressions and their values -/

/-- The opcodes of symbolic expressions with an exact meaning over the
integers (`BinaryOperator::Opcode`). -/
inductive Opcode
  | mul | add | sub | lt | gt | le | ge | eq | ne
  deriving DecidableEq, Repr

namespace Opcode

/-- `BinaryOperator::getOpcodeStr`. -/
def getOpcodeStr : Opcode → String
  | mul => "*"
  | add => "+"
  | sub => "-"
  | lt => "<"
  | gt => ">"
  | le => "<="
  | ge => ">="
  | eq => "=="
  | ne => "!="

/-- The operator of the grammar with the opcode's text. -/
def binaryOp : Opcode → BinaryOp
  | mul => .times
  | add => .plus
  | sub => .minus
  | lt => .lt
  | gt => .gt
  | le => .le
  | ge => .ge
  | eq => .eq
  | ne => .ne

/-- The level of the opcode's operator. -/
def level (o : Opcode) : ℕ := o.binaryOp.cLevel

/-- The value of an operator; a comparison is 1 or 0. -/
def apply : Opcode → ℤ → ℤ → ℤ
  | mul, a, b => a * b
  | add, a, b => a + b
  | sub, a, b => a - b
  | lt, a, b => if a < b then 1 else 0
  | gt, a, b => if a > b then 1 else 0
  | le, a, b => if a ≤ b then 1 else 0
  | ge, a, b => if a ≥ b then 1 else 0
  | eq, a, b => if a = b then 1 else 0
  | ne, a, b => if a ≠ b then 1 else 0

theorem binaryOp_text (o : Opcode) : o.binaryOp.text = o.getOpcodeStr := by cases o <;> rfl

theorem level_le (o : Opcode) : o.level ≤ 10 := by cases o <;> simp [level, binaryOp, BinaryOp.cLevel]

theorem binaryOp_injective {o o' : Opcode} (h : o.binaryOp = o'.binaryOp) : o = o' := by
  cases o <;> cases o' <;> first | rfl | cases h

end Opcode

/-- The opcode of an operator of the grammar. -/
def BinaryOp.opcode : BinaryOp → Option Opcode
  | times => some .mul
  | plus => some .add
  | minus => some .sub
  | lt => some .lt
  | gt => some .gt
  | le => some .le
  | ge => some .ge
  | eq => some .eq
  | ne => some .ne
  | _ => none

/-- The value of a symbol of identifiers, integers and the opcodes. -/
def Symbol.eval (ρ : String → ℤ) : Symbol → Option ℤ
  | id x => some (ρ x)
  | concreteInt n => some n
  | binaryOperator l o r => do (← o.opcode).apply (← l.eval ρ) (← r.eval ρ)
  | _ => none

/-- A symbolic expression. An atom prints as an identifier. -/
inductive SymExpr
  | atom (x : Identifier)
  | symInt (lhs : SymExpr) (op : Opcode) (rhs : ℕ)
  | intSym (lhs : ℕ) (op : Opcode) (rhs : SymExpr)
  | symSym (lhs : SymExpr) (op : Opcode) (rhs : SymExpr)
  | cast (operand : SymExpr)

namespace SymExpr

/-- `dumpToStream` with `AS_FORMAT`. -/
def dumpToStream : SymExpr → String
  | atom x => x.1
  | symInt lhs op rhs => dumpToStream lhs ++ " " ++ op.getOpcodeStr ++ " " ++ toString rhs
  | intSym lhs op rhs => dumpToStream rhs ++ " " ++ op.getOpcodeStr ++ " " ++ toString lhs
  | symSym lhs op rhs => dumpToStream lhs ++ op.getOpcodeStr ++ dumpToStream rhs
  | cast operand => dumpToStream operand

/-- The value of an expression; a cast keeps the value. -/
def eval (ρ : String → ℤ) : SymExpr → ℤ
  | atom x => ρ x.1
  | symInt lhs op rhs => op.apply (eval ρ lhs) rhs
  | intSym lhs op rhs => op.apply lhs (eval ρ rhs)
  | symSym lhs op rhs => op.apply (eval ρ lhs) (eval ρ rhs)
  | cast operand => eval ρ operand

/-- The text of the expression parses to a symbol with the same values. -/
def Preserved (e : SymExpr) : Prop :=
  ∀ ρ, ∃ s, SParser.parse e.dumpToStream = .ok (some s) ∧ s.eval ρ = some (e.eval ρ)

end SymExpr

/-! ### Reading operands in a row -/

/-- A tree of identifiers, constants and opcodes. -/
inductive Arith
  | ident (x : Identifier)
  | const (n : ℕ)
  | binary (l : Arith) (o : Opcode) (r : Arith)

namespace Arith

def toCExpr : Arith → CExpr
  | ident x => .ident x
  | const n => .int n
  | binary l o r => .binary (toCExpr l) o.binaryOp (toCExpr r)

def eval (ρ : String → ℤ) : Arith → ℤ
  | ident x => ρ x.1
  | const n => n
  | binary l o r => o.apply (eval ρ l) (eval ρ r)

def level : Arith → ℕ
  | binary _ o _ => o.level
  | _ => 12

/-- The words of the tree without parentheses. -/
def words : Arith → List Word
  | ident x => [.id x]
  | const n => [.int n]
  | binary l o r => words l ++ .op o.binaryOp :: words r

/-- The tree needs no parentheses. -/
def Tight : Arith → Prop
  | binary l o r => Tight l ∧ Tight r ∧ o.level ≤ l.level ∧ o.level < r.level
  | _ => True

/-- The tree of a tight tree, an operator and one operand more. -/
def insert : Arith → Opcode → Arith → Arith
  | binary l o' r, o, a =>
    if o'.level < o.level then binary l o' (insert r o a) else binary (binary l o' r) o a
  | e, o, a => binary e o a

/-- The tree of a tight tree, an operator and the operands and operators of
another tree in their order. -/
def attach : Arith → Opcode → Arith → Arith
  | e, o, binary l o' r => attach (attach e o l) o' r
  | e, o, a => insert e o a

theorem insert_ident (x : Identifier) (o : Opcode) (a : Arith) :
    insert (ident x) o a = binary (ident x) o a := rfl

theorem insert_const (n : ℕ) (o : Opcode) (a : Arith) :
    insert (const n) o a = binary (const n) o a := rfl

theorem attach_ident (e : Arith) (o : Opcode) (x : Identifier) :
    attach e o (ident x) = insert e o (ident x) := rfl

theorem attach_const (e : Arith) (o : Opcode) (n : ℕ) :
    attach e o (const n) = insert e o (const n) := rfl

theorem insert_words (a : Arith) (o : Opcode) : ∀ e : Arith,
    (insert e o a).words = e.words ++ .op o.binaryOp :: a.words
  | ident _ => rfl
  | const _ => rfl
  | binary l o' r => by
    rw [insert]
    split_ifs
    · simp only [words, insert_words a o r, List.append_assoc, List.cons_append]
    · simp only [words]

theorem attach_words : ∀ (f e : Arith) (o : Opcode),
    (attach e o f).words = e.words ++ .op o.binaryOp :: f.words
  | ident _, e, o => insert_words _ o e
  | const _, e, o => insert_words _ o e
  | binary l o' r, e, o => by
    rw [attach, attach_words r, attach_words l]
    simp only [words, List.append_assoc, List.cons_append]

@[simp] theorem level_ident (x : Identifier) : (ident x).level = 12 := rfl
@[simp] theorem level_const (n : ℕ) : (const n).level = 12 := rfl
@[simp] theorem level_binary (l : Arith) (o : Opcode) (r : Arith) : (binary l o r).level = o.level := rfl

theorem insert_level (a : Arith) (o : Opcode) : ∀ e : Arith,
    (insert e o a).level = min e.level o.level
  | ident _ => by
    have := o.level_le
    rw [insert_ident, level_binary, level_ident]
    omega
  | const _ => by
    have := o.level_le
    rw [insert_const, level_binary, level_const]
    omega
  | binary l o' r => by
    rw [insert]
    split_ifs <;> simp only [level_binary] <;> omega

theorem insert_tight {a : Arith} (ha : a.level = 12) (hat : a.Tight) (o : Opcode) :
    ∀ e : Arith, e.Tight → (insert e o a).Tight
  | ident x, h => by
    have := o.level_le
    have hx := level_ident x
    exact ⟨h, hat, by omega, by omega⟩
  | const n, h => by
    have := o.level_le
    have hn := level_const n
    exact ⟨h, hat, by omega, by omega⟩
  | binary l o' r, h => by
    have := o.level_le
    obtain ⟨hl, hr, hlo, hro⟩ := h
    rw [insert]
    split_ifs with hlt
    · have hlevel := insert_level a o r
      exact ⟨hl, insert_tight ha hat o r hr, hlo, by omega⟩
    · have hlevel := level_binary l o' r
      exact ⟨⟨hl, hr, hlo, hro⟩, hat, by omega, by omega⟩

/-- What is read needs no parentheses. -/
theorem attach_tight : ∀ (f e : Arith) (o : Opcode), e.Tight → (attach e o f).Tight
  | ident x, e, o, h => insert_tight (a := ident x) rfl trivial o e h
  | const n, e, o, h => insert_tight (a := const n) rfl trivial o e h
  | binary l o' r, e, o, h => by
    rw [attach]
    exact attach_tight r _ o' (attach_tight l e o h)

theorem attach_level : ∀ (f e : Arith) (o : Opcode), f.Tight →
    (attach e o f).level = min e.level (min o.level f.level)
  | ident x, e, o, _ => by
    have := o.level_le
    rw [attach_ident, insert_level, level_ident]
    omega
  | const n, e, o, _ => by
    have := o.level_le
    rw [attach_const, insert_level, level_const]
    omega
  | binary l o' r, e, o, h => by
    obtain ⟨hl, hr, hlo, hro⟩ := h
    rw [attach, attach_level r _ o' hr, attach_level l e o hl, level_binary]
    omega

/-- Operators that bind more tightly than the one at the root go below it. -/
theorem attach_binary : ∀ (f e l : Arith) (o o' : Opcode), o.level < o'.level → f.Tight →
    o.level < f.level → attach (binary e o l) o' f = binary e o (attach l o' f)
  | ident _, _, _, _, _, h, _, _ => by simp only [attach, insert, h, if_true]
  | const _, _, _, _, _, h, _, _ => by simp only [attach, insert, h, if_true]
  | binary a p b, e, l, o, o', h, hf, hof => by
    obtain ⟨ha, hb, hpa, hpb⟩ := hf
    simp only [level] at hof
    rw [attach, attach_binary a e l o o' h ha (by omega),
      attach_binary b e _ o p hof hb (by omega), attach]

theorem insert_eq_binary {e : Arith} {o : Opcode} (he : o.level ≤ e.level) (a : Arith) :
    insert e o a = binary e o a := by
  cases e with
  | binary l o' r =>
    rw [level_binary] at he
    rw [insert, if_neg (by omega)]
  | _ => rfl

/-- **A tree that needs no parentheses is read as a whole.** -/
theorem attach_eq_binary : ∀ (f e : Arith) (o : Opcode), f.Tight → o.level ≤ e.level →
    o.level < f.level → attach e o f = binary e o f
  | ident x, _, _, _, he, _ => insert_eq_binary he (ident x)
  | const n, _, _, _, he, _ => insert_eq_binary he (const n)
  | binary l p r, e, o, hf, he, hof => by
    obtain ⟨hl, hr, hpl, hpr⟩ := hf
    rw [level_binary] at hof
    rw [attach, attach_eq_binary l e o hl he (by omega), attach_binary r e l o p hof hr (by omega),
      attach_eq_binary r l p hr hpl hpr]

/-- In a row of one level, `+` and `*` reassociate. -/
theorem apply_assoc {o p : Opcode} (ho : o = .add ∨ o = .mul) (h : o.level = p.level) (a b c : ℤ) :
    p.apply (o.apply a b) c = o.apply a (p.apply b c) := by
  rcases ho with rfl | rfl <;> cases p <;>
    first
    | exact absurd h (by decide)
    | (simp only [Opcode.apply]; ring)

/-- **A right operand of the same level** keeps the value of `+` and `*`. -/
theorem attach_eval (ρ : String → ℤ) {o : Opcode} (ho : o = .add ∨ o = .mul) : ∀ f e : Arith,
    f.Tight → o.level ≤ e.level → o.level ≤ f.level →
    (attach e o f).eval ρ = o.apply (e.eval ρ) (f.eval ρ)
  | ident x, e, _, he, _ => by
    rw [attach_ident, insert_eq_binary he]
    rfl
  | const n, e, _, he, _ => by
    rw [attach_const, insert_eq_binary he]
    rfl
  | binary l p r, e, hf, he, hof => by
    rcases Nat.lt_or_eq_of_le hof with hlt | heq
    · rw [attach_eq_binary _ e o hf he hlt, eval]
    · obtain ⟨hl, hr, hpl, hpr⟩ := hf
      rw [level_binary] at heq
      have hlevel := attach_level l e o hl
      have hrow := attach_eval ρ ho l e hl he (by omega)
      rw [attach, attach_eq_binary r _ p hr (by omega) hpr, eval, hrow, apply_assoc ho heq, eval]

/-! ### Trees and symbols -/

theorem toCExpr_level : ∀ a : Arith, a.toCExpr.level = a.level
  | ident _ => rfl
  | const n => by simp [toCExpr, CExpr.level]
  | binary _ _ _ => rfl

/-- C prints a tight tree without parentheses. -/
theorem toCExpr_words : ∀ a : Arith, a.Tight → a.toCExpr.words = a.words
  | ident _, _ => rfl
  | const n, _ => by simp [toCExpr, CExpr.words, words]
  | binary l o r, ⟨hl, hr, hlo, hro⟩ => by
    have h1 : ¬ l.level < o.binaryOp.cLevel := Nat.not_lt.mpr hlo
    have h2 : ¬ r.level < o.binaryOp.cLevel + 1 := Nat.not_lt.mpr hro
    simp only [toCExpr, CExpr.words, CExpr.wrap, toCExpr_level, h1, h2, decide_false, if_false,
      toCExpr_words l hl, toCExpr_words r hr, words, Bool.false_eq_true]

theorem opcode_binaryOp (o : Opcode) : o.binaryOp.opcode = some o := by cases o <;> rfl

theorem toSymbol_eval (ρ : String → ℤ) : ∀ a : Arith, a.toCExpr.toSymbol.eval ρ = some (a.eval ρ)
  | ident _ => rfl
  | const _ => rfl
  | binary l o r => by
    simp only [toCExpr, CExpr.toSymbol, Symbol.eval, opcode_binaryOp, toSymbol_eval ρ l,
      toSymbol_eval ρ r, eval]
    rfl

theorem toCExpr_injective : ∀ {a b : Arith}, a.toCExpr = b.toCExpr → a = b
  | ident _, b, h => by
    cases b <;> simp_all [toCExpr]
  | const n, b, h => by
    cases b <;> simp_all [toCExpr]
  | binary l o r, b, h => by
    cases b <;> simp only [toCExpr, reduceCtorEq, CExpr.binary.injEq] at h
    rw [toCExpr_injective h.1, Opcode.binaryOp_injective h.2.1, toCExpr_injective h.2.2]

end Arith

namespace SymExpr

open Arith SLexer

/-! ### What the parser reads -/

/-- The expression's own tree. -/
def tree : SymExpr → Arith
  | atom x => .ident x
  | symInt lhs op rhs => .binary (tree lhs) op (.const rhs)
  | intSym lhs op rhs => .binary (.const lhs) op (tree rhs)
  | symSym lhs op rhs => .binary (tree lhs) op (tree rhs)
  | cast operand => tree operand

/-- The tree the parser makes of the expression's text. -/
def read : SymExpr → Arith
  | atom x => .ident x
  | symInt lhs op rhs => attach (read lhs) op (.const rhs)
  | intSym lhs op rhs => attach (read rhs) op (.const lhs)
  | symSym lhs op rhs => attach (read lhs) op (read rhs)
  | cast operand => read operand

theorem read_tight : ∀ e : SymExpr, e.read.Tight
  | atom _ => trivial
  | symInt lhs _ _ => attach_tight _ _ _ (read_tight lhs)
  | intSym _ _ rhs => attach_tight _ _ _ (read_tight rhs)
  | symSym lhs _ _ => attach_tight _ _ _ (read_tight lhs)
  | cast operand => read_tight operand

theorem written_atom (x : Identifier) : Written [.id x] x.1.toList := by
  have h : Written [.id x] ([] ++ ((Word.id x).text.toList ++ [])) := .cons rfl (.nil rfl)
  rwa [List.nil_append, List.append_nil] at h

theorem written_opcode (o : Opcode) : Written [.op o.binaryOp] o.getOpcodeStr.toList := by
  have h : Written [.op o.binaryOp] ([] ++ ((Word.op o.binaryOp).text.toList ++ [])) :=
    .cons rfl (.nil rfl)
  rwa [List.nil_append, List.append_nil, Word.text, Opcode.binaryOp_text] at h

/-- An operator and a constant, with blanks around the operator. -/
theorem written_const (o : Opcode) (n : ℕ) : Written [.op o.binaryOp, .int n]
    (" ".toList ++ o.getOpcodeStr.toList ++ " ".toList ++ (toString n).toList) := by
  have h : Written [.op o.binaryOp, .int n] ([' '] ++ ((Word.op o.binaryOp).text.toList ++
      ([' '] ++ ((Word.int n).text.toList ++ [])))) := .cons rfl (.cons rfl (.nil rfl))
  have htext : (Word.op o.binaryOp).text = o.getOpcodeStr := o.binaryOp_text
  have hint : (Word.int n).text = toString n := rfl
  rw [htext, hint] at h
  simpa using h

/-- The text of an expression writes the words of the tree read from it. -/
theorem written_dump : ∀ e : SymExpr, Written e.read.words e.dumpToStream.toList
  | atom x => written_atom x
  | symInt lhs op rhs => by
    have h := (written_dump lhs).append (written_const op rhs)
    simpa [read, attach_words, words, dumpToStream] using h
  | intSym lhs op rhs => by
    have h := (written_dump rhs).append (written_const op lhs)
    simpa [read, attach_words, words, dumpToStream] using h
  | symSym lhs op rhs => by
    have h := (written_dump lhs).append ((written_opcode op).append (written_dump rhs))
    simpa [read, attach_words, dumpToStream] using h
  | cast operand => written_dump operand

/-- **Every expression's text parses**, to the tree that the precedence of
the operators makes of its operands in a row. -/
theorem parse_dump (e : SymExpr) :
    SParser.parse e.dumpToStream = .ok (some e.read.toCExpr.toSymbol) := by
  have hw := written_dump e
  rw [← toCExpr_words _ (read_tight e)] at hw
  obtain ⟨ts, hlex, hrun⟩ := CExpr.reach_words hw
  rw [String.ofList_toList] at hlex
  exact SParser.parse_of_reach hlex hrun

/-! ### When the text keeps the expression -/

/-- The level of the operator at the root. -/
def level : SymExpr → ℕ
  | atom _ => 12
  | symInt _ op _ | intSym _ op _ | symSym _ op _ => op.level
  | cast operand => level operand

/-- No constant is on the left, and no operand needs parentheses. -/
def exact : SymExpr → Bool
  | atom _ => true
  | symInt lhs op _ => exact lhs && op.level ≤ lhs.level
  | intSym _ _ _ => false
  | symSym lhs op rhs => exact lhs && exact rhs && op.level ≤ lhs.level && op.level < rhs.level
  | cast operand => exact operand

theorem tree_level : ∀ e : SymExpr, e.tree.level = e.level
  | atom _ | symInt _ _ _ | intSym _ _ _ | symSym _ _ _ => rfl
  | cast operand => tree_level operand

theorem read_of_exact : ∀ {e : SymExpr}, e.exact = true → e.read = e.tree
  | atom _, _ => rfl
  | symInt lhs op rhs, h => by
    simp only [exact, Bool.and_eq_true, decide_eq_true_eq] at h
    have hlhs := read_of_exact h.1
    rw [read, hlhs, attach_const, insert_eq_binary (by rw [tree_level]; exact h.2), tree]
  | symSym lhs op rhs, h => by
    simp only [exact, Bool.and_eq_true, decide_eq_true_eq] at h
    obtain ⟨⟨⟨hl, hr⟩, hlo⟩, hro⟩ := h
    have htight := read_tight rhs
    rw [read_of_exact hr] at htight
    rw [read, read_of_exact hl, read_of_exact hr, attach_eq_binary _ _ _ htight
      (by rw [tree_level]; exact hlo) (by rw [tree_level]; exact hro), tree]
  | cast operand, h => read_of_exact (e := operand) h

/-- The words read start with an atom. -/
theorem read_words_head : ∀ e : SymExpr, ∃ x ws, e.read.words = .id x :: ws
  | atom x => ⟨x, [], rfl⟩
  | symInt lhs _ _ | intSym _ _ lhs | symSym lhs _ _ => by
    obtain ⟨x, ws, h⟩ := read_words_head lhs
    rw [read, attach_words, h]
    exact ⟨x, _, rfl⟩
  | cast operand => read_words_head operand

theorem read_words_length : ∀ e : SymExpr, e.read.words.length = e.tree.words.length
  | atom _ => rfl
  | symInt lhs _ _ => by
    have := read_words_length lhs
    simp only [read, attach_words, tree, words, List.length_append, List.length_cons, this]
  | intSym _ _ rhs => by
    have := read_words_length rhs
    simp only [read, attach_words, tree, words, List.length_append, List.length_cons, this,
      List.length_nil]
    omega
  | symSym lhs _ rhs => by
    have h1 := read_words_length lhs
    have h2 := read_words_length rhs
    simp only [read, attach_words, tree, words, List.length_append, List.length_cons, h1, h2]
  | cast operand => read_words_length operand

/-- A tree whose words are the ones printed has no constant on the left. -/
theorem exact_of_words : ∀ {e : SymExpr}, e.read.words = e.tree.words → e.tree.Tight → e.exact = true
  | atom _, _, _ => rfl
  | symInt lhs op rhs, hw, ht => by
    rw [read, attach_words, tree, words] at hw
    obtain ⟨hlhs, -⟩ := List.append_inj hw (read_words_length lhs)
    have hl := exact_of_words hlhs ht.1
    have hlo := ht.2.2.1
    rw [tree_level] at hlo
    simp only [exact, hl, hlo, decide_true, Bool.and_self]
  | intSym lhs op rhs, hw, _ => by
    obtain ⟨x, ws, h⟩ := read_words_head rhs
    rw [read, attach_words, h, tree, words, words] at hw
    cases hw
  | symSym lhs op rhs, hw, ht => by
    rw [read, attach_words, tree, words] at hw
    obtain ⟨hlhs, hrest⟩ := List.append_inj hw (read_words_length lhs)
    have hl := exact_of_words hlhs ht.1
    have hr := exact_of_words (List.cons_inj_right _ |>.mp hrest) ht.2.1
    have hlo := ht.2.2.1
    have hro := ht.2.2.2
    rw [tree_level] at hlo hro
    simp only [exact, hl, hr, hlo, hro, decide_true, Bool.and_self]
  | cast operand, hw, ht => exact_of_words (e := operand) hw ht

/-- **When the tree survives.** The parser returns the expression's own tree
exactly if no constant is on the left and no operand needs parentheses. -/
theorem parse_tree_iff (e : SymExpr) :
    SParser.parse e.dumpToStream = .ok (some e.tree.toCExpr.toSymbol) ↔ e.exact = true := by
  rw [parse_dump]
  constructor
  · intro h
    have hsym := Option.some.inj (Except.ok.inj h)
    have htree := toCExpr_injective (CExpr.toSymbol_injective hsym)
    have htight := read_tight e
    rw [htree] at htight
    exact exact_of_words (congrArg Arith.words htree) htight
  · intro h
    rw [read_of_exact h]

/-- The operands need no parentheses, but for an operand of the same level on
the right of `+` or `*`, and a constant is on the left of a commutative
operator only. -/
def plain : SymExpr → Bool
  | atom _ => true
  | symInt lhs op _ => plain lhs && op.level ≤ lhs.level
  | intSym _ op rhs =>
    plain rhs && op.level ≤ rhs.level && (op == .add || op == .mul || op == .eq || op == .ne)
  | symSym lhs op rhs =>
    plain lhs && plain rhs && op.level ≤ lhs.level &&
      (op.level < rhs.level || (op.level == rhs.level && (op == .add || op == .mul)))
  | cast operand => plain operand

theorem apply_comm {o : Opcode} (h : ((o = .add ∨ o = .mul) ∨ o = .eq) ∨ o = .ne) (a b : ℤ) :
    o.apply a b = o.apply b a := by
  rcases h with ((rfl | rfl) | rfl) | rfl
  · exact Int.add_comm a b
  · exact Int.mul_comm a b
  · simp only [Opcode.apply, eq_comm]
  · simp only [Opcode.apply, ne_comm]

/-- What is read of a plain expression has its level and its values. -/
theorem read_of_plain (ρ : String → ℤ) : ∀ {e : SymExpr}, e.plain = true →
    e.read.level = e.level ∧ e.read.eval ρ = e.eval ρ
  | atom _, _ => ⟨rfl, rfl⟩
  | symInt lhs op rhs, h => by
    simp only [plain, Bool.and_eq_true, decide_eq_true_eq] at h
    obtain ⟨hlevel, hval⟩ := read_of_plain ρ h.1
    rw [read, attach_const, insert_eq_binary (by omega)]
    exact ⟨rfl, by rw [Arith.eval, hval]; rfl⟩
  | intSym lhs op rhs, h => by
    simp only [plain, Bool.and_eq_true, Bool.or_eq_true, decide_eq_true_eq, beq_iff_eq] at h
    obtain ⟨⟨hp, hle⟩, hop⟩ := h
    obtain ⟨hlevel, hval⟩ := read_of_plain ρ hp
    rw [read, attach_const, insert_eq_binary (by omega)]
    exact ⟨rfl, by rw [Arith.eval, hval, apply_comm hop]; rfl⟩
  | symSym lhs op rhs, h => by
    simp only [plain, Bool.and_eq_true, Bool.or_eq_true, decide_eq_true_eq, beq_iff_eq] at h
    obtain ⟨⟨⟨hpl, hpr⟩, hle⟩, hrhs⟩ := h
    obtain ⟨hll, hlv⟩ := read_of_plain ρ hpl
    obtain ⟨hrl, hrv⟩ := read_of_plain ρ hpr
    have hlevel := attach_level rhs.read lhs.read op (read_tight rhs)
    refine ⟨by rw [read, level]; omega, ?_⟩
    rw [read, SymExpr.eval, ← hlv, ← hrv]
    rcases hrhs with hlt | ⟨heq, hop⟩
    · rw [attach_eq_binary _ _ _ (read_tight rhs) (by omega) (by omega)]
      rfl
    · exact attach_eval ρ hop _ _ (read_tight rhs) (by omega) (by omega)
  | cast operand, h => read_of_plain ρ (e := operand) h

/-- **When the value survives.** The text of a plain expression parses to a
symbol with the same value under every assignment. -/
theorem preserved_of_plain {e : SymExpr} (h : e.plain = true) : Preserved e := by
  intro ρ
  refine ⟨_, parse_dump e, ?_⟩
  rw [toSymbol_eval, (read_of_plain ρ h).2]

/-- The expression `2 * x + (y - 1)`. -/
theorem preserved_of_plain_sum :
    Preserved (.symSym (.intSym 2 .mul (.atom ⟨"x", rfl⟩)) .add
      (.symInt (.atom ⟨"y", rfl⟩) .sub 1)) :=
  preserved_of_plain (by decide)

/-- `5 - x` is printed as `x - 5`, and the product of `x + 1` and `y` as
`x + 1*y`. -/
theorem dump_not_preserved :
    ¬ Preserved (.intSym 5 .sub (.atom ⟨"x", rfl⟩)) ∧
      ¬ Preserved (.symSym (.symInt (.atom ⟨"x", rfl⟩) .add 1) .mul (.atom ⟨"y", rfl⟩)) := by
  constructor
  · intro h
    obtain ⟨s, hs, hval⟩ := h fun _ => 0
    rw [parse_dump] at hs
    cases hs
    revert hval
    decide
  · intro h
    obtain ⟨s, hs, hval⟩ := h fun _ => 2
    rw [parse_dump] at hs
    cases hs
    revert hval
    decide

end SymExpr
end Apisan
