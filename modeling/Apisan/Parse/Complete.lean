/-
# Every sentence is accepted

The tables accept every sentence of the grammar, whatever the precedence of the
operators does to the ambiguous ones (`complete`).

Every production but those of a binary expression is walked over
(`ordinary_checked`). A binary expression is a row of operands and operators
(`Row`): before an operator the tables reduce until they shift it, before what
follows an expression they reduce to the end, and in both cases no level matters.

Key definitions: `SParser.follow`, `SParser.Row`, `SParser.Pending`.
Key theorems: `SParser.ordinary_checked`, `SParser.Row.runs`, `SParser.complete`.
-/
import Apisan.Lib.Recognizer
import Apisan.Parse.Language
import Apisan.Parse.Runs

namespace Apisan
namespace SParser

open ShiftReduce ContextFree

/-! ### Productions without a choice -/

/-- The tokens that may follow a nonterminal. How far a binary expression goes is
for the operators to say: it is no piece by itself. -/
def follow : Nonterminal → Option TokenType → Bool
  | .expression => followExpression
  | .binaryExpression => fun _ => false
  | .castExpression | .unaryExpression => followBinary
  | .postfixExpression | .primaryExpression | .concreteIntegerExpression => followPostfix
  | .argumentList => followList .rparen
  | .constraint | .constraintList => followList .rbrace

/-- The productions without a binary expression on the right side. -/
def Production.ordinary : Production → Bool
  | .expression1 | .binaryExpression1 | .binaryExpression2 _ => false
  | _ => true

theorem ordinary_checked : ∀ p : Production, p.ordinary = true → p.lhs ≠ .binaryExpression ∧
    ∀ s : State, (goto s p.lhs).isSome = true → walks tables follow p s (productions.rhs p) = true := by
  decide +kernel

/-! ### Rows of operands -/

/-- Operands with operators between them. -/
inductive Row : List TokenType → Prop
  | one {w : List TokenType} : Runs tables follow .castExpression w → Row w
  | more {w u : List TokenType} (o : BinaryOp) : Runs tables follow .castExpression w → Row u →
    Row (w ++ .op o :: u)

theorem Row.append {u w : List TokenType} (o : BinaryOp) (hu : Row u) (hw : Row w) : Row (u ++ .op o :: w) := by
  induction hu with
  | one h => exact .more o h hw
  | more o' h _ ih =>
    rw [List.append_assoc, List.cons_append]
    exact .more o' h ih

/-- The stack with operands that wait for the right side of their operator. -/
inductive Pending (st : List (State × Unit)) : List (State × Unit) → Prop
  | base : Pending st st
  | op {st' : List (State × Unit)} (o : BinaryOp) : Pending st st' →
    Pending st ((.op o, ()) :: ((top tables st').afterBinary, ()) :: st')

/-- A stack that awaits an expression. -/
def Awaits (st : List (State × Unit)) : Prop := ∃ g, goto (top tables st) .expression = some g

theorem Pending.operand {st st' : List (State × Unit)} (hst : Awaits st) (h : Pending st st') :
    (top tables st').operand = true := by
  cases h with
  | base =>
    obtain ⟨g, hg⟩ := hst
    exact (goto_expression hg).1
  | op o _ => rfl

/-- **Before an operator** the operands that bind as tightly are reduced, and the
operator is shifted. -/
theorem Pending.shift {st st' : List (State × Unit)} (hst : Awaits st) (h : Pending st st') (o : BinaryOp)
    (rest : List (TokenType × Unit)) : ∃ st'', Pending st st'' ∧
      CleanReach tables accept none ⟨((top tables st').afterBinary, ()) :: st', (.op o, ()) :: rest⟩
        ⟨st'', rest⟩ := by
  induction h with
  | base =>
    obtain ⟨g, hg⟩ := hst
    refine ⟨_, .op o .base, clean_shift ?_⟩
    rw [top_cons, (goto_expression hg).2.2]
    rfl
  | @op st₁ o' h ih =>
    by_cases hlevel : level (.op o) ≤ level (.op o')
    · obtain ⟨st'', hst'', hreach⟩ := ih
      refine ⟨st'', hst'', .trans ?_ hreach⟩
      have hact : action (.opRhs o') (some (.op o)) = .reduce (.binaryExpression2 o') := if_pos hlevel
      exact clean_reduce [_, _, _] hact rfl (goto_binary (h.operand hst))
    · have hact : action (.opRhs o') (some (.op o)) = .shift (.op o) := if_neg hlevel
      exact ⟨_, .op o (.op o' h), clean_shift hact⟩

theorem end_checked : ∀ la : Option TokenType, followExpression la = true →
    action .binary la = .reduce .expression1 ∧ ∀ o, action (.opRhs o) la = .reduce (.binaryExpression2 o) := by
  decide +kernel

/-- **At the end** all operands are reduced. -/
theorem Pending.reduce {st st' : List (State × Unit)} {g : State} (hst : goto (top tables st) .expression = some g)
    (h : Pending st st') {rest : List (TokenType × Unit)}
    (hf : followExpression (rest.head?.map Prod.fst) = true) :
    CleanReach tables accept none ⟨((top tables st').afterBinary, ()) :: st', rest⟩ ⟨(g, ()) :: st, rest⟩ := by
  induction h with
  | base =>
    rw [(goto_expression hst).2.2]
    exact clean_reduce [_] (end_checked _ hf).1 rfl hst
  | op o h ih =>
    exact .trans (clean_reduce [_, _, _] ((end_checked _ hf).2 o) rfl (goto_binary (h.operand ⟨g, hst⟩))) ih

/-- An operand is read to a binary expression. -/
theorem reach_operand {w : List TokenType} (hw : Runs tables follow .castExpression w)
    {st : List (State × Unit)} {rest : List (TokenType × Unit)} (hst : (top tables st).operand = true)
    (hf : followBinary (rest.head?.map Prod.fst) = true) :
    CleanReach tables accept none ⟨st, units w ++ rest⟩ ⟨((top tables st).afterBinary, ()) :: st, rest⟩ := by
  have hgoto : goto (top tables st) .castExpression = some .cast := if_pos hst
  refine (hw st .cast rest hgoto hf).trans ?_
  have hact : action .cast (rest.head?.map Prod.fst) = .reduce .binaryExpression1 := if_pos hf
  exact clean_reduce [_] hact rfl (goto_binary hst)

/-- **A row runs** to an expression. -/
theorem Row.reach {w : List TokenType} (h : Row w) {st : List (State × Unit)} {g : State}
    (hst : goto (top tables st) .expression = some g) {rest : List (TokenType × Unit)}
    (hf : followExpression (rest.head?.map Prod.fst) = true) {st' : List (State × Unit)} (hst' : Pending st st') :
    CleanReach tables accept none ⟨st', units w ++ rest⟩ ⟨(g, ()) :: st, rest⟩ := by
  induction h generalizing st' with
  | one hw => exact (reach_operand hw (hst'.operand ⟨g, hst⟩) (followBinary_of_expression hf)).trans (hst'.reduce hst hf)
  | @more w u o hw _ ih =>
    rw [units_append, List.append_assoc]
    refine (reach_operand hw (hst'.operand ⟨g, hst⟩) rfl).trans ?_
    obtain ⟨st'', hst'', hreach⟩ := hst'.shift ⟨g, hst⟩ o (units u ++ rest)
    exact hreach.trans (ih hst'')

theorem Row.runs {w : List TokenType} (h : Row w) : Runs tables follow .expression w :=
  fun _ _ _ hgoto hf => h.reach hgoto hf .base

/-! ### Sentences -/

/-- What a nonterminal derives runs, and a binary expression is a row. -/
def Derives (n : Nonterminal) (w : List TokenType) : Prop :=
  Runs tables follow n w ∧ (n = .binaryExpression → Row w)

theorem runs_binary (w : List TokenType) : Runs tables follow .binaryExpression w := nofun

theorem derives_production (p : Production) (vs : List Unit) (u : List TokenType)
    (h : Pieces (Made Derives) (productions.rhs p) vs u) : Derives (productions.lhs p) u := by
  by_cases hp : p.ordinary = true
  · exact ⟨runs_of_walks items (ordinary_checked p hp).2 (h.made fun _ _ hn => hn.1),
      fun hlhs => absurd hlhs (ordinary_checked p hp).1⟩
  · cases p with
    | expression1 =>
      cases h with
      | cons hrow hnil =>
        cases hnil
        rw [List.append_nil]
        exact ⟨(hrow.2 rfl).runs, nofun⟩
    | binaryExpression1 =>
      cases h with
      | cons hcast hnil =>
        cases hnil
        rw [List.append_nil]
        exact ⟨runs_binary _, fun _ => .one hcast.1⟩
    | binaryExpression2 o =>
      rcases h with _ | ⟨hl, _ | ⟨ho, _ | ⟨hr, _ | _⟩⟩⟩
      obtain rfl : _ = [TokenType.op o] := ho
      rw [List.append_nil]
      exact ⟨runs_binary _, fun _ => (hl.2 rfl).append o (hr.2 rfl)⟩
    | _ => exact absurd rfl hp

/-- **The tables accept every sentence.** -/
theorem complete : Complete tables productions .expression := by
  intro w hw
  have hruns : Runs tables follow .expression w := (hw.made derives_production).1
  refine ⟨[(.done, ())], ?_, rfl⟩
  have hrun := hruns [] .done [] rfl rfl
  rw [List.append_nil] at hrun
  exact hrun

end SParser
end Apisan
