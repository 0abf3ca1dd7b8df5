/-
# Constraint annotations

The text that `getCond` writes for a symbol and its ranges, and what the parser
makes of it: whatever text of a symbol the parser reads to its end, the text
with the annotation is read to that symbol with the same bounds in the same
order (`parse_getCond`).

The run on the annotated text is the run on the symbol's text until the accepting
state, since the table reduces on `@=` where it reduces on the end of the text
(`SParser.action_follow`); the rest is an induction on the ranges.

Key definitions: `RangeSet.print`, `printSymbolCond`, `getCond`.
Key theorems: `RangeSet.written_print`, `SParser.run_cond`, `parse_getCond`.
-/
import Apisan.Parse.CExpr

namespace Apisan

/-- The ranges of a symbol, in their order. -/
abbrev RangeSet := List (ℤ × ℤ)

namespace RangeSet

/-- The loop of `print`. -/
def printRanges : Bool → RangeSet → String
  | _, [] => ""
  | isFirst, i :: ranges =>
    (if isFirst then "" else ", ") ++ ("[" ++ toString i.1 ++ ", " ++ toString i.2 ++ "]") ++
      printRanges false ranges

/-- `print`. -/
def print (ranges : RangeSet) : String := "\x7b " ++ printRanges true ranges ++ " \x7d"

end RangeSet

/-- `printSymbolCond`, of the ranges that the state has for the symbol. -/
def printSymbolCond : Option RangeSet → String
  | some ranges => if ranges.isEmpty then "" else ranges.print
  | none => ""

/-- `getCond`, of the text of the symbol. -/
def getCond (symbol : String) (ranges : Option RangeSet) : String :=
  let cond := printSymbolCond ranges
  if cond.isEmpty then "" else symbol ++ "@=" ++ cond

open SLexer

/-! ### The words of the annotation -/

namespace RangeSet

/-- The words of a range. -/
def rangeWords (i : ℤ × ℤ) : List Word :=
  .lbracket :: ((CExpr.int i.1).words ++ .comma :: ((CExpr.int i.2).words ++ [.rbracket]))

/-- The words of the ranges after the first. -/
def moreWords : RangeSet → List Word
  | [] => []
  | i :: ranges => .comma :: (rangeWords i ++ moreWords ranges)

/-- The words of the annotation. -/
def condWords (i : ℤ × ℤ) (ranges : RangeSet) : List Word :=
  .constraintOp :: .lbrace :: (rangeWords i ++ (moreWords ranges ++ [.rbrace]))

theorem written_word (w : Word) : Written [w] w.text.toList := by
  have h : Written [w] ([] ++ (w.text.toList ++ [])) := .cons rfl (.nil rfl)
  rwa [List.nil_append, List.append_nil] at h

theorem written_int (n : ℤ) : Written (CExpr.int n).words (toString n).toList := by
  cases n with
  | ofNat n => exact written_word (.int n)
  | negSucc n =>
    have hprint : toString (Int.negSucc n) = (Word.op .minus).text ++ (Word.int (n + 1)).text := rfl
    have hwords : (CExpr.int (Int.negSucc n)).words = [.op .minus, .int (n + 1)] :=
      if_pos (Int.negSucc_lt_zero n)
    rw [hprint, hwords, String.toList_append]
    exact (written_word (.op .minus)).append (written_word (.int (n + 1)))

theorem written_range (i : ℤ × ℤ) :
    Written (rangeWords i) ("[" ++ toString i.1 ++ ", " ++ toString i.2 ++ "]").toList := by
  have hlo := (written_word .lbracket).append (written_int i.1)
  have hhi := (written_word .comma).append ((written_int i.2).blanks (b := [' ']) rfl)
  have h := (hlo.append hhi).append (written_word .rbracket)
  simpa [rangeWords, Word.text] using h

theorem written_more : ∀ ranges : RangeSet, Written (moreWords ranges) (printRanges false ranges).toList
  | [] => .nil rfl
  | i :: ranges => by
    have hrange := (written_word .comma).append ((written_range i).blanks (b := [' ']) rfl)
    have h := hrange.append (written_more ranges)
    simpa [moreWords, printRanges, Word.text] using h

/-- **The annotation writes its words.** -/
theorem written_print (i : ℤ × ℤ) (ranges : RangeSet) :
    Written (condWords i ranges) ("@=" ++ print (i :: ranges)).toList := by
  have hopen := (written_word .constraintOp).append (written_word .lbrace)
  have hranges := ((written_range i).append (written_more ranges)).blanks (b := [' ']) rfl
  have hclose := (written_word .rbrace).blanks (b := [' ']) rfl
  have h := hopen.append (hranges.append hclose)
  simpa [condWords, print, printRanges, Word.text] using h

/-! ### No two of them run together -/

/-- The words that no character goes on with. -/
theorem chain_cons {w : Word} (hw : ∀ c, stops w.type c = true) {ws : List Word}
    (h : ws.IsChain Apart) : (w :: ws).IsChain Apart :=
  h.cons fun _ _ c _ => hw c

theorem chain_int (n : ℤ) {w : Word} (hw : w.sign = true) {ws : List Word}
    (h : (w :: ws).IsChain Apart) : ((CExpr.int n).words ++ w :: ws).IsChain Apart := by
  have hint : ∀ m : ℕ, (Word.int m :: w :: ws).IsChain Apart := fun m =>
    h.cons_cons (apart_sign (.int m) rfl hw)
  unfold CExpr.words
  split_ifs
  · exact (hint _).cons_cons (apart_opens rfl rfl)
  · exact hint _

theorem chain_range (i : ℤ × ℤ) {ws : List Word} (h : ws.IsChain Apart) :
    (rangeWords i ++ ws).IsChain Apart := by
  have hclose : (Word.rbracket :: ws).IsChain Apart := chain_cons (fun _ => rfl) h
  have hcomma := chain_cons (w := .comma) (fun _ => rfl) (chain_int i.2 rfl hclose)
  have hopen := chain_cons (w := .lbracket) (fun _ => rfl) (chain_int i.1 rfl hcomma)
  simpa [rangeWords] using hopen

theorem chain_more {ws : List Word} (h : ws.IsChain Apart) : ∀ ranges : RangeSet,
    (moreWords ranges ++ ws).IsChain Apart
  | [] => h
  | i :: ranges => by
    have hrange := chain_range i (chain_more h ranges)
    rw [← List.append_assoc] at hrange
    exact chain_cons (fun _ => rfl) hrange

theorem chain_cond (i : ℤ × ℤ) (ranges : RangeSet) : (condWords i ranges).IsChain Apart :=
  chain_cons (fun _ => rfl) (chain_cons (fun _ => rfl)
    (chain_range i (chain_more (List.isChain_singleton _) ranges)))

end RangeSet

/-! ### Runs over the annotation -/

namespace SParser

open ShiftReduce Machine RangeSet

/-- A bound of a range. -/
theorem run_bound (n : ℤ) {st : Stack} {rest : List (TokenType × Val)} {g : State}
    (hst : top tables st = .rangeOpen ∨ top tables st = .rangeSep)
    (hg : goto (top tables st) .concreteIntegerExpression = some g)
    (hf : followPostfix (la rest) = true) :
    Steps ⟨st, input (CExpr.int n).words ++ rest⟩ ⟨(g, .int n) :: st, rest⟩ := by
  have hshift : ∀ {t : TokenType} {s : State}, action .rangeOpen (some t) = .shift s →
      action (top tables st) (some t) = .shift s := by
    rintro t s h
    rcases hst with hst | hst <;> rw [hst] <;> exact h
  unfold CExpr.words
  split_ifs with hn
  · refine (shift (s := .neg) (hshift rfl)).trans ?_
    refine (shift (s := .negConst) (by simp [action, shiftOnly, Word.type])).trans ?_
    refine reduce .concreteIntegerNeg (v := .int n) [_, _] (by simp [action, reduceOn, hf]) rfl ?_ hg
    have hact := act_neg n.natAbs (Word.op .minus).text
    rwa [show -(n.natAbs : ℤ) = n by omega] at hact
  · refine (shift (s := .intConst) (hshift rfl)).trans ?_
    refine reduce .concreteIntegerPos (v := .int n) [_] (by simp [action, reduceOn, hf]) rfl ?_ hg
    have hact := act_pos n.natAbs
    rwa [show (n.natAbs : ℤ) = n by omega] at hact

/-- A range, before a comma or the closing brace. -/
theorem run_range (i : ℤ × ℤ) {st : Stack} {rest : List (TokenType × Val)} {g : State}
    (hst : top tables st = .condOpen ∨ top tables st = .rangeComma)
    (hg : goto (top tables st) .constraint = some g) (hf : followList .rbrace (la rest) = true) :
    Steps ⟨st, input (rangeWords i) ++ rest⟩ ⟨(g, .constraint i) :: st, rest⟩ := by
  have hshift : action (top tables st) (some .lbracket) = .shift .rangeOpen := by
    rcases hst with hst | hst <;> rw [hst] <;> rfl
  simp only [rangeWords, input_cons, input_append, List.cons_append, List.append_assoc, input_nil,
    List.nil_append]
  refine (shift (s := .rangeOpen) hshift).trans ?_
  refine (run_bound i.1 (.inl rfl) rfl rfl).trans ?_
  refine (shift (s := .rangeSep) rfl).trans ?_
  refine (run_bound i.2 (.inr rfl) rfl rfl).trans ?_
  refine (shift (s := .rangeClose) rfl).trans ?_
  exact reduce .constraint [_, _, _, _, _] (by simp [action, reduceOn, hf]) rfl rfl hg

/-- After a range come a comma or the closing brace. -/
theorem followList_more : ∀ (ranges : RangeSet) {rest : List (TokenType × Val)},
    la rest = some .rbrace → followList .rbrace (la (input (moreWords ranges) ++ rest)) = true
  | [], _, h => by rw [moreWords, input_nil, List.nil_append, h]; rfl
  | _ :: _, _, _ => rfl

/-- The ranges after the first are appended in their order. -/
theorem run_more : ∀ (ranges done : RangeSet) {st : Stack} {rest : List (TokenType × Val)},
    top tables st = .condOpen → la rest = some .rbrace →
    Steps ⟨(.condList, .constraints done) :: st, input (moreWords ranges) ++ rest⟩
      ⟨(.condList, .constraints (done ++ ranges)) :: st, rest⟩
  | [], done, st, rest, _, _ => by
    rw [List.append_nil]
    exact .refl
  | i :: ranges, done, st, rest, hst, hla => by
    simp only [moreWords, input_cons, input_append, List.cons_append, List.append_assoc]
    have hfollow := followList_more ranges hla
    refine (shift (s := .rangeComma) rfl).trans ?_
    refine (run_range i (g := .rangeNext) (.inr rfl) rfl hfollow).trans ?_
    refine (reduce .constraintListAppend (v := .constraints (done ++ [i])) (s := .condList) [_, _, _]
      (by simp [action, reduceOn, hfollow]) rfl rfl (by rw [hst]; rfl)).trans ?_
    have h := run_more ranges (done ++ [i]) hst hla
    rwa [List.append_assoc] at h

/-- **The annotation of an expression** is read to its constraint. -/
theorem run_cond (e : Symbol) (i : ℤ × ℤ) (ranges : RangeSet) {st : Stack} (hst : top tables st = .start) :
    Steps ⟨(.done, .symbol e) :: st, input (condWords i ranges)⟩
      ⟨(.done, .symbol (.constraint e (i :: ranges))) :: st, []⟩ := by
  simp only [condWords, input_cons, input_append, input_nil]
  have hfollow : followList .rbrace (la (input (moreWords ranges) ++ [(.rbrace, .text Word.rbrace.text)])) =
      true := followList_more ranges rfl
  refine (shift (s := .cond) rfl).trans ?_
  refine (shift (s := .condOpen) rfl).trans ?_
  refine (run_range i (g := .rangeOne) (.inl rfl) rfl hfollow).trans ?_
  refine (reduce .constraintListOne (v := .constraints [i]) (s := .condList) [_]
    (by simp [action, reduceOn, hfollow]) rfl rfl rfl).trans ?_
  refine (run_more ranges [i] rfl rfl).trans ?_
  refine (shift (s := .condClose) rfl).trans ?_
  exact reduce .binaryExpression3 [_, _, _, _, _] rfl rfl rfl (by rw [hst]; rfl)

end SParser

/-! ### The annotation comes back -/

theorem print_isEmpty (ranges : RangeSet) : ranges.print.isEmpty = false := by
  simp [RangeSet.print]

theorem getCond_cons (symbol : String) (i : ℤ × ℤ) (ranges : RangeSet) :
    getCond symbol (some (i :: ranges)) = symbol ++ ("@=" ++ RangeSet.print (i :: ranges)) := by
  have hcond : printSymbolCond (some (i :: ranges)) = RangeSet.print (i :: ranges) := rfl
  rw [getCond, hcond]
  simp only [print_isEmpty, Bool.false_eq_true, if_false, String.append_assoc]

theorem breaks_at : Breaks '@' := breaks_of rfl (by decide)

open SParser ShiftReduce Machine in
/-- **Constraint annotations round-trip.** A text that parses to a symbol,
annotated with ranges, parses to the constraint of the symbol and the ranges. -/
theorem parse_getCond {symbol : String} {e : Symbol} (h : SParser.parse symbol = .ok (some e))
    {ranges : RangeSet} (hne : ranges ≠ []) :
    SParser.parse (getCond symbol (some ranges)) = .ok (some (.constraint e ranges)) := by
  obtain ⟨i, ranges, rfl⟩ := List.exists_cons_of_ne_nil hne
  obtain ⟨ts, st, hlex, hst, hrun⟩ := reach_of_parse h
  have hcond : lexChars ("@=" ++ RangeSet.print (i :: ranges)).toList =
      ⟨(RangeSet.condWords i ranges).map Word.token, none⟩ :=
    lex_written (RangeSet.written_print i ranges) (RangeSet.chain_cond i ranges)
  obtain ⟨cs, hcs⟩ : ∃ cs, ("@=" ++ RangeSet.print (i :: ranges)).toList = '@' :: cs :=
    ⟨_, String.toList_append⟩
  have hlex' : lex (getCond symbol (some (i :: ranges))) =
      ⟨ts ++ (RangeSet.condWords i ranges).map Word.token, none⟩ := by
    rw [getCond_cons, lex, String.toList_append, hcs, lexChars_break breaks_at cs symbol.toList hlex, ← hcs,
      hcond]
  have hsymbols : symbols (ts ++ (RangeSet.condWords i ranges).map Word.token) =
      symbols ts ++ input (RangeSet.condWords i ranges) := by
    rw [← CExpr.symbols_token]
    exact List.map_append
  refine parse_of_reach hlex' (.trans ?_ (run_cond e i ranges hst))
  -- the run on the symbol's text, with `@=` in the place of its end
  rw [hsymbols]
  exact reach_append (input (RangeSet.condWords i ranges)).tail (action_follow rfl) hrun

/-- The text `p->n` with the ranges `[-2, 3]` and `[7, 7]`. -/
theorem parse_getCond_member :
    SParser.parse (getCond "p->n" (some [(-2, 3), (7, 7)])) =
      .ok (some (.constraint (.field (.id "p") "n") [(-2, 3), (7, 7)])) :=
  have h : SParser.parse "p->n" = .ok (some (.field (.id "p") "n")) := rfl
  parse_getCond h (by decide)

end Apisan
