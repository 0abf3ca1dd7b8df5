/-
# When symbols are equal

Two symbols are equal for Python when the hashes of their representations are
(`Symbol.key`). The names and literals in the symbols that the parser returns
are ones (`SParser.proper_of_parse`), so where the hash tells representations
apart two of them are equal exactly if their rows are (`Symbol.identity_iff`):
`(a + b) * c` and `a + b * c` are equal, and different trees (`grouping_lost`).

Key definitions: `SParser.Holds`.
Key theorems: `SParser.holds_reach`, `SParser.proper_of_parse`,
`Symbol.identity_iff`.
-/
import Apisan.Parse.SParser
import Apisan.Parse.Row

namespace Apisan

namespace SParser

open ShiftReduce Machine SLexer

/-- The rows of the symbols in a value are proper. -/
def Val.Proper : Val → Prop
  | .symbol s => s.row.Proper
  | .args ss => (Symbol.rowArgs ss).Proper
  | _ => True

/-- The type of the token that the action of a production takes a name or a
literal from, last on its right side. -/
def Production.named : Production → Option TokenType
  | .primaryExpression1 | .postfixExpression2 => some .id
  | .primaryExpression4 => some .stringLiteral
  | _ => none

/-- An action makes proper symbols of proper symbols. -/
theorem act_proper {p : Production} {vs : List Val} {v : Val} (h : act p vs = .ok v)
    (hvs : ∀ u ∈ vs, u.Proper) (hnamed : ∀ ty u, p.named = some ty → vs.getLast? = some u →
      ∀ t, u = .text t → Spelled ty t) :
    v.Proper := by
  unfold act at h
  split at h
  case h_12 s t₁ m =>
    cases h
    have hs : s.row.Proper := hvs (.symbol s) (by simp)
    exact (Symbol.proper_field s m).mpr ⟨hs, (hnamed .id _ rfl rfl m rfl).1 rfl⟩
  case h_15 t =>
    cases h
    exact ⟨(hnamed .id _ rfl rfl t rfl).1 rfl, trivial⟩
  case h_18 t =>
    cases h
    exact ⟨(hnamed .stringLiteral _ rfl rfl t rfl).2 rfl, trivial⟩
  case h_1 | h_2 | h_8 | h_9 | h_10 | h_11 | h_17 =>
    cases h
    exact hvs (.symbol _) (by simp)
  case h_3 | h_4 | h_13 | h_14 =>
    cases h
    simpa [Val.Proper] using hvs
  case h_19 t | h_20 t =>
    cases hint : Python.int t with
    | ok n =>
      rw [hint] at h
      cases h
      trivial
    | error e =>
      rw [hint] at h
      cases h
  case h_22 | h_23 =>
    cases h
    simpa [Val.Proper, Symbol.rowArgs, Args.Proper, Symbol.row, Symbol.proper_rowArgs] using hvs
  case h_24 => cases h
  all_goals
    cases h
    trivial

/-- The token a state is reached by, if it is a name or a literal. -/
def State.named : State → Option TokenType
  | .ident | .arrowId => some .id
  | .string => some .stringLiteral
  | _ => none

/-- A named state is reached by its token, and reduces by a production that makes a
name or literal from it. -/
theorem named_checked : ∀ s : State,
    (∀ t : TokenType, (action s (some t)).target.bind State.named = none ∨
      (action s (some t)).target.bind State.named = some t) ∧
        (∀ n : Nonterminal, (goto s n).bind State.named = none) ∧
          s.completed.all (fun p => p.named = s.named) = true := by
  decide +kernel

/-- What an entry of the stack holds. -/
def Holds (x : State × Val) : Prop :=
  x.2.Proper ∧ ∀ ty, x.1.named = some ty → ∀ t, x.2 = .text t → Spelled ty t

/-- What a token holds. -/
def Reads (x : TokenType × Val) : Prop := ∃ t, x.2 = .text t ∧ Spelled x.1 t

theorem holds_shift {s s' : State} {t : TokenType} {v : Val} (h : Reads (t, v))
    (hact : action s (some t) = .shift s') : Holds (s', v) := by
  obtain ⟨text, rfl, hspelled⟩ := h
  refine ⟨trivial, fun ty hty text' htext => ?_⟩
  cases htext
  have hnamed := (named_checked s).1 t
  rw [hact, Action.target, Option.bind_some, show s'.named = some ty from hty] at hnamed
  obtain rfl : ty = t := by simpa using hnamed
  exact hspelled

theorem holds_reduce {p : Production} {s : State} {v : Val} {fr st : List (State × Val)}
    {la : Option TokenType} (hfr : ∀ x ∈ fr, Holds x) (hact : action (top tables (fr ++ st)) la = .reduce p)
    (hsem : act p (fr.map Prod.snd).reverse = .ok v) (hgoto : goto (top tables st) p.lhs = some s) :
    Holds (s, v) := by
  refine ⟨act_proper hsem (fun u hu => ?_) fun ty u hty hu => ?_, fun ty hty => ?_⟩
  · obtain ⟨x, hx, rfl⟩ := List.mem_map.mp (List.mem_reverse.mp hu)
    exact (hfr x hx).1
  · cases fr with
    | nil => cases hu
    | cons x fr =>
      obtain rfl : x.2 = u := by simpa using hu
      have hcompleted : x.1.completed = some p := action_reduce hact
      have hnamed := (named_checked x.1).2.2
      rw [hcompleted, Option.all_some, decide_eq_true_eq] at hnamed
      exact (hfr x List.mem_cons_self).2 ty (hnamed ▸ hty)
  · have hnamed := (named_checked (top tables st)).2.1 p.lhs
    rw [hgoto, Option.bind_some, show s.named = some ty from hty] at hnamed
    cases hnamed

theorem holds_reach {eof : Option Python.Error} {inp : List (TokenType × Val)} (hin : ∀ x ∈ inp, Reads x)
    {c : ShiftReduce.Config State TokenType Val} (h : Reach (step tables act eof) ⟨[], inp⟩ c) :
    ∀ x ∈ c.stack, Holds x := by
  refine Linked.of_mem (T := tables) (linked_reach (E := fun _ => Holds) ?_ ?_ hin h).1
  · intro s t v s' hread hact
    exact holds_shift hread hact
  · intro p s v fr st la hlinked _ hact hsem hgoto
    have hfr := fun x hx => hlinked.of_mem x (List.mem_append_left st hx)
    exact holds_reduce hfr hact hsem hgoto

end SParser

/-! ### Identity -/

namespace SParser

/-- **The parser returns proper symbols.** -/
theorem proper_of_parse {text : String} {s : Symbol} (h : parse text = .ok (some s)) : s.row.Proper := by
  obtain ⟨ts, st, hlex, -, hrun⟩ := reach_of_parse h
  have hin : ∀ x ∈ symbols ts, Reads x := by
    intro x hx
    obtain ⟨t, ht, rfl⟩ := List.mem_map.mp hx
    have htokens : (SLexer.lex text).tokens = ts := by rw [hlex]
    exact ⟨t.value, rfl, SLexer.lexAll_spelled _ _ t (htokens ▸ ht)⟩
  exact (holds_reach hin hrun _ List.mem_cons_self).1

end SParser

namespace Symbol

/-- **When equality is structural.** Of two symbols that the parser returns,
where the hash tells their representations apart: Python calls them equal
exactly if their rows agree. So `==` says whether they are the same tree
unless they are different trees with the same row. -/
theorem identity_iff [Python.StrHash] {text text' : String} {s s' : Symbol}
    (h : SParser.parse text = .ok (some s)) (h' : SParser.parse text' = .ok (some s'))
    (hhash : Python.StrHash.hash s.repr = Python.StrHash.hash s'.repr → s.repr = s'.repr) :
    (s.key = s'.key ↔ s = s') ↔ s = s' ∨ s.row ≠ s'.row := by
  have hkey : s.key = s'.key ↔ s.row = s'.row := by
    rw [← repr_eq_iff (SParser.proper_of_parse h) (SParser.proper_of_parse h')]
    exact ⟨hhash, fun hrepr => by rw [key, key, hrepr]⟩
  rw [hkey]
  by_cases heq : s = s'
  · simp [heq]
  · simp [heq]

/-- The texts `a->n` and `a[10]`, with the length for the hash of a text. -/
theorem identity_members :
    let _ : Python.StrHash := ⟨fun s => s.length⟩
    (field (.id "a") "n").key = (array (.id "a") (.concreteInt 10)).key ↔
      field (.id "a") "n" = array (.id "a") (.concreteInt 10) := by
  intro hash
  have hfield : SParser.parse "a->n" = .ok (some (field (.id "a") "n")) := rfl
  have harray : SParser.parse "a[10]" = .ok (some (array (.id "a") (.concreteInt 10))) := rfl
  refine (identity_iff hfield harray fun h => ?_).mpr (.inr ?_)
  · exact absurd h (by decide)
  · simp [row, rowTo]

/-- `(a + b) * c` and `a + b * c` are equal for Python, whatever the hash. -/
theorem grouping_lost : ∃ s s', SParser.parse "(a + b) * c" = .ok (some s) ∧
    SParser.parse "a + b * c" = .ok (some s') ∧ s ≠ s' ∧ ∀ [Python.StrHash], s.key = s'.key := by
  refine ⟨.binaryOperator (.binaryOperator (.id "a") .plus (.id "b")) .times (.id "c"),
    .binaryOperator (.id "a") .plus (.binaryOperator (.id "b") .times (.id "c")), rfl, rfl, by simp, ?_⟩
  intro
  have hrepr : (binaryOperator (.binaryOperator (.id "a") .plus (.id "b")) .times (.id "c")).repr =
      (binaryOperator (.id "a") .plus (.binaryOperator (.id "b") .times (.id "c"))).repr := by decide
  rw [key, key, hrepr]

end Symbol

end Apisan
