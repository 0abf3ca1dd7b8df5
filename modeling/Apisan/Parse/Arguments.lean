/-
# The arguments of a call

What the parser makes of a name and a list of texts in parentheses, each of the
texts an expression or empty. An expression is read in its place as it is read
alone (`Makes.steps`). An empty text before the first comma is the empty argument
list, which the other arguments are appended to, and after a comma it is an error;
after an error, each comma and the last parenthesis is one as well
(`ends_closed`), so the parse returns nothing.

Key definitions: `SParser.Convertible`, `SParser.Makes`, `SParser.Argument`,
`SParser.closed`, `SParser.CallEnd`.
Key theorems: `SParser.makes_or_raises`, `SParser.Makes.steps`,
`SParser.ends_closed`, `SParser.ends_arguments`, `SParser.ends_call_nil`,
`SParser.ends_call`.
-/
import Apisan.Lib.Relocation
import Apisan.Parse.Recovery

namespace Apisan
namespace SParser

open ShiftReduce Machine

/-! ### An expression in its place -/

/-- What the state becomes where an expression is awaited by the state `b`, which
goes to the state `g` with it. -/
def State.above (s b g : State) : State := if s = .start then b else if s = .done then g else s

theorem State.above_of_ne {s b g : State} (hstart : s ≠ .start) (hdone : s ≠ .done) : s.above b g = s := by
  unfold State.above
  rw [if_neg hstart, if_neg hdone]

/-- What awaits an expression does so as the start state does, and then goes on with
it as the accepting state does. -/
theorem above_checked : ∀ b : State, (goto b .expression).all (fun g => decide (
    (∀ t : TokenType,
      (action .start (some t)).target.all (fun s' => decide (action b (some t) = .shift s')) = true ∧
        (action .done (some t)).target.all (fun s' => decide (action g (some t) = .shift s')) = true) ∧
      ∀ n : Nonterminal, (goto .done n).isNone = true ∧
        (goto .start n).all (fun s' => decide (goto b n = some (s'.above b g))) = true)) = true := by
  decide +kernel

theorem shift_above {s s' b g : State} {t : TokenType} (hg : goto b .expression = some g)
    (h : action s (some t) = .shift s') : action (s.above b g) (some t) = .shift (s'.above b g) := by
  have hall := above_checked b
  rw [hg, Option.all_some, decide_eq_true_eq] at hall
  have hs' : s'.above b g = s' :=
    State.above_of_ne (fun hs => (closing_checked s).1 t (hs ▸ h)) fun hs => shift_ne_done s (some t) (hs ▸ h)
  obtain ⟨hstart, hdone⟩ := hall.1 t
  rw [hs']
  by_cases hs : s = .start
  · subst hs
    have hshift := Action.target_all hstart h
    exact of_decide_eq_true hshift
  by_cases hd : s = .done
  · subst hd
    have hshift := Action.target_all hdone h
    exact of_decide_eq_true hshift
  rw [State.above_of_ne hs hd]
  exact h

theorem reduce_above {s b g : State} {la : Option TokenType} {p : Production} (h : action s la = .reduce p) :
    s.above b g = s := by
  have hcompleted := action_reduce h
  refine State.above_of_ne (fun hs => ?_) fun hs => ?_ <;> subst hs <;> cases hcompleted

theorem goto_above {s s' b g : State} {n : Nonterminal} (hg : goto b .expression = some g)
    (h : goto s n = some s') : goto (s.above b g) n = some (s'.above b g) := by
  have hall := above_checked b
  rw [hg, Option.all_some, decide_eq_true_eq] at hall
  obtain ⟨hdone, hstart⟩ := hall.2 n
  by_cases hs : s = .start
  · subst hs
    rw [h, Option.all_some, decide_eq_true_eq] at hstart
    exact hstart
  by_cases hd : s = .done
  · subst hd
    rw [h] at hdone
    cases hdone
  have hs' : s'.above b g = s' :=
    State.above_of_ne (fun hs' => ((closing_checked s).2.1 n).1 (hs' ▸ h)) fun hs' => hs (goto_done s n (hs' ▸ h))
  rw [State.above_of_ne hs hd, hs']
  exact h

/-- A text that is read to an expression is read to it wherever one is awaited. -/
def above {b g : State} (hg : goto b .expression = some g) {x : TokenType}
    (hx : followExpression (some x) = true) : Relocation tables b x where
  state s := s.above b g
  start := rfl
  shift := shift_above hg
  reduce h := (congrArg (action · _) (reduce_above h)).trans h
  reduce_end h := (congrArg (action · _) (reduce_above h)).trans (action_follow hx _ _ h)
  goto := goto_above hg

/-- `int` takes every integer of the tokens. -/
def Convertible (ts : List LexToken) : Prop :=
  ∀ t ∈ ts, t.type = .intConstDec → ∃ n, Python.int t.value = .ok n

/-- The tokens are read to the symbol of an expression. -/
def Makes (ts : List LexToken) (s : Symbol) : Prop :=
  Clear ⟨[], symbols ts⟩ ⟨[(.done, .symbol s)], []⟩

/-- An action raises on the tokens. -/
def Raises (ts : List LexToken) : Prop :=
  ∃ c e, Clear ⟨[], symbols ts⟩ c ∧ step tables act (none : Option Python.Error) c = .inr (.raised e)

/-- Where an expression has been read, `int` has taken its integers. -/
theorem Makes.convertible {ts : List LexToken} {s : Symbol} (h : Makes ts s) : Convertible ts := by
  obtain ⟨u, hu, hconv⟩ := converted (isText_symbols ts) h
  obtain rfl : symbols ts = u := hu.trans (List.append_nil u)
  intro t ht hint
  obtain ⟨a, b, rfl⟩ := List.append_of_mem ht
  have hsplit : symbols (a ++ t :: b) = symbols a ++ (t.type, .text t.value) :: symbols b := by
    simp [symbols]
  rcases hconv _ _ _ hsplit hint with ⟨x, n, hx, hn⟩ | ⟨-, hs⟩
  · cases hx
    exact ⟨n, hn⟩
  · cases hs

/-- **A sentence** is read to a symbol, or `int` does not take one of its integers. -/
theorem makes_or_raises {ts : List LexToken} (h : Sentence ts) :
    (Convertible ts ∧ ∃ s, Makes ts s) ∨ (¬ Convertible ts ∧ Raises ts) := by
  obtain ⟨seg, rest, st, rfl, -, hclear, herror | haccept | ⟨e, hraise⟩⟩ := clear_finish ts
  · cases rest with
    | nil =>
      rw [List.append_nil] at h hclear
      exact absurd h (not_sentence_of_clear hclear herror)
    | cons t rest =>
      have hviable := h.viable
      rw [List.append_cons] at hviable
      exact absurd hviable.of_append (not_viable_of_clear hclear herror)
  · obtain ⟨rfl, -, s, rfl⟩ := sentence_of_accept hclear haccept
    have hmakes : Makes (seg ++ []) s := hclear
    exact .inl ⟨hmakes.convertible, s, hmakes⟩
  · obtain ⟨seg', t, hts, htype, -, hint⟩ := token_of_raised hclear hraise
    refine .inr ⟨fun hconv => ?_, _, e, hclear, hraise⟩
    obtain ⟨n, hn⟩ := hconv t (by rw [hts]; exact List.mem_append_right _ List.mem_cons_self) htype
    rw [hint] at hn
    cases hn

/-- The empty text is no expression. -/
theorem not_sentence_nil : ¬ Sentence [] :=
  have hnone : Clear ⟨[], symbols []⟩ ⟨[], []⟩ := .refl
  not_sentence_of_clear hnone rfl

theorem convertible_nil : Convertible [] := fun _ ht => absurd ht List.not_mem_nil

theorem Makes.parse {text : String} {ts : List LexToken} {s : Symbol} (hlex : SLexer.lex text = ⟨ts, none⟩)
    (h : Makes ts s) : parse text = .ok (some s) :=
  parse_of_reach hlex h.reach

/-- **An expression is read in its place** as it is read alone. -/
theorem Makes.steps {ts : List LexToken} {s : Symbol} (h : Makes ts s) {st : Stack} {g : State}
    (hg : goto (top tables st) .expression = some g) {x : TokenType × Val}
    (hx : followExpression (some x.1) = true) (more : List (TokenType × Val)) :
    Steps ⟨st, symbols ts ++ x :: more⟩ ⟨(g, .symbol s) :: st, x :: more⟩ :=
  (above hg hx).reach rfl h x.2 more

/-- What raises alone raises in its place. -/
theorem Raises.ends {ts us : List LexToken} (h : Raises ts) {st : Stack} {g : State}
    (hg : goto (top tables st) .expression = some g) {x : TokenType × Val}
    (hx : followExpression (some x.1) = true) {more : List (TokenType × Val)}
    (hreach : Steps ⟨[], symbols us⟩ ⟨st, symbols ts ++ x :: more⟩) : ∃ e, ends us = .raised e := by
  obtain ⟨c, e, hclear, hraise⟩ := h
  have hreach' := hreach.trans ((above hg hx).reach rfl hclear x.2 more)
  exact ⟨e, ShiftReduce.parse_of_reach rank hreach' ((above hg hx).raised rfl hraise x.2 more)⟩

/-! ### After an error -/

/-- An argument's text: an expression, or empty. -/
def Argument (ts : List LexToken) : Prop := ts = [] ∨ Sentence ts

/-- What stands after an argument, before the others. -/
def separator : List (List LexToken) → LexToken
  | [] => ⟨.rparen, ")"⟩
  | _ :: _ => ⟨.comma, ","⟩

/-- Arguments, each with what stands after it. -/
def closed : List (List LexToken) → List LexToken
  | [] => []
  | l :: ls => l ++ separator ls :: closed ls

theorem follow_separator (ls : List (List LexToken)) :
    followList .rparen (some (separator ls).type) = true ∧ followExpression (some (separator ls).type) = true := by
  cases ls <;> exact ⟨rfl, rfl⟩

theorem symbols_closed (l : List LexToken) (ls : List (List LexToken)) :
    symbols (closed (l :: ls)) =
      symbols l ++ ((separator ls).type, .text (separator ls).value) :: symbols (closed ls) := by
  simp [closed, symbols]

/-- What stands after an argument begins no expression, and goes on with none. -/
theorem error_separator (ls : List (List LexToken)) :
    action .start (some (separator ls).type) = .error ∧ action .done (some (separator ls).type) = .error ∧
      action .argComma (some (separator ls).type) = .error := by
  cases ls <;> exact ⟨rfl, rfl, rfl⟩

/-- **From the start state** an argument and what stands after it are dropped. -/
theorem ends_argument {l : List LexToken} (hl : Argument l) (ls : List (List LexToken)) :
    (Convertible l ∧ ends (closed (l :: ls)) = ends (closed ls)) ∨
      (¬ Convertible l ∧ ∃ e, ends (closed (l :: ls)) = .raised e) := by
  have hstart : goto (top tables ([] : Stack)) .expression = some .done := rfl
  have hsep := (follow_separator ls).2
  have hinput : Steps ⟨[], symbols (closed (l :: ls))⟩
      ⟨[], symbols l ++ ((separator ls).type, .text (separator ls).value) :: symbols (closed ls)⟩ := by
    rw [symbols_closed]
  rcases hl with rfl | hs
  · exact .inl ⟨convertible_nil, parse_drop rank hinput (error_separator ls).1⟩
  rcases makes_or_raises hs with ⟨hconv, s, hmakes⟩ | ⟨hconv, hraises⟩
  · have hrun := hinput.trans (hmakes.steps hstart (x := (_, _)) hsep _)
    exact .inl ⟨hconv, parse_drop rank hrun (error_separator ls).2.1⟩
  · exact .inr ⟨hconv, hraises.ends hstart (x := (_, _)) hsep hinput⟩

/-- **After an error** the rest of the arguments leaves nothing. -/
theorem ends_closed : ∀ {ls : List (List LexToken)}, (∀ l ∈ ls, Argument l) →
    ((∀ l ∈ ls, Convertible l) ∧ ends (closed ls) = .value none) ∨
      ((¬ ∀ l ∈ ls, Convertible l) ∧ ∃ e, ends (closed ls) = .raised e)
  | [], _ => .inl ⟨fun _ h => by simp at h, rfl⟩
  | l :: ls, h => by
    rw [List.forall_mem_cons] at h ⊢
    rcases ends_argument h.1 ls with ⟨hconv, hends⟩ | ⟨hconv, hraised⟩
    · rw [hends]
      rcases ends_closed h.2 with ⟨hconvs, hnone⟩ | ⟨hconvs, hraised⟩
      · exact .inl ⟨⟨hconv, hconvs⟩, hnone⟩
      · exact .inr ⟨fun hall => hconvs hall.2, hraised⟩
    · exact .inr ⟨fun hall => hconv hall.1, hraised⟩

/-! ### The arguments of a call -/

/-- The stack before the arguments. -/
def opened (f : Symbol) : Stack := [(.call, .text "("), (.post, .symbol f)]

/-- The stack after the first arguments. -/
def called (f : Symbol) (ss : List Symbol) : Stack := (.callArgs, .args ss) :: opened f

/-- How the parse of a call ends, after the arguments `ss` and with the texts `ls`
to come. -/
inductive CallEnd (ts : List LexToken) (f : Symbol) (ss : List Symbol) (ls : List (List LexToken)) : Prop
  | call (ss' : List Symbol) : (∀ l ∈ ls, Convertible l) → [] ∉ ls → List.Forall₂ Makes ls ss' →
    ends ts = .value (some (.symbol (.call f (ss ++ ss')))) → CallEnd ts f ss ls
  | nothing : (∀ l ∈ ls, Convertible l) → [] ∈ ls → ends ts = .value none → CallEnd ts f ss ls
  | raised (e : Python.Error) : (¬ ∀ l ∈ ls, Convertible l) → ends ts = .raised e → CallEnd ts f ss ls

namespace CallEnd

variable {ts l : List LexToken} {f s : Symbol} {ss : List Symbol} {ls : List (List LexToken)}

/-- An expression is one more argument. -/
theorem next (hl : Sentence l) (hmakes : Makes l s) (h : CallEnd ts f (ss ++ [s]) ls) : CallEnd ts f ss (l :: ls) := by
  have hne : [] ≠ l := by
    rintro rfl
    exact not_sentence_nil hl
  have hconv := hmakes.convertible
  cases h with
  | call ss' hconvs hnil hmade hends =>
    rw [List.append_assoc] at hends
    have hnil' : [] ∉ l :: ls := fun hmem => (List.mem_cons.mp hmem).elim hne hnil
    exact .call (s :: ss') (List.forall_mem_cons.mpr ⟨hconv, hconvs⟩) hnil' (.cons hmakes hmade) hends
  | nothing hconvs hnil hends =>
    exact .nothing (List.forall_mem_cons.mpr ⟨hconv, hconvs⟩) (List.mem_cons_of_mem _ hnil) hends
  | raised e hconvs hends => exact .raised e (fun hall => hconvs (List.forall_mem_cons.mp hall).2) hends

/-- An empty text is an error. -/
theorem dropped (hargs : ∀ l ∈ ls, Argument l) (h : ends ts = ends (closed ls)) : CallEnd ts f ss ([] :: ls) := by
  rcases ends_closed hargs with ⟨hconvs, hnone⟩ | ⟨hconvs, e, hraised⟩
  · exact .nothing (List.forall_mem_cons.mpr ⟨convertible_nil, hconvs⟩) List.mem_cons_self (h.trans hnone)
  · exact .raised e (fun hall => hconvs (List.forall_mem_cons.mp hall).2) (h.trans hraised)

end CallEnd

/-- The closing parenthesis makes the call. -/
theorem ends_call_close {ts : List LexToken} {f : Symbol} {ss : List Symbol}
    (h : Steps ⟨[], symbols ts⟩ ⟨called f ss, symbols [separator []]⟩) :
    ends ts = .value (some (.symbol (.call f ss))) := by
  have hclose : Steps ⟨called f ss, symbols [separator []]⟩ ⟨[(.done, .symbol (.call f ss))], []⟩ := by
    refine (shift (s := .callClose) rfl).trans ?_
    refine (reduce .postfixExpression4 (s := .post) (v := .symbol (.call f ss)) [_, _, _, _] rfl rfl rfl rfl).trans ?_
    exact (post_binary rfl rfl).trans (binary_expression rfl rfl)
  exact ShiftReduce.parse_of_reach rank (h.trans hclose) (halt_accept rfl)

/-- **The arguments after the first** are appended in their order, or one of them
is empty, or one of them raises. -/
theorem ends_arguments {ts : List LexToken} {f : Symbol} : ∀ {ls : List (List LexToken)} {ss : List Symbol},
    (∀ l ∈ ls, Argument l) → Steps ⟨[], symbols ts⟩ ⟨called f ss, symbols (separator ls :: closed ls)⟩ →
    CallEnd ts f ss ls
  | [], ss, _, h => by
    refine .call [] (fun _ hl => by simp at hl) List.not_mem_nil .nil ?_
    rw [List.append_nil]
    exact ends_call_close h
  | l :: ls, ss, hargs, h => by
    rw [List.forall_mem_cons] at hargs
    have hsep := follow_separator ls
    -- the comma is shifted, and an expression is awaited
    have hcomma : Steps ⟨[], symbols ts⟩ ⟨(.argComma, .text ",") :: called f ss, symbols (closed (l :: ls))⟩ :=
      h.trans (shift (s := .argComma) rfl)
    rw [symbols_closed] at hcomma
    have hgoto : goto (top tables ((.argComma, .text ",") :: called f ss)) .expression = some .argNext := rfl
    rcases hargs.1 with rfl | hs
    · exact .dropped hargs.2 (parse_drop rank hcomma (error_separator ls).2.2)
    rcases makes_or_raises hs with ⟨-, s, hmakes⟩ | ⟨hconv, hraises⟩
    · have hrun := hcomma.trans (hmakes.steps hgoto (x := (_, _)) hsep.2 _)
      have hreduce := hrun.trans (reduce .argumentListAppend (s := .callArgs) (v := .args (ss ++ [s])) [_, _, _]
        (if_pos hsep.1) rfl rfl rfl)
      exact .next hs hmakes (ends_arguments hargs.2 hreduce)
    · obtain ⟨e, hraised⟩ := hraises.ends hgoto (x := (_, _)) hsep.2 hcomma
      exact .raised e (fun hall => hconv (List.forall_mem_cons.mp hall).1) hraised

/-- The tokens of a call's text. -/
def callTokens (f : Identifier) (ls : List (List LexToken)) : List LexToken :=
  ⟨.id, f.1⟩ :: ⟨.lparen, "("⟩ :: closed ls

/-- The name is the called function, and the parenthesis opens its arguments. -/
theorem steps_call (f : Identifier) (ls : List (List LexToken)) : Steps ⟨[], symbols (callTokens f ls)⟩
    ⟨opened (.id f.1), symbols (closed ls)⟩ :=
  (runsPost_ident f [] _ rfl rfl).trans (shift (s := .call) rfl)

/-- **An empty first argument** is no argument. -/
theorem ends_call_nil (f : Identifier) {ls : List (List LexToken)} (hargs : ∀ l ∈ ls, Argument l) :
    CallEnd (callTokens f ([] :: ls)) (.id f.1) [] ls := by
  have hcall := steps_call f ([] :: ls)
  rw [symbols_closed] at hcall
  have hreduce := hcall.trans (reduce .argumentListEmpty (s := .callArgs) (v := .args []) []
    (if_pos (follow_separator ls).1) rfl rfl rfl)
  exact ends_arguments hargs hreduce

/-- **A first argument** is the first one, or raises. -/
theorem ends_call (f : Identifier) {l : List LexToken} (hl : Sentence l) {ls : List (List LexToken)}
    (hargs : ∀ l ∈ ls, Argument l) :
    (Convertible l ∧ ∃ s, Makes l s ∧ CallEnd (callTokens f (l :: ls)) (.id f.1) [s] ls) ∨
      (¬ Convertible l ∧ ∃ e, ends (callTokens f (l :: ls)) = .raised e) := by
  have hsep := follow_separator ls
  have hcall := steps_call f (l :: ls)
  rw [symbols_closed] at hcall
  have hgoto : goto (top tables (opened (.id f.1))) .expression = some .argOne := rfl
  rcases makes_or_raises hl with ⟨hconv, s, hmakes⟩ | ⟨hconv, hraises⟩
  · have hrun := hcall.trans (hmakes.steps hgoto (x := (_, _)) hsep.2 _)
    have hreduce := hrun.trans (reduce .argumentListOne (s := .callArgs) (v := .args [s]) [_] (if_pos hsep.1) rfl rfl
      rfl)
    exact .inl ⟨hconv, s, hmakes, ends_arguments hargs hreduce⟩
  · exact .inr ⟨hconv, hraises.ends hgoto (x := (_, _)) hsep.2 hcall⟩

end SParser
end Apisan
