/-
# The names in a symbol

The symbol of a sentence has the identifiers of the sentence, in their order
(`names_of_sentence`), so the symbol of any text has those of what is left after
the last cut (`names_of_parse`). The callee of a call, where it is a name, is
the first of them, whatever blanks, parentheses and `&` stand around it; the
text before the first parenthesis is the same name only if an identifier stands
there alone (`callName_eq_iff`).

Key definitions: `Symbol.names`, `SParser.identifiers`, `SParser.Kept`,
`CallAttributes.BeginsWithName`.
Key theorems: `SParser.act_names`, `SParser.names_of_sentence`,
`SParser.Kept.unique`, `SParser.names_of_parse`, `CallAttributes.callName_eq_iff`.
-/
import Apisan.Parse.Event
import Apisan.Parse.Identity
import Apisan.Parse.Recovery

namespace Apisan

namespace Symbol

mutual

/-- The names in a symbol, in the order of the text. -/
def names : Symbol → List String
  | concreteInt _ => []
  | call name args => names name ++ namesAll args
  | stringLiteral _ => []
  | binaryOperator lhs _ rhs => names lhs ++ names rhs
  | field base member => names base ++ [member]
  | array base index => names base ++ names index
  | constraint symbol _ => names symbol
  | id x => [x]

def namesAll : List Symbol → List String
  | [] => []
  | s :: ss => names s ++ namesAll ss

end

theorem namesAll_append : ∀ ss ts : List Symbol, namesAll (ss ++ ts) = namesAll ss ++ namesAll ts
  | [], _ => rfl
  | s :: ss, ts => by rw [List.cons_append, namesAll, namesAll, namesAll_append ss ts, List.append_assoc]

end Symbol

namespace SParser

open ShiftReduce Machine

/-! ### The names on the stack -/

/-- The names in a value. -/
def Val.names : Val → List String
  | .symbol s => s.names
  | .args ss => Symbol.namesAll ss
  | _ => []

/-- An action keeps the names, and makes one of an identifier. -/
theorem act_names {p : Production} {vs : List Val} {v : Val} (h : act p vs = .ok v) :
    if p.named = some .id then ∃ us t, vs = us ++ [.text t] ∧ v.names = us.flatMap Val.names ++ [t]
    else v.names = vs.flatMap Val.names := by
  unfold act at h
  split at h
  case h_12 s t m =>
    cases h
    exact ⟨[.symbol s, .text t], m, rfl, by simp [Val.names, Symbol.names]⟩
  case h_15 t =>
    cases h
    exact ⟨[], t, rfl, rfl⟩
  case h_19 t | h_20 t =>
    cases hint : Python.int t with
    | ok n =>
      rw [hint] at h
      cases h
      rfl
    | error e =>
      rw [hint] at h
      cases h
  case h_24 => cases h
  all_goals
    cases h
    simp [Production.named, Val.names, Symbol.names, Symbol.namesAll, Symbol.namesAll_append]

/-- A state reached by a name or a literal only reduces. -/
theorem named_stops {s : State} (hs : s.named ≠ none) :
    (∀ (la : Option TokenType) s', action s la ≠ .shift s') ∧ ∀ n, goto s n = none := by
  have hreduce : ∀ (p : Production) (follow : Option TokenType → Bool) la s',
      reduceOn p follow la .error ≠ .shift s' := by
    intro p follow la s'
    unfold reduceOn
    split_ifs <;> simp
  cases s
  case ident | arrowId | string => exact ⟨fun la s' => hreduce _ _ la s', fun n => by cases n <;> rfl⟩
  all_goals exact absurd rfl hs

/-- An identifier leads to a state of its own. -/
theorem id_checked : ∀ s : State,
    (action s (some .id)).target.all (fun s' => decide (s'.named = some .id)) = true := by
  decide +kernel

theorem named_shift {s s' : State} {t : TokenType} (h : action s (some t) = .shift s') :
    s'.named = some .id ↔ t = .id := by
  constructor
  · intro hs
    have hnamed := (named_checked s).1 t
    rw [h, Action.target, Option.bind_some, hs] at hnamed
    simpa [eq_comm] using hnamed
  · rintro rfl
    have hs := Action.target_all (id_checked s) h
    exact of_decide_eq_true hs

/-- The names in an entry of the stack: a text counts where it is an identifier. -/
def entryNames (x : State × Val) : List String :=
  match x.2 with
  | .text t => if x.1.named = some .id then [t] else []
  | v => v.names

/-- The name a token brings. -/
def tokenNames (x : TokenType × Val) : List String :=
  match x.2 with
  | .text t => if x.1 = .id then [t] else []
  | v => v.names

theorem entryNames_of_ne {x : State × Val} (h : x.1.named ≠ some .id) : entryNames x = x.2.names := by
  obtain ⟨s, v⟩ := x
  cases v <;> simp [entryNames, Val.names, show s.named ≠ some .id from h]

theorem shift_names {s s' : State} {t : TokenType} (v : Val) (h : action s (some t) = .shift s') :
    entryNames (s', v) = tokenNames (t, v) := by
  cases v <;> simp [entryNames, tokenNames, named_shift h]

/-- Below the top of the stack there is no identifier waiting. -/
theorem below_unnamed {inp : List (TokenType × Val)} {c : ShiftReduce.Config State TokenType Val}
    (h : Clear ⟨[], inp⟩ c) {x : State × Val} {st : Stack} (hc : c.stack = x :: st) :
    ∀ y ∈ st, y.1.named = none := by
  have hlinked : Linked tables (fun s _ => s.named = none) c.stack := by
    refine (linked_reach (I := fun _ => True) ?_ ?_ (fun _ _ => trivial) h.reach).1
    · intro s t v s' _ hact
      by_contra hs
      exact (named_stops hs).1 _ _ hact
    · intro p s v fr st la _ _ _ _ hgoto
      by_contra hs
      have hnone : tables.goto (top tables st) (tables.lhs p) = none := (named_stops hs).2 p.lhs
      rw [hnone] at hgoto
      cases hgoto
  rw [hc] at hlinked
  clear hc
  induction st generalizing x with
  | nil => simp
  | cons y st ih =>
    intro z hz
    rcases List.mem_cons.mp hz with rfl | hz
    · exact hlinked.1
    · exact ih hlinked.2 z hz

theorem flatMap_entryNames {fr : Stack} (h : ∀ y ∈ fr, y.1.named ≠ some .id) :
    fr.flatMap entryNames = (fr.map Prod.snd).flatMap Val.names := by
  rw [List.flatMap_map]
  exact List.flatMap_congr fun y hy => entryNames_of_ne (h y hy)

/-- Of what a reduction replaces, the top says whether there is an identifier. -/
theorem frame_named {inp : List (TokenType × Val)} {c : ShiftReduce.Config State TokenType Val}
    (h : Clear ⟨[], inp⟩ c) {p : Production} {x : State × Val} {fr st : Stack} {la : Option TokenType}
    (hfr : c.stack = x :: (fr ++ st)) (hact : action (top tables c.stack) la = .reduce p) :
    p.named = x.1.named ∧ ∀ y ∈ fr, y.1.named ≠ some .id := by
  constructor
  · rw [hfr] at hact
    have hcompleted : x.1.completed = some p := action_reduce hact
    have hnamed := (named_checked x.1).2.2
    rw [hcompleted, Option.all_some, decide_eq_true_eq] at hnamed
    exact hnamed
  · intro y hy
    rw [below_unnamed h hfr y (List.mem_append_left st hy)]
    simp

/-- A reduction keeps the names. -/
theorem reduce_names {inp : List (TokenType × Val)} {c : ShiftReduce.Config State TokenType Val}
    (h : Clear ⟨[], inp⟩ c) {p : Production} {fr st : Stack} {s : State} {v : Val} {la : Option TokenType}
    (hfr : c.stack = fr ++ st) (hact : action (top tables c.stack) la = .reduce p)
    (hsem : act p (fr.map Prod.snd).reverse = .ok v) (hgoto : goto (top tables st) p.lhs = some s) :
    entryNames (s, v) = fr.reverse.flatMap entryNames := by
  have hs : s.named ≠ some .id := by
    intro hs
    have hnamed := (named_checked (top tables st)).2.1 p.lhs
    rw [hgoto, Option.bind_some, hs] at hnamed
    cases hnamed
  rw [entryNames_of_ne hs]
  have hnames := act_names hsem
  cases fr with
  | nil =>
    split_ifs at hnames
    · obtain ⟨us, t, hvs, -⟩ := hnames
      simp at hvs
    · exact hnames
  | cons x fr =>
    obtain ⟨htop, hbelow⟩ := frame_named h hfr hact
    have hbelow' : ∀ y ∈ fr.reverse, y.1.named ≠ some .id := fun y hy => hbelow y (List.mem_reverse.mp hy)
    rw [List.map_cons, List.reverse_cons] at hnames
    rw [List.reverse_cons, List.flatMap_append, flatMap_entryNames hbelow', List.map_reverse]
    by_cases hp : p.named = some .id
    · rw [if_pos hp] at hnames
      obtain ⟨us, t, hvs, hv⟩ := hnames
      obtain ⟨rfl, hx⟩ := List.append_inj' hvs rfl
      have hentry : entryNames x = [t] := by
        obtain ⟨q, u⟩ := x
        cases hx
        exact if_pos (htop.symm.trans hp)
      rw [hv, List.flatMap_singleton, hentry]
    · rw [if_neg hp] at hnames
      rw [hnames, List.flatMap_append, List.flatMap_singleton, List.flatMap_singleton,
        entryNames_of_ne (htop ▸ hp)]

/-! ### The names in a text -/

/-- The identifiers among the tokens. -/
def identifiers (ts : List LexToken) : List String :=
  ts.flatMap fun t => if t.type = .id then [t.value] else []

theorem flatMap_tokenNames (ts : List LexToken) : (symbols ts).flatMap tokenNames = identifiers ts := by
  rw [symbols, List.flatMap_map]
  rfl

/-- **The symbol of a sentence has its identifiers.** -/
theorem names_of_sentence {ts : List LexToken} {s : Symbol} (hs : Sentence ts)
    (h : ends ts = .value (some (.symbol s))) : s.names = identifiers ts := by
  obtain ⟨seg, rest, st, hts, -, hclear, hend⟩ := clear_finish ts
  rcases hend with herror | haccept | ⟨e, hraise⟩
  · cases rest with
    | nil =>
      obtain rfl : ts = seg := hts.trans (List.append_nil seg)
      exact absurd hs (not_sentence_of_clear hclear herror)
    | cons t rest =>
      subst hts
      have hviable := hs.viable
      rw [List.append_cons] at hviable
      exact absurd hviable.of_append (not_viable_of_clear hclear herror)
  · obtain ⟨rfl, -, s', rfl⟩ := sentence_of_accept hclear haccept
    have hvalue : ends ts = .value (some (.symbol s')) :=
      ShiftReduce.parse_of_reach rank hclear.reach (halt_accept haccept)
    rw [hvalue] at h
    cases h
    have hcarries := hclear.carries (f := entryNames) (g := tokenNames)
      (fun _ _ v _ hact => shift_names v hact)
      fun _ _ _ _ _ _ hc hfr _ hact hsem hgoto => reduce_names hc hfr hact hsem hgoto
    have hstack : ([(State.done, Val.symbol s)] : Stack).reverse.flatMap entryNames = s.names :=
      List.append_nil _
    rw [flatMap_tokenNames, flatMap_tokenNames, hstack] at hcarries
    exact (List.append_nil _).symm.trans hcarries
  · have hraised : ends ts = .raised e := ShiftReduce.parse_of_reach rank hclear.reach hraise
    rw [hraised] at h
    cases h

/-- **What the parser keeps**: cut after each token that no sentence goes on with,
what is left of the text. -/
inductive Kept : List LexToken → List LexToken → Prop
  | all {ts : List LexToken} : Viable ts → Kept ts ts
  | cut {seg us : List LexToken} {t : LexToken} {rest : List LexToken} : Viable seg → ¬ Viable (seg ++ [t]) →
    Kept rest us → Kept (seg ++ t :: rest) us

theorem Kept.unique {ts us us' : List LexToken} (h : Kept ts us) (h' : Kept ts us') : us = us' := by
  induction h generalizing us' with
  | @all ts hviable =>
    generalize hts : ts = ts' at h'
    cases h' with
    | all => rfl
    | cut _ hcut _ =>
      rw [hts, List.append_cons] at hviable
      exact absurd hviable.of_append hcut
  | @cut seg us t rest hviable hcut _ ih =>
    generalize hts : seg ++ t :: rest = ts at h'
    cases h' with
    | all hviable' =>
      rw [← hts, List.append_cons] at hviable'
      exact absurd hviable'.of_append hcut
    | cut hviable' hcut' hrest =>
      rw [← cut_unique hts hviable hcut hviable' hcut'] at hrest
      exact ih hrest

theorem names_of_ends : ∀ (n : ℕ) {ts : List LexToken} {s : Symbol}, ts.length < n →
    ends ts = .value (some (.symbol s)) → ∃ us, Kept ts us ∧ s.names = identifiers us
  | 0, _, _, hlen, _ => by omega
  | n + 1, ts, s, hlen, h => by
    cases reading ts with
    | sentence _ hs => exact ⟨ts, .all hs.viable, names_of_sentence hs h⟩
    | fragment _ _ _ hends =>
      rw [hends] at h
      cases h
    | cut seg t rest hts hviable hcut _ hends =>
      subst hts
      rw [List.length_append, List.length_cons] at hlen
      rw [hends] at h
      obtain ⟨us, hkept, hnames⟩ := names_of_ends n (by omega) h
      exact ⟨us, .cut hviable hcut hkept, hnames⟩
    | raised _ _ _ _ _ _ _ _ _ hends =>
      rw [hends] at h
      cases h

/-- **The symbol of a text has the identifiers that are kept.** -/
theorem names_of_parse {text : String} {s : Symbol} (h : parse text = .ok (some s)) :
    ∃ us, Kept (SLexer.lex text).tokens us ∧ s.names = identifiers us := by
  obtain ⟨ts, st, hlex, -, hrun⟩ := reach_of_parse h
  have hends : ends ts = .value (some (.symbol s)) := ShiftReduce.parse_of_reach rank hrun (halt_accept rfl)
  rw [hlex]
  exact names_of_ends _ (Nat.lt_succ_self _) hends

end SParser

/-! ### The name of a call -/

theorem identifier_notMem_paren {w : String} (h : isIdentifier w = true) : '(' ∉ w.toList := by
  have hparen : SLexer.identifierPart '(' = false := by decide
  unfold isIdentifier at h
  split at h
  · cases h
  · rename_i c cs hw
    rw [Bool.and_eq_true, List.all_eq_true] at h
    rw [hw]
    intro hmem
    rcases List.mem_cons.mp hmem with rfl | hmem
    · exact absurd h.1 (by decide)
    · rw [h.2 _ hmem] at hparen
      cases hparen

namespace CallAttributes

/-- The text begins with an identifier and a parenthesis after it, and the
identifier is the first one that the parser keeps. -/
def BeginsWithName (text : String) : Prop :=
  ∃ w rest us, isIdentifier w = true ∧ text.toList = w.toList ++ '(' :: rest ∧
    SParser.Kept (SLexer.lex text).tokens us ∧ (SParser.identifiers us).head? = some w

theorem callName_eq_some_iff {text n : String} {code : Option (Option String)} :
    callName ⟨some (some text), code⟩ = .ok (some n) ↔
      '(' ∉ n.toList ∧ ∃ rest, text.toList = n.toList ++ '(' :: rest := by
  have hname : callName ⟨some (some text), code⟩ = .ok (if text.toList.contains '(' then
      some (String.ofList (text.toList.takeWhile (· != '('))) else none) := rfl
  rw [hname]
  constructor
  · intro h
    split_ifs at h with hparen
    · cases h
      rw [List.contains_iff_mem] at hparen
      have hne : text.toList.dropWhile (· != '(') ≠ [] := by
        intro hnil
        have htext := List.takeWhile_append_dropWhile (p := (· != '(')) (l := text.toList)
        rw [hnil, List.append_nil] at htext
        rw [← htext] at hparen
        exact SLexer.notMem_takeWhile_ne _ _ hparen
      rw [String.toList_ofList]
      exact ⟨SLexer.notMem_takeWhile_ne _ _, SLexer.takeWhile_ne_append hne⟩
    · cases h
  · rintro ⟨hn, rest, htext⟩
    rw [htext, (SLexer.takeWhile_ne_cons hn rest).1, if_pos (by simp), String.ofList_toList]

/-- Where nothing is cut, the first identifier of the text is the one it begins with. -/
theorem beginsWithName_of_viable {text : String} (h : SParser.Viable (SLexer.lex text).tokens) :
    BeginsWithName text ↔ ∃ w rest, isIdentifier w = true ∧ text.toList = w.toList ++ '(' :: rest := by
  constructor
  · rintro ⟨w, rest, -, hw, htext, -⟩
    exact ⟨w, rest, hw, htext⟩
  · rintro ⟨w, rest, hw, htext⟩
    refine ⟨w, rest, _, hw, htext, .all h, ?_⟩
    have htoken : SLexer.token (w.toList ++ '(' :: rest) = some (.id, w.toList, '(' :: rest) :=
      SLexer.token_id ⟨w, hw⟩ (by simp; decide)
    obtain ⟨c, cs, hcs, hc⟩ := SLexer.word_start (.id ⟨w, hw⟩)
    have hlex : SLexer.lex text = ⟨⟨.id, w⟩ :: (SLexer.lexChars ('(' :: rest)).tokens,
        (SLexer.lexChars ('(' :: rest)).eof⟩ := by
      rw [show w.toList = c :: cs from hcs, List.cons_append] at htoken
      rw [SLexer.lex, htext, show w.toList = c :: cs from hcs, List.cons_append, SLexer.lexChars_token hc htoken,
        ← hcs, String.ofList_toList]
      rfl
    rw [hlex]
    rfl

theorem parse_of_call {text : String} {name : Symbol} {args : List Symbol} {code : Option (Option String)}
    (h : call ⟨some (some text), code⟩ = .ok (some (name, args))) :
    SParser.parse text = .ok (some (.call name args)) := by
  rw [call, show getAttribute (some (some text)) = .ok (some text) from rfl, Python.ok_bind, textSymbol,
    Option.bind_some, SParser.parseSymbol] at h
  cases hparse : SParser.parse text with
  | error e =>
    rw [hparse] at h
    cases h
  | ok s =>
    rw [hparse] at h
    simp only at h
    split at h
    · cases h
      rfl
    · cases h

/-- **When the two ways to a call's name agree.** -/
theorem callName_eq_iff {text n : String} {args : List Symbol} {code : Option (Option String)}
    (h : call ⟨some (some text), code⟩ = .ok (some (.id n, args))) :
    callName ⟨some (some text), code⟩ = .ok (some n) ↔ BeginsWithName text := by
  have hparse : SParser.parse text = .ok (some (.call (.id n) args)) := parse_of_call h
  obtain ⟨us, hkept, hnames⟩ := SParser.names_of_parse hparse
  have hhead : (SParser.identifiers us).head? = some n := by
    rw [← hnames]
    rfl
  have hident : isIdentifier n = true := by
    have hproper := SParser.proper_of_parse hparse
    simp only [Symbol.row, Symbol.rowTo, Row.Proper] at hproper
    exact hproper.1
  rw [callName_eq_some_iff]
  constructor
  · rintro ⟨-, rest, htext⟩
    exact ⟨n, rest, us, hident, htext, hkept, hhead⟩
  · rintro ⟨w, rest, us', hw, htext, hkept', hhead'⟩
    obtain rfl := hkept.unique hkept'
    obtain rfl : n = w := Option.some.inj (hhead.symm.trans hhead')
    exact ⟨identifier_notMem_paren hw, rest, htext⟩

theorem callName_plain : callName ⟨some (some "f(x)"), none⟩ = .ok (some "f") ↔ BeginsWithName "f(x)" :=
  callName_eq_iff (show call ⟨some (some "f(x)"), none⟩ = .ok (some (.id "f", [.id "x"])) from rfl)

/-- A callee in parentheses has no name before the first one. -/
theorem callName_wrapped : ¬ ∀ (text n : String) (args : List Symbol) (code : Option (Option String)),
    call ⟨some (some text), code⟩ = .ok (some (.id n, args)) →
      callName ⟨some (some text), code⟩ = .ok (some n) := by
  intro h
  have hname := h "(f)(x)" "f" [.id "x"] none rfl
  have hempty : callName ⟨some (some "(f)(x)"), none⟩ = .ok (some "") := rfl
  rw [hempty] at hname
  exact absurd (Option.some.inj (Except.ok.inj hname)) (by decide)

end CallAttributes

end Apisan
