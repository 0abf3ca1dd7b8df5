/-
# Argument positions

The printer writes a call as the name of its callee and the texts of its
arguments with commas between them, and an argument that is itself a call
through a pointer has the empty text. The parser keeps the arguments in their
places or returns nothing, but for three kinds of calls (`keepsArguments_iff`):
a first argument that alone is empty is left out, and the others move up; an
integer with a suffix makes `int` raise; and an identifier with a character
outside ASCII makes the lexer raise.

Key definitions: `isSourceIdentifier`, `Accepted`, `KeepsArguments`,
`ReadsArguments`.
Key theorems: `SLexer.lexChars_arguments`, `parse_callText`,
`Ento.keepsArguments_iff`.
-/
import Apisan.Extractor.AsStmtPrinter
import Apisan.Parse.Arguments
import Apisan.Parse.Row

namespace Apisan

/-! ### The tokens of a call's text -/

namespace SLexer

open SParser

theorem breaks_comma : Breaks ',' := breaks_of rfl (by decide)
theorem breaks_rparen : Breaks ')' := breaks_of rfl (by decide)

/-- The tokens of a text. -/
def tokens (text : String) : List LexToken := (lex text).tokens

/-- **Texts with commas between them** lex to their tokens, each with what stands
after it. -/
theorem lexChars_arguments : ∀ {as : List String} {a : String}, (∀ b ∈ a :: as, lex b = ⟨tokens b, none⟩) →
    lexChars (a.toList ++ (moreText as ++ [')'])) = ⟨closed ((a :: as).map tokens), none⟩
  | [], a, h => by
    have hclose : lexChars [')'] = ⟨[⟨.rparen, ")"⟩], none⟩ := rfl
    rw [moreText, List.flatMap_nil, List.nil_append, lexChars_break breaks_rparen [] _ (h a List.mem_cons_self),
      hclose]
    rfl
  | b :: as, a, h => by
    have ih := lexChars_arguments fun c hc => h c (List.mem_cons_of_mem a hc)
    have hmore : moreText (b :: as) ++ [')'] = ',' :: ' ' :: (b.toList ++ (moreText as ++ [')'])) := by
      simp [moreText]
    rw [hmore, lexChars_break breaks_comma _ _ (h a List.mem_cons_self),
      lexChars_token rfl (token_one (c := ',') rfl fun _ _ => rfl), lexChars_ignored rfl, ih]
    rfl

/-- **A call's text** lexes to the name, the parenthesis and the arguments. -/
theorem lexChars_call (f : Identifier) {cs : List Char} {ts : List LexToken} (h : lexChars cs = ⟨ts, none⟩) :
    lexChars (f.1.toList ++ '(' :: cs) = ⟨⟨.id, f.1⟩ :: ⟨.lparen, "("⟩ :: ts, none⟩ := by
  obtain ⟨c, cs', hf, hc⟩ := word_start (.id f)
  have hf' : f.1.toList = c :: cs' := hf
  have hstop : ∀ d ∈ ('(' :: cs).head?, identifierPart d = false := by
    intro d hd
    obtain rfl : '(' = d := Option.some.inj hd
    rfl
  have htoken := token_id f hstop
  rw [hf', List.cons_append] at htoken ⊢
  rw [lexChars_token hc htoken, lexChars_token rfl (token_one (c := '(') rfl fun _ _ => rfl), h, ← hf',
    String.ofList_toList]

end SLexer

/-! ### Identifiers -/

/-- A character outside ASCII. -/
def isExtended (c : Char) : Bool := decide (127 < c.toNat)

/-- `isIdentifierHead`, or a character outside ASCII. -/
def isIdentifierHead (c : Char) : Bool := SLexer.identifierStart c || isExtended c

/-- `isIdentifierBody`, or a character outside ASCII. -/
def isIdentifierBody (c : Char) : Bool := SLexer.identifierPart c || isExtended c

/-- An identifier of a source file. -/
def isSourceIdentifier (s : String) : Bool :=
  match s.toList with
  | [] => false
  | c :: cs => isIdentifierHead c && cs.all isIdentifierBody

namespace SLexer

theorem identifierPart_ascii {c : Char} (h : identifierPart c = true) : c.toNat ≤ 127 := by
  have hdigit : c.isDigit = (decide (48 ≤ c.val) && decide (c.val ≤ 57)) := rfl
  have halpha : c.isAlpha = (decide (65 ≤ c.val ∧ c.val ≤ 90) || decide (97 ≤ c.val) && decide (c.val ≤ 122)) := rfl
  simp only [identifierPart, identifierStart, hdigit, halpha, Bool.or_eq_true, Bool.and_eq_true, decide_eq_true_eq,
    beq_iff_eq, UInt32.le_iff_toNat_le] at h
  unfold Char.toNat
  rcases h with ⟨-, h⟩ | ((⟨-, h⟩ | ⟨-, h⟩) | rfl) | rfl
  · exact Nat.le_trans h (by decide)
  · exact Nat.le_trans h (by decide)
  · exact Nat.le_trans h (by decide)
  · decide
  · decide

theorem symbolToken_ascii {c : Char} {cs : List Char} {r : TokenType × List Char × List Char}
    (h : symbolToken (c :: cs) = some r) : c.toNat ≤ 127 := by
  have hone : ∀ {ty}, oneChar c = some ty → c.toNat ≤ 127 := by
    intro ty h
    unfold oneChar at h
    split at h <;> first | decide | cases h
  have htwo : ∀ {d ty}, twoChars c d = some ty → c.toNat ≤ 127 := by
    intro d ty h
    unfold twoChars at h
    split at h <;> first | decide | cases h
  cases cs with
  | nil =>
    obtain ⟨ty, hty, -⟩ := Option.map_eq_some_iff.mp h
    exact hone hty
  | cons d cs =>
    cases hd : twoChars c d with
    | some ty => exact htwo hd
    | none =>
      simp only [symbolToken, hd] at h
      obtain ⟨ty, hty, -⟩ := Option.map_eq_some_iff.mp h
      exact hone hty

theorem breaks_extended {c : Char} (h : isExtended c = true) : Breaks c := by
  have hc : 127 < c.toNat := of_decide_eq_true h
  refine breaks_of (eq_false_of_ne_true fun hpart => ?_) fun hsecond => ?_
  · have hascii := identifierPart_ascii hpart
    omega
  · simp only [secondChars, List.mem_cons, List.not_mem_nil, or_false] at hsecond
    rcases hsecond with rfl | rfl | rfl | rfl | rfl <;> exact absurd hc (by decide)

/-- No rule matches a character outside ASCII. -/
theorem lexChars_extended {c : Char} (h : isExtended c = true) (rest : List Char) :
    lexChars (c :: rest) = ⟨[], some .lexError⟩ := by
  have hc : 127 < c.toNat := of_decide_eq_true h
  have hpart := (breaks_extended h).1
  have hdigit := (breaks_extended h).not_digit
  have hstart : identifierStart c = false := by
    simp only [identifierPart, Bool.or_eq_false_iff] at hpart
    exact hpart.2
  have hne : ∀ d : Char, d.toNat ≤ 127 → (c == d) = false := by
    intro d hd
    refine beq_false_of_ne ?_
    rintro rfl
    omega
  have hsymbol : symbolToken (c :: rest) = none := by
    refine Option.eq_none_iff_forall_ne_some.mpr fun r hr => ?_
    have hascii := symbolToken_ascii hr
    omega
  have htoken : token (c :: rest) = none := by
    simp only [token, hstart, hne '0' (by decide), hdigit, hne '"' (by decide), Bool.false_eq_true, if_false, hsymbol]
  have hignored : ignored c = false := by
    simp [ignored, hne ' ' (by decide), hne '\t' (by decide)]
  simp only [lexChars, List.length_cons, lexAll, hignored, Bool.false_eq_true, if_false, htoken]

theorem lexChars_identifier {c : Char} {cs : List Char} (hc : identifierStart c = true)
    (hcs : cs.all identifierPart = true) : ∃ ts, lexChars (c :: cs) = ⟨ts, none⟩ := by
  have hignored : ignored c = false := by
    refine eq_false_of_ne_true fun h => ?_
    simp only [ignored, Bool.or_eq_true, beq_iff_eq] at h
    rcases h with rfl | rfl <;> cases hc
  have htoken : token (c :: cs) = some (.id, c :: cs, []) := by
    have hstop : ∀ d ∈ ([] : List Char).head?, identifierPart d = false := by simp
    obtain ⟨htake, hdrop⟩ := takeWhile_append_stop hcs hstop
    rw [List.append_nil] at htake hdrop
    simp only [token, hc, if_true, htake, hdrop]
  rw [lexChars_token hignored htoken]
  exact ⟨_, rfl⟩

/-- The first character outside ASCII. -/
theorem exists_extended : ∀ {cs : List Char}, cs.all isIdentifierBody = true → cs.all identifierPart = false →
    ∃ p c q, cs = p ++ c :: q ∧ p.all identifierPart = true ∧ isExtended c = true
  | [], _, hnot => by cases hnot
  | c :: cs, h, hnot => by
    rw [List.all_cons, Bool.and_eq_true] at h
    by_cases hc : identifierPart c = true
    · rw [List.all_cons, hc, Bool.true_and] at hnot
      obtain ⟨p, d, q, rfl, hp, hd⟩ := exists_extended h.2 hnot
      exact ⟨c :: p, d, q, rfl, by rw [List.all_cons, hc, hp]; rfl, hd⟩
    · have hbody := h.1
      rw [isIdentifierBody, eq_false_of_ne_true hc, Bool.false_or] at hbody
      exact ⟨[], c, cs, rfl, rfl, hbody⟩

/-- **An identifier that the lexer does not take** has a first character outside
ASCII, which ends the tokens. -/
theorem lexChars_sourceIdentifier {f : String} (hf : isSourceIdentifier f = true) (hnot : ¬ isIdentifier f = true)
    (rest : List Char) : ∃ ts, lexChars (f.toList ++ rest) = ⟨ts, some .lexError⟩ := by
  have hsplit : ∃ p c q ts, f.toList = p ++ c :: q ∧ isExtended c = true ∧ lexChars p = ⟨ts, none⟩ := by
    unfold isSourceIdentifier at hf
    unfold isIdentifier at hnot
    cases hlist : f.toList with
    | nil =>
      rw [hlist] at hf
      cases hf
    | cons c cs =>
      rw [hlist] at hf hnot
      simp only [Bool.and_eq_true] at hf hnot
      by_cases hstart : identifierStart c = true
      · have hpart : cs.all identifierPart = false := eq_false_of_ne_true fun hall => hnot ⟨hstart, hall⟩
        obtain ⟨p, d, q, rfl, hp, hd⟩ := exists_extended hf.2 hpart
        obtain ⟨ts, hts⟩ := lexChars_identifier hstart hp
        exact ⟨c :: p, d, q, ts, rfl, hd, hts⟩
      · have hhead := hf.1
        rw [isIdentifierHead, eq_false_of_ne_true hstart, Bool.false_or] at hhead
        exact ⟨[], c, cs, [], rfl, hhead, rfl⟩
  obtain ⟨p, c, q, ts, hf, hc, hp⟩ := hsplit
  rw [hf, List.append_assoc, List.cons_append, lexChars_break (breaks_extended hc) _ _ hp, lexChars_extended hc]
  exact ⟨_, rfl⟩

end SLexer

/-! ### What the parser makes of a call's text -/

/-- A text that the grammar accepts as an expression. -/
def Accepted (a : String) : Prop := ∃ ts, SLexer.lex a = ⟨ts, none⟩ ∧ SParser.Sentence ts

/-- The text is read to nothing, or to a call with the symbols of the texts as its
arguments. -/
def KeepsArguments (text : String) (texts : List String) : Prop :=
  SParser.parse text = .ok none ∨ ∃ f ss, SParser.parse text = .ok (some (.call f ss)) ∧
    List.Forall₂ (fun a s => SParser.parse a = .ok (some s)) texts ss

/-- The lexer takes the name, `int` the integers, and the first text is not the only
empty one. -/
structure ReadsArguments (f : String) (texts : List String) : Prop where
  name : isIdentifier f = true
  ints : ∀ a ∈ texts, SParser.Convertible (SLexer.tokens a)
  first : ∀ as, texts = "" :: as → "" ∈ as

open SLexer SParser

/-- The text of a call. -/
def callText (f : String) (texts : List String) : String := f ++ "(" ++ String.intercalate ", " texts ++ ")"

theorem callText_toList (f a : String) (as : List String) :
    (callText f (a :: as)).toList = f.toList ++ '(' :: (a.toList ++ (moreText as ++ [')'])) := by
  rw [callText, String.toList_append, String.toList_append, String.toList_append, intercalate_toList]
  simp

/-- Without arguments the text is that of one empty argument. -/
theorem callText_nil (f : String) : callText f [] = callText f [""] := by
  simp [callText]

theorem lex_tokens {a : String} (h : a = "" ∨ Accepted a) : lex a = ⟨tokens a, none⟩ := by
  rcases h with rfl | ⟨ts, hlex, -⟩
  · rfl
  · rw [tokens, hlex]

theorem tokens_eq_nil {a : String} (h : a = "" ∨ Accepted a) : tokens a = [] ↔ a = "" := by
  constructor
  · intro hnil
    refine h.resolve_right ?_
    rintro ⟨ts, hlex, hs⟩
    rw [tokens, hlex] at hnil
    exact not_sentence_nil (hnil ▸ hs)
  · rintro rfl
    rfl

theorem argument_tokens {a : String} (h : a = "" ∨ Accepted a) : Argument (tokens a) := by
  rcases h with rfl | ⟨ts, hlex, hs⟩
  · exact .inl rfl
  · refine .inr ?_
    rw [tokens, hlex]
    exact hs

/-- The parse of a call's text. -/
theorem parse_callText (f : Identifier) {a : String} {as : List String} (h : ∀ b ∈ a :: as, b = "" ∨ Accepted b) :
    SParser.parse (callText f.1 (a :: as)) = result (ends (callTokens f ((a :: as).map tokens))) := by
  have hlex : lex (callText f.1 (a :: as)) = ⟨callTokens f ((a :: as).map tokens), none⟩ := by
    rw [lex, callText_toList]
    exact lexChars_call f (lexChars_arguments fun b hb => lex_tokens (h b hb))
  unfold SParser.parse
  rw [hlex]
  rfl

/-- What the tokens are read to is the symbol of the text. -/
theorem parse_of_makes : ∀ {as : List String} {ss : List Symbol}, (∀ b ∈ as, b = "" ∨ Accepted b) →
    List.Forall₂ Makes (as.map tokens) ss → List.Forall₂ (fun a s => SParser.parse a = .ok (some s)) as ss
  | [], _, _, h => by
    cases h
    exact .nil
  | a :: as, _, hargs, h => by
    rw [List.forall_mem_cons] at hargs
    cases h with
    | cons hmakes hmade => exact .cons (hmakes.parse (lex_tokens hargs.1)) (parse_of_makes hargs.2 hmade)

theorem not_keeps_of_error {text : String} {texts : List String} {e : Python.Error}
    (h : SParser.parse text = .error e) : ¬ KeepsArguments text texts := by
  rintro (hnone | ⟨f, ss, hcall, -⟩)
  · rw [h] at hnone
    cases hnone
  · rw [h] at hcall
    cases hcall

/-- The arguments are those of the call that is read. -/
theorem keeps_call_iff {text : String} {texts : List String} {f : Symbol} {ss : List Symbol}
    (h : SParser.parse text = .ok (some (.call f ss))) :
    KeepsArguments text texts ↔ List.Forall₂ (fun a s => SParser.parse a = .ok (some s)) texts ss := by
  refine ⟨?_, fun hall => .inr ⟨f, ss, h, hall⟩⟩
  rintro (hnone | ⟨f', ss', hcall, hall⟩)
  · rw [h] at hnone
    cases hnone
  · rw [h] at hcall
    cases hcall
    exact hall

theorem empty_mem_iff {as : List String} (h : ∀ b ∈ as, b = "" ∨ Accepted b) :
    [] ∈ as.map tokens ↔ "" ∈ as := by
  rw [List.mem_map]
  constructor
  · rintro ⟨b, hb, hnil⟩
    exact (tokens_eq_nil (h b hb)).mp hnil ▸ hb
  · intro hmem
    exact ⟨"", hmem, rfl⟩

/-- **With an empty first text** the arguments are kept where nothing is read. -/
theorem keeps_nil_iff (f : Identifier) {as : List String} (h : ∀ b ∈ as, b = "" ∨ Accepted b) :
    KeepsArguments (callText f.1 ("" :: as)) ("" :: as) ↔ ReadsArguments f.1 ("" :: as) := by
  have htexts : ∀ b ∈ "" :: as, b = "" ∨ Accepted b := List.forall_mem_cons.mpr ⟨.inl rfl, h⟩
  have hparse := parse_callText f htexts
  rw [List.map_cons, show tokens "" = [] from rfl] at hparse
  have hargs : ∀ l ∈ as.map tokens, Argument l := List.forall_mem_map.mpr fun b hb => argument_tokens (h b hb)
  cases ends_call_nil f hargs with
  | call ss hconv hnil hmade hends =>
    rw [hends] at hparse
    rw [keeps_call_iff hparse]
    refine iff_of_false (fun hall => ?_) fun hreads => hnil ((empty_mem_iff h).mpr (hreads.first as rfl))
    have hlength := hall.length_eq
    have hmade' := hmade.length_eq
    simp only [List.length_cons, List.length_map, List.nil_append] at hlength hmade'
    omega
  | nothing hconv hnil hends =>
    rw [hends] at hparse
    refine iff_of_true (.inl hparse) ⟨f.2, ?_, fun as' has => ?_⟩
    · exact List.forall_mem_cons.mpr ⟨convertible_nil, List.forall_mem_map.mp hconv⟩
    · obtain ⟨-, rfl⟩ := List.cons.inj has
      exact (empty_mem_iff h).mp hnil
  | raised e hconv hends =>
    rw [hends] at hparse
    exact iff_of_false (not_keeps_of_error hparse) fun hreads =>
      hconv (List.forall_mem_map.mpr (List.forall_mem_cons.mp hreads.ints).2)

/-- **With an expression as the first text** the arguments are kept where `int` takes
the integers. -/
theorem keeps_cons_iff (f : Identifier) {a : String} (ha : Accepted a) {as : List String}
    (h : ∀ b ∈ as, b = "" ∨ Accepted b) :
    KeepsArguments (callText f.1 (a :: as)) (a :: as) ↔ ReadsArguments f.1 (a :: as) := by
  have hparse := parse_callText f (List.forall_mem_cons.mpr ⟨.inr ha, h⟩)
  rw [List.map_cons] at hparse
  have hargs : ∀ l ∈ as.map tokens, Argument l := List.forall_mem_map.mpr fun b hb => argument_tokens (h b hb)
  have hs : Sentence (tokens a) := by
    obtain ⟨ts, hlex, hs⟩ := ha
    rw [tokens, hlex]
    exact hs
  have hfirst : ∀ as', a :: as = "" :: as' → "" ∈ as' := by
    rintro as' heq
    obtain ⟨rfl, -⟩ := List.cons.inj heq
    exact absurd hs not_sentence_nil
  have hreads : Convertible (tokens a) → (∀ l ∈ as.map tokens, Convertible l) → ReadsArguments f.1 (a :: as) :=
    fun hconv hconvs => ⟨f.2, List.forall_mem_cons.mpr ⟨hconv, List.forall_mem_map.mp hconvs⟩, hfirst⟩
  rcases ends_call f hs hargs with ⟨hconv, s, hmakes, hend⟩ | ⟨hconv, e, hends⟩
  · cases hend with
    | call ss hconvs hnil hmade hends =>
      rw [hends] at hparse
      rw [keeps_call_iff hparse]
      refine iff_of_true ?_ (hreads hconv hconvs)
      exact .cons (hmakes.parse (lex_tokens (.inr ha))) (parse_of_makes h hmade)
    | nothing hconvs hnil hends =>
      rw [hends] at hparse
      exact iff_of_true (.inl hparse) (hreads hconv hconvs)
    | raised e hconvs hends =>
      rw [hends] at hparse
      exact iff_of_false (not_keeps_of_error hparse) fun hreads =>
        hconvs (List.forall_mem_map.mpr (List.forall_mem_cons.mp hreads.ints).2)
  · rw [hends] at hparse
    exact iff_of_false (not_keeps_of_error hparse) fun hreads => hconv (List.forall_mem_cons.mp hreads.ints).1

/-- **When the text of a call keeps its arguments.** -/
theorem keeps_callText_iff {f : String} (hf : isSourceIdentifier f = true) {texts : List String}
    (h : ∀ a ∈ texts, a = "" ∨ Accepted a) : KeepsArguments (callText f texts) texts ↔ ReadsArguments f texts := by
  by_cases hname : isIdentifier f = true
  · cases texts with
    | nil =>
      have htexts : ∀ b ∈ [""], b = "" ∨ Accepted b := by simp
      have hparse := parse_callText ⟨f, hname⟩ htexts
      have hargs : ∀ l ∈ ([] : List (List LexToken)), Argument l := by simp
      have hcall := ends_call_nil ⟨f, hname⟩ hargs
      rw [callText_nil]
      refine iff_of_true ?_ ⟨hname, by simp, by simp⟩
      cases hcall with
      | call ss hconv hnil hmade hends =>
        cases hmade
        rw [show ([""].map tokens) = [[]] from rfl, hends] at hparse
        exact (keeps_call_iff hparse).mpr .nil
      | nothing hconv hnil hends => cases hnil
      | raised e hconv hends => exact absurd (by simp) hconv
    | cons a as =>
      rw [List.forall_mem_cons] at h
      rcases h.1 with rfl | ha
      · exact keeps_nil_iff ⟨f, hname⟩ h.2
      · exact keeps_cons_iff ⟨f, hname⟩ ha h.2
  · refine iff_of_false ?_ fun hreads => hname hreads.name
    have hlist : (callText f texts).toList = f.toList ++ ("(" ++ String.intercalate ", " texts ++ ")").toList := by
      rw [← String.toList_append]
      simp [callText, String.append_assoc]
    obtain ⟨ts, hts⟩ := lexChars_sourceIdentifier hf hname ("(" ++ String.intercalate ", " texts ++ ")").toList
    rw [← hlist] at hts
    rintro (hnone | ⟨_, _, hcall, -⟩)
    · exact parse_illegal hts _ hnone
    · exact parse_illegal hts _ hcall

/-- A name is an expression. -/
theorem accepted_id {x : String} (h : lex x = ⟨[⟨.id, x⟩], none⟩) : Accepted x :=
  have hid : ContextFree.Yields productions [.nonterminal .primaryExpression] [.id] :=
    ContextFree.Yields.production (p := Production.primaryExpression1) (.terminal TokenType.id .nil)
  ⟨_, h, sentence_iff.mpr (yields_of_primary hid).2.2.2.2⟩

namespace Ento

/-- **When arguments keep their positions.** The text of a direct call without a
value, whose arguments are expressions or empty texts, is read to nothing or to
a call with these arguments exactly if the lexer takes the name, `int` the
integers, and the first argument is not the only empty one. -/
theorem keepsArguments_iff {P : AsStmtPrinter} {callee : Expr} {args : List Expr} {f : String}
    (hval : P.tryToEvalSymExprOrSVal (.call callee args) = none)
    (hfd : callee.getDirectCallee = some ⟨.identifier f⟩) (hf : isSourceIdentifier f = true)
    (hargs : ∀ a ∈ P.printed args, a = "" ∨ Accepted a) :
    KeepsArguments (P.visit (.call callee args)) (P.printed args) ↔ ReadsArguments f (P.printed args) := by
  rw [P.visit_direct hval hfd]
  exact keeps_callText_iff hf hargs

/-- A printer for a variable `x`, in a state without values. -/
def printsX : AsStmtPrinter where
  getSVal _ := .unknown
  visitOther _ := "x"
  isLValue := false

/-- The function `f`, as a callee. -/
def calleeF : Expr := .implicitCast (.declRef (.function ⟨.identifier "f"⟩))

theorem keepsArguments_x : KeepsArguments "f(x)" ["x"] ↔ ReadsArguments "f" ["x"] := by
  have hval : printsX.tryToEvalSymExprOrSVal (.call calleeF [.other 0]) = none := rfl
  have hfd : calleeF.getDirectCallee = some ⟨.identifier "f"⟩ := rfl
  have htexts : printsX.printed [.other 0] = ["x"] := rfl
  have htext : printsX.visit (.call calleeF [.other 0]) = "f(x)" := by decide +kernel
  have hargs : ∀ a ∈ printsX.printed [.other 0], a = "" ∨ Accepted a := by
    intro a ha
    obtain rfl : a = "x" := List.mem_singleton.mp ha
    exact .inr (accepted_id rfl)
  have hiff := keepsArguments_iff hval hfd rfl hargs
  rw [htext, htexts] at hiff
  exact hiff

/-- The call `f(fp(), x)` through a pointer `fp` is printed `f(, x)` and has one argument. -/
theorem pointerArgument_moves : ¬ ∀ (P : AsStmtPrinter) (callee : Expr) (args : List Expr) (f : String),
    P.tryToEvalSymExprOrSVal (.call callee args) = none → callee.getDirectCallee = some ⟨.identifier f⟩ →
      isSourceIdentifier f = true → (∀ a ∈ P.printed args, a = "" ∨ Accepted a) →
        KeepsArguments (P.visit (.call callee args)) (P.printed args) := by
  intro h
  have hargs : ∀ a ∈ printsX.printed [.call (.implicitCast (.declRef (.other "fp"))) [], .other 0],
      a = "" ∨ Accepted a := by
    intro a ha
    obtain rfl | ha := List.mem_cons.mp ha
    · exact .inl rfl
    obtain rfl : a = "x" := List.mem_singleton.mp ha
    exact .inr (accepted_id rfl)
  have hkeeps := h printsX calleeF [.call (.implicitCast (.declRef (.other "fp"))) [], .other 0] "f" rfl rfl rfl hargs
  have hparse : SParser.parse "f(, x)" = .ok (some (.call (.id "f") [.id "x"])) := rfl
  rcases hkeeps with hnone | ⟨_, _, hcall, hall⟩
  · cases hparse.symm.trans hnone
  · cases hparse.symm.trans hcall
    cases hall.length_eq

end Ento
end Apisan
