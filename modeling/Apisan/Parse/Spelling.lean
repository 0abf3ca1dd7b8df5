/-
# Writing tokens

A word is a token with a text its rule matches. A text writes a list of words
when it is their texts in order, with any blanks before each word and at the
end (`Written`). It lexes back to the tokens of the words if no word runs into
the first character of the next one (`Apart`). A text that lexes to its end
lexes to the same tokens before a character that goes on with none (`Breaks`).

Key definitions: `Word`, `SLexer.stops`, `SLexer.Apart`, `SLexer.Written`,
`SLexer.Breaks`, `SLexer.Spelled`.
Key theorems: `SLexer.token_word`, `SLexer.lex_written`, `SLexer.lexChars_break`,
`SLexer.lexAll_spelled`.
-/
import Apisan.Parse.SLexer

namespace Apisan

/-- A text the rule `t_ID` matches. -/
def isIdentifier (s : String) : Bool :=
  match s.toList with
  | [] => false
  | c :: cs => SLexer.identifierStart c && cs.all SLexer.identifierPart

/-- An identifier. -/
def Identifier : Type := {s : String // isIdentifier s = true}

/-- A text the rule `t_STRING_LITERAL` matches. -/
def isStringLiteral (s : String) : Bool :=
  match s.toList with
  | [] => false
  | c :: cs => c == '"' && SLexer.stringBody cs == some (cs, [])

/-- The text of a string literal's token, quotes included. -/
def StringToken : Type := {s : String // isStringLiteral s = true}

/-- A token with a text its rule matches; an integer has no suffix. -/
inductive Word
  | id (x : Identifier)
  | int (n : ℕ)
  | string (x : StringToken)
  | op (o : BinaryOp)
  | lparen
  | rparen
  | lbracket
  | rbracket
  | lbrace
  | rbrace
  | comma
  | arrow
  | constraintOp

namespace Word

def type : Word → TokenType
  | id _ => .id
  | int _ => .intConstDec
  | string _ => .stringLiteral
  | op o => .op o
  | lparen => .lparen
  | rparen => .rparen
  | lbracket => .lbracket
  | rbracket => .rbracket
  | lbrace => .lbrace
  | rbrace => .rbrace
  | comma => .comma
  | arrow => .arrow
  | constraintOp => .constraintOp

def text : Word → String
  | id x => x.1
  | int n => String.ofList (Nat.toDigits 10 n)
  | string x => x.1
  | op o => o.text
  | lparen => "("
  | rparen => ")"
  | lbracket => "["
  | rbracket => "]"
  | lbrace => "\x7b"
  | rbrace => "\x7d"
  | comma => ","
  | arrow => "->"
  | constraintOp => "@="

/-- The token of a word. -/
def token (w : Word) : LexToken := ⟨w.type, w.text⟩

end Word

namespace SLexer

/-- The characters that cannot go on with a token of the type. -/
def stops : TokenType → Char → Bool
  | .id, c | .intConstDec, c => !identifierPart c
  | .op .lt, c => c != '<' && c != '='
  | .op .gt, c => c != '>' && c != '='
  | .op .minus, c => c != '>'
  | .op .and, c => c != '&'
  | .op .or, c => c != '|'
  | .lnot, c => c != '='
  | _, _ => true

/-! ### A token is read back -/

theorem takeWhile_append_stop {p : Char → Bool} : ∀ {cs rest : List Char}, cs.all p = true →
    (∀ c ∈ rest.head?, p c = false) →
    (cs ++ rest).takeWhile p = cs ∧ (cs ++ rest).dropWhile p = rest
  | [], [], _, _ => ⟨rfl, rfl⟩
  | [], c :: rest, _, h => by simp [h c (by simp)]
  | c :: cs, rest, hcs, h => by
    simp only [List.all_cons, Bool.and_eq_true] at hcs
    have ih := takeWhile_append_stop hcs.2 h
    simp [hcs.1, ih]

/-- A text is taken up to the first place of a character. -/
theorem takeWhile_ne_cons {c : Char} {cs : List Char} (h : c ∉ cs) (rest : List Char) :
    (cs ++ c :: rest).takeWhile (· != c) = cs ∧ (cs ++ c :: rest).dropWhile (· != c) = c :: rest := by
  refine takeWhile_append_stop ?_ (by simp)
  simpa using fun d hd (he : d = c) => h (he ▸ hd)

theorem notMem_takeWhile_ne (c : Char) (cs : List Char) : c ∉ cs.takeWhile (· != c) := by
  intro h
  have hall := List.all_eq_true.mp (List.all_takeWhile (p := (· != c)) (l := cs)) c h
  simp at hall

/-- A text goes on with the character up to which it is taken. -/
theorem takeWhile_ne_append {c : Char} {cs : List Char} (h : cs.dropWhile (· != c) ≠ []) :
    ∃ rest, cs = cs.takeWhile (· != c) ++ c :: rest := by
  obtain ⟨d, rest, hrest⟩ := List.exists_cons_of_ne_nil h
  have hd : d = c := by
    have hhead := List.head?_dropWhile_not (· != c) cs
    simpa [hrest] using hhead
  exact ⟨rest, by rw [← hd, ← hrest, hd, List.takeWhile_append_dropWhile]⟩

theorem stringBody_append_rest (rest : List Char) : ∀ {cs b r : List Char},
    stringBody cs = some (b, r) → stringBody (cs ++ rest) = some (b, r ++ rest) := by
  intro cs
  fun_induction stringBody cs with
  | case1 | case3 | case4 | case6 => intro b r h; cases h
  | case2 cs =>
    intro b r h
    cases h
    rw [List.cons_append, stringBody.eq_def]
    rfl
  | case5 d ds hd _ _ ih =>
    intro b r h
    obtain ⟨⟨b', r'⟩, hb, he⟩ := Option.map_eq_some_iff.mp h
    cases he
    rw [List.cons_append, List.cons_append, stringBody.eq_def]
    simp [hd, ih hb]
  | case7 c cs h1 h2 h3 ih =>
    intro b r h
    obtain ⟨⟨b', r'⟩, hb, he⟩ := Option.map_eq_some_iff.mp h
    cases he
    rw [List.cons_append, stringBody.eq_def]
    simp [h1, h2, h3, ih hb]

theorem digitChars_all (n : ℕ) : (Nat.toDigits 10 n).all Char.isDigit = true :=
  List.all_eq_true.mpr fun _ hc => Nat.isDigit_of_mem_toDigits (by omega) (by omega) hc

/-- A number of several digits does not start with a zero. -/
theorem toDigits_head_ne_zero (n : ℕ) : n ≠ 0 → (Nat.toDigits 10 n).head? ≠ some '0' := by
  induction n using Nat.strong_induction_on with
  | _ n ih =>
    intro hn
    rcases Nat.lt_or_ge n 10 with h | h
    · simp [Nat.toDigits_of_lt_base h, hn]
    · rw [Nat.toDigits_of_base_le (by omega) h,
        List.head?_append_of_ne_nil _ Nat.toDigits_ne_nil]
      exact ih (n / 10) (by omega) (by omega)

theorem integerSuffix_stop {rest : List Char} (h : ∀ c ∈ rest.head?, identifierPart c = false) :
    integerSuffix rest = ([], rest) := by
  cases rest with
  | nil => rfl
  | cons c rest =>
    have hc := h c (by simp)
    unfold integerSuffix
    split <;> first | rfl | (rename_i heq; cases heq; simp [identifierPart, identifierStart] at hc)

theorem isDigit_not_start {c : Char} (h : c.isDigit = true) : identifierStart c = false := by
  have h1 : c ≠ '_' := by rintro rfl; cases h
  have h2 : c ≠ '$' := by rintro rfl; cases h
  have h3 : c.isAlpha = false := by
    simp only [Char.isDigit, Bool.and_eq_true, decide_eq_true_eq, ge_iff_le,
      UInt32.le_iff_toNat_le] at h
    show (decide (c.val ≥ 65 ∧ c.val ≤ 90) || decide (c.val ≥ 97) && decide (c.val ≤ 122)) = false
    simp only [Bool.or_eq_false_iff, Bool.and_eq_false_iff, decide_eq_false_iff_not, ge_iff_le,
      UInt32.le_iff_toNat_le]
    simp at h ⊢
    omega
  simp [identifierStart, h1, h2, h3]

/-- A digit followed by a character that goes on with neither a number nor a
suffix. -/
theorem token_int (n : ℕ) {rest : List Char} (h : ∀ c ∈ rest.head?, identifierPart c = false) :
    token (Nat.toDigits 10 n ++ rest) = some (.intConstDec, Nat.toDigits 10 n, rest) := by
  have hall := digitChars_all n
  rcases Nat.eq_zero_or_pos n with rfl | hn
  · simp [token, integerSuffix_stop h, show identifierStart '0' = false from rfl]
  · have hz := toDigits_head_ne_zero n (by omega)
    obtain ⟨c, cs, hcs⟩ := List.exists_cons_of_ne_nil (Nat.toDigits_ne_nil (n := n) (b := 10))
    rw [hcs] at hall hz ⊢
    simp only [List.all_cons, Bool.and_eq_true] at hall
    have hc0 : c ≠ '0' := by simpa using hz
    have hdig : ∀ d ∈ rest.head?, Char.isDigit d = false := fun d hd => by
      have := h d hd
      simp only [identifierPart, Bool.or_eq_false_iff] at this
      exact this.1
    obtain ⟨h1, h2⟩ := takeWhile_append_stop hall.2 hdig
    simp [token, isDigit_not_start hall.1, hc0, hall.1, h1, h2, integerSuffix_stop h]

/-- The characters only the rules of operators and delimiters start with. -/
def symbolStart (c : Char) : Bool := !identifierStart c && !c.isDigit && c != '"'

theorem token_symbol {c : Char} (h : symbolStart c = true) (rest : List Char) :
    token (c :: rest) = symbolToken (c :: rest) := by
  simp only [symbolStart, Bool.and_eq_true, Bool.not_eq_true', bne_iff_ne, ne_eq] at h
  obtain ⟨⟨h1, h2⟩, h3⟩ := h
  have h0 : c ≠ '0' := by rintro rfl; cases h2
  simp [token, h1, h2, h3, h0]

theorem oneChar_start {c : Char} {ty : TokenType} (h : oneChar c = some ty) :
    symbolStart c = true := by
  unfold oneChar at h
  split at h <;> first | rfl | cases h

theorem twoChars_start {c d : Char} {ty : TokenType} (h : twoChars c d = some ty) :
    symbolStart c = true := by
  unfold twoChars at h
  split at h <;> first | rfl | cases h

/-- A one-character token is not the start of a longer one. -/
theorem twoChars_stop {c d : Char} {ty : TokenType} (h : oneChar c = some ty)
    (hs : stops ty d = true) : twoChars c d = none := by
  unfold twoChars
  split <;> first | rfl | (cases h <;> simp [stops] at hs)

theorem token_one {c : Char} {ty : TokenType} (h : oneChar c = some ty) {rest : List Char}
    (hrest : ∀ d ∈ rest.head?, stops ty d = true) :
    token (c :: rest) = some (ty, [c], rest) := by
  rw [token_symbol (oneChar_start h)]
  cases rest with
  | nil => simp [symbolToken, h]
  | cons d rest => simp [symbolToken, twoChars_stop h (hrest d (by simp)), h]

theorem token_two {c d : Char} {ty : TokenType} (h : twoChars c d = some ty) (rest : List Char) :
    token (c :: d :: rest) = some (ty, [c, d], rest) := by
  rw [token_symbol (twoChars_start h)]
  simp [symbolToken, h]

theorem token_id (x : Identifier) {rest : List Char}
    (h : ∀ c ∈ rest.head?, identifierPart c = false) :
    token (x.1.toList ++ rest) = some (.id, x.1.toList, rest) := by
  obtain ⟨s, hs⟩ := x
  unfold isIdentifier at hs
  split at hs
  · cases hs
  · rename_i c cs hcs
    simp only [Bool.and_eq_true] at hs
    obtain ⟨h1, h2⟩ := takeWhile_append_stop hs.2 h
    simp [hcs, token, hs.1, h1, h2]

theorem token_string (x : StringToken) (rest : List Char) :
    token (x.1.toList ++ rest) = some (.stringLiteral, x.1.toList, rest) := by
  obtain ⟨s, hs⟩ := x
  unfold isStringLiteral at hs
  split at hs
  · cases hs
  · rename_i c cs hcs
    simp only [Bool.and_eq_true, beq_iff_eq] at hs
    obtain ⟨rfl, hb⟩ := hs
    have := stringBody_append_rest rest hb
    simp [hcs, token, this, show identifierStart '"' = false from rfl,
      show Char.isDigit '"' = false from rfl]

/-- **A word is read back.** -/
theorem token_word (w : Word) {rest : List Char} (h : ∀ c ∈ rest.head?, stops w.type c = true) :
    token (w.text.toList ++ rest) = some (w.type, w.text.toList, rest) := by
  cases w with
  | id x => exact token_id x fun c hc => by simpa [stops, Word.type] using h c hc
  | int n => simpa [Word.text, Word.type] using token_int n fun c hc => by simpa [stops, Word.type] using h c hc
  | string x => exact token_string x rest
  | op o => cases o <;> first | exact token_one rfl h | exact token_two rfl rest
  | arrow | constraintOp => exact token_two rfl rest
  | _ => exact token_one rfl h

/-! ### A text is read back -/

/-- The first character of the second word cannot go on with the first. -/
def Apart (w v : Word) : Prop := ∀ c ∈ v.text.toList.head?, stops w.type c = true

/-- The text writes the words: their texts in order, with any blanks before
each and at the end. -/
inductive Written : List Word → List Char → Prop
  | nil {b : List Char} : b.all ignored = true → Written [] b
  | cons {b cs : List Char} {w : Word} {ws : List Word} :
    b.all ignored = true → Written ws cs → Written (w :: ws) (b ++ (w.text.toList ++ cs))

theorem stops_ignored {c : Char} (h : ignored c = true) (ty : TokenType) : stops ty c = true := by
  simp only [ignored, Bool.or_eq_true, beq_iff_eq] at h
  rcases h with rfl | rfl <;> cases ty <;> first | rfl | (rename_i o; cases o <;> rfl)

theorem token_ignored {c : Char} (h : ignored c = true) (cs : List Char) :
    token (c :: cs) = none := by
  simp only [ignored, Bool.or_eq_true, beq_iff_eq] at h
  rcases h with rfl | rfl <;> rw [token_symbol (by decide)] <;> cases cs <;> rfl

/-- A word starts with a character that is no blank. -/
theorem word_start (w : Word) : ∃ c cs, w.text.toList = c :: cs ∧ ignored c = false := by
  have h : token (w.text.toList ++ []) = _ := token_word w (by simp)
  rw [List.append_nil] at h
  cases hv : w.text.toList with
  | nil =>
    rw [hv] at h
    cases h
  | cons c cs =>
    refine ⟨c, cs, rfl, ?_⟩
    cases hc : ignored c with
    | false => rfl
    | true =>
      rw [hv, token_ignored hc] at h
      cases h

theorem lexChars_blanks : ∀ {b : List Char}, b.all ignored = true → ∀ cs,
    lexChars (b ++ cs) = lexChars cs
  | [], _, _ => rfl
  | _ :: _, h, _ => by
    simp only [List.all_cons, Bool.and_eq_true] at h
    rw [List.cons_append, lexChars_ignored h.1, lexChars_blanks h.2]

/-- A written text starts with a blank or with its first word. -/
theorem written_head {ws : List Word} {cs : List Char} (h : Written ws cs) {c : Char}
    (hc : c ∈ cs.head?) : ignored c = true ∨ ∃ w ∈ ws.head?, c ∈ w.text.toList.head? := by
  cases h with
  | nil hbl => exact .inl (List.all_eq_true.mp hbl c (List.mem_of_mem_head? hc))
  | @cons b cs w ws hbl h =>
    obtain ⟨d, ds, hd, -⟩ := word_start w
    cases b with
    | nil => exact .inr ⟨w, by simp, by simpa [hd] using hc⟩
    | cons d b =>
      obtain rfl : d = c := by simpa using hc
      exact .inl (List.all_eq_true.mp hbl d (by simp))

theorem Written.blanks {b cs : List Char} {ws : List Word} (hb : b.all ignored = true)
    (h : Written ws cs) : Written ws (b ++ cs) := by
  cases h with
  | nil hbl => exact .nil (by rw [List.all_append, hb, hbl]; rfl)
  | cons hbl h =>
    rw [← List.append_assoc]
    exact .cons (by rw [List.all_append, hb, hbl]; rfl) h

theorem Written.append {vs ws : List Word} {bs cs : List Char} (hv : Written vs bs)
    (hw : Written ws cs) : Written (vs ++ ws) (bs ++ cs) := by
  induction hv with
  | nil hb => exact hw.blanks hb
  | cons hb _ ih =>
    rw [List.append_assoc, List.append_assoc]
    exact .cons hb ih

/-- **A written text lexes back to its words.** -/
theorem lex_written {ws : List Word} {cs : List Char} (h : Written ws cs) (ha : ws.IsChain Apart) :
    lexChars cs = ⟨ws.map Word.token, none⟩ := by
  induction h with
  | nil hbl => simpa [lexChars_nil] using lexChars_blanks hbl []
  | @cons b cs w ws hbl h ih =>
    have hstop : ∀ c ∈ cs.head?, stops w.type c = true := by
      intro c hc
      rcases written_head h hc with hb | ⟨v, hv, hcv⟩
      · exact stops_ignored hb _
      · cases ws with
        | nil => simp at hv
        | cons u ws =>
          obtain rfl : u = v := by simpa using hv
          exact (List.isChain_cons_cons.mp ha).1 c hcv
    have htok := token_word w hstop
    obtain ⟨c, v, hv, hc⟩ := word_start w
    rw [hv, List.cons_append] at htok
    rw [lexChars_blanks hbl, hv, List.cons_append, lexChars_token hc htok, ih ha.of_cons, ← hv]
    simp [Word.token]

/-! ### A text that goes on -/

/-- The character goes on with no token. -/
def Breaks (c : Char) : Prop := identifierPart c = false ∧ ∀ d, twoChars d c = none

/-- The second characters of the rules of two characters. -/
def secondChars : List Char := ['|', '&', '<', '>', '=']

theorem twoChars_second {c d : Char} {ty : TokenType} (h : twoChars c d = some ty) : d ∈ secondChars := by
  unfold twoChars at h
  split at h <;> first | decide | cases h

theorem breaks_of {c : Char} (hpart : identifierPart c = false) (hsecond : c ∉ secondChars) : Breaks c := by
  refine ⟨hpart, fun d => ?_⟩
  cases h : twoChars d c with
  | none => rfl
  | some ty => exact absurd (twoChars_second h) hsecond

theorem Breaks.not_digit {c : Char} (h : Breaks c) : c.isDigit = false := by
  have hpart := h.1
  simp only [identifierPart, Bool.or_eq_false_iff] at hpart
  exact hpart.1

theorem integerSuffix_break {c : Char} (h : Breaks c) (rest cs : List Char) :
    integerSuffix (cs ++ c :: rest) = ((integerSuffix cs).1, (integerSuffix cs).2 ++ c :: rest) := by
  have hne : ∀ d, identifierPart d = true → c ≠ d := fun d hd he => by
    rw [← he, h.1] at hd
    cases hd
  have hl : c ≠ 'l' := hne 'l' rfl
  have hL : c ≠ 'L' := hne 'L' rfl
  have hu : c ≠ 'u' := hne 'u' rfl
  have hU : c ≠ 'U' := hne 'U' rfl
  clear hne h
  fun_cases integerSuffix cs <;> first
    | rfl
    | cases ‹List Char› with
      | nil => simp [integerSuffix, *]
      | cons d cs => simp_all [integerSuffix]

theorem symbolToken_break {c : Char} (h : Breaks c) (rest : List Char) {cs v r : List Char} {ty : TokenType}
    (ht : symbolToken cs = some (ty, v, r)) : symbolToken (cs ++ c :: rest) = some (ty, v, r ++ c :: rest) := by
  fun_cases symbolToken cs with
  | case1 => cases ht
  | case2 d =>
    obtain ⟨type, htype, he⟩ := Option.map_eq_some_iff.mp ht
    cases he
    simp [symbolToken, h.2 d, htype]
  | case3 d e cs type htwo =>
    simp only [symbolToken, htwo] at ht
    cases ht
    simp [symbolToken, htwo]
  | case4 d e cs htwo =>
    simp only [symbolToken, htwo] at ht
    obtain ⟨type, htype, he⟩ := Option.map_eq_some_iff.mp ht
    cases he
    simp [symbolToken, htwo, htype]

theorem takeWhile_break {p : Char → Bool} {c : Char} (hc : p c = false) (rest : List Char) :
    ∀ cs : List Char, (cs ++ c :: rest).takeWhile p = cs.takeWhile p ∧
      (cs ++ c :: rest).dropWhile p = cs.dropWhile p ++ c :: rest
  | [] => by simp [hc]
  | d :: cs => by
    obtain ⟨htake, hdrop⟩ := takeWhile_break hc rest cs
    cases hd : p d <;> simp [hd, htake, hdrop]

/-- **A token is read as before** when such a character follows the text. -/
theorem token_break {c : Char} (h : Breaks c) (rest : List Char) {cs v r : List Char} {ty : TokenType}
    (ht : token cs = some (ty, v, r)) : token (cs ++ c :: rest) = some (ty, v, r ++ c :: rest) := by
  cases cs with
  | nil => cases ht
  | cons d cs =>
    rw [token] at ht
    rw [List.cons_append, token]
    split_ifs at ht ⊢ with h₁ h₂ h₃ h₄
    · cases ht
      rw [(takeWhile_break h.1 rest cs).1, (takeWhile_break h.1 rest cs).2]
    · cases ht
      rw [integerSuffix_break h]
    · cases ht
      rw [(takeWhile_break h.not_digit rest cs).1, (takeWhile_break h.not_digit rest cs).2,
        integerSuffix_break h]
    · obtain ⟨⟨b, r'⟩, hb, he⟩ := Option.map_eq_some_iff.mp ht
      cases he
      rw [stringBody_append_rest (c :: rest) hb]
      rfl
    · exact symbolToken_break h rest ht

/-- **A text that lexes to its end** lexes to the same tokens, and then to those
of what follows it. -/
theorem lexChars_break {c : Char} (h : Breaks c) (rest : List Char) : ∀ (cs : List Char)
    {ts : List LexToken}, lexChars cs = ⟨ts, none⟩ →
    lexChars (cs ++ c :: rest) = ⟨ts ++ (lexChars (c :: rest)).tokens, (lexChars (c :: rest)).eof⟩
  | [], ts, hlex => by
    cases hlex
    rfl
  | d :: cs, ts, hlex => by
    cases hd : ignored d with
    | true =>
      rw [lexChars_ignored hd] at hlex
      rw [List.cons_append, lexChars_ignored hd]
      exact lexChars_break h rest cs hlex
    | false =>
      cases ht : token (d :: cs) with
      | none =>
        rw [lexChars, List.length_cons, lexAll, hd, ht] at hlex
        cases hlex
      | some t =>
        obtain ⟨ty, v, r⟩ := t
        rw [lexChars_token hd ht] at hlex
        obtain ⟨htokens, heof⟩ := Lexed.mk.inj hlex
        have hr : r.length ≤ cs.length := Nat.le_of_lt_succ (token_length ht)
        have hrest : lexChars r = ⟨(lexChars r).tokens, none⟩ := by rw [← heof]
        have ih := lexChars_break h rest r hrest
        have htoken := token_break h rest ht
        rw [List.cons_append] at htoken ⊢
        rw [lexChars_token hd htoken, ih, ← htokens]
        rfl
termination_by cs => cs.length

/-! ### How tokens are spelled -/

/-- A name is spelled as a name, and a literal as a literal. -/
def Spelled (ty : TokenType) (t : String) : Prop :=
  (ty = .id → isIdentifier t = true) ∧ (ty = .stringLiteral → isStringLiteral t = true)

theorem stringBody_self : ∀ {cs b r : List Char}, stringBody cs = some (b, r) → stringBody b = some (b, []) := by
  intro cs
  fun_induction stringBody cs with
  | case1 | case3 | case4 | case6 => intro b r h; cases h
  | case2 cs =>
    intro b r h
    cases h
    rfl
  | case5 d ds hd _ _ ih =>
    intro b r h
    obtain ⟨⟨b', r'⟩, hb, he⟩ := Option.map_eq_some_iff.mp h
    cases he
    rw [stringBody.eq_def]
    simp [hd, ih hb]
  | case7 c cs h1 h2 h3 ih =>
    intro b r h
    obtain ⟨⟨b', r'⟩, hb, he⟩ := Option.map_eq_some_iff.mp h
    cases he
    rw [stringBody.eq_def]
    simp [h1, h2, h3, ih hb]

theorem symbolToken_type {cs v r : List Char} {ty : TokenType} (h : symbolToken cs = some (ty, v, r)) :
    ty ≠ .id ∧ ty ≠ .stringLiteral := by
  have hone : ∀ c, oneChar c ≠ some .id ∧ oneChar c ≠ some .stringLiteral := fun c => by
    unfold oneChar
    split <;> simp
  have htwo : ∀ c d, twoChars c d ≠ some .id ∧ twoChars c d ≠ some .stringLiteral := fun c d => by
    unfold twoChars
    split <;> simp
  have hmap : ∀ c (f : TokenType → TokenType × List Char × List Char), (∀ ty, (f ty).1 = ty) →
      (oneChar c).map f = some (ty, v, r) → ty ≠ .id ∧ ty ≠ .stringLiteral := by
    rintro c f hf hc
    obtain ⟨ty', hty', he⟩ := Option.map_eq_some_iff.mp hc
    have hty : ty' = ty := by rw [← hf ty', he]
    subst hty
    exact ⟨fun he => (hone c).1 (he ▸ hty'), fun he => (hone c).2 (he ▸ hty')⟩
  unfold symbolToken at h
  split at h
  · cases h
  · exact hmap _ _ (fun _ => rfl) h
  · rename_i c d cs
    split at h
    · rename_i ty' hty'
      cases h
      exact ⟨fun he => (htwo c d).1 (he ▸ hty'), fun he => (htwo c d).2 (he ▸ hty')⟩
    · exact hmap _ _ (fun _ => rfl) h

/-- A token is spelled as its type says. -/
theorem token_spelled {cs v r : List Char} {ty : TokenType} (h : token cs = some (ty, v, r)) :
    Spelled ty (String.ofList v) := by
  cases cs with
  | nil => cases h
  | cons c cs =>
    rw [token] at h
    split_ifs at h with h₁ h₂ h₃ h₄
    · cases h
      refine ⟨fun _ => ?_, nofun⟩
      rw [isIdentifier, String.toList_ofList]
      simp only [h₁, List.all_takeWhile, Bool.and_self]
    · cases h
      exact ⟨nofun, nofun⟩
    · cases h
      exact ⟨nofun, nofun⟩
    · obtain ⟨⟨b, r'⟩, hb, he⟩ := Option.map_eq_some_iff.mp h
      cases he
      refine ⟨nofun, fun _ => ?_⟩
      rw [isStringLiteral, String.toList_ofList]
      simp [stringBody_self hb, h₄]
    · obtain ⟨hid, hstring⟩ := symbolToken_type h
      exact ⟨fun hty => absurd hty hid, fun hty => absurd hty hstring⟩

theorem lexAll_spelled : ∀ (n : ℕ) (cs : List Char), ∀ t ∈ (lexAll n cs).tokens,
    Spelled t.type t.value
  | n, [], t, ht => by
    cases n <;> cases ht
  | 0, _ :: _, t, ht => by cases ht
  | n + 1, c :: cs, t, ht => by
    rw [lexAll] at ht
    split_ifs at ht
    · exact lexAll_spelled n cs t ht
    · split at ht
      · cases ht
      · rename_i ty v r htoken
        rcases List.mem_cons.mp ht with rfl | ht
        · exact token_spelled htoken
        · exact lexAll_spelled n r t ht

end SLexer
end Apisan
