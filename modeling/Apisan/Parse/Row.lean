/-
# Rows

A representation of a symbol puts no parentheses around a binary operator, so it
shows the symbol as a row: the operands and operators from left to right, each
`->`, `[..]` and call after the operand it is printed after. Where the names and
literals in it are ones, it shows the row and nothing else
(`Symbol.repr_eq_iff`).

The induction is on two rows at a time (`Row.text_inj`): the token rules of the
lexer tell from what is printed first which constructor it is.

Key definitions: `Row`, `Symbol.row`, `Row.text`, `Row.Proper`.
Key theorems: `Symbol.text_rowTo`, `Row.text_inj`, `Symbol.repr_eq_iff`.
-/
import Apisan.Parse.Spelling

namespace Apisan

mutual

/-- A symbol in the order in which it is printed: an operand and what follows
it. -/
inductive Row
  | int (n : ℤ) (t : Tail)
  | id (x : String) (t : Tail)
  | string (x : String) (t : Tail)
  | const (r : Row) (cs : List (ℤ × ℤ)) (t : Tail)

/-- What follows an operand. -/
inductive Tail
  | done
  | field (m : String) (t : Tail)
  | index (i : Row) (t : Tail)
  | call (args : Args) (t : Tail)
  | op (o : BinaryOp) (r : Row)

/-- The arguments of a call. -/
inductive Args
  | nil
  | cons (r : Row) (args : Args)

end

namespace Symbol

mutual

/-- The row of a symbol, and then what follows the symbol. -/
def rowTo : Symbol → Tail → Row
  | concreteInt n, k => .int n k
  | call name args, k => rowTo name (.call (rowArgs args) k)
  | stringLiteral x, k => .string x k
  | binaryOperator lhs o rhs, k => rowTo lhs (.op o (rowTo rhs k))
  | field base m, k => rowTo base (.field m k)
  | array base i, k => rowTo base (.index (rowTo i .done) k)
  | constraint s cs, k => .const (rowTo s .done) cs k
  | id x, k => .id x k

def rowArgs : List Symbol → Args
  | [] => .nil
  | s :: ss => .cons (rowTo s .done) (rowArgs ss)

end

/-- The row of a symbol. -/
def row (s : Symbol) : Row := s.rowTo .done

end Symbol

/-! ### The text of a row -/

/-- The texts after the first one of a list. -/
def moreText (texts : List String) : List Char := texts.flatMap fun t => ',' :: ' ' :: t.toList

/-- The text of a list. -/
def listText : List String → List Char
  | [] => ['[', ']']
  | t :: ts => '[' :: (t.toList ++ (moreText ts ++ [']']))

mutual

def Row.text : Row → List Char
  | .int n t => (toString n).toList ++ t.text
  | .id x t => x.toList ++ t.text
  | .string x t => '"' :: (x.toList ++ '"' :: t.text)
  | .const r cs t =>
    "Const".toList ++ '(' :: (r.text ++ ',' :: ' ' :: (listText (cs.map Symbol.pairText) ++ ')' :: t.text))

def Tail.text : Tail → List Char
  | .done => []
  | .field m t => '-' :: '>' :: (m.toList ++ t.text)
  | .index i t => '[' :: (i.text ++ ']' :: t.text)
  | .call args t => '(' :: '[' :: (args.text ++ ']' :: ')' :: t.text)
  | .op o r => ' ' :: (o.text.toList ++ ' ' :: r.text)

def Args.text : Args → List Char
  | .nil => []
  | .cons r args => r.text ++ args.more

/-- The arguments after the first. -/
def Args.more : Args → List Char
  | .nil => []
  | .cons r args => ',' :: ' ' :: (r.text ++ args.more)

end

theorem intercalate_toList : ∀ (t : String) (ts : List String),
    (String.intercalate ", " (t :: ts)).toList = t.toList ++ moreText ts
  | t, [] => by simp [moreText]
  | t, u :: ts => by
    have ih := intercalate_toList u ts
    simp only [String.toList_intercalate, List.map_cons] at ih ⊢
    rw [List.intercalate_cons_cons, ih]
    simp [moreText]

theorem bracket_toList (texts : List String) : (Symbol.bracket texts).toList = listText texts := by
  cases texts with
  | nil => rfl
  | cons t ts =>
    rw [Symbol.bracket, String.toList_append, String.toList_append, intercalate_toList, listText]
    simp

namespace Symbol

mutual

/-- **The representation of a symbol is the text of its row.** -/
theorem text_rowTo : ∀ (s : Symbol) (k : Tail), (s.rowTo k).text = s.repr.toList ++ k.text
  | concreteInt n, k => rfl
  | call name args, k => by
    rw [rowTo, text_rowTo name, Tail.text, Symbol.repr]
    simp [bracket_toList, listText_reprs args]
  | stringLiteral x, k => by
    rw [rowTo, Row.text, Symbol.repr]
    simp
  | binaryOperator lhs o rhs, k => by
    rw [rowTo, text_rowTo lhs, Tail.text, text_rowTo rhs, Symbol.repr]
    simp
  | field base m, k => by
    rw [rowTo, text_rowTo base, Tail.text, Symbol.repr]
    simp
  | array base i, k => by
    rw [rowTo, text_rowTo base, Tail.text, text_rowTo i, Tail.text, Symbol.repr]
    simp
  | constraint s cs, k => by
    rw [rowTo, Row.text, text_rowTo s, Tail.text, Symbol.repr]
    simp [bracket_toList]
  | id x, k => rfl

theorem listText_reprs : ∀ ss : List Symbol,
    listText (reprs ss) = '[' :: ((rowArgs ss).text ++ [']'])
  | [] => rfl
  | s :: ss => by
    rw [reprs, listText, rowArgs, Args.text, text_rowTo s, moreText_reprs ss]
    simp [Tail.text]

theorem moreText_reprs : ∀ ss : List Symbol, moreText (reprs ss) = (rowArgs ss).more
  | [] => rfl
  | s :: ss => by
    have ih := moreText_reprs ss
    rw [moreText] at ih
    rw [reprs, moreText, List.flatMap_cons, ih, rowArgs, Args.more, text_rowTo s]
    simp [Tail.text]

end

end Symbol

/-! ### Reading a row -/

open SLexer

mutual

/-- The names and literals in the row are ones. -/
def Row.Proper : Row → Prop
  | .int _ t => t.Proper
  | .id x t => isIdentifier x = true ∧ t.Proper
  | .string x t => isStringLiteral x = true ∧ t.Proper
  | .const r _ t => r.Proper ∧ t.Proper

def Tail.Proper : Tail → Prop
  | .done => True
  | .field m t => isIdentifier m = true ∧ t.Proper
  | .index i t => i.Proper ∧ t.Proper
  | .call args t => args.Proper ∧ t.Proper
  | .op _ r => r.Proper

def Args.Proper : Args → Prop
  | .nil => True
  | .cons r args => r.Proper ∧ args.Proper

end

/-- What follows a row: nothing, a comma or a bracket. -/
def Follows (x : List Char) : Prop := ∀ c ∈ x.head?, c = ',' ∨ c = ']'

theorem follows_nil : Follows [] := fun c hc => by cases hc

theorem follows_comma (x : List Char) : Follows (',' :: x) := fun c hc => by
  cases hc
  exact .inl rfl

theorem follows_bracket (x : List Char) : Follows (']' :: x) := fun c hc => by
  cases hc
  exact .inr rfl

/-- No name or number goes on after an operand. -/
theorem Tail.text_stop (t : Tail) {x : List Char} (hx : Follows x) :
    ∀ c ∈ (t.text ++ x).head?, identifierPart c = false := by
  intro c hc
  cases t with
  | done =>
    rcases hx c hc with rfl | rfl <;> rfl
  | _ =>
    cases hc
    rfl

/-- Two names that are read to their ends. -/
theorem identifier_inj {x y : String} (hx : isIdentifier x = true) (hy : isIdentifier y = true)
    {a b : List Char} (ha : ∀ c ∈ a.head?, identifierPart c = false)
    (hb : ∀ c ∈ b.head?, identifierPart c = false) (h : x.toList ++ a = y.toList ++ b) : x = y ∧ a = b := by
  have htoken := token_id ⟨x, hx⟩ ha
  rw [h, token_id ⟨y, hy⟩ hb] at htoken
  obtain ⟨-, hxy, hab⟩ : True ∧ y.toList = x.toList ∧ b = a := by simpa using htoken
  exact ⟨(String.toList_inj.mp hxy).symm, hab.symm⟩

theorem string_inj {x y : String} (hx : isStringLiteral x = true) (hy : isStringLiteral y = true)
    {a b : List Char} (h : x.toList ++ a = y.toList ++ b) : x = y ∧ a = b := by
  have htoken := token_string ⟨x, hx⟩ a
  rw [h, token_string ⟨y, hy⟩ b] at htoken
  obtain ⟨-, hxy, hab⟩ : True ∧ y.toList = x.toList ∧ b = a := by simpa using htoken
  exact ⟨(String.toList_inj.mp hxy).symm, hab.symm⟩

theorem stringLiteral_head {x : String} (hx : isStringLiteral x = true) : ∃ cs, x.toList = '"' :: cs := by
  unfold isStringLiteral at hx
  split at hx
  · cases hx
  · rename_i c cs hcs
    simp only [Bool.and_eq_true, beq_iff_eq] at hx
    exact ⟨cs, by rw [hcs, hx.1]⟩

theorem op_inj {o o' : BinaryOp} {a b : List Char}
    (h : o.text.toList ++ ' ' :: a = o'.text.toList ++ ' ' :: b) : o = o' ∧ a = b := by
  have hblank : ∀ (o : BinaryOp) (a : List Char), ∀ c ∈ (' ' :: a).head?, stops (Word.op o).type c = true :=
    fun o a c hc => by
      cases hc
      exact stops_ignored rfl _
  have htoken := token_word (.op o) (hblank o a)
  have htoken' := token_word (.op o') (hblank o' b)
  simp only [Word.text] at htoken htoken'
  rw [h, htoken'] at htoken
  obtain ⟨ho, -, hab⟩ : o' = o ∧ o'.text.toList = o.text.toList ∧ b = a := by
    simpa [Word.type] using htoken
  exact ⟨ho.symm, hab.symm⟩

theorem nat_inj {n m : ℕ} {a b : List Char} (ha : ∀ c ∈ a.head?, identifierPart c = false)
    (hb : ∀ c ∈ b.head?, identifierPart c = false)
    (h : Nat.toDigits 10 n ++ a = Nat.toDigits 10 m ++ b) : n = m ∧ a = b := by
  have htoken := token_int n ha
  rw [h, token_int m hb] at htoken
  obtain ⟨-, hnm, hab⟩ : True ∧ Nat.toDigits 10 m = Nat.toDigits 10 n ∧ b = a := by simpa using htoken
  have hint := Python.int_repr n
  rw [← hnm, Python.int_repr] at hint
  have hcast : (m : ℤ) = n := by simpa using hint
  exact ⟨by omega, hab.symm⟩

/-- An integer starts with a digit or with a minus before a digit. -/
theorem digits_head (n : ℕ) (a : List Char) : ∃ c cs, Nat.toDigits 10 n ++ a = c :: cs ∧ c.isDigit = true := by
  obtain ⟨c, cs, hcs⟩ := List.exists_cons_of_ne_nil (Nat.toDigits_ne_nil (n := n) (b := 10))
  have hall := digitChars_all n
  rw [hcs, List.all_cons, Bool.and_eq_true] at hall
  exact ⟨c, cs ++ a, by rw [hcs, List.cons_append], hall.1⟩

theorem toList_ofNat (n : ℕ) : (toString (Int.ofNat n)).toList = Nat.toDigits 10 n := String.toList_ofList

theorem toList_negSucc (n : ℕ) : (toString (Int.negSucc n)).toList = '-' :: Nat.toDigits 10 (n + 1) := by
  have hprint : toString (Int.negSucc n) = "-" ++ String.ofList (Nat.toDigits 10 (n + 1)) := rfl
  simp [hprint]

theorem int_inj {n m : ℤ} {a b : List Char} (ha : ∀ c ∈ a.head?, identifierPart c = false)
    (hb : ∀ c ∈ b.head?, identifierPart c = false)
    (h : (toString n).toList ++ a = (toString m).toList ++ b) : n = m ∧ a = b := by
  cases n with
  | ofNat n =>
    cases m with
    | ofNat m =>
      rw [toList_ofNat, toList_ofNat] at h
      obtain ⟨rfl, hab⟩ := nat_inj ha hb h
      exact ⟨rfl, hab⟩
    | negSucc m =>
      rw [toList_ofNat, toList_negSucc] at h
      obtain ⟨c, cs, hcs, hc⟩ := digits_head n a
      rw [hcs] at h
      cases h
      cases hc
  | negSucc n =>
    cases m with
    | ofNat m =>
      rw [toList_ofNat, toList_negSucc] at h
      obtain ⟨c, cs, hcs, hc⟩ := digits_head m b
      rw [hcs] at h
      cases h
      cases hc
    | negSucc m =>
      rw [toList_negSucc, toList_negSucc, List.cons_append, List.cons_append] at h
      obtain ⟨hnm, hab⟩ := nat_inj ha hb (List.cons.inj h).2
      obtain rfl : n = m := Nat.succ.inj hnm
      exact ⟨rfl, hab⟩

theorem pair_inj {p q : ℤ × ℤ} {a b : List Char}
    (h : (Symbol.pairText p).toList ++ a = (Symbol.pairText q).toList ++ b) : p = q ∧ a = b := by
  obtain ⟨p₁, p₂⟩ := p
  obtain ⟨q₁, q₂⟩ := q
  have hpair : ∀ (n m : ℤ) (a : List Char), (Symbol.pairText (n, m)).toList ++ a =
      '(' :: ((toString n).toList ++ ',' :: ' ' :: ((toString m).toList ++ ')' :: a)) := by
    intro n m a
    simp [Symbol.pairText]
  rw [hpair, hpair] at h
  have hcomma : ∀ x : List Char, ∀ c ∈ (',' :: x).head?, identifierPart c = false := fun x c hc => by
    cases hc
    rfl
  have hclose : ∀ x : List Char, ∀ c ∈ (')' :: x).head?, identifierPart c = false := fun x c hc => by
    cases hc
    rfl
  obtain ⟨rfl, hrest⟩ := int_inj (hcomma _) (hcomma _) (List.cons.inj h).2
  obtain ⟨rfl, hend⟩ := int_inj (hclose _) (hclose _) (List.cons.inj (List.cons.inj hrest).2).2
  exact ⟨rfl, (List.cons.inj hend).2⟩

theorem morePairs_inj : ∀ {cs cs' : List (ℤ × ℤ)} {a b : List Char},
    moreText (cs.map Symbol.pairText) ++ ']' :: a = moreText (cs'.map Symbol.pairText) ++ ']' :: b →
    cs = cs' ∧ a = b
  | [], [], _, _, h => ⟨rfl, (List.cons.inj h).2⟩
  | [], _ :: _, _, _, h => by cases h
  | _ :: _, [], _, _, h => by cases h
  | p :: cs, q :: cs', a, b, h => by
    have hmore : ∀ (p : ℤ × ℤ) (cs : List (ℤ × ℤ)) (a : List Char),
        moreText ((p :: cs).map Symbol.pairText) ++ ']' :: a =
          ',' :: ' ' :: ((Symbol.pairText p).toList ++ (moreText (cs.map Symbol.pairText) ++ ']' :: a)) := by
      intro p cs a
      simp [moreText]
    rw [hmore, hmore] at h
    obtain ⟨rfl, hrest⟩ := pair_inj (List.cons.inj (List.cons.inj h).2).2
    obtain ⟨rfl, hend⟩ := morePairs_inj hrest
    exact ⟨rfl, hend⟩

theorem pairs_inj {cs cs' : List (ℤ × ℤ)} {a b : List Char}
    (h : listText (cs.map Symbol.pairText) ++ a = listText (cs'.map Symbol.pairText) ++ b) :
    cs = cs' ∧ a = b := by
  have hlist : ∀ (p : ℤ × ℤ) (cs : List (ℤ × ℤ)) (a : List Char),
      listText ((p :: cs).map Symbol.pairText) ++ a =
        '[' :: ((Symbol.pairText p).toList ++ (moreText (cs.map Symbol.pairText) ++ ']' :: a)) := by
    intro p cs a
    simp [listText]
  have hopen : ∀ (p : ℤ × ℤ) (a : List Char), ∃ x, (Symbol.pairText p).toList ++ a = '(' :: x := by
    intro p a
    simp [Symbol.pairText]
  cases cs with
  | nil =>
    cases cs' with
    | nil => exact ⟨rfl, (List.cons.inj (List.cons.inj h).2).2⟩
    | cons q cs' =>
      obtain ⟨x, hx⟩ := hopen q (moreText (cs'.map Symbol.pairText) ++ ']' :: b)
      rw [hlist, hx] at h
      cases h
  | cons p cs =>
    cases cs' with
    | nil =>
      obtain ⟨x, hx⟩ := hopen p (moreText (cs.map Symbol.pairText) ++ ']' :: a)
      rw [hlist, hx] at h
      cases h
    | cons q cs' =>
      rw [hlist, hlist] at h
      obtain ⟨rfl, hrest⟩ := pair_inj (List.cons.inj h).2
      obtain ⟨rfl, hend⟩ := morePairs_inj hrest
      exact ⟨rfl, hend⟩

/-! ### Two rows with one text -/

/-- The type of the first token of a row's text. -/
def Row.first : Row → TokenType
  | .int n _ => if n < 0 then .op .minus else .intConstDec
  | .id _ _ | .const _ _ _ => .id
  | .string _ _ => .stringLiteral

theorem Row.token_text {r : Row} (hr : r.Proper) {x : List Char} (hx : Follows x) :
    ∃ v rest, token (r.text ++ x) = some (r.first, v, rest) := by
  cases r with
  | int n t =>
    rw [Row.text, List.append_assoc, Row.first]
    cases n with
    | ofNat n =>
      have hneg : ¬ Int.ofNat n < 0 := Int.not_lt.mpr (Int.natCast_nonneg n)
      rw [toList_ofNat, if_neg hneg]
      exact ⟨_, _, token_int n (t.text_stop hx)⟩
    | negSucc n =>
      obtain ⟨c, cs, hcs, hc⟩ := digits_head (n + 1) (t.text ++ x)
      rw [toList_negSucc, List.cons_append, hcs, if_pos (Int.negSucc_lt_zero n)]
      have hminus : oneChar '-' = some (.op .minus) := rfl
      refine ⟨_, _, token_one hminus fun d hd => ?_⟩
      obtain rfl : c = d := by simpa using hd
      rw [stops, bne_iff_ne]
      rintro rfl
      cases hc
  | id y t =>
    rw [Row.text, List.append_assoc]
    exact ⟨_, _, token_id ⟨y, hr.1⟩ (t.text_stop hx)⟩
  | string y t =>
    obtain ⟨cs, hcs⟩ := stringLiteral_head hr.1
    rw [Row.text, hcs]
    exact ⟨_, _, token_string ⟨"\"\"", by decide⟩ _⟩
  | const r cs t =>
    rw [Row.text, List.append_assoc]
    refine ⟨_, _, token_id ⟨"Const", rfl⟩ fun c hc => ?_⟩
    cases hc
    rfl

/-- A row's text starts with no bracket. -/
theorem Row.text_head {r : Row} (hr : r.Proper) {x : List Char} (hx : Follows x) {c : Char} {cs : List Char}
    (h : r.text ++ x = c :: cs) : c ≠ '[' ∧ c ≠ ']' := by
  obtain ⟨v, rest, htoken⟩ := r.token_text hr hx
  rw [h] at htoken
  have hfirst : ∀ ty, some (ty, v, rest) = some (r.first, v, rest) → ty ≠ .lbracket ∧ ty ≠ .rbracket := by
    rintro ty hty
    obtain rfl : ty = r.first := by simpa using hty
    cases r with
    | int n t =>
      rw [first]
      split_ifs <;> simp
    | _ => simp [first]
  refine ⟨?_, ?_⟩
  · rintro rfl
    have hopen : oneChar '[' = some .lbracket := rfl
    rw [token_one hopen fun _ _ => rfl] at htoken
    obtain ⟨hty, -⟩ := Prod.mk.inj (Option.some.inj htoken)
    exact (hfirst .lbracket (by rw [hty])).1 rfl
  · rintro rfl
    have hclose : oneChar ']' = some .rbracket := rfl
    rw [token_one hclose fun _ _ => rfl] at htoken
    obtain ⟨hty, -⟩ := Prod.mk.inj (Option.some.inj htoken)
    exact (hfirst .rbracket (by rw [hty])).2 rfl

theorem Args.more_follows (args : Args) (x : List Char) : Follows (args.more ++ ']' :: x) := by
  cases args with
  | nil => exact follows_bracket x
  | cons r args => exact follows_comma _

/-- What begins like something that goes on does not follow a row. -/
theorem Tail.not_follows {t : Tail} (ht : t ≠ .done) {x x' : List Char} (hx : Follows x) :
    x ≠ t.text ++ x' := by
  rintro rfl
  cases t with
  | done => exact ht rfl
  | _ => rcases hx _ rfl with h | h <;> cases h

/-- Rows whose texts agree begin with the same type of token. -/
theorem Row.first_eq {r r' : Row} (hr : r.Proper) (hr' : r'.Proper) {x x' : List Char} (hx : Follows x)
    (hx' : Follows x') (h : r.text ++ x = r'.text ++ x') : r.first = r'.first := by
  obtain ⟨v, rest, htoken⟩ := r.token_text hr hx
  obtain ⟨v', rest', htoken'⟩ := r'.token_text hr' hx'
  rw [h, htoken'] at htoken
  exact (Prod.mk.inj (Option.some.inj htoken)).1.symm

/-- `Const(` before a symbol is no call. -/
theorem Row.id_ne_const {y : String} {t t' : Tail} {r : Row} {cs : List (ℤ × ℤ)} {x x' : List Char}
    (hid : (Row.id y t).Proper) (hr : r.Proper) (hx : Follows x) :
    (Row.id y t).text ++ x ≠ (Row.const r cs t').text ++ x' := by
  intro h
  rw [Row.text, Row.text, List.append_assoc, List.append_assoc] at h
  have hparen : ∀ c ∈ ('(' :: (r.text ++ ',' :: ' ' :: (listText (cs.map Symbol.pairText) ++
      ')' :: t'.text)) ++ x').head?, identifierPart c = false := fun c hc => by
    cases hc
    rfl
  obtain ⟨-, hrest⟩ := identifier_inj hid.1 (y := "Const") rfl (t.text_stop hx) hparen h
  rw [List.cons_append, List.append_assoc, List.cons_append] at hrest
  cases t with
  | done => rcases hx '(' (by rw [← List.nil_append x, ← Tail.text, hrest]; rfl) with hc | hc <;> cases hc
  | call args t =>
    have hbracket := (List.cons.inj hrest).2
    exact (r.text_head hr (follows_comma _) hbracket.symm).1 rfl
  | _ => cases hrest

mutual

/-- **A row is read from its text**, whatever follows it. -/
theorem Row.text_inj : ∀ {r r' : Row} {x x' : List Char}, r.Proper → r'.Proper → Follows x → Follows x' →
    r.text ++ x = r'.text ++ x' → r = r' ∧ x = x'
  | .int n t, r', x, x', hr, hr', hx, hx', h => by
    have hfirst := Row.first_eq hr hr' hx hx' h
    cases r' with
    | int m t' =>
      rw [Row.text, Row.text, List.append_assoc, List.append_assoc] at h
      obtain ⟨rfl, hrest⟩ := int_inj (t.text_stop hx) (t'.text_stop hx') h
      obtain ⟨rfl, hend⟩ := Tail.text_inj hr hr' hx hx' hrest
      exact ⟨rfl, hend⟩
    | _ =>
      simp only [Row.first] at hfirst
      split_ifs at hfirst
  | .id y t, r', x, x', hr, hr', hx, hx', h => by
    have hfirst := Row.first_eq hr hr' hx hx' h
    cases r' with
    | int m t' =>
      simp only [Row.first] at hfirst
      split_ifs at hfirst
    | id z t' =>
      rw [Row.text, Row.text, List.append_assoc, List.append_assoc] at h
      obtain ⟨rfl, hrest⟩ := identifier_inj hr.1 hr'.1 (t.text_stop hx) (t'.text_stop hx') h
      obtain ⟨rfl, hend⟩ := Tail.text_inj hr.2 hr'.2 hx hx' hrest
      exact ⟨rfl, hend⟩
    | string z t' => cases hfirst
    | const r' cs' t' => exact absurd h (Row.id_ne_const hr hr'.1 hx)
  | .string y t, r', x, x', hr, hr', hx, hx', h => by
    have hfirst := Row.first_eq hr hr' hx hx' h
    cases r' with
    | int m t' =>
      simp only [Row.first] at hfirst
      split_ifs at hfirst
    | string z t' =>
      rw [Row.text, Row.text, List.cons_append, List.cons_append, List.append_assoc, List.append_assoc] at h
      obtain ⟨rfl, hrest⟩ := string_inj hr.1 hr'.1 (List.cons.inj h).2
      obtain ⟨rfl, hend⟩ := Tail.text_inj hr.2 hr'.2 hx hx' (List.cons.inj hrest).2
      exact ⟨rfl, hend⟩
    | _ => cases hfirst
  | .const r cs t, r', x, x', hr, hr', hx, hx', h => by
    have hfirst := Row.first_eq hr hr' hx hx' h
    cases r' with
    | int m t' =>
      simp only [Row.first] at hfirst
      split_ifs at hfirst
    | id z t' => exact absurd h.symm (Row.id_ne_const hr' hr.1 hx')
    | string z t' => cases hfirst
    | const r' cs' t' =>
      rw [Row.text, Row.text, List.append_assoc, List.append_assoc] at h
      have hopen := (List.cons.inj (List.append_cancel_left h)).2
      rw [List.append_eq, List.append_eq, List.append_assoc, List.append_assoc] at hopen
      obtain ⟨rfl, hcomma⟩ := Row.text_inj hr.1 hr'.1 (follows_comma _) (follows_comma _) hopen
      have hlist := (List.cons.inj (List.cons.inj hcomma).2).2
      rw [List.append_eq, List.append_eq, List.append_assoc, List.append_assoc] at hlist
      obtain ⟨rfl, hclose⟩ := pairs_inj hlist
      obtain ⟨rfl, hend⟩ := Tail.text_inj hr.2 hr'.2 hx hx' (List.cons.inj hclose).2
      exact ⟨rfl, hend⟩

theorem Tail.text_inj : ∀ {t t' : Tail} {x x' : List Char}, t.Proper → t'.Proper → Follows x → Follows x' →
    t.text ++ x = t'.text ++ x' → t = t' ∧ x = x'
  | .done, t', x, x', ht, ht', hx, hx', h => by
    cases t' with
    | done => exact ⟨rfl, h⟩
    | _ => exact absurd h (Tail.not_follows (by simp) hx)
  | .field m t, t', x, x', ht, ht', hx, hx', h => by
    cases t' with
    | done => exact absurd h.symm (Tail.not_follows (by simp) hx')
    | field m' t' =>
      have hname := (List.cons.inj (List.cons.inj h).2).2
      rw [List.append_eq, List.append_eq, List.append_assoc, List.append_assoc] at hname
      obtain ⟨rfl, hrest⟩ := identifier_inj ht.1 ht'.1 (t.text_stop hx) (t'.text_stop hx') hname
      obtain ⟨rfl, hend⟩ := Tail.text_inj ht.2 ht'.2 hx hx' hrest
      exact ⟨rfl, hend⟩
    | _ => cases h
  | .index i t, t', x, x', ht, ht', hx, hx', h => by
    cases t' with
    | done => exact absurd h.symm (Tail.not_follows (by simp) hx')
    | index i' t' =>
      have hindex := (List.cons.inj h).2
      rw [List.append_eq, List.append_eq, List.append_assoc, List.append_assoc] at hindex
      obtain ⟨rfl, hclose⟩ := Row.text_inj ht.1 ht'.1 (follows_bracket _) (follows_bracket _) hindex
      obtain ⟨rfl, hend⟩ := Tail.text_inj ht.2 ht'.2 hx hx' (List.cons.inj hclose).2
      exact ⟨rfl, hend⟩
    | _ => cases h
  | .call args t, t', x, x', ht, ht', hx, hx', h => by
    cases t' with
    | done => exact absurd h.symm (Tail.not_follows (by simp) hx')
    | call args' t' =>
      have hargs := (List.cons.inj (List.cons.inj h).2).2
      rw [List.append_eq, List.append_eq, List.append_assoc, List.append_assoc] at hargs
      obtain ⟨rfl, hclose⟩ := Args.text_inj ht.1 ht'.1 hargs
      obtain ⟨rfl, hend⟩ := Tail.text_inj ht.2 ht'.2 hx hx' (List.cons.inj hclose).2
      exact ⟨rfl, hend⟩
    | _ => cases h
  | .op o r, t', x, x', ht, ht', hx, hx', h => by
    cases t' with
    | done => exact absurd h.symm (Tail.not_follows (by simp) hx')
    | op o' r' =>
      have hop := (List.cons.inj h).2
      rw [List.append_eq, List.append_eq, List.append_assoc, List.append_assoc] at hop
      obtain ⟨rfl, hrest⟩ := op_inj hop
      obtain ⟨rfl, hend⟩ := Row.text_inj ht ht' hx hx' hrest
      exact ⟨rfl, hend⟩
    | _ => cases h

theorem Args.text_inj : ∀ {args args' : Args} {x x' : List Char}, args.Proper → args'.Proper →
    args.text ++ ']' :: x = args'.text ++ ']' :: x' → args = args' ∧ x = x'
  | .nil, args', x, x', _, hargs', h => by
    cases args' with
    | nil => exact ⟨rfl, (List.cons.inj h).2⟩
    | cons r' args' =>
      rw [Args.text, Args.text, List.append_assoc] at h
      exact absurd rfl (Row.text_head hargs'.1 (args'.more_follows x') h.symm).2
  | .cons r args, args', x, x', hargs, hargs', h => by
    rw [Args.text, List.append_assoc] at h
    cases args' with
    | nil => exact absurd rfl (Row.text_head hargs.1 (args.more_follows x) h).2
    | cons r' args' =>
      rw [Args.text, List.append_assoc] at h
      obtain ⟨rfl, hmore⟩ := Row.text_inj hargs.1 hargs'.1 (args.more_follows x) (args'.more_follows x') h
      obtain ⟨rfl, hend⟩ := Args.more_inj hargs.2 hargs'.2 hmore
      exact ⟨rfl, hend⟩

theorem Args.more_inj : ∀ {args args' : Args} {x x' : List Char}, args.Proper → args'.Proper →
    args.more ++ ']' :: x = args'.more ++ ']' :: x' → args = args' ∧ x = x'
  | .nil, args', x, x', _, hargs', h => by
    cases args' with
    | nil => exact ⟨rfl, (List.cons.inj h).2⟩
    | cons r' args' => cases h
  | .cons r args, args', x, x', hargs, hargs', h => by
    cases args' with
    | nil => cases h
    | cons r' args' =>
      have harg := (List.cons.inj (List.cons.inj h).2).2
      rw [List.append_eq, List.append_eq, List.append_assoc, List.append_assoc] at harg
      obtain ⟨rfl, hmore⟩ := Row.text_inj hargs.1 hargs'.1 (args.more_follows x) (args'.more_follows x') harg
      obtain ⟨rfl, hend⟩ := Args.more_inj hargs.2 hargs'.2 hmore
      exact ⟨rfl, hend⟩

end

namespace Symbol

/-! ### What a representation shows -/

theorem proper_rowTo : ∀ (s : Symbol) (k : Tail), (s.rowTo k).Proper ↔ s.row.Proper ∧ k.Proper
  | concreteInt n, k => by simp [row, rowTo, Row.Proper, Tail.Proper]
  | call name args, k => by
    rw [row, rowTo, rowTo, proper_rowTo name, proper_rowTo name]
    simp [Tail.Proper, and_assoc]
  | stringLiteral x, k => by simp [row, rowTo, Row.Proper, Tail.Proper]
  | binaryOperator lhs o rhs, k => by
    rw [row, rowTo, rowTo, proper_rowTo lhs, proper_rowTo lhs, Tail.Proper, Tail.Proper, proper_rowTo rhs,
      proper_rowTo rhs]
    simp [Tail.Proper, and_assoc]
  | field base m, k => by
    rw [row, rowTo, rowTo, proper_rowTo base, proper_rowTo base]
    simp [Tail.Proper, and_assoc]
  | array base i, k => by
    rw [row, rowTo, rowTo, proper_rowTo base, proper_rowTo base]
    simp [Tail.Proper, and_assoc]
  | constraint s cs, k => by simp [row, rowTo, Row.Proper, Tail.Proper]
  | id x, k => by simp [row, rowTo, Row.Proper, Tail.Proper]

theorem proper_rowArgs : ∀ ss ss' : List Symbol,
    (rowArgs (ss ++ ss')).Proper ↔ (rowArgs ss).Proper ∧ (rowArgs ss').Proper
  | [], ss' => by simp [rowArgs, Args.Proper]
  | s :: ss, ss' => by
    rw [List.cons_append, rowArgs, rowArgs, Args.Proper, Args.Proper, proper_rowArgs ss, and_assoc]

@[simp] theorem proper_binary (l r : Symbol) (o : BinaryOp) :
    (binaryOperator l o r).row.Proper ↔ l.row.Proper ∧ r.row.Proper := by
  rw [row, rowTo, proper_rowTo, Tail.Proper]
  rfl

@[simp] theorem proper_field (base : Symbol) (m : String) :
    (field base m).row.Proper ↔ base.row.Proper ∧ isIdentifier m = true := by
  rw [row, rowTo, proper_rowTo]
  simp [Tail.Proper]

@[simp] theorem proper_array (base i : Symbol) :
    (array base i).row.Proper ↔ base.row.Proper ∧ i.row.Proper := by
  rw [row, rowTo, proper_rowTo]
  simp [Tail.Proper, row]

@[simp] theorem proper_call (name : Symbol) (args : List Symbol) :
    (call name args).row.Proper ↔ name.row.Proper ∧ (rowArgs args).Proper := by
  rw [row, rowTo, proper_rowTo]
  simp [Tail.Proper]

@[simp] theorem proper_constraint (s : Symbol) (cs : List (ℤ × ℤ)) :
    (constraint s cs).row.Proper ↔ s.row.Proper := by
  simp [row, rowTo, Row.Proper, Tail.Proper]

/-- **A representation shows the row** and nothing else. -/
theorem repr_eq_iff {s s' : Symbol} (h : s.row.Proper) (h' : s'.row.Proper) :
    s.repr = s'.repr ↔ s.row = s'.row := by
  have hs := text_rowTo s .done
  have hs' := text_rowTo s' .done
  rw [Tail.text, List.append_nil] at hs hs'
  refine ⟨fun hrepr => ?_, fun hrow => ?_⟩
  · have htext : s.row.text ++ [] = s'.row.text ++ [] := by
      rw [row, row, hs, hs', hrepr]
    exact (Row.text_inj h h' follows_nil follows_nil htext).1
  · rw [row, row] at hrow
    rw [hrow, hs'] at hs
    exact (String.toList_inj.mp hs).symm

end Symbol

end Apisan
