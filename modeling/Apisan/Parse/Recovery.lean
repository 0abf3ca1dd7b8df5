/-
# What the parser does with a text outside its grammar

`p_error` returns nothing, so PLY drops the stack and the token of an error and
starts over: the parser cuts a text after each token that no sentence goes on
with, and returns the symbol of what is left, if that is a sentence (`reading`).

A text outside the grammar is turned down exactly if what is left after the last
cut is no sentence and no action raises on the way (`Quiet`): only `int` can raise,
on an integer with a suffix.

Key definitions: `SParser.Fits`, `SParser.Plain`, `SParser.Quiet`,
`SParser.Reading`.
Key theorems: `SParser.act_error`, `SParser.converted`, `SParser.reading`,
`SParser.parse_exact_iff`.
-/
import Apisan.Parse.Complete

namespace Apisan
namespace SParser

open ShiftReduce Machine ContextFree

/-! ### What the actions return -/

/-- The value of a token is its text. -/
def IsText (_ : TokenType) (v : Val) : Prop := ∃ t, v = .text t

/-- The kind of a nonterminal's value. -/
def Fits : Nonterminal → Val → Prop
  | .concreteIntegerExpression, v => ∃ n, v = .int n
  | .argumentList, v => ∃ ss, v = .args ss
  | .constraint, v => ∃ c, v = .constraint c
  | .constraintList, v => ∃ cs, v = .constraints cs
  | _, v => ∃ s, v = .symbol s

/-- The productions whose action calls `int`. -/
def Production.converts : Production → Bool
  | .concreteIntegerPos | .concreteIntegerNeg => true
  | _ => false

/-- A text that `int` takes. -/
def IsInt (v : Val) : Prop := ∃ t n, v = .text t ∧ Python.int t = .ok n

/-- The values of a right side are of their kinds. -/
abbrev Args (p : Production) (vs : List Val) : Prop :=
  ∃ u, Pieces (Typed productions IsText Fits) (productions.rhs p) vs u

/-- The actions but the two of an integer always return. -/
theorem act_total {p : Production} {vs : List Val} (hp : p.converts = false) (h : Args p vs) :
    ∃ v, act p vs = .ok v ∧ Fits p.lhs v := by
  obtain ⟨u, h⟩ := h
  cases p
  case concreteIntegerPos | concreteIntegerNeg => cases hp
  all_goals
    iterate 6 try rcases h with _ | ⟨⟨⟨_, rfl⟩, -⟩, h⟩
    exact ⟨_, rfl, _, rfl⟩

theorem converts_iff {p : Production} :
    p.converts = true ↔ p = .concreteIntegerPos ∨ p = .concreteIntegerNeg := by
  cases p <;> simp [Production.converts]

/-- The actions of an integer are `int` of their last token. -/
theorem act_converts {p : Production} {vs : List Val} (hp : p.converts = true) (h : Args p vs) :
    ∃ ws t, ∃ f : ℤ → ℤ, vs = ws ++ [.text t] ∧ act p vs = (Python.int t).map fun n => .int (f n) := by
  obtain ⟨u, h⟩ := h
  rcases converts_iff.mp hp with rfl | rfl
  · rcases h with _ | ⟨⟨⟨t, rfl⟩, -⟩, _ | _⟩
    exact ⟨[], t, id, rfl, rfl⟩
  · rcases h with _ | ⟨⟨⟨m, rfl⟩, -⟩, _ | ⟨⟨⟨t, rfl⟩, -⟩, _ | _⟩⟩
    exact ⟨[.text m], t, fun n => -n, rfl, rfl⟩

/-- **What raises**: `int`, on a token's text. -/
theorem act_error {p : Production} {vs : List Val} {e : Python.Error} (h : Args p vs)
    (he : act p vs = .error e) :
    p.converts = true ∧ ∃ ws t, vs = ws ++ [.text t] ∧ Python.int t = .error e := by
  cases hp : p.converts with
  | false =>
    obtain ⟨v, hv, -⟩ := act_total hp h
    rw [hv] at he
    cases he
  | true =>
    obtain ⟨ws, t, f, hvs, hact⟩ := act_converts hp h
    refine ⟨rfl, ws, t, hvs, ?_⟩
    rw [hact] at he
    cases hint : Python.int t with
    | ok n =>
      rw [hint] at he
      cases he
    | error e' =>
      rw [hint] at he
      cases he
      rfl

/-- An action of an integer that returns had a text that `int` takes. -/
theorem act_int {p : Production} {vs : List Val} {v : Val} (hp : p.converts = true) (h : Args p vs)
    (hv : act p vs = .ok v) : ∃ ws t n m, vs = ws ++ [.text t] ∧ Python.int t = .ok n ∧ v = .int m := by
  obtain ⟨ws, t, f, hvs, hact⟩ := act_converts hp h
  rw [hact] at hv
  cases hint : Python.int t with
  | ok n =>
    rw [hint] at hv
    cases hv
    exact ⟨ws, t, n, f n, hvs, hint, rfl⟩
  | error e =>
    rw [hint] at hv
    cases hv

/-- The actions return values of their kinds. -/
theorem act_fits {p : Production} {vs : List Val} {v : Val} (h : Args p vs) (hv : act p vs = .ok v) :
    Fits p.lhs v := by
  cases hp : p.converts with
  | false =>
    obtain ⟨v', hv', hfits⟩ := act_total hp h
    rw [hv'] at hv
    cases hv
    exact hfits
  | true =>
    obtain ⟨_, _, _, m, -, -, rfl⟩ := act_int hp h hv
    rcases converts_iff.mp hp with rfl | rfl <;> exact ⟨m, rfl⟩

/-- The values on the stack stand for what has been read. -/
theorem meaning : Meaning productions act (fun x => IsText x.1 x.2) (Typed productions IsText Fits) :=
  .typed (fun _ _ h => h) fun _ _ _ _ hvs hv => act_fits ⟨_, hvs⟩ hv

/-! ### Integers that are not converted yet -/

/-- An integer's token has been read last. -/
def State.unconverted : State → Bool
  | intConst | negConst => true
  | _ => false

/-- An unconverted integer is shifted and then reduced, on what may follow it. -/
theorem unconverted_checked : ∀ s : State,
    (∀ n : Nonterminal, (goto s n).all (fun g => !g.unconverted) = true) ∧
      (∀ t : TokenType, (action s (some t)).target.all (fun g =>
        decide (g.unconverted = decide (t = .intConstDec)) && !s.unconverted) = true) ∧
        ∀ la : Option TokenType, (action s la).production.all (fun p => decide (p.converts = s.unconverted)) = true ∧
          (s.unconverted = true → (action s la).production.isSome = followPostfix la) := by
  decide +kernel

theorem goto_unconverted {s g : State} {n : Nonterminal} (h : goto s n = some g) : g.unconverted = false := by
  have hg := (unconverted_checked s).1 n
  rw [h, Option.all_some, Bool.not_eq_true'] at hg
  exact hg

theorem shift_unconverted {s g : State} {t : TokenType} (h : action s (some t) = .shift g) :
    g.unconverted = decide (t = .intConstDec) ∧ s.unconverted = false := by
  have hg := Action.target_all ((unconverted_checked s).2.1 t) h
  rw [Bool.and_eq_true, decide_eq_true_eq, Bool.not_eq_true'] at hg
  exact hg

theorem reduce_unconverted {s : State} {la : Option TokenType} {p : Production}
    (h : action s la = .reduce p) : p.converts = s.unconverted := by
  have hp := Action.production_all ((unconverted_checked s).2.2 la).1 h
  exact of_decide_eq_true hp

theorem action_unconverted {s : State} (la : Option TokenType) (hs : s.unconverted = true) :
    (action s la).production.isSome = followPostfix la :=
  ((unconverted_checked s).2.2 la).2 hs

abbrev Clear := CleanReach tables act (none : Option Python.Error)

/-- The stack of the parser spells what it has read. -/
abbrev Read (st : List (State × Val)) (w : List TokenType) : Prop :=
  Spells tables (Typed productions IsText Fits) st w

theorem isText_symbols (ts : List LexToken) : ∀ x ∈ symbols ts, IsText x.1 x.2 := by
  intro x hx
  obtain ⟨t, -, rfl⟩ := List.mem_map.mp hx
  exact ⟨t.value, rfl⟩

theorem symbols_injective : Function.Injective symbols := by
  refine List.map_injective_iff.mpr ?_
  rintro ⟨t, v⟩ ⟨t', v'⟩ h
  cases h
  rfl

theorem read_of_clear {ts : List LexToken} {c : ShiftReduce.Config State TokenType Val}
    (h : Clear ⟨[], symbols ts⟩ c) : ∃ seg rest, ts = seg ++ rest ∧ c.input = symbols rest ∧
      Read c.stack (types seg) := by
  obtain ⟨u, hu, hread⟩ := Spells.reach items meaning h (isText_symbols ts)
  obtain ⟨seg, rest, rfl, hseg, hrest⟩ := List.map_eq_append_iff.mp hu
  refine ⟨seg, rest, rfl, hrest.symm, ?_⟩
  rw [← hseg, List.map_map] at hread
  exact hread

/-- What a reduction replaces are the values of a right side. -/
theorem args_of_clear {inp : List (TokenType × Val)} (hin : ∀ x ∈ inp, IsText x.1 x.2)
    {c : ShiftReduce.Config State TokenType Val} (hc : Clear ⟨[], inp⟩ c) {p : Production} {fr st : Stack}
    (hfr : c.stack = fr ++ st) (hlen : fr.length = p.rhs.length)
    (hact : action (top tables c.stack) (la c.input) = .reduce p) : Args p (fr.map Prod.snd).reverse := by
  obtain ⟨_, -, hread⟩ := Spells.reach items meaning hc hin
  obtain ⟨fr', st', _, u, _, hfr', hlen', -, -, hpieces, -⟩ := hread.reduce items hact
  obtain ⟨rfl, rfl⟩ : fr = fr' ∧ st = st' := List.append_inj (hfr.symm.trans hfr') (hlen.trans hlen'.symm)
  exact ⟨u, hpieces⟩

/-- What `int` is called on is the token read last. -/
theorem last_of_converts {inp : List (TokenType × Val)} {c : ShiftReduce.Config State TokenType Val}
    (hc : Clear ⟨[], inp⟩ c) {p : Production} {fr st : Stack} (hfr : c.stack = fr ++ st)
    (hact : action (top tables c.stack) (la c.input) = .reduce p) (hp : p.converts = true)
    {ws : List Val} {v : Val} (hvs : (fr.map Prod.snd).reverse = ws ++ [v]) :
    ∃ a, inp = a ++ (.intConstDec, v) :: c.input := by
  cases fr with
  | nil => simp at hvs
  | cons y fr =>
    obtain ⟨s, v'⟩ := y
    rw [List.map_cons, List.reverse_cons] at hvs
    obtain ⟨-, rfl⟩ : _ ∧ v' = v := List.append_singleton_inj.mp hvs
    have hs : s.unconverted = true := by
      rw [hfr] at hact
      exact (reduce_unconverted hact).symm.trans hp
    have hgoto : ∀ s' n, tables.goto s' n ≠ some s := by
      intro s' n h
      rw [goto_unconverted h] at hs
      cases hs
    obtain ⟨a, t, ha, hshift⟩ := top_token hc hgoto hfr
    obtain rfl : t = .intConstDec := of_decide_eq_true ((shift_unconverted hshift).1.symm.trans hs)
    exact ⟨a, ha⟩

/-- All integers read are converted, but for one read last. -/
def Converted (u : List (TokenType × Val)) (s : State) : Prop :=
  ∀ a x b, u = a ++ x :: b → x.1 = .intConstDec → IsInt x.2 ∨ (b = [] ∧ s.unconverted = true)

theorem converted {inp : List (TokenType × Val)} (hin : ∀ x ∈ inp, IsText x.1 x.2)
    {c : ShiftReduce.Config State TokenType Val} (h : Clear ⟨[], inp⟩ c) :
    ∃ u, inp = u ++ c.input ∧ Converted u (top tables c.stack) := by
  induction h with
  | refl => exact ⟨[], rfl, fun a x b hu => by simp at hu⟩
  | @tail c d hc hn ih =>
    obtain ⟨u, hu, hconv⟩ := ih
    obtain ⟨hn, hclean⟩ := hn
    rcases next_cases hn with ⟨s, t, v, inp', hinp, hact, rfl⟩ |
      ⟨p, s, v, fr, st, hfr, hlen, hact, hsem, hgoto, rfl⟩ | ⟨t, v, inp', hinp, hact, rfl⟩
    · -- the token read is the last one now, and what was read last has been converted
      have hshift := shift_unconverted hact
      rw [hinp] at hu
      refine ⟨u ++ [(t, v)], by rw [hu, List.append_assoc]; rfl, fun a x b hx hint => ?_⟩
      rcases List.eq_nil_or_concat b with rfl | ⟨b, y, rfl⟩
      · obtain ⟨rfl, rfl⟩ := List.append_singleton_inj.mp hx
        exact .inr ⟨rfl, by rw [top_cons, hshift.1]; exact decide_eq_true hint⟩
      · rw [List.concat_eq_append, ← List.cons_append, ← List.append_assoc] at hx
        obtain ⟨rfl, -⟩ := List.append_singleton_inj.mp hx
        rcases hconv a x b rfl hint with hok | ⟨-, hs⟩
        · exact .inl hok
        · rw [hshift.2] at hs
          cases hs
    · -- the action of an integer has returned
      refine ⟨u, hu, fun a x b hx hint => ?_⟩
      rcases hconv a x b hx hint with hok | ⟨rfl, hs⟩
      · exact .inl hok
      · have hreduce := (reduce_unconverted hact).trans hs
        obtain ⟨ws, y, n, -, hvs, hok, -⟩ := act_int hreduce (args_of_clear hin hc hfr hlen hact) hsem
        obtain ⟨a', ha'⟩ := last_of_converts hc hfr hact hreduce hvs
        have hsame : a ++ [x] = a' ++ [(.intConstDec, .text y)] := by
          have happend : (a ++ [x]) ++ c.input = (a' ++ [(.intConstDec, .text y)]) ++ c.input := by
            rw [← hx, ← hu, ha', List.append_assoc]
            rfl
          exact List.append_cancel_right happend
        obtain ⟨-, rfl⟩ := List.append_singleton_inj.mp hsame
        exact .inl ⟨y, n, rfl, hok⟩
    · rw [hinp] at hclean
      exact absurd hact hclean

/-! ### Up to the first error -/

/-- The type of the first of the tokens, or what comes after them. -/
def nextType (ts : List LexToken) (la : Option TokenType) : Option TokenType :=
  (ts.head?.map LexToken.type).or la

/-- `int` takes every integer of the tokens that something follows that may follow
an operand. -/
def Plain (ts : List LexToken) (la : Option TokenType) : Prop :=
  ∀ a t b, ts = a ++ t :: b → t.type = .intConstDec → followPostfix (nextType b la) = true →
    ∃ n, Python.int t.value = .ok n

/-- **What the parser turns down.** Cut after each token that no sentence goes on
with, the text leaves no sentence, and `int` takes every integer it meets. -/
inductive Quiet : List LexToken → Prop
  | last {ts : List LexToken} : Viable ts → ¬ Sentence ts → Plain ts none → Quiet ts
  | cut {ts : List LexToken} {t : LexToken} {rest : List LexToken} : Viable ts → ¬ Viable (ts ++ [t]) →
    Plain ts (some t.type) → Quiet rest → Quiet (ts ++ t :: rest)

/-- How the parse of a text that lexes to its end ends. -/
def ends (ts : List LexToken) : Outcome Python.Error Val :=
  ShiftReduce.parse act (none : Option Python.Error) rank (symbols ts)

/-- What the parser does up to the first error. -/
inductive Reading (ts : List LexToken) : Prop
  | sentence (s : Symbol) : Sentence ts → ends ts = .value (some (.symbol s)) → Reading ts
  | fragment : Viable ts → ¬ Sentence ts → Plain ts none → ends ts = .value none → Reading ts
  | cut (seg : List LexToken) (t : LexToken) (rest : List LexToken) : ts = seg ++ t :: rest → Viable seg →
    ¬ Viable (seg ++ [t]) → Plain seg (some t.type) → ends ts = ends rest → Reading ts
  | raised (seg : List LexToken) (t : LexToken) (rest : List LexToken) (e : Python.Error) :
    ts = seg ++ t :: rest → Viable (seg ++ [t]) → t.type = .intConstDec →
    followPostfix (nextType rest none) = true → Python.int t.value = .error e → ends ts = .raised e → Reading ts

theorem types_append (a b : List LexToken) : types (a ++ b) = types a ++ types b := List.map_append

theorem sentence_iff {ts : List LexToken} : Sentence ts ↔ Yields productions [.nonterminal .expression] (types ts) :=
  Productions.mem_language

/-- What has been read without an error is the beginning of a sentence. -/
theorem viable_of_read {st : List (State × Val)} {seg : List LexToken} (h : Read st (types seg)) : Viable seg := by
  obtain ⟨w, hw⟩ := h.completes closing fun _ _ _ hx => hx.yields
  exact ⟨w, Productions.mem_language.mpr hw⟩

theorem la_symbols (ts : List LexToken) : la (symbols ts) = nextType ts none := by
  cases ts <;> rfl

/-- Where the parser neither reads nor reduces, all integers have been converted. -/
theorem plain_of_clear {ts seg rest : List LexToken} {st : List (State × Val)} (hts : ts = seg ++ rest)
    (h : Clear ⟨[], symbols ts⟩ ⟨st, symbols rest⟩)
    (hact : (action (top tables st) (nextType rest none)).production = none) : Plain seg (nextType rest none) := by
  obtain ⟨u, hu, hconv⟩ := converted (isText_symbols ts) h
  obtain rfl : symbols seg = u := by
    rw [hts, symbols, List.map_append] at hu
    exact List.append_cancel_right hu
  rintro a t b rfl hint hfollow
  have hsplit : symbols (a ++ t :: b) = symbols a ++ (t.type, .text t.value) :: symbols b := by
    simp [symbols]
  rcases hconv _ _ _ hsplit hint with ⟨x, n, hx, hn⟩ | ⟨hb, hs⟩
  · cases hx
    exact ⟨n, hn⟩
  · obtain rfl : b = [] := List.map_eq_nil_iff.mp hb
    have hsome := action_unconverted (nextType rest none) hs
    rw [hact] at hsome
    rw [show followPostfix (nextType rest none) = true from hfollow] at hsome
    cases hsome

/-- Where the parser accepts, a sentence has been read, and its symbol is all there is
on the stack. -/
theorem sentence_of_accept {ts rest : List LexToken} {st : Stack}
    (h : Clear ⟨[], symbols ts⟩ ⟨st, symbols rest⟩)
    (hact : action (top tables st) (la (symbols rest)) = .accept) :
    rest = [] ∧ Sentence ts ∧ ∃ s, st = [(.done, .symbol s)] := by
  obtain ⟨htop, hla⟩ := action_accept _ _ hact
  obtain rfl : rest = [] := by simpa [la, symbols] using hla
  obtain ⟨seg, rest', hts, hinp, hread⟩ := read_of_clear h
  obtain rfl : rest' = [] := List.map_eq_nil_iff.mp hinp.symm
  obtain rfl : ts = seg := hts.trans (List.append_nil seg)
  cases st with
  | nil => cases htop
  | cons x st =>
    obtain ⟨s, v⟩ := x
    obtain rfl : s = .done := htop
    obtain ⟨rfl, ⟨s, rfl⟩, hyields⟩ := closing.final_stack hread
    exact ⟨rfl, sentence_iff.mpr hyields, s, rfl⟩

/-- At an error at the end, no sentence has been read. -/
theorem not_sentence_of_clear {ts : List LexToken} {st : Stack} (h : Clear ⟨[], symbols ts⟩ ⟨st, []⟩)
    (herror : action (top tables st) none = .error) : ¬ Sentence ts := by
  have hsentence := not_sentence_of_error complete h herror
  rw [symbols, List.map_map] at hsentence
  exact fun hs => hsentence (sentence_iff.mp hs)

/-- At an error before a token, no sentence goes on with the token. -/
theorem not_viable_of_clear {seg rest : List LexToken} {t : LexToken} {st : Stack}
    (h : Clear ⟨[], symbols (seg ++ t :: rest)⟩ ⟨st, symbols (t :: rest)⟩)
    (herror : action (top tables st) (some t.type) = .error) : ¬ Viable (seg ++ [t]) := by
  have hsplit : symbols (seg ++ t :: rest) = symbols seg ++ (t.type, .text t.value) :: symbols rest := by
    simp [symbols]
  rintro ⟨w, hw⟩
  refine not_viable_of_error complete h hsplit herror w ?_
  have hyields := Productions.mem_language.mp hw
  rw [types_append, List.append_assoc] at hyields
  rw [symbols, List.map_map]
  exact hyields

/-- What raises is `int`, on the integer read last. -/
theorem token_of_raised {ts rest : List LexToken} {st : Stack} {e : Python.Error}
    (h : Clear ⟨[], symbols ts⟩ ⟨st, symbols rest⟩)
    (hraise : step tables act (none : Option Python.Error) ⟨st, symbols rest⟩ = .inr (.raised e)) :
    ∃ seg t, ts = seg ++ t :: rest ∧ t.type = .intConstDec ∧ followPostfix (nextType rest none) = true ∧
      Python.int t.value = .error e := by
  obtain ⟨p, fr, st', hfr, hlen, hact, hsem⟩ := halt_raised hraise
  obtain ⟨hp, ws, y, hvs, hint⟩ := act_error (args_of_clear (isText_symbols ts) h hfr hlen hact) hsem
  obtain ⟨a, ha⟩ := last_of_converts h hfr hact hp hvs
  have hfollow := action_unconverted (la (symbols rest)) ((reduce_unconverted hact).symm.trans hp)
  rw [show action (top tables st) (la (symbols rest)) = .reduce p from hact, la_symbols] at hfollow
  obtain ⟨seg, last, rfl, -, hlast⟩ := List.map_eq_append_iff.mp ha
  obtain ⟨t, rest', rfl, ht, hrest⟩ := List.map_eq_cons_iff.mp hlast
  obtain ⟨htype, hvalue⟩ := Prod.mk.inj ht
  obtain rfl := symbols_injective hrest
  cases hvalue
  exact ⟨seg, t, rfl, htype, hfollow.symm, hint⟩

/-- A run without an error ends at an error, where the parser accepts, or where an
action raises. -/
theorem clear_finish (ts : List LexToken) : ∃ seg rest st, ts = seg ++ rest ∧ Viable seg ∧
    Clear ⟨[], symbols ts⟩ ⟨st, symbols rest⟩ ∧
      (action (top tables st) (la (symbols rest)) = .error ∨ action (top tables st) (la (symbols rest)) = .accept ∨
        ∃ e, step tables act (none : Option Python.Error) ⟨st, symbols rest⟩ = .inr (.raised e)) := by
  have hnil : Read [] [] := .nil
  obtain ⟨⟨st, inp⟩, hclear, hend⟩ : ∃ d, Clear ⟨[], symbols ts⟩ d ∧ _ :=
    Spells.finish items rank meaning _ (Nat.lt_succ_self _) hnil (isText_symbols ts)
  obtain ⟨seg, rest, hts, hinp, hread⟩ := read_of_clear hclear
  obtain rfl : inp = symbols rest := hinp
  exact ⟨seg, rest, st, hts, viable_of_read hread, hclear, hend⟩

/-- **What the parser does up to the first error.** -/
theorem reading (ts : List LexToken) : Reading ts := by
  obtain ⟨seg, rest, st, hts, hviable, hclear, herror | haccept | ⟨e, hraise⟩⟩ := clear_finish ts
  · have hplain : Plain seg (nextType rest none) :=
      plain_of_clear hts hclear (by rw [← la_symbols, herror]; rfl)
    cases rest with
    | nil =>
      obtain rfl : ts = seg := hts.trans (List.append_nil seg)
      exact .fragment hviable (not_sentence_of_clear hclear herror) hplain
        (ShiftReduce.parse_of_reach rank hclear.reach (halt_error herror))
    | cons t rest =>
      subst hts
      exact .cut seg t rest rfl hviable (not_viable_of_clear hclear herror) hplain
        (parse_drop rank hclear.reach herror)
  · obtain ⟨rfl, hs, s, rfl⟩ := sentence_of_accept hclear haccept
    exact .sentence s hs (ShiftReduce.parse_of_reach rank hclear.reach (halt_accept haccept))
  · obtain ⟨seg', t, hts', htype, hfollow, hint⟩ := token_of_raised hclear hraise
    have hseg : seg = seg' ++ [t] := by
      rw [hts, List.append_cons] at hts'
      exact List.append_cancel_right hts'
    exact .raised seg' t rest e hts' (hseg ▸ hviable) htype hfollow hint
      (ShiftReduce.parse_of_reach rank hclear.reach hraise)

/-! ### Texts outside the grammar -/

theorem Viable.of_append {a b : List LexToken} (h : Viable (a ++ b)) : Viable a := by
  obtain ⟨w, hw⟩ := h
  rw [types_append, List.append_assoc] at hw
  exact ⟨_, hw⟩

theorem Sentence.viable {ts : List LexToken} (h : Sentence ts) : Viable ts :=
  ⟨[], by rw [List.append_nil]; exact h⟩

/-- What can be gone on with ends before the first token that cannot. -/
theorem prefix_of_viable {a x b y : List LexToken} {t : LexToken} (h : a ++ x = b ++ t :: y) (ha : Viable a)
    (hb : ¬ Viable (b ++ [t])) : a <+: b := by
  have hax : a <+: b ++ t :: y := ⟨x, h⟩
  have hbt : b ++ [t] <+: b ++ t :: y := ⟨y, by rw [List.append_assoc]; rfl⟩
  rcases List.prefix_or_prefix_of_prefix hax hbt with hle | ⟨c, rfl⟩
  · rcases List.prefix_concat_iff.mp hle with rfl | hle
    · exact absurd ha hb
    · exact hle
  · exact absurd ha.of_append hb

/-- A text is cut at one place first. -/
theorem cut_unique {a x b y : List LexToken} {t u : LexToken} (h : a ++ t :: x = b ++ u :: y) (ha : Viable a)
    (hat : ¬ Viable (a ++ [t])) (hb : Viable b) (hbu : ¬ Viable (b ++ [u])) : x = y := by
  have hab := prefix_of_viable h ha hbu
  have hba := prefix_of_viable h.symm hb hat
  obtain rfl : a = b := hab.eq_of_length (Nat.le_antisymm hab.length_le hba.length_le)
  exact (List.cons.inj (List.append_cancel_left h)).2

/-- An integer that `int` does not take, before the first cut, is met. -/
theorem not_quiet_of_raised {seg rest : List LexToken} {t : LexToken} {e : Python.Error} (hviable : Viable (seg ++ [t]))
    (htype : t.type = .intConstDec) (hfollow : followPostfix (nextType rest none) = true)
    (hint : Python.int t.value = .error e) : ¬ Quiet (seg ++ t :: rest) := by
  generalize hts : seg ++ t :: rest = ts
  intro hquiet
  cases hquiet with
  | last _ _ hplain =>
    obtain ⟨n, hn⟩ := hplain seg t rest hts.symm htype hfollow
    rw [hint] at hn
    cases hn
  | @cut ts u rest' _ hcut hplain _ =>
    have hts' : (seg ++ [t]) ++ rest = ts ++ u :: rest' := by
      rw [List.append_assoc]
      exact hts
    obtain ⟨c, rfl⟩ := prefix_of_viable hts' hviable hcut
    have hrest : rest = c ++ u :: rest' := by
      rw [List.append_assoc (seg ++ [t])] at hts'
      exact List.append_cancel_left hts'
    have hnext : nextType rest none = nextType c (some u.type) := by
      rw [hrest]
      cases c <;> rfl
    obtain ⟨n, hn⟩ := hplain seg t c (by rw [List.append_assoc]; rfl) htype (hnext ▸ hfollow)
    rw [hint] at hn
    cases hn

/-- **What the parser turns down**, token by token. -/
theorem result_none_iff : ∀ (n : ℕ) {ts : List LexToken}, ts.length < n →
    (result (ends ts) = .ok none ↔ Quiet ts)
  | 0, _, h => by omega
  | n + 1, ts, hlen => by
    cases reading ts with
    | sentence s hs hends =>
      rw [hends]
      refine ⟨nofun, fun hquiet => ?_⟩
      cases hquiet with
      | last _ hnot _ => exact absurd hs hnot
      | @cut seg t rest _ hcut _ _ =>
        have hviable := hs.viable
        rw [List.append_cons] at hviable
        exact absurd hviable.of_append hcut
    | fragment hviable hnot hplain hends =>
      rw [hends]
      exact ⟨fun _ => .last hviable hnot hplain, fun _ => rfl⟩
    | cut seg t rest hts hviable hcut hplain hends =>
      subst hts
      rw [List.length_append, List.length_cons] at hlen
      rw [hends, result_none_iff n (by omega)]
      refine ⟨.cut hviable hcut hplain, fun hquiet => ?_⟩
      generalize hts : seg ++ t :: rest = ts at hquiet
      cases hquiet with
      | last hviable' _ _ =>
        rw [← hts, List.append_cons] at hviable'
        exact absurd hviable'.of_append hcut
      | cut hviable' hcut' _ hrest =>
        rw [cut_unique hts hviable hcut hviable' hcut']
        exact hrest
    | raised seg t rest e hts hviable htype hfollow hint hends =>
      subst hts
      rw [hends]
      exact ⟨nofun, fun hquiet => absurd hquiet (not_quiet_of_raised hviable htype hfollow hint)⟩

theorem parse_none_iff {text : String} {ts : List LexToken} (hlex : SLexer.lex text = ⟨ts, none⟩) :
    parse text = .ok none ↔ Quiet ts := by
  unfold parse
  rw [hlex]
  exact result_none_iff _ (Nat.lt_succ_self _)

/-- **When the parser accepts nothing outside its grammar**: on the sentences, and
on what it turns down. -/
theorem parse_exact_iff {text : String} {ts : List LexToken} (hlex : SLexer.lex text = ⟨ts, none⟩) :
    ((∀ s, parse text = .ok (some s) → Sentence ts) ∧ (¬ Sentence ts → parse text = .ok none)) ↔
      (Sentence ts ∨ Quiet ts) := by
  constructor
  · rintro ⟨-, hnone⟩
    by_cases hs : Sentence ts
    · exact .inl hs
    · exact .inr ((parse_none_iff hlex).mp (hnone hs))
  · rintro (hs | hquiet)
    · exact ⟨fun _ _ => hs, fun hnot => absurd hs hnot⟩
    · have hnone := (parse_none_iff hlex).mpr hquiet
      refine ⟨fun s h => ?_, fun _ => hnone⟩
      rw [hnone] at h
      cases h

theorem parse_exact_sum : SLexer.lex "a + b" = ⟨[⟨.id, "a"⟩, ⟨.op .plus, "+"⟩, ⟨.id, "b"⟩], none⟩ ∧
    (((∀ s, parse "a + b" = .ok (some s) → Sentence [⟨.id, "a"⟩, ⟨.op .plus, "+"⟩, ⟨.id, "b"⟩]) ∧
      (¬ Sentence [⟨.id, "a"⟩, ⟨.op .plus, "+"⟩, ⟨.id, "b"⟩] → parse "a + b" = .ok none)) ↔
      (Sentence [⟨.id, "a"⟩, ⟨.op .plus, "+"⟩, ⟨.id, "b"⟩] ∨
        Quiet [⟨.id, "a"⟩, ⟨.op .plus, "+"⟩, ⟨.id, "b"⟩])) :=
  ⟨rfl, parse_exact_iff rfl⟩

/-- `~ a` has the symbol of `a`. -/
theorem part_accepted : ¬ ∀ (text : String) (ts : List LexToken), SLexer.lex text = ⟨ts, none⟩ →
    (∀ s, parse text = .ok (some s) → Sentence ts) ∧ (¬ Sentence ts → parse text = .ok none) := by
  intro h
  have hparse : parse "~ a" = .ok (some (.id "a")) := rfl
  have hsentence := (h "~ a" [⟨.not, "~"⟩, ⟨.id, "a"⟩] rfl).1 _ hparse
  have hrun : CleanReach tables accept none ⟨[], [(.not, ()), (.id, ())]⟩ ⟨[], [(.not, ()), (.id, ())]⟩ := .refl
  exact not_viable_of_error complete hrun (u := []) rfl rfl [.id] (sentence_iff.mp hsentence)

end SParser
end Apisan
