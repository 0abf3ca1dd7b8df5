/-
# Table-driven shift-reduce parsing

The stack machine that runs an LR table: it looks at the next token and at
the state on top of the stack, and shifts the token, reduces by a production
(calling its semantic action), accepts, or meets an error. The recovery is
the one of a grammar without error productions whose error function returns
nothing: on a token the table has no entry for, the stack is unwound to the
start state and the token is dropped; at the end of the input the parse gives
up with no value.

A table whose states carry weights that every reduction lowers (`Rank`)
halts on every input (`parse_total`), so the fuel of `parse` is no
restriction. What it has not looked at then stays with the lexer (`unread`): a
parse that an action ends may leave tokens, one that ends with a value leaves
none.

Key definitions: `ShiftReduce.Tables`, `ShiftReduce.step`,
`ShiftReduce.parse`, `ShiftReduce.unread`, `ShiftReduce.Linked`,
`ShiftReduce.Rank`.
Key theorems: `ShiftReduce.next_shift`, `ShiftReduce.next_reduce`,
`ShiftReduce.reach_append`, `ShiftReduce.linked_reach`,
`ShiftReduce.parse_total`, `ShiftReduce.parse_of_reach`.
-/
import Mathlib.Data.List.Basic
import Mathlib.Algebra.BigOperators.Group.List.Basic
import Mathlib.Algebra.GroupWithZero.Nat
import Apisan.Lib.Machine

namespace ShiftReduce

open Machine

/-- An entry of the action table. -/
inductive Action (σ π : Type*)
  | shift (s : σ)
  | reduce (p : π)
  | accept
  | error
  deriving DecidableEq

namespace Action

variable {σ π : Type*}

/-- The state that is shifted to. -/
def target : Action σ π → Option σ
  | shift s => some s
  | _ => none

/-- The production that is reduced by. -/
def production : Action σ π → Option π
  | reduce p => some p
  | _ => none

/-- What is checked of the state shifted to. -/
theorem target_all {a : Action σ π} {s : σ} {f : σ → Bool} (hf : a.target.all f = true) (h : a = shift s) :
    f s = true := by
  rw [h] at hf
  exact hf

/-- What is checked of the production reduced by. -/
theorem production_all {a : Action σ π} {p : π} {f : π → Bool} (hf : a.production.all f = true)
    (h : a = reduce p) : f p = true := by
  rw [h] at hf
  exact hf

end Action

/-- The tables of an LR automaton over states `σ`, terminals `τ`,
nonterminals `ν` and productions `π`. The lookahead `none` is the end of the
input. -/
structure Tables (σ τ ν π : Type*) where
  start : σ
  action : σ → Option τ → Action σ π
  goto : σ → ν → Option σ
  lhs : π → ν
  length : π → ℕ

/-- The stack of states and values above the start state, top first, and the
tokens to come. -/
structure Config (σ τ α : Type*) where
  stack : List (σ × α)
  input : List (τ × α)

/-- What a parse ends with: the value it returns (`none` where it gives up at
the end of the input), what a semantic action or the lexer raised, or an entry
the tables lack. -/
inductive Outcome (ε α : Type*)
  | value (v : Option α)
  | raised (e : ε)
  | stuck

section

variable {σ τ ν π α ε : Type*} (T : Tables σ τ ν π) (sem : π → List α → Except ε α)
  (eof : Option ε)

/-- The state on top of the stack. -/
def top : List (σ × α) → σ
  | [] => T.start
  | x :: _ => x.1

@[simp] theorem top_nil : top T ([] : List (σ × α)) = T.start := rfl
@[simp] theorem top_cons (x : σ × α) (st : List (σ × α)) : top T (x :: st) = x.1 := rfl

/-- One step. After the last token the lexer either says so or raises, which
is `eof`. -/
def step (c : Config σ τ α) : Config σ τ α ⊕ Outcome ε α :=
  match c.input, eof with
  | [], some e => .inr (.raised e)
  | _, _ =>
    match T.action (top T c.stack) (c.input.head?.map Prod.fst) with
    | .shift s =>
      match c.input with
      | [] => .inr .stuck
      | (_, v) :: rest => .inl ⟨(s, v) :: c.stack, rest⟩
    | .reduce p =>
      if c.stack.length < T.length p then .inr .stuck
      else
        match sem p ((c.stack.take (T.length p)).map Prod.snd).reverse with
        | .error e => .inr (.raised e)
        | .ok v =>
          match T.goto (top T (c.stack.drop (T.length p))) (T.lhs p) with
          | none => .inr .stuck
          | some s => .inl ⟨(s, v) :: c.stack.drop (T.length p), c.input⟩
    | .accept => .inr (.value (c.stack.head?.map Prod.snd))
    | .error =>
      match c.input with
      | [] => .inr (.value none)
      | _ :: rest => .inl ⟨[], rest⟩

/-! ### The steps of a run -/

variable {T sem eof}

theorem next_shift {s : σ} {t : τ} {v : α} {st : List (σ × α)} {inp : List (τ × α)}
    (h : T.action (top T st) (some t) = .shift s) :
    Next (step T sem eof) ⟨st, (t, v) :: inp⟩ ⟨(s, v) :: st, inp⟩ := by
  simp [Next, step, h]

/-- The lookahead is there to be seen: a token, or the end of a text that
lexed to its end. -/
def Seen (eof : Option ε) (inp : List (τ × α)) : Prop := inp ≠ [] ∨ eof = none

theorem next_reduce {p : π} {s : σ} {v : α} {st fr : List (σ × α)} {inp : List (τ × α)}
    (hseen : Seen eof inp)
    (hact : T.action (top T (fr ++ st)) (inp.head?.map Prod.fst) = .reduce p)
    (hlen : fr.length = T.length p)
    (hsem : sem p (fr.map Prod.snd).reverse = .ok v)
    (hgoto : T.goto (top T st) (T.lhs p) = some s) :
    Next (step T sem eof) ⟨fr ++ st, inp⟩ ⟨(s, v) :: st, inp⟩ := by
  have htake : (fr ++ st).take (T.length p) = fr := by rw [← hlen, List.take_left]
  have hdrop : (fr ++ st).drop (T.length p) = st := by rw [← hlen, List.drop_left]
  have hle : ¬ (fr ++ st).length < T.length p := by simp [hlen]
  unfold Next step
  cases inp with
  | nil =>
    obtain rfl : eof = none := by simpa [Seen] using hseen
    simp only [hact, hle, if_false, htake, hsem, hdrop, hgoto]
  | cons x inp =>
    simp only [hact, hle, if_false, htake, hsem, hdrop, hgoto]

theorem next_drop {t : τ} {v : α} {st : List (σ × α)} {inp : List (τ × α)}
    (h : T.action (top T st) (some t) = .error) :
    Next (step T sem eof) ⟨st, (t, v) :: inp⟩ ⟨[], inp⟩ := by
  simp [Next, step, h]

theorem halt_accept {st : List (σ × α)} (h : T.action (top T st) none = .accept) :
    step T sem (none : Option ε) ⟨st, ([] : List (τ × α))⟩ =
      .inr (.value (st.head?.map Prod.snd)) := by
  simp [step, h]

theorem halt_error {st : List (σ × α)} (h : T.action (top T st) none = .error) :
    step T sem (none : Option ε) ⟨st, ([] : List (τ × α))⟩ = .inr (.value none) := by
  simp [step, h]

theorem halt_eof {e : ε} (st : List (σ × α)) :
    step T sem (some e) ⟨st, ([] : List (τ × α))⟩ = .inr (.raised e) := rfl

theorem halt_raise {p : π} {e : ε} {st fr : List (σ × α)} {inp : List (τ × α)} (hseen : Seen eof inp)
    (hact : T.action (top T (fr ++ st)) (inp.head?.map Prod.fst) = .reduce p)
    (hlen : fr.length = T.length p) (hsem : sem p (fr.map Prod.snd).reverse = .error e) :
    step T sem eof ⟨fr ++ st, inp⟩ = .inr (.raised e) := by
  have htake : (fr ++ st).take (T.length p) = fr := by rw [← hlen, List.take_left]
  have hle : ¬ (fr ++ st).length < T.length p := by simp [hlen]
  unfold step
  cases inp with
  | nil =>
    obtain rfl : eof = none := by simpa [Seen] using hseen
    simp only [hact, hle, if_false, htake, hsem]
  | cons x inp => simp only [hact, hle, if_false, htake, hsem]

/-- **What a step can do.** It shifts the next token, reduces the top of the
stack, or drops a token and starts over. -/
theorem next_cases {c d : Config σ τ α} (h : Next (step T sem eof) c d) :
    (∃ s t v inp, c.input = (t, v) :: inp ∧ T.action (top T c.stack) (some t) = .shift s ∧
      d = ⟨(s, v) :: c.stack, inp⟩) ∨
    (∃ p s v fr st, c.stack = fr ++ st ∧ fr.length = T.length p ∧
      T.action (top T c.stack) (c.input.head?.map Prod.fst) = .reduce p ∧
      sem p (fr.map Prod.snd).reverse = .ok v ∧
      T.goto (top T st) (T.lhs p) = some s ∧ d = ⟨(s, v) :: st, c.input⟩) ∨
    (∃ t v inp, c.input = (t, v) :: inp ∧ T.action (top T c.stack) (some t) = .error ∧
      d = ⟨[], inp⟩) := by
  obtain ⟨st, inp⟩ := c
  unfold Next step at h
  split at h
  · cases h
  · simp only at h
    split at h
    · rename_i s hact
      cases inp with
      | nil => cases h
      | cons x inp =>
        obtain ⟨t, v⟩ := x
        exact .inl ⟨s, t, v, inp, rfl, hact, (Sum.inl.inj h).symm⟩
    · rename_i p hact
      split_ifs at h with hlen
      split at h
      · cases h
      · rename_i v hsem
        split at h
        · cases h
        · rename_i s hgoto
          refine .inr (.inl ⟨p, s, v, st.take (T.length p), st.drop (T.length p),
            (List.take_append_drop _ _).symm, ?_, hact, hsem, hgoto, (Sum.inl.inj h).symm⟩)
          rw [List.length_take]
          exact Nat.min_eq_left (Nat.le_of_not_lt hlen)
    · cases h
    · rename_i hact
      cases inp with
      | nil => cases h
      | cons x inp =>
        obtain ⟨t, v⟩ := x
        exact .inr (.inr ⟨t, v, inp, rfl, hact, (Sum.inl.inj h).symm⟩)

/-- **How a run ends with a value**: at an accepting entry, or with none at an
error at the end of the input. -/
theorem halt_value {c : Config σ τ α} {w : Option α} (h : step T sem eof c = .inr (.value w)) :
    Seen eof c.input ∧ ((T.action (top T c.stack) (c.input.head?.map Prod.fst) = .accept ∧
        w = c.stack.head?.map Prod.snd) ∨
      (c.input = [] ∧ T.action (top T c.stack) none = .error ∧ w = none)) := by
  obtain ⟨st, inp⟩ := c
  unfold step at h
  split at h
  · cases h
  · rename_i hinp
    refine ⟨?_, ?_⟩
    · by_cases hnil : inp = []
      · exact .inr (Option.eq_none_iff_forall_ne_some.mpr fun e he => hinp e hnil he)
      · exact .inl hnil
    simp only at h
    split at h
    · split at h <;> cases h
    · split_ifs at h
      · cases h
      · split at h
        · cases h
        · split at h <;> cases h
    · rename_i hact
      cases h
      exact .inl ⟨hact, rfl⟩
    · rename_i hact
      split at h
      · cases h
        exact .inr ⟨rfl, hact, rfl⟩
      · cases h

/-- **How a run ends with an exception** on a text that lexes to its end: an
action raised it. -/
theorem halt_raised {c : Config σ τ α} {e : ε} (h : step T sem none c = .inr (.raised e)) :
    ∃ p fr st, c.stack = fr ++ st ∧ fr.length = T.length p ∧
      T.action (top T c.stack) (c.input.head?.map Prod.fst) = .reduce p ∧
      sem p (fr.map Prod.snd).reverse = .error e := by
  obtain ⟨st, inp⟩ := c
  unfold step at h
  split at h
  · rename_i heof
    cases heof
  · simp only at h
    split at h
    · split at h <;> cases h
    · rename_i p hact
      split_ifs at h with hlen
      · cases h
      split at h
      · rename_i hsem
        cases h
        refine ⟨p, st.take (T.length p), st.drop (T.length p), (List.take_append_drop _ _).symm, ?_, hact, hsem⟩
        rw [List.length_take]
        exact Nat.min_eq_left (Nat.le_of_not_lt hlen)
      · split at h <;> cases h
    · cases h
    · split at h <;> cases h

/-! ### More input -/

/-- **A step sees the next token and no further.** Where the end of the input
is replaced by a token that the table treats alike in its reductions, the step
is the same. -/
theorem next_append {c d : Config σ τ α} {x : τ × α} (more : List (τ × α))
    (hlike : ∀ s p, T.action s none = .reduce p → T.action s (some x.1) = .reduce p)
    (h : Next (step T sem eof) c d) :
    Next (step T sem eof) ⟨c.stack, c.input ++ x :: more⟩ ⟨d.stack, d.input ++ x :: more⟩ := by
  rcases next_cases h with ⟨s, t, v, inp, hinp, hact, rfl⟩ |
    ⟨p, s, v, fr, st, hst, hlen, hact, hsem, hgoto, rfl⟩ | ⟨t, v, inp, hinp, hact, rfl⟩
  · rw [hinp]
    exact next_shift hact
  · rw [hst] at hact ⊢
    refine next_reduce (.inl (by simp)) ?_ hlen hsem hgoto
    cases hinp : c.input with
    | nil =>
      rw [hinp] at hact
      exact hlike _ _ hact
    | cons y inp =>
      rw [hinp] at hact
      exact hact
  · rw [hinp]
    exact next_drop hact

theorem reach_append {c d : Config σ τ α} {x : τ × α} (more : List (τ × α))
    (hlike : ∀ s p, T.action s none = .reduce p → T.action s (some x.1) = .reduce p)
    (h : Reach (step T sem eof) c d) :
    Reach (step T sem eof) ⟨c.stack, c.input ++ x :: more⟩ ⟨d.stack, d.input ++ x :: more⟩ := by
  induction h with
  | refl => exact .refl
  | tail _ hn ih => exact ih.tail (next_append more hlike hn)

/-! ### What the stack holds -/

variable (T) in
/-- Each entry of a stack stands in the relation to the state below it. -/
def Linked (E : σ → σ × α → Prop) : List (σ × α) → Prop
  | [] => True
  | x :: st => E (top T st) x ∧ Linked E st

theorem Linked.drop {E : σ → σ × α → Prop} : ∀ {fr st : List (σ × α)}, Linked T E (fr ++ st) →
    Linked T E st
  | [], _, h => h
  | _ :: _, _, h => Linked.drop h.2

theorem Linked.of_mem {P : σ × α → Prop} : ∀ {st : List (σ × α)}, Linked T (fun _ => P) st →
    ∀ x ∈ st, P x
  | _ :: _, h, _, hx => (List.mem_cons.mp hx).elim (fun he => he ▸ h.1) (Linked.of_mem h.2 _)

/-- **The rule of the stack**: a relation that the shifts and the reductions
establish holds of every stack reached. `I` is what holds of the tokens. -/
theorem linked_reach {E : σ → σ × α → Prop} {I : τ × α → Prop}
    (hshift : ∀ s t v s', I (t, v) → T.action s (some t) = .shift s' → E s (s', v))
    (hreduce : ∀ p s v fr st la, Linked T E (fr ++ st) → fr.length = T.length p →
      T.action (top T (fr ++ st)) la = .reduce p → sem p (fr.map Prod.snd).reverse = .ok v →
      T.goto (top T st) (T.lhs p) = some s → E (top T st) (s, v))
    {inp : List (τ × α)} (hin : ∀ x ∈ inp, I x) {c : Config σ τ α}
    (h : Reach (step T sem eof) ⟨[], inp⟩ c) : Linked T E c.stack ∧ ∀ x ∈ c.input, I x := by
  have hempty : Linked T E ([] : List (σ × α)) := trivial
  refine Reach.invariant (I := fun c => Linked T E c.stack ∧ ∀ x ∈ c.input, I x) ?_ h ⟨hempty, hin⟩
  rintro c d ⟨hstack, hinput⟩ hn
  rcases next_cases hn with ⟨s, t, v, inp, hinp, hact, rfl⟩ |
    ⟨p, s, v, fr, st, hst, hlen, hact, hsem, hgoto, rfl⟩ | ⟨t, v, inp, hinp, hact, rfl⟩
  · rw [hinp] at hinput
    exact ⟨⟨hshift _ _ _ _ (hinput _ List.mem_cons_self) hact, hstack⟩,
      fun x hx => hinput x (List.mem_cons_of_mem _ hx)⟩
  · rw [hst] at hstack hact
    exact ⟨⟨hreduce _ _ _ _ _ _ hstack hlen hact hsem hgoto, hstack.drop⟩, hinput⟩
  · rw [hinp] at hinput
    exact ⟨hempty, fun x hx => hinput x (List.mem_cons_of_mem _ hx)⟩

/-! ### Every parse halts -/

variable (T) in
/-- Weights of the states that every reduction lowers: the weights of the
stack, the bonus of its top and `token` for each token to come go down with
every step. -/
structure Rank where
  weight : σ → ℕ
  bonus : σ → ℕ
  token : ℕ
  weight_pos : ∀ s, 1 ≤ weight s
  start_lt : bonus T.start < token
  shift_lt : ∀ s t s', T.action s (some t) = .shift s' → weight s' + bonus s' < token
  reduce_lt : ∀ s la p s' g, T.action s la = .reduce p → T.goto s' (T.lhs p) = some g →
    T.length p ≠ 0 → weight g + bonus g + 1 < weight s + bonus s + T.length p
  empty_lt : ∀ s la p g, T.action s la = .reduce p → T.goto s (T.lhs p) = some g →
    T.length p = 0 → weight g + bonus g < bonus s

namespace Rank

/-- The measure of a configuration. -/
def measure (R : Rank T) (c : Config σ τ α) : ℕ :=
  (c.stack.map fun x => R.weight x.1).sum + R.bonus (top T c.stack) + R.token * c.input.length

theorem length_le_sum (R : Rank T) : ∀ st : List (σ × α),
    st.length ≤ (st.map fun x => R.weight x.1).sum
  | [] => by simp
  | x :: st => by
    have := length_le_sum R st
    have := R.weight_pos x.1
    simp only [List.length_cons, List.map_cons, List.sum_cons]
    omega

variable (sem eof) in
theorem measure_lt (R : Rank T) (c d : Config σ τ α) (h : Next (step T sem eof) c d) :
    R.measure d < R.measure c := by
  rcases next_cases h with ⟨s, t, v, inp, hinp, hact, rfl⟩ |
    ⟨p, s, v, fr, st, hst, hlen, hact, -, hgoto, rfl⟩ | ⟨t, v, inp, hinp, hact, rfl⟩
  · have := R.shift_lt _ _ _ hact
    simp only [measure, hinp, List.map_cons, List.sum_cons, top_cons, List.length_cons, Nat.mul_succ]
    omega
  · simp only [measure, List.map_cons, List.sum_cons, top_cons, hst, List.map_append, List.sum_append]
    cases fr with
    | nil =>
      rw [List.nil_append] at hst
      rw [hst] at hact
      have := R.empty_lt _ _ _ _ hact hgoto (by simpa using hlen.symm)
      simp only [List.map_nil, List.sum_nil, List.nil_append]
      omega
    | cons x fr =>
      rw [hst, List.cons_append, top_cons] at hact
      have := R.reduce_lt _ _ _ _ _ hact hgoto (by simp [← hlen])
      have hsum := length_le_sum R fr
      simp only [List.length_cons] at hlen
      simp only [List.map_cons, List.sum_cons, List.cons_append, top_cons]
      omega
  · have := R.start_lt
    simp only [measure, hinp, List.map_nil, List.sum_nil, top_nil, List.length_cons, Nat.mul_succ]
    omega

/-- Fuel for the tokens `inp`. -/
def fuel (R : Rank T) (inp : List (τ × α)) : ℕ := R.measure ⟨[], inp⟩ + 1

end Rank

variable (sem eof) in
/-- The parse of the tokens `inp`. -/
def parse (R : Rank T) (inp : List (τ × α)) : Outcome ε α :=
  (run (step T sem eof) (R.fuel inp) ⟨[], inp⟩).getD .stuck

/-- **The parse halts on every input.** -/
theorem parse_total (R : Rank T) (inp : List (τ × α)) :
    run (step T sem eof) (R.fuel inp) ⟨[], inp⟩ = some (parse sem eof R inp) := by
  obtain ⟨r, hr⟩ := run_of_measure R.measure (R.measure_lt sem eof)
    (Nat.lt_succ_self (R.measure ⟨[], inp⟩))
  simp only [parse, Rank.fuel, Nat.succ_eq_add_one] at hr ⊢
  simp [hr]

variable (sem eof) in
/-- The parse has a run of steps to a halt. -/
theorem reach_of_parse (R : Rank T) (inp : List (τ × α)) :
    ∃ c, Reach (step T sem eof) ⟨[], inp⟩ c ∧ step T sem eof c = .inr (parse sem eof R inp) :=
  exists_reach_of_run (parse_total R inp)

/-- The parse is what any run of steps to a halt shows. -/
theorem parse_of_reach (R : Rank T) {inp : List (τ × α)} {c : Config σ τ α} {r : Outcome ε α}
    (h : Reach (step T sem eof) ⟨[], inp⟩ c) (hc : step T sem eof c = .inr r) :
    parse sem eof R inp = r := by
  obtain ⟨n, hn⟩ := exists_run_of_reach h hc
  exact run_unique (parse_total R inp) hn

variable (sem eof) in
/-- The tokens that the parse leaves: those after the lookahead at which it
halts. -/
def unread (R : Rank T) (inp : List (τ × α)) : List (τ × α) :=
  ((halted (step T sem eof) (R.fuel inp) ⟨[], inp⟩).map fun c => c.input.tail).getD []

/-- What is left after any run of steps to a halt. -/
theorem unread_of_reach (R : Rank T) {inp : List (τ × α)} {c : Config σ τ α} {r : Outcome ε α}
    (h : Reach (step T sem eof) ⟨[], inp⟩ c) (hc : step T sem eof c = .inr r) :
    unread sem eof R inp = c.input.tail := by
  have htotal : run (step T sem eof) (R.fuel inp) ⟨[], inp⟩ = some (parse sem eof R inp) := parse_total R inp
  obtain ⟨d, hd, hreach, hhalt⟩ := halted_of_run htotal
  rw [unread, hd, Reach.halt_unique h hc hreach hhalt]
  rfl

/-- **After an error** the parse is the parse of what comes after the token. -/
theorem parse_drop (R : Rank T) {inp rest : List (τ × α)} {st : List (σ × α)} {x : τ × α}
    (h : Reach (step T sem eof) ⟨[], inp⟩ ⟨st, x :: rest⟩) (hact : T.action (top T st) (some x.1) = .error) :
    parse sem eof R inp = parse sem eof R rest := by
  obtain ⟨c, hc, hhalt⟩ := reach_of_parse sem eof R rest
  exact parse_of_reach R ((h.tail (next_drop hact)).trans hc) hhalt

end

end ShiftReduce
