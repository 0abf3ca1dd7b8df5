/-
# The sentences an LR table accepts

The recognizer of a table is its machine without values. Where it accepts every
sentence of the grammar (`Complete`), an error comes at the first token that no
sentence goes on with (`not_viable_of_error`), though the table may reduce before
it.

A production whose symbols the table walks over, to a state that reduces by it on
what may follow its left side (`walks`), is run wherever its left side is awaited
(`runs_of_walks`).

Key definitions: `ShiftReduce.accept`, `ShiftReduce.Complete`,
`ShiftReduce.Runs`, `ShiftReduce.walks`.
Key theorems: `ShiftReduce.not_viable_of_error`,
`ShiftReduce.not_sentence_of_error`, `ShiftReduce.runs_of_walks`.
-/
import Apisan.Lib.Items
import Mathlib.Data.Fintype.Option

namespace ShiftReduce

open Machine ContextFree

section

variable {σ τ ν π α ε : Type*} {T : Tables σ τ ν π} {G : Productions τ ν π}
variable {sem : π → List α → Except ε α} {eof : Option ε}

/-! ### The recognizer -/

/-- The action of the recognizer, which keeps no values. -/
def accept (_ : π) (_ : List Unit) : Except Empty Unit := .ok ()

/-- A configuration without its values. -/
def Config.erase (c : Config σ τ α) : Config σ τ Unit :=
  ⟨c.stack.map fun x => (x.1, ()), c.input.map fun x => (x.1, ())⟩

theorem head_erase (inp : List (τ × α)) :
    (inp.map fun x => (x.1, ())).head?.map Prod.fst = inp.head?.map Prod.fst := by
  cases inp <;> rfl

/-- A word as the recognizer reads it. -/
def units (w : List τ) : List (τ × Unit) := w.map fun t => (t, ())

variable (T G) in
/-- The recognizer accepts every sentence, and meets no error in it. -/
def Complete (start : ν) : Prop :=
  ∀ w, Yields G [.nonterminal start] w → ∃ st, CleanReach T accept none ⟨[], units w⟩ ⟨st, []⟩ ∧
    T.action (top T st) none = .accept

/-- A step is a step of the recognizer. -/
theorem Clean.erase {c d : Config σ τ α} (h : Clean T sem eof c d) : Clean T accept none c.erase d.erase := by
  obtain ⟨hn, hclean⟩ := h
  refine ⟨?_, by rw [Config.erase, top_erase, head_erase]; exact hclean⟩
  rcases next_cases hn with ⟨s, t, v, inp, hinp, hact, rfl⟩ |
    ⟨p, s, v, fr, st, hfr, hlen, hact, hsem, hgoto, rfl⟩ | ⟨t, v, inp, hinp, hact, rfl⟩
  · rw [Config.erase, Config.erase, hinp]
    exact next_shift (by rw [top_erase]; exact hact)
  · rw [Config.erase, Config.erase, hfr, List.map_append]
    refine next_reduce (.inr rfl) ?_ (by rw [List.length_map]; exact hlen) rfl (by rw [top_erase]; exact hgoto)
    rw [← List.map_append, top_erase, head_erase, ← hfr]
    exact hact
  · rw [hinp] at hclean
    exact absurd hact hclean

theorem CleanReach.erase {c d : Config σ τ α} (h : CleanReach T sem eof c d) :
    CleanReach T accept none c.erase d.erase := by
  induction h with
  | refl => exact .refl
  | tail _ hn ih => exact ih.tail hn.erase

/-- What comes after the next token may be anything. -/
theorem CleanReach.replace {c d : Config σ τ α} {x : τ × α} {r : List (τ × α)} (r' : List (τ × α))
    (h : CleanReach T sem eof c d) (hd : d.input = x :: r) :
    ∃ a, c.input = a ++ x :: r ∧ CleanReach T sem eof ⟨c.stack, a ++ x :: r'⟩ ⟨d.stack, x :: r'⟩ := by
  induction h using Relation.ReflTransGen.head_induction_on with
  | refl => exact ⟨[], hd, .refl⟩
  | @head c e hn _ ih =>
    obtain ⟨b, hb, hreach⟩ := ih
    obtain ⟨hn, hclean⟩ := hn
    rcases next_cases hn with ⟨s, t, v, inp, hinp, hact, rfl⟩ |
      ⟨p, s, v, fr, st, hfr, hlen, hact, hsem, hgoto, rfl⟩ | ⟨t, v, inp, hinp, hact, rfl⟩
    · obtain rfl : inp = b ++ x :: r := hb
      refine ⟨(t, v) :: b, hinp, .head ⟨next_shift hact, ?_⟩ hreach⟩
      simp [hact]
    · have hhead : ∀ r : List (τ × α), (b ++ x :: r).head? = (b ++ [x]).head? := fun r => by
        cases b <;> rfl
      have hact' : T.action (top T c.stack) ((b ++ x :: r').head?.map Prod.fst) = .reduce p := by
        rw [hhead, ← hhead r, ← hb]
        exact hact
      refine ⟨b, hb, .head ⟨?_, fun herror => ?_⟩ hreach⟩
      · rw [hfr] at hact' ⊢
        exact next_reduce (.inl (by simp)) hact' hlen hsem hgoto
      · rw [hact'] at herror
        cases herror
    · rw [hinp] at hclean
      exact absurd hact hclean

/-- Runs without an error from one configuration to where they end are one
run. -/
theorem CleanReach.unique {c d e : Config σ τ α} (hd : CleanReach T sem eof c d)
    (he : CleanReach T sem eof c e) (hdend : ∀ f, ¬ Clean T sem eof d f) (heend : ∀ f, ¬ Clean T sem eof e f) :
    d = e := by
  have hunique : Relator.RightUnique (Clean T sem eof) := fun a b b' hb hb' =>
    Sum.inl.inj (hb.1.symm.trans hb'.1)
  rcases Relation.ReflTransGen.total_of_right_unique hunique hd he with h | h
  · rcases h.cases_head with rfl | ⟨f, hf, -⟩
    · rfl
    · exact absurd hf (hdend f)
  · rcases h.cases_head with rfl | ⟨f, hf, -⟩
    · rfl
    · exact absurd hf (heend f)

/-- Where the recognizer accepts, its run ends. -/
theorem not_clean_of_accept {st : List (σ × α)} (h : T.action (top T st) none = .accept) (f : Config σ τ α) :
    ¬ Clean T sem (none : Option ε) ⟨st, []⟩ f := by
  rintro ⟨hn, -⟩
  rw [Next, halt_accept h] at hn
  cases hn

theorem not_clean_of_error {c : Config σ τ α}
    (h : T.action (top T c.stack) (c.input.head?.map Prod.fst) = .error) (f : Config σ τ α) :
    ¬ Clean T sem eof c f := fun hf => hf.2 h

/-- **An error before a token** means that no sentence goes on with it. -/
theorem not_viable_of_error {start : ν} (hcomplete : Complete T G start) {inp u r : List (τ × α)} {x : τ × α}
    {st : List (σ × α)} (h : CleanReach T sem eof ⟨[], inp⟩ ⟨st, x :: r⟩) (hinp : inp = u ++ x :: r)
    (herror : T.action (top T st) (some x.1) = .error) (w : List τ) :
    ¬ Yields G [.nonterminal start] (u.map Prod.fst ++ x.1 :: w) := by
  intro hw
  obtain ⟨stf, hrun, haccept⟩ := hcomplete _ hw
  obtain ⟨a, ha, hrun'⟩ := h.erase.replace (units w) rfl
  obtain rfl : a = u.map fun y => (y.1, ()) := by
    subst hinp
    simpa [Config.erase] using ha.symm
  have hunits : units (u.map Prod.fst ++ x.1 :: w) = (u.map fun y => (y.1, ())) ++ (x.1, ()) :: units w := by
    simp [units]
  rw [hunits] at hrun
  have herror' : T.action (top T (st.map fun y => (y.1, ()))) (some x.1) = .error := by
    rw [top_erase]
    exact herror
  cases hrun.unique hrun' (not_clean_of_accept haccept) (not_clean_of_error herror')

/-- **An error at the end** means that what was read is no sentence. -/
theorem not_sentence_of_error {start : ν} (hcomplete : Complete T G start) {inp : List (τ × α)}
    {st : List (σ × α)} (h : CleanReach T sem eof ⟨[], inp⟩ ⟨st, []⟩)
    (herror : T.action (top T st) none = .error) : ¬ Yields G [.nonterminal start] (inp.map Prod.fst) := by
  intro hw
  obtain ⟨stf, hrun, haccept⟩ := hcomplete _ hw
  have hunits : units (inp.map Prod.fst) = inp.map fun y => (y.1, ()) := by simp [units]
  rw [hunits] at hrun
  have herror' : T.action (top T (st.map fun y => (y.1, ()))) none = .error := by
    rw [top_erase]
    exact herror
  have hsame := hrun.unique h.erase (not_clean_of_accept haccept) (not_clean_of_error herror')
  have hstack : stf = st.map fun y => (y.1, ()) := congrArg Config.stack hsame
  rw [hstack, herror'] at haccept
  cases haccept

end

/-! ### Productions that are walked over -/

section

variable {σ τ ν π : Type*} (T : Tables σ τ ν π) (follow : ν → Option τ → Bool)

/-- A word as an entry of the nonterminal, wherever it is awaited and something
follows that may. -/
def Runs (n : ν) (w : List τ) : Prop :=
  ∀ st s rest, T.goto (top T st) n = some s → follow n (rest.head?.map Prod.fst) = true →
    CleanReach T accept none ⟨st, units w ++ rest⟩ ⟨(s, ()) :: st, rest⟩

/-- What may come first after the left side of a production, or in the rest of
its right side; anything, if that begins with a nonterminal. -/
def mayFollow [DecidableEq τ] (p : π) : List (Symbol τ ν) → Option τ → Bool
  | [], la => follow (T.lhs p) la
  | .terminal t :: _, la => decide (la = some t)
  | .nonterminal _ :: _, _ => true

/-- The table walks from the state over the rest of a production, and then
reduces by it. -/
def walks [Fintype τ] [DecidableEq τ] [DecidableEq σ] [DecidableEq π] (p : π) : σ → List (Symbol τ ν) → Bool
  | s, [] => decide (∀ la, follow (T.lhs p) la = true → T.action s la = .reduce p)
  | s, .terminal t :: X =>
    match T.action s (some t) with
    | .shift s' => walks p s' X
    | _ => false
  | s, .nonterminal n :: X =>
    match T.goto s n with
    | some s' => decide (∀ la, mayFollow T follow p X la = true → follow n la = true) && walks p s' X
    | none => false

end

section

variable {σ τ ν π : Type*} {T : Tables σ τ ν π} {G : Productions τ ν π} {follow : ν → Option τ → Bool}

theorem clean_shift {s : σ} {t : τ} {st : List (σ × Unit)} {inp : List (τ × Unit)}
    (h : T.action (top T st) (some t) = .shift s) :
    CleanReach T accept none ⟨st, (t, ()) :: inp⟩ ⟨(s, ()) :: st, inp⟩ :=
  .single ⟨next_shift h, by simp [h]⟩

theorem clean_reduce {p : π} {s : σ} {st : List (σ × Unit)} (fr : List (σ × Unit)) {inp : List (τ × Unit)}
    (hact : T.action (top T (fr ++ st)) (inp.head?.map Prod.fst) = .reduce p) (hlen : fr.length = T.length p)
    (hgoto : T.goto (top T st) (T.lhs p) = some s) :
    CleanReach T accept none ⟨fr ++ st, inp⟩ ⟨(s, ()) :: st, inp⟩ :=
  .single ⟨next_reduce (.inr rfl) hact hlen rfl hgoto, by simp [hact]⟩

theorem units_append (u w : List τ) : units (u ++ w) = units u ++ units w := List.map_append

/-- What follows a piece of a production may follow it. -/
theorem mayFollow_of_pieces [DecidableEq τ] {M : ν → List τ → Prop} {p : π} {X : List (Symbol τ ν)}
    {vs : List Unit} {u : List τ} {rest : List (τ × Unit)} (h : Pieces (Made M) X vs u)
    (hf : follow (T.lhs p) (rest.head?.map Prod.fst) = true) :
    mayFollow T follow p X ((units u ++ rest).head?.map Prod.fst) = true := by
  cases h with
  | nil => exact hf
  | @cons x X v vs u w hx _ =>
    cases x with
    | terminal t =>
      obtain rfl : u = [t] := hx
      simp [mayFollow, units]
    | nonterminal n => rfl

variable [Fintype τ] [DecidableEq τ] [DecidableEq σ] [DecidableEq π]

/-- **A walk runs.** -/
theorem reach_of_walks {p : π} : ∀ {X : List (Symbol τ ν)} {vs : List Unit} {u : List τ}
    (st : List (σ × Unit)) {rest : List (τ × Unit)}, walks T follow p (top T st) X = true → Pieces (Made (Runs T follow)) X vs u →
    follow (T.lhs p) (rest.head?.map Prod.fst) = true →
    ∃ fr, fr.length = X.length ∧ CleanReach T accept none ⟨st, units u ++ rest⟩ ⟨fr ++ st, rest⟩ ∧
      T.action (top T (fr ++ st)) (rest.head?.map Prod.fst) = .reduce p
  | [], _, _, st, rest, hwalk, .nil, hf => by
    rw [walks, decide_eq_true_eq] at hwalk
    exact ⟨[], rfl, .refl, hwalk _ hf⟩
  | .terminal t :: X, _, _, st, rest, hwalk, .cons ht hX, hf => by
    obtain rfl : _ = [t] := ht
    rw [walks] at hwalk
    split at hwalk
    · rename_i s hact
      obtain ⟨fr, hlen, hreach, hreduce⟩ := reach_of_walks ((s, ()) :: st) hwalk hX hf
      refine ⟨fr ++ [(s, ())], by simp [hlen], ?_, ?_⟩
      · rw [List.append_assoc]
        exact (clean_shift hact).trans hreach
      · rw [List.append_assoc]
        exact hreduce
    · cases hwalk
  | .nonterminal n :: X, _, _, st, rest, hwalk, .cons hn hX, hf => by
    rw [walks] at hwalk
    split at hwalk
    · rename_i s hgoto
      rw [Bool.and_eq_true, decide_eq_true_eq] at hwalk
      obtain ⟨hfollow, hwalk⟩ := hwalk
      have hrun := hn st s _ hgoto (hfollow _ (mayFollow_of_pieces hX hf))
      obtain ⟨fr, hlen, hreach, hreduce⟩ := reach_of_walks ((s, ()) :: st) hwalk hX hf
      refine ⟨fr ++ [(s, ())], by simp [hlen], ?_, ?_⟩
      · rw [units_append, List.append_assoc, List.append_assoc]
        exact hrun.trans hreach
      · rw [List.append_assoc]
        exact hreduce
    · cases hwalk

/-- **The rule of a walked production**: its left side runs where its right side
does. -/
theorem runs_of_walks (I : Items T G) {p : π} {vs : List Unit} {u : List τ}
    (hwalk : ∀ s, (T.goto s (T.lhs p)).isSome = true → walks T follow p s (G.rhs p) = true)
    (h : Pieces (Made (Runs T follow)) (G.rhs p) vs u) : Runs T follow (G.lhs p) u := by
  intro st s rest hgoto hf
  rw [← I.lhs_eq] at hgoto hf
  obtain ⟨fr, hlen, hreach, hreduce⟩ := reach_of_walks st (hwalk _ (by rw [hgoto]; rfl)) h hf
  exact hreach.trans (clean_reduce fr hreduce (hlen.trans (I.length_eq p).symm) hgoto)

end

end ShiftReduce
