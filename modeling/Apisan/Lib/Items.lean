/-
# What an LR table has read

An LR table whose states are named by their kernel items (`Items`): what leads to
a state reads the next symbol of each of its items, and a state reduces by a
production it has read to the end. Then the stack spells what was read, a piece
for each state (`Spells`): a run drops nothing and never gets stuck until it meets
an error (`Spells.next`), and where it accepts, it has read a sentence.

Where every state's items can be completed (`Items.Closing`), what has been read
without an error is the beginning of a sentence (`Spells.completes`).

Key definitions: `ShiftReduce.Edge`, `ShiftReduce.Items`, `ShiftReduce.Spells`,
`ShiftReduce.Clean`, `ShiftReduce.Typed`, `ShiftReduce.Items.Closing`.
Key theorems: `ShiftReduce.CleanReach.carries`, `ShiftReduce.Spells.ready`,
`ShiftReduce.Spells.next`, `ShiftReduce.Spells.finish`, `ShiftReduce.Spells.completes`.
-/
import Apisan.Lib.ContextFree
import Apisan.Lib.ShiftReduce

namespace ShiftReduce

open Machine ContextFree

section

variable {σ τ ν π α ε : Type*} (T : Tables σ τ ν π) (G : Productions τ ν π)

/-- The table leads from one state to another on a symbol. -/
def Edge (s : σ) : Symbol τ ν → σ → Prop
  | .terminal t, s' => T.action s (some t) = .shift s'
  | .nonterminal n, s' => T.goto s n = some s'

/-- The first symbols of a production have been read before the state: all but
none of them are in its kernel, and for none the table waits for the left side. -/
def Ready (kernel : σ → List (π × ℕ)) (s : σ) (p : π) : ℕ → Prop
  | 0 => (T.goto s (T.lhs p)).isSome = true
  | i + 1 => (p, i + 1) ∈ kernel s

/-- The kernel items of the states: productions, with how many symbols of the
right side have been read. -/
structure Items where
  kernel : σ → List (π × ℕ)
  lhs_eq : ∀ p, T.lhs p = G.lhs p
  length_eq : ∀ p, T.length p = (G.rhs p).length
  start_eq : kernel T.start = []
  advance : ∀ {s x s'}, Edge T s x s' → ∀ {p i}, (p, i) ∈ kernel s' →
    ∃ j, i = j + 1 ∧ (G.rhs p)[j]? = some x ∧ Ready T kernel s p j
  reduce : ∀ {s la p}, T.action s la = .reduce p → Ready T kernel s p (T.length p)
  shift_end : ∀ s s', T.action s none ≠ .shift s'

/-- The stack spells the word: a piece for each entry, of the symbol that led to
its state. -/
inductive Spells (R : Symbol τ ν → α → List τ → Prop) : List (σ × α) → List τ → Prop
  | nil : Spells R [] []
  | cons {st : List (σ × α)} {w u : List τ} {x : Symbol τ ν} {s : σ} {v : α} : Spells R st w →
    Edge T (top T st) x s → R x v u → Spells R ((s, v) :: st) (w ++ u)

variable {T G}

/-- **What an item says of the stack**: the symbols read of the production are
its top entries, and below them its left side is awaited. -/
theorem Spells.ready {R : Symbol τ ν → α → List τ → Prop} (I : Items T G) {p : π} : ∀ {i : ℕ}
    {st : List (σ × α)} {w : List τ}, Spells T R st w → Ready T I.kernel (top T st) p i →
    ∃ fr st' w' u, st = fr ++ st' ∧ fr.length = i ∧ w = w' ++ u ∧ Spells T R st' w' ∧
      Pieces R ((G.rhs p).take i) (fr.map Prod.snd).reverse u ∧ (T.goto (top T st') (T.lhs p)).isSome = true
  | 0, st, w, hst, hready => ⟨[], st, w, [], rfl, rfl, (List.append_nil w).symm, hst, .nil, hready⟩
  | i + 1, st, w, hst, hready => by
    cases hst with
    | nil =>
      have hkernel : (p, i + 1) ∈ I.kernel T.start := hready
      rw [I.start_eq] at hkernel
      cases hkernel
    | cons hst hedge hpiece =>
      rename_i st₁ w₁ u₁ x s v
      obtain ⟨j, hj, hx, hready'⟩ := I.advance hedge hready
      obtain rfl : i = j := Nat.succ.inj hj
      obtain ⟨fr, st', w', u, rfl, hlen, rfl, hst', hpieces, hgoto⟩ := Spells.ready I hst hready'
      refine ⟨(s, v) :: fr, st', w', u ++ u₁, rfl, by simp [hlen], List.append_assoc _ _ _, hst', ?_, hgoto⟩
      have hlt : i < (G.rhs p).length := (List.getElem?_eq_some_iff.mp hx).1
      have htake : (G.rhs p).take (i + 1) = (G.rhs p).take i ++ [x] := by
        rw [List.take_add_one, hx]
        rfl
      rw [htake, List.map_cons, List.reverse_cons]
      exact hpieces.concat hpiece

/-- What a reduction replaces: a piece for each symbol of the right side. -/
theorem Spells.reduce {R : Symbol τ ν → α → List τ → Prop} (I : Items T G) {p : π} {st : List (σ × α)}
    {w : List τ} {la : Option τ} (hst : Spells T R st w) (hact : T.action (top T st) la = .reduce p) :
    ∃ fr st' w' u s, st = fr ++ st' ∧ fr.length = T.length p ∧ w = w' ++ u ∧ Spells T R st' w' ∧
      Pieces R (G.rhs p) (fr.map Prod.snd).reverse u ∧ T.goto (top T st') (T.lhs p) = some s := by
  obtain ⟨fr, st', w', u, hfr, hlen, hw, hst', hpieces, hgoto⟩ := hst.ready I (I.reduce hact)
  obtain ⟨s, hs⟩ := Option.isSome_iff_exists.mp hgoto
  rw [I.length_eq, List.take_length] at hpieces
  exact ⟨fr, st', w', u, s, hfr, hlen, hw, hst', hpieces, hs⟩

/-! ### Runs without an error -/

variable {sem : π → List α → Except ε α} {eof : Option ε}

variable (T sem eof) in
/-- A step that meets no error. -/
def Clean (c d : Config σ τ α) : Prop :=
  Next (step T sem eof) c d ∧ T.action (top T c.stack) (c.input.head?.map Prod.fst) ≠ .error

variable (T sem eof) in
/-- Any number of steps without an error. -/
abbrev CleanReach : Config σ τ α → Config σ τ α → Prop := Relation.ReflTransGen (Clean T sem eof)

/-- What has been read is the beginning of the input. -/
theorem CleanReach.suffix {c d : Config σ τ α} (h : CleanReach T sem eof c d) : ∃ u, c.input = u ++ d.input := by
  induction h with
  | refl => exact ⟨[], rfl⟩
  | tail _ hn ih =>
    obtain ⟨u, hu⟩ := ih
    obtain ⟨hn, hclean⟩ := hn
    rcases next_cases hn with ⟨s, t, v, inp, hinp, -, rfl⟩ | ⟨_, _, _, _, _, -, -, -, -, -, rfl⟩ |
      ⟨t, v, inp, hinp, hact, rfl⟩
    · exact ⟨u ++ [(t, v)], by rw [hu, hinp, List.append_assoc]; rfl⟩
    · exact ⟨u, hu⟩
    · rw [hinp] at hclean
      exact absurd hact hclean

theorem CleanReach.reach {c d : Config σ τ α} (h : CleanReach T sem eof c d) :
    Reach (step T sem eof) c d :=
  Relation.ReflTransGen.mono (fun _ _ hn => hn.1) _ _ h

/-- **What a run hands on.** If a shift hands on what its token carries, and a
reduction what the entries it replaces carry, the stack and the input to come
carry what the whole input does. -/
theorem CleanReach.carries {β : Type*} {f : σ × α → List β} {g : τ × α → List β} {inp : List (τ × α)}
    (hshift : ∀ s t v s', T.action s (some t) = .shift s' → f (s', v) = g (t, v))
    (hreduce : ∀ c p fr st s v, CleanReach T sem eof ⟨[], inp⟩ c → c.stack = fr ++ st →
      fr.length = T.length p → T.action (top T c.stack) (c.input.head?.map Prod.fst) = .reduce p →
      sem p (fr.map Prod.snd).reverse = .ok v → T.goto (top T st) (T.lhs p) = some s →
      f (s, v) = fr.reverse.flatMap f)
    {c : Config σ τ α} (h : CleanReach T sem eof ⟨[], inp⟩ c) :
    c.stack.reverse.flatMap f ++ c.input.flatMap g = inp.flatMap g := by
  induction h with
  | refl => rfl
  | @tail c d hc hn ih =>
    obtain ⟨hn, hclean⟩ := hn
    rcases next_cases hn with ⟨s, t, v, inp', hinp, hact, rfl⟩ |
      ⟨p, s, v, fr, st, hfr, hlen, hact, hsem, hgoto, rfl⟩ | ⟨t, v, inp', hinp, hact, rfl⟩
    · rw [← ih, hinp]
      simp [hshift _ _ v _ hact]
    · rw [← ih, hfr]
      simp [hreduce c p fr st s v hc hfr hlen hact hsem hgoto]
    · rw [hinp] at hclean
      exact absurd hact hclean

/-- What the values stand for: tokens for themselves, and the value of a
production for what the values of its right side do. -/
structure Meaning (G : Productions τ ν π) (sem : π → List α → Except ε α) (I : τ × α → Prop)
    (R : Symbol τ ν → α → List τ → Prop) : Prop where
  token : ∀ {t v}, I (t, v) → R (.terminal t) v [t]
  production : ∀ {p vs v u}, Pieces R (G.rhs p) vs u → sem p vs = .ok v → R (.nonterminal (G.lhs p)) v u

/-- **A step without an error** reads a token or none, and the stack spells what
has been read. -/
theorem Spells.next {R : Symbol τ ν → α → List τ → Prop} {J : τ × α → Prop} (I : Items T G)
    (hR : Meaning G sem J R) {c d : Config σ τ α} {w : List τ} (h : Clean T sem eof c d)
    (hc : Spells T R c.stack w) (hin : ∀ x ∈ c.input, J x) :
    ∃ u, c.input = u ++ d.input ∧ Spells T R d.stack (w ++ u.map Prod.fst) := by
  obtain ⟨hn, hclean⟩ := h
  rcases next_cases hn with ⟨s, t, v, inp, hinp, hact, rfl⟩ |
    ⟨p, s, v, fr, st, hfr, hlen, hact, hsem, hgoto, rfl⟩ | ⟨t, v, inp, hinp, hact, rfl⟩
  · have htoken : J (t, v) := hin _ (by rw [hinp]; exact List.mem_cons_self)
    have hedge : Edge T (top T c.stack) (.terminal t) s := hact
    exact ⟨[(t, v)], hinp, hc.cons hedge (hR.token htoken)⟩
  · obtain ⟨fr', st', w', u, s', hfr', hlen', hw, hst', hpieces, hgoto'⟩ := hc.reduce I hact
    obtain ⟨rfl, rfl⟩ : fr = fr' ∧ st = st' :=
      List.append_inj (hfr.symm.trans hfr') (hlen.trans hlen'.symm)
    have hedge : Edge T (top T st) (.nonterminal (G.lhs p)) s := by
      rw [← I.lhs_eq]
      exact hgoto
    refine ⟨[], rfl, ?_⟩
    rw [List.map_nil, List.append_nil, hw]
    exact hst'.cons hedge (hR.production hpieces hsem)
  · rw [hinp] at hclean
    exact absurd hact hclean

theorem Spells.reach {R : Symbol τ ν → α → List τ → Prop} {J : τ × α → Prop} (I : Items T G)
    (hR : Meaning G sem J R) {inp : List (τ × α)} {c : Config σ τ α}
    (h : CleanReach T sem eof ⟨[], inp⟩ c) (hin : ∀ x ∈ inp, J x) :
    ∃ u, inp = u ++ c.input ∧ Spells T R c.stack (u.map Prod.fst) := by
  induction h with
  | refl => exact ⟨[], rfl, .nil⟩
  | tail _ hn ih =>
    obtain ⟨u, rfl, hu⟩ := ih
    obtain ⟨u', hinp, hu'⟩ := hu.next I hR hn fun x hx => hin x (List.mem_append_right u hx)
    refine ⟨u ++ u', ?_, ?_⟩
    · rw [List.append_assoc, ← hinp]
    · rw [List.map_append]
      exact hu'

/-- The top entry, where no reduction leads to its state: the token read last. -/
theorem top_token {inp : List (τ × α)} {c : Config σ τ α} (h : CleanReach T sem eof ⟨[], inp⟩ c) {s : σ}
    (hs : ∀ s' n, T.goto s' n ≠ some s) {v : α} {st : List (σ × α)} (hc : c.stack = (s, v) :: st) :
    ∃ u t, inp = u ++ (t, v) :: c.input ∧ T.action (top T st) (some t) = .shift s := by
  cases h with
  | refl => cases hc
  | @tail d _ hd hn =>
    obtain ⟨hn, hclean⟩ := hn
    rcases next_cases hn with ⟨s', t, v', inp', hinp, hact, rfl⟩ |
      ⟨p, s', v', fr, st', hfr, hlen, hact, hsem, hgoto, rfl⟩ | ⟨t, v', inp', hinp, hact, rfl⟩
    · cases hc
      obtain ⟨u, hu⟩ := CleanReach.suffix hd
      rw [hinp] at hu
      exact ⟨u, t, hu, hact⟩
    · cases hc
      exact absurd hgoto (hs _ _)
    · rw [hinp] at hclean
      exact absurd hact hclean

/-- **A run without an error ends** at an error, where the table accepts, or with
what an action or the lexer raises. -/
theorem Spells.finish {R : Symbol τ ν → α → List τ → Prop} {J : τ × α → Prop} (I : Items T G) (rank : Rank T)
    (hR : Meaning G sem J R) : ∀ (n : ℕ) {c : Config σ τ α} {w : List τ}, rank.measure c < n →
    Spells T R c.stack w → (∀ x ∈ c.input, J x) → ∃ d, CleanReach T sem eof c d ∧
      (T.action (top T d.stack) (d.input.head?.map Prod.fst) = .error ∨
        T.action (top T d.stack) (d.input.head?.map Prod.fst) = .accept ∨
        ∃ e, step T sem eof d = .inr (.raised e))
  | 0, _, _, hn, _, _ => by omega
  | n + 1, ⟨st, inp⟩, w, hn, hst, hin => by
    -- a step without an error goes on to where the rest of the run ends
    have hgo : ∀ d, Clean T sem eof ⟨st, inp⟩ d → ∃ e, CleanReach T sem eof ⟨st, inp⟩ e ∧
        (T.action (top T e.stack) (e.input.head?.map Prod.fst) = .error ∨
          T.action (top T e.stack) (e.input.head?.map Prod.fst) = .accept ∨
          ∃ x, step T sem eof e = .inr (.raised x)) := by
      intro d hd
      have hlt := rank.measure_lt sem eof _ _ hd.1
      obtain ⟨u, hu, hspells⟩ := hst.next I hR hd hin
      have hin' : ∀ x ∈ d.input, J x := fun x hx => hin x (hu ▸ List.mem_append_right u hx)
      obtain ⟨e, he, hend⟩ := Spells.finish I rank hR n (by omega) hspells hin'
      exact ⟨e, .head hd he, hend⟩
    cases hact : T.action (top T st) (inp.head?.map Prod.fst) with
    | error => exact ⟨_, .refl, .inl hact⟩
    | accept => exact ⟨_, .refl, .inr (.inl hact)⟩
    | shift s =>
      cases inp with
      | nil => exact absurd hact (I.shift_end _ _)
      | cons x inp => exact hgo _ ⟨next_shift hact, fun herror => nomatch hact.symm.trans herror⟩
    | reduce p =>
      obtain ⟨fr, st', w', u, s, rfl, hlen, rfl, hst', hpieces, hgoto⟩ := hst.reduce I hact
      by_cases hseen : Seen eof inp
      · cases hsem : sem p (fr.map Prod.snd).reverse with
        | error e => exact ⟨_, .refl, .inr (.inr ⟨e, halt_raise hseen hact hlen hsem⟩)⟩
        | ok v => exact hgo _ ⟨next_reduce hseen hact hlen hsem hgoto, fun herror => nomatch hact.symm.trans herror⟩
      · cases eof with
        | none => exact absurd (.inr rfl) hseen
        | some e =>
          obtain rfl : inp = [] := by
            by_contra hne
            exact hseen (.inl hne)
          exact ⟨_, .refl, .inr (.inr ⟨e, halt_eof _⟩)⟩

/-! ### Values that fit their symbols -/

/-- A symbol with a value of its kind and a word that it derives. -/
def Typed (G : Productions τ ν π) (token : τ → α → Prop) (fits : ν → α → Prop) : Symbol τ ν → α → List τ → Prop
  | .terminal t, v, u => token t v ∧ u = [t]
  | .nonterminal n, v, u => fits n v ∧ Yields G [.nonterminal n] u

theorem Typed.yields {token : τ → α → Prop} {fits : ν → α → Prop} : ∀ {x : Symbol τ ν} {v : α} {u : List τ},
    Typed G token fits x v u → Yields G [x] u
  | .terminal t, _, _, h => by
    obtain ⟨-, rfl⟩ := h
    exact .terminal t .nil
  | .nonterminal _, _, _, h => h.2

/-- Actions that keep the kinds of values: they stand for what is derived. -/
theorem Meaning.typed {J : τ × α → Prop} {token : τ → α → Prop} {fits : ν → α → Prop}
    (htoken : ∀ t v, J (t, v) → token t v)
    (hsem : ∀ p vs v u, Pieces (Typed G token fits) (G.rhs p) vs u → sem p vs = .ok v → fits (G.lhs p) v) :
    Meaning G sem J (Typed G token fits) where
  token h := ⟨htoken _ _ h, rfl⟩
  production hvs hv := ⟨hsem _ _ _ _ hvs hv, (hvs.yields fun _ _ _ hx => hx.yields).production⟩

/-! ### Every stack can be completed -/

variable (G) in
/-- What a symbol derives. -/
def Derived (x : Symbol τ ν) (_ : Unit) (u : List τ) : Prop := Yields G [x] u

/-- How to complete a stack: an item for each state, so that completing its
production leaves a shorter stack or one of lower rank, and the final state. -/
structure Items.Closing (I : Items T G) (start : ν) where
  final : σ
  item : σ → π × ℕ
  rank : σ → ℕ
  start_edge : ∀ {s x}, ¬ Edge T s x T.start
  final_edge : ∀ {s x}, Edge T s x final → s = T.start ∧ x = .nonterminal start
  mem : ∀ {s}, s ≠ T.start → s ≠ final → (item s).2 ≠ 0 ∧ item s ∈ I.kernel s
  lower : ∀ {s s' g}, s ≠ final → (item s).2 = 1 → T.goto s' (T.lhs (item s).1) = some g → rank g < rank s
  productive : ∀ n, ∃ w, Yields G [.nonterminal n] w

/-- Below the final state there is nothing. -/
theorem Items.Closing.final_stack {I : Items T G} {start : ν} (C : I.Closing start)
    {R : Symbol τ ν → α → List τ → Prop} {st : List (σ × α)} {w : List τ} {v : α}
    (h : Spells T R ((C.final, v) :: st) w) : st = [] ∧ R (.nonterminal start) v w := by
  cases h with
  | cons hst hedge hpiece =>
    obtain ⟨htop, rfl⟩ := C.final_edge hedge
    cases hst with
    | nil => exact ⟨rfl, hpiece⟩
    | cons _ hedge' _ =>
      obtain rfl : _ = T.start := htop
      exact absurd hedge' C.start_edge

/-- **A stack can be completed** to a sentence. -/
theorem Spells.viable {I : Items T G} {start : ν} (C : I.Closing start) : ∀ {st : List (σ × Unit)}
    {w : List τ}, Spells T (Derived G) st w → ∃ x, Yields G [.nonterminal start] (w ++ x)
  | [], _, .nil => C.productive start
  | (s, v) :: st, w, h => by
    by_cases hfinal : s = C.final
    · subst hfinal
      exact ⟨[], by rw [List.append_nil]; exact (C.final_stack h).2⟩
    · have hstart : s ≠ T.start := by
        cases h with
        | cons _ hedge _ =>
          rintro rfl
          exact C.start_edge hedge
      obtain ⟨hne, hmem⟩ := C.mem hstart hfinal
      obtain ⟨i, hi⟩ := Nat.exists_eq_succ_of_ne_zero hne
      have hready : Ready T I.kernel s (C.item s).1 (i + 1) := by
        rw [show C.item s = ((C.item s).1, i + 1) from Prod.ext rfl hi] at hmem
        exact hmem
      obtain ⟨fr, st', w', u, hst, hlen, rfl, hst', hpieces, hgoto⟩ := h.ready I hready
      obtain ⟨g, hg⟩ := Option.isSome_iff_exists.mp hgoto
      -- the rest of the production, and then its left side in place of what was read
      obtain ⟨y, hy⟩ := exists_yields C.productive ((G.rhs (C.item s).1).drop (i + 1))
      have hrhs := (hpieces.yields fun _ _ _ hx => hx).append hy
      rw [List.take_append_drop] at hrhs
      have hedge : Edge T (top T st') (.nonterminal (G.lhs (C.item s).1)) g := by
        rw [← I.lhs_eq]
        exact hg
      have hnew : Spells T (Derived G) ((g, ()) :: st') (w' ++ (u ++ y)) := hst'.cons hedge hrhs.production
      have hlength : st.length + 1 = i + 1 + st'.length := by
        have hlength := congrArg List.length hst
        rw [List.length_append, hlen] at hlength
        exact hlength
      have hlower : i = 0 → C.rank g < C.rank s := fun h0 => C.lower hfinal (by rw [hi, h0]) hg
      obtain ⟨x, hx⟩ := Spells.viable C hnew
      exact ⟨y ++ x, by simpa using hx⟩
termination_by st => (st.length, C.rank (top T st))
decreasing_by
  rcases Nat.eq_zero_or_pos i with h0 | hpos
  · have hsame : st'.length = st.length := by omega
    rw [List.length_cons, List.length_cons, hsame]
    exact Prod.Lex.right _ (hlower h0)
  · have hshorter : ((g, ()) :: st').length < ((s, v) :: st).length := by
      rw [List.length_cons, List.length_cons]
      omega
    exact Prod.Lex.left _ _ hshorter

theorem top_erase (st : List (σ × α)) : top T (st.map fun x => (x.1, ())) = top T st := by
  cases st <;> rfl

/-- A stack of values that stand for what their symbols derive can be
completed. -/
theorem Spells.completes {I : Items T G} {start : ν} (C : I.Closing start) {R : Symbol τ ν → α → List τ → Prop}
    (hR : ∀ x v u, R x v u → Yields G [x] u) {st : List (σ × α)} {w : List τ} (h : Spells T R st w) :
    ∃ x, Yields G [.nonterminal start] (w ++ x) := by
  have herase : Spells T (Derived G) (st.map fun x => (x.1, ())) w := by
    induction h with
    | nil => exact .nil
    | cons _ hedge hpiece ih =>
      refine ih.cons ?_ (hR _ _ _ hpiece)
      rw [top_erase]
      exact hedge
  exact herase.viable C

end

end ShiftReduce
