/-
# A run moved onto another stack

A run from the empty stack stands on the start state only. Where another state
behaves like it, and the next token like the end of the input (`Relocation`), the
run can be made on top of any stack with that state (`Relocation.reach`), and what
an action raises is raised there as well (`Relocation.raised`).

Key definitions: `ShiftReduce.Relocation`, `ShiftReduce.Relocation.stack`.
Key theorems: `ShiftReduce.Relocation.reach`, `ShiftReduce.Relocation.raised`.
-/
import Apisan.Lib.Items

namespace ShiftReduce

open Machine

section

variable {σ τ ν π α ε : Type*}

/-- Each state has one that does the same above the state `b` and before the
terminal `x`, as the state itself does above the start state and before the end. -/
structure Relocation (T : Tables σ τ ν π) (b : σ) (x : τ) where
  state : σ → σ
  start : state T.start = b
  shift : ∀ {s t s'}, T.action s (some t) = .shift s' → T.action (state s) (some t) = .shift (state s')
  reduce : ∀ {s t p}, T.action s (some t) = .reduce p → T.action (state s) (some t) = .reduce p
  reduce_end : ∀ {s p}, T.action s none = .reduce p → T.action (state s) (some x) = .reduce p
  goto : ∀ {s n g}, T.goto s n = some g → T.goto (state s) n = some (state g)

namespace Relocation

variable {T : Tables σ τ ν π} {sem : π → List α → Except ε α} {b : σ} {x : τ} (R : Relocation T b x)

/-- The stack moved onto another one. -/
def stack (st fr : List (σ × α)) : List (σ × α) := (fr.map fun y => (R.state y.1, y.2)) ++ st

theorem stack_append (st fr fr' : List (σ × α)) :
    R.stack st (fr ++ fr') = (fr.map fun y => (R.state y.1, y.2)) ++ R.stack st fr' := by
  simp [stack]

theorem top_stack {st : List (σ × α)} (hst : top T st = b) (fr : List (σ × α)) :
    top T (R.stack st fr) = R.state (top T fr) := by
  cases fr with
  | nil => exact hst.trans R.start.symm
  | cons y fr => rfl

/-- The reductions are the same, also at what was the end. -/
theorem action_reduce {st fr : List (σ × α)} (hst : top T st = b) (v : α) (more : List (τ × α))
    {inp : List (τ × α)} {p : π} (h : T.action (top T fr) (inp.head?.map Prod.fst) = .reduce p) :
    T.action (top T (R.stack st fr)) ((inp ++ (x, v) :: more).head?.map Prod.fst) = .reduce p := by
  rw [R.top_stack hst]
  cases inp with
  | nil => exact R.reduce_end h
  | cons y inp => exact R.reduce h

theorem next {st : List (σ × α)} (hst : top T st = b) {c d : Config σ τ α} (h : Clean T sem none c d) (v : α)
    (more : List (τ × α)) : Next (step T sem none) ⟨R.stack st c.stack, c.input ++ (x, v) :: more⟩
      ⟨R.stack st d.stack, d.input ++ (x, v) :: more⟩ := by
  obtain ⟨hn, hclean⟩ := h
  rcases next_cases hn with ⟨s, t, w, inp, hinp, hact, rfl⟩ |
    ⟨p, s, w, fr, st', hfr, hlen, hact, hsem, hgoto, rfl⟩ | ⟨t, w, inp, hinp, hact, rfl⟩
  · rw [hinp]
    apply next_shift
    rw [R.top_stack hst]
    exact R.shift hact
  · have hact' := R.action_reduce hst v more hact
    rw [hfr, stack_append] at hact' ⊢
    refine next_reduce (.inr rfl) hact' (by rw [List.length_map, hlen]) ?_ ?_
    · rw [List.map_map]
      exact hsem
    · rw [R.top_stack hst]
      exact R.goto hgoto
  · rw [hinp] at hclean
    exact absurd hact hclean

/-- **A run without an error moves** onto any stack with the state. -/
theorem reach {st : List (σ × α)} (hst : top T st = b) {inp : List (τ × α)} {c : Config σ τ α}
    (h : CleanReach T sem none ⟨[], inp⟩ c) (v : α) (more : List (τ × α)) :
    Reach (step T sem none) ⟨st, inp ++ (x, v) :: more⟩ ⟨R.stack st c.stack, c.input ++ (x, v) :: more⟩ := by
  induction h with
  | refl => exact .refl
  | tail _ hn ih => exact ih.tail (R.next hst hn v more)

/-- What an action raises moves with the run. -/
theorem raised {st : List (σ × α)} (hst : top T st = b) {c : Config σ τ α} {e : ε}
    (h : step T sem none c = .inr (.raised e)) (v : α) (more : List (τ × α)) :
    step T sem none ⟨R.stack st c.stack, c.input ++ (x, v) :: more⟩ = .inr (.raised e) := by
  obtain ⟨p, fr, st', hfr, hlen, hact, hsem⟩ := halt_raised h
  have hact' := R.action_reduce hst v more hact
  rw [hfr, stack_append] at hact' ⊢
  refine halt_raise (.inr rfl) hact' (by rw [List.length_map, hlen]) ?_
  rw [List.map_map]
  exact hsem

end Relocation

end

end ShiftReduce
