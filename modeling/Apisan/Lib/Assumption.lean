/-
# Assuming conditions one after the other

An abstract state admits concrete states, and assuming a condition of it gives
an abstract state again, or none. If a step keeps just the concrete states of
which the condition holds, then a run keeps just those of which all conditions
hold, and ends with none exactly if there are none (`assumeAll_exact`).

Where a step leads to several states, a run explores them all, and what some
successor of each step keeps, some state at the end has (`explore_exists`).

Key definitions: `Assumption.assumeAll`, `Assumption.Exact`, `Assumption.explore`.
Key theorems: `Assumption.assumeAll_exact`, `Assumption.explore_exists`.
-/
import Mathlib.Logic.Basic
import Mathlib.Data.List.Basic

namespace Assumption

variable {S C A : Type*}

/-! ### One state after the other -/

section

variable (assume : S → A → Option S) (admits : S → C → Prop) (holds : C → A → Prop)

/-- Assume the conditions, until one is infeasible. -/
def assumeAll : S → List A → Option S
  | s, [] => some s
  | s, a :: as => (assume s a).bind fun s => assumeAll s as

/-- The step keeps just the concrete states of which the condition holds, in
abstract states with an invariant. -/
structure Exact (inv : S → Prop) (a : A) : Prop where
  feasible : ∀ s s', inv s → assume s a = some s' →
    inv s' ∧ ∀ c, admits s' c ↔ admits s c ∧ holds c a
  infeasible : ∀ s, inv s → assume s a = none → ∀ c, admits s c → ¬ holds c a

variable {assume admits holds} {s s' : S} {as : List A}

/-- What a run leaves of a state: just the concrete states of which all
conditions hold, or none if there are none. -/
structure Leaves (assume : S → A → Option S) (admits : S → C → Prop) (holds : C → A → Prop) (inv : S → Prop)
    (s : S) (as : List A) : Prop where
  feasible : ∀ s', assumeAll assume s as = some s' →
    inv s' ∧ ∀ c, admits s' c ↔ admits s c ∧ ∀ a ∈ as, holds c a
  infeasible : assumeAll assume s as = none → ∀ c, admits s c → ¬ ∀ a ∈ as, holds c a

/-- **An exact run** keeps just the concrete states of which all conditions
hold. -/
theorem assumeAll_exact {inv : S → Prop} (h : ∀ a ∈ as, Exact assume admits holds inv a) (hs : inv s) :
    Leaves assume admits holds inv s as := by
  induction as generalizing s with
  | nil =>
    refine ⟨fun s' hrun => ?_, fun hrun => (Option.some_ne_none _ hrun).elim⟩
    obtain rfl := Option.some.inj hrun
    exact ⟨hs, fun c => (and_iff_left fun a ha => (List.not_mem_nil ha).elim).symm⟩
  | cons a as ih =>
    rw [List.forall_mem_cons] at h
    have hrun : ∀ s₁, assume s a = some s₁ → assumeAll assume s (a :: as) = assumeAll assume s₁ as := by
      intro s₁ hstep
      rw [assumeAll, hstep]
      rfl
    constructor
    · intro s' hfeasible
      obtain ⟨s₁, hstep, hrest⟩ := Option.bind_eq_some_iff.mp hfeasible
      obtain ⟨hs₁, hadmits⟩ := h.1.feasible s s₁ hs hstep
      obtain ⟨hs', hall⟩ := (ih h.2 hs₁).feasible s' hrest
      refine ⟨hs', fun c => ?_⟩
      rw [hall, hadmits, List.forall_mem_cons, and_assoc]
    · intro hinfeasible c hc hall
      rw [List.forall_mem_cons] at hall
      cases hstep : assume s a with
      | none => exact h.1.infeasible s hs hstep c hc hall.1
      | some s₁ =>
        obtain ⟨hs₁, hadmits⟩ := h.1.feasible s s₁ hs hstep
        exact (ih h.2 hs₁).infeasible (hrun s₁ hstep ▸ hinfeasible) c ((hadmits c).mpr ⟨hc, hall.1⟩) hall.2

end

/-! ### Several states -/

section

variable (next : S → A → List S)

/-- The states that the steps lead to. -/
def explore : List A → S → List S
  | [], s => [s]
  | a :: as, s => (next s a).flatMap (explore as)

variable {next} {s : S}

/-- **A run of steps** has a state with what some successor of each step keeps,
of the steps so far. -/
theorem explore_exists {P : List A → S → Prop} {as : List A} (hs : P [] s)
    (hstep : ∀ a ∈ as, ∀ before s, P before s → ∃ s' ∈ next s a, P (before ++ [a]) s') :
    ∃ s' ∈ explore next as s, P as s' := by
  -- the steps before are those so far
  have hgen : ∀ before s, P before s → ∃ s' ∈ explore next as s, P (before ++ as) s' := by
    clear hs
    induction as with
    | nil =>
      intro before s hs
      exact ⟨s, List.mem_singleton_self _, (List.append_nil before).symm ▸ hs⟩
    | cons a as ih =>
      intro before s hs
      rw [List.forall_mem_cons] at hstep
      obtain ⟨s₁, hmem, hs₁⟩ := hstep.1 before s hs
      obtain ⟨s', hmem', hs'⟩ := ih hstep.2 (before ++ [a]) s₁ hs₁
      refine ⟨s', List.mem_flatMap.mpr ⟨s₁, hmem, hmem'⟩, ?_⟩
      rwa [List.append_assoc, List.singleton_append] at hs'
  exact hgen [] s hs

end

end Assumption
