/-
# Step machines

A loop is a step function `σ → σ ⊕ ρ`: a state goes on to the next one or
halts with a result. `run` iterates it with fuel; a state that halts does so
with one result (`run_unique`), and a machine whose steps lower a measure
halts from every state with fuel above the measure (`run_of_measure`).

Two machines whose related states step alike have the same runs
(`run_eq_of_related`).

Key definitions: `Machine.run`, `Machine.halted`, `Machine.Reach`,
`Machine.ReachIn`.
Key theorems: `Machine.run_unique`, `Machine.run_of_measure`,
`Machine.exists_run_of_reach`, `Machine.Reach.invariant`,
`Machine.run_eq_of_related`, `Machine.ReachIn.related`.
-/
import Mathlib.Logic.Relation
import Mathlib.Data.Nat.Init

namespace Machine

variable {σ ρ : Type*} (step : σ → σ ⊕ ρ)

/-- The result from `s`, if the machine halts within `n` steps. -/
def run : ℕ → σ → Option ρ
  | 0, _ => none
  | n + 1, s =>
    match step s with
    | .inl t => run n t
    | .inr r => some r

/-- The state in which the machine halts, if it does within `n` steps. -/
def halted : ℕ → σ → Option σ
  | 0, _ => none
  | n + 1, s =>
    match step s with
    | .inl t => halted n t
    | .inr _ => some s

/-- One step. -/
def Next (s t : σ) : Prop := step s = .inl t

/-- Any number of steps. -/
abbrev Reach : σ → σ → Prop := Relation.ReflTransGen (Next step)

/-- Any number of steps, all from states in `C`. -/
abbrev ReachIn (C : σ → Prop) : σ → σ → Prop := Relation.ReflTransGen fun s t => C s ∧ Next step s t

variable {step}

theorem run_next {n : ℕ} {s t : σ} (h : Next step s t) : run step (n + 1) s = run step n t := by
  simp only [run, show step s = .inl t from h]

theorem run_halt {n : ℕ} {s : σ} {r : ρ} (h : step s = .inr r) : run step (n + 1) s = some r := by
  simp only [run, h]

theorem run_add {r : ρ} (k : ℕ) : ∀ {n : ℕ} {s : σ}, run step n s = some r →
    run step (n + k) s = some r
  | 0, _, h => by simp [run] at h
  | n + 1, s, h => by
    rw [Nat.succ_add]
    cases hs : step s with
    | inl t =>
      rw [run_next hs] at h ⊢
      exact run_add k h
    | inr r' =>
      rw [run_halt hs] at h ⊢
      exact h

theorem run_mono {n m : ℕ} {s : σ} {r : ρ} (hnm : n ≤ m) (h : run step n s = some r) :
    run step m s = some r := by
  obtain ⟨k, rfl⟩ := Nat.exists_eq_add_of_le hnm
  exact run_add k h

/-- A state halts with one result, whatever the fuel. -/
theorem run_unique {n m : ℕ} {s : σ} {r r' : ρ} (h : run step n s = some r)
    (h' : run step m s = some r') : r = r' := by
  rcases Nat.le_total n m with hnm | hnm
  · simpa [run_mono hnm h] using h'
  · simpa [run_mono hnm h'] using h.symm

/-- What holds at the start and is kept by every step holds of every state
reached. -/
theorem Reach.invariant {I : σ → Prop} (hI : ∀ s t, I s → Next step s t → I t) {s t : σ}
    (h : Reach step s t) (hs : I s) : I t := by
  induction h with
  | refl => exact hs
  | tail _ hn ih => exact hI _ _ ih hn

/-- Steps that only meet states in `C`. -/
theorem Reach.reachIn {C : σ → Prop} {s t : σ} (h : Reach step s t) (hC : ∀ u, Reach step s u → C u) :
    ReachIn step C s t := by
  induction h with
  | refl => exact .refl
  | tail hu hn ih => exact ih.tail ⟨hC _ hu, hn⟩

/-- A run goes through steps to the state in which it halts. -/
theorem halted_of_run {r : ρ} : ∀ {n : ℕ} {s : σ}, run step n s = some r →
    ∃ t, halted step n s = some t ∧ Reach step s t ∧ step t = .inr r
  | 0, _, h => by simp [run] at h
  | n + 1, s, h => by
    cases hs : step s with
    | inl t =>
      rw [run_next hs] at h
      obtain ⟨u, hu, hreach, hr⟩ := halted_of_run h
      exact ⟨u, by rw [halted, hs]; exact hu, .head hs hreach, hr⟩
    | inr r' =>
      rw [run_halt hs] at h
      exact ⟨s, by rw [halted, hs], .refl, hs.trans (congrArg Sum.inr (Option.some.inj h))⟩

theorem exists_reach_of_run {n : ℕ} {s : σ} {r : ρ} (h : run step n s = some r) :
    ∃ t, Reach step s t ∧ step t = .inr r := by
  obtain ⟨t, -, ht⟩ := halted_of_run h
  exact ⟨t, ht⟩

/-- Steps lead to one state that halts. -/
theorem Reach.halt_unique {s t u : σ} {r r' : ρ} (ht : Reach step s t) (hr : step t = .inr r)
    (hu : Reach step s u) (hr' : step u = .inr r') : t = u := by
  induction ht using Relation.ReflTransGen.head_induction_on with
  | refl =>
    cases hu.cases_head with
    | inl h => exact h
    | inr h =>
      obtain ⟨v, hv, -⟩ := h
      rw [Next, hr] at hv
      cases hv
  | head hn _ ih =>
    rcases hu.cases_head with rfl | ⟨v, hv, hvu⟩
    · rw [Next, hr'] at hn
      cases hn
    · obtain rfl := Sum.inl.inj (hn.symm.trans hv)
      exact ih hvu

theorem exists_run_of_reach {s t : σ} {r : ρ} (h : Reach step s t) (ht : step t = .inr r) :
    ∃ n, run step n s = some r := by
  induction h using Relation.ReflTransGen.head_induction_on with
  | refl => exact ⟨1, run_halt ht⟩
  | head hn _ ih =>
    obtain ⟨n, h⟩ := ih
    exact ⟨n + 1, (run_next hn).trans h⟩

/-- **Halting.** If every step lowers the measure, fuel above the measure is
enough. -/
theorem run_of_measure (μ : σ → ℕ) (hμ : ∀ s t, Next step s t → μ t < μ s) :
    ∀ {n : ℕ} {s : σ}, μ s < n → ∃ r, run step n s = some r
  | 0, _, h => by omega
  | n + 1, s, h => by
    cases hs : step s with
    | inl t =>
      have := hμ s t hs
      obtain ⟨r, hr⟩ := run_of_measure μ hμ (n := n) (s := t) (by omega)
      exact ⟨r, (run_next hs).trans hr⟩
    | inr r => exact ⟨r, run_halt hs⟩

/-! ### Two machines -/

section

variable {σ' : Type*} {step' : σ' → σ' ⊕ ρ} {R : σ → σ' → Prop}

/-- The steps of two machines from related states: they lead to related states,
or both machines halt with one result. -/
def Alike (step : σ → σ ⊕ ρ) (step' : σ' → σ' ⊕ ρ) (R : σ → σ' → Prop) (s : σ) (t : σ') : Prop :=
  (∃ s' t', Next step s s' ∧ Next step' t t' ∧ R s' t') ∨ ∃ r, step s = .inr r ∧ step' t = .inr r

/-- **Related runs.** The machines halt with one result, if related states from
which only states in `C` are reached step alike. -/
theorem run_eq_of_related {C : σ → Prop} (hstep : ∀ s t, R s t → C s → Alike step step' R s t) :
    ∀ (n : ℕ) {s : σ} {t : σ'}, R s t → (∀ u, Reach step s u → C u) → run step n s = run step' n t
  | 0, _, _, _, _ => rfl
  | n + 1, s, t, h, hC => by
    rcases hstep s t h (hC s .refl) with ⟨s', t', hs, ht, h'⟩ | ⟨r, hs, ht⟩
    · rw [run_next hs, run_next ht]
      exact run_eq_of_related hstep n h' fun u hu => hC u (.head hs hu)
    · rw [run_halt hs, run_halt ht]

/-- What is reached from states in `C` is related to a state that the other
machine reaches. -/
theorem ReachIn.related {C : σ → Prop} (hstep : ∀ s t, R s t → C s → Alike step step' R s t)
    {s s' : σ} {t : σ'} (h : R s t) (hs : ReachIn step C s s') : ∃ t', Reach step' t t' ∧ R s' t' := by
  induction hs with
  | refl => exact ⟨t, .refl, h⟩
  | tail _ hn ih =>
    obtain ⟨hC, hn⟩ := hn
    obtain ⟨t', ht, h'⟩ := ih
    rcases hstep _ t' h' hC with ⟨u, u', hu, hu', hrel⟩ | ⟨r, hr, -⟩
    · obtain rfl := Sum.inl.inj (hn.symm.trans hu)
      exact ⟨u', ht.tail hu', hrel⟩
    · rw [Next, hr] at hn
      cases hn

end

end Machine
