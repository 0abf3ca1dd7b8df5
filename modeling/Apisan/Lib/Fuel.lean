/-
# Functions with fuel

A recursive function that need not return is a function of its fuel, `none`
where that runs out. It returns if all large fuels give one result. Functions
built from returning ones by sequencing return, and so does one that spends a
unit of fuel to call a returning one.

Key definition: `Returns`.
Key theorems: `Returns.bind`, `Returns.of_succ`.
-/
import Mathlib.Order.Filter.AtTopBot.Basic

/-- With enough fuel there is one result. -/
def Returns {α : Type*} (f : ℕ → Option α) : Prop := ∃ a, ∀ᶠ n in Filter.atTop, f n = some a

namespace Returns

variable {α β : Type*}

theorem pure (a : α) : Returns fun _ => some a := ⟨a, Filter.Eventually.of_forall fun _ => rfl⟩

theorem bind {f : ℕ → Option α} {g : α → ℕ → Option β} (hf : Returns f) (hg : ∀ a, Returns (g a)) :
    Returns fun n => (f n).bind fun a => g a n := by
  obtain ⟨a, ha⟩ := hf
  obtain ⟨b, hb⟩ := hg a
  refine ⟨b, (ha.and hb).mono fun n hn => ?_⟩
  show ((f n).bind fun a => g a n) = some b
  rw [hn.1, Option.bind_some, hn.2]

theorem map {f : ℕ → Option α} (hf : Returns f) (g : α → β) : Returns fun n => (f n).map g := by
  obtain ⟨a, ha⟩ := hf
  refine ⟨g a, ha.mono fun n hn => ?_⟩
  show (f n).map g = some (g a)
  rw [hn, Option.map_some]

/-- A unit of fuel may be spent first. -/
theorem of_succ {f : ℕ → Option α} (h : Returns fun n => f (n + 1)) : Returns f := by
  obtain ⟨a, ha⟩ := h
  obtain ⟨N, hN⟩ := Filter.eventually_atTop.mp ha
  refine ⟨a, Filter.eventually_atTop.mpr ⟨N + 1, fun n hn => ?_⟩⟩
  obtain ⟨k, rfl⟩ := Nat.exists_eq_add_of_le hn
  have hk : f (N + k + 1) = some a := hN (N + k) (Nat.le_add_right N k)
  rwa [Nat.add_right_comm] at hk

end Returns
