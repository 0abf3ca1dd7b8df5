/-
# Closed intervals in order

A set of points of a linear order as a list of closed intervals, each of them
before the next. Keeping what lies between two bounds takes one pass over the
list (`points_clip`), and the passes for two bounds in order can be put one
after the other (`Ordered.clip_append`).

An arc runs from one bound to the other; one whose first bound is above the
second goes around the end of the order.

Key definitions: `Intervals.points`, `Intervals.Ordered`, `Intervals.clip`,
`Intervals.arc`.
Key theorems: `Intervals.points_clip`, `Intervals.Ordered.clip_append`.
-/
import Mathlib.Order.Lattice
import Mathlib.Order.Interval.Set.Basic
import Mathlib.Data.List.Basic
import Mathlib.Tactic.Tauto
import Mathlib.Tactic.SplitIfs

namespace Intervals

variable {α : Type*} [LinearOrder α]

/-- The points of the intervals. -/
def points (is : List (α × α)) : Set α := {x | ∃ i ∈ is, i.1 ≤ x ∧ x ≤ i.2}

/-- No interval is empty, and each ends before those after it begin. -/
structure Ordered (is : List (α × α)) : Prop where
  nonempty : ∀ i ∈ is, i.1 ≤ i.2
  apart : is.Pairwise fun i j => i.2 < j.1

/-- What the intervals have between two bounds. -/
def clip (lo hi : α) : List (α × α) → List (α × α)
  | [] => []
  | i :: is => if max i.1 lo ≤ min i.2 hi then (max i.1 lo, min i.2 hi) :: clip lo hi is else clip lo hi is

/-- From one bound up to the other, around the end of the order if that is
below. -/
def arc (lo hi : α) : Set α := {x | if lo ≤ hi then lo ≤ x ∧ x ≤ hi else x ≤ hi ∨ lo ≤ x}

variable {lo hi x : α} {i : α × α} {is js : List (α × α)}

theorem mem_points : x ∈ points is ↔ ∃ i ∈ is, i.1 ≤ x ∧ x ≤ i.2 := Iff.rfl

@[simp] theorem points_nil : points ([] : List (α × α)) = ∅ := by
  ext x
  simp [mem_points]

theorem mem_points_cons : x ∈ points (i :: is) ↔ (i.1 ≤ x ∧ x ≤ i.2) ∨ x ∈ points is := by
  simp [mem_points]

theorem mem_points_append : x ∈ points (is ++ js) ↔ x ∈ points is ∨ x ∈ points js := by
  simp only [mem_points, List.mem_append, or_and_right, exists_or]

theorem mem_arc_of_le (h : lo ≤ hi) : x ∈ arc lo hi ↔ lo ≤ x ∧ x ≤ hi := by
  show (if lo ≤ hi then lo ≤ x ∧ x ≤ hi else x ≤ hi ∨ lo ≤ x) ↔ _
  rw [if_pos h]

theorem mem_arc_of_lt (h : hi < lo) : x ∈ arc lo hi ↔ x ≤ hi ∨ lo ≤ x := by
  show (if lo ≤ hi then lo ≤ x ∧ x ≤ hi else x ≤ hi ∨ lo ≤ x) ↔ _
  rw [if_neg h.not_ge]

namespace Ordered

theorem nil : Ordered ([] : List (α × α)) := ⟨fun _ h => (List.not_mem_nil h).elim, .nil⟩

theorem cons_iff : Ordered (i :: is) ↔ i.1 ≤ i.2 ∧ (∀ j ∈ is, i.2 < j.1) ∧ Ordered is := by
  constructor
  · rintro ⟨hne, hapart⟩
    rw [List.pairwise_cons] at hapart
    exact ⟨hne i List.mem_cons_self, hapart.1, fun j hj => hne j (List.mem_cons_of_mem i hj), hapart.2⟩
  · rintro ⟨hi, hlt, hne, hapart⟩
    exact ⟨List.forall_mem_cons.mpr ⟨hi, hne⟩, List.pairwise_cons.mpr ⟨hlt, hapart⟩⟩

theorem singleton (h : i.1 ≤ i.2) : Ordered [i] :=
  cons_iff.mpr ⟨h, fun _ hj => (List.not_mem_nil hj).elim, nil⟩

theorem append (h : Ordered is) (h' : Ordered js) (hlt : ∀ i ∈ is, ∀ j ∈ js, i.2 < j.1) :
    Ordered (is ++ js) := by
  refine ⟨fun i hi => ?_, List.pairwise_append.mpr ⟨h.apart, h'.apart, hlt⟩⟩
  rcases List.mem_append.mp hi with hi | hi
  · exact h.nonempty i hi
  · exact h'.nonempty i hi

theorem of_append_right (h : Ordered (is ++ js)) : Ordered js :=
  ⟨fun j hj => h.nonempty j (List.mem_append_right is hj), (List.pairwise_append.mp h.apart).2.1⟩

/-- Intervals without points are none. -/
theorem points_eq_empty (h : Ordered is) : points is = ∅ ↔ is = [] := by
  constructor
  · intro hempty
    rcases is with _ | ⟨i, is⟩
    · rfl
    · have hmem : i.1 ∈ points (i :: is) := mem_points_cons.mpr (.inl ⟨le_rfl, (cons_iff.mp h).1⟩)
      rw [hempty] at hmem
      exact hmem.elim
  · rintro rfl
    exact points_nil

end Ordered

/-- **Clipping keeps the points between the bounds.** -/
theorem points_clip (lo hi : α) : ∀ is : List (α × α),
    points (clip lo hi is) = {x ∈ points is | lo ≤ x ∧ x ≤ hi}
  | [] => by simp [clip]
  | i :: is => by
    have ih := points_clip lo hi is
    ext x
    have hrest : x ∈ points (clip lo hi is) ↔ x ∈ points is ∧ lo ≤ x ∧ x ≤ hi := by
      rw [ih]
      rfl
    have hfirst : (max i.1 lo ≤ x ∧ x ≤ min i.2 hi) ↔ (i.1 ≤ x ∧ x ≤ i.2) ∧ lo ≤ x ∧ x ≤ hi := by
      rw [sup_le_iff, le_inf_iff]
      tauto
    show x ∈ points (clip lo hi (i :: is)) ↔ x ∈ points (i :: is) ∧ lo ≤ x ∧ x ≤ hi
    rw [clip, mem_points_cons, or_and_right, ← hfirst]
    by_cases h : max i.1 lo ≤ min i.2 hi
    · rw [if_pos h, mem_points_cons, hrest]
    · rw [if_neg h, hrest]
      have hnone : ¬ (max i.1 lo ≤ x ∧ x ≤ min i.2 hi) := fun hx => h (hx.1.trans hx.2)
      exact (or_iff_right hnone).symm

/-- What is left of an interval lies within it and the bounds. -/
theorem mem_clip {j : α × α} : ∀ {is : List (α × α)}, j ∈ clip lo hi is →
    lo ≤ j.1 ∧ j.1 ≤ j.2 ∧ j.2 ≤ hi ∧ ∃ i ∈ is, i.1 ≤ j.1 ∧ j.2 ≤ i.2
  | i :: is, hj => by
    rw [clip] at hj
    have hrest : j ∈ clip lo hi is →
        lo ≤ j.1 ∧ j.1 ≤ j.2 ∧ j.2 ≤ hi ∧ ∃ i' ∈ i :: is, i'.1 ≤ j.1 ∧ j.2 ≤ i'.2 := fun hj => by
      obtain ⟨h1, h2, h3, i', hi', h4⟩ := mem_clip hj
      exact ⟨h1, h2, h3, i', List.mem_cons_of_mem i hi', h4⟩
    by_cases h : max i.1 lo ≤ min i.2 hi
    · rw [if_pos h] at hj
      rcases List.mem_cons.mp hj with rfl | hj
      · exact ⟨le_max_right _ _, h, min_le_right _ _, i, List.mem_cons_self, le_max_left _ _, min_le_left _ _⟩
      · exact hrest hj
    · rw [if_neg h] at hj
      exact hrest hj

namespace Ordered

/-- **Clipping keeps the order.** -/
theorem clip (h : Ordered is) : Ordered (clip lo hi is) := by
  induction is with
  | nil => exact nil
  | cons i is ih =>
    obtain ⟨-, hlt, his⟩ := cons_iff.mp h
    rw [Intervals.clip]
    by_cases hle : max i.1 lo ≤ min i.2 hi
    · rw [if_pos hle, cons_iff]
      refine ⟨hle, fun j hj => ?_, ih his⟩
      obtain ⟨-, -, -, i', hi', hle', -⟩ := mem_clip hj
      calc min i.2 hi ≤ i.2 := min_le_left _ _
        _ < i'.1 := hlt i' hi'
        _ ≤ j.1 := hle'
    · rw [if_neg hle]
      exact ih his

/-- Two passes, the first of them below the second. -/
theorem clip_append {lo' hi' : α} (h : Ordered is) (hlt : hi < lo') :
    Ordered (Intervals.clip lo hi is ++ Intervals.clip lo' hi' is) := by
  refine h.clip.append h.clip fun i hi j hj => ?_
  obtain ⟨-, -, hle, -⟩ := mem_clip hi
  exact lt_of_le_of_lt hle (lt_of_lt_of_le hlt (mem_clip hj).1)

end Ordered

theorem clip_append (is js : List (α × α)) : clip lo hi (is ++ js) = clip lo hi is ++ clip lo hi js := by
  induction is with
  | nil => rfl
  | cons i is ih =>
    rw [List.cons_append, clip, clip, ih]
    split_ifs <;> rfl

/-- Intervals below the lower bound leave nothing. -/
theorem clip_eq_nil_of_lt (h : ∀ i ∈ is, i.2 < lo) : clip lo hi is = [] := by
  induction is with
  | nil => rfl
  | cons i is ih =>
    rw [List.forall_mem_cons] at h
    have hnot : ¬ max i.1 lo ≤ min i.2 hi := fun hle =>
      absurd ((le_max_right _ _).trans (hle.trans (min_le_left _ _))) h.1.not_ge
    rw [clip, if_neg hnot, ih h.2]

/-- Intervals above the upper bound leave nothing. -/
theorem clip_eq_nil_of_gt (h : ∀ i ∈ is, hi < i.1) : clip lo hi is = [] := by
  induction is with
  | nil => rfl
  | cons i is ih =>
    rw [List.forall_mem_cons] at h
    have hnot : ¬ max i.1 lo ≤ min i.2 hi := fun hle =>
      absurd ((le_max_left _ _).trans (hle.trans (min_le_right _ _))) h.1.not_ge
    rw [clip, if_neg hnot, ih h.2]

end Intervals
