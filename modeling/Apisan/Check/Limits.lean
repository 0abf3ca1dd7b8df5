/-
# What an inequality says

Two intervals that leave out a single value, between limits of one integer
type, are rendered as `!= k`. The limits are looked up in a table of names, in
which 128 stands for the largest value of 8 bits. So `!= k` means all values of
a type but `k`, except where it is said of the values from -128 to 128
(`truthful_iff`).

Key definitions: `IntType.values`, `Increasing`, `union`, `Truthful`.
Key theorems: `humanizeIntervals_startsWith_iff`, `truthful_iff`.
-/
import Mathlib.Order.Interval.Set.Basic
import Mathlib.Algebra.Order.Ring.Int
import Mathlib.Data.Int.ConditionallyCompleteOrder
import Apisan.Check.Printing

namespace Apisan

open Python

/-- An integer type of a fixed width, in two's complement. -/
structure IntType where
  width : ℕ
  signed : Bool
  fixed : width ∈ [8, 16, 32, 64]

/-- The values of a type. -/
def IntType.values (t : IntType) : Set ℤ :=
  if t.signed then Set.Ico (-2 ^ (t.width - 1)) (2 ^ (t.width - 1)) else Set.Ico 0 (2 ^ t.width)

/-- Disjoint intervals, in increasing order. -/
def Increasing (r : List (ℤ × ℤ)) : Prop := (∀ p ∈ r, p.1 ≤ p.2) ∧ r.Pairwise fun p q => p.2 < q.1

/-- The values in the intervals. -/
def union (r : List (ℤ × ℤ)) : Set ℤ := {x | ∃ p ∈ r, p.1 ≤ x ∧ x ≤ p.2}

/-- The text starts with the operator. -/
def StartsWith (s op : String) : Prop := op.toList <+: s.toList

/-- What is rendered as `!= k` are all values of some type but `k`. -/
def Truthful (r : List (ℤ × ℤ)) : Prop :=
  ∀ s, humanizeRange (.intervals r) = .ok s → StartsWith s "!= " →
    ∃ (k : ℤ) (t : IntType), s = "!= " ++ toString k ∧ union r = t.values \ {k}

/-! ### The table of limits -/

/-- The limits of the signed types, as the table has them. -/
def signedLimits : List (ℤ × ℤ) :=
  [(-128, 128), (-32768, 32767), (-2147483648, 2147483647), (-9223372036854775808, 9223372036854775807)]

theorem mem_signedLimits_of_parse : ∀ x ∈ constants, ∀ y ∈ constants, x.1 < y.1 →
    (parseConstantType x.2).toOption = (parseConstantType y.2).toOption → (x.1, y.1) ∈ signedLimits := by
  decide +kernel

theorem exists_parse_of_mem : ∀ x ∈ signedLimits, ∃ l ∈ constants.lookup x.1, ∃ h ∈ constants.lookup x.2,
    ∃ t ∈ (parseConstantType l).toOption, (parseConstantType h).toOption = some t := by
  decide +kernel

theorem mem_of_lookup {n : ℤ} {k : String} (h : constants.lookup n = some k) : (n, k) ∈ constants := by
  obtain ⟨l₁, l₂, hsplit, -⟩ := List.lookup_eq_some_iff.mp h
  rw [hsplit]
  simp

/-- But for those of 8 bits, the limits are those of a type. -/
theorem exists_intType {lo hi : ℤ} (h : (lo, hi) ∈ signedLimits) (hne : hi ≠ 128) :
    ∃ t : IntType, t.values = Set.Icc lo hi := by
  have hvalues : ∀ (w : ℕ) (hw : w ∈ [8, 16, 32, 64]),
      (⟨w, true, hw⟩ : IntType).values = Set.Icc (-2 ^ (w - 1)) (2 ^ (w - 1) - 1) := fun w hw => by
    ext x
    simp only [IntType.values, if_true, Set.mem_Ico, Set.mem_Icc]
    omega
  have hlimits : (lo, hi) = (-2 ^ (16 - 1), 2 ^ (16 - 1) - 1) ∨ (lo, hi) = (-2 ^ (32 - 1), 2 ^ (32 - 1) - 1) ∨
      (lo, hi) = (-2 ^ (64 - 1), 2 ^ (64 - 1) - 1) := by
    have hmem : (lo, hi) ∈ [(-32768, 32767), (-2147483648, 2147483647),
        (-9223372036854775808, 9223372036854775807)] :=
      (List.mem_cons.mp h).resolve_left fun h8 => hne (congrArg Prod.snd h8)
    simpa using hmem
  rcases hlimits with h | h | h
  · cases h
    exact ⟨_, hvalues 16 (by decide)⟩
  · cases h
    exact ⟨_, hvalues 32 (by decide)⟩
  · cases h
    exact ⟨_, hvalues 64 (by decide)⟩

/-! ### Renderings -/

theorem not_startsWith_eq (s : String) : ¬ StartsWith ("== " ++ s) "!= " := by
  simp [StartsWith]

theorem not_startsWith_set (r : List (ℤ × ℤ)) : ¬ StartsWith (humanizeSet r) "!= " := by
  simp [StartsWith, humanizeSet]

/-- The rendering of two intervals. -/
theorem humanizeIntervals_pair (lo hi₁ lo₂ hi : ℤ) (s : String) :
    humanizeIntervals [(lo, hi₁), (lo₂, hi)] = .ok s ∧ StartsWith s "!= " ↔
      hi₁ + 2 = lo₂ ∧ s = "!= " ++ toString (hi₁ + 1) ∧ ∃ l ∈ constants.lookup lo, ∃ h ∈ constants.lookup hi,
        (parseConstantType l).toOption = (parseConstantType h).toOption := by
  have hset : ¬ ((Except.ok (humanizeSet [(lo, hi₁), (lo₂, hi)]) : Except Error String) = .ok s ∧
      StartsWith s "!= ") := by
    rintro ⟨hs, hstarts⟩
    cases hs
    exact not_startsWith_set _ hstarts
  cases hlo : constants.lookup lo with
  | none =>
    simp only [humanizeIntervals, hlo]
    exact iff_of_false hset (by simp)
  | some l =>
    cases hhi : constants.lookup hi with
    | none =>
      simp only [humanizeIntervals, hlo, hhi]
      exact iff_of_false hset (by simp)
    | some h =>
      obtain ⟨t, ht⟩ := lookup_constants hlo
      obtain ⟨u, hu⟩ := lookup_constants hhi
      simp only [humanizeIntervals, hlo, hhi, ht, hu, ok_bind]
      by_cases hgap : hi₁ + 2 = lo₂
      · rw [if_pos hgap]
        by_cases htu : t = u
        · rw [if_pos htu]
          constructor
          · rintro ⟨hs, -⟩
            cases hs
            simp [hgap, ht, hu, htu, Except.toOption]
          · rintro ⟨-, rfl, -⟩
            exact ⟨rfl, by simp [StartsWith]⟩
        · rw [if_neg htu]
          refine iff_of_false hset ?_
          simp [ht, hu, htu, Except.toOption]
      · rw [if_neg hgap]
        exact iff_of_false hset fun h => hgap h.1

/-- **When an inequality is rendered**: for two intervals between limits of one
type that leave out one value. -/
theorem humanizeIntervals_startsWith_iff {r : List (ℤ × ℤ)} (hr : Increasing r) {s : String} :
    humanizeIntervals r = .ok s ∧ StartsWith s "!= " ↔
      ∃ lo hi k, (lo, hi) ∈ signedLimits ∧ r = [(lo, k - 1), (k + 1, hi)] ∧ s = "!= " ++ toString k := by
  constructor
  · rintro ⟨hs, hstarts⟩
    match r, hr with
    | [], _ =>
      cases hs
      exact absurd hstarts (not_startsWith_set [])
    | [p], _ =>
      cases hs
      exact absurd hstarts (not_startsWith_eq _)
    | [(lo, hi₁), (lo₂, hi)], hr =>
      obtain ⟨hgap, hs, l, hl, h, hh, htype⟩ := (humanizeIntervals_pair lo hi₁ lo₂ hi s).mp ⟨hs, hstarts⟩
      have hlt : lo < hi := by
        have hlo := hr.1 (lo, hi₁) (by simp)
        have hhi := hr.1 (lo₂, hi) (by simp)
        simp only at hlo hhi
        omega
      refine ⟨lo, hi, hi₁ + 1,
        mem_signedLimits_of_parse _ (mem_of_lookup hl) _ (mem_of_lookup hh) hlt htype, ?_, hs⟩
      rw [← hgap]
      simp only [List.cons.injEq, Prod.mk.injEq, true_and, and_true]
      omega
    | p :: q :: q' :: r, _ =>
      cases hs
      exact absurd hstarts (not_startsWith_set _)
  · rintro ⟨lo, hi, k, hlimits, rfl, rfl⟩
    refine (humanizeIntervals_pair lo (k - 1) (k + 1) hi _).mpr ⟨by omega, by rw [Int.sub_add_cancel], ?_⟩
    obtain ⟨l, hl, h, hh, t, ht, hu⟩ := exists_parse_of_mem _ hlimits
    exact ⟨l, hl, h, hh, ht.trans hu.symm⟩

/-! ### What is said -/

/-- Two intervals that leave out one value. -/
theorem union_pair {lo hi k : ℤ} (hr : Increasing [(lo, k - 1), (k + 1, hi)]) :
    union [(lo, k - 1), (k + 1, hi)] = Set.Icc lo hi \ {k} := by
  have hlo := hr.1 (lo, k - 1) (by simp)
  have hhi := hr.1 (k + 1, hi) (by simp)
  simp only at hlo hhi
  ext x
  simp only [union, Set.mem_ofPred_eq, List.exists_mem_cons_iff, List.not_mem_nil, false_and, exists_false,
    or_false, Set.mem_sdiff, Set.mem_Icc, Set.mem_singleton_iff]
  omega

/-- A type with the values -128 and 128 has more than 8 bits. -/
theorem IntType.mem_values {t : IntType} (hlo : -128 ∈ t.values) (hhi : 128 ∈ t.values) {x : ℤ}
    (hx : -32768 ≤ x ∧ x < 0) : x ∈ t.values := by
  obtain ⟨w, signed, hw⟩ := t
  cases signed with
  | false => simp [IntType.values] at hlo
  | true =>
    simp only [IntType.values, if_true, Set.mem_Ico] at hlo hhi ⊢
    simp only [List.mem_cons, List.not_mem_nil, or_false] at hw
    rcases hw with rfl | rfl | rfl | rfl
    · omega
    · omega
    · omega
    · omega

/-- The values from -128 to 128 are no type. -/
theorem not_truthful {k : ℤ} (hr : Increasing [(-128, k - 1), (k + 1, 128)]) :
    ¬ Truthful [(-128, k - 1), (k + 1, 128)] := by
  intro htrue
  obtain ⟨hs, hstarts⟩ := (humanizeIntervals_startsWith_iff hr).mpr ⟨-128, 128, k, by decide, rfl, rfl⟩
  obtain ⟨k', t, -, hunion⟩ := htrue _ hs hstarts
  rw [union_pair hr] at hunion
  have hlo := hr.1 (-128, k - 1) (by simp)
  have hhi := hr.1 (k + 1, 128) (by simp)
  simp only at hlo hhi
  have hmin : (-128 : ℤ) ∈ t.values := (hunion.subset ⟨by simp, by simp; omega⟩).1
  have hmax : (128 : ℤ) ∈ t.values := (hunion.subset ⟨by simp, by simp; omega⟩).1
  -- of the smaller values, which are in no interval, only one is left out
  have hout : ∀ x : ℤ, -32768 ≤ x → x < -128 → x = k' := fun x hx hlt => by
    by_contra hne
    have hmem : x ∈ Set.Icc (-128) 128 \ {k} :=
      hunion.symm.subset ⟨IntType.mem_values hmin hmax ⟨hx, by omega⟩, hne⟩
    have hge := hmem.1.1
    omega
  have h130 := hout (-130) (by omega) (by omega)
  have h131 := hout (-131) (by omega) (by omega)
  omega

/-- **Which inequalities are true**: all but those said of the values from -128
to 128, which are no type. -/
theorem truthful_iff {r : List (ℤ × ℤ)} (hr : Increasing r) :
    Truthful r ↔ ¬ ∃ k : ℤ, r = [(-128, k - 1), (k + 1, 128)] := by
  constructor
  · rintro htrue ⟨k, rfl⟩
    exact not_truthful hr htrue
  · intro hnot s hs hstarts
    obtain ⟨lo, hi, k, hlimits, rfl, rfl⟩ := (humanizeIntervals_startsWith_iff hr).mp ⟨hs, hstarts⟩
    have hne : hi ≠ 128 := by
      rintro rfl
      have hlo : lo = -128 := by simpa [signedLimits] using hlimits
      exact hnot ⟨k, by rw [hlo]⟩
    obtain ⟨t, ht⟩ := exists_intType hlimits hne
    exact ⟨k, t, rfl, by rw [ht, union_pair hr]⟩

/-- All values of 16 bits but 7. -/
theorem truthful_int16 : Truthful [(-32768, 6), (8, 32767)] := by
  refine (truthful_iff ⟨by decide, by decide⟩).mpr ?_
  rintro ⟨k, hk⟩
  simp at hk

/-- From -128 to 128 without 1 is said to be all values but 1. -/
theorem int8_untrue : ¬ ∀ r, Increasing r → Truthful r := fun h =>
  have hr : Increasing [(-128, 1 - 1), (1 + 1, 128)] := ⟨by decide, by decide⟩
  not_truthful hr (h _ hr)

end Apisan
