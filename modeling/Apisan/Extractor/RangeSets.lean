/-
# What a range set stands for

A range set of a type stands for the values of its ranges. Where the set's type
goes into the type of the bounds (`APSIntType.Into`), intersecting it with an
interval loses no value in the arc from the lower bound to the upper one, also
where the bounds are outside of the set's type (`RangeSet.pin`). A value outside
of the arc is left only where both bounds are one integer that the set's type
does not have: the test for an interval that is out of reach asks whether the
lower bound is less than the upper one, and takes a single integer for an
interval all around (`RangeSet.intersect_exact_iff`). A set of a signed type may
lose values to bounds of a wider unsigned type.

Key definitions: `RangeSet.points`, `RangeSet.Proper`, `RangeSet.Outside`.
Key theorems: `RangeSet.intersectInRange_spec`, `RangeSet.pin_spec`,
`RangeSet.intersect_spec`, `RangeSet.intersect_exact_iff`.
-/
import Apisan.Extractor.Integers

namespace Apisan
namespace Ento
namespace RangeSet

open Intervals

/-- The values of the ranges. -/
def points (ranges : RangeSet) : Set ℤ := Intervals.points ranges.values

/-- The bounds are of the type, and the ranges in order. -/
structure Proper (t : APSIntType) (ranges : RangeSet) : Prop where
  typed : ∀ r ∈ ranges, r.first.type = t ∧ r.second.type = t
  ordered : Ordered ranges.values

variable {t u : APSIntType} {ranges new : RangeSet} {lower upper : APSInt}

theorem values_cons (r : Range) (ranges : RangeSet) :
    RangeSet.values (r :: ranges) = (r.first.value, r.second.value) :: ranges.values := rfl

theorem values_append (ranges new : RangeSet) :
    RangeSet.values (ranges ++ new) = ranges.values ++ new.values := List.map_append

theorem mem_values {p : ℤ × ℤ} : p ∈ ranges.values ↔ ∃ r ∈ ranges, (r.first.value, r.second.value) = p :=
  List.mem_map

theorem mem_window_of_mem_points (h : ranges.Proper t) {x : ℤ} (hx : x ∈ ranges.points) : x ∈ t.window := by
  obtain ⟨p, hp, hlow, hhigh⟩ := hx
  obtain ⟨r, hr, rfl⟩ := mem_values.mp hp
  obtain ⟨hfirst, hsecond⟩ := h.typed r hr
  have h1 := r.first.value_mem
  have h2 := r.second.value_mem
  rw [hfirst, Window.mem_iff] at h1
  rw [hsecond, Window.mem_iff] at h2
  exact ⟨h1.1.trans hlow, lt_of_le_of_lt hhigh h2.2⟩

theorem points_eq_empty (h : ranges.Proper t) : ranges.points = ∅ ↔ ranges = [] := by
  rw [points, h.ordered.points_eq_empty]
  exact List.map_eq_nil_iff

/-! ### One pass -/

/-- A range after all others is added at the end. -/
theorem add_concat {r : Range} : ∀ {new : RangeSet},
    (∀ s ∈ new, s.first.value ≤ s.second.value ∧ s.second.value < r.first.value) → add r new = new ++ [r]
  | [], _ => rfl
  | s :: new, h => by
    rw [List.forall_mem_cons] at h
    have hne : r ≠ s := fun heq => by
      rw [heq] at h
      omega
    have hless : r.isLess s = false := by
      unfold Range.isLess
      rw [Bool.or_eq_false_iff, Bool.and_eq_false_iff, Bool.not_eq_false', decide_eq_false_iff_not,
        decide_eq_true_eq]
      exact ⟨by omega, .inl (by omega)⟩
    rw [add, if_neg hne, hless, if_neg Bool.false_ne_true, add_concat h.2, List.cons_append]

/-- The new ranges are in order, below what an interval can have of the ranges. -/
def Below (lower : APSInt) (ranges new : RangeSet) : Prop :=
  ∀ s ∈ new, s.first.value ≤ s.second.value ∧
    (s.second.value < lower.value ∨ ∀ r ∈ ranges, s.second.value < r.first.value)

theorem Below.tail {i : Range} (h : Below lower (i :: ranges) new) : Below lower ranges new := fun s hs =>
  ⟨(h s hs).1, (h s hs).2.imp_right fun hall r hr => hall r (List.mem_cons_of_mem i hr)⟩

theorem Below.concat {i s : Range} (h : Below lower (i :: ranges) new) (hi : Ordered (RangeSet.values (i :: ranges)))
    (hs : s.first.value ≤ s.second.value) (hle : s.second.value ≤ i.second.value) :
    Below lower ranges (new ++ [s]) := by
  intro s' hs'
  rcases List.mem_append.mp hs' with hs' | hs'
  · exact h.tail s' hs'
  · rw [List.mem_singleton.mp hs']
    refine ⟨hs, .inr fun r hr => lt_of_le_of_lt hle ?_⟩
    exact (Ordered.cons_iff.mp hi).2.1 _ (mem_values.mpr ⟨r, hr, rfl⟩)

/-- What is left of a range is added after the new ranges. -/
theorem Below.add {i : Range} (h : Below lower (i :: ranges) new) (s : Range)
    (hlower : lower.value ≤ s.first.value) (hi : i.first.value ≤ s.first.value) : add s new = new ++ [s] := by
  refine add_concat fun s' hs' => ?_
  obtain ⟨hne, hlt | hall⟩ := h s' hs'
  · exact ⟨hne, by omega⟩
  · have := hall i List.mem_cons_self
    exact ⟨hne, by omega⟩

theorem includes_iff {r : Range} {v : APSInt} :
    r.includes v = true ↔ r.first.value ≤ v.value ∧ v.value ≤ r.second.value := by
  rw [Range.includes, Bool.and_eq_true, decide_eq_true_eq, decide_eq_true_eq]

/-- **One pass** adds what the ranges have between the bounds, and stops at the
first range that does not end below the upper one. -/
theorem intersectInRange_spec (hle : lower.value ≤ upper.value) : ∀ {ranges new : RangeSet},
    Ordered ranges.values → Below lower ranges new →
    (intersectInRange lower upper new ranges).1.values =
        new.values ++ clip lower.value upper.value ranges.values ∧
      ∃ done, ranges = done ++ (intersectInRange lower upper new ranges).2 ∧
        ∀ r ∈ done, r.second.value < upper.value
  | [], new, _, _ => ⟨by rw [intersectInRange]; exact (List.append_nil _).symm, [], rfl, fun _ h => by cases h⟩
  | i :: rest, new, hi, hnew => by
    obtain ⟨hne, hlt, hrest⟩ := Ordered.cons_iff.mp hi
    simp only at hne hlt
    have habove : ∀ x, x ≤ i.second.value → clip lower.value x (values rest) = [] := fun x hx =>
      clip_eq_nil_of_gt fun p hp => lt_of_le_of_lt hx (hlt p hp)
    -- a range that the iteration passes by is done
    have hpass : ∀ {added : RangeSet}, i.second.value < upper.value →
        (∃ done, rest = done ++ (intersectInRange lower upper added rest).2 ∧
          ∀ r ∈ done, r.second.value < upper.value) →
        ∃ done, i :: rest = done ++ (intersectInRange lower upper added rest).2 ∧
          ∀ r ∈ done, r.second.value < upper.value := by
      rintro added hup ⟨done, heq, hall⟩
      exact ⟨i :: done, by rw [List.cons_append, ← heq], List.forall_mem_cons.mpr ⟨hup, hall⟩⟩
    have hstop : ∃ done, i :: rest = done ++ (i :: rest) ∧ ∀ r ∈ done, r.second.value < upper.value :=
      ⟨[], rfl, fun _ h => by cases h⟩
    have hvalues : ∀ s : Range, RangeSet.values (new ++ [s]) = new.values ++ [(s.first.value, s.second.value)] :=
      fun s => values_append new [s]
    rw [intersectInRange, values_cons, clip]
    by_cases hbefore : i.second.value < lower.value
    · have hnot : ¬ max i.first.value lower.value ≤ min i.second.value upper.value := by omega
      obtain ⟨hval, hdone⟩ := intersectInRange_spec hle hrest hnew.tail
      rw [if_pos hbefore, if_neg hnot]
      exact ⟨hval, hpass (by omega) hdone⟩
    rw [if_neg hbefore]
    by_cases hafter : i.first.value > upper.value
    · have hnot : ¬ max i.first.value lower.value ≤ min i.second.value upper.value := by omega
      have hnone : clip lower.value upper.value (values rest) = [] := habove _ (by omega)
      rw [if_pos hafter, if_neg hnot, hnone, List.append_nil]
      exact ⟨rfl, hstop⟩
    rw [if_neg hafter]
    have hsome : max i.first.value lower.value ≤ min i.second.value upper.value := by omega
    rw [if_pos hsome]
    by_cases hlower : i.includes lower = true
    · have hl := includes_iff.mp hlower
      have hmax : max i.first.value lower.value = lower.value := max_eq_right hl.1
      rw [if_pos hlower, hmax]
      by_cases hupper : i.includes upper = true
      · have hu := includes_iff.mp hupper
        have hmin : min i.second.value upper.value = upper.value := min_eq_right hu.2
        rw [if_pos hupper, hnew.add ⟨lower, upper⟩ le_rfl hl.1, hvalues, hmin, habove _ hu.2]
        exact ⟨rfl, hstop⟩
      · have hu : i.second.value < upper.value := by
          by_contra hge
          exact hupper (includes_iff.mpr ⟨by omega, by omega⟩)
        have hmin : min i.second.value upper.value = i.second.value := min_eq_left hu.le
        obtain ⟨hval, hdone⟩ := intersectInRange_spec hle hrest
          (hnew.concat (s := ⟨lower, i.second⟩) hi hl.2 le_rfl)
        rw [if_neg hupper, hnew.add ⟨lower, i.second⟩ le_rfl hl.1, hmin]
        exact ⟨by rw [hval, hvalues, List.append_assoc]; rfl, hpass hu hdone⟩
    · have hl : lower.value < i.first.value := by
        by_contra hge
        exact hlower (includes_iff.mpr ⟨by omega, by omega⟩)
      have hmax : max i.first.value lower.value = i.first.value := max_eq_left hl.le
      rw [if_neg hlower, hmax]
      by_cases hupper : i.includes upper = true
      · have hu := includes_iff.mp hupper
        have hmin : min i.second.value upper.value = upper.value := min_eq_right hu.2
        rw [if_pos hupper, hnew.add ⟨i.first, upper⟩ hl.le le_rfl, hvalues, hmin, habove _ hu.2]
        exact ⟨rfl, hstop⟩
      · have hu : i.second.value < upper.value := by
          by_contra hge
          exact hupper (includes_iff.mpr ⟨by omega, by omega⟩)
        have hmin : min i.second.value upper.value = i.second.value := min_eq_left hu.le
        obtain ⟨hval, hdone⟩ := intersectInRange_spec hle hrest (hnew.concat hi hne le_rfl)
        rw [if_neg hupper, hnew.add i hl.le le_rfl, hmin]
        exact ⟨by rw [hval, hvalues, List.append_assoc]; rfl, hpass hu hdone⟩

/-- The bounds of the ranges are of the type. -/
def Typed (t : APSIntType) (ranges : RangeSet) : Prop := ∀ r ∈ ranges, r.first.type = t ∧ r.second.type = t

theorem Typed.add {r : Range} (hr : r.first.type = t ∧ r.second.type = t) :
    ∀ {new : RangeSet}, Typed t new → Typed t (add r new)
  | [], _ => fun s hs => by
    rw [List.mem_singleton.mp hs]
    exact hr
  | s :: new, h => by
    have hs := List.forall_mem_cons.mp h
    unfold RangeSet.add
    split_ifs
    · exact List.forall_mem_cons.mpr ⟨hr, hs.2⟩
    · exact List.forall_mem_cons.mpr ⟨hr, h⟩
    · exact List.forall_mem_cons.mpr ⟨hs.1, Typed.add hr hs.2⟩

theorem typed_intersectInRange (hlower : lower.type = t) (hupper : upper.type = t) :
    ∀ {ranges new : RangeSet}, Typed t ranges → Typed t new →
      Typed t (intersectInRange lower upper new ranges).1 ∧ Typed t (intersectInRange lower upper new ranges).2
  | [], new, hranges, hnew => ⟨hnew, hranges⟩
  | i :: rest, new, hranges, hnew => by
    obtain ⟨⟨hfirst, hsecond⟩, hrest⟩ := List.forall_mem_cons.mp hranges
    have hlast : Typed t (add ⟨lower, upper⟩ new) := hnew.add (r := ⟨lower, upper⟩) ⟨hlower, hupper⟩
    have hleft : Typed t (add ⟨lower, i.second⟩ new) := hnew.add (r := ⟨lower, i.second⟩) ⟨hlower, hsecond⟩
    have hright : Typed t (add ⟨i.first, upper⟩ new) := hnew.add (r := ⟨i.first, upper⟩) ⟨hfirst, hupper⟩
    have hwhole : Typed t (add i new) := hnew.add ⟨hfirst, hsecond⟩
    unfold intersectInRange
    split_ifs
    all_goals first
      | exact ⟨‹_›, hranges⟩
      | exact typed_intersectInRange hlower hupper hrest ‹_›

/-! ### The arc of a type -/

/-- Both bounds are one integer that the type does not have. -/
def Outside (t : APSIntType) (lower upper : APSInt) : Prop :=
  lower.value = upper.value ∧ t.testInRange lower ≠ .within

instance (t : APSIntType) (lower upper : APSInt) : Decidable (Outside t lower upper) :=
  inferInstanceAs (Decidable (_ ∧ _))

/-- Bounds of a type, with the arc of other bounds. -/
structure Pinned (t u : APSIntType) (lower upper l r : APSInt) : Prop where
  lower_type : l.type = t
  upper_type : r.type = t
  keeps : ∀ x ∈ t.window, u.window.wrap x ∈ arc lower.value upper.value → x ∈ arc l.value r.value
  exact : ¬ Outside t lower upper →
    ∀ x ∈ t.window, x ∈ arc l.value r.value → u.window.wrap x ∈ arc lower.value upper.value

theorem mem_full (ht : 0 < t.bitWidth) {x : ℤ} (hx : x ∈ t.window) :
    x ∈ arc t.getMinValue.value t.getMaxValue.value := by
  have hpos := t.window.size_pos
  rw [Window.mem_iff] at hx
  rw [APSIntType.value_getMinValue, APSIntType.value_getMaxValue t ht, mem_arc_of_le (by omega)]
  omega

/-- The bounds of a wider type, in a type whose values it keeps. -/
theorem pin_narrow (ht : 0 < t.bitWidth) (hlt : t.bitWidth < u.bitWidth)
    (hsign : t.isUnsigned = true ∨ u.isUnsigned = false) (hlower : lower.type = u) (hupper : upper.type = u) :
    match pin t lower upper with
    | none => ∀ x ∈ t.window, u.window.wrap x ∉ arc lower.value upper.value
    | some (l, r) => Pinned t u lower upper l r := by
  have hwrap : ∀ x ∈ t.window, u.window.wrap x = x := fun x hx =>
    Window.wrap_of_mem (APSIntType.Into.mem hlt hsign hx)
  have hwithin : ∀ i : APSInt, i.type = u → t.testInRange i = .within → i.value ∈ t.window := fun i hi h => by
    obtain rfl := hi
    exact APSIntType.mem_of_within hlt hsign h
  have hconvert : ∀ i : APSInt, i.value ∈ t.window → (t.convert i).value = i.value := fun i hi => by
    rw [APSIntType.value_convert, Window.wrap_of_mem hi]
  have hmin := APSIntType.value_getMinValue t
  have hmax := APSIntType.value_getMaxValue t ht
  have hpos := t.window.size_pos
  -- an arc that has all values of the type, or none
  have hall : (∀ x ∈ t.window, x ∈ arc lower.value upper.value) ∨ Outside t lower upper →
      Pinned t u lower upper t.getMinValue t.getMaxValue := fun h =>
    ⟨rfl, rfl, fun x hx _ => mem_full ht hx, fun hout x hx _ => by
      rw [hwrap x hx]
      exact h.resolve_right hout x hx⟩
  -- bounds that give the same arc
  have hsome : ∀ l r : APSInt, l.type = t → r.type = t →
      (∀ x ∈ t.window, x ∈ arc lower.value upper.value ↔ x ∈ arc l.value r.value) →
        Pinned t u lower upper l r := fun l r hl hr h =>
    ⟨hl, hr, fun x hx hmem => (h x hx).mp (hwrap x hx ▸ hmem), fun _ x hx hmem => by
      rw [hwrap x hx]
      exact (h x hx).mpr hmem⟩
  have harc : ∀ {a b x : ℤ}, x ∈ arc a b ↔ if a ≤ b then a ≤ x ∧ x ≤ b else x ≤ b ∨ a ≤ x := Iff.rfl
  have houtside : t.testInRange lower ≠ .within → lower.value = upper.value → Outside t lower upper :=
    fun h heq => ⟨heq, h⟩
  have hw := hwithin lower hlower
  have hw' := hwithin upper hupper
  have hc := hconvert lower
  have hc' := hconvert upper
  simp only [Window.mem_iff] at hall hsome hw hw' hc hc' ⊢
  unfold pin
  rcases APSIntType.testInRange_cases (i := lower) ht with hl | ⟨hl, hlo⟩ | ⟨hl, hlo⟩ <;>
    rcases APSIntType.testInRange_cases (i := upper) ht with hu | ⟨hu, hup⟩ | ⟨hu, hup⟩ <;>
    simp only [hl, hu] at hw hw' houtside ⊢
  · have h1 := hw trivial
    have h2 := hw' trivial
    refine hsome _ _ rfl rfl fun x hx => ?_
    rw [hc h1, hc' h2]
  · have h1 := hw trivial
    refine hsome _ _ rfl rfl fun x hx => ?_
    rw [hc h1, hmax, harc, harc, if_neg (by omega), if_pos (by omega)]
    omega
  · have h1 := hw trivial
    refine hsome _ _ rfl rfl fun x hx => ?_
    rw [hc h1, hmax, harc, harc, if_pos (by omega), if_pos (by omega)]
    omega
  · have h2 := hw' trivial
    refine hsome _ _ rfl rfl fun x hx => ?_
    rw [hc' h2, hmin, harc, harc, if_pos (by omega), if_pos (by omega)]
    omega
  · by_cases hlt' : lower.value < upper.value
    · rw [if_pos hlt']
      intro x hx
      rw [hwrap x hx, harc, if_pos (by omega)]
      omega
    · rw [if_neg hlt']
      refine hall ?_
      by_cases heq : lower.value = upper.value
      · exact .inr (houtside (by decide) heq)
      · refine .inl fun x hx => ?_
        rw [harc, if_neg (by omega)]
        omega
  · refine hall (.inl fun x hx => ?_)
    rw [harc, if_pos (by omega)]
    omega
  · have h2 := hw' trivial
    refine hsome _ _ rfl rfl fun x hx => ?_
    rw [hc' h2, hmin, harc, harc, if_neg (by omega), if_pos (by omega)]
    omega
  · intro x hx
    rw [hwrap x hx, harc, if_neg (by omega)]
    omega
  · by_cases hlt' : lower.value < upper.value
    · rw [if_pos hlt']
      intro x hx
      rw [hwrap x hx, harc, if_pos (by omega)]
      omega
    · rw [if_neg hlt']
      refine hall ?_
      by_cases heq : lower.value = upper.value
      · exact .inr (houtside (by decide) heq)
      · refine .inl fun x hx => ?_
        rw [harc, if_neg (by omega)]
        omega

/-- The bounds of a type of the same width are converted. -/
theorem pin_same (ht : 0 < t.bitWidth) (hwidth : t.bitWidth = u.bitWidth) (hlower : lower.type = u)
    (hupper : upper.type = u) : ∃ l r, pin t lower upper = some (l, r) ∧ Pinned t u lower upper l r := by
  have hlw : t.bitWidth = lower.bitWidth := hwidth.trans (congrArg APSIntType.bitWidth hlower).symm
  have huw : t.bitWidth = upper.bitWidth := hwidth.trans (congrArg APSIntType.bitWidth hupper).symm
  have hl := APSIntType.within_of_width ht hlw
  have hu := APSIntType.within_of_width ht huw
  have harc : ∀ x ∈ t.window, x ∈ arc (t.convert lower).value (t.convert upper).value ↔
      u.window.wrap x ∈ arc lower.value upper.value := fun x hx => by
    have hlo : u.window.wrap lower.value = lower.value := Window.wrap_of_mem (hlower ▸ lower.value_mem)
    have hup : u.window.wrap upper.value = upper.value := Window.wrap_of_mem (hupper ▸ upper.value_mem)
    have hcongr := Window.wrap_mem_arc_congr (APSIntType.size_eq hwidth) x lower.value upper.value
    rw [hlo, hup, Window.wrap_of_mem hx] at hcongr
    rw [APSIntType.value_convert, APSIntType.value_convert, hcongr]
  refine ⟨t.convert lower, t.convert upper, ?_, rfl, rfl, fun x hx => (harc x hx).mpr, fun _ x hx =>
    (harc x hx).mp⟩
  unfold pin
  rw [hl, hu]

/-- **What pinning does**: the arc stays the same for the values of the type. -/
theorem pin_spec (h : t.Into u) (hlower : lower.type = u) (hupper : upper.type = u) :
    (pin t lower upper = none ∧ ∀ x ∈ t.window, u.window.wrap x ∉ arc lower.value upper.value) ∨
      ∃ l r, pin t lower upper = some (l, r) ∧ Pinned t u lower upper l r := by
  obtain ⟨hpos, hsame | ⟨hlt, hsign⟩⟩ := h
  · exact .inr (pin_same hpos hsame hlower hupper)
  · have hnarrow := pin_narrow hpos hlt hsign hlower hupper
    cases hpin : pin t lower upper with
    | none =>
      rw [hpin] at hnarrow
      exact .inl ⟨rfl, hnarrow⟩
    | some bounds =>
      rw [hpin] at hnarrow
      exact .inr ⟨bounds.1, bounds.2, rfl, hnarrow⟩

/-! ### The intersection -/

/-- The ranges between bounds of their type. -/
theorem intersect_pinned (ht : 0 < t.bitWidth) (h : ranges.Proper t) {l r : APSInt} (hl : l.type = t)
    (hr : r.type = t) :
    let result := if l.value ≤ r.value then (intersectInRange l r [] ranges).1
      else (intersectInRange l l.type.getMaxValue (intersectInRange r.type.getMinValue r [] ranges).1
        (intersectInRange r.type.getMinValue r [] ranges).2).1
    result.Proper t ∧ ∀ x, x ∈ result.points ↔ x ∈ ranges.points ∧ x ∈ arc l.value r.value := by
  have hempty : ∀ lower : APSInt, Below lower ranges [] := fun _ _ hs => by cases hs
  have htyped : Typed t [] := fun _ hs => by cases hs
  have hlmem := l.value_mem
  have hrmem := r.value_mem
  rw [hl, Window.mem_iff] at hlmem
  rw [hr, Window.mem_iff] at hrmem
  intro result
  by_cases hle : l.value ≤ r.value
  · have hresult : result = (intersectInRange l r [] ranges).1 := if_pos hle
    obtain ⟨hvalues, -⟩ := intersectInRange_spec hle h.ordered (hempty l)
    rw [hresult]
    refine ⟨⟨(typed_intersectInRange hl hr h.typed htyped).1, ?_⟩, fun x => ?_⟩
    · rw [hvalues]
      exact h.ordered.clip
    · rw [points, hvalues, mem_arc_of_le hle]
      show x ∈ Intervals.points (clip l.value r.value ranges.values) ↔ _
      rw [points_clip]
      rfl
  · have hlt : r.value < l.value := not_le.mp hle
    -- the low part first, and from where it stopped the high part
    have hmin : r.type.getMinValue.value = t.window.low := by rw [hr, APSIntType.value_getMinValue]
    have hmax : l.type.getMaxValue.value = t.window.low + t.window.size - 1 := by
      rw [hl, APSIntType.value_getMaxValue t ht]
    have hminType : r.type.getMinValue.type = t := by rw [hr]; rfl
    have hmaxType : l.type.getMaxValue.type = t := by rw [hl]; rfl
    have hminle : r.type.getMinValue.value ≤ r.value := by omega
    have hmaxle : l.value ≤ l.type.getMaxValue.value := by omega
    obtain ⟨hlow, done, hdone, hbelow⟩ := intersectInRange_spec hminle h.ordered (hempty _)
    have htypedLow := typed_intersectInRange hminType hr h.typed htyped
    have hvaluesLow : ∀ s ∈ (intersectInRange r.type.getMinValue r [] ranges).1,
        s.first.value ≤ s.second.value ∧ s.second.value ≤ r.value := fun s hs => by
      have hmem := mem_values.mpr ⟨s, hs, rfl⟩
      rw [hlow] at hmem
      obtain ⟨-, h2, h3, -⟩ := mem_clip hmem
      exact ⟨h2, h3⟩
    have hresult : result = (intersectInRange l l.type.getMaxValue
        (intersectInRange r.type.getMinValue r [] ranges).1
        (intersectInRange r.type.getMinValue r [] ranges).2).1 := if_neg hle
    generalize (intersectInRange r.type.getMinValue r [] ranges).1 = new at *
    generalize (intersectInRange r.type.getMinValue r [] ranges).2 = rest at *
    have hrest : Ordered (values rest) := by
      have hall := h.ordered
      rw [hdone, values_append] at hall
      exact hall.of_append_right
    have hnew : Below l rest new := fun s hs => by
      obtain ⟨h1, h2⟩ := hvaluesLow s hs
      exact ⟨h1, .inl (by omega)⟩
    obtain ⟨hhigh, -⟩ := intersectInRange_spec hmaxle hrest hnew
    have hvalues : result.values = clip r.type.getMinValue.value r.value ranges.values ++
        clip l.value l.type.getMaxValue.value ranges.values := by
      have hskip : clip l.value l.type.getMaxValue.value (values done) = [] := clip_eq_nil_of_lt fun p hp => by
        obtain ⟨s, hs, rfl⟩ := mem_values.mp hp
        have := hbelow s hs
        omega
      have hall : clip l.value l.type.getMaxValue.value ranges.values =
          clip l.value l.type.getMaxValue.value (values rest) := by
        rw [hdone, values_append, Intervals.clip_append, hskip, List.nil_append]
      rw [hresult, hhigh, hlow, hall]
      rfl
    refine ⟨⟨?_, ?_⟩, fun x => ?_⟩
    · rw [hresult]
      exact (typed_intersectInRange hl hmaxType htypedLow.2 htypedLow.1).1
    · rw [hvalues]
      exact h.ordered.clip_append hlt
    · have hx : x ∈ ranges.points → x ∈ t.window := mem_window_of_mem_points h
      rw [points, hvalues, mem_points_append, points_clip, points_clip, mem_arc_of_lt hlt, hmin, hmax]
      show x ∈ ranges.points ∧ _ ∨ x ∈ ranges.points ∧ _ ↔ x ∈ ranges.points ∧ _
      rw [← and_or_left]
      refine and_congr_right fun hmem => ?_
      have hwindow := hx hmem
      rw [Window.mem_iff] at hwindow
      omega

/-- What is left of ranges of a type between bounds of another type. -/
structure Intersects (t u : APSIntType) (ranges : RangeSet) (lower upper : APSInt) (result : RangeSet) :
    Prop where
  proper : result.Proper t
  sub : ∀ x ∈ result.points, x ∈ ranges.points
  keeps : ∀ x ∈ ranges.points, u.window.wrap x ∈ arc lower.value upper.value → x ∈ result.points
  exact : ¬ Outside t lower upper → ∀ x ∈ result.points, u.window.wrap x ∈ arc lower.value upper.value

theorem Proper.nil : Proper t [] := ⟨fun _ h => (List.not_mem_nil h).elim, Ordered.nil⟩

/-- **Intersecting** keeps the values in the arc. -/
theorem intersect_spec (h : ranges.Proper t) (hinto : t.Into u) (hlower : lower.type = u)
    (hupper : upper.type = u) : Intersects t u ranges lower upper (ranges.intersect lower upper) := by
  have hnone : ∀ x, x ∉ points [] := fun x hx => by
    obtain ⟨p, hp, -⟩ := hx
    exact List.not_mem_nil hp
  rcases ranges with _ | ⟨r, rest⟩
  · exact ⟨Proper.nil, fun x hx => hx, fun x hx => (hnone x hx).elim, fun _ x hx => (hnone x hx).elim⟩
  have htype : r.first.type = t := (h.typed r List.mem_cons_self).1
  unfold intersect
  simp only [htype]
  rcases pin_spec hinto hlower hupper with ⟨hpin, hall⟩ | ⟨l, u', hpin, hpinned⟩
  · rw [hpin]
    refine ⟨Proper.nil, fun x hx => (hnone x hx).elim, fun x hx hmem => ?_, fun _ x hx => (hnone x hx).elim⟩
    exact absurd hmem (hall x (mem_window_of_mem_points h hx))
  · rw [hpin]
    obtain ⟨hproper, hpoints⟩ := intersect_pinned hinto.pos h hpinned.lower_type hpinned.upper_type
    refine ⟨hproper, fun x hx => ((hpoints x).mp hx).1, fun x hx hmem => ?_, fun hout x hx => ?_⟩
    · exact (hpoints x).mpr ⟨hx, hpinned.keeps x (mem_window_of_mem_points h hx) hmem⟩
    · obtain ⟨hx', harc⟩ := (hpoints x).mp hx
      exact hpinned.exact hout x (mem_window_of_mem_points h hx') harc

/-- A single integer that the type does not have is pinned to all of its values. -/
theorem pin_outside (h : t.Into u) (hlower : lower.type = u) (hupper : upper.type = u)
    (hout : Outside t lower upper) : pin t lower upper = some (t.getMinValue, t.getMaxValue) := by
  obtain rfl : lower = upper := APSInt.eq_of_value (hlower.trans hupper.symm) hout.1
  unfold pin
  rcases APSIntType.testInRange_cases (i := lower) h.pos with hl | ⟨hl, -⟩ | ⟨hl, -⟩
  · exact absurd hl hout.2
  · rw [hl]
    exact if_neg (lt_irrefl _)
  · rw [hl]
    exact if_neg (lt_irrefl _)

/-- **When intersecting is exact**: it keeps just the values in the arc, unless
the set has values and both bounds are one integer that its type does not
have. -/
theorem intersect_exact_iff (h : ranges.Proper t) (hinto : t.Into u) (hlower : lower.type = u)
    (hupper : upper.type = u) :
    (∀ x, x ∈ (ranges.intersect lower upper).points ↔
      x ∈ ranges.points ∧ u.window.wrap x ∈ arc lower.value upper.value) ↔
    ¬ (Outside t lower upper ∧ ranges ≠ []) := by
  have hspec := intersect_spec h hinto hlower hupper
  constructor
  · rintro hexact ⟨hout, hne⟩
    obtain ⟨x, hx⟩ : ranges.points.Nonempty := by
      rw [Set.nonempty_iff_ne_empty, Ne, points_eq_empty h]
      exact hne
    have hwindow := mem_window_of_mem_points h hx
    -- all values are left, and none is in the arc
    have hleft : x ∈ (ranges.intersect lower upper).points := by
      obtain ⟨r, rest, rfl⟩ := List.exists_cons_of_ne_nil hne
      have htype : r.first.type = t := (h.typed r List.mem_cons_self).1
      unfold intersect
      simp only [htype, pin_outside hinto hlower hupper hout]
      exact ((intersect_pinned hinto.pos h rfl rfl).2 x).mpr ⟨hx, mem_full hinto.pos hwindow⟩
    have harc := ((hexact x).mp hleft).2
    rw [← hout.1, mem_arc_of_le le_rfl] at harc
    have hvalue : u.window.wrap x = lower.value := le_antisymm harc.2 harc.1
    rcases hinto.keeps with hsame | ⟨hlt, hsign⟩
    · exact hout.2 (APSIntType.within_of_width hinto.pos (hsame.trans (congrArg APSIntType.bitWidth hlower).symm))
    · rw [Window.wrap_of_mem (APSIntType.Into.mem hlt hsign hwindow)] at hvalue
      exact hout.2 (APSIntType.within_of_mem hinto.pos (hvalue ▸ hwindow))
  · intro hnot x
    refine ⟨fun hx => ⟨hspec.sub x hx, ?_⟩, fun ⟨hx, harc⟩ => hspec.keeps x hx harc⟩
    by_cases hne : ranges = []
    · obtain ⟨p, hp, -⟩ := hspec.sub x hx
      rw [hne] at hp
      exact (List.not_mem_nil hp).elim
    · exact hspec.exact (fun hout => hnot ⟨hout, hne⟩) x hx

/-- All values of an `unsigned char`. -/
def bytes : RangeSet := [⟨⟨8, true, 0⟩, ⟨8, true, 255⟩⟩]

theorem proper_bytes : bytes.Proper ⟨8, true⟩ := by
  refine ⟨fun r hr => ?_, Ordered.singleton (by decide)⟩
  rw [List.mem_singleton.mp hr]
  exact ⟨rfl, rfl⟩

/-- The bytes between -3 and 4, and those that are 300. -/
theorem intersect_exact_iff_bytes :
    (∀ x, x ∈ (bytes.intersect ⟨32, false, -3⟩ ⟨32, false, 4⟩).points ↔
      x ∈ bytes.points ∧ (APSIntType.window ⟨32, false⟩).wrap x ∈ arc (-3) 4) ∧
    ¬ ∀ x, x ∈ (bytes.intersect ⟨32, false, 300⟩ ⟨32, false, 300⟩).points ↔
      x ∈ bytes.points ∧ (APSIntType.window ⟨32, false⟩).wrap x ∈ arc 300 300 := by
  have hinto : APSIntType.Into ⟨8, true⟩ ⟨32, false⟩ := by decide
  refine ⟨(intersect_exact_iff proper_bytes hinto rfl rfl).mpr (by decide), fun h => ?_⟩
  exact (intersect_exact_iff proper_bytes hinto rfl rfl).mp h (by decide)

-- all of a signed type, and bounds of a wider unsigned type with the residue of -1
example : RangeSet.intersect [⟨⟨8, false, -128⟩, ⟨8, false, 127⟩⟩] ⟨32, true, 4294967040⟩ ⟨32, true, 4294967295⟩ =
    [] := by decide

end RangeSet
end Ento
end Apisan
