/-
# Rendering references

`get_references` lists as many references as it is asked for, between braces.
Where it lists one only, it takes that one out of the report's set, so a second
call finds one less. With at least two references and a size of at least two
the set stays as it is, and all calls list the same number (`renders_iff`).

Key definitions: `leftReferences`, `Lists`, `Renders`.
Key theorems: `joinReferences_map`, `getReferences_lists`, `renders_iff`.
-/
import Mathlib.Data.Set.List
import Apisan.Check.Printing

namespace Apisan

open Python

section

variable [SetOrder Code]

/-- The set that `get_references` leaves. `pop` takes the member that comes
first. -/
def leftReferences (references : Finset Code) (size : ℤ) : Finset Code :=
  if references.card = 1 ∨ size = 1 then
    match SetOrder.list references with
    | x :: _ => references.erase x
    | [] => references
  else references

/-- The text lists that many distinct references of the set, or all if they
are fewer. -/
def Lists (references : Finset Code) (size : ℤ) (text : String) : Prop :=
  ∃ xs : List String, xs.Nodup ∧ (∀ x ∈ xs, some x ∈ references) ∧
    (xs.length : ℤ) = min (references.card : ℤ) size ∧ text = "\x7b" ++ ", ".intercalate xs ++ "\x7d"

/-- The set after some calls. -/
def afterCalls (references : Finset Code) (size : ℤ) (calls : ℕ) : Finset Code :=
  (fun references => leftReferences references size)^[calls] references

/-- After any number of calls the set is as it was, and the next call lists
references of it. -/
def Renders (references : Finset Code) (size : ℤ) : Prop :=
  ∀ calls, afterCalls references size calls = references ∧
    ∃ text, getReferences (afterCalls references size calls) size = .ok text ∧ Lists references size text

/-! ### The loop -/

omit [SetOrder Code] in
/-- **The loop over the references**: it joins the first `size` of them. -/
theorem joinReferences_map (n : ℕ) (size : ℤ) : ∀ (xs : List String) (i : ℕ) (refs : String),
    n = i + xs.length → (i : ℤ) ≤ size →
    joinReferences n size i (xs.map some) refs = .ok (refs ++ ", ".intercalate (xs.take (size - i).toNat))
  | [], i, refs, _, _ => by rw [List.take_nil, String.intercalate_nil, String.append_empty]; rfl
  | x :: xs, i, refs, hn, hi => by
    rw [List.length_cons] at hn
    rw [List.map_cons, joinReferences]
    by_cases hsize : size ≤ i
    · have hzero : (size - i).toNat = 0 := by omega
      rw [if_pos hsize, hzero, List.take_zero, String.intercalate_nil, String.append_empty]
    rw [if_neg hsize]
    show (if i + 1 = n ∨ (i : ℤ) = size - 1 then joinReferences n size (i + 1) (xs.map some) (refs ++ x)
      else joinReferences n size (i + 1) (xs.map some) (refs ++ x ++ ", ")) = _
    have htake : (size - i).toNat = (size - (i + 1 : ℕ)).toNat + 1 := by omega
    have ih := fun refs : String => joinReferences_map n size xs (i + 1) refs (by omega) (by omega)
    rw [htake, List.take_succ_cons]
    by_cases hlast : i + 1 = n ∨ (i : ℤ) = size - 1
    -- the last one that is listed: the references or the size end here
    · have hnil : xs.take (size - (i + 1 : ℕ)).toNat = [] := by
        rcases hlast with hend | hend
        · have hxs : xs = [] := List.length_eq_zero_iff.mp (by omega)
          rw [hxs, List.take_nil]
        · have hzero : (size - (i + 1 : ℕ)).toNat = 0 := by omega
          rw [hzero, List.take_zero]
      rw [if_pos hlast, ih, hnil, String.intercalate_nil, String.append_empty, String.intercalate_singleton]
    · have hne : xs.take (size - (i + 1 : ℕ)).toNat ≠ [] := by
        rw [Ne, List.take_eq_nil_iff, not_or, ← List.length_eq_zero_iff]
        omega
      rw [if_neg hlast, ih, String.intercalate_cons_of_ne_nil hne, String.append_assoc, String.append_assoc,
        String.append_assoc]

/-! ### A call -/

/-- The references of a set of texts, in their order. -/
theorem exists_texts {references : Finset Code} (htext : none ∉ references) :
    ∃ xs : List String, SetOrder.list references = xs.map some ∧ xs.Nodup ∧
      (∀ x ∈ xs, some x ∈ references) ∧ xs.length = references.card := by
  have hrange : SetOrder.list references ∈ Set.range (List.map (some : String → Code)) := by
    rw [Set.range_list_map]
    intro x hx
    cases x with
    | none => exact absurd ((SetOrder.mem_list _ _).mp hx) htext
    | some text => exact ⟨text, rfl⟩
  obtain ⟨xs, hxs⟩ := hrange
  have hnodup := SetOrder.nodup_list references
  have hmem : ∀ x, x ∈ SetOrder.list references ↔ x ∈ references := fun x => SetOrder.mem_list _ x
  have hcard : (SetOrder.list references).length = references.card := by
    rw [← List.toFinset_card_of_nodup hnodup]
    congr 1
    ext x
    rw [List.mem_toFinset, hmem]
  rw [← hxs] at hnodup hmem hcard
  rw [List.length_map] at hcard
  exact ⟨xs, hxs.symm, hnodup.of_map, fun x hx => (hmem _).mp (List.mem_map_of_mem hx), hcard⟩

/-- **What a call lists.** -/
theorem getReferences_lists {references : Finset Code} {size : ℤ} (hne : references.Nonempty)
    (htext : none ∉ references) (hsize : 1 ≤ size) :
    ∃ text, getReferences references size = .ok text ∧ Lists references size text := by
  obtain ⟨xs, hlist, hnodup, hmem, hlength⟩ := exists_texts htext
  have hpos : 0 < references.card := hne.card_pos
  have htake : ∀ m : ℕ, (m : ℤ) = min (references.card : ℤ) size →
      Lists references size ("\x7b" ++ ", ".intercalate (xs.take m) ++ "\x7d") := fun m hm =>
    ⟨xs.take m, hnodup.take, fun x hx => hmem x (List.mem_of_mem_take hx), by
      rw [← hm, List.length_take]
      omega, rfl⟩
  by_cases hone : references.card = 1 ∨ size = 1
  · cases xs with
    | nil => exact absurd hlength (by simp; omega)
    | cons x xs =>
      refine ⟨"\x7b" ++ x ++ "\x7d", ?_, ?_⟩
      · rw [getReferences, if_pos hone, hlist]
        rfl
      · have hfirst := htake 1 (by omega)
        rwa [List.take_succ_cons, List.take_zero, String.intercalate_singleton] at hfirst
  · refine ⟨"\x7b" ++ ", ".intercalate (xs.take size.toNat) ++ "\x7d", ?_, ?_⟩
    · have hjoin := joinReferences_map references.card size xs 0 "\x7b" (by omega) (by omega)
      rw [Nat.cast_zero, sub_zero] at hjoin
      rw [getReferences, if_neg hone, hlist, hjoin]
      rfl
    · have hmin : xs.take size.toNat = xs.take (min size.toNat xs.length) := List.take_eq_take_min
      rw [hmin]
      exact htake _ (by omega)

/-- A call leaves the set as it is if it has no sole reference to list. -/
theorem leftReferences_eq_iff {references : Finset Code} {size : ℤ} (hne : references.Nonempty) :
    leftReferences references size = references ↔ references.card ≠ 1 ∧ size ≠ 1 := by
  rw [← not_or]
  unfold leftReferences
  by_cases hone : references.card = 1 ∨ size = 1
  · rw [if_pos hone]
    refine iff_of_false ?_ (not_not.mpr hone)
    obtain ⟨y, hy⟩ := hne
    have hlist := (SetOrder.mem_list references y).mpr hy
    cases horder : SetOrder.list references with
    | nil =>
      rw [horder] at hlist
      cases hlist
    | cons x xs =>
      have hx : x ∈ references := (SetOrder.mem_list references x).mp (by rw [horder]; exact List.mem_cons_self)
      intro h
      have herase : x ∈ references.erase x := h.symm.subset hx
      exact Finset.notMem_erase x references herase
  · rw [if_neg hone]
    exact iff_of_true rfl hone

/-! ### Any number of calls -/

/-- **When references can be rendered again.** Reports are rendered without
loss exactly if they have at least two references and show at least two. -/
theorem renders_iff {references : Finset Code} {size : ℤ} (hne : references.Nonempty)
    (htext : none ∉ references) (hsize : 1 ≤ size) :
    Renders references size ↔ 2 ≤ references.card ∧ 2 ≤ size := by
  have hpos : 0 < references.card := hne.card_pos
  have hmany : 2 ≤ references.card ∧ 2 ≤ size ↔ leftReferences references size = references := by
    rw [leftReferences_eq_iff hne]
    omega
  rw [hmany]
  constructor
  · exact fun h => (h 1).1
  · intro hleft calls
    have hafter : afterCalls references size calls = references :=
      Function.iterate_fixed (f := fun references => leftReferences references size) hleft calls
    rw [hafter]
    exact ⟨rfl, getReferences_lists hne htext hsize⟩

end

/-- Two references, of which both are shown. -/
theorem renders_two :
    let _ : SetOrder Code := ⟨Finset.toList, fun _ _ => Finset.mem_toList, Finset.nodup_toList⟩
    Renders {some "a.c:1", some "a.c:2"} 3 := by
  intro _
  exact (renders_iff ⟨some "a.c:1", by simp⟩ (by simp) (by decide)).mpr ⟨by decide, by decide⟩

/-- A sole reference is lost. -/
theorem sole_reference_lost :
    let _ : SetOrder Code := ⟨Finset.toList, fun _ _ => Finset.mem_toList, Finset.nodup_toList⟩
    ¬ Renders {some "a.c:1"} 3 := by
  intro _ h
  have hleft : leftReferences {some "a.c:1"} 3 = {some "a.c:1"} := (h 1).1
  rw [leftReferences_eq_iff ⟨some "a.c:1", by simp⟩] at hleft
  exact hleft.1 rfl

end Apisan
