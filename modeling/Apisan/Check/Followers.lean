/-
# The entries of a tree

What `CausalityChecker` holds of a tree before it adds anything: an entry for
each site of the tree, with the names that follow all its occurrences. An
occurrence that comes later on a path has fewer names after it, and the first
one of all starts the entry, but the names left over are those of the
intersection, in whatever order the paths come (`entries_spec`).

Key definitions: `followers`, `intersection`.
Key theorem: `CausalityChecker.entries_spec`.
-/
import Mathlib.Data.Set.Lattice
import Apisan.Check.Causality

namespace Apisan

open Python

namespace CausalityChecker

variable [StrHash]

/-- The names other than `f` that the events call. -/
def followers (f : ℤ) (later : List Event) : Set ℤ := {g | FollowedBy f g later}

/-- The names that follow all occurrences of a site on all paths of a tree. -/
def intersection (tree : List Path) (key : Key) (code : Code) : Set ℤ :=
  ⋂ path ∈ tree, ⋂ later, ⋂ _ : Occurrence path key code later, followers key.1 later

/-- `entries`, when all paths of a tree are processed. -/
def entriesOf (tree : List Path) : Except Error (Dict (Key × Code) (Finset ℤ)) :=
  tree.foldlM processPath .empty

theorem mem_intersection {tree : List Path} {key : Key} {code : Code} {g : ℤ} :
    g ∈ intersection tree key code ↔ AllFollowed tree key code g := by
  simp only [intersection, followers, Set.mem_iInter, Set.mem_ofPred_eq, AllFollowed]

/-- The order of the paths does not matter to what they have in common. -/
theorem intersection_perm {tree tree' : List Path} (h : tree'.Perm tree) (key : Key) (code : Code) :
    intersection tree' key code = intersection tree key code := by
  ext g
  rw [mem_intersection, mem_intersection]
  exact forall_congr' fun path => by rw [h.mem_iff]

theorem Occurs.perm {tree tree' : List Path} (h : tree'.Perm tree) (key : Key) (code : Code) :
    Occurs tree' key code ↔ Occurs tree key code :=
  exists_congr fun path => by rw [h.mem_iff]

/-- All calls can be read if there are entries. -/
theorem readable_of_entriesOf {tree : List Path} {entries : Dict (Key × Code) (Finset ℤ)}
    (h : entriesOf tree = .ok entries) : ∀ path ∈ tree, Readable path := readable_of_foldlM h

/-- What the entries of a tree are. -/
theorem entriesOf_ok {tree : List Path} (h : ∀ path ∈ tree, Readable path) :
    ∃ entries, entriesOf tree = .ok entries ∧ ∀ key code,
      ((∃ values, entries.get? (key, code) = some values) ↔ Occurs tree key code) ∧
        ∀ values, entries.get? (key, code) = some values → (values : Set ℤ) = intersection tree key code := by
  obtain ⟨entries, hrun, hmeets⟩ := foldlM_processPath h meets_empty
  refine ⟨entries, hrun, fun key code => ⟨(hmeets key code).1, fun values hvalues => ?_⟩⟩
  ext g
  rw [Finset.mem_coe, mem_intersection]
  exact (hmeets key code).2 values hvalues g

/-- **The entries of a tree.** If all its calls can be read, and only then,
there is an entry for each site that occurs on some path, with the names that
follow all its occurrences; another order of the paths makes the same entries. -/
theorem entries_spec (tree : List Path) :
    ((∃ entries, entriesOf tree = .ok entries) ↔ ∀ path ∈ tree, Readable path) ∧
      ∀ entries, entriesOf tree = .ok entries →
        (∀ key code, ((∃ values, entries.get? (key, code) = some values) ↔ Occurs tree key code) ∧
          ∀ values, entries.get? (key, code) = some values → (values : Set ℤ) = intersection tree key code) ∧
        ∀ tree', tree'.Perm tree →
          ∃ entries', entriesOf tree' = .ok entries' ∧ ∀ entry, entries'.get? entry = entries.get? entry := by
  refine ⟨⟨fun ⟨entries, h⟩ => readable_of_entriesOf h, fun h => ?_⟩, fun entries hentries => ?_⟩
  · obtain ⟨entries, hrun, -⟩ := entriesOf_ok h
    exact ⟨entries, hrun⟩
  have hread : ∀ path ∈ tree, Readable path := readable_of_entriesOf hentries
  obtain ⟨entries₀, hrun, hspec⟩ := entriesOf_ok hread
  cases hentries.symm.trans hrun
  refine ⟨hspec, fun tree' hperm => ?_⟩
  obtain ⟨entries', hrun', hspec'⟩ := entriesOf_ok fun path hpath => hread path (hperm.mem_iff.mp hpath)
  refine ⟨entries', hrun', fun ⟨key, code⟩ => ?_⟩
  obtain ⟨hoccurs, hvalues⟩ := hspec key code
  obtain ⟨hoccurs', hvalues'⟩ := hspec' key code
  rw [Occurs.perm hperm, ← hoccurs] at hoccurs'
  -- both orders have the entry or neither has, with the same names
  cases hget : entries.get? (key, code) with
  | none =>
    refine Option.eq_none_iff_forall_not_mem.mpr fun values h => ?_
    obtain ⟨values', h'⟩ := hoccurs'.mp ⟨values, h⟩
    rw [hget] at h'
    cases h'
  | some values =>
    obtain ⟨values', h'⟩ := hoccurs'.mpr ⟨values, hget⟩
    have hsame : (values' : Set ℤ) = values := by
      rw [hvalues' values' h', intersection_perm hperm, hvalues values hget]
    rw [h', Finset.coe_injective hsame]

omit [StrHash]

/-- A path that allocates at one place twice, and frees once. -/
def reused : Path :=
  ⟨[callAt "malloc(n)" "a.c:1", callAt "free(p)" "a.c:2", callAt "malloc(n)" "a.c:1", .eop], some .empty⟩

/-- The second allocation is followed by nothing, so the entry of both is empty,
although the first path frees what it allocates. -/
theorem entries_reused :
    let _ : StrHash := ⟨fun s => s.length⟩
    ∃ entries, entriesOf [freed, reused] = .ok entries ∧
      ∃ values, entries.get? ((6, none), some "a.c:1") = some values ∧
        (values : Set ℤ) = intersection [freed, reused] (6, none) (some "a.c:1") ∧ values = ∅ := by
  intro _
  have hmalloc : callOf (callAt "malloc(n)" "a.c:1") =
      .ok (some (⟨some (some "malloc(n)"), some (some "a.c:1")⟩, .id "malloc", [.id "n"])) := rfl
  have hfree : callOf (callAt "free(p)" "a.c:2") =
      .ok (some (⟨some (some "free(p)"), some (some "a.c:2")⟩, .id "free", [.id "p"])) := rfl
  have heop : callOf .eop = .ok none := rfl
  have hread : ∀ path ∈ [freed, reused], Readable path := by
    simp [Readable, freed, reused, hmalloc, hfree, heop]
  obtain ⟨hreturns, hspec⟩ := entries_spec [freed, reused]
  obtain ⟨entries, hentries⟩ := hreturns.mpr hread
  obtain ⟨hoccurs, hvalues⟩ := (hspec entries hentries).1 (6, none) (some "a.c:1")
  have hlast : Occurrence reused (6, none) (some "a.c:1") [.eop] :=
    ⟨[_, _], _, _, _, _, rfl, hmalloc, rfl, _, rfl, rfl⟩
  obtain ⟨values, hget⟩ := hoccurs.mpr ⟨reused, by simp, [.eop], hlast⟩
  refine ⟨entries, hentries, values, hget, hvalues values hget, Finset.eq_empty_of_forall_notMem fun g hg => ?_⟩
  have hmem : g ∈ intersection [freed, reused] (6, none) (some "a.c:1") := by
    rw [← hvalues values hget]
    exact hg
  obtain ⟨-, event, hevent, a, name, args, hcall, -⟩ := mem_intersection.mp hmem reused (by simp) [.eop] hlast
  rw [List.mem_singleton.mp hevent] at hcall
  cases hcall

end CausalityChecker

end Apisan
