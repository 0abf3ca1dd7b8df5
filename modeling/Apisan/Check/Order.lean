/-
# The order of the trees

The checkers of return values and locks report the same whatever the order of
the trees, if and only if for each key with reports one value can come last,
and the common values that can come last among the common ones have equally
many locations (`Settled`). Nothing in a dictionary's order says that the value
shown is one that the score is about.

Key definition: `Settled`.
Key theorems: `Settled.ends`, `merge_perm_iff`.
-/
import Mathlib.Algebra.Order.Field.Rat
import Apisan.Check.Deviant

namespace Apisan

open Python FirstSeen Deviant

variable {K V C : Type} [DecidableEq K] [DecidableEq V] [DecidableEq C]

/-- The value that comes last is settled for every key with reports, and so is
the number of locations of the common value that does. -/
def Settled (config : Config) (trees : List (List (Add K V C))) : Prop :=
  ∀ key, (∃ x, Missing config trees key x) →
    (∃ adds ∈ trees, ∃ q ∈ valuesOf key adds, Common config (sites trees key) (sitesOf trees key q)) →
    (∀ v w, CanEnd (valuesOf key) trees (fun _ => True) v →
      CanEnd (valuesOf key) trees (fun _ => True) w → v = w) ∧
    ∀ q r, CanEnd (valuesOf key) trees
        (fun v => Common config (sites trees key) (sitesOf trees key v)) q →
      CanEnd (valuesOf key) trees
        (fun v => Common config (sites trees key) (sitesOf trees key v)) r →
      (sitesOf trees key q).card = (sitesOf trees key r).card

section

variable {config : Config} {trees bs : List (List (Add K V C))} {key : K}

theorem missing_perm (h : trees.Perm bs) {x : C} : Missing config bs key x ↔ Missing config trees key x := by
  simp only [Missing, sites_perm h, sitesOf_perm h]

theorem ends_perm (h : trees.Perm bs) {q v : V} : Ends config bs key q v ↔
    Last (fun v => Common config (sites trees key) (sitesOf trees key v))
        (FirstSeen.merge (valuesOf key) bs) q ∧
      Last (fun _ => True) (FirstSeen.merge (valuesOf key) bs) v := by
  simp only [Ends, sites_perm h, sitesOf_perm h]

/-- A common value that is used stays so in another order, where some value
comes last too. -/
theorem exists_ends (h : trees.Perm bs)
    (hq : ∃ adds ∈ trees, ∃ q ∈ valuesOf key adds, Common config (sites trees key) (sitesOf trees key q)) :
    ∃ q v, Ends config bs key q v := by
  obtain ⟨adds, hadds, q, hq, hcommon⟩ := hq
  have hmem : q ∈ FirstSeen.merge (valuesOf key) bs := mem_merge.mpr ⟨adds, h.mem_iff.mp hadds, hq⟩
  have hlast : ∃ r, Last (fun v => Common config (sites trees key) (sitesOf trees key v))
      (FirstSeen.merge (valuesOf key) bs) r := exists_last ⟨q, hmem, hcommon⟩
  have hend : ∃ v, Last (fun _ => True) (FirstSeen.merge (valuesOf key) bs) v :=
    exists_last ⟨q, hmem, trivial⟩
  obtain ⟨r, hr⟩ := hlast
  obtain ⟨v, hv⟩ := hend
  exact ⟨r, v, (ends_perm h).mpr ⟨hr, hv⟩⟩

theorem Deviant.Ends.exists_common {q v : V} (h : Ends config trees key q v) :
    ∃ adds ∈ trees, ∃ q ∈ valuesOf key adds, Common config (sites trees key) (sitesOf trees key q) := by
  obtain ⟨hmem, hq⟩ := h.1.mem
  obtain ⟨adds, hadds, hqa⟩ := mem_merge.mp hmem
  exact ⟨adds, hadds, q, hqa, hq⟩

/-- Two orders of settled trees end with the same value and score. -/
theorem Settled.ends (hs : Settled config trees) {cs : List (List (Add K V C))} (hb : trees.Perm bs)
    (hc : trees.Perm cs) {x : C} (hx : Missing config trees key x) {q v : V} (h : Ends config bs key q v) :
    ∃ q', Ends config cs key q' v ∧
      share (sites trees key) (sitesOf trees key q') = share (sites trees key) (sitesOf trees key q) := by
  have hcommon : ∃ adds ∈ trees, ∃ q ∈ valuesOf key adds,
      Common config (sites trees key) (sitesOf trees key q) := by
    obtain ⟨adds, hadds, r, hr, hPr⟩ := h.exists_common
    rw [← sites_perm hb, ← sitesOf_perm hb] at hPr
    exact ⟨adds, hb.mem_iff.mpr hadds, r, hr, hPr⟩
  obtain ⟨q', w, hends⟩ := exists_ends hc hcommon
  obtain ⟨hv, hq⟩ := hs key ⟨x, hx⟩ hcommon
  obtain ⟨hlast, hend⟩ := (ends_perm hb).mp h
  obtain ⟨hlast', hend'⟩ := (ends_perm hc).mp hends
  have hf := nodup_valuesOf (C := C) (V := V) key
  have hvw : v = w := hv v w ((exists_perm_last hf).mp ⟨bs, hb, hend⟩)
    ((exists_perm_last hf).mp ⟨cs, hc, hend'⟩)
  have hcard := hq q' q ((exists_perm_last hf).mp ⟨cs, hc, hlast'⟩)
    ((exists_perm_last hf).mp ⟨bs, hb, hlast⟩)
  exact ⟨q', hvw ▸ hends, by rw [share, share, hcard]⟩

end

/-- **The reports do not depend on the order exactly for settled trees**, of a
`merge` that reports the last score with a bonus and the last value. -/
theorem perm_iff_settled {config : Config} {bonus : K → ℚ}
    {R : List (List (Add K V C)) → Set (ℚ × C × K × V)}
    (hR : ∀ trees r, r ∈ R trees ↔ ∃ key x q v, Missing config trees key x ∧ Ends config trees key q v ∧
      r = (share (sites trees key) (sitesOf trees key q) + bonus key, x, key, v))
    (trees : List (List (Add K V C))) : (∀ bs, trees.Perm bs → R trees = R bs) ↔ Settled config trees := by
  have hf := nodup_valuesOf (K := K) (V := V) (C := C)
  constructor
  · intro hsame key hmissing hcommon
    obtain ⟨x, hx⟩ := hmissing
    -- any two orders show the same score and value at `x`
    have hagree : ∀ bs cs, trees.Perm bs → trees.Perm cs → ∀ q v q' v', Ends config bs key q v →
        Ends config cs key q' v' → v = v' ∧
          share (sites trees key) (sitesOf trees key q) = share (sites trees key) (sitesOf trees key q') := by
      intro bs cs hb hc q v q' v' h h'
      have hmem : (share (sites trees key) (sitesOf trees key q) + bonus key, x, key, v) ∈ R bs := by
        rw [sites_perm hb, sitesOf_perm hb]
        exact (hR bs _).mpr ⟨key, x, q, v, (missing_perm hb).mpr hx, h, rfl⟩
      rw [← hsame bs hb, hsame cs hc, hR] at hmem
      obtain ⟨key', x', r, w, -, hends, heq⟩ := hmem
      obtain ⟨hscore, -, rfl, rfl⟩ : _ = _ ∧ x = x' ∧ key = key' ∧ v = w := by simpa using heq
      rw [← sites_perm hc, ← sitesOf_perm hc] at hscore
      obtain ⟨hlast, hend⟩ := (ends_perm hc).mp hends
      obtain ⟨hlast', hend'⟩ := (ends_perm hc).mp h'
      rw [hlast.unique hlast'] at hscore
      exact ⟨hend.unique hend', add_right_cancel hscore⟩
    refine ⟨fun v w hv hw => ?_, fun q r hq hr => ?_⟩
    · obtain ⟨bs, hb, hlast⟩ := (exists_perm_last (hf key)).mpr hv
      obtain ⟨cs, hc, hlast'⟩ := (exists_perm_last (hf key)).mpr hw
      obtain ⟨q, u, hends⟩ := exists_ends hb hcommon
      obtain ⟨q', u', hends'⟩ := exists_ends hc hcommon
      have huv := ((ends_perm hb).mp hends).2.unique hlast
      have huw := ((ends_perm hc).mp hends').2.unique hlast'
      rw [← huv, ← huw]
      exact (hagree bs cs hb hc q u q' u' hends hends').1
    · obtain ⟨bs, hb, hlast⟩ := (exists_perm_last (hf key)).mpr hq
      obtain ⟨cs, hc, hlast'⟩ := (exists_perm_last (hf key)).mpr hr
      obtain ⟨q', u, hends⟩ := exists_ends hb hcommon
      obtain ⟨r', u', hends'⟩ := exists_ends hc hcommon
      have hqq := ((ends_perm hb).mp hends).1.unique hlast
      have hrr := ((ends_perm hc).mp hends').1.unique hlast'
      have hshare := (hagree bs cs hb hc q' u r' u' hends hends').2
      rw [hqq, hrr] at hshare
      have htotal : ((sites trees key).card : ℚ) ≠ 0 :=
        Nat.cast_ne_zero (R := ℚ).mpr (Finset.card_ne_zero.mpr ⟨x, hx.1⟩)
      exact Nat.cast_injective (R := ℚ) ((div_left_inj' htotal).mp hshare)
  · intro hs bs hb
    ext r
    rw [hR, hR]
    constructor
    · rintro ⟨key, x, q, v, hx, hends, rfl⟩
      obtain ⟨q', hends', hshare⟩ := hs.ends (.refl _) hb hx hends
      refine ⟨key, x, q', v, (missing_perm hb).mpr hx, hends', ?_⟩
      rw [← sites_perm hb, ← sitesOf_perm hb, hshare]
    · rintro ⟨key, x, q, v, hx, hends, rfl⟩
      have hx' := (missing_perm hb).mp hx
      obtain ⟨q', hends', hshare⟩ := hs.ends hb (.refl _) hx' hends
      refine ⟨key, x, q', v, hx', hends', ?_⟩
      rw [hshare, sites_perm hb, sitesOf_perm hb]

/-- Orders that end with different values show different reports. -/
theorem reported_ne {config : Config} {bonus : K → ℚ}
    {R : List (List (Add K V C)) → Set (ℚ × C × K × V)}
    (hR : ∀ trees r, r ∈ R trees ↔ ∃ key x q v, Missing config trees key x ∧ Ends config trees key q v ∧
      r = (share (sites trees key) (sitesOf trees key q) + bonus key, x, key, v))
    {trees bs : List (List (Add K V C))} {key : K} {x : C} {q v w : V} (hx : Missing config trees key x)
    (h : Ends config trees key q v) (hw : Last (fun _ => True) (FirstSeen.merge (valuesOf key) bs) w)
    (hvw : v ≠ w) : R trees ≠ R bs := by
  intro heq
  have hmem := (hR trees _).mpr ⟨key, x, q, v, hx, h, rfl⟩
  rw [heq, hR] at hmem
  obtain ⟨key', x', r, u, -, hends, hshown⟩ := hmem
  obtain ⟨-, -, rfl, rfl⟩ : _ = _ ∧ x = x' ∧ key = key' ∧ v = u := by simpa using hshown
  exact hvw (hends.2.unique hw)

variable [SetOrder C]

/-- **Order independence.** Over all orders of the trees, each of the two
checkers shows the same reports exactly where the trees are settled. -/
theorem merge_perm_iff (id? : K → Option String) (config : Config) (trees : List (List (Add K V C))) :
    ((∀ trees', trees.Perm trees' →
      reported (RetValChecker.merge id? (Context.ofTrees config trees)) =
        reported (RetValChecker.merge id? (Context.ofTrees config trees'))) ↔ Settled config trees) ∧
    ((∀ trees', trees.Perm trees' →
      reported (ThreadSafetyChecker.merge (Context.ofTrees config trees)) =
        reported (ThreadSafetyChecker.merge (Context.ofTrees config trees'))) ↔ Settled config trees) := by
  constructor
  · exact perm_iff_settled
      (R := fun trees => reported (RetValChecker.merge id? (Context.ofTrees config trees)))
      (RetValChecker.mem_reported id? config) trees
  · exact perm_iff_settled
      (R := fun trees => reported (ThreadSafetyChecker.merge (Context.ofTrees config trees)))
      (ThreadSafetyChecker.mem_reported config) trees

/-- A tree that calls `f` at four places with a lock. -/
def lockedCalls : List (Add (Option String) Bool Code) :=
  ["a.c:1", "a.c:2", "a.c:3", "a.c:4"].map fun code => ⟨some "f", some true, some code⟩

/-- A tree that calls `f` without. -/
def unlockedCall : List (Add (Option String) Bool Code) := [⟨some "f", some false, some "b.c:1"⟩]

/-- The report of the call without a lock shows the value of whichever tree
comes last. -/
theorem reported_locks_ne :
    let _ : SetOrder Code := ⟨Finset.toList, fun _ _ => Finset.mem_toList, Finset.nodup_toList⟩
    reported (ThreadSafetyChecker.merge (Context.ofTrees ⟨4 / 5⟩ [lockedCalls, unlockedCall])) ≠
      reported (ThreadSafetyChecker.merge (Context.ofTrees ⟨4 / 5⟩ [unlockedCall, lockedCalls])) := by
  intro _
  have hcommon : Common ⟨4 / 5⟩ (sites [lockedCalls, unlockedCall] (some "f"))
      (sitesOf [lockedCalls, unlockedCall] (some "f") true) := by decide +kernel
  have hrare : ¬ Common ⟨4 / 5⟩ (sites [lockedCalls, unlockedCall] (some "f"))
      (sitesOf [lockedCalls, unlockedCall] (some "f") false) := by decide +kernel
  have hmissing : Missing ⟨4 / 5⟩ [lockedCalls, unlockedCall] (some "f") (some "b.c:1") := by
    refine ⟨by decide, fun v hv => ?_⟩
    cases v with
    | true => decide
    | false => exact absurd hv hrare
  have hends : Ends ⟨4 / 5⟩ [lockedCalls, unlockedCall] (some "f") true false := by
    refine ⟨⟨[], [false], by decide, hcommon, fun w hw => ?_⟩, [true], [], by decide, trivial, by simp⟩
    rw [List.mem_singleton.mp hw]
    exact hrare
  exact reported_ne (w := true) (ThreadSafetyChecker.mem_reported ⟨4 / 5⟩) hmissing hends
    ⟨[false], [], by decide, trivial, by simp⟩ (by decide)

end Apisan
