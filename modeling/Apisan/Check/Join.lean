/-
# Merging as a join

For the five checkers that only add, the contexts of trees merged in any
order, with repetitions, are for Python equal to one context that processed
all the paths, and the contexts merged in are unchanged (`merge_as_one`). For
three of them the reports are the same set.

Key definitions: `Context.Same`, `AddingChecker`.
Key theorem: `AddingChecker.merge_as_one`.
-/
import Mathlib.Data.Option.Basic
import Apisan.Check.Bugs
import Apisan.Check.Objects

namespace Apisan

open Python

namespace Context

variable {K V C : Type} [DecidableEq K] [DecidableEq V]

/-- Equality of the stores: the same sets under the same keys. -/
def Same (c d : Context K V C) : Prop :=
  (∀ key, c.totalUses.get? key = d.totalUses.get? key) ∧
    ∀ key, Option.Rel (fun u v => ∀ value, u.get? value = v.get? value)
      (c.ctxUses.get? key) (d.ctxUses.get? key)

theorem same_of_view {c d : Context K V C} (h : c.view = d.view) : c.Same d := by
  refine ⟨fun key => Store1.view_eq_iff.mp (congrArg Prod.fst h) key, fun key => ?_⟩
  cases hc : c.ctxUses.get? key with
  | some u =>
    obtain ⟨v, hd, heq⟩ := exists_value h hc
    rw [hd]
    exact .some heq
  | none =>
    cases hd : d.ctxUses.get? key with
    | some v =>
      obtain ⟨u, hu, -⟩ := exists_value h.symm hd
      rw [hu] at hc
      cases hc
    | none => exact .none

end Context

/-- The checkers whose `_process_path` only adds uses, by name. -/
inductive AddingChecker
  | args
  | fsb
  | intovfl
  | rvchk
  | thread
  deriving DecidableEq, Repr

namespace AddingChecker

/-- The keys of a checker's context. -/
def Key : AddingChecker → Type
  | args => ℤ × ℕ × ℕ
  | fsb => ℤ × ℕ
  | intovfl => ℤ × ℕ
  | rvchk => ℤ
  | thread => Option String

/-- The values of a checker's context. -/
def Value : AddingChecker → Type
  | args => Bool
  | fsb => Bool × Bool
  | intovfl => IntOvflChkType
  | rvchk => List (ℤ × ℤ)
  | thread => Bool

instance : ∀ a : AddingChecker, DecidableEq a.Key
  | args => inferInstanceAs (DecidableEq (ℤ × ℕ × ℕ))
  | fsb => inferInstanceAs (DecidableEq (ℤ × ℕ))
  | intovfl => inferInstanceAs (DecidableEq (ℤ × ℕ))
  | rvchk => inferInstanceAs (DecidableEq ℤ)
  | thread => inferInstanceAs (DecidableEq (Option String))

instance : ∀ a : AddingChecker, DecidableEq a.Value
  | args => inferInstanceAs (DecidableEq Bool)
  | fsb => inferInstanceAs (DecidableEq (Bool × Bool))
  | intovfl => inferInstanceAs (DecidableEq IntOvflChkType)
  | rvchk => inferInstanceAs (DecidableEq (List (ℤ × ℤ)))
  | thread => inferInstanceAs (DecidableEq Bool)

section

variable [StrHash]

/-- The uses a checker adds for a path. -/
def processPath : (a : AddingChecker) → Path → Except Error (List (Add a.Key a.Value Code))
  | args => ArgChecker.processPath
  | fsb => FSBChecker.processPath
  | intovfl => IntOvflChecker.processPath
  | rvchk => RetValChecker.processPath
  | thread => ThreadSafetyChecker.processPath

/-- `process` of a checker. -/
def process (a : AddingChecker) (config : Config) (tree : List Path) :
    Except Error (Context a.Key a.Value Code) :=
  Checker.process a.processPath config tree

end

section

variable [SetOrder Code]

/-- The reports of a key, for a checker whose `get_bugs` looks at each key's
dictionary as a whole; the other two go through it with a state. -/
def keyBugs : (a : AddingChecker) →
    Option (Config → a.Key → Store1 a.Value Code → Finset Code →
      Except Error (List (BugReport a.Key a.Value Code)))
  | args => some ArgContext.keyBugs
  | fsb => some FSBContext.keyBugs
  | intovfl => some IntOvflContext.keyBugs
  | rvchk => none
  | thread => none

theorem respects {a : AddingChecker} {f} (h : f ∈ a.keyBugs) : Respects f := by
  cases a with
  | args =>
    cases h
    exact ArgContext.respects
  | fsb =>
    cases h
    exact FSBContext.respects
  | intovfl =>
    cases h
    exact IntOvflContext.respects
  | rvchk => cases h
  | thread => cases h

end

variable [StrHash] [SetOrder Code]

/-- **Merging is a join.** The paths are cut into trees, and the contexts of
the trees, as separate objects, merged into context `i` in any order and with
any repetitions. The result equals that of one `process` of all the paths, in
any order and number; no other context changes; and a `get_bugs` that has no
state returns the same reports. -/
theorem merge_as_one (a : AddingChecker) {config : Config} {trees : List (List Path)}
    {ctxs : List (Context a.Key a.Value Code)} {paths : List Path} {i : ℕ} {js : List ℕ}
    (hprocess : List.Forall₂ (fun tree c => a.process config tree = .ok c) trees ctxs)
    (hpaths : ∀ p, p ∈ paths ↔ ∃ tree ∈ trees, p ∈ tree)
    (hmerged : ∀ k, k = i ∨ k ∈ js ↔ k < ctxs.length) :
    ∃ all, a.process config paths = .ok all ∧
      (((Objects.load ctxs).mergeAll i js).read i).Same all ∧
      (∀ k c, k ≠ i → ctxs[k]? = some c → ((Objects.load ctxs).mergeAll i js).read k = c) ∧
      ∀ keyBugs ∈ a.keyBugs,
        SameBugs ((((Objects.load ctxs).mergeAll i js).read i).getBugs keyBugs)
          (all.getBugs keyBugs) := by
  have hproc : Checker.Processed a.processPath config trees ctxs := hprocess
  have hall := hproc.process_paths hpaths
  obtain ⟨all, hdef⟩ : ∃ all, (Context.new config).addAll (Checker.uses a.processPath paths) = all :=
    ⟨_, rfl⟩
  rw [hdef] at hall
  have hi : i < ctxs.length := (hmerged i).mp (.inl rfl)
  obtain ⟨hother, hconfig, hview⟩ :=
    Objects.read_mergeAll (i := i) js (Objects.separate_load ctxs)
  have hread : ∀ k (hk : k < ctxs.length), (Objects.load ctxs).read k = ctxs[k] := fun k hk =>
    Objects.read_load (List.getElem?_eq_getElem hk)
  -- the context merged into is the join of all
  have hjoin : ∀ x, (((Objects.load ctxs).mergeAll i js).read i).view ≤ x ↔
      ∀ d ∈ ctxs, d.view ≤ x := fun x => by
    rw [hview]
    constructor
    · rintro ⟨hxi, hxj⟩ d hd
      obtain ⟨k, hk, rfl⟩ := List.getElem_of_mem hd
      rcases (hmerged k).mpr hk with rfl | hmem
      · rwa [hread k hk] at hxi
      · have hxk := hxj k hmem
        rwa [hread k hk] at hxk
    · intro hx
      refine ⟨?_, fun j hj => ?_⟩
      · rw [hread i hi]
        exact hx _ (List.getElem_mem hi)
      · have hlt := (hmerged j).mp (.inr hj)
        rw [hread j hlt]
        exact hx _ (List.getElem_mem hlt)
  have heq := hproc.view_eq hpaths hall hjoin
  refine ⟨all, hall, Context.same_of_view heq, fun k c hk hc => ?_, fun f hf => ?_⟩
  · rw [hother k hk, Objects.read_load hc]
  · have hcovered : all.Covered := hdef ▸ Context.covered_addAll (Context.covered_new config)
    have hconf : (((Objects.load ctxs).mergeAll i js).read i).config = all.config := by
      rw [hconfig, hread i hi, hproc.config_eq (List.getElem_mem hi), ← hdef, Context.addAll_config]
      rfl
    exact Context.sameBugs (respects hf) heq hconf hcovered

/-- A path with one call, whose arguments are related. -/
def relatedCall : Path :=
  ⟨[.call ⟨some (some "f(g(x),x)"), some (some "a.c:1")⟩, .eop], none⟩

omit [StrHash] [SetOrder Code] in
/-- A tree that the database holds twice, and the second merged twice. -/
theorem merge_as_one_twice :
    let _ : StrHash := ⟨fun s => s.length⟩
    let _ : SetOrder Code := ⟨Finset.toList, fun _ _ => Finset.mem_toList, Finset.nodup_toList⟩
    ∃ c all, args.process ⟨4 / 5⟩ [relatedCall] = .ok c ∧ args.process ⟨4 / 5⟩ [relatedCall] = .ok all ∧
      (((Objects.load [c, c]).mergeAll 0 [1, 1]).read 0).Same all ∧
      ((Objects.load [c, c]).mergeAll 0 [1, 1]).read 1 = c := by
  intro _ _
  obtain ⟨c, hc⟩ : ∃ c, args.process ⟨4 / 5⟩ [relatedCall] = .ok c := ⟨_, rfl⟩
  have hmerged : ∀ k, k = 0 ∨ k ∈ [1, 1] ↔ k < [c, c].length := fun k => by simp; omega
  have hpaths : ∀ p, p ∈ [relatedCall] ↔ ∃ tree ∈ [[relatedCall], [relatedCall]], p ∈ tree :=
    fun p => by simp
  obtain ⟨all, hall, hsame, hother, -⟩ := merge_as_one args (.cons hc (.cons hc .nil)) hpaths hmerged
  exact ⟨c, all, hc, hall, hsame, hother 1 c (by decide) rfl⟩

end AddingChecker

end Apisan
