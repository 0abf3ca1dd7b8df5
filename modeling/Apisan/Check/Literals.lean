/-
# The reports on format strings

Whom the checker of format strings reports when a database is checked, in terms of
the graphs in it: the sites that pass something else than a literal, where most
sites of the function pass a literal for the argument, but not all
(`FSBChecker.explore_formats`). A site that passes both counts on both sides.

Key definitions: `FSBChecker.Use`, `Sites.literalShare`.
Key theorems: `FSBChecker.adds_of_parsed`, `FSBChecker.explore_formats`.
-/
import Apisan.Check.Pairs
import Apisan.Check.Formats

namespace Apisan

open Python Cache TextLines

/-- The share of the sites of a key that pass a literal; one that passes both a
format and another literal counts twice. -/
def Sites.literalShare {K : Type} {use : Add K (Bool × Bool) Code → Prop} (S : Sites use) (key : K) : ℚ :=
  (((S.codes key (true, true)).card + (S.codes key (true, false)).card : ℕ) : ℚ) / (S.total key).card

namespace FSBChecker

variable [StrHash]

/-- A call uses the function with each of its arguments, at its location. -/
def Use (s : List Event) (a : Add (ℤ × ℕ) (Bool × Bool) Code) : Prop :=
  ∃ event ∈ s, ∃ call name args arg, isCall event = .ok (some call) ∧ call.call = .ok (some (name, args)) ∧
    call.code = some a.code ∧ name.key = a.key.1 ∧ args[a.key.2]? = some arg ∧ a.value = some (value arg)

/-- What a path adds whose calls parse. -/
theorem adds_of_parsed {path : Path} (h : path.Printed true)
    (hparse : ∀ event ∈ path.events, unparsed event = false) :
    ∃ adds, processPath path = .ok adds ∧ ∀ a, a ∈ adds ↔ Use path.events a := by
  obtain ⟨adds, hadds⟩ := (processPath_ok h.wellFormed).mpr hparse
  refine ⟨adds, hadds, fun a => (mem_gather hadds).trans ?_⟩
  unfold Use
  constructor
  · rintro ⟨event, hevent, l, hl, ha⟩
    exact ⟨event, hevent, (mem_processEvent hl).mp ha⟩
  · rintro ⟨event, hevent, ha⟩
    obtain ⟨l, hl⟩ := of_gather_ok hadds event hevent
    exact ⟨event, hevent, l, hl, (mem_processEvent hl).mpr ha⟩

variable [SetOrder Code]

/-- `FSBChecker`, as `CHECKERS` has it. -/
def fsbClass (id? : ℤ → Option String) : CheckerClass Config (Context (ℤ × ℕ) (Bool × Bool) Code)
    (Except Error (Option (List (BugReport (ℤ × ℕ) (Bool × Bool) Code)))) where
  parseConstraints := true
  process := Checker.process processPath
  merge _ := merge id?

omit [StrHash] in
/-- **Who passes no literal** where most do is reported. -/
theorem exists_reports (id? : ℤ → Option String) {config : Config} {use : Add (ℤ × ℕ) (Bool × Bool) Code → Prop}
    {ctxs : List (Context (ℤ × ℕ) (Bool × Bool) Code)} (h : Added config use ctxs) :
    ∃ (S : Sites use) (bugs : Option (List (BugReport (ℤ × ℕ) (Bool × Bool) Code))),
      merge id? ctxs = .ok bugs ∧ ((bugs.getD []).Pairwise fun a b => b.score ≤ a.score) ∧
        ∀ key x, (∃ b ∈ bugs.getD [], b.key = key ∧ b.code = x) ↔
          (config.threshold ≤ S.literalShare key ∧ S.literalShare key ≠ 1) ∧ ∃ f, x ∈ S.codes key (false, f) := by
  rcases h.exists_sites with ⟨hmerge, huse⟩ | ⟨c, hmerge, rfl, hsound, S, htotal, hcodes⟩
  · refine ⟨Added.noSites huse, none, ?_, .nil, fun key x => iff_of_false ?_ ?_⟩
    · unfold merge Deviant.merge
      rw [hmerge]
    · rintro ⟨b, hb, -⟩
      cases hb
    · rintro ⟨-, f, hx⟩
      cases hx
  · obtain ⟨bugs, hbugs, hiff⟩ := FSBContext.getBugs_spec hsound
    refine ⟨S, some (ranked (bonus id?) bugs), Deviant.merge_eq_some.mpr ⟨c, bugs, hmerge, hbugs, rfl⟩,
      ranks_sortedByScore.sorted _, fun key x => ?_⟩
    have hranked : (∃ b ∈ ranked (bonus id?) bugs, b.key = key ∧ b.code = x) ↔
        ∃ b ∈ bugs, b.key = key ∧ b.code = x := by
      have hmem := fun v => mem_ranked (bonus id?) bugs key v x
      constructor
      · rintro ⟨b, hb, hkey, hcode⟩
        obtain ⟨b', hb', hkey', -, hcode'⟩ := (hmem b.ctx).mp ⟨b, hb, hkey, rfl, hcode⟩
        exact ⟨b', hb', hkey', hcode'⟩
      · rintro ⟨b, hb, hkey, hcode⟩
        obtain ⟨b', hb', hkey', -, hcode'⟩ := (hmem b.ctx).mpr ⟨b, hb, hkey, rfl, hcode⟩
        exact ⟨b', hb', hkey', hcode'⟩
    have hshare : ∀ {v z}, z ∈ c.codes key v → FSBContext.score c key = .ok (S.literalShare key) := by
      intro v z hz
      rw [FSBContext.score_eq (Finset.ne_empty_of_mem (hsound.subset key v hz)), Sites.literalShare, hcodes, htotal]
    refine hranked.trans ?_
    rw [hcodes]
    constructor
    · rintro ⟨b, hb, hkey, hcode⟩
      obtain ⟨hscore, hq, ⟨l, f⟩, rfl, hx⟩ := (hiff key x b.score).mp ⟨b, hb, hkey, hcode, rfl⟩
      rw [Except.ok.inj ((hshare hx).symm.trans hscore)]
      exact ⟨hq, f, hx⟩
    · rintro ⟨hq, f, hx⟩
      obtain ⟨b, hb, hkey, hcode, -⟩ := (hiff key x _).mpr ⟨hshare hx, hq, (false, f), rfl, hx⟩
      exact ⟨b, hb, hkey, hcode⟩

variable {ι : Type} {N : ι → Type} [∀ i, DecidableEq (N i)] [∀ i, Fintype (N i)] {D : Database ι}
variable {G : ∀ i, ExplodedGraph (N i)} {ns : Xml.Namespaces} {resolver : String → Resolver}
variable {qualify : DatabaseFile → Option String → Option String} {fns : List DatabaseFile} {e : Explorer}

/-- **Format strings, from graphs to reports.** A database whose calls parse is
explored to its end, and the sites are reported that pass something else than a
literal where most pass one. -/
theorem explore_formats (id? : ℤ → Option String) {w : World Config (Context (ℤ × ℕ) (Bool × Bool) Code)}
    (hstored : D.Stored G ns resolver qualify w fns) (hfresh : Fresh .fsb e w)
    (hparse : ∀ s, D.Leaves G qualify fns s → ∀ event ∈ s, unparsed event = false) :
    ∃ (S : Sites fun a => ∃ s, D.Leaves G qualify fns s ∧ Use s a)
      (bugs : Option (List (BugReport (ℤ × ℕ) (Bool × Bool) Code))),
      (explore resolver (fun _ => fsbClass id?) e w fns).2 = .ok (.ok bugs) ∧
        (∀ order, (∀ fn ∈ fns, fn ∈ order) →
          (exploreParallel resolver (fun _ => fsbClass id?) e w fns order).2 = some (.ok bugs)) ∧
        ((bugs.getD []).Pairwise fun a b => b.score ≤ a.score) ∧
        ∀ key x, (∃ b ∈ bugs.getD [], b.key = key ∧ b.code = x) ↔
          (w.conf.threshold ≤ S.literalShare key ∧ S.literalShare key ≠ 1) ∧ ∃ f, x ∈ S.codes key (false, f) := by
  obtain ⟨ctxs, hadded, hexplore, hparallel⟩ := Database.contexts_of_leaves
    (Q := fun s => ∀ event ∈ s, unparsed event = false) (fun _ => fsbClass id?) rfl
    (fun _ hprinted => adds_of_parsed hprinted) hstored hfresh hparse
  obtain ⟨S, bugs, hbugs, hsorted, hiff⟩ := exists_reports id? hadded
  refine ⟨S, bugs, hexplore.trans (congrArg Except.ok hbugs), fun order horder => ?_, hsorted, hiff⟩
  exact (hparallel order horder).trans (congrArg some hbugs)

omit [StrHash] [SetOrder Code] in
/-- The call passes no literal. -/
theorem explore_formats_usedWorld :
    let _ : StrHash := ⟨fun s => s.length⟩
    let _ : SetOrder Code := ⟨Finset.toList, fun _ _ => Finset.mem_toList, Finset.nodup_toList⟩
    ∃ (S : Sites fun a => ∃ s, usedDatabase.Leaves (fun _ => usedGraph) qualifyUsed [databaseFile] s ∧ Use s a)
      (bugs : Option (List (BugReport (ℤ × ℕ) (Bool × Bool) Code))),
      (explore (fun _ => containedResolver "a.c") (fun _ => fsbClass fun _ => none) (.skipCache .fsb) (usedWorld _)
        [databaseFile]).2 = .ok (.ok bugs) ∧
        (∀ key x, (∃ b ∈ bugs.getD [], b.key = key ∧ b.code = x) ↔
          (4 / 5 ≤ S.literalShare key ∧ S.literalShare key ≠ 1) ∧ ∃ f, x ∈ S.codes key (false, f)) ∧
        some "a.c:5" ∈ S.codes ((Symbol.id "f").key, 0) (false, false) := by
  intro _ _
  obtain ⟨S, bugs, hexplore, -, -, hiff⟩ := explore_formats (fun _ => none)
    (usedWorld_stored (Context (ℤ × ℕ) (Bool × Bool) Code)) (.inl rfl) usedDatabase_parse
  have huse : Use usedSequence ⟨((Symbol.id "f").key, 0), some (false, false), some "a.c:5"⟩ :=
    ⟨_, List.mem_cons_self, _, .id "f", [.id "x", .call (.id "g") [.id "x"]], .id "x", rfl, rfl, rfl, rfl, rfl, rfl⟩
  exact ⟨S, bugs, hexplore, hiff, (S.mem_codes _ _ _).mpr ⟨_, ⟨_, usedDatabase_leaves, huse⟩, rfl, rfl, rfl⟩⟩

end FSBChecker

end Apisan
