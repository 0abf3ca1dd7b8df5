/-
# The reports on pairs

Whom the causality checker reports when a database is checked, in terms of the
graphs in it. A site counts for a name if the name is called after the site
wherever it stands in one of the trees that hold it; a site that does not count is
reported with each name for which most sites of the function do, and no other is
(`CausalityChecker.explore_pairs`).

Key definitions: `Pairing`, `Database.Trees`, `CausalityChecker.Stands`,
`CausalityChecker.Use`.
Key theorems: `Context.getBaseBugs_spec`, `Added.exists_pairing`,
`Database.mem_trees`, `CausalityChecker.explore_pairs`.
-/
import Apisan.Check.Failures

namespace Apisan

open Python Cache TextLines

/-! ### The reports on pairs -/

/-- The reports are sorted by their scores, and name the sites with the values of
which `P` is true, each once, and no others. -/
structure Pairing {K V : Type} (bugs : Option (List (BugReport K V Code))) (P : K → V → Code → Prop) : Prop where
  sorted : (bugs.getD []).Pairwise fun a b => b.score ≤ a.score
  nodup : ((bugs.getD []).map fun b => (b.key, b.ctx, b.code)).Nodup
  iff : ∀ key v x, (∃ b ∈ bugs.getD [], b.key = key ∧ b.ctx = v ∧ b.code = x) ↔ P key v x

section

variable {K V : Type}

/-- A ranking with a bonus keeps what the reports name. -/
theorem perm_ranked (bonus : BugReport K V Code → ℚ) (bugs : List (BugReport K V Code)) :
    ((ranked bonus bugs).map fun b => (b.key, b.ctx, b.code)).Perm (bugs.map fun b => (b.key, b.ctx, b.code)) := by
  refine ((List.perm_insertionSort _ _).map _).trans ?_
  rw [List.map_map]
  exact .refl _

theorem mem_ranked (bonus : BugReport K V Code → ℚ) (bugs : List (BugReport K V Code)) (key : K) (v : V) (x : Code) :
    (∃ b ∈ ranked bonus bugs, b.key = key ∧ b.ctx = v ∧ b.code = x) ↔
      ∃ b ∈ bugs, b.key = key ∧ b.ctx = v ∧ b.code = x := by
  have hmem := (perm_ranked bonus bugs).mem_iff (a := (key, v, x))
  simpa only [List.mem_map, Prod.mk.injEq] using hmem

variable [DecidableEq K] [DecidableEq V] [SetOrder Code]

namespace Context

omit [DecidableEq V] [SetOrder Code] in
theorem mem_values_iff {c : Context K V Code} {x : K × Store1 V Code} (hx : x ∈ c.ctxUses.entries) (v : V) :
    v ∈ c.values x.1 ↔ ∃ y ∈ x.2.entries, y.1 = v := by
  rw [values, dict_eq (Dict.mem_entries.mp hx)]
  exact List.mem_map

omit [SetOrder Code] in
theorem codes_of_mem {c : Context K V Code} {x : K × Store1 V Code} (hx : x ∈ c.ctxUses.entries)
    {y : V × Finset Code} (hy : y ∈ x.2.entries) : c.codes x.1 y.1 = y.2 := by
  rw [codes, dict_eq (Dict.mem_entries.mp hx), Dict.mem_entries.mp hy, Option.getD_some]

omit [SetOrder Code] in
/-- The value has the share that is asked for exactly if most sites have it, but
not all. -/
theorem qualifies_of_mem {c : Context K V Code} (h : c.Sound) {x : K × Store1 V Code}
    (hx : x ∈ c.ctxUses.entries) {y : V × Finset Code} (hy : y ∈ x.2.entries) : c.Qualifies x.1 y.1 ↔
      c.config.threshold ≤ share (c.total x.1) y.2 ∧ share (c.total x.1) y.2 ≠ 1 := by
  have hcodes := codes_of_mem hx hy
  have hsub : y.2 ⊆ c.total x.1 := hcodes ▸ h.subset x.1 y.1
  have hone := share_eq_one (h.covered x.1 x.2 (Dict.mem_entries.mp hx)) hsub
  rw [Qualifies, and_iff_right ((mem_values_iff hx y.1).mpr ⟨y, hy, rfl⟩), hcodes, ne_eq, ne_eq, hone]

/-- The reports of a value of a key: the sites that do not have it, if most do. -/
theorem exists_valueBugs {c : Context K V Code} (h : c.Sound) {x : K × Store1 V Code}
    (hx : x ∈ c.ctxUses.entries) {y : V × Finset Code} (hy : y ∈ x.2.entries) : ∃ l, (do
        let score ← quotient y.2.card (c.total x.1).card
        if c.config.threshold ≤ score ∧ score ≠ 1 then
          Except.ok (reports score x.1 y.1 (c.total x.1 \ y.2)) else .ok []) = Except.ok l ∧
      ((l.map fun b => (b.ctx, b.code)).Nodup ∧ ∀ b ∈ l, b.key = x.1 ∧ b.ctx = y.1) ∧
        ∀ z, (∃ b ∈ l, b.code = z) ↔ c.Qualifies x.1 y.1 ∧ z ∈ c.total x.1 \ c.codes x.1 y.1 := by
  have hquot : quotient y.2.card (c.total x.1).card = .ok (share (c.total x.1) y.2) :=
    quotient_ok (h.covered x.1 x.2 (Dict.mem_entries.mp hx)) _
  rw [hquot, qualifies_of_mem h hx hy, codes_of_mem hx hy]
  simp only [ok_bind]
  split_ifs with hshare
  · refine ⟨_, rfl, ⟨?_, fun b hb => ?_⟩, fun z => ?_⟩
    · unfold reports
      rw [List.map_map]
      exact (SetOrder.nodup_list _).map fun z z' hz => congrArg Prod.snd hz
    · obtain ⟨z, -, rfl⟩ := List.mem_map.mp hb
      exact ⟨rfl, rfl⟩
    · rw [and_iff_right hshare]
      simp only [reports, List.mem_map, exists_exists_and_eq_and, exists_eq_right, SetOrder.mem_list]
  · refine ⟨[], rfl, ⟨List.nodup_nil, fun b hb => (List.not_mem_nil hb).elim⟩, fun z => ?_⟩
    refine iff_of_false ?_ fun hz => hshare hz.1
    rintro ⟨b, hb, -⟩
    exact List.not_mem_nil hb

/-- The reports of a key: for each value that most of its sites have, but not all,
the sites that do not. -/
theorem baseBugs_spec {c : Context K V Code} (h : c.Sound) {x : K × Store1 V Code} (hx : x ∈ c.ctxUses.entries) :
    ∃ bugs, baseBugs c.config x.1 x.2 (c.total x.1) = .ok bugs ∧
      ((bugs.map fun b => (b.ctx, b.code)).Nodup ∧ ∀ b ∈ bugs, b.key = x.1) ∧
        ∀ v z, (∃ b ∈ bugs, b.ctx = v ∧ b.code = z) ↔ c.Qualifies x.1 v ∧ z ∈ c.total x.1 \ c.codes x.1 v := by
  obtain ⟨bugs, hbugs⟩ : ∃ bugs, baseBugs c.config x.1 x.2 (c.total x.1) = .ok bugs := gather_ok fun y hy => by
    obtain ⟨l, hl, -⟩ := exists_valueBugs h hx hy
    exact ⟨l, hl⟩
  have hmem : ∀ b ∈ bugs, ∃ y ∈ x.2.entries, (b.key = x.1 ∧ b.ctx = y.1) ∧
      c.Qualifies x.1 y.1 ∧ b.code ∈ c.total x.1 \ c.codes x.1 y.1 := by
    intro b hb
    obtain ⟨y, hy, l, hl, hbl⟩ := (mem_gather hbugs).mp hb
    obtain ⟨l', hl', ⟨-, hkey⟩, hiff⟩ := exists_valueBugs h hx hy
    cases hl.symm.trans hl'
    exact ⟨y, hy, hkey b hbl, (hiff b.code).mp ⟨b, hbl, rfl⟩⟩
  refine ⟨bugs, hbugs, ⟨nodup_gather hbugs x.2.nodup fun y hy l hl => ?_, fun b hb => ?_⟩, fun v z => ?_⟩
  · obtain ⟨l', hl', ⟨hnodup, hkey⟩, -⟩ := exists_valueBugs h hx hy
    cases hl.symm.trans hl'
    exact ⟨hnodup, fun b hb => (hkey b hb).2⟩
  · obtain ⟨-, -, ⟨hkey, -⟩, -⟩ := hmem b hb
    exact hkey
  · constructor
    · rintro ⟨b, hb, rfl, rfl⟩
      obtain ⟨y, -, ⟨-, hctx⟩, hcode⟩ := hmem b hb
      rw [hctx]
      exact hcode
    · rintro ⟨hv, hz⟩
      obtain ⟨y, hy, rfl⟩ := (mem_values_iff hx v).mp hv.1
      obtain ⟨l, hl, ⟨-, hkey⟩, hiff⟩ := exists_valueBugs h hx hy
      obtain ⟨b, hb, hcode⟩ := (hiff z).mpr ⟨hv, hz⟩
      exact ⟨b, (mem_gather hbugs).mpr ⟨y, hy, l, hl, hb⟩, (hkey b hb).2, hcode⟩

/-- The reports of a context. -/
theorem getBaseBugs_spec {c : Context K V Code} (h : c.Sound) : ∃ bugs, c.getBugs baseBugs = .ok bugs ∧
    (bugs.map fun b => (b.key, b.ctx, b.code)).Nodup ∧
      ∀ key v x, (∃ b ∈ bugs, b.key = key ∧ b.ctx = v ∧ b.code = x) ↔
        c.Qualifies key v ∧ x ∈ c.total key \ c.codes key v := by
  obtain ⟨bugs, hbugs⟩ := c.exists_baseBugs h
  refine ⟨bugs, hbugs, nodup_gather hbugs c.ctxUses.nodup fun x hx l hl => ?_, fun key v z => ?_⟩
  · obtain ⟨l', hl', ⟨hnodup, hkey⟩, -⟩ := baseBugs_spec h hx
    cases hl.symm.trans hl'
    refine ⟨.of_map Prod.snd ?_, hkey⟩
    rw [List.map_map]
    exact hnodup
  · constructor
    · rintro ⟨b, hb, rfl, rfl, rfl⟩
      obtain ⟨x, hx, l, hl, hbl⟩ := (mem_gather hbugs).mp hb
      obtain ⟨l', hl', ⟨-, hkey⟩, hiff⟩ := baseBugs_spec h hx
      cases hl.symm.trans hl'
      rw [hkey b hbl]
      exact (hiff b.ctx b.code).mp ⟨b, hbl, rfl, rfl⟩
    · rintro ⟨hv, hz⟩
      obtain ⟨value, hvalue⟩ := exists_dict hv.1
      have hentry : (key, value) ∈ c.ctxUses.entries := Dict.mem_entries.mpr hvalue
      obtain ⟨l, hl, ⟨-, hkey⟩, hiff⟩ := baseBugs_spec h hentry
      obtain ⟨b, hb, hctx, hcode⟩ := (hiff v z).mpr ⟨hv, hz⟩
      exact ⟨b, (mem_gather hbugs).mpr ⟨_, hentry, l, hl, hb⟩, hkey b hb, hctx, hcode⟩

end Context

/-- **Who lacks a value** that most sites of the key have is reported with it. -/
theorem Added.exists_pairing {config : Config} {use : Add K V Code → Prop} {ctxs : List (Context K V Code)}
    (h : Added config use ctxs) (bonus : BugReport K V Code → ℚ) :
    ∃ (S : Sites use) (bugs : Option (List (BugReport K V Code))),
      Deviant.merge Context.baseBugs (ranked bonus) ctxs = .ok bugs ∧
        Pairing bugs fun key v x => S.Major config key v ∧ x ∈ S.total key ∧ x ∉ S.codes key v := by
  rcases h.exists_sites with ⟨hmerge, huse⟩ | ⟨c, hmerge, rfl, hsound, S, htotal, hcodes⟩
  · refine ⟨Added.noSites huse, none, ?_, ⟨.nil, List.nodup_nil, fun key v x => iff_of_false ?_ fun hx => ?_⟩⟩
    · unfold Deviant.merge
      rw [hmerge]
    · rintro ⟨b, hb, -⟩
      cases hb
    · exact hx.1.1 rfl
  · obtain ⟨bugs, hbugs, hnodup, hiff⟩ := Context.getBaseBugs_spec hsound
    have hmajor := S.qualifies_iff_major hsound htotal hcodes
    refine ⟨S, some (ranked bonus bugs), Deviant.merge_eq_some.mpr ⟨c, bugs, hmerge, hbugs, rfl⟩, ?_, ?_, ?_⟩
    · exact ranks_sortedByScore.sorted _
    · exact (perm_ranked bonus bugs).nodup_iff.mpr hnodup
    · intro key v x
      refine (mem_ranked bonus bugs key v x).trans ((hiff key v x).trans ?_)
      rw [hmajor, htotal, hcodes, Finset.mem_sdiff]

end


namespace Database

variable {ι : Type} {N : ι → Type} [∀ i, DecidableEq (N i)] [∀ i, Fintype (N i)] {D : Database ι}
variable {G : ∀ i, ExplodedGraph (N i)} [StrHash]
variable {qualify : DatabaseFile → Option String → Option String} {fns : List DatabaseFile}

/-- The trees that are read from the graphs' prints: the sequences of each, their
locations resolved. -/
def Trees (D : Database ι) (G : ∀ i, ExplodedGraph (N i)) (qualify : DatabaseFile → Option String → Option String)
    (fns : List DatabaseFile) (t : List (List Event)) : Prop :=
  ∃ fn ∈ fns, ∃ i ∈ D.graphs fn, ∃ es, readTree (G i).print = some es ∧ ∃ x ∈ es, ∃ seqs,
    ExecTree.sequences true x = some seqs ∧ t = seqs.map (List.map (Event.mapCode (qualify fn)))

/-- The sequences in the trees are those that the paths of the graphs leave. -/
theorem mem_trees {s : List Event} : (∃ t, D.Trees G qualify fns t ∧ s ∈ t) ↔ D.Leaves G qualify fns s := by
  constructor
  · rintro ⟨-, ⟨fn, hfn, i, hi, es, hes, x, hx, seqs, hseqs, rfl⟩, hs⟩
    obtain ⟨s', hs', rfl⟩ := List.mem_map.mp hs
    obtain ⟨q, hq⟩ := (mem_sequences_print true i hes s').mp ⟨x, hx, seqs, hseqs, hs'⟩
    exact ⟨fn, hfn, i, hi, q, s', hq, rfl⟩
  · rintro ⟨fn, hfn, i, hi, q, s', hq, rfl⟩
    obtain ⟨es, hes, -⟩ := (G i).print_spec true
    obtain ⟨x, hx, seqs, hseqs, hs'⟩ := (mem_sequences_print true i hes s').mpr ⟨q, hq⟩
    exact ⟨_, ⟨fn, hfn, i, hi, es, hes, x, hx, seqs, hseqs, rfl⟩, List.mem_map_of_mem hs'⟩

end Database

/-! ### The checker of causality -/

namespace CausalityChecker

section

variable [StrHash]

/-- A call stands in the sequence, at its location and with the first constraints
on it, with `later` after it. -/
def Stands (s : List Event) (key : Key) (code : Code) (later : List Event) : Prop :=
  ∃ earlier event a name args, s = earlier ++ event :: later ∧ callOf event = .ok (some (a, name, args)) ∧
    a.code = some code ∧ key = (name.key, firstConstraint s (.call name args))

/-- A call in the tree uses the function at its location, with each name that is
called after the call wherever it stands in the tree. -/
def Use (t : List (List Event)) (a : Add Key ℤ Code) : Prop :=
  (∃ s ∈ t, ∃ later, Stands s a.key a.code later) ∧
    ∀ g, a.value = some g → ∀ s ∈ t, ∀ later, Stands s a.key a.code later → FollowedBy a.key.1 g later

theorem occurrence_iff {path : Path} (h : path.Printed true) {key : Key} {code : Code} {later : List Event} :
    Occurrence path key code later ↔ Stands path.events key code later := by
  obtain ⟨m, hm, hget⟩ := h.constraints rfl
  unfold Occurrence Stands
  simp only [hm, Option.some.injEq, exists_eq_left', hget]

variable [SetOrder ℤ]

/-- What the checker makes of the paths of a tree. -/
theorem process_printed (config : Config) {paths : List Path} (h : ∀ path ∈ paths, path.Printed true)
    (hparse : ∀ path ∈ paths, ∀ event ∈ path.events, unparsed event = false) :
    ∃ adds, process config paths = .ok ((Context.new config).addAll adds) ∧
      ∀ a, a ∈ adds ↔ Use (paths.map Path.events) a := by
  have hread : ∀ path ∈ paths, Readable path := fun path hpath =>
    (readable_iff (h path hpath).wellFormed).mpr (hparse path hpath)
  obtain ⟨entries, hentries, hmeets⟩ := foldlM_processPath hread meets_empty
  refine ⟨allAdds entries, by rw [process, hentries, ok_bind], fun a => mem_allAdds.trans ?_⟩
  obtain ⟨hoccurs, hall⟩ := hmeets a.key a.code
  rw [List.nil_append] at hoccurs hall
  have hstands : Occurs paths a.key a.code ↔ ∃ s ∈ paths.map Path.events, ∃ later, Stands s a.key a.code later := by
    simp only [List.mem_map, exists_exists_and_eq_and]
    exact exists_congr fun path => and_congr_right fun hpath => exists_congr fun later =>
      occurrence_iff (h path hpath)
  have hfollowed : ∀ g, AllFollowed paths a.key a.code g ↔
      ∀ s ∈ paths.map Path.events, ∀ later, Stands s a.key a.code later → FollowedBy a.key.1 g later := fun g => by
    simp only [List.forall_mem_map]
    exact forall₂_congr fun path hpath => forall_congr' fun later =>
      imp_congr_left (occurrence_iff (h path hpath))
  unfold Use
  rw [← hstands, ← hoccurs]
  simp only [← hfollowed]
  constructor
  · rintro ⟨s, hs, hvalue⟩
    refine ⟨⟨s, hs⟩, fun g hg => (hall s hs g).mp ?_⟩
    rcases hvalue with hnone | ⟨g', hg', hsome⟩
    · cases hnone.symm.trans hg
    · cases hsome.symm.trans hg
      exact hg'
  · rintro ⟨⟨s, hs⟩, hvalue⟩
    refine ⟨s, hs, ?_⟩
    cases hg : a.value with
    | none => exact .inl rfl
    | some g => exact .inr ⟨g, (hall s hs g).mpr (hvalue g hg), rfl⟩

variable [SetOrder Code]

/-- `CausalityChecker`, as `CHECKERS` has it. -/
def cpairClass (id? : ℤ → Option String) : CheckerClass Config (Context Key ℤ Code)
    (Except Error (Option (List (BugReport Key ℤ Code)))) where
  parseConstraints := true
  process := process
  merge _ := merge id?

variable {ι : Type} {N : ι → Type} [∀ i, DecidableEq (N i)] [∀ i, Fintype (N i)] {D : Database ι}
variable {G : ∀ i, ExplodedGraph (N i)} {ns : Xml.Namespaces} {resolver : String → Resolver}
variable {qualify : DatabaseFile → Option String → Option String} {fns : List DatabaseFile} {e : Explorer}

/-- **Pairs, from graphs to reports.** A database whose calls parse is explored to
its end, and the sites are reported that a name does not follow throughout a tree,
though it follows most sites of the function so. -/
theorem explore_pairs (id? : ℤ → Option String) {w : World Config (Context Key ℤ Code)}
    (hstored : D.Stored G ns resolver qualify w fns) (hfresh : Fresh .cpair e w)
    (hparse : ∀ s, D.Leaves G qualify fns s → ∀ event ∈ s, unparsed event = false) :
    ∃ (S : Sites fun a => ∃ t, D.Trees G qualify fns t ∧ Use t a) (bugs : Option (List (BugReport Key ℤ Code))),
      (explore resolver (fun _ => cpairClass id?) e w fns).2 = .ok (.ok bugs) ∧
        (∀ order, (∀ fn ∈ fns, fn ∈ order) →
          (exploreParallel resolver (fun _ => cpairClass id?) e w fns order).2 = some (.ok bugs)) ∧
        Pairing bugs fun key g x => S.Major w.conf key g ∧ x ∈ S.total key ∧ x ∉ S.codes key g := by
  have htree : ∀ fn ∈ fns, ∀ i ∈ D.graphs fn, ∀ es, readTree (G i).print = some es → ∀ x ∈ es,
      ∃ ctxs, processTree (cpairClass id?) (resolver fn) w.conf x.spaced = .ok ctxs ∧
        Added w.conf (fun a => ∃ seqs, ExecTree.sequences true x = some seqs ∧
          Use (seqs.map (List.map (Event.mapCode (qualify fn)))) a) ctxs := by
    intro fn hfn i hi es hes x hx
    obtain ⟨es', hes', hprinted⟩ := Database.printed_graph hstored hfn hi
    obtain rfl := Option.some.inj (hes.symm.trans hes')
    obtain ⟨paths, seqs, hprocess, hseqs, hevents, hpaths⟩ := (hprinted x hx).exists_paths true
    obtain ⟨adds, hadds, hmem⟩ := process_printed w.conf hpaths fun path hpath => by
      refine hparse path.events (Database.mem_trees.mp ⟨_, ?_, List.mem_map_of_mem hpath⟩)
      exact ⟨fn, hfn, i, hi, es, hes, x, hx, seqs, hseqs, hevents⟩
    refine ⟨_, (hprocess _ w.conf rfl).trans (congrArg _ hadds), [adds], rfl, fun a => ?_⟩
    simp only [List.mem_singleton, exists_eq_left, hseqs, Option.some.injEq, exists_eq_left', ← hevents, hmem]
  obtain ⟨ctxs, hadded, hexplore, hparallel⟩ := Database.contexts_of_trees (fun _ => cpairClass id?)
    hstored hfresh htree
  have htrees : ∀ a, (∃ fn ∈ fns, ∃ i ∈ D.graphs fn, ∃ es, readTree (G i).print = some es ∧ ∃ x ∈ es, ∃ seqs,
      ExecTree.sequences true x = some seqs ∧ Use (seqs.map (List.map (Event.mapCode (qualify fn)))) a) ↔
        ∃ t, D.Trees G qualify fns t ∧ Use t a := by
    intro a
    constructor
    · rintro ⟨fn, hfn, i, hi, es, hes, x, hx, seqs, hseqs, ha⟩
      exact ⟨_, ⟨fn, hfn, i, hi, es, hes, x, hx, seqs, hseqs, rfl⟩, ha⟩
    · rintro ⟨-, ⟨fn, hfn, i, hi, es, hes, x, hx, seqs, hseqs, rfl⟩, ha⟩
      exact ⟨fn, hfn, i, hi, es, hes, x, hx, seqs, hseqs, ha⟩
  obtain ⟨S, bugs, hbugs, hpairing⟩ := (hadded.congr htrees).exists_pairing (bonus id?)
  refine ⟨S, bugs, hexplore.trans (congrArg Except.ok hbugs), fun order horder => ?_, hpairing⟩
  exact (hparallel order horder).trans (congrArg some hbugs)

omit [StrHash] [SetOrder ℤ] [SetOrder Code] in
/-- The call is a site of `f`. -/
theorem explore_pairs_usedWorld :
    let _ : StrHash := ⟨fun s => s.length⟩
    let _ : SetOrder ℤ := ⟨Finset.toList, fun _ _ => Finset.mem_toList, Finset.nodup_toList⟩
    let _ : SetOrder Code := ⟨Finset.toList, fun _ _ => Finset.mem_toList, Finset.nodup_toList⟩
    ∃ (S : Sites fun a => ∃ t, usedDatabase.Trees (fun _ => usedGraph) qualifyUsed [databaseFile] t ∧ Use t a)
      (bugs : Option (List (BugReport Key ℤ Code))),
      (explore (fun _ => containedResolver "a.c") (fun _ => cpairClass fun _ => none) (.skipCache .cpair)
        (usedWorld _) [databaseFile]).2 = .ok (.ok bugs) ∧
        (Pairing bugs fun key g x => S.Major ⟨4 / 5⟩ key g ∧ x ∈ S.total key ∧ x ∉ S.codes key g) ∧
        some "a.c:5" ∈ S.total ((Symbol.id "f").key, some [(0, 0)]) := by
  intro _ _ _
  obtain ⟨S, bugs, hexplore, -, hpairing⟩ := explore_pairs (fun _ => none) (usedWorld_stored (Context Key ℤ Code))
    (.inl rfl) usedDatabase_parse
  obtain ⟨t, ht, hs⟩ := Database.mem_trees.mpr usedDatabase_leaves
  have hfirst : firstConstraint usedSequence (.call (.id "f") [.id "x", .call (.id "g") [.id "x"]]) =
      some [(0, 0)] := by decide +kernel
  have hstands : Stands usedSequence ((Symbol.id "f").key, some [(0, 0)]) (some "a.c:5") usedSequence.tail :=
    ⟨[], _, _, _, _, rfl, rfl, rfl, congrArg _ hfirst.symm⟩
  have huse : Use t ⟨((Symbol.id "f").key, some [(0, 0)]), none, some "a.c:5"⟩ :=
    ⟨⟨_, hs, _, hstands⟩, fun g hg => (by cases hg)⟩
  exact ⟨S, bugs, hexplore, hpairing, (S.mem_total _ _).mpr ⟨_, ⟨t, ht, huse⟩, rfl, rfl⟩⟩

end

end CausalityChecker

end Apisan
