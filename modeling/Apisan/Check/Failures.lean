/-
# Which checks fail

A checker that reads the call of every call event raises at one that does not
parse. The explorer catches nothing, so such a checker gives reports exactly if all
the calls parse that the paths of the graphs leave: one call, on one path of one
function, is enough to have no report on any file. The other checkers always give
reports (`ReportingChecker.explore_reports_iff`): what is made of trees is merged
without an exception (`ReportingChecker.exists_merge`).

Key definitions: `ReportingChecker.checkerClass`, `ReportingChecker.ReadsCalls`.
Key theorems: `Cache.explore_ok_iff`, `ReportingChecker.process_ok_iff`,
`ReportingChecker.exists_merge`, `ReportingChecker.explore_reports_iff`.
-/
import Apisan.Check.Unparsed
import Apisan.Check.Verdicts

namespace Apisan

open Python Cache TextLines

/-! ### Explorations that end -/

/-- The explorer raises where a file does, and so do the workers. -/
theorem Cache.explore_ok_iff [StrHash] {Conf Ctx Reports : Type} (resolver : String → Resolver)
    (checkers : CheckerName → CheckerClass Conf Ctx Reports) {c : CheckerName} {e : Explorer} {w : World Conf Ctx}
    (h : Fresh c e w) (fns : List DatabaseFile) :
    ((∃ r, (explore resolver checkers e w fns).2 = .ok r) ↔
        ∀ fn ∈ fns, ∃ ctxs, exploreFile resolver checkers (c, fn.1) (w.now fn) = .ok ctxs) ∧
      ∀ order, (∀ fn ∈ fns, fn ∈ order) → ((∃ r, (exploreParallel resolver checkers e w fns order).2 = some r) ↔
        ∀ fn ∈ fns, ∃ ctxs, exploreFile resolver checkers (c, fn.1) (w.now fn) = .ok ctxs) := by
  obtain ⟨hexplore, hparallel⟩ := explore_fresh resolver checkers h fns
  rw [hexplore, ← gather_ok_iff]
  refine ⟨?_, fun order horder => ?_⟩
  · cases gather (fun fn : DatabaseFile => exploreFile resolver checkers (c, fn) (w.now fn)) fns <;>
      simp [Except.map]
  · rw [hparallel order horder]
    cases gather (fun fn : DatabaseFile => exploreFile resolver checkers (c, fn) (w.now fn)) fns <;>
      simp [Except.toOption]

namespace Database

variable [StrHash] {ι : Type} {N : ι → Type} [∀ i, DecidableEq (N i)] [∀ i, Fintype (N i)] {D : Database ι}
variable {G : ∀ i, ExplodedGraph (N i)} {ns : Xml.Namespaces} {resolver : String → Resolver}
variable {qualify : DatabaseFile → Option String → Option String} {fns : List DatabaseFile}
variable {K V R : Type} {w : World Config (Context K V Code)} {c : CheckerName}
variable {checkers : CheckerName → CheckerClass Config (Context K V Code) R}

/-- A file is explored to its end if the sequences of its graphs have what a
checker needs of them. -/
theorem exploreFile_ok_iff {Q : List Event → Prop} (hchk : ∀ config paths,
      (∀ path ∈ paths, path.Printed (checkers c).parseConstraints) →
        ((∃ ctx, (checkers c).process config paths = .ok ctx) ↔ ∀ path ∈ paths, Q path.events))
    (hstored : D.Stored G ns resolver qualify w fns) {fn : DatabaseFile} (hfn : fn ∈ fns) :
    (∃ ctxs, exploreFile resolver checkers (c, fn) (w.now fn) = .ok ctxs) ↔
      ∀ i ∈ D.graphs fn, ∀ q s, LeftBy (G i) q s → Q (s.map (Event.mapCode (qualify fn))) := by
  have htree : ∀ i ∈ D.graphs fn, ∀ es, readTree (G i).print = some es → ∀ x ∈ es,
      ((∃ ctxs, processTree (checkers c) (resolver fn) w.conf x.spaced = .ok ctxs) ↔
        ∀ s, (∃ seqs, ExecTree.sequences (checkers c).parseConstraints x = some seqs ∧ s ∈ seqs) →
          Q (s.map (Event.mapCode (qualify fn)))) := by
    intro i hi es hes x hx
    obtain ⟨es', hes', hprinted⟩ := printed_graph hstored hfn hi
    obtain rfl := Option.some.inj (hes.symm.trans hes')
    obtain ⟨paths, seqs, hprocess, hseqs, hevents, hpaths⟩ :=
      (hprinted x hx).exists_paths (checkers c).parseConstraints
    have hok : (∃ ctxs, processTree (checkers c) (resolver fn) w.conf x.spaced = .ok ctxs) ↔
        ∃ ctx, (checkers c).process w.conf paths = .ok ctx := by
      rw [hprocess (checkers c) w.conf rfl]
      cases (checkers c).process w.conf paths <;> simp [Except.map]
    rw [hok, hchk w.conf paths hpaths, ← List.forall_mem_map, hevents, List.forall_mem_map]
    simp only [hseqs, Option.some.injEq, exists_eq_left']
  rw [exploreFile_eq hstored hfn, gather_ok_iff]
  constructor
  · intro h i hi q s hq
    obtain ⟨es, hes, -⟩ := printed_graph hstored hfn hi
    obtain ⟨x, hx, hs⟩ := (mem_sequences_print (checkers c).parseConstraints i hes s).mpr ⟨q, hq⟩
    exact (htree i hi es hes x hx).mp (h x (List.mem_flatMap.mpr ⟨i, hi, by rw [hes]; exact hx⟩)) s hs
  · intro h x hx
    obtain ⟨i, hi, hx⟩ := List.mem_flatMap.mp hx
    obtain ⟨es, hes, -⟩ := printed_graph hstored hfn hi
    rw [hes] at hx
    refine (htree i hi es hes x hx).mpr fun s hs => ?_
    obtain ⟨q, hq⟩ := (mem_sequences_print _ i hes s).mp ⟨x, hx, hs⟩
    exact h i hi q s hq

end Database

/-- A context of a tree is one that the checker made of paths. -/
theorem Cache.process_of_processTree [StrHash] {Conf Ctx R : Type} {chk : CheckerClass Conf Ctx R}
    {resolver : Resolver} {conf : Conf} {root : Element} {ctxs : List Ctx}
    (h : processTree chk resolver conf root = .ok ctxs) {ctx : Ctx} (hctx : ctx ∈ ctxs) :
    ∃ paths, chk.process conf paths = .ok ctx := by
  rw [processTree_eq] at h
  obtain ⟨⟨heap, node⟩, -, h⟩ := bind_eq_ok.mp h
  cases hiterate : ExecTree.iterate resolver heap node with
  | done yields =>
    simp only [hiterate] at h
    obtain ⟨ctx', hprocess, h⟩ := bind_eq_ok.mp h
    cases h
    exact ⟨_, List.mem_singleton.mp hctx ▸ hprocess⟩
  | raised error yields =>
    simp only [hiterate] at h
    obtain ⟨ctx', -, h⟩ := bind_eq_ok.mp h
    cases h

/-! ### Merges -/

section

variable {K V : Type} [DecidableEq K] [DecidableEq V]

theorem Context.reachable_foldl : ∀ {cs : List (Context K V Code)} {c : Context K V Code}, c.Reachable →
    (∀ d ∈ cs, d.Reachable) → (cs.foldl Context.merge c).Reachable
  | [], _, hc, _ => hc
  | d :: cs, c, hc, h => by
    rw [List.forall_mem_cons] at h
    have hmerge : (cs.foldl Context.merge (c.merge d)).Reachable := reachable_foldl (.merge hc h.1) h.2
    exact hmerge

/-- A processed tree has a context that adds make. -/
theorem Checker.reachable_of_process {processPath : Path → Except Error (List (Add K V Code))} {config : Config}
    {paths : List Path} {ctx : Context K V Code} (h : Checker.process processPath config paths = .ok ctx) :
    ctx.Reachable := by
  obtain ⟨-, rfl⟩ := Checker.process_ok.mp h
  exact Context.reachable_addAll (.new config)

/-- Contexts are merged and reported, if every sound context can be. -/
theorem Deviant.exists_merge {ctxs : List (Context K V Code)} (h : ∀ ctx ∈ ctxs, ctx.Reachable)
    {keyBugs : Config → K → Store1 V Code → Finset Code → Except Error (List (BugReport K V Code))}
    (hbugs : ∀ c : Context K V Code, c.Sound → ∃ bugs, c.getBugs keyBugs = .ok bugs)
    (rank : List (BugReport K V Code) → List (BugReport K V Code)) :
    ∃ bugs, Deviant.merge keyBugs rank ctxs = .ok bugs := by
  cases ctxs with
  | nil => exact ⟨none, rfl⟩
  | cons c cs =>
    rw [List.forall_mem_cons] at h
    obtain ⟨bugs, hget⟩ := hbugs _ (Context.reachable_foldl h.1 h.2).sound
    exact ⟨some (rank bugs), Deviant.merge_eq_some.mpr ⟨_, bugs, rfl, hget, rfl⟩⟩

variable [SetOrder Code]

omit [SetOrder Code] in
theorem Respects.exists_bugs
    {keyBugs : Config → K → Store1 V Code → Finset Code → Except Error (List (BugReport K V Code))}
    (h : Respects keyBugs) (c : Context K V Code) (hc : c.Sound) : ∃ bugs, c.getBugs keyBugs = .ok bugs := by
  obtain ⟨bugs, -, hbugs, -⟩ := Context.sameBugs h rfl rfl hc.covered
  exact ⟨bugs, hbugs⟩

omit [DecidableEq V] in
theorem Context.exists_baseBugs [DecidableEq V] (c : Context K V Code) (hc : c.Sound) :
    ∃ bugs, c.getBugs Context.baseBugs = .ok bugs := by
  refine gather_ok fun x hx => gather_ok fun y _ => ?_
  have hquot := quotient_ok (hc.covered x.1 x.2 (Dict.mem_entries.mp hx)) y.2.card
  simp only [hquot, ok_bind]
  split_ifs
  · exact ⟨_, rfl⟩
  · exact ⟨_, rfl⟩

end

/-! ### The checkers -/

theorem Path.Printed.wellFormed {path : Path} [StrHash] (h : path.Printed true) : path.WellFormed := by
  refine ⟨fun event hevent => ?_, ?_⟩
  · obtain ⟨e, f, rfl⟩ := h.events event hevent
    exact (hasAttributes_mapCode e f).1
  · obtain ⟨m, hm, -⟩ := h.constraints rfl
    rw [hm]
    exact Option.some_ne_none m

/-- All calls of the trace parse. -/
theorem usedDatabase_parse : ∀ s, usedDatabase.Leaves (fun _ => usedGraph) qualifyUsed [databaseFile] s →
    ∀ event ∈ s, unparsed event = false := by
  let _ : StrHash := ⟨fun s => s.length⟩
  intro s hs
  obtain ⟨fn, -, i, -, q, s', hq, rfl⟩ := hs
  obtain ⟨seqs, hseqs, hmem⟩ := usedGraph.mem_extract true
  have hextract : usedGraph.extract true = some [usedTrace.map SymExecEvent.toEvent] := by decide +kernel
  obtain rfl := Option.some.inj (hseqs.symm.trans hextract)
  rw [List.mem_singleton.mp ((hmem s').mpr ⟨q, hq⟩)]
  have hparse : ∀ event ∈ usedSequence, unparsed event = false := by decide +kernel
  exact hparse

namespace ReportingChecker

/-- The key of a checker in `CHECKERS`. -/
def name : ReportingChecker → CheckerName
  | adding .args => .args
  | adding .fsb => .fsb
  | adding .intovfl => .intovfl
  | adding .rvchk => .rvchk
  | adding .thread => .thread
  | cpair => .cpair

/-- The checkers that read the call of every call event. -/
def ReadsCalls (c : ReportingChecker) : Prop := c = .cpair ∨ c = .adding .fsb ∨ c = .adding .intovfl

section

variable [StrHash] [SetOrder ℤ] [SetOrder Code]

/-- `process` of a checker. -/
def process (config : Config) : (c : ReportingChecker) → List Path → Except Error (Context c.Key c.Value Code)
  | adding a => a.process config
  | cpair => CausalityChecker.process config

/-- The class of a checker: that of locks alone has no use for constraints. -/
def checkerClass (id? : ℤ → Option String) (c : ReportingChecker) : CheckerClass Config (Context c.Key c.Value Code)
    (Except Error (Option (List (BugReport c.Key c.Value Code)))) where
  parseConstraints := decide (c ≠ .adding .thread)
  process config := c.process config
  merge _ := c.merge id?

omit [SetOrder Code] in
/-- **Which trees are processed**: those of which a checker can read all the calls
that it reads. -/
theorem process_ok_iff (c : ReportingChecker) (config : Config) {paths : List Path}
    (h : ∀ path ∈ paths, path.Printed (decide (c ≠ .adding .thread))) :
    (∃ ctx, c.process config paths = .ok ctx) ↔
      ∀ path ∈ paths, c.ReadsCalls → ∀ event ∈ path.events, unparsed event = false := by
  have hall : ∀ {P : Prop}, c.ReadsCalls → ((P ↔ AllParse paths) ↔
      (P ↔ ∀ path ∈ paths, c.ReadsCalls → ∀ event ∈ path.events, unparsed event = false)) := fun hreads => by
    simp only [hreads, forall_const, AllParse]
  have hnone : ∀ {P : Prop}, ¬ c.ReadsCalls → P →
      (P ↔ ∀ path ∈ paths, c.ReadsCalls → ∀ event ∈ path.events, unparsed event = false) := fun hreads hp =>
    iff_of_true hp fun _ _ hc => absurd hc hreads
  rcases c with (_ | _ | _ | _ | _) | _
  case adding.args => exact hnone (by simp [ReadsCalls]) ⟨_, ArgChecker.adds.process_eq config h⟩
  case adding.rvchk => exact hnone (by simp [ReadsCalls]) ⟨_, RetValChecker.adds.process_eq config h⟩
  case adding.thread => exact hnone (by simp [ReadsCalls]) ⟨_, ThreadSafetyChecker.adds.process_eq config h⟩
  case adding.fsb =>
    exact (hall (.inr (.inl rfl))).mp (Apisan.process_ok_iff (K := ℤ × ℕ) (V := Bool × Bool) fun path hpath =>
      FSBChecker.processPath_ok (Path.Printed.wellFormed (h path hpath)))
  case adding.intovfl =>
    exact (hall (.inr (.inr rfl))).mp (Apisan.process_ok_iff (K := ℤ × ℕ) (V := IntOvflChkType) fun path hpath =>
      IntOvflChecker.processPath_ok (Path.Printed.wellFormed (h path hpath)))
  case cpair =>
    refine (hall (.inl rfl)).mp ((CausalityChecker.process_spec config paths).1.trans ?_)
    exact forall₂_congr fun path hpath => CausalityChecker.readable_iff (Path.Printed.wellFormed (h path hpath))

/-- What the checker made of trees is merged and reported. -/
theorem exists_merge (id? : ℤ → Option String) (c : ReportingChecker) {config : Config}
    {ctxs : List (Context c.Key c.Value Code)} (h : ∀ ctx ∈ ctxs, ∃ paths, c.process config paths = .ok ctx) :
    ∃ bugs, c.merge id? ctxs = .ok bugs := by
  rcases c with (_ | _ | _ | _ | _) | _
  case adding.args =>
    refine Deviant.exists_merge (K := ℤ × ℕ × ℕ) (V := Bool) (fun ctx hctx => ?_) ArgContext.respects.exists_bugs _
    obtain ⟨paths, hpaths⟩ := h ctx hctx
    exact Checker.reachable_of_process hpaths
  case adding.fsb =>
    refine Deviant.exists_merge (K := ℤ × ℕ) (V := Bool × Bool) (fun ctx hctx => ?_) FSBContext.respects.exists_bugs _
    obtain ⟨paths, hpaths⟩ := h ctx hctx
    exact Checker.reachable_of_process hpaths
  case adding.intovfl =>
    refine Deviant.exists_merge (K := ℤ × ℕ) (V := IntOvflChkType) (fun ctx hctx => ?_)
      IntOvflContext.respects.exists_bugs _
    obtain ⟨paths, hpaths⟩ := h ctx hctx
    exact Checker.reachable_of_process hpaths
  case adding.rvchk =>
    refine Deviant.exists_merge (K := ℤ) (V := List (ℤ × ℤ)) (fun ctx hctx => ?_) (fun c hc => ?_) _
    · obtain ⟨paths, hpaths⟩ := h ctx hctx
      exact Checker.reachable_of_process hpaths
    · obtain ⟨bugs, hbugs, -⟩ := Context.exists_reported_iff hc false
      exact ⟨bugs, hbugs⟩
  case adding.thread =>
    refine Deviant.exists_merge (K := Option String) (V := Bool) (fun ctx hctx => ?_) (fun c hc => ?_) _
    · obtain ⟨paths, hpaths⟩ := h ctx hctx
      exact Checker.reachable_of_process hpaths
    · obtain ⟨bugs, hbugs, -⟩ := Context.exists_reported_iff hc true
      exact ⟨bugs, hbugs⟩
  case cpair =>
    refine Deviant.exists_merge (K := CausalityChecker.Key) (V := ℤ) (fun ctx hctx => ?_) Context.exists_baseBugs _
    obtain ⟨paths, hpaths⟩ := h ctx hctx
    obtain ⟨entries, -, hentries⟩ := bind_eq_ok.mp hpaths
    cases hentries
    exact Context.reachable_addAll (.new config)

variable {ι : Type} {N : ι → Type} [∀ i, DecidableEq (N i)] [∀ i, Fintype (N i)] {D : Database ι}
variable {G : ∀ i, ExplodedGraph (N i)} {ns : Xml.Namespaces} {resolver : String → Resolver}
variable {qualify : DatabaseFile → Option String → Option String} {fns : List DatabaseFile} {e : Explorer}

/-- **Which checks give reports**: all of the checkers that can do without a call,
and those of the others where all calls parse that the graphs' paths leave. -/
theorem explore_reports_iff (id? : ℤ → Option String) (c : ReportingChecker) {w : World Config (Context c.Key c.Value Code)}
    (hstored : D.Stored G ns resolver qualify w fns) (hfresh : Fresh c.name e w) :
    ((∃ bugs, (explore resolver (fun _ => c.checkerClass id?) e w fns).2 = .ok (.ok bugs)) ↔
        (c.ReadsCalls → ∀ s, D.Leaves G qualify fns s → ∀ event ∈ s, unparsed event = false)) ∧
      ∀ order, (∀ fn ∈ fns, fn ∈ order) →
        ((∃ bugs, (exploreParallel resolver (fun _ => c.checkerClass id?) e w fns order).2 = some (.ok bugs)) ↔
          (c.ReadsCalls → ∀ s, D.Leaves G qualify fns s → ∀ event ∈ s, unparsed event = false)) := by
  obtain ⟨hexplore, hparallel⟩ := Cache.explore_ok_iff resolver (fun _ => c.checkerClass id?) hfresh fns
  obtain ⟨hmerged, hworkers⟩ := explore_fresh resolver (fun _ => c.checkerClass id?) hfresh fns
  have hfile : ∀ fn ∈ fns, (∃ ctxs,
      exploreFile resolver (fun _ => c.checkerClass id?) (c.name, fn.1) (w.now fn) = .ok ctxs) ↔
        ∀ i ∈ D.graphs fn, ∀ q s, LeftBy (G i) q s → c.ReadsCalls →
          ∀ event ∈ s.map (Event.mapCode (qualify fn)), unparsed event = false := fun fn hfn =>
    Database.exploreFile_ok_iff (Q := fun s => c.ReadsCalls → ∀ event ∈ s, unparsed event = false)
      (fun config paths hpaths => c.process_ok_iff config hpaths) hstored hfn
  have hparses : (∀ fn ∈ fns, ∃ ctxs,
      exploreFile resolver (fun _ => c.checkerClass id?) (c.name, fn.1) (w.now fn) = .ok ctxs) ↔
        (c.ReadsCalls → ∀ s, D.Leaves G qualify fns s → ∀ event ∈ s, unparsed event = false) := by
    refine (forall₂_congr hfile).trans ?_
    constructor
    · rintro h hreads s ⟨fn, hfn, i, hi, q, s', hq, rfl⟩
      exact h fn hfn i hi q s' hq hreads
    · intro h fn hfn i hi q s hq hreads
      exact h hreads _ ⟨fn, hfn, i, hi, q, s, hq, rfl⟩
  -- the explorer merges what the checker made, which raises nothing
  have hreports : ∀ ctxs, gather (fun fn : DatabaseFile =>
      exploreFile resolver (fun _ => c.checkerClass id?) (c.name, fn) (w.now fn)) fns = .ok ctxs →
        ∃ bugs, c.merge id? ctxs = .ok bugs := fun ctxs hctxs => c.exists_merge id? fun ctx hctx => by
    obtain ⟨fn, hfn, l, hl, hmem⟩ := (mem_gather hctxs).mp hctx
    rw [Database.exploreFile_eq hstored hfn] at hl
    obtain ⟨x, -, l', hl', hmem'⟩ := (mem_gather hl).mp hmem
    exact process_of_processTree hl' hmem'
  refine ⟨Iff.trans ⟨fun ⟨bugs, h⟩ => ⟨_, h⟩, ?_⟩ (hexplore.trans hparses), fun order horder =>
    Iff.trans ⟨fun ⟨bugs, h⟩ => ⟨_, h⟩, ?_⟩ ((hparallel order horder).trans hparses)⟩
  · rintro ⟨r, hr⟩
    rw [hmerged] at hr ⊢
    cases hctxs : gather (fun fn : DatabaseFile =>
      exploreFile resolver (fun _ => c.checkerClass id?) (c.name, fn) (w.now fn)) fns with
    | error error =>
      rw [hctxs] at hr
      cases hr
    | ok ctxs =>
      obtain ⟨bugs, hbugs⟩ := hreports ctxs hctxs
      exact ⟨bugs, congrArg Except.ok hbugs⟩
  · rintro ⟨r, hr⟩
    rw [hworkers order horder] at hr ⊢
    cases hctxs : gather (fun fn : DatabaseFile =>
      exploreFile resolver (fun _ => c.checkerClass id?) (c.name, fn) (w.now fn)) fns with
    | error error =>
      rw [hctxs] at hr
      cases hr
    | ok ctxs =>
      obtain ⟨bugs, hbugs⟩ := hreports ctxs hctxs
      exact ⟨bugs, congrArg some hbugs⟩

omit [StrHash] [SetOrder ℤ] [SetOrder Code] in
/-- All calls of the trace parse, so its formats are checked. -/
theorem explore_reports_iff_usedWorld :
    let _ : StrHash := ⟨fun s => s.length⟩
    let _ : SetOrder ℤ := ⟨Finset.toList, fun _ _ => Finset.mem_toList, Finset.nodup_toList⟩
    let _ : SetOrder Code := ⟨Finset.toList, fun _ _ => Finset.mem_toList, Finset.nodup_toList⟩
    ∃ bugs, (explore (fun _ => containedResolver "a.c") (fun _ => (adding .fsb).checkerClass fun _ => none)
      (.skipCache .fsb) (usedWorld _) [databaseFile]).2 = .ok (.ok bugs) := by
  intro _ _ _
  have hstored := usedWorld_stored (Context (adding .fsb).Key (adding .fsb).Value Code)
  exact (explore_reports_iff (fun _ => none) (.adding .fsb) hstored (.inl rfl)).1.mpr fun _ => usedDatabase_parse

end

end ReportingChecker

end Apisan
