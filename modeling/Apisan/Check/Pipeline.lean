/-
# From graphs to reports

A check of a database, from the graphs that its files report to the contexts
that the checkers merge. The explorer, in one process or with workers that take
the files in any order, reads each file, makes its trees, iterates them with the
file's resolver, and has the checker process the paths. If no cache is read, the
contexts hold the uses of the sequences that the simple paths of the graphs leave,
with their locations resolved, and nothing else (`Database.contexts`).

Key definitions: `Cache.Fresh`, `Database`, `Database.Stored`, `Database.Leaves`,
`Added`, `Adds`.
Key theorems: `Cache.explore_fresh`, `Checker.exists_added`,
`Database.contexts_of_leaves`, `Database.contexts`.
-/
import Apisan.Check.Statistics
import Apisan.Extractor.Locations

namespace Apisan

open Python Machine TextLines File

/-! ### Exploring without a cache -/

namespace Cache

section

variable {Conf Ctx Reports : Type}

/-- The explorer reads no cache: it is told not to, or there is none. -/
def Fresh (c : CheckerName) (e : Explorer) (w : World Conf Ctx) : Prop :=
  e = .skipCache c ∨ (e = .new c ∧ ∀ (c' : CheckerName) (fn : String), w.load (cachedFn fn c') = none)

variable [StrHash] {resolver : String → Resolver} {checkers : CheckerName → CheckerClass Conf Ctx Reports}
variable {c : CheckerName} {e : Explorer} {w : World Conf Ctx}

omit [StrHash] in
theorem Fresh.checker (h : Fresh c e w) : e.checker = c := by
  rcases h with rfl | ⟨rfl, -⟩ <;> rfl

/-- The loop gets the present result of each file. -/
theorem exploreAll_fresh (h : Fresh c e w) (fns : List DatabaseFile) :
    (exploreAll resolver checkers e w fns).2 =
      gather (fun fn : DatabaseFile => exploreFile resolver checkers (c, fn) (w.now fn)) fns := by
  rcases h with rfl | ⟨rfl, hnone⟩
  · rw [exploreAll_skipCache]
  · have hkept : Kept resolver checkers [] w := fun c' fn => hnone c' fn
    exact (exploreAll_pinned c fns hkept).1

/-- The workers get the present results too. -/
theorem callAll_fresh (h : Fresh c e w) (order : List DatabaseFile) :
    (callAll resolver checkers e w order).2 =
      order.map fun fn : DatabaseFile => (fn, exploreFile resolver checkers (c, fn) (w.now fn)) := by
  rcases h with rfl | ⟨rfl, hnone⟩
  · induction order with
    | nil => rfl
    | cons fn fns ih =>
      have htry : tryCached resolver checkers (.skipCache c) w fn =
          (w, exploreFile resolver checkers (c, fn) (w.now fn)) := by
        rw [tryCached, Explorer.skipCache]
        cases exploreFile resolver checkers (c, fn) (w.now fn) <;> rfl
      rw [callAll, htry, List.map_cons, ← ih]
  · have hkept : Kept resolver checkers [] w := fun c' fn => hnone c' fn
    exact (callAll_pinned c order hkept).1

/-- **Without a cache** the explorer merges the contexts of the files, whether in
one process or by workers, in whatever order these make their calls. -/
theorem explore_fresh (resolver : String → Resolver) (checkers : CheckerName → CheckerClass Conf Ctx Reports)
    {c : CheckerName} {e : Explorer} {w : World Conf Ctx} (h : Fresh c e w) (fns : List DatabaseFile) :
    (explore resolver checkers e w fns).2 = (gather (fun fn : DatabaseFile =>
        exploreFile resolver checkers (c, fn) (w.now fn)) fns).map ((checkers c).merge w.conf) ∧
      ∀ order, (∀ fn ∈ fns, fn ∈ order) →
        (exploreParallel resolver checkers e w fns order).2 = (gather (fun fn : DatabaseFile =>
          exploreFile resolver checkers (c, fn) (w.now fn)) fns).toOption.map ((checkers c).merge w.conf) := by
  have he := h.checker
  refine ⟨?_, fun order horder => ?_⟩
  · show (exploreAll resolver checkers e w fns).2.map ((checkers e.checker).merge w.conf) = _
    rw [exploreAll_fresh h, he]
  · have hlookup : ∀ fn ∈ fns, ((callAll resolver checkers e w order).2.lookup fn).bind Except.toOption =
        (exploreFile resolver checkers (c, fn.1) (w.now fn)).toOption := fun fn hfn => by
      rw [callAll_fresh h, lookup_map _ (horder fn hfn), Option.bind_some]
    have hmap := congrArg (Option.map ((checkers e.checker).merge w.conf)) (mapM_toOption hlookup)
    rw [Option.map_map, he] at hmap
    show ((fns.mapM fun fn => ((callAll resolver checkers e w order).2.lookup fn).bind Except.toOption).map
      fun ctxs => (checkers e.checker).merge w.conf ctxs.flatten) = _
    rw [he]
    exact hmap

end

end Cache

open Cache

section

variable {K V : Type} [DecidableEq K] [DecidableEq V] {R : Type}

/-! ### The uses of trees -/

/-- Contexts of trees that add the uses, and no others. -/
def Added (config : Config) (uses : Add K V Code → Prop) (ctxs : List (Context K V Code)) : Prop :=
  ∃ trees, ctxs = Context.ofTrees config trees ∧ ∀ a, (∃ adds ∈ trees, a ∈ adds) ↔ uses a

theorem Added.congr {config : Config} {uses uses' : Add K V Code → Prop} {ctxs : List (Context K V Code)}
    (h : Added config uses ctxs) (huses : ∀ a, uses a ↔ uses' a) : Added config uses' ctxs := by
  obtain ⟨trees, hctxs, htrees⟩ := h
  exact ⟨trees, hctxs, fun a => (htrees a).trans (huses a)⟩

omit [DecidableEq K] [DecidableEq V] in
theorem gather_comp {A B C : Type} (f : B → Except Error (List C)) (g : A → B) : ∀ as : List A,
    gather f (as.map g) = gather (fun a => f (g a)) as
  | [] => rfl
  | a :: as => by rw [List.map_cons, gather, gather, gather_comp f g as]

theorem gather_added {A : Type} {config : Config} {uses : A → Add K V Code → Prop}
    {f : A → Except Error (List (Context K V Code))} : ∀ {as : List A},
    (∀ a ∈ as, ∃ ctxs, f a = .ok ctxs ∧ Added config (uses a) ctxs) →
      ∃ ctxs, gather f as = .ok ctxs ∧ Added config (fun x => ∃ a ∈ as, uses a x) ctxs
  | [], _ => ⟨[], rfl, [], rfl, fun x => by simp⟩
  | a :: as, h => by
    rw [List.forall_mem_cons] at h
    obtain ⟨ctxs, hctxs, trees, rfl, htrees⟩ := h.1
    obtain ⟨rest, hrest, trees', rfl, htrees'⟩ := gather_added h.2
    refine ⟨_, by rw [gather, hctxs, ok_bind, hrest]; rfl, trees ++ trees', ?_, fun x => ?_⟩
    · exact (List.map_append ..).symm
    · simp only [List.mem_append, or_and_right, exists_or, List.mem_cons, exists_eq_left, htrees, htrees']

/-- The context of paths has the uses of their sequences. -/
theorem Checker.exists_added {processPath : Path → Except Error (List (Add K V Code))}
    {uses : List Event → Add K V Code → Prop} (config : Config) {paths : List Path}
    (h : ∀ path ∈ paths, ∃ adds, processPath path = .ok adds ∧ ∀ a, a ∈ adds ↔ uses path.events a) :
    ∃ ctx, Checker.process processPath config paths = .ok ctx ∧
      Added config (fun a => ∃ s ∈ paths.map Path.events, uses s a) [ctx] := by
  have hok : ∀ path ∈ paths, ∃ adds, processPath path = .ok adds := fun path hpath => by
    obtain ⟨adds, hadds, -⟩ := h path hpath
    exact ⟨adds, hadds⟩
  refine ⟨_, Checker.process_ok.mpr ⟨hok, rfl⟩, [Checker.uses processPath paths], rfl, fun a => ?_⟩
  simp only [List.mem_singleton, exists_eq_left, Checker.mem_uses, List.mem_map, exists_exists_and_eq_and]
  refine exists_congr fun path => and_congr_right fun hpath => ?_
  obtain ⟨adds, hadds, hiff⟩ := h path hpath
  rw [hadds]
  simp only [Except.ok.injEq, exists_eq_left', hiff]

variable [StrHash]

/-- The path was printed: its events are printed ones, with their locations
resolved, and it has its first constraints if constraints are parsed. -/
structure Path.Printed (parseConstraints : Bool) (path : Path) : Prop where
  constraints : parseConstraints = true →
    ∃ m, path.cmgr = some m ∧ ∀ sym, m.get sym = firstConstraint path.events sym
  events : ∀ event ∈ path.events, ∃ (e : SymExecEvent) (f : Option String → Option String),
    event = e.toEvent.mapCode f

/-- The paths of a printed tree, which a checker processes: they have the
sequences of the tree, with their locations resolved. -/
theorem Printed.exists_paths (b : Bool) {resolver : Resolver} {f : Option String → Option String} {x : Element}
    (hx : Printed (SymExecEvent.Resolves resolver f) x) : ∃ paths seqs,
      (∀ {Conf Ctx R : Type} (chk : CheckerClass Conf Ctx R) (conf : Conf), chk.parseConstraints = b →
        processTree chk resolver conf x.spaced = (chk.process conf paths).map fun ctx => [ctx]) ∧
      ExecTree.sequences b x = some seqs ∧ paths.map Path.events = seqs.map (List.map (Event.mapCode f)) ∧
      ∀ path ∈ paths, path.Printed b := by
  obtain ⟨heap, root, yields, hroot, hdone, seqs, hseqs, hyields, hfrom⟩ := hx.iterate b
  refine ⟨yields.map Yielded.path, seqs, fun chk conf hb => ?_, hseqs, ?_, fun path hpath => ?_⟩
  · rw [processTree_eq, hb, hroot, ok_bind]
    simp only [hdone]
    cases chk.process conf (yields.map Yielded.path) <;> rfl
  · rw [List.map_map, ← hyields]
    rfl
  · obtain ⟨y, hy, rfl⟩ := List.mem_map.mp hpath
    refine ⟨fun hb => ?_, fun event hevent => ?_⟩
    · rw [hb] at hroot
      exact RetValChecker.exists_cmgr hroot hdone hy
    · obtain ⟨e, he⟩ := hfrom y hy event hevent
      exact ⟨e, f, he⟩

/-- What a checker adds for a printed path: it raises nothing, and adds the uses
of the path's sequence. -/
def Adds (parseConstraints : Bool) (processPath : Path → Except Error (List (Add K V Code)))
    (uses : List Event → Add K V Code → Prop) : Prop :=
  ∀ path : Path, path.Printed parseConstraints →
    ∃ adds, processPath path = .ok adds ∧ ∀ a, a ∈ adds ↔ uses path.events a

theorem Adds.process_eq {b : Bool} {processPath : Path → Except Error (List (Add K V Code))}
    {uses : List Event → Add K V Code → Prop} (h : Adds b processPath uses) (config : Config) {paths : List Path}
    (hpaths : ∀ path ∈ paths, path.Printed b) :
    Checker.process processPath config paths = .ok ((Context.new config).addAll (Checker.uses processPath paths)) := by
  refine Checker.process_ok.mpr ⟨fun path hpath => ?_, rfl⟩
  obtain ⟨adds, hadds, -⟩ := h path (hpaths path hpath)
  exact ⟨adds, hadds⟩

/-- The class of a checker that adds uses. -/
structure Adding (chk : CheckerClass Config (Context K V Code) R) (uses : List Event → Add K V Code → Prop) where
  processPath : Path → Except Error (List (Add K V Code))
  process : chk.process = Checker.process processPath
  adds : Adds chk.parseConstraints processPath uses

variable {chk : CheckerClass Config (Context K V Code) R} {uses : List Event → Add K V Code → Prop}

end

/-! ### Databases -/

/-- A database: the graphs whose reports each file has, and what else it holds. -/
structure Database (ι : Type) where
  graphs : DatabaseFile → List ι
  before : DatabaseFile → ι → String
  after : DatabaseFile → String

namespace Database

variable {ι : Type} {N : ι → Type} [∀ i, DecidableEq (N i)] [∀ i, Fintype (N i)]
variable (D : Database ι) (G : ∀ i, ExplodedGraph (N i))

/-- The text of a file. -/
def text (fn : DatabaseFile) : String :=
  fileText ((D.graphs fn).map fun i => (D.before fn i, (G i).print)) (D.after fn)

/-- The files are stored. What is printed can be read: the texts of the events hold
only characters that a document may hold and no carriage return, the locations of
calls and returns no `<`, no `&` and no `]]>`, and no line of either begins with
`@`, as a marker line does. The file's resolver takes the locations, and the
conditions have texts. Nothing between the reports begins one. -/
structure Stored {Ctx : Type} (ns : Xml.Namespaces) (resolver : String → Resolver)
    (qualify : DatabaseFile → Option String → Option String) (w : World Config Ctx) (fns : List DatabaseFile) :
    Prop where
  files : ∀ fn ∈ fns, w.files.get? fn =
    some (.database (bodies (Xml.read Element.mk ns) (textLines (D.text G fn))))
  before : ∀ fn ∈ fns, ∀ i ∈ D.graphs fn, Silent (D.before fn i ++ "\n")
  after : ∀ fn ∈ fns, Silent (D.after fn)
  printable : ∀ fn ∈ fns, ∀ i ∈ D.graphs fn, ∀ n, ∀ e ∈ (G i).events n, e.Printable
  resolves : ∀ fn ∈ fns, ∀ i ∈ D.graphs fn, ∀ n, ∀ e ∈ (G i).events n, e.Resolves (resolver fn) (qualify fn)
  texted : ∀ fn ∈ fns, ∀ i ∈ D.graphs fn, ∀ n, ∀ e ∈ (G i).events n, e.Texted

/-- The sequences that the paths of the graphs leave, their locations resolved. -/
def Leaves (qualify : DatabaseFile → Option String → Option String) (fns : List DatabaseFile) (s : List Event) :
    Prop :=
  ∃ fn ∈ fns, ∃ i ∈ D.graphs fn, ∃ q s', LeftBy (G i) q s' ∧ s = s'.map (Event.mapCode (qualify fn))

variable {D G} {K V R : Type} [DecidableEq K] [DecidableEq V] [StrHash] {ns : Xml.Namespaces}
variable {resolver : String → Resolver} {qualify : DatabaseFile → Option String → Option String}
variable {w : World Config (Context K V Code)} {fns : List DatabaseFile}
variable {checkers : CheckerName → CheckerClass Config (Context K V Code) R} {c : CheckerName}
variable {uses : List Event → Add K V Code → Prop}

omit [DecidableEq K] [DecidableEq V] [StrHash] in
/-- The roots in a file are the elements of its graphs, spaced. -/
theorem parseFile_bodies (hstored : D.Stored G ns resolver qualify w fns) {fn : DatabaseFile} (hfn : fn ∈ fns) :
    Cache.parseFile (bodies (Xml.read Element.mk ns) (textLines (D.text G fn))) =
      (D.graphs fn).flatMap fun i => ((readTree (G i).print).getD []).map Element.spaced := by
  have hreports : ∀ x ∈ (D.graphs fn).map fun i => (D.before fn i, (G i).print),
      Silent (x.1 ++ "\n") ∧ ∀ e, .event e ∈ x.2 → e.Printable := by
    intro x hx
    obtain ⟨i, hi, rfl⟩ := List.mem_map.mp hx
    exact ⟨hstored.before fn hfn i hi, (G i).printable_print (hstored.printable fn hfn i hi)⟩
  have hread : ∀ i ∈ D.graphs fn, (Xml.read Element.mk ns (String.join (textLines (bodyText (G i).print)))).map
      Element.children = some (((readTree (G i).print).getD []).map Element.spaced) := by
    intro i hi
    have hprint := (G i).printable_print (hstored.printable fn hfn i hi)
    obtain ⟨es, hes, -⟩ := (G i).printed_print (P := fun _ => True) fun _ _ _ => trivial
    rw [join_textLines (clean_bodyText hprint).1.newlines, read_body ns hprint hes, hes]
    rfl
  have hbody : ∀ is : List ι, (∀ i ∈ is, i ∈ D.graphs fn) → Cache.parseFile (is.map fun i =>
      (Xml.read Element.mk ns (String.join (textLines (bodyText (G i).print)))).map Element.children) =
      is.flatMap fun i => ((readTree (G i).print).getD []).map Element.spaced := by
    intro is
    induction is with
    | nil => exact fun _ => rfl
    | cons i is ih =>
      intro h
      rw [List.forall_mem_cons] at h
      rw [List.map_cons, List.flatMap_cons, hread i h.1, Cache.parseFile, ih h.2]
  unfold bodies text
  rw [blocks_fileText (hstored.after fn hfn) hreports]
  simp only [List.map_map, Function.comp_def]
  exact hbody _ fun _ h => h

/-- The sequences of a graph's elements are those that its paths leave. -/
theorem mem_sequences_print (b : Bool) (i : ι) {es : List Element} (hes : readTree (G i).print = some es)
    (s : List Event) : (∃ x ∈ es, ∃ seqs, ExecTree.sequences b x = some seqs ∧ s ∈ seqs) ↔
      ∃ q, LeftBy (G i) q s := by
  obtain ⟨es', hread, hparse, hextract⟩ := (G i).print_spec b
  obtain rfl := Option.some.inj (hes.symm.trans hread)
  obtain ⟨seqs, hseqs, hmem⟩ := (G i).mem_extract b
  have hall : ∀ x ∈ es, ∃ seqs, ExecTree.sequences b x = some seqs ∧
      ∀ s, s ∈ seqs ↔ ∃ seqs, ExecTree.sequences b x = some seqs ∧ s ∈ seqs := by
    intro x hx
    obtain ⟨-, -, -, hseqs⟩ := sequences_eq (hparse x hx)
    refine ⟨_, hseqs, fun s => ?_⟩
    rw [hseqs]
    simp
  exact (mem_of_appendAll hall (hextract.symm.trans hseqs) s).symm.trans (hmem s)

omit [DecidableEq K] [DecidableEq V] in
/-- The roots in a file are processed one after the other. -/
theorem exploreFile_eq (hstored : D.Stored G ns resolver qualify w fns) {fn : DatabaseFile} (hfn : fn ∈ fns) :
    exploreFile resolver checkers (c, fn) (w.now fn) =
      gather (fun x : Element => processTree (checkers c) (resolver fn) w.conf x.spaced)
        ((D.graphs fn).flatMap fun i => (readTree (G i).print).getD []) := by
  have hnow : w.now fn = (w.conf, some (.database (bodies (Xml.read Element.mk ns) (textLines (D.text G fn))))) :=
    congrArg (Prod.mk w.conf) (hstored.files fn hfn)
  rw [hnow, exploreFile]
  simp only [parseFile_bodies hstored hfn]
  rw [← List.map_flatMap, gather_comp]

omit [DecidableEq K] [DecidableEq V] [StrHash] in
/-- The elements of a file's graphs are printed ones. -/
theorem printed_graph (hstored : D.Stored G ns resolver qualify w fns) {fn : DatabaseFile} (hfn : fn ∈ fns) {i : ι}
    (hi : i ∈ D.graphs fn) : ∃ es, readTree (G i).print = some es ∧
      ∀ x ∈ es, Printed (SymExecEvent.Resolves (resolver fn) (qualify fn)) x :=
  (G i).printed_print fun n e he => hstored.resolves fn hfn i hi n e he

omit [DecidableEq K] [DecidableEq V] in
/-- **The state of the parser plays no part**: whatever it has left before a tree of
the file, and whatever is parsed between two paths, the tree is processed as with
each text parsed by itself. -/
theorem processTree_shared (hstored : D.Stored G ns resolver qualify w fns) {fn : DatabaseFile} (hfn : fn ∈ fns)
    {i : ι} (hi : i ∈ D.graphs fn) {es : List Element} (hes : readTree (G i).print = some es) {x : Element}
    (hx : x ∈ es) (chk : CheckerClass Config (Context K V Code) R) (left : SParser.Unread)
    (consume : List Yielded → SParser.Unread → SParser.Unread) :
    processTreeFrom (.shared consume) left chk (resolver fn) w.conf x.spaced =
      processTree chk (resolver fn) w.conf x.spaced := by
  obtain ⟨es', hes', hprinted⟩ := (G i).printed_print
    (P := fun e => e.Resolves (resolver fn) (qualify fn) ∧ e.Texted) fun n e he =>
      ⟨hstored.resolves fn hfn i hi n e he, hstored.texted fn hfn i hi n e he⟩
  obtain rfl := Option.some.inj (hes.symm.trans hes')
  exact processTreeFrom_shared (hprinted x hx).texted w.conf

/-- **The contexts of trees** are merged, given what the checker makes of each. -/
theorem contexts_of_trees (checkers : CheckerName → CheckerClass Config (Context K V Code) R) {e : Explorer}
    {uses : DatabaseFile → Element → Add K V Code → Prop}
    (hstored : D.Stored G ns resolver qualify w fns) (hfresh : Fresh c e w)
    (htree : ∀ fn ∈ fns, ∀ i ∈ D.graphs fn, ∀ es, readTree (G i).print = some es → ∀ x ∈ es,
      ∃ ctxs, processTree (checkers c) (resolver fn) w.conf x.spaced = .ok ctxs ∧ Added w.conf (uses fn x) ctxs) :
    ∃ ctxs, Added w.conf (fun a => ∃ fn ∈ fns, ∃ i ∈ D.graphs fn, ∃ es, readTree (G i).print = some es ∧
        ∃ x ∈ es, uses fn x a) ctxs ∧
      (explore resolver checkers e w fns).2 = .ok ((checkers c).merge w.conf ctxs) ∧
      ∀ order, (∀ fn ∈ fns, fn ∈ order) →
        (exploreParallel resolver checkers e w fns order).2 = some ((checkers c).merge w.conf ctxs) := by
  have hfile : ∀ fn ∈ fns, ∃ ctxs, exploreFile resolver checkers (c, fn.1) (w.now fn) = .ok ctxs ∧
      Added w.conf (fun a => ∃ x ∈ (D.graphs fn).flatMap fun i => (readTree (G i).print).getD [],
        uses fn x a) ctxs := by
    intro fn hfn
    rw [exploreFile_eq hstored hfn]
    refine gather_added fun x hx => ?_
    obtain ⟨i, hi, hx⟩ := List.mem_flatMap.mp hx
    obtain ⟨es, hes, -⟩ := printed_graph hstored hfn hi
    rw [hes] at hx
    exact htree fn hfn i hi es hes x hx
  obtain ⟨ctxs, hctxs, trees, hadded, htrees⟩ := gather_added hfile
  obtain ⟨hexplore, hparallel⟩ := explore_fresh resolver checkers hfresh fns
  rw [hctxs] at hexplore hparallel
  refine ⟨ctxs, ⟨trees, hadded, fun a => (htrees a).trans ?_⟩, hexplore, hparallel⟩
  constructor
  · rintro ⟨fn, hfn, x, hx, ha⟩
    obtain ⟨i, hi, hx⟩ := List.mem_flatMap.mp hx
    obtain ⟨es, hes, -⟩ := printed_graph hstored hfn hi
    rw [hes] at hx
    exact ⟨fn, hfn, i, hi, es, hes, x, hx, ha⟩
  · rintro ⟨fn, hfn, i, hi, es, hes, x, hx, ha⟩
    exact ⟨fn, hfn, x, List.mem_flatMap.mpr ⟨i, hi, by rw [hes]; exact hx⟩, ha⟩

/-- **The contexts of sequences** are merged, for a checker that adds uses where
the sequences have a property. -/
theorem contexts_of_leaves (checkers : CheckerName → CheckerClass Config (Context K V Code) R) {e : Explorer}
    {processPath : Path → Except Error (List (Add K V Code))} {Q : List Event → Prop}
    (hprocess : (checkers c).process = Checker.process processPath)
    (hadds : ∀ path : Path, path.Printed (checkers c).parseConstraints → Q path.events →
      ∃ adds, processPath path = .ok adds ∧ ∀ a, a ∈ adds ↔ uses path.events a)
    (hstored : D.Stored G ns resolver qualify w fns) (hfresh : Fresh c e w)
    (hQ : ∀ s, D.Leaves G qualify fns s → Q s) :
    ∃ ctxs, Added w.conf (fun a => ∃ s, D.Leaves G qualify fns s ∧ uses s a) ctxs ∧
      (explore resolver checkers e w fns).2 = .ok ((checkers c).merge w.conf ctxs) ∧
      ∀ order, (∀ fn ∈ fns, fn ∈ order) →
        (exploreParallel resolver checkers e w fns order).2 = some ((checkers c).merge w.conf ctxs) := by
  have hleaves : ∀ fn ∈ fns, ∀ i ∈ D.graphs fn, ∀ es, readTree (G i).print = some es → ∀ x ∈ es, ∀ seqs,
      ExecTree.sequences (checkers c).parseConstraints x = some seqs → ∀ s ∈ seqs,
        D.Leaves G qualify fns (s.map (Event.mapCode (qualify fn))) := by
    intro fn hfn i hi es hes x hx seqs hseqs s hs
    obtain ⟨q, hq⟩ := (mem_sequences_print _ i hes s).mp ⟨x, hx, seqs, hseqs, hs⟩
    exact ⟨fn, hfn, i, hi, q, s, hq, rfl⟩
  have htree : ∀ fn ∈ fns, ∀ i ∈ D.graphs fn, ∀ es, readTree (G i).print = some es → ∀ x ∈ es,
      ∃ ctxs, processTree (checkers c) (resolver fn) w.conf x.spaced = .ok ctxs ∧ Added w.conf (fun a =>
        ∃ seqs, ExecTree.sequences (checkers c).parseConstraints x = some seqs ∧
          ∃ s ∈ seqs, uses (s.map (Event.mapCode (qualify fn))) a) ctxs := by
    intro fn hfn i hi es hes x hx
    obtain ⟨es', hes', hprinted⟩ := printed_graph hstored hfn hi
    obtain rfl := Option.some.inj (hes.symm.trans hes')
    obtain ⟨paths, seqs, htree, hseqs, hevents, hpaths⟩ :=
      (hprinted x hx).exists_paths (checkers c).parseConstraints
    have hpath : ∀ path ∈ paths, ∃ adds, processPath path = .ok adds ∧ ∀ a, a ∈ adds ↔ uses path.events a := by
      intro path hpath
      refine hadds path (hpaths path hpath) (hQ _ ?_)
      obtain ⟨s, hs, heq⟩ := List.mem_map.mp (hevents ▸ List.mem_map_of_mem hpath)
      exact heq ▸ hleaves fn hfn i hi es hes x hx seqs hseqs s hs
    obtain ⟨ctx, hctx, hadded⟩ := Checker.exists_added w.conf hpath
    refine ⟨[ctx], (htree (checkers c) w.conf rfl).trans (congrArg _ (hprocess ▸ hctx)), hadded.congr fun a => ?_⟩
    simp only [hseqs, Option.some.injEq, exists_eq_left', hevents, List.mem_map, exists_exists_and_eq_and]
  obtain ⟨ctxs, hadded, hexplore, hparallel⟩ := contexts_of_trees checkers hstored hfresh htree
  refine ⟨ctxs, hadded.congr fun a => ?_, hexplore, hparallel⟩
  constructor
  · rintro ⟨fn, hfn, i, hi, es, hes, x, hx, seqs, hseqs, s, hs, ha⟩
    exact ⟨_, hleaves fn hfn i hi es hes x hx seqs hseqs s hs, ha⟩
  · rintro ⟨-, ⟨fn, hfn, i, hi, q, s, hq, rfl⟩, ha⟩
    obtain ⟨es, hes, -⟩ := printed_graph hstored hfn hi
    obtain ⟨x, hx, seqs, hseqs, hs⟩ := (mem_sequences_print (checkers c).parseConstraints i hes s).mpr ⟨q, hq⟩
    exact ⟨fn, hfn, i, hi, es, hes, x, hx, seqs, hseqs, s, hs, ha⟩

/-- **From graphs to contexts.** A checker that adds uses explores a database to
its end, in one process or with workers, and merges contexts with the uses of the
sequences that the graphs' paths leave, and no others. -/
theorem contexts (checkers : CheckerName → CheckerClass Config (Context K V Code) R) {e : Explorer}
    (hchk : Adding (checkers c) uses) (hstored : D.Stored G ns resolver qualify w fns) (hfresh : Fresh c e w) :
    ∃ ctxs, Added w.conf (fun a => ∃ s, D.Leaves G qualify fns s ∧ uses s a) ctxs ∧
      (explore resolver checkers e w fns).2 = .ok ((checkers c).merge w.conf ctxs) ∧
      ∀ order, (∀ fn ∈ fns, fn ∈ order) →
        (exploreParallel resolver checkers e w fns order).2 = some ((checkers c).merge w.conf ctxs) :=
  contexts_of_leaves (Q := fun _ => True) checkers hchk.process (fun path hpath _ => hchk.adds path hpath)
    hstored hfresh fun _ _ => trivial

end Database

end Apisan
