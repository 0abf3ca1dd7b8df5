/-
# Database files

A database file has the reports of functions, with other output of the compiler
before each and after the last. The lines between the markers of a report are
one block (`blocks_fileText`), which is read as the trees that were printed
(`read_body`), so a file is read to its end, and the sequences obtained of it are
those of the graphs, one after the other: for each simple path of a graph that
ends at an `EOP`, the newest events of its edges (`extract_fileText`).

Key definitions: `fileText`, `Silent`, `File.extract`, `ExplodedGraph.print`.
Key theorems: `blocks_fileText`, `yieldTrees_spaced`, `extract_fileText`.
-/
import Apisan.Extractor.Report

namespace Apisan

open Python TextLines File

/-- A file: reports, each with what stands before it, and what comes after
the last. -/
def fileText (reports : List (String × List Piece)) (after : String) : String :=
  String.join (reports.map fun x => x.1 ++ reportText x.2) ++ after

/-- No line of the text begins a report. -/
def Silent (s : String) : Prop := ∀ line ∈ textLines s, startsWith line sigBegin = false

instance (s : String) : Decidable (Silent s) := List.decidableBAll _ (textLines s)

/-! ### Blocks -/

theorem blocks_silent (rest : List String) : ∀ {ls : List String}, (∀ line ∈ ls, startsWith line sigBegin = false) →
    blocks (ls ++ rest) = blocks rest
  | [], _ => rfl
  | line :: ls, h => by
    rw [List.forall_mem_cons] at h
    rw [List.cons_append, blocks, if_neg (by rw [h.1]; decide), blocks_silent rest h.2]

theorem blocks_block {b e : String} {body rest : List String} (hb : startsWith b sigBegin = true)
    (he : startsWith e sigEnd = true) (hbody : ∀ line ∈ body, isMarker line = false) :
    blocks (b :: (body ++ e :: rest)) = body :: blocks rest := by
  have hblock : blockAt (body ++ e :: rest) = some body := blockAt_eq_some.mpr ⟨e, rest, rfl, he, hbody⟩
  have hsilent : ∀ line ∈ body ++ [e], startsWith line sigBegin = false := by
    intro line hline
    rcases List.mem_append.mp hline with hline | hline
    · have hmarker := hbody line hline
      rw [isMarker, Bool.or_eq_false_iff] at hmarker
      exact hmarker.1
    · rw [List.mem_singleton.mp hline, ← Bool.not_eq_true]
      intro hbegin
      rw [not_end_of_begin hbegin] at he
      cases he
  have hafter : blocks (body ++ e :: rest) = blocks rest := by
    have happend : body ++ e :: rest = (body ++ [e]) ++ rest := by simp
    rw [happend, blocks_silent rest hsilent]
  rw [blocks, if_pos hb, hblock, hafter]
  rfl

/-- A marker line begins with `@`. -/
theorem isMarker_of_head {line : String} (h : line.toList.head? ≠ some '@') : isMarker line = false := by
  have hnot : ∀ pre : String, pre.toList.head? = some '@' → startsWith line pre = false := by
    intro pre hpre
    rw [← Bool.not_eq_true]
    intro hstart
    rw [startsWith, List.isPrefixOf_iff_prefix] at hstart
    obtain ⟨rest, hrest⟩ := hstart
    rw [← hrest, List.head?_append, hpre] at h
    exact h rfl
  rw [isMarker, hnot sigBegin rfl, hnot sigEnd rfl]
  rfl

/-- The lines of a report, after what stands before it. -/
theorem textLines_report (before : String) (pieces : List Piece) (rest : String) :
    textLines (before ++ reportText pieces ++ rest) = textLines (before ++ "\n") ++
      ("@SYM_EXEC_EXTRACTOR_BEGIN\n" :: (textLines (bodyText pieces) ++
        "@SYM_EXEC_EXTRACTOR_END\n" :: textLines rest)) := by
  obtain ⟨body, hbody⟩ : ∃ body, bodyText pieces = body ++ "\n" := ⟨_, rfl⟩
  have hsplit : before ++ reportText pieces ++ rest = before ++ "\n" ++ ("@SYM_EXEC_EXTRACTOR_BEGIN" ++ "\n" ++
      (body ++ "\n" ++ ("@SYM_EXEC_EXTRACTOR_END" ++ "\n" ++ rest))) := by
    unfold reportText
    rw [hbody, ← String.toList_inj]
    simp
  have hbegin : textLines ("@SYM_EXEC_EXTRACTOR_BEGIN" ++ "\n") = ["@SYM_EXEC_EXTRACTOR_BEGIN\n"] := by decide
  have hend : textLines ("@SYM_EXEC_EXTRACTOR_END" ++ "\n") = ["@SYM_EXEC_EXTRACTOR_END\n"] := by decide
  rw [hsplit, textLines_append, textLines_append, textLines_append, textLines_append, hbegin, hend, ← hbody]
  rfl

/-- **The blocks of a file** are the bodies of its reports. -/
theorem blocks_fileText {after : String} (hafter : Silent after) : ∀ {reports : List (String × List Piece)},
    (∀ x ∈ reports, Silent (x.1 ++ "\n") ∧ ∀ e, .event e ∈ x.2 → e.Printable) →
      blocks (textLines (fileText reports after)) = reports.map fun x => textLines (bodyText x.2)
  | [], _ => by
    have hfile : fileText [] after = after := by
      unfold fileText
      rw [List.map_nil, String.join_nil, String.empty_append]
    rw [hfile, ← List.append_nil (textLines after), blocks_silent [] hafter]
    rfl
  | x :: reports, h => by
    rw [List.forall_mem_cons] at h
    have hfile : fileText (x :: reports) after = x.1 ++ reportText x.2 ++ fileText reports after := by
      unfold fileText
      rw [List.map_cons, String.join_cons, String.append_assoc]
    obtain ⟨hclean, hhead⟩ := clean_bodyText h.1.2
    have hbody : ∀ line ∈ textLines (bodyText x.2), isMarker line = false := by
      intro line hline
      rw [textLines_eq hclean.newlines] at hline
      obtain ⟨l, hl, rfl⟩ := List.mem_map.mp hline
      refine isMarker_of_head ?_
      rw [String.toList_ofList]
      exact head_ne_of_mem_lines hclean.chain hhead l hl
    rw [hfile, textLines_report, blocks_silent _ h.1.1, blocks_block (by decide) (by decide) hbody,
      blocks_fileText hafter h.2]
    rfl

/-! ### Trees -/

theorem appendAll_append {A B : Type} {f : A → Option (List B)} {xs ys : List B} : ∀ {as bs : List A},
    appendAll f as = some xs → appendAll f bs = some ys → appendAll f (as ++ bs) = some (xs ++ ys)
  | [], bs, ha, hb => by
    obtain rfl := Option.some.inj ha
    exact hb
  | a :: as, bs, ha, hb => by
    obtain ⟨b, hb', ha⟩ := Option.bind_eq_some_iff.mp ha
    obtain ⟨zs, hzs, ha⟩ := Option.bind_eq_some_iff.mp ha
    obtain rfl := Option.some.inj ha
    rw [List.cons_append, appendAll, hb', appendAll_append hzs hb, List.append_assoc]
    rfl

theorem mem_of_appendAll {A B : Type} {f : A → Option (List B)} {P : A → B → Prop} : ∀ {as : List A} {xs : List B},
    (∀ a ∈ as, ∃ bs, f a = some bs ∧ ∀ x, x ∈ bs ↔ P a x) → appendAll f as = some xs →
      ∀ x, x ∈ xs ↔ ∃ a ∈ as, P a x
  | [], xs, _, hxs, x => by
    obtain rfl := Option.some.inj hxs
    simp
  | a :: as, xs, h, hxs, x => by
    rw [List.forall_mem_cons] at h
    obtain ⟨bs, hbs, hmem⟩ := h.1
    obtain ⟨bs', hbs', hxs⟩ := Option.bind_eq_some_iff.mp hxs
    obtain ⟨ys, hys, hxs⟩ := Option.bind_eq_some_iff.mp hxs
    obtain rfl := Option.some.inj hxs
    obtain rfl := Option.some.inj (hbs'.symm.trans hbs)
    rw [List.mem_append, hmem, mem_of_appendAll h.2 hys x]
    simp

/-- What an element gives is in the whole. -/
theorem exists_of_appendAll {A B : Type} {f : A → Option (List B)} {as : List A} {xs : List B}
    (h : appendAll f as = some xs) {a : A} (ha : a ∈ as) : ∃ bs, f a = some bs ∧ ∀ x ∈ bs, x ∈ xs := by
  induction as generalizing xs with
  | nil => cases ha
  | cons c as ih =>
    obtain ⟨bs, hbs, h⟩ := Option.bind_eq_some_iff.mp h
    obtain ⟨ys, hys, h⟩ := Option.bind_eq_some_iff.mp h
    obtain rfl := Option.some.inj h
    rcases List.mem_cons.mp ha with rfl | ha
    · exact ⟨bs, hbs, fun x hx => List.mem_append_left _ hx⟩
    · obtain ⟨cs, hcs, hmem⟩ := ih hys ha
      exact ⟨cs, hcs, fun x hx => List.mem_append_right _ (hmem x hx)⟩

section

variable [StrHash]

/-- **The trees of spaced elements** have the sequences of the elements. -/
theorem yieldTrees_spaced {b : Bool} : ∀ {es : List Element}, (∀ e ∈ es, e.parseable noResolver b = true) →
    ∃ trees seqs, yieldTrees noResolver b (es.map Element.spaced) = ⟨trees, none⟩ ∧
      appendAll sequences trees = some seqs ∧ appendAll (ExecTree.sequences b) es = some seqs
  | [], _ => ⟨[], [], rfl, rfl, rfl⟩
  | e :: es, h => by
    rw [List.forall_mem_cons] at h
    obtain ⟨trees, seqs, hyield, htrees, hes⟩ := yieldTrees_spaced h.2
    obtain ⟨tree, htree, hseqs, hspaced⟩ := sequences_eq ((e.parseable_spaced b).trans h.1)
    rw [sequences_spaced h.1] at hspaced
    refine ⟨tree :: trees, (Element.paths noResolver e.spaced).map Element.shown ++ seqs, ?_, ?_, ?_⟩
    · rw [List.map_cons, yieldTrees, htree]
      simp only [hyield]
      rfl
    · rw [appendAll, hseqs, htrees]
      rfl
    · rw [appendAll, hspaced, hes]
      rfl

/-- The sequences of the trees that a file yields. -/
def File.extract (parseConstraints : Bool) (ns : Xml.Namespaces) (text : String) : Option (List (List Event)) :=
  appendAll sequences (parseFile noResolver parseConstraints (Xml.read Element.mk ns) (textLines text)).yields

end

/-! ### Graphs -/

namespace ExplodedGraph

variable {N : Type} [DecidableEq N] (G : ExplodedGraph N)

omit [DecidableEq N] in
/-- What is printed for a node is an event of its state. -/
theorem mem_of_printed {e : SymExecEvent} {prev : Option N} {cur : N} (h : G.printed prev cur = some e) :
    e ∈ G.events cur := by
  unfold printed at h
  split at h
  · cases h
  · rename_i e' es hevents
    split_ifs at h
    obtain rfl := Option.some.inj h
    rw [hevents]
    exact List.mem_cons_self

/-- The events that are printed are events of states. -/
theorem mem_dumpTree {e : SymExecEvent} : ∀ (n : ℕ) (nodes : List N) (cur : N) (prev : Option N)
    (pieces : List Piece), G.dumpTree n nodes cur prev = some pieces → .event e ∈ pieces → ∃ m, e ∈ G.events m
  | 0, _, _, _, _, h, _ => nomatch h
  | n + 1, nodes, cur, prev, pieces, h, he => by
    have hbelow : ∀ (vs : List N) (below : List Piece),
        appendAll (fun v => G.dumpTree n (nodes ++ [cur]) v (some cur)) vs = some below → .event e ∈ below → ∃ m, e ∈ G.events m := by
      intro vs
      induction vs with
      | nil =>
        intro below hbelow he
        obtain rfl := Option.some.inj hbelow
        cases he
      | cons v vs ih =>
        intro below hbelow he
        obtain ⟨ps, hps, hbelow⟩ := Option.bind_eq_some_iff.mp hbelow
        obtain ⟨qs, hqs, hbelow⟩ := Option.bind_eq_some_iff.mp hbelow
        obtain rfl := Option.some.inj hbelow
        rcases List.mem_append.mp he with he | he
        · exact mem_dumpTree n _ v _ ps hps he
        · exact ih qs hqs he
    rw [dumpTree] at h
    split_ifs at h
    · obtain rfl := Option.some.inj h
      cases he
    · obtain ⟨below, hsuccs, h⟩ := Option.bind_eq_some_iff.mp h
      cases hprinted : G.printed prev cur with
      | none =>
        rw [hprinted] at h
        obtain rfl := Option.some.inj h
        exact hbelow _ _ hsuccs he
      | some e' =>
        rw [hprinted] at h
        obtain rfl := Option.some.inj h
        simp only [List.cons_append, List.nil_append, List.mem_cons, List.mem_append, List.not_mem_nil, or_false,
          reduceCtorEq, false_or, Piece.event.injEq] at he
        rcases he with rfl | he
        · exact ⟨cur, G.mem_of_printed hprinted⟩
        · exact hbelow _ _ hsuccs he

variable [Fintype N]

/-- What `checkEndAnalysis` has printed of the graph. -/
def print : List Piece := (G.dumpTree (Fintype.card N + 1) [] G.root none).getD []

/-- The print of a graph, read back. -/
theorem print_spec [StrHash] (b : Bool) : ∃ es, readTree G.print = some es ∧
    (∀ e ∈ es, e.parseable noResolver b = true) ∧ G.extract b = appendAll (ExecTree.sequences b) es := by
  obtain ⟨ps, es, hps, hreads, hparse, -⟩ := G.dumpTree_spec (Fintype.card N + 1) [] G.root none
    List.nodup_nil (by simp)
  have hprint : G.print = ps := by
    unfold print
    rw [hps]
    rfl
  refine ⟨es, hprint ▸ readTree_of_reads hreads, hparse b, ?_⟩
  unfold extract
  rw [hps]
  show (readTree ps).bind _ = _
  rw [readTree_of_reads hreads]
  rfl

theorem printable_print (h : ∀ n, ∀ e ∈ G.events n, e.Printable) : ∀ e, .event e ∈ G.print → e.Printable := by
  intro e he
  unfold print at he
  cases hdump : G.dumpTree (Fintype.card N + 1) [] G.root none with
  | none =>
    rw [hdump] at he
    cases he
  | some pieces =>
    rw [hdump] at he
    obtain ⟨m, hm⟩ := G.mem_dumpTree _ _ _ _ pieces hdump he
    exact h m e hm

end ExplodedGraph

section

variable [StrHash] {ι : Type} {N : ι → Type} [∀ i, DecidableEq (N i)] [∀ i, Fintype (N i)]
  (G : ∀ i, ExplodedGraph (N i))

/-- The bodies of graphs are read as their trees. -/
theorem readBlocks_print (b : Bool) (ns : Xml.Namespaces) : ∀ is : List ι,
    (∀ i ∈ is, ∀ n, ∀ e ∈ (G i).events n, e.Printable) → ∃ trees seqs,
      readBlocks noResolver b (Xml.read Element.mk ns) (is.map fun i => textLines (bodyText (G i).print)) =
        ⟨trees, none⟩ ∧ appendAll sequences trees = some seqs ∧ appendAll (fun i => (G i).extract b) is = some seqs
  | [], _ => ⟨[], [], rfl, rfl, rfl⟩
  | i :: is, h => by
    rw [List.forall_mem_cons] at h
    obtain ⟨rest, seqs, hrest, hseqs, his⟩ := readBlocks_print b ns is h.2
    have hprint := (G i).printable_print h.1
    obtain ⟨es, hread, hparse, hextract⟩ := (G i).print_spec b
    obtain ⟨trees, seqs', hyield, hseqs', hes⟩ := yieldTrees_spaced hparse
    refine ⟨trees ++ rest, seqs' ++ seqs, ?_, appendAll_append hseqs' hseqs, ?_⟩
    · rw [List.map_cons, readBlocks, join_textLines (clean_bodyText hprint).1.newlines, readBody,
        read_body ns hprint hread]
      show (yieldTrees noResolver b (es.map Element.spaced)).andThen _ = _
      rw [hyield, hrest]
      rfl
    · rw [appendAll, hextract, hes, his]
      rfl

/-- **A file is read to its end**, and its trees have the sequences of the graphs,
in their order. -/
theorem parseFile_fileText (b : Bool) (ns : Xml.Namespaces) {is : List ι} {before : ι → String} {after : String}
    (hprint : ∀ i ∈ is, ∀ n, ∀ e ∈ (G i).events n, e.Printable)
    (hbefore : ∀ i ∈ is, Silent (before i ++ "\n")) (hafter : Silent after) : ∃ trees seqs,
      parseFile noResolver b (Xml.read Element.mk ns)
          (textLines (fileText (is.map fun i => (before i, (G i).print)) after)) = ⟨trees, none⟩ ∧
        appendAll sequences trees = some seqs ∧ appendAll (fun i => (G i).extract b) is = some seqs := by
  have hreports : ∀ x ∈ is.map fun i => (before i, (G i).print),
      Silent (x.1 ++ "\n") ∧ ∀ e, .event e ∈ x.2 → e.Printable := by
    intro x hx
    obtain ⟨i, hi, rfl⟩ := List.mem_map.mp hx
    exact ⟨hbefore i hi, (G i).printable_print (hprint i hi)⟩
  obtain ⟨trees, seqs, htrees, hseqs, his⟩ := readBlocks_print G b ns is hprint
  refine ⟨trees, seqs, ?_, hseqs, his⟩
  rw [parseFile_eq, blocks_fileText hafter hreports, List.map_map]
  exact htrees

/-- The events are those that a path of the graph leaves, up to an `EOP`: the
newest one of each edge. -/
def LeftBy {M : Type} (G : ExplodedGraph M) (q : List M) (events : List Event) : Prop :=
  Simple G.Edge [] G.root q ∧ EndsAtEop (G.newest G.root q) ∧
    events = (G.newest G.root q).map SymExecEvent.toEvent

theorem mem_of_extract (b : Bool) {is : List ι} {seqs : List (List Event)}
    (his : appendAll (fun i => (G i).extract b) is = some seqs) (s : List Event) :
    s ∈ seqs ↔ ∃ i ∈ is, ∃ q, LeftBy (G i) q s :=
  mem_of_appendAll (fun i _ => (G i).mem_extract b) his s

/-- **From graphs to sequences, by way of the text.** A file with the reports of
graphs is read to its end, and gives what its graphs give, in their order: what
their simple paths that end at an `EOP` leave. -/
theorem extract_fileText (b : Bool) (ns : Xml.Namespaces) (is : List ι) (before : ι → String) (after : String)
    (hprint : ∀ i ∈ is, ∀ n, ∀ e ∈ (G i).events n, e.Printable)
    (hbefore : ∀ i ∈ is, Silent (before i ++ "\n")) (hafter : Silent after) :
    let text := fileText (is.map fun i => (before i, (G i).print)) after
    (parseFile noResolver b (Xml.read Element.mk ns) (textLines text)).error = none ∧
      ∃ seqs, File.extract b ns text = some seqs ∧ appendAll (fun i => (G i).extract b) is = some seqs ∧
        ∀ s, s ∈ seqs ↔ ∃ i ∈ is, ∃ q, LeftBy (G i) q s := by
  intro text
  obtain ⟨trees, seqs, htrees, hseqs, his⟩ := parseFile_fileText G b ns hprint hbefore hafter
  refine ⟨by rw [htrees], seqs, ?_, his, mem_of_extract G b his⟩
  unfold File.extract
  rw [htrees]
  exact hseqs

end

/-- A call with text to escape. -/
def quotedCall : SymExecEvent := ⟨.fnCall, "a.c:5", "f(a && b, \"<x>\")"⟩

/-- The events at each node: the call, and then the end of its path. -/
def callEvents : Fin 3 → List SymExecEvent
  | 0 => []
  | 1 => [quotedCall]
  | 2 => [.ofKind .eop, quotedCall]

theorem callEvents_succ (u v : Fin 3) (hv : v ∈ ExplodedGraph.switchGraph.succs u) :
    ∃ new, callEvents v = new ++ callEvents u :=
  match u, v, hv with
  | 0, _, .head _ => ⟨[quotedCall], rfl⟩
  | 1, _, .head _ => ⟨[.ofKind .eop], rfl⟩
  | 2, _, hv => (List.not_mem_nil hv).elim

theorem callEvents_last (n : Fin 3) : ∀ e ∈ (callEvents n).tail, e.kind ≠ .eop := by
  revert n
  decide

/-- A graph of the same shape as the one of the `switch`. -/
def callGraph : ExplodedGraph (Fin 3) where
  root := ExplodedGraph.switchGraph.root
  succs := ExplodedGraph.switchGraph.succs
  events := callEvents
  events_root := rfl
  events_succ := callEvents_succ
  eop_last n _ := callEvents_last n

/-- Two reports, with the compiler's messages around them. -/
theorem extract_fileText_callGraph :
    let _ : StrHash := ⟨fun s => s.length⟩
    let G := fun b : Bool => if b then callGraph else ExplodedGraph.switchGraph
    let text := fileText ([true, false].map fun b => ("a.c:3:1: warning: ", (G b).print)) "2 warnings generated.\n"
    (parseFile noResolver true (Xml.read Element.mk Xml.noNamespaces) (textLines text)).error = none ∧
      ∃ seqs, File.extract true Xml.noNamespaces text = some seqs ∧
        [.call ⟨some (some "f(a && b, \"<x>\")"), some (some "a.c:5")⟩, .eop] ∈ seqs := by
  intro _ G text
  have hprint : ∀ b n, ∀ e ∈ (G b).events n, e.Printable := by decide +kernel
  obtain ⟨herror, seqs, hseqs, -, hmem⟩ := extract_fileText G true Xml.noNamespaces [true, false]
    (fun _ => "a.c:3:1: warning: ") "2 warnings generated.\n" (fun b _ => hprint b) (by decide) (by decide)
  have hcall : callGraph.Edge 0 1 := List.mem_singleton_self 1
  have heop : callGraph.Edge 1 2 := List.mem_singleton_self 2
  have hpath : Simple callGraph.Edge [] 0 [1, 2] :=
    ⟨List.isChain_cons_cons.mpr ⟨hcall, List.isChain_cons_cons.mpr ⟨heop, List.isChain_singleton _⟩⟩, by decide,
      by simp⟩
  exact ⟨herror, seqs, hseqs, (hmem _).mpr ⟨true, by decide, [1, 2], hpath, rfl, rfl⟩⟩

end Apisan
