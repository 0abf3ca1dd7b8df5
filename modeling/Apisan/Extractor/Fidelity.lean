/-
# What the analyzer gets of a graph

The print of an exploded graph is read back and its trees are iterated; the
event sequences obtained are compared with the event lists of the states that
end a path. `dumpTree` prints the head of a list only, so of an edge that adds
several events (a `default` case adds one condition per case before it) all but
the newest are lost, and the sequence that is left may belong to no state
(`switch_loses`).

The sequences obtained are those that the newest events of simple paths make
(`mem_extract`). They are the ones recorded exactly if the paths that lose
events are made good by others (`faithful_iff`).

Key definitions: `ExplodedGraph.extract`, `ExplodedGraph.Faithful`,
`ExplodedGraph.MadeGood`.
Key theorems: `ExplodedGraph.newest_spec`, `ExplodedGraph.mem_extract`,
`ExplodedGraph.faithful_iff`.
-/
import Apisan.Extractor.DumpTree

namespace Apisan

open Python

namespace ExplodedGraph

variable {N : Type} (G : ExplodedGraph N)

/-! ### Paths and their states -/

/-- The state ends a path of the analysis. -/
def Ends (n : N) : Prop :=
  Relation.ReflTransGen G.Edge G.root n ∧ (G.events n).head?.map SymExecEvent.kind = some .eop

/-- The events that a state records, oldest first. -/
def sequence (n : N) : List Event := (G.events n).reverse.map SymExecEvent.toEvent

/-- Some edge of the path adds several events. -/
def Lossy (u : N) : List N → Prop
  | [] => False
  | v :: q => 2 ≤ (G.added u v).length ∨ Lossy v q

/-- **A path and the state at its end.** The state has the events that the path
added in front; the newest ones of the edges are some of these, with the same
last one, and all of them unless an edge adds several. -/
theorem newest_spec : ∀ (q : List N) (u : N), List.IsChain G.Edge (u :: q) →
    ∃ added, G.events (q.getLastD u) = added ++ G.events u ∧
      (G.newest u q).Sublist added.reverse ∧ (G.newest u q).getLast? = added.head? ∧
      (¬ G.Lossy u q → G.newest u q = added.reverse)
  | [], u, _ => ⟨[], rfl, List.Sublist.refl _, rfl, fun _ => rfl⟩
  | v :: q, u, h => by
    rw [List.isChain_cons_cons] at h
    obtain ⟨added, hevents, hsub, hlast, hall⟩ := newest_spec q v h.2
    have hhead : (G.added u v).head?.toList.Sublist (G.added u v).reverse := by
      cases G.added u v <;> simp
    refine ⟨added ++ G.added u v, ?_, ?_, ?_, fun hlossy => ?_⟩
    · rw [List.getLastD_cons, hevents, G.events_eq_added h.1, List.append_assoc]
    · rw [newest, List.reverse_append]
      exact hhead.append hsub
    · rw [newest, List.getLast?_append, hlast, List.head?_append]
      cases G.added u v <;> rfl
    · rw [Lossy, not_or, Nat.not_le] at hlossy
      have hone : (G.added u v).head?.toList = (G.added u v).reverse := by
        match hadded : G.added u v with
        | [] => rfl
        | [_] => rfl
        | _ :: _ :: _ =>
          rw [hadded, List.length_cons, List.length_cons] at hlossy
          omega
      rw [newest, hone, hall hlossy.2, List.reverse_append]

theorem endsAtEop_concat {e : SymExecEvent} : ∀ {init : List SymExecEvent},
    EndsAtEop (init ++ [e]) ↔ e.kind = .eop ∧ ∀ x ∈ init, x.kind ≠ .eop
  | [] => by simp [EndsAtEop]
  | x :: init => by
    have ih : EndsAtEop (init ++ [e]) ↔ _ := endsAtEop_concat
    rw [List.cons_append, EndsAtEop, List.forall_mem_cons]
    by_cases heop : x.kind = .eop
    · simp [heop]
    · rw [if_neg heop, ih]
      simp [heop]

theorem reachable_of_chain {q : List N} {u : N} (h : List.IsChain G.Edge (u :: q)) :
    Relation.ReflTransGen G.Edge u (q.getLastD u) := by
  induction q generalizing u with
  | nil => exact .refl
  | cons v q ih =>
    rw [List.isChain_cons_cons] at h
    rw [List.getLastD_cons]
    exact .head h.1 (ih h.2)

/-- A path from the root ends with an `EOP`, and has no other, exactly if the
state at its end does. -/
theorem endsAtEop_newest {q : List N} (h : List.IsChain G.Edge (G.root :: q)) :
    EndsAtEop (G.newest G.root q) ↔ G.Ends (q.getLastD G.root) := by
  obtain ⟨added, hevents, hsub, hlast, -⟩ := G.newest_spec q G.root h
  rw [G.events_root, List.append_nil] at hevents
  have hreach := G.reachable_of_chain h
  rcases List.eq_nil_or_concat' (G.newest G.root q) with hnil | ⟨init, e, hconcat⟩
  · rw [hnil, List.getLast?_nil] at hlast
    rw [hnil, Ends, hevents, ← hlast]
    simp [EndsAtEop]
  · rw [hconcat, List.getLast?_concat] at hlast
    obtain ⟨rest, rfl⟩ := List.head?_eq_some_iff.mp hlast.symm
    rw [hconcat, List.reverse_cons, List.append_sublist_append_right] at hsub
    have hinit : ∀ x ∈ init, x.kind ≠ .eop := fun x hx =>
      G.eop_last _ hreach x (by rw [hevents]; exact List.mem_reverse.mp (hsub.mem hx))
    rw [hconcat, endsAtEop_concat, Ends, hevents, List.head?_cons]
    exact ⟨fun h => ⟨hreach, congrArg some h.1⟩, fun h => ⟨Option.some.inj h.2, hinit⟩⟩

/-- The path keeps all events of its last state if no edge adds several. -/
theorem newest_eq {q : List N} (h : List.IsChain G.Edge (G.root :: q)) (hlossy : ¬ G.Lossy G.root q) :
    (G.newest G.root q).map SymExecEvent.toEvent = G.sequence (q.getLastD G.root) := by
  obtain ⟨added, hevents, -, -, hall⟩ := G.newest_spec q G.root h
  rw [G.events_root, List.append_nil] at hevents
  rw [hall hlossy, sequence, hevents]

/-- **Lost events are made good.** For a path to a state that ends it, with an
edge that adds several events, the newest events of its edges are those of some
state that ends a path; and those of its own state are the newest events of
the edges of some path. -/
def MadeGood : Prop :=
  ∀ q, Simple G.Edge [] G.root q → G.Ends (q.getLastD G.root) → G.Lossy G.root q →
    (∃ n, G.Ends n ∧ (G.newest G.root q).map SymExecEvent.toEvent = G.sequence n) ∧
    ∃ q', Simple G.Edge [] G.root q' ∧ G.Ends (q'.getLastD G.root) ∧
      G.sequence (q.getLastD G.root) = (G.newest G.root q').map SymExecEvent.toEvent

end ExplodedGraph

/-! ### Reading the print -/

section

variable [StrHash]

/-- The event sequences of the paths that iterating an element yields. -/
def ExecTree.sequences (parseConstraints : Bool) (xml : Element) : Option (List (List Event)) :=
  match ofElement noResolver parseConstraints xml with
  | .error _ => none
  | .ok (heap, root) =>
    match iterate noResolver heap root with
    | .done yields => some (yields.map fun y => y.nodes.map ExecNode.event)
    | .raised _ _ => none

omit [StrHash] in
/-- Nodes with parsed events show their events. -/
theorem shows_nodes {nodes : List ExecNode}
    (h : ∀ n ∈ nodes, ExecNode.parseEvent noResolver (n.node.find "EVENT") = .ok n.event)
    (s : List Event) : Shows (nodes.map ExecNode.node) s ↔ s = nodes.map ExecNode.event := by
  have hparsed : (nodes.map ExecNode.node).map
      (fun e => ExecNode.parseEvent noResolver (e.find "EVENT")) =
      (nodes.map ExecNode.event).map Except.ok := by
    rw [List.map_map, List.map_map]
    exact List.map_congr_left h
  rw [Shows, hparsed]
  constructor
  · intro heq
    exact (List.map_injective_iff.mpr (fun _ _ => Except.ok.inj) heq).symm
  · rintro rfl
    rfl

theorem mem_sequences {b : Bool} {xml : Element} (h : xml.parseable noResolver b = true) :
    ∃ seqs, ExecTree.sequences b xml = some seqs ∧
      ∀ s, s ∈ seqs ↔ ∃ p ∈ Element.paths noResolver xml, Shows p s := by
  obtain ⟨heap, root, yields, hroot, hdone, hpaths, hevents⟩ := ExecTree.iterate_paths h
  refine ⟨yields.map fun y => y.nodes.map ExecNode.event, ?_, fun s => ?_⟩
  · simp only [ExecTree.sequences, hroot, hdone]
  · rw [← hpaths, List.mem_map]
    simp only [List.mem_map, exists_exists_and_eq_and]
    constructor
    · rintro ⟨y, hy, rfl⟩
      exact ⟨y, hy, (shows_nodes (hevents y hy) _).mpr rfl⟩
    · rintro ⟨y, hy, hs⟩
      exact ⟨y, hy, ((shows_nodes (hevents y hy) s).mp hs).symm⟩

theorem mem_appendAll {b : Bool} : ∀ {es : List Element},
    (∀ e ∈ es, Element.parseable noResolver b e = true) →
    ∃ seqs, appendAll (ExecTree.sequences b) es = some seqs ∧
      ∀ s, s ∈ seqs ↔ ∃ p ∈ Element.pathsFrom noResolver es, Shows p s
  | [], _ => ⟨[], rfl, fun s => by rw [Element.pathsFrom_eq]; simp⟩
  | e :: es, h => by
    rw [List.forall_mem_cons] at h
    obtain ⟨xs, hxs, hmem⟩ := mem_sequences h.1
    obtain ⟨ys, hys, hmem'⟩ := mem_appendAll h.2
    refine ⟨xs ++ ys, ?_, fun s => ?_⟩
    · rw [appendAll, hxs, hys]
      rfl
    · have htag : (e.tag == "NODE") = true := beq_iff_eq.mpr (Element.parseable_spec h.1).1
      rw [Element.pathsFrom, if_pos htag, List.mem_append, hmem, hmem']
      simp only [List.mem_append, or_and_right, exists_or]

namespace ExplodedGraph

variable {N : Type} (G : ExplodedGraph N)

section

variable [DecidableEq N] [Fintype N]

/-- The event sequences that the analyzer gets of the graph: print it, read the
print, and iterate the trees. -/
def extract (parseConstraints : Bool) : Option (List (List Event)) := do
  let pieces ← G.dumpTree (Fintype.card N + 1) [] G.root none
  let children ← readTree pieces
  appendAll (ExecTree.sequences parseConstraints) children

/-- **What the analyzer gets** are the newest events of the simple paths from
the root, where they end at an `EOP`. -/
theorem mem_extract (b : Bool) : ∃ seqs, G.extract b = some seqs ∧
    ∀ s, s ∈ seqs ↔ ∃ q, Simple G.Edge [] G.root q ∧ EndsAtEop (G.newest G.root q) ∧
      s = (G.newest G.root q).map SymExecEvent.toEvent := by
  obtain ⟨ps, es, hps, hreads, hparse, hshows⟩ := G.dumpTree_spec (Fintype.card N + 1) [] G.root none
    List.nodup_nil (by simp)
  obtain ⟨seqs, hseqs, hmem⟩ := mem_appendAll (hparse b)
  refine ⟨seqs, ?_, fun s => ?_⟩
  · rw [extract, hps]
    show (readTree ps).bind _ = _
    rw [readTree_of_reads hreads]
    exact hseqs
  · have hroot : G.printed none G.root = none := by rw [printed, G.events_root]
    rw [hmem, hshows, hroot]
    rfl

/-- The sequences that the analyzer gets are those of the states that end a
path. -/
def Faithful (parseConstraints : Bool) : Prop :=
  ∃ seqs, G.extract parseConstraints = some seqs ∧ ∀ s, s ∈ seqs ↔ ∃ n, G.Ends n ∧ s = G.sequence n

/-- **When the pipeline keeps the paths.** The sequences that the analyzer gets
are those recorded exactly if lost events are made good. -/
theorem faithful_iff (b : Bool) : G.Faithful b ↔ G.MadeGood := by
  obtain ⟨seqs, hseqs, hmem⟩ := G.mem_extract b
  have hmem' : ∀ s, s ∈ seqs ↔ ∃ q, Simple G.Edge [] G.root q ∧ G.Ends (q.getLastD G.root) ∧
      s = (G.newest G.root q).map SymExecEvent.toEvent := fun s => by
    rw [hmem]
    exact exists_congr fun q => and_congr_right fun hq => and_congr_left fun _ =>
      G.endsAtEop_newest hq.chain
  have hfaithful : G.Faithful b ↔ ∀ s, s ∈ seqs ↔ ∃ n, G.Ends n ∧ s = G.sequence n := by
    simp only [Faithful, hseqs, Option.some.injEq, exists_eq_left']
  rw [hfaithful]
  constructor
  · intro h q hq hend hlossy
    exact ⟨(h _).mp ((hmem' _).mpr ⟨q, hq, hend, rfl⟩), (hmem' _).mp ((h _).mpr ⟨_, hend, rfl⟩)⟩
  · intro h s
    rw [hmem']
    constructor
    · rintro ⟨q, hq, hend, rfl⟩
      by_cases hlossy : G.Lossy G.root q
      · exact (h q hq hend hlossy).1
      · exact ⟨_, hend, G.newest_eq hq.chain hlossy⟩
    · rintro ⟨n, hend, rfl⟩
      obtain ⟨q, hq, rfl⟩ := Simple.exists_of_reachable hend.1
      by_cases hlossy : G.Lossy G.root q
      · exact (h q hq hend hlossy).2
      · exact ⟨q, hq, hend, (G.newest_eq hq.chain hlossy).symm⟩

end

end ExplodedGraph

end

namespace ExplodedGraph

/-- What is known of `x` when it is neither 0 nor 1, newest first. -/
def switchConds : List SymExecEvent :=
  [.ofCond .assume "x@=\x7b [2, 4294967295] \x7d", .ofCond .assume "x@=\x7b [1, 4294967295] \x7d"]

/-- A `switch` with two cases: the edge to the default node adds a condition
for each case, and the next edge an `EOP`. -/
def switchGraph : ExplodedGraph (Fin 3) where
  root := 0
  succs
    | 0 => [1]
    | 1 => [2]
    | 2 => []
  events
    | 0 => []
    | 1 => switchConds
    | 2 => .ofKind .eop :: switchConds
  events_root := rfl
  events_succ
    | 0, _, .head _ => ⟨switchConds, rfl⟩
    | 1, _, .head _ => ⟨[.ofKind .eop], rfl⟩
    | 2, _, hv => (List.not_mem_nil hv).elim
  eop_last
    | 0, _ | 1, _ | 2, _ => by decide

theorem switch_ends : switchGraph.Ends 2 := by
  have hfirst : switchGraph.Edge 0 1 := List.mem_singleton_self 1
  have hsecond : switchGraph.Edge 1 2 := List.mem_singleton_self 2
  exact ⟨.tail (.single hfirst) hsecond, rfl⟩

/-- The analyzer gets a sequence without the first condition. -/
theorem switch_loses :
    let _ : StrHash := ⟨fun s => s.length⟩
    let first := Event.assume (some (some "x@=\x7b [1, 4294967295] \x7d"))
    let second := Event.assume (some (some "x@=\x7b [2, 4294967295] \x7d"))
    switchGraph.sequence 2 = [first, second, .eop] ∧
      switchGraph.extract true = some [[second, .eop]] ∧ ¬ switchGraph.Faithful true := by
  intro _ first second
  have hextract : switchGraph.extract true = some [[second, .eop]] := by decide
  refine ⟨by decide, hextract, ?_⟩
  rintro ⟨seqs, hseqs, hmem⟩
  rw [hextract, Option.some.injEq] at hseqs
  subst hseqs
  have hlost := (hmem (switchGraph.sequence 2)).mpr ⟨2, switch_ends, rfl⟩
  exact absurd hlost (by decide)

end ExplodedGraph

end Apisan
