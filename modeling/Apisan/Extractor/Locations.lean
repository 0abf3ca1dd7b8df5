/-
# Locations in the code

The analyzer resolves the locations of a database file by the file's name: with
the source that the file was made of, if the file is in the output directory, and
as they stand otherwise. A resolver that takes the locations of a graph changes
nothing else of what is read: the paths are the same, and their events are those
without a resolver, each with its location resolved (`Printed.iterate`).

Key definitions: `Event.mapCode`, `SymExecEvent.Resolves`,
`SymExecEvent.Texted`, `Printed`.
Key theorems: `ExplodedGraph.printed_print`, `Printed.paths_eq`,
`Printed.texted`, `Printed.iterate`.
-/
import Apisan.Parse.Unread
import Apisan.Extractor.Database

namespace Apisan

open Python Machine

/-- The event with another location. -/
def Event.mapCode (f : Option String → Option String) : Event → Event
  | .call a => .call { a with code := a.code.map f }
  | .ret a => .ret { a with code := a.code.map f }
  | .location type code => .location type (code.map f)
  | .eop => .eop
  | .assume text => .assume text

variable {resolver : Resolver} {f : Option String → Option String} {P : SymExecEvent → Prop}

/-- The resolver takes the location of an event, if it is printed. -/
def SymExecEvent.Resolves (resolver : Resolver) (f : Option String → Option String) (e : SymExecEvent) : Prop :=
  e.kind = .fnCall ∨ e.kind = .fnReturn → resolver (xmlText e.code) = .ok (f (xmlText e.code))

/-- A condition that was logged has a text. -/
def SymExecEvent.Texted (e : SymExecEvent) : Prop := e.kind = .assume → e.sv ≠ ""

/-- A `CODE` child. -/
theorem callChild_code (kind : EventKind) {tag code : String} (htag : tag ≠ "CODE") (a : CallAttributes)
    {x : Option String} (h : resolver (xmlText code) = .ok x) :
    callChild kind tag resolver a (xmlLeaf "CODE" code) = .ok { a with code := some x } := by
  show (if "CODE" = "KIND" then checkKind kind (xmlLeaf "CODE" code) a
    else if "CODE" = tag then .ok { a with callText := some (xmlText code) }
    else if "CODE" = "CODE" then do
      let x ← resolver (xmlText code)
      .ok { a with code := some x }
    else .error .valueError) = _
  rw [if_neg (by decide), if_neg (Ne.symm htag), if_pos rfl, h]
  rfl

/-- **An event is read** with its location resolved. -/
theorem SymExecEvent.Resolves.parseEvent {e : SymExecEvent} (h : e.Resolves resolver f) :
    ExecNode.parseEvent resolver (some e.element) = .ok (e.toEvent.mapCode f) := by
  obtain ⟨kind, code, sv⟩ := e
  cases kind with
  | fnCall =>
    have hkind : callChild .call "CALL" resolver ⟨none, none⟩ (xmlLeaf "KIND" "@LOG_CALL") = .ok ⟨none, none⟩ := rfl
    have hcode := callChild_code .call (show "CALL" ≠ "CODE" by decide) ⟨none, none⟩ (h (.inl rfl))
    show callEvent (.mk "EVENT" none [xmlLeaf "KIND" "@LOG_CALL", xmlLeaf "CODE" code, xmlLeaf "CALL" sv])
      resolver = _
    unfold callEvent Element.children
    rw [List.foldlM_cons, hkind, ok_bind, List.foldlM_cons, hcode]
    rfl
  | fnReturn =>
    have hkind : callChild .ret "RETURN" resolver ⟨none, none⟩ (xmlLeaf "KIND" "@LOG_RETURN") =
      .ok ⟨none, none⟩ := rfl
    have hcode := callChild_code .ret (show "RETURN" ≠ "CODE" by decide) ⟨none, none⟩ (h (.inr rfl))
    show returnEvent (.mk "EVENT" none [xmlLeaf "KIND" "@LOG_RETURN", xmlLeaf "CODE" code, xmlLeaf "RETURN" sv])
      resolver = _
    unfold returnEvent Element.children
    rw [List.foldlM_cons, hkind, ok_bind, List.foldlM_cons, hcode]
    rfl
  | assume => rfl
  | eop => rfl

@[simp] theorem Event.isEop_mapCode (event : Event) : (event.mapCode f).isEop = event.isEop := by
  cases event <;> rfl

@[simp] theorem Event.hasCond_mapCode (event : Event) : (event.mapCode f).hasCond = event.hasCond := by
  cases event <;> rfl

/-! ### Printed elements -/

/-- The elements that are printed for events with a property. -/
inductive Printed (P : SymExecEvent → Prop) : Element → Prop
  | node {e : SymExecEvent} {below : List Element} (he : P e) (hbelow : ∀ x ∈ below, Printed P x) :
      Printed P (eventNode e below)

namespace ExplodedGraph

variable {N : Type} [DecidableEq N] (G : ExplodedGraph N)

/-- What is printed from a node reads as elements for its events. -/
theorem printed_dumpTree (hP : ∀ n, ∀ e ∈ G.events n, P e) : ∀ (n : ℕ) (nodes : List N) (cur : N) (prev : Option N)
    (pieces : List Piece), G.dumpTree n nodes cur prev = some pieces → ∃ es, Reads pieces es ∧ ∀ x ∈ es, Printed P x
  | 0, _, _, _, _, h => nomatch h
  | n + 1, nodes, cur, prev, pieces, h => by
    have hbelow : ∀ (vs : List N) (below : List Piece),
        appendAll (fun v => G.dumpTree n (nodes ++ [cur]) v (some cur)) vs = some below →
          ∃ es, Reads below es ∧ ∀ x ∈ es, Printed P x := by
      intro vs
      induction vs with
      | nil =>
        intro below hbelow
        obtain rfl := Option.some.inj hbelow
        exact ⟨[], Reads.nil, fun x hx => (List.not_mem_nil hx).elim⟩
      | cons v vs ih =>
        intro below hbelow
        obtain ⟨ps, hps, hbelow⟩ := Option.bind_eq_some_iff.mp hbelow
        obtain ⟨qs, hqs, hbelow⟩ := Option.bind_eq_some_iff.mp hbelow
        obtain rfl := Option.some.inj hbelow
        obtain ⟨es, hes, hprinted⟩ := printed_dumpTree hP n _ v _ ps hps
        obtain ⟨fs, hfs, hprinted'⟩ := ih qs hqs
        exact ⟨es ++ fs, hes.append hfs, List.forall_mem_append.mpr ⟨hprinted, hprinted'⟩⟩
    rw [dumpTree] at h
    split_ifs at h
    · obtain rfl := Option.some.inj h
      exact ⟨[], Reads.nil, fun x hx => (List.not_mem_nil hx).elim⟩
    · obtain ⟨below, hsuccs, h⟩ := Option.bind_eq_some_iff.mp h
      obtain ⟨es, hes, hprinted⟩ := hbelow _ _ hsuccs
      cases hcur : G.printed prev cur with
      | none =>
        rw [hcur] at h
        exact Option.some.inj h ▸ ⟨es, hes, hprinted⟩
      | some e =>
        rw [hcur] at h
        have hnode : Printed P (eventNode e es) := .node (hP cur e (G.mem_of_printed hcur)) hprinted
        exact Option.some.inj h ▸ ⟨[eventNode e es], hes.node e, List.forall_mem_singleton.mpr hnode⟩

/-- **The print of a graph** reads as elements for the events of its states. -/
theorem printed_print [Fintype N] (hP : ∀ n, ∀ e ∈ G.events n, P e) : ∃ es, readTree G.print = some es ∧
    ∀ x ∈ es, Printed P x := by
  obtain ⟨ps, -, hps, -⟩ := G.dumpTree_spec (Fintype.card N + 1) [] G.root none List.nodup_nil (by simp)
  obtain ⟨es, hreads, hprinted⟩ := G.printed_dumpTree hP _ _ _ _ ps hps
  have hprint : G.print = ps := by
    unfold print
    rw [hps]
    rfl
  exact ⟨es, hprint ▸ readTree_of_reads hreads, hprinted⟩

end ExplodedGraph

namespace Printed

variable {x : Element}

theorem mono {Q : SymExecEvent → Prop} (h : Printed P x) (hPQ : ∀ e, P e → Q e) : Printed Q x := by
  induction h with
  | node he hbelow ih => exact .node (hPQ _ he) ih

theorem isEop_eq {e : SymExecEvent} (h : e.Resolves resolver f) (below : List Element) :
    Element.isEop resolver (eventNode e below) = Element.isEop noResolver (eventNode e below) := by
  have hevent : ExecNode.parseEvent resolver ((eventNode e below).find "EVENT") = .ok (e.toEvent.mapCode f) :=
    h.parseEvent
  unfold Element.isEop
  rw [parseEvent_eventNode, hevent]
  exact e.toEvent.isEop_mapCode

theorem parseable (b : Bool) (h : Printed (SymExecEvent.Resolves resolver f) x) :
    Element.parseable resolver b x = true := by
  induction h with
  | @node e below he hbelow ih =>
    have hevent : Element.eventParses resolver b (.mk "NODE" none (e.element :: below)) = true := by
      have hparse : ExecNode.parseEvent resolver ((Element.mk "NODE" none (e.element :: below)).find "EVENT") =
        .ok (e.toEvent.mapCode f) := he.parseEvent
      unfold Element.eventParses
      rw [hparse]
      simp [e.hasCond_toEvent]
    have hchildren : Element.parseables resolver b (e.element :: below) = true := by
      rw [Element.parseables, parseables_of_forall ih, Bool.and_true]
      rfl
    rw [eventNode, Element.parseable, hevent, hchildren]
    rfl

/-- **The paths are the same.** -/
theorem paths_eq (h : Printed (SymExecEvent.Resolves resolver f) x) :
    Element.paths resolver x = Element.paths noResolver x := by
  induction h with
  | @node e below he hbelow ih =>
    have hfrom : ∀ r : Resolver, Element.pathsFrom r (eventNode e below).children = Element.pathsFrom r below :=
      fun r => Element.pathsFrom_cons_of_ne rfl
    have hbelow' : Element.pathsFrom resolver below = Element.pathsFrom noResolver below := by
      rw [Element.pathsFrom_eq, Element.pathsFrom_eq]
      exact List.flatMap_congr fun y hy => ih y (List.mem_of_mem_filter hy)
    rw [Element.paths_eq, Element.paths_eq, isEop_eq he, hfrom, hfrom, hbelow']

/-- **No condition is without a text**, in what is printed for events whose
conditions have one. -/
theorem texted (h : Printed (fun e => e.Resolves resolver f ∧ e.Texted) x) : x.spaced.texted resolver = true := by
  induction h with
  | @node e below he hbelow ih =>
    refine (Element.texted_iff _).mpr ⟨?_, fun c hc => ?_⟩
    · have hevent : ExecNode.parseEvent resolver ((eventNode e below).spaced.find "EVENT") =
          .ok (e.toEvent.mapCode f) := by
        rw [Element.parseEvent_find_spaced]
        exact he.1.parseEvent
      rw [Element.condTexted_iff, hevent]
      obtain ⟨kind, code, sv⟩ := e
      cases kind with
      | assume =>
        have hsv : xmlText sv = some sv := if_neg (he.2 rfl)
        intro h
        have hnone : xmlText sv = none := by simpa [SymExecEvent.toEvent, Event.mapCode] using h
        rw [hsv] at hnone
        cases hnone
      | _ =>
        intro h
        cases h
    · obtain ⟨hmem, htag⟩ := List.mem_filter.mp hc
      rw [Element.children_spaced] at hmem
      obtain ⟨y, hy, rfl⟩ := List.mem_map.mp hmem
      rcases List.mem_cons.mp hy with rfl | hy
      · cases htag
      · exact ih y hy

/-- The elements of a path are printed ones. -/
theorem mem_paths (h : Printed P x) : ∀ p ∈ Element.paths noResolver x, ∀ y ∈ p, Printed P y := by
  induction h with
  | @node e below he hbelow ih =>
    have hnode : Printed P (eventNode e below) := .node he hbelow
    intro p hp
    rw [paths_eventNode] at hp
    split_ifs at hp
    · rw [List.mem_singleton.mp hp]
      exact List.forall_mem_singleton.mpr hnode
    · obtain ⟨q, hq, rfl⟩ := List.mem_map.mp hp
      rw [Element.pathsFrom_eq] at hq
      obtain ⟨y, hy, hq⟩ := List.mem_flatMap.mp hq
      exact List.forall_mem_cons.mpr ⟨hnode, ih y (List.mem_of_mem_filter hy) q hq⟩

/-- The event of a printed element, spaced, with and without the resolver. -/
theorem parseEvent (h : Printed (SymExecEvent.Resolves resolver f) x) : ∃ e : SymExecEvent,
    ExecNode.parseEvent noResolver (x.spaced.find "EVENT") = .ok e.toEvent ∧
      ExecNode.parseEvent resolver (x.spaced.find "EVENT") = .ok (e.toEvent.mapCode f) := by
  obtain ⟨he, -⟩ := h
  rename_i e below
  refine ⟨e, ?_, ?_⟩
  · rw [Element.parseEvent_find_spaced, parseEvent_eventNode]
  · rw [Element.parseEvent_find_spaced]
    exact he.parseEvent

/-- What elements along a path show, with the locations resolved. -/
theorem shown_eq {nodes : List ExecNode} (hnodes : ∀ n ∈ nodes, ∃ y, n.node = y.spaced ∧
      Printed (SymExecEvent.Resolves resolver f) y)
    (hevents : ∀ n ∈ nodes, ExecNode.parseEvent resolver (n.node.find "EVENT") = .ok n.event) :
    nodes.map ExecNode.event = (Element.shown (nodes.map ExecNode.node)).map (Event.mapCode f) ∧
      ∀ event ∈ nodes.map ExecNode.event, ∃ e : SymExecEvent, event = e.toEvent.mapCode f := by
  induction nodes with
  | nil => exact ⟨rfl, fun event h => (List.not_mem_nil h).elim⟩
  | cons n nodes ih =>
    rw [List.forall_mem_cons] at hnodes hevents
    obtain ⟨⟨y, hy, hprinted⟩, hnodes⟩ := hnodes
    obtain ⟨e, hevent, hresolved⟩ := hprinted.parseEvent
    rw [← hy] at hevent hresolved
    have hsame : n.event = e.toEvent.mapCode f := Except.ok.inj (hevents.1.symm.trans hresolved)
    have hshown : Element.shown (n.node :: nodes.map ExecNode.node) =
        e.toEvent :: Element.shown (nodes.map ExecNode.node) := by
      unfold Element.shown
      rw [List.filterMap_cons, hevent]
      rfl
    obtain ⟨ih, hfrom⟩ := ih hnodes hevents.2
    refine ⟨?_, List.forall_mem_cons.mpr ⟨⟨e, hsame⟩, hfrom⟩⟩
    rw [List.map_cons, List.map_cons, hshown, List.map_cons, ih, hsame]

variable [StrHash]

/-- **Only the locations are resolved.** Iterating a printed element yields the
sequences that it has without a resolver, with the locations resolved. -/
theorem iterate (b : Bool) (h : Printed (SymExecEvent.Resolves resolver f) x) : ∃ heap root yields,
    ExecTree.ofElement resolver b x.spaced = .ok (heap, root) ∧ ExecTree.iterate resolver heap root = .done yields ∧
      ∃ seqs, ExecTree.sequences b x = some seqs ∧
        yields.map (fun y => y.nodes.map ExecNode.event) = seqs.map (List.map (Event.mapCode f)) ∧
        ∀ y ∈ yields, ∀ event ∈ y.nodes.map ExecNode.event, ∃ e : SymExecEvent, event = e.toEvent.mapCode f := by
  have hplain : Printed (SymExecEvent.Resolves noResolver id) x := h.mono fun e _ _ => rfl
  obtain ⟨heap, root, yields, hroot, hdone, hpaths, hevents⟩ :=
    ExecTree.iterate_paths ((x.parseable_spaced b).trans (h.parseable b))
  obtain ⟨-, -, -, hseqs⟩ := sequences_eq ((x.parseable_spaced b).trans (hplain.parseable b))
  rw [sequences_spaced (hplain.parseable b)] at hseqs
  have hspaced : Element.paths resolver x.spaced = (Element.paths noResolver x).map (List.map Element.spaced) := by
    rw [Element.paths_spaced, h.paths_eq]
  have hnodes : ∀ y ∈ yields, ∀ n ∈ y.nodes, ∃ z, n.node = z.spaced ∧
      Printed (SymExecEvent.Resolves resolver f) z := by
    intro y hy n hn
    have hpath : y.nodes.map ExecNode.node ∈ (Element.paths noResolver x).map (List.map Element.spaced) :=
      hspaced ▸ hpaths ▸ List.mem_map_of_mem hy
    obtain ⟨p, hp, heq⟩ := List.mem_map.mp hpath
    obtain ⟨z, hz, hnode⟩ := List.mem_map.mp (heq ▸ List.mem_map_of_mem hn : n.node ∈ p.map Element.spaced)
    exact ⟨z, hnode.symm, h.mem_paths p hp z hz⟩
  refine ⟨heap, root, yields, hroot, hdone, _, hseqs, ?_, fun y hy => (shown_eq (hnodes y hy) (hevents y hy)).2⟩
  rw [Element.paths_spaced, ← hspaced, ← hpaths, List.map_map, List.map_map]
  exact List.map_congr_left fun y hy => (shown_eq (hnodes y hy) (hevents y hy)).1

end Printed

end Apisan
