/-
# Printing the exploded graph

`dumpTree` prints the exploded graph as nested `NODE` elements: it follows
every simple path from the root, and where the event list of a node differs
from the one of the node before, it prints an element with the head of the
list. What it writes is kept as the tags and events it is made of (`Piece`);
reading them back builds the elements as an XML parser does, with a stack of
the elements that are open. The texts are taken to come back as they were
printed; locations are not escaped, so this asks that they have nothing to
escape.

What is printed below a node reads back as elements whose paths show, for the
simple paths from the node, the newest event of every edge that adds some
(`ExplodedGraph.dumpTree_spec`).

Key definitions: `ExplodedGraph`, `ExplodedGraph.dumpTree`, `readTree`,
`ExplodedGraph.newest`.
Key theorem: `ExplodedGraph.dumpTree_spec`.
-/
import Mathlib.Data.Fintype.Card
import Apisan.Lib.SimplePath
import Apisan.Parse.Paths
import Apisan.Extractor.EventList

namespace Apisan

open Python

/-! ### Events as elements -/

/-- The text of an element that was printed: none if it is empty. -/
def xmlText (s : String) : Option String := if s = "" then none else some s

/-- An element with a text only. -/
def xmlLeaf (tag text : String) : Element := .mk tag (xmlText text) []

namespace SymExecEvent

/-- `getKindAsXMLNode`. -/
def kindText : Kind → String
  | .fnCall => "@LOG_CALL"
  | .fnReturn => "@LOG_RETURN"
  | .assume => "@LOG_ASSUME"
  | .eop => "@LOG_EOP"

/-- `getAsString`, read back: the `EVENT` element around it. -/
def element (e : SymExecEvent) : Element :=
  let kind := xmlLeaf "KIND" (kindText e.kind)
  .mk "EVENT" none <| match e.kind with
    | .fnCall => [kind, xmlLeaf "CODE" e.code, xmlLeaf "CALL" e.sv]
    | .fnReturn => [kind, xmlLeaf "CODE" e.code, xmlLeaf "RETURN" e.sv]
    | .assume => [kind, xmlLeaf "COND" e.sv]
    | .eop => [kind]

/-- The event that the analyzer has for an event that was printed. -/
def toEvent (e : SymExecEvent) : Event :=
  match e.kind with
  | .fnCall => .call ⟨some (xmlText e.sv), some (xmlText e.code)⟩
  | .fnReturn => .ret ⟨some (xmlText e.sv), some (xmlText e.code)⟩
  | .assume => .assume (some (xmlText e.sv))
  | .eop => .eop

theorem parseEvent_element (e : SymExecEvent) :
    ExecNode.parseEvent noResolver (some e.element) = .ok e.toEvent := by
  obtain ⟨kind, code, sv⟩ := e
  cases kind <;> rfl

theorem hasCond_toEvent (e : SymExecEvent) : e.toEvent.hasCond = true := by
  obtain ⟨kind, code, sv⟩ := e
  cases kind <;> rfl

end SymExecEvent

/-! ### The graph and its print -/

/-- An exploded graph: its successors in order, and the event list of each
state, newest event first. The root has no event, an edge adds events in
front, and nothing is added after an `EOP`. -/
structure ExplodedGraph (N : Type) where
  root : N
  succs : N → List N
  events : N → List SymExecEvent
  events_root : events root = []
  events_succ : ∀ u, ∀ v ∈ succs u, ∃ added, events v = added ++ events u
  eop_last : ∀ n, Relation.ReflTransGen (fun u v => v ∈ succs u) root n →
    ∀ e ∈ (events n).tail, e.kind ≠ .eop

/-- The events that an edge adds, newest first. -/
def ExplodedGraph.added {N : Type} (G : ExplodedGraph N) (u v : N) : List SymExecEvent :=
  (G.events v).take ((G.events v).length - (G.events u).length)

/-- What the edges of a path leave after `u`, if only the newest event that
each adds is kept. -/
def ExplodedGraph.newest {N : Type} (G : ExplodedGraph N) (u : N) : List N → List SymExecEvent
  | [] => []
  | v :: q => (G.added u v).head?.toList ++ G.newest v q

/-- What is written: tags, and events within `EVENT` tags. -/
inductive Piece
  | openNode
  | event (e : SymExecEvent)
  | closeNode
  deriving DecidableEq, Repr

/-- A loop that appends what `f` gives for each element. -/
def appendAll {A B : Type} (f : A → Option (List B)) : List A → Option (List B)
  | [] => some []
  | a :: as => do
    let b ← f a
    let bs ← appendAll f as
    some (b ++ bs)

namespace ExplodedGraph

variable {N : Type} [DecidableEq N] (G : ExplodedGraph N)

/-- The event that is printed for a node, after `prev`: the head of its list, if
the list is not empty and not the one of `prev`. -/
def printed (prev : Option N) (cur : N) : Option SymExecEvent :=
  match G.events cur with
  | [] => none
  | e :: _ => if prev.map G.events = some (G.events cur) then none else some e

/-- `dumpTree`, for paths of less than `n` nodes. -/
def dumpTree : ℕ → List N → N → Option N → Option (List Piece)
  | 0, _, _, _ => none
  | n + 1, nodes, cur, prev =>
    if cur ∈ nodes then some []
    else do
      let below ← appendAll (fun v => dumpTree n (nodes ++ [cur]) v (some cur)) (G.succs cur)
      match G.printed prev cur with
      | some e => some ([.openNode, .event e] ++ below ++ [.closeNode])
      | none => some below

end ExplodedGraph

/-- Read a piece: the children so far of the elements that are open, innermost
and latest first. -/
def readPiece (stack : List (List Element)) : Piece → Option (List (List Element))
  | .openNode => some ([] :: stack)
  | .event e =>
    match stack with
    | cs :: stack => some ((e.element :: cs) :: stack)
    | [] => none
  | .closeNode =>
    match stack with
    | cs :: ds :: stack => some ((.mk "NODE" none cs.reverse :: ds) :: stack)
    | _ => none

/-- The children of the `TREE` element around the pieces. -/
def readTree (pieces : List Piece) : Option (List Element) :=
  match pieces.foldlM readPiece [[]] with
  | some [cs] => some cs.reverse
  | _ => none

/-! ### What a print reads as -/

/-- The pieces read as the elements, wherever they stand. -/
def Reads (pieces : List Piece) (es : List Element) : Prop :=
  ∀ cs stack, pieces.foldlM readPiece (cs :: stack) = some ((es.reverse ++ cs) :: stack)

/-- The element of a printed event. -/
def eventNode (e : SymExecEvent) (below : List Element) : Element :=
  .mk "NODE" none (e.element :: below)

theorem Reads.nil : Reads [] [] := fun _ _ => rfl

theorem Reads.append {ps qs : List Piece} {es fs : List Element} (hp : Reads ps es) (hq : Reads qs fs) :
    Reads (ps ++ qs) (es ++ fs) := by
  intro cs stack
  rw [List.foldlM_append, hp cs stack]
  show qs.foldlM readPiece ((es.reverse ++ cs) :: stack) = _
  rw [hq, List.reverse_append, List.append_assoc]

theorem Reads.node {ps : List Piece} {es : List Element} (h : Reads ps es) (e : SymExecEvent) :
    Reads ([.openNode, .event e] ++ ps ++ [.closeNode]) [eventNode e es] := by
  intro cs stack
  rw [List.append_assoc, List.foldlM_append]
  show (ps ++ [Piece.closeNode]).foldlM readPiece ([e.element] :: cs :: stack) = _
  rw [List.foldlM_append, h [e.element] (cs :: stack)]
  show some ((Element.mk "NODE" none (es.reverse ++ [e.element]).reverse :: cs) :: stack) = _
  rw [List.reverse_append, List.reverse_reverse]
  rfl

theorem readTree_of_reads {ps : List Piece} {es : List Element} (h : Reads ps es) :
    readTree ps = some es := by
  rw [readTree, h [] [], List.append_nil]
  exact congrArg some (List.reverse_reverse es)

/-! ### The sequences that are shown -/

/-- The events of the elements. -/
def Shows (p : List Element) (s : List Event) : Prop :=
  p.map (fun e => ExecNode.parseEvent noResolver (e.find "EVENT")) = s.map Except.ok

/-- What is written reads as parseable elements, and the sequences that their
paths show are those of `P`. -/
def Prints (written : Option (List Piece)) (P : List Event → Prop) : Prop :=
  ∃ ps es, written = some ps ∧ Reads ps es ∧
    (∀ b, ∀ e ∈ es, Element.parseable noResolver b e = true) ∧
    ∀ s, (∃ p ∈ Element.pathsFrom noResolver es, Shows p s) ↔ P s

theorem parseables_of_forall {resolver : Resolver} {b : Bool} : ∀ {es : List Element},
    (∀ e ∈ es, Element.parseable resolver b e = true) → Element.parseables resolver b es = true
  | [], _ => by rw [Element.parseables]
  | e :: es, h => by
    rw [List.forall_mem_cons] at h
    rw [Element.parseables, h.1, parseables_of_forall h.2, Bool.or_true]
    rfl

theorem parseEvent_eventNode (e : SymExecEvent) (below : List Element) :
    ExecNode.parseEvent noResolver ((eventNode e below).find "EVENT") = .ok e.toEvent :=
  e.parseEvent_element

theorem isEop_eventNode (e : SymExecEvent) (below : List Element) :
    Element.isEop noResolver (eventNode e below) = decide (e.kind = .eop) := by
  rw [Element.isEop, parseEvent_eventNode]
  obtain ⟨kind, code, sv⟩ := e
  cases kind <;> rfl

theorem paths_eventNode (e : SymExecEvent) (below : List Element) :
    Element.paths noResolver (eventNode e below) =
      if e.kind = .eop then [[eventNode e below]]
      else (Element.pathsFrom noResolver below).map (eventNode e below :: ·) := by
  have hbelow : Element.pathsFrom noResolver (eventNode e below).children =
      Element.pathsFrom noResolver below := Element.pathsFrom_cons_of_ne rfl
  rw [Element.paths_eq, isEop_eventNode, hbelow]
  by_cases heop : e.kind = .eop
  · rw [if_pos heop, if_pos (decide_eq_true heop)]
  · rw [if_neg heop, if_neg (by simpa using heop)]

theorem shows_nil {s : List Event} : Shows [] s ↔ s = [] := by
  rw [Shows, List.map_nil]
  exact eq_comm.trans List.map_eq_nil_iff

theorem shows_cons {e : SymExecEvent} {below p : List Element} {s : List Event} :
    Shows (eventNode e below :: p) s ↔ ∃ s', s = e.toEvent :: s' ∧ Shows p s' := by
  rw [Shows, List.map_cons, parseEvent_eventNode]
  constructor
  · intro h
    cases s with
    | nil => cases h
    | cons ev s' =>
      rw [List.map_cons, List.cons.injEq] at h
      exact ⟨s', by rw [Except.ok.inj h.1], h.2⟩
  · rintro ⟨s', rfl, h⟩
    rw [List.map_cons, h]

/-- The last event is an `EOP`, and no earlier one is. -/
def EndsAtEop : List SymExecEvent → Prop
  | [] => False
  | e :: l => if e.kind = .eop then l = [] else EndsAtEop l

namespace Prints

theorem congr {x : Option (List Piece)} {P Q : List Event → Prop} (h : Prints x P)
    (hPQ : ∀ s, P s ↔ Q s) : Prints x Q := by
  obtain ⟨ps, es, hps, hreads, hparse, hshows⟩ := h
  exact ⟨ps, es, hps, hreads, hparse, fun s => (hshows s).trans (hPQ s)⟩

theorem nil : Prints (some []) fun _ => False := by
  refine ⟨[], [], rfl, Reads.nil, by simp, fun s => ?_⟩
  rw [Element.pathsFrom_eq]
  simp

theorem append {x y : List Piece} {P Q : List Event → Prop} (hx : Prints (some x) P)
    (hy : Prints (some y) Q) : Prints (some (x ++ y)) fun s => P s ∨ Q s := by
  obtain ⟨ps, es, hps, hreads, hparse, hshows⟩ := hx
  obtain ⟨qs, fs, hqs, hreads', hparse', hshows'⟩ := hy
  cases hps
  cases hqs
  refine ⟨x ++ y, es ++ fs, rfl, hreads.append hreads', fun b => ?_, fun s => ?_⟩
  · exact List.forall_mem_append.mpr ⟨hparse b, hparse' b⟩
  · show _ ↔ P s ∨ Q s
    rw [← hshows, ← hshows', Element.pathsFrom_eq, Element.pathsFrom_eq, Element.pathsFrom_eq,
      List.filter_append, List.flatMap_append]
    simp only [List.mem_append, or_and_right, exists_or]

theorem appendAll {A : Type} {f : A → Option (List Piece)} {P : A → List Event → Prop} : ∀ {as : List A},
    (∀ a ∈ as, Prints (f a) (P a)) → Prints (appendAll f as) fun s => ∃ a ∈ as, P a s
  | [], _ => nil.congr (by simp)
  | a :: as, h => by
    rw [List.forall_mem_cons] at h
    obtain ⟨ps, es, hps, hreads, hparse, hshows⟩ := h.1
    obtain ⟨qs, fs, hqs, hreads', hparse', hshows'⟩ := appendAll h.2
    have happend : Prints (some (ps ++ qs)) fun s => P a s ∨ ∃ a ∈ as, P a s :=
      append ⟨ps, es, rfl, hreads, hparse, hshows⟩ ⟨qs, fs, rfl, hreads', hparse', hshows'⟩
    rw [Apisan.appendAll, hps, hqs]
    exact happend.congr (by simp)

theorem node {ps : List Piece} {P : List Event → Prop} (h : Prints (some ps) P) (e : SymExecEvent) :
    Prints (some ([.openNode, .event e] ++ ps ++ [.closeNode])) fun s =>
      if e.kind = .eop then s = [e.toEvent] else ∃ s', P s' ∧ s = e.toEvent :: s' := by
  obtain ⟨qs, es, hps, hreads, hparse, hshows⟩ := h
  cases hps
  refine ⟨_, [eventNode e es], rfl, hreads.node e, fun b => ?_, fun s => ?_⟩
  · have hevent : Element.eventParses noResolver b (eventNode e es) = true := by
      rw [Element.eventParses, parseEvent_eventNode]
      simp [e.hasCond_toEvent]
    have hchildren : Element.parseables noResolver b (e.element :: es) = true := by
      rw [Element.parseables, parseables_of_forall (hparse b), Bool.and_true]
      rfl
    have hnode : Element.parseable noResolver b (eventNode e es) = true := by
      have hevent' : Element.eventParses noResolver b (.mk "NODE" none (e.element :: es)) = true := hevent
      rw [eventNode, Element.parseable, hevent', hchildren]
      rfl
    exact List.forall_mem_singleton.mpr hnode
  · show _ ↔ if e.kind = .eop then s = [e.toEvent] else ∃ s', P s' ∧ s = e.toEvent :: s'
    have hpaths : Element.pathsFrom noResolver [eventNode e es] =
        Element.paths noResolver (eventNode e es) := by
      rw [Element.pathsFrom_eq]
      simp [eventNode, Element.tag]
    rw [hpaths, paths_eventNode]
    by_cases heop : e.kind = .eop
    · rw [if_pos heop, if_pos heop]
      constructor
      · rintro ⟨p, hp, hs⟩
        rw [List.mem_singleton.mp hp] at hs
        exact (shows_cons.mp hs).elim fun s' hs' => by
          obtain ⟨rfl, hnil⟩ := hs'
          rw [shows_nil.mp hnil]
      · rintro rfl
        exact ⟨_, List.mem_singleton_self _, shows_cons.mpr ⟨[], rfl, shows_nil.mpr rfl⟩⟩
    · rw [if_neg heop, if_neg heop]
      constructor
      · rintro ⟨p, hp, hs⟩
        obtain ⟨q, hq, rfl⟩ := List.mem_map.mp hp
        obtain ⟨s', rfl, hs'⟩ := shows_cons.mp hs
        exact ⟨s', (hshows s').mp ⟨q, hq, hs'⟩, rfl⟩
      · rintro ⟨s', hP, rfl⟩
        obtain ⟨q, hq, hs'⟩ := (hshows s').mpr hP
        exact ⟨_, List.mem_map_of_mem hq, shows_cons.mpr ⟨s', rfl, hs'⟩⟩

end Prints

namespace ExplodedGraph

variable {N : Type} (G : ExplodedGraph N)

theorem events_eq_added {u v : N} (h : v ∈ G.succs u) : G.events v = G.added u v ++ G.events u := by
  obtain ⟨added, hadded⟩ := G.events_succ u v h
  have htake : G.added u v = added := by
    rw [ExplodedGraph.added, hadded, List.length_append, Nat.add_sub_cancel, List.take_left]
  rw [htake, hadded]

/-- After the node before it, a node prints the newest of the added events. -/
theorem printed_some {u v : N} (h : v ∈ G.succs u) : G.printed (some u) v = (G.added u v).head? := by
  have hevents := G.events_eq_added h
  rw [printed, Option.map_some]
  cases hadded : G.added u v with
  | nil =>
    rw [hadded, List.nil_append] at hevents
    rw [hevents]
    cases G.events u <;> simp
  | cons e added =>
    have hne : G.events u ≠ e :: (added ++ G.events u) := fun heq => by
      have hlen := congrArg List.length heq
      rw [List.length_cons, List.length_append] at hlen
      omega
    rw [hadded, List.cons_append] at hevents
    rw [hevents]
    simp [hne]

/-- `v` is a successor of `u`. -/
def Edge (u v : N) : Prop := v ∈ G.succs u

/-- What the successors of a node show, together. -/
theorem shown_below {nodes : List N} {cur : N} (hcur : cur ∉ nodes) (s : List Event) :
    (∃ v ∈ G.succs cur, ∃ q, Simple G.Edge (nodes ++ [cur]) v q ∧
        EndsAtEop ((G.printed (some cur) v).toList ++ G.newest v q) ∧
        s = ((G.printed (some cur) v).toList ++ G.newest v q).map SymExecEvent.toEvent) ↔
      ∃ q, Simple G.Edge nodes cur q ∧ EndsAtEop (G.newest cur q) ∧
        s = (G.newest cur q).map SymExecEvent.toEvent := by
  constructor
  · rintro ⟨v, hv, q, hq, hend, rfl⟩
    rw [G.printed_some hv] at hend ⊢
    exact ⟨v :: q, Simple.cons_iff.mpr ⟨hcur, hv, hq⟩, hend, rfl⟩
  · rintro ⟨q, hq, hend, rfl⟩
    cases q with
    | nil => exact hend.elim
    | cons v q =>
      obtain ⟨-, hv, hq⟩ := Simple.cons_iff.mp hq
      refine ⟨v, hv, q, hq, ?_⟩
      rw [G.printed_some hv]
      exact ⟨hend, rfl⟩

variable [DecidableEq N]

/-- **What is printed below a node.** With enough fuel, printing from a node
reads back as elements whose paths show the simple paths from the node: what is
printed for it, and the newest event of each edge, up to an `EOP`. -/
theorem dumpTree_spec [Fintype N] : ∀ (n : ℕ) (nodes : List N) (cur : N) (prev : Option N),
    nodes.Nodup → Fintype.card N < n + nodes.length →
    Prints (G.dumpTree n nodes cur prev) fun s => ∃ q, Simple G.Edge nodes cur q ∧
      EndsAtEop ((G.printed prev cur).toList ++ G.newest cur q) ∧
      s = ((G.printed prev cur).toList ++ G.newest cur q).map SymExecEvent.toEvent
  | 0, nodes, cur, prev, hnodup, hcard => by
    have := hnodup.length_le_card
    omega
  | n + 1, nodes, cur, prev, hnodup, hcard => by
    by_cases hcur : cur ∈ nodes
    · rw [dumpTree, if_pos hcur]
      refine Prints.nil.congr fun s => iff_of_false not_false ?_
      rintro ⟨q, hq, -⟩
      exact hq.fresh cur List.mem_cons_self hcur
    · have hnodup' : (nodes ++ [cur]).Nodup := by
        rw [List.nodup_append]
        exact ⟨hnodup, List.nodup_singleton _, by rintro a ha b hb rfl; simp_all⟩
      have hbelow := Prints.appendAll (f := fun v => G.dumpTree n (nodes ++ [cur]) v (some cur))
        fun v (hv : v ∈ G.succs cur) => dumpTree_spec n (nodes ++ [cur]) v (some cur) hnodup'
          (by rw [List.length_append, List.length_singleton]; omega)
      have hshown := hbelow.congr (G.shown_below hcur)
      obtain ⟨ps, es, hps, hreads⟩ := hshown
      rw [dumpTree, if_neg hcur, hps]
      have hps' : Prints (some ps) _ := ⟨ps, es, rfl, hreads⟩
      cases hprinted : G.printed prev cur with
      | none => exact hps'
      | some e =>
        refine (hps'.node e).congr fun s => ?_
        by_cases heop : e.kind = .eop
        · simp only [Option.toList_some, List.singleton_append, EndsAtEop, if_pos heop]
          constructor
          · rintro rfl
            exact ⟨[], Simple.nil_iff.mpr hcur, rfl, rfl⟩
          · rintro ⟨q, -, hnil, rfl⟩
            rw [hnil, List.map_singleton]
        · simp only [Option.toList_some, List.singleton_append, EndsAtEop, if_neg heop]
          constructor
          · rintro ⟨s', ⟨q, hq, hend, rfl⟩, rfl⟩
            exact ⟨q, hq, hend, rfl⟩
          · rintro ⟨q, hq, hend, rfl⟩
            exact ⟨_, ⟨q, hq, hend, rfl⟩, rfl⟩

end ExplodedGraph

end Apisan
