/-
# The recursion of the tree dump

`dumpTree` on any finite graph, with or without cycles and shared successors.
Each call gets the nodes on the way to it, and returns at once if its own node
is among them, so no recursion is deeper than there are nodes. The calls that
go on stand for the simple paths from the root, one call for each path. A path
goes by edges, since a node may be a successor of another several times. What
is written is a forest of `NODE` elements that start with one `EVENT` each,
whichever nodes print one (`StateGraph.dumpTree_visits`).

Key definitions: `StateGraph`, `StateGraph.dumpTree`, `Forest`,
`StateGraph.SimpleFrom`.
Key theorems: `StateGraph.dumpTree_spec`, `StateGraph.dumpTree_visits`,
`ExplodedGraph.dumpTree_eq`.
-/
import Apisan.Extractor.DumpTree

namespace Apisan

/-- A graph of states: the successors of each node, in order, and the event
list of its state, newest event first. -/
structure StateGraph (N : Type) where
  succs : N → List N
  events : N → List SymExecEvent

/-- The edges of a path: each successor, with its position among them. -/
abbrev EdgePath (N : Type) := List (N × ℕ)

/-- What a call has written, and the paths to the calls in it that went on. -/
abbrev Dump (N : Type) := List Piece × List (EdgePath N)

/-- The loop over the successors. -/
def dumpAll {N : Type} (f : N → Option (Dump N)) : EdgePath N → Option (Dump N)
  | [] => some ([], [])
  | x :: xs => do
    let (ps, visits) ← f x.1
    let (qs, rest) ← dumpAll f xs
    some (ps ++ qs, visits.map (x :: ·) ++ rest)

namespace StateGraph

variable {N : Type} (G : StateGraph N)

section

variable [DecidableEq N]

/-- The event that is printed for a node, after `prev`. -/
def printed (prev : Option N) (cur : N) : Option SymExecEvent :=
  match G.events cur with
  | [] => none
  | e :: _ => if prev.map G.events = some (G.events cur) then none else some e

/-- `dumpTree`, for paths of less than `n` nodes. -/
def dumpTree : ℕ → List N → N → Option N → Option (Dump N)
  | 0, _, _, _ => none
  | n + 1, nodes, cur, prev =>
    if cur ∈ nodes then some ([], [])
    else do
      let (below, visits) ← dumpAll (fun v => dumpTree n (nodes ++ [cur]) v (some cur)) (G.succs cur).zipIdx
      match G.printed prev cur with
      | some e => some ([.openNode, .event e] ++ below ++ [.closeNode], [] :: visits)
      | none => some (below, [] :: visits)

end

/-! ### Paths and forests -/

/-- The edges lead on from each other, from `u`. -/
def IsPath : N → EdgePath N → Prop
  | _, [] => True
  | u, x :: p => x ∈ (G.succs u).zipIdx ∧ IsPath x.1 p

/-- `v` is a successor of `u`. -/
def Edge (u v : N) : Prop := v ∈ G.succs u

/-- The edges are a path from `u`, and its nodes a simple one that avoids those
visited. -/
structure SimpleFrom (visited : List N) (u : N) (p : EdgePath N) : Prop where
  path : G.IsPath u p
  simple : Simple G.Edge visited u (p.map Prod.fst)

end StateGraph

/-- `NODE` elements in a row, each with one `EVENT` and then such elements. -/
inductive Forest : List Piece → Prop
  | nil : Forest []
  | node (e : SymExecEvent) {below rest : List Piece} (hbelow : Forest below) (hrest : Forest rest) :
      Forest ([.openNode, .event e] ++ below ++ [.closeNode] ++ rest)

namespace Forest

theorem append {ps qs : List Piece} (hp : Forest ps) (hq : Forest qs) : Forest (ps ++ qs) := by
  induction hp with
  | nil => exact hq
  | node e hbelow _ _ ih =>
    rw [List.append_assoc]
    exact .node e hbelow ih

theorem singleton {below : List Piece} (h : Forest below) (e : SymExecEvent) :
    Forest ([.openNode, .event e] ++ below ++ [.closeNode]) := by
  have hnode := Forest.node e h .nil
  rwa [List.append_nil] at hnode

end Forest

/-- A call returns, with a forest, and with each of the paths once. -/
def Dumps {N : Type} (r : Option (Dump N)) (P : EdgePath N → Prop) : Prop :=
  ∃ ps visits, r = some (ps, visits) ∧ Forest ps ∧ visits.Nodup ∧ ∀ p, p ∈ visits ↔ P p

/-- **The loop over the successors** goes on along each edge. -/
theorem dumpAll_spec {N : Type} {f : N → Option (Dump N)} {P : N → EdgePath N → Prop} :
    ∀ {xs : EdgePath N}, xs.Nodup → (∀ x ∈ xs, Dumps (f x.1) (P x.1)) →
      Dumps (dumpAll f xs) fun p => ∃ x ∈ xs, ∃ q, P x.1 q ∧ p = x :: q
  | [], _, _ => ⟨[], [], rfl, .nil, List.nodup_nil, by simp⟩
  | x :: xs, hnodup, h => by
    rw [List.nodup_cons] at hnodup
    rw [List.forall_mem_cons] at h
    obtain ⟨⟨ps, visits, hps, hforest, hvisits, hmem⟩, hall⟩ := h
    obtain ⟨qs, rest, hqs, hforest', hrest, hmem'⟩ := dumpAll_spec hnodup.2 hall
    refine ⟨ps ++ qs, visits.map (x :: ·) ++ rest, by rw [dumpAll, hps, hqs]; rfl, hforest.append hforest', ?_,
      fun p => ?_⟩
    · refine List.Nodup.append (hvisits.map fun p q hpq => (List.cons.inj hpq).2) hrest fun p hp hp' => ?_
      -- paths by other edges differ from the first edge on
      obtain ⟨q, -, rfl⟩ := List.mem_map.mp hp
      obtain ⟨y, hy, q', -, heq⟩ := (hmem' _).mp hp'
      exact hnodup.1 ((List.cons.inj heq).1 ▸ hy)
    · rw [List.mem_append, hmem', List.mem_map]
      beta_reduce
      rw [List.exists_mem_cons_iff]
      refine or_congr_left ⟨?_, ?_⟩
      · rintro ⟨q, hq, rfl⟩
        exact ⟨q, (hmem q).mp hq, rfl⟩
      · rintro ⟨q, hq, rfl⟩
        exact ⟨q, (hmem q).mpr hq, rfl⟩

theorem dumpAll_mono {N : Type} {f g : N → Option (Dump N)} (h : ∀ v r, f v = some r → g v = some r) :
    ∀ {xs : EdgePath N} {r : Dump N}, dumpAll f xs = some r → dumpAll g xs = some r
  | [], _, hr => hr
  | x :: xs, r, hr => by
    obtain ⟨d, hd, hr⟩ := Option.bind_eq_some_iff.mp hr
    obtain ⟨rest, hrest, hr⟩ := Option.bind_eq_some_iff.mp hr
    rw [dumpAll, h _ _ hd, dumpAll_mono h hrest]
    exact hr

theorem nodup_zipIdx {N : Type} (l : List N) : l.zipIdx.Nodup := by
  refine List.Nodup.of_map Prod.snd ?_
  rw [List.zipIdx_map_snd]
  exact List.nodup_range'

namespace StateGraph

variable {N : Type} {G : StateGraph N}

theorem simpleFrom_nil {visited : List N} {u : N} : G.SimpleFrom visited u [] ↔ u ∉ visited :=
  ⟨fun h => Simple.nil_iff.mp h.simple, fun h => ⟨trivial, Simple.nil_iff.mpr h⟩⟩

theorem simpleFrom_cons {visited : List N} {u : N} {x : N × ℕ} {p : EdgePath N} :
    G.SimpleFrom visited u (x :: p) ↔
      u ∉ visited ∧ x ∈ (G.succs u).zipIdx ∧ G.SimpleFrom (visited ++ [u]) x.1 p := by
  constructor
  · rintro ⟨⟨hx, hpath⟩, hsimple⟩
    obtain ⟨hu, -, hrest⟩ := Simple.cons_iff.mp hsimple
    exact ⟨hu, hx, hpath, hrest⟩
  · rintro ⟨hu, hx, hpath, hrest⟩
    exact ⟨⟨hx, hpath⟩, Simple.cons_iff.mpr ⟨hu, List.fst_mem_of_mem_zipIdx hx, hrest⟩⟩

/-- A path from the root is simple if no node is on it twice. -/
theorem simpleFrom_root {u : N} {p : EdgePath N} :
    G.SimpleFrom [] u p ↔ G.IsPath u p ∧ (u :: p.map Prod.fst).Nodup := by
  have hchain : ∀ {u : N} {p : EdgePath N}, G.IsPath u p → List.IsChain G.Edge (u :: p.map Prod.fst) := by
    intro u p h
    induction p generalizing u with
    | nil => exact .singleton u
    | cons x p ih => exact List.isChain_cons_cons.mpr ⟨List.fst_mem_of_mem_zipIdx h.1, ih h.2⟩
  exact ⟨fun h => ⟨h.path, h.simple.nodup⟩, fun h => ⟨h.1, hchain h.1, h.2, by simp⟩⟩

/-- Nodes that follow each other are on a path by edges. -/
theorem exists_isPath : ∀ {u : N} {q : List N}, List.IsChain G.Edge (u :: q) →
    ∃ p, G.IsPath u p ∧ p.map Prod.fst = q
  | _, [], _ => ⟨[], trivial, rfl⟩
  | u, v :: q, h => by
    rw [List.isChain_cons_cons] at h
    obtain ⟨p, hp, hq⟩ := exists_isPath h.2
    obtain ⟨i, hi⟩ := List.mem_iff_getElem?.mp h.1
    exact ⟨(v, i) :: p, ⟨List.mem_zipIdx_iff_getElem?.mpr hi, hp⟩, by rw [List.map_cons, hq]⟩

variable [DecidableEq N]

/-- **What a call does**, with fuel for the nodes that are not on the way to it:
it writes a forest, and goes on along the simple paths that avoid those nodes. -/
theorem dumpTree_spec [Fintype N] (G : StateGraph N) : ∀ (n : ℕ) (nodes : List N) (cur : N) (prev : Option N),
    nodes.Nodup → Fintype.card N < n + nodes.length →
    Dumps (G.dumpTree n nodes cur prev) (G.SimpleFrom nodes cur)
  | 0, nodes, cur, prev, hnodup, hcard => by
    have hlength := hnodup.length_le_card
    omega
  | n + 1, nodes, cur, prev, hnodup, hcard => by
    rw [dumpTree]
    by_cases hcur : cur ∈ nodes
    · rw [if_pos hcur]
      refine ⟨[], [], rfl, .nil, List.nodup_nil, fun p => iff_of_false List.not_mem_nil fun h => ?_⟩
      exact h.simple.fresh cur List.mem_cons_self hcur
    rw [if_neg hcur]
    have hnodup' : (nodes ++ [cur]).Nodup :=
      List.Nodup.append hnodup (List.nodup_singleton cur) fun x hx hx' => hcur (List.mem_singleton.mp hx' ▸ hx)
    have hloop := dumpAll_spec (f := fun v => G.dumpTree n (nodes ++ [cur]) v (some cur))
      (P := G.SimpleFrom (nodes ++ [cur])) (nodup_zipIdx (G.succs cur)) fun x _ =>
        dumpTree_spec G n (nodes ++ [cur]) x.1 (some cur) hnodup'
          (by rw [List.length_append, List.length_singleton]; omega)
    obtain ⟨below, visits, hbelow, hforest, hvisits, hmem⟩ := hloop
    have hpaths : ([] :: visits).Nodup ∧ ∀ p, p ∈ [] :: visits ↔ G.SimpleFrom nodes cur p := by
      refine ⟨List.nodup_cons.mpr ⟨fun h => ?_, hvisits⟩, fun p => ?_⟩
      · obtain ⟨x, -, q, -, heq⟩ := (hmem []).mp h
        cases heq
      · rw [List.mem_cons, hmem]
        cases p with
        | nil => exact iff_of_true (.inl rfl) (simpleFrom_nil.mpr hcur)
        | cons x p =>
          rw [simpleFrom_cons, and_iff_right hcur]
          simp
    rw [hbelow]
    cases hprinted : G.printed prev cur with
    | none => exact ⟨_, _, rfl, hforest, hpaths⟩
    | some e => exact ⟨_, _, rfl, hforest.singleton e, hpaths⟩

theorem dumpTree_succ (G : StateGraph N) : ∀ (n : ℕ) (nodes : List N) (cur : N) (prev : Option N) (r : Dump N),
    G.dumpTree n nodes cur prev = some r → G.dumpTree (n + 1) nodes cur prev = some r
  | 0, _, _, _, _, h => by cases h
  | n + 1, nodes, cur, prev, r, h => by
    rw [dumpTree] at h ⊢
    by_cases hcur : cur ∈ nodes
    · rw [if_pos hcur] at h ⊢
      exact h
    rw [if_neg hcur] at h ⊢
    obtain ⟨d, hd, hr⟩ := Option.bind_eq_some_iff.mp h
    have hmore := dumpAll_mono (fun v r hv => dumpTree_succ G n (nodes ++ [cur]) v (some cur) r hv) hd
    rw [hmore]
    exact hr

/-- More fuel changes nothing. -/
theorem dumpTree_mono (G : StateGraph N) {n m : ℕ} (hnm : n ≤ m) {nodes : List N} {cur : N} {prev : Option N}
    {r : Dump N} (h : G.dumpTree n nodes cur prev = some r) : G.dumpTree m nodes cur prev = some r := by
  induction hnm with
  | refl => exact h
  | step _ ih => exact dumpTree_succ G _ _ _ _ _ ih

/-- **The dump of a tree.** On every finite graph the dump from a root returns;
it writes a forest, and its calls go on along every path by edges that is on no
node twice, each once, and along no other. So their nodes are those of the
simple paths. -/
theorem dumpTree_visits [Fintype N] (G : StateGraph N) (root : N) :
    ∃ pieces visits, (∀ n, Fintype.card N < n → G.dumpTree n [] root none = some (pieces, visits)) ∧
      Forest pieces ∧ visits.Nodup ∧
        (∀ p, p ∈ visits ↔ G.IsPath root p ∧ (root :: p.map Prod.fst).Nodup) ∧
        ∀ q, (∃ p ∈ visits, p.map Prod.fst = q) ↔ Simple G.Edge [] root q := by
  obtain ⟨pieces, visits, hdump, hforest, hnodup, hmem⟩ :=
    dumpTree_spec G (Fintype.card N + 1) [] root none List.nodup_nil (by simp)
  refine ⟨pieces, visits, fun n hn => dumpTree_mono G hn hdump, hforest, hnodup,
    fun p => (hmem p).trans simpleFrom_root, fun q => ⟨?_, fun hq => ?_⟩⟩
  · rintro ⟨p, hp, rfl⟩
    exact ((hmem p).mp hp).simple
  · obtain ⟨p, hp, rfl⟩ := exists_isPath hq.chain
    exact ⟨p, (hmem p).mpr ⟨hp, hq⟩, rfl⟩

end StateGraph

namespace ExplodedGraph

variable {N : Type} (G : ExplodedGraph N)

/-- The graph, without what is known of its events. -/
def toStateGraph : StateGraph N := ⟨G.succs, G.events⟩

theorem dumpAll_map_fst {f : N → Option (Dump N)} : ∀ xs : EdgePath N,
    (dumpAll f xs).map Prod.fst = appendAll (fun v => (f v).map Prod.fst) (xs.map Prod.fst)
  | [] => rfl
  | x :: xs => by
    rw [List.map_cons, appendAll, dumpAll, ← dumpAll_map_fst xs]
    cases f x.1 with
    | none => rfl
    | some d => cases dumpAll f xs <;> rfl

/-- **What is written** is the dump of the graph of states. -/
theorem dumpTree_eq [DecidableEq N] : ∀ (n : ℕ) (nodes : List N) (cur : N) (prev : Option N),
    G.dumpTree n nodes cur prev = (G.toStateGraph.dumpTree n nodes cur prev).map Prod.fst
  | 0, _, _, _ => rfl
  | n + 1, nodes, cur, prev => by
    rw [dumpTree, StateGraph.dumpTree]
    by_cases hcur : cur ∈ nodes
    · rw [if_pos hcur, if_pos hcur]
      rfl
    rw [if_neg hcur, if_neg hcur]
    have hcalls : (fun v => G.dumpTree n (nodes ++ [cur]) v (some cur)) =
        fun v => (G.toStateGraph.dumpTree n (nodes ++ [cur]) v (some cur)).map Prod.fst :=
      funext fun v => dumpTree_eq n (nodes ++ [cur]) v (some cur)
    have hloop := dumpAll_map_fst (f := fun v => G.toStateGraph.dumpTree n (nodes ++ [cur]) v (some cur))
      (G.succs cur).zipIdx
    rw [List.zipIdx_map_fst] at hloop
    rw [hcalls, ← hloop]
    have hprinted : G.toStateGraph.printed prev cur = G.printed prev cur := rfl
    have hsuccs : G.toStateGraph.succs cur = G.succs cur := rfl
    show Option.bind _ _ = Option.map _ (Option.bind _ _)
    rw [hprinted, hsuccs]
    cases dumpAll (fun v => G.toStateGraph.dumpTree n (nodes ++ [cur]) v (some cur)) (G.succs cur).zipIdx with
    | none => rfl
    | some d => cases G.printed prev cur <;> rfl

end ExplodedGraph

end Apisan
