/-
# What iterating a tree yields

A path is a sequence of elements from the root, each a `NODE` child of the one
before, that ends at the first `EOP` node on it. It has an address, the
positions taken among the `NODE` children, and document order is the
lexicographic order of addresses. Iterating a tree of parseable events yields
exactly the paths, each once and in document order (`iterate_exact`), whatever
its conditions are parsed to.

The proof shows that what was yielded and what the two stacks still stand for
(`ExecTree.pending`) together stay the same from round to round.

Key definitions: `Element.trace`, `Element.EndsAtEop`, `Element.parseable`,
`Element.paths`, `Element.addresses`, `ExecTree.pending`, `ExecTree.Inv`.
Key theorems: `Element.mem_addresses`, `Element.addresses_sorted`,
`ExecTree.inv_next`, `ExecTree.iterate_exact`.
-/
import Apisan.Parse.Explorer

namespace Apisan

open Python Machine

namespace Element

section

variable (resolver : Resolver)

/-- The element is an `EOP` node. -/
def isEop (e : Element) : Bool :=
  match ExecNode.parseEvent resolver (e.find "EVENT") with
  | .ok event => event.isEop
  | .error _ => false

/-- The event of the element parses; if constraints are parsed, it has a
condition to ask for if it is an assume event. -/
def eventParses (parseConstraints : Bool) (e : Element) : Bool :=
  match ExecNode.parseEvent resolver (e.find "EVENT") with
  | .ok event => !parseConstraints || event.hasCond
  | .error _ => false

mutual

/-- A tree of `NODE` elements with parseable events. -/
def parseable (parseConstraints : Bool) : Element → Bool
  | .mk tag text children =>
    tag == "NODE" && eventParses resolver parseConstraints (.mk tag text children) &&
      parseables parseConstraints children

def parseables (parseConstraints : Bool) : List Element → Bool
  | [] => true
  | c :: cs => (c.tag != "NODE" || parseable parseConstraints c) && parseables parseConstraints cs

end

/-- The elements along an address. -/
def trace : Element → List ℕ → Option (List Element)
  | e, [] => some [e]
  | e, i :: a => (e.findall "NODE")[i]?.bind fun c => (trace c a).map (e :: ·)

/-- The last element is an `EOP` node, and no earlier one is. -/
def EndsAtEop (p : List Element) : Prop :=
  ∃ init last, p = init ++ [last] ∧ isEop resolver last = true ∧ ∀ e ∈ init, isEop resolver e = false

mutual

/-- The paths of a tree, in document order. -/
def paths : Element → List (List Element)
  | .mk tag text children =>
    if isEop resolver (.mk tag text children) then [[.mk tag text children]]
    else (pathsFrom children).map (.mk tag text children :: ·)

def pathsFrom : List Element → List (List Element)
  | [] => []
  | c :: cs => if c.tag == "NODE" then paths c ++ pathsFrom cs else pathsFrom cs

end

mutual

/-- The addresses of the paths. -/
def addresses : Element → List (List ℕ)
  | .mk tag text children =>
    if isEop resolver (.mk tag text children) then [[]] else addressesFrom 0 children

def addressesFrom : ℕ → List Element → List (List ℕ)
  | _, [] => []
  | i, c :: cs =>
    if c.tag == "NODE" then (addresses c).map (i :: ·) ++ addressesFrom (i + 1) cs
    else addressesFrom i cs

end

variable {resolver}

theorem parseable_spec {b : Bool} {e : Element} (h : parseable resolver b e = true) :
    e.tag = "NODE" ∧ eventParses resolver b e = true ∧ parseables resolver b e.children = true := by
  obtain ⟨t, x, cs⟩ := e
  rw [parseable] at h
  simp only [Bool.and_eq_true, beq_iff_eq] at h
  exact ⟨h.1.1, h.1.2, h.2⟩

theorem parseables_findall {b : Bool} : ∀ {es : List Element}, parseables resolver b es = true →
    ∀ c ∈ es.filter (fun c => c.tag == "NODE"), parseable resolver b c = true
  | [], _, c, hc => by simp at hc
  | e :: es, h, c, hc => by
    rw [parseables] at h
    simp only [Bool.and_eq_true, Bool.or_eq_true, bne_iff_ne, ne_eq] at h
    rw [List.mem_filter, List.mem_cons] at hc
    obtain ⟨rfl | hmem, htag⟩ := hc
    · exact h.1.resolve_left fun hne => hne (by simpa using htag)
    · exact parseables_findall h.2 c (List.mem_filter.mpr ⟨hmem, htag⟩)

theorem paths_eq (e : Element) : paths resolver e =
    if isEop resolver e then [[e]] else (pathsFrom resolver e.children).map (e :: ·) := by
  obtain ⟨t, x, cs⟩ := e
  rw [paths]
  rfl

theorem addresses_eq (e : Element) : addresses resolver e =
    if isEop resolver e then [[]] else addressesFrom resolver 0 e.children := by
  obtain ⟨t, x, cs⟩ := e
  rw [addresses]
  rfl

theorem pathsFrom_eq : ∀ es : List Element, pathsFrom resolver es =
    (es.filter fun c => c.tag == "NODE").flatMap (paths resolver)
  | [] => by rw [pathsFrom]; rfl
  | c :: cs => by
    rw [pathsFrom, List.filter_cons, pathsFrom_eq cs]
    split_ifs <;> simp

theorem pathsFrom_cons_of_ne {e : Element} {es : List Element} (h : (e.tag == "NODE") = false) :
    pathsFrom resolver (e :: es) = pathsFrom resolver es := by
  rw [pathsFrom, if_neg (by simp [h])]

/-! ### Addresses -/

theorem mem_addressesFrom : ∀ {es : List Element} {i : ℕ} {a : List ℕ},
    a ∈ addressesFrom resolver i es ↔ ∃ k c a', a = (i + k) :: a' ∧
      (es.filter fun c => c.tag == "NODE")[k]? = some c ∧ a' ∈ addresses resolver c
  | [], i, a => by
    rw [addressesFrom]
    simp
  | e :: es, i, a => by
    rw [addressesFrom, List.filter_cons]
    by_cases htag : (e.tag == "NODE") = true
    · rw [if_pos htag, if_pos htag, List.mem_append, List.mem_map, mem_addressesFrom]
      constructor
      · rintro (⟨a', ha', rfl⟩ | ⟨k, c, a', rfl, hk, ha'⟩)
        · exact ⟨0, e, a', rfl, rfl, ha'⟩
        · exact ⟨k + 1, c, a', by rw [Nat.add_assoc, Nat.add_comm 1], hk, ha'⟩
      · rintro ⟨k, c, a', rfl, hk, ha'⟩
        cases k with
        | zero =>
          obtain rfl : e = c := by simpa using hk
          exact .inl ⟨a', ha', rfl⟩
        | succ k => exact .inr ⟨k, c, a', by rw [Nat.add_assoc, Nat.add_comm 1], hk, ha'⟩
    · rw [if_neg htag, if_neg htag, mem_addressesFrom]

theorem endsAtEop_single {e : Element} : EndsAtEop resolver [e] ↔ isEop resolver e = true := by
  constructor
  · rintro ⟨init, last, h, heop, -⟩
    cases init with
    | nil =>
      obtain rfl : e = last := by simpa using h
      exact heop
    | cons x init =>
      have hlen := congrArg List.length h
      simp at hlen
  · exact fun h => ⟨[], e, rfl, h, by simp⟩

theorem endsAtEop_cons {e : Element} {p : List Element} (hp : p ≠ []) :
    EndsAtEop resolver (e :: p) ↔ isEop resolver e = false ∧ EndsAtEop resolver p := by
  constructor
  · rintro ⟨init, last, h, heop, hinit⟩
    cases init with
    | nil =>
      rw [List.nil_append, List.cons.injEq] at h
      exact absurd h.2 hp
    | cons x init =>
      rw [List.cons_append, List.cons.injEq] at h
      obtain ⟨rfl, rfl⟩ := h
      exact ⟨hinit e (by simp), init, last, rfl, heop, fun y hy => hinit y (by simp [hy])⟩
  · rintro ⟨he, init, last, rfl, heop, hinit⟩
    refine ⟨e :: init, last, rfl, heop, fun y hy => ?_⟩
    rcases List.mem_cons.mp hy with rfl | hy
    · exact he
    · exact hinit y hy

theorem trace_ne_nil {e : Element} {a : List ℕ} {p : List Element} (h : trace e a = some p) :
    p ≠ [] := by
  cases a with
  | nil =>
    cases h
    simp
  | cons i a =>
    obtain ⟨c, -, hc⟩ := Option.bind_eq_some_iff.mp h
    obtain ⟨q, -, rfl⟩ := Option.map_eq_some_iff.mp hc
    simp

/-- **The addresses of a tree** are those of the paths. -/
theorem mem_addresses {a : List ℕ} : ∀ {e : Element},
    a ∈ addresses resolver e ↔ ∃ p, trace e a = some p ∧ EndsAtEop resolver p := by
  induction a with
  | nil =>
    intro e
    rw [addresses_eq]
    simp only [trace, Option.some.injEq, exists_eq_left', endsAtEop_single]
    split_ifs with heop
    · simp [heop]
    · have hnot : ([] : List ℕ) ∉ addressesFrom resolver 0 e.children := fun h => by
        obtain ⟨k, c, a', h, -⟩ := mem_addressesFrom.mp h
        cases h
      simp [hnot, heop]
  | cons i a ih =>
    intro e
    rw [addresses_eq]
    simp only [trace, Option.bind_eq_some_iff, Option.map_eq_some_iff]
    split_ifs with heop
    · constructor
      · intro h
        simp at h
      · rintro ⟨p, ⟨c, -, q, hq, rfl⟩, hend⟩
        rw [endsAtEop_cons (trace_ne_nil hq), heop] at hend
        cases hend.1
    · have heop : isEop resolver e = false := by simpa using heop
      rw [mem_addressesFrom]
      constructor
      · rintro ⟨k, c, a', h, hk, ha'⟩
        obtain ⟨rfl, rfl⟩ : i = k ∧ a = a' := by simpa using h
        obtain ⟨p, hp, hend⟩ := ih.mp ha'
        exact ⟨e :: p, ⟨c, hk, p, hp, rfl⟩, (endsAtEop_cons (trace_ne_nil hp)).mpr ⟨heop, hend⟩⟩
      · rintro ⟨p, ⟨c, hk, q, hq, rfl⟩, hend⟩
        rw [endsAtEop_cons (trace_ne_nil hq)] at hend
        exact ⟨i, c, a, by simp, hk, ih.mpr ⟨q, hq, hend.2⟩⟩

/-- Document order. -/
def Before : List ℕ → List ℕ → Prop := List.Lex (· < ·)

mutual

/-- The addresses are in document order, each once. -/
theorem addresses_sorted : ∀ e : Element, (addresses resolver e).Pairwise Before
  | .mk tag text children => by
    rw [addresses]
    split_ifs
    · exact List.pairwise_singleton _ _
    · exact addressesFrom_sorted 0 children

theorem addressesFrom_sorted : ∀ (i : ℕ) (es : List Element),
    (addressesFrom resolver i es).Pairwise Before
  | i, [] => by
    rw [addressesFrom]
    exact List.Pairwise.nil
  | i, c :: cs => by
    rw [addressesFrom]
    split_ifs
    · rw [List.pairwise_append]
      refine ⟨?_, addressesFrom_sorted (i + 1) cs, ?_⟩
      · rw [List.pairwise_map]
        exact (addresses_sorted c).imp fun h => .cons h
      · intro a ha b hb
        obtain ⟨a', -, rfl⟩ := List.mem_map.mp ha
        obtain ⟨k, d, b', rfl, -⟩ := mem_addressesFrom.mp hb
        exact .rel (by omega)
    · exact addressesFrom_sorted i cs

end

/-- The address leads from one of the children along the path. -/
def Leads (i : ℕ) (es : List Element) (a : List ℕ) (p : List Element) : Prop :=
  ∃ k c a', a = (i + k) :: a' ∧ (es.filter fun c => c.tag == "NODE")[k]? = some c ∧
    trace c a' = some p

theorem Leads.cons {i : ℕ} {es : List Element} {a : List ℕ} {p : List Element} {c : Element}
    (hc : (c.tag == "NODE") = true) (h : Leads (i + 1) es a p) : Leads i (c :: es) a p := by
  obtain ⟨k, d, a', rfl, hk, hp⟩ := h
  refine ⟨k + 1, d, a', by rw [Nat.add_assoc, Nat.add_comm 1], ?_, hp⟩
  rw [List.filter_cons, if_pos hc]
  exact hk

mutual

/-- The addresses and the paths of a tree go together. -/
theorem trace_addresses : ∀ e : Element,
    List.Forall₂ (fun a p => trace e a = some p) (addresses resolver e) (paths resolver e)
  | .mk tag text children => by
    rw [addresses, paths]
    split_ifs
    · exact .cons rfl .nil
    · rw [List.forall₂_map_right_iff]
      refine (leads_addressesFrom 0 children).imp fun a p h => ?_
      obtain ⟨k, c, a', rfl, hk, hp⟩ := h
      rw [Nat.zero_add, trace]
      refine Option.bind_eq_some_iff.mpr ⟨c, hk, ?_⟩
      rw [hp]
      rfl

theorem leads_addressesFrom : ∀ (i : ℕ) (es : List Element),
    List.Forall₂ (Leads i es) (addressesFrom resolver i es) (pathsFrom resolver es)
  | i, [] => by
    rw [addressesFrom, pathsFrom]
    exact .nil
  | i, c :: cs => by
    rw [addressesFrom, pathsFrom]
    split_ifs with hc
    · refine List.rel_append ?_ ((leads_addressesFrom (i + 1) cs).imp fun _ _ h => h.cons hc)
      rw [List.forall₂_map_left_iff]
      refine (trace_addresses c).imp fun a p h => ⟨0, c, a, rfl, ?_, h⟩
      rw [List.filter_cons, if_pos hc]
      rfl
    · refine (leads_addressesFrom i cs).imp fun a p h => ?_
      rw [Leads, List.filter_cons, if_neg hc]
      exact h

end

end

end Element

namespace ExecTree

variable [StrHash] {P : TextParser}

/-! ### What the stacks stand for -/

/-- The elements of the nodes on the stack, root first. -/
def stackPath (nodes : List ExecNode) : List Element := (nodes.map ExecNode.node).reverse

/-- The paths still to be yielded. -/
def pending (resolver : Resolver) : List ExecNode → List ChildIter → List (List Element)
  | node :: nodes, children :: iters =>
    (if node.isEop then [stackPath (node :: nodes)]
      else (children.rest.flatMap (Element.paths resolver)).map (stackPath (node :: nodes) ++ ·)) ++
      pending resolver nodes iters
  | _, _ => []

omit [StrHash] in
theorem pending_nil (resolver : Resolver) : pending resolver [] [] = [] := rfl

/-- The node was made of its element, its iterator goes over its children, and
those still to come are parseable. -/
structure Frame (resolver : Resolver) (b : Bool) (node : ExecNode) (children : ChildIter) : Prop where
  event : ExecNode.parseEvent resolver (node.node.find "EVENT") = .ok node.event
  cond : b = true → node.event.hasCond = true
  owner : children.owner = node
  rest : ∀ c ∈ children.rest, Element.parseable resolver b c = true
  mgr : node.cmgr.isSome → b = true

/-- The invariant of the loop. -/
structure Inv (resolver : Resolver) (b : Bool) (root : Element) (s : State P) : Prop where
  frames : List.Forall₂ (Frame resolver b) s.nodes s.iters
  yields : s.yields.map (fun y => y.nodes.map ExecNode.node) ++ pending resolver s.nodes s.iters =
    Element.paths resolver root
  made : ∀ y ∈ s.yields, ∀ n ∈ y.nodes,
    ExecNode.parseEvent resolver (n.node.find "EVENT") = .ok n.event

omit [StrHash] in
theorem isEop_eq {resolver : Resolver} {n : ExecNode}
    (h : ExecNode.parseEvent resolver (n.node.find "EVENT") = .ok n.event) :
    Element.isEop resolver n.node = n.isEop := by
  rw [Element.isEop, h]
  rfl

omit [StrHash] in
/-- The paths below a node that is made are those of its element. -/
theorem pending_child {resolver : Resolver} {child : ExecNode}
    (h : ExecNode.parseEvent resolver (child.node.find "EVENT") = .ok child.event)
    (nodes : List ExecNode) :
    (if child.isEop then [stackPath (child :: nodes)]
      else (child.iter.rest.flatMap (Element.paths resolver)).map (stackPath (child :: nodes) ++ ·)) =
      (Element.paths resolver child.node).map (stackPath nodes ++ ·) := by
  have hpath : stackPath (child :: nodes) = stackPath nodes ++ [child.node] := by simp [stackPath]
  rw [Element.paths_eq, isEop_eq h, Element.pathsFrom_eq, hpath]
  split_ifs
  · rfl
  · rw [List.map_map]
    refine List.map_congr_left fun p _ => ?_
    simp

omit [StrHash] in
/-- The frame of a node that is made. -/
theorem frame_make {resolver : Resolver} {b : Bool} {xml : Element} {cmgr : Option ℕ} {n : ExecNode}
    (hxml : Element.parseable resolver b xml = true) (hm : ExecNode.make resolver xml cmgr = .ok n)
    (hcmgr : cmgr.isSome → b = true) : Frame resolver b n n.iter := by
  obtain ⟨-, hev, rfl, rfl⟩ := ExecNode.make_eq hm
  obtain ⟨-, hparses, hrest⟩ := Element.parseable_spec hxml
  refine ⟨hev, fun hb => ?_, rfl, Element.parseables_findall hrest, hcmgr⟩
  rw [Element.eventParses, hev, hb] at hparses
  simpa using hparses

omit [StrHash] in
/-- The events of the nodes on the stack are those of their elements. -/
theorem frames_event {resolver : Resolver} {b : Bool} {nodes : List ExecNode} {iters : List ChildIter}
    (h : List.Forall₂ (Frame resolver b) nodes iters) :
    ∀ n ∈ nodes, ExecNode.parseEvent resolver (n.node.find "EVENT") = .ok n.event := by
  induction h with
  | nil => simp
  | cons hframe _ ih => exact List.forall_mem_cons.mpr ⟨hframe.event, ih⟩

/-- **The rounds keep the invariant.** -/
theorem inv_next {resolver : Resolver} {b : Bool} {root : Element} (s t : State P)
    (hs : Inv resolver b root s) (h : Next (step P resolver) s t) : Inv resolver b root t := by
  obtain ⟨node, nodes, children, iters, hn, hi, hcase⟩ := next_cases h
  obtain ⟨hframes, hyields, hmade⟩ := hs
  rw [hn, hi] at hframes hyields
  have hevents := frames_event hframes
  obtain ⟨hframe, hframes⟩ := List.forall₂_cons.mp hframes
  rw [pending] at hyields
  rcases hcase with ⟨heop, _, rfl, rfl⟩ | ⟨heop, hrest, rfl⟩ | ⟨heop, xml, rest, made, hrest, hc, rfl⟩
  · refine ⟨hframes, ?_, fun y hy n hn' => ?_⟩
    · rw [if_pos heop] at hyields
      rw [← hyields]
      simp [stackPath]
    · rcases List.mem_append.mp hy with hy | hy
      · exact hmade y hy n hn'
      · rw [List.mem_singleton.mp hy] at hn'
        exact hevents n (List.mem_reverse.mp hn')
  · refine ⟨hframes, ?_, hmade⟩
    rw [← hyields, if_neg (by simp [heop]), hrest]
    rfl
  · have hxml := hframe.rest xml (by simp [hrest])
    obtain ⟨cmgr, hm, hcmgr⟩ := ChildIter.getChild_make hc
    rw [hframe.owner] at hcmgr
    have hnew := frame_make hxml hm fun hsome => hframe.mgr (hcmgr hsome)
    have hnode : made.child.node = xml := (ExecNode.make_eq hm).2.2.1
    refine ⟨.cons hnew (.cons ⟨hframe.event, hframe.cond, hframe.owner, fun c hc' =>
      hframe.rest c (by simp [hrest, hc']), hframe.mgr⟩ hframes), ?_, hmade⟩
    rw [← hyields, pending, pending, pending_child hnew.event, if_neg (by simp [heop]),
      if_neg (by simp [heop]), hrest, hnode]
    simp

omit [StrHash] in
/-- A parseable child is made. -/
theorem make_ok {resolver : Resolver} {b : Bool} {xml : Element}
    (hxml : Element.parseable resolver b xml = true) (cmgr : Option ℕ) :
    ∃ n, ExecNode.make resolver xml cmgr = .ok n := by
  obtain ⟨htag, hparses, -⟩ := Element.parseable_spec hxml
  unfold Element.eventParses at hparses
  split at hparses
  · rename_i event hev
    exact ⟨⟨xml, event, cmgr⟩, by rw [ExecNode.make, if_neg (not_not.mpr htag), hev]; rfl⟩
  · cases hparses

omit [StrHash] in
/-- An event that can be asked for its condition has one. -/
theorem getCond_ok {children : ChildIter} (h : children.owner.event.hasCond = true) (left : P.Left) :
    ∃ cond, children.getCond P left = .ok cond := by
  unfold ChildIter.getCond
  cases children.cond with
  | some symbol => exact ⟨_, rfl⟩
  | none =>
    cases hevent : children.owner.event with
    | assume text =>
      rw [hevent] at h
      obtain ⟨text, rfl⟩ := Option.isSome_iff_exists.mp h
      exact ⟨_, rfl⟩
    | _ => exact ⟨_, rfl⟩

theorem getChild_ok {resolver : Resolver} {b : Bool} {node : ExecNode} {children : ChildIter}
    (hframe : Frame resolver b node children) (left : P.Left) (heap : Heap) {xml : Element}
    (hxml : xml ∈ children.rest) : ∃ made, children.getChild P resolver left heap xml = .ok made := by
  have hmake := make_ok (hframe.rest xml hxml)
  unfold ChildIter.getChild
  cases hr : children.owner.cmgr with
  | none =>
    obtain ⟨n, hn⟩ := hmake none
    exact ⟨⟨left, heap, children.cond, n⟩, by simp only [hn]; rfl⟩
  | some r =>
    rw [hframe.owner] at hr
    have hcond := hframe.cond (hframe.mgr (by rw [hr]; rfl))
    rw [← hframe.owner] at hcond
    obtain ⟨⟨cond, left'⟩, hc⟩ := getCond_ok hcond left
    obtain ⟨n, hn⟩ := hmake (some (childMgr heap r cond).2)
    exact ⟨⟨left', (childMgr heap r cond).1, some cond, n⟩, by simp only [hc, ok_bind, hn]⟩

/-- The loop only stops when nothing is left to yield. -/
theorem halt_done {resolver : Resolver} {b : Bool} {root : Element} {s : State P} {o : Outcome}
    (hs : Inv resolver b root s) (h : step P resolver s = .inr o) :
    o = .done s.yields ∧ s.yields.map (fun y => y.nodes.map ExecNode.node) =
      Element.paths resolver root := by
  obtain ⟨hframes, hyields, -⟩ := hs
  obtain ⟨left, heap, nodes, iters, yields⟩ := s
  simp only at hframes hyields ⊢
  cases hframes with
  | nil =>
    cases h
    rw [pending_nil, List.append_nil] at hyields
    exact ⟨rfl, hyields⟩
  | @cons node children nodes iters hframe hframes =>
    simp only [step] at h
    split_ifs at h
    split at h
    · cases h
    · rename_i xml rest hrest
      have hmem : xml ∈ children.rest := by simp [hrest]
      obtain ⟨made, hc⟩ := getChild_ok hframe left heap hmem
      rw [hc] at h
      cases h

/-- Iterating a tree of parseable events yields its paths, with the events of
their elements. -/
theorem iterateFrom_paths {resolver : Resolver} {b : Bool} {xml : Element}
    (h : xml.parseable resolver b = true) (left : P.Left) :
    ∃ heap root yields, ofElement resolver b xml = .ok (heap, root) ∧
      iterateFrom P left resolver heap root = .done yields ∧
      yields.map (fun y => y.nodes.map ExecNode.node) = Element.paths resolver xml ∧
      ∀ y ∈ yields, ∀ n ∈ y.nodes,
        ExecNode.parseEvent resolver (n.node.find "EVENT") = .ok n.event := by
  obtain ⟨heap, root, hroot, hframe, rfl⟩ : ∃ heap root, ofElement resolver b xml = .ok (heap, root) ∧
      Frame resolver b root root.iter ∧ root.node = xml := by
    obtain ⟨n, hn⟩ := make_ok h none
    have hf := frame_make h hn (by simp)
    have hnode := (ExecNode.make_eq hn).2.2.1
    cases b
    · exact ⟨[], n, by simp [ofElement, hn, bind, Except.bind], hf, hnode⟩
    · refine ⟨[.empty], { n with cmgr := some 0 }, ?_, ?_, hnode⟩
      · simp [ofElement, hn, bind, Except.bind, Heap.alloc]
      · exact ⟨hf.event, hf.cond, rfl, hf.rest, fun _ => rfl⟩
  have hstart : Inv resolver b root.node (start left heap root : State P) := by
    refine ⟨.cons hframe .nil, ?_, fun y hy => ?_⟩
    · rw [start, pending, pending_child hframe.event, pending_nil]
      simp [stackPath]
    · cases hy
  obtain ⟨s, hreach, hstep⟩ := exists_reach_of_run (run_total left resolver heap root)
  have hinv := hreach.invariant (inv_next (b := b)) hstart
  obtain ⟨hdone, hyields⟩ := halt_done hinv hstep
  exact ⟨heap, root, s.yields, hroot, hdone, hyields, hinv.made⟩

/-- The paths of a tree whose conditions say by themselves what they are. -/
theorem iterate_paths {resolver : Resolver} {b : Bool} {xml : Element}
    (h : xml.parseable resolver b = true) :
    ∃ heap root yields, ofElement resolver b xml = .ok (heap, root) ∧
      iterate resolver heap root = .done yields ∧
      yields.map (fun y => y.nodes.map ExecNode.node) = Element.paths resolver xml ∧
      ∀ y ∈ yields, ∀ n ∈ y.nodes,
        ExecNode.parseEvent resolver (n.node.find "EVENT") = .ok n.event :=
  iterateFrom_paths (P := .texts) h ()

/-- **Exact path enumeration.** Iterating a tree of parseable events ends, and
what it yields are the elements along a list of addresses: all addresses of
paths that end at their first `EOP` node, in document order, each once. What
the conditions are parsed to plays no part. -/
theorem iterate_exact {resolver : Resolver} {b : Bool} {xml : Element}
    (h : xml.parseable resolver b = true) (left : P.Left) :
    ∃ heap root yields addrs, ofElement resolver b xml = .ok (heap, root) ∧
      iterateFrom P left resolver heap root = .done yields ∧
      addrs.Pairwise Element.Before ∧
      (∀ a, a ∈ addrs ↔ ∃ p, xml.trace a = some p ∧ Element.EndsAtEop resolver p) ∧
      List.Forall₂ (fun a y => xml.trace a = some (y.nodes.map ExecNode.node)) addrs yields := by
  obtain ⟨heap, root, yields, hroot, hdone, hyields, -⟩ := iterateFrom_paths h left
  have htrace : List.Forall₂ (fun a p => xml.trace a = some p) (Element.addresses resolver xml)
      (Element.paths resolver xml) := Element.trace_addresses xml
  rw [← hyields, List.forall₂_map_right_iff] at htrace
  exact ⟨heap, root, yields, Element.addresses resolver xml, hroot, hdone,
    Element.addresses_sorted _, fun _ => Element.mem_addresses, htrace⟩

/-- A leaf of the database. -/
def leaf (tag text : String) : Element := .mk tag (some text) []

/-- A `NODE` element with the children of its event, and its own. -/
def nodeElement (event children : List Element) : Element :=
  .mk "NODE" none (.mk "EVENT" none event :: children)

/-- A condition with two ends of a path below it; the second one has a node
below it itself. -/
def condTree : Element :=
  let eop := [leaf "KIND" "@LOG_EOP"]
  nodeElement [leaf "KIND" "@LOG_ASSUME", leaf "COND" "x@=\x7b [0, 0] \x7d"]
    [nodeElement eop [], nodeElement eop [nodeElement eop []]]

omit [StrHash] in
/-- The two paths of `condTree`. -/
theorem iterate_exact_condTree :
    let _ : StrHash := ⟨fun s => s.length⟩
    ∃ heap root yields addrs, ofElement noResolver true condTree = .ok (heap, root) ∧
      iterateFrom (.shared fun _ left => left) .empty noResolver heap root = .done yields ∧
      addrs.Pairwise Element.Before ∧
      (∀ a, a ∈ addrs ↔ ∃ p, condTree.trace a = some p ∧ Element.EndsAtEop noResolver p) ∧
      List.Forall₂ (fun a y => condTree.trace a = some (y.nodes.map ExecNode.node)) addrs yields := by
  intro _
  exact iterate_exact (by decide) _

end ExecTree

end Apisan
