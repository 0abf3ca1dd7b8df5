/-
# The constraints along a path

A node's constraint manager is the one its parent's event leaves: shared, or
a copy with one more symbol. Managers that exist are never written again, so
what a path sees of its managers is decided by its own events: at the end of
every path that is yielded, a symbol has the constraints of the first assume
event on the path about an equal symbol (`get_last`).

The invariant says this of every node on the stack, for the events above it,
and survives the heap's growth while other branches are explored.

Key definitions: `firstConstraint`, `ExecTree.Known`, `ExecTree.MgrInv`.
Key theorems: `ExecNode.childMgr_spec`, `ExecTree.mgrInv_next`,
`ExecTree.get_last`.
-/
import Apisan.Parse.Unread

namespace Apisan

open Python Machine

variable [StrHash]

/-- The constraints an event records of a symbol. -/
def Event.constraintOn (event : Event) (s : Symbol) : Option (List (ℤ × ℤ)) :=
  event.constraint.bind fun x => if x.1.key = s.key then some x.2 else none

/-- The constraints of the first event whose condition is a constraint on an
equal symbol. -/
def firstConstraint (events : List Event) (s : Symbol) : Option (List (ℤ × ℤ)) :=
  events.findSome? fun event => event.constraintOn s

theorem firstConstraint_append (as bs : List Event) (s : Symbol) :
    firstConstraint (as ++ bs) s = (firstConstraint as s).or (firstConstraint bs s) :=
  List.findSome?_append

theorem firstConstraint_single (event : Event) (s : Symbol) :
    firstConstraint [event] s = event.constraintOn s := by
  simp [firstConstraint]

/-- **What a child's manager is.** The heap keeps its objects, and the manager
has the parent's constraints, and those of the parent's event for a symbol
that has none. -/
theorem childMgr_spec {h : Heap} {r : ℕ} (hr : r < h.length) (event : Event) :
    (childMgr h r event.ownCond).2 < (childMgr h r event.ownCond).1.length ∧
      ∀ s, ((childMgr h r event.ownCond).1.load (childMgr h r event.ownCond).2).get s =
        ((h.load r).get s).or (event.constraintOn s) := by
  by_cases hc : Constrains h r event.ownCond
  · obtain ⟨symbol, constraints, hcond, hnew⟩ := hc
    have hon : ∀ s, event.constraintOn s = if symbol.key = s.key then some constraints else none :=
      fun s => by simp [Event.constraintOn, Event.constraint, hcond]
    have hload : Heap.load (h ++ [(h.load r).set symbol.key constraints]) h.length =
        (h.load r).set symbol.key constraints := by simp [Heap.load]
    rw [hcond, childMgr_of_constrains hnew]
    refine ⟨by simp, fun s => ?_⟩
    simp only [hload]
    rw [hon, ConstraintMgr.get, ConstraintMgr.get, Dict.get?_set]
    by_cases hs : s.key = symbol.key
    · have hnone : (h.load r).get? symbol.key = none := by simpa [Dict.contains] using hnew
      simp [hs, hnone]
    · simp [hs, Ne.symm hs]
  · rw [childMgr_of_not_constrains hc]
    refine ⟨hr, fun s => ?_⟩
    -- a constraint of the event is on a symbol that has one
    cases hon : event.constraintOn s with
    | none => exact (Option.or_none).symm
    | some constraints =>
      obtain ⟨⟨symbol, cs⟩, hev, hs⟩ := Option.bind_eq_some_iff.mp hon
      have hcond : event.ownCond = some (.constraint symbol cs) := by
        unfold Event.constraint at hev
        split at hev
        · cases hev
          assumption
        · cases hev
      have hkey : symbol.key = s.key := by
        by_contra hne
        rw [if_neg hne] at hs
        cases hs
      have hknown : ((h.load r).get? s.key).isSome = true := by
        rw [← hkey]
        exact Bool.not_eq_false _ ▸ fun hno => hc ⟨symbol, cs, hcond, hno⟩
      obtain ⟨known, hget⟩ := Option.isSome_iff_exists.mp hknown
      rw [ConstraintMgr.get, hget]
      rfl

/-- The condition of the iterator's event is kept as its text has it. -/
def ChildIter.Own (i : ChildIter) : Prop := ∀ cond, i.cond = some cond → cond = i.owner.event.ownCond

omit [StrHash] in
theorem ChildIter.Own.getCond {i : ChildIter} (h : i.Own) {cond : Option Symbol} {left : Unit}
    (hc : i.getCond .texts () = .ok (cond, left)) : cond = i.owner.event.ownCond := by
  unfold ChildIter.getCond at hc
  cases hi : i.cond with
  | some symbol =>
    rw [hi] at hc
    cases hc
    exact h _ hi
  | none =>
    rw [hi] at hc
    cases hevent : i.owner.event with
    | assume text =>
      rw [hevent] at hc
      cases text with
      | none => cases hc
      | some text =>
        cases hc
        rfl
    | _ =>
      rw [hevent] at hc
      cases hc
      rfl

namespace ExecTree

/-- The managers of the nodes on the stack, top first, know the constraints of
the events above. -/
def Known (heap : Heap) : List ExecNode → Prop
  | [] => True
  | node :: above =>
    (∃ r, node.cmgr = some r ∧ r < heap.length ∧
      ∀ s, (heap.load r).get s = firstConstraint (above.reverse.map ExecNode.event) s) ∧
    Known heap above

theorem Known.mono {h h' : Heap} (hh : h <+: h') : ∀ {nodes : List ExecNode}, Known h nodes →
    Known h' nodes
  | [], _ => trivial
  | _ :: _, ⟨⟨r, hr, hlt, hget⟩, hk⟩ =>
    ⟨⟨r, hr, Nat.lt_of_lt_of_le hlt hh.length_le, fun s => by rw [Heap.load_mono hh hlt, hget]⟩,
      hk.mono hh⟩

/-- The invariant of the loop, with constraints, where the texts are parsed each by
itself. -/
structure MgrInv (s : State .texts) : Prop where
  owners : List.Forall₂ (fun node children => children.owner = node) s.nodes s.iters
  conds : ∀ i ∈ s.iters, i.Own
  known : Known s.heap s.nodes
  yields : ∀ y ∈ s.yields, y.heap <+: s.heap ∧
    ∃ node above, y.nodes = (node :: above).reverse ∧ node.isEop = true ∧
      Known y.heap (node :: above)

/-- **The rounds keep the invariant.** -/
theorem mgrInv_next {resolver : Resolver} (s t : State .texts) (hs : MgrInv s)
    (h : Next (step .texts resolver) s t) : MgrInv t := by
  obtain ⟨node, nodes, children, iters, hn, hi, hcase⟩ := next_cases h
  obtain ⟨howners, hconds, hknown, hyields⟩ := hs
  rw [hn, hi] at howners
  rw [hi, List.forall_mem_cons] at hconds
  rw [hn] at hknown
  obtain ⟨howner, howners⟩ := List.forall₂_cons.mp howners
  rcases hcase with ⟨heop, _, rfl, rfl⟩ | ⟨-, -, rfl⟩ | ⟨-, xml, rest, made, -, hc, rfl⟩
  · refine ⟨howners, hconds.2, hknown.2, fun y hy => ?_⟩
    rcases List.mem_append.mp hy with hy | hy
    · exact hyields y hy
    · obtain rfl := List.mem_singleton.mp hy
      exact ⟨List.prefix_refl _, node, nodes, rfl, heop, hknown⟩
  · exact ⟨howners, hconds.2, hknown.2, hyields⟩
  · obtain ⟨r, hr, hlt, hget⟩ := hknown.1
    rcases ChildIter.getChild_eq hc with ⟨hnone, -⟩ | ⟨r₁, cond, hr₁, hcond, hm, hheap, hkept⟩
    · rw [howner, hr] at hnone
      cases hnone
    · obtain rfl : r = r₁ := by simpa [howner, hr] using hr₁
      obtain rfl := hconds.1.getCond hcond
      rw [howner] at hm hheap hkept
      obtain ⟨hlt', hget'⟩ := childMgr_spec hlt node.event
      have hpre : s.heap <+: made.heap := hheap ▸ childMgr_mono _ _ _
      rw [← hheap] at hlt' hget'
      have hcmgr : made.child.cmgr = some (childMgr s.heap r node.event.ownCond).2 := (ExecNode.make_eq hm).2.2.2
      have howns : ∀ i ∈ made.child.iter :: ⟨children.owner, rest, made.cond⟩ :: iters, i.Own := by
        refine List.forall_mem_cons.mpr ⟨nofun, List.forall_mem_cons.mpr ⟨fun cond hcond => ?_, hconds.2⟩⟩
        rw [show made.cond = some cond from hcond] at hkept
        rw [howner]
        exact Option.some.inj hkept
      refine ⟨.cons rfl (.cons howner howners), howns, ⟨⟨_, hcmgr, hlt', fun s => ?_⟩, hknown.mono hpre⟩,
        fun y hy => ?_⟩
      · rw [hget', hget, List.reverse_cons, List.map_append, firstConstraint_append, List.map_cons,
          List.map_nil, firstConstraint_single]
      · obtain ⟨hy₁, hy₂⟩ := hyields y hy
        exact ⟨hy₁.trans hpre, hy₂⟩

theorem mgrInv_start {resolver : Resolver} {xml : Element} {heap : Heap} {root : ExecNode}
    (h : ofElement resolver true xml = .ok (heap, root)) : MgrInv (start () heap root) := by
  obtain ⟨n, -, hn⟩ := bind_eq_ok.mp h
  cases hn
  refine ⟨.cons rfl .nil, List.forall_mem_singleton.mpr nofun,
    ⟨⟨0, rfl, by simp [start], fun s => ?_⟩, trivial⟩, by simp [start]⟩
  simp [start, Heap.load, ConstraintMgr.get, firstConstraint]

/-- What a state has yielded: the manager of the last node holds the first
constraints on the path. -/
theorem MgrInv.last_cmgr {s : State .texts} (h : MgrInv s) {y : Yielded} (hy : y ∈ s.yields) :
    ∃ last r, y.nodes.getLast? = some last ∧ last.cmgr = some r ∧
      ∀ sym, (y.heap.load r).get sym = firstConstraint (y.nodes.map ExecNode.event) sym ∧
        (s.heap.load r).get sym = firstConstraint (y.nodes.map ExecNode.event) sym := by
  obtain ⟨-, -, -, hyields⟩ := h
  obtain ⟨hpre, node, above, hnodes, heop, ⟨r, hr, hlt, hget⟩, -⟩ := hyields y hy
  have hlast : node.event.constraintOn = fun _ => none := by
    funext sym
    have : node.event = .eop := by
      unfold ExecNode.isEop Event.isEop at heop
      split at heop
      · assumption
      · cases heop
    rw [this]
    rfl
  have hevents : ∀ sym, (y.heap.load r).get sym =
      firstConstraint (y.nodes.map ExecNode.event) sym := fun sym => by
    rw [hnodes, List.reverse_cons, List.map_append, firstConstraint_append, List.map_cons,
      List.map_nil, firstConstraint_single, hlast, Option.or_none, hget]
  refine ⟨node, r, by rw [hnodes]; simp, hr, fun sym => ⟨hevents sym, ?_⟩⟩
  rw [Heap.load_mono hpre hlt, hevents]

theorem mgrInv_reach {resolver : Resolver} {xml : Element} {heap : Heap} {root : ExecNode} {s : State .texts}
    (h : ofElement resolver true xml = .ok (heap, root))
    (hs : Reach (step .texts resolver) (start () heap root) s) : MgrInv s :=
  hs.invariant mgrInv_next (mgrInv_start h)

/-! ### The shared parser -/

variable {consume : List Yielded → SParser.Unread → SParser.Unread}

/-- **Path-local, first-wins constraints**, in every run that leaks nothing.
Whenever a path has been yielded, the manager of its last node, then and ever
after, gives a symbol the constraints of the first assume event on the path that
is about an equal symbol. -/
theorem get_last {resolver : Resolver} {xml : Element} {heap : Heap} {root : ExecNode} {left : SParser.Unread}
    {s : State (.shared consume)} (h : ofElement resolver true xml = .ok (heap, root))
    (hs : ReachIn (step (.shared consume) resolver) (fun s => ¬ Leaks s) (start left heap root) s) :
    ∀ y ∈ s.yields, ∃ last r, y.nodes.getLast? = some last ∧ last.cmgr = some r ∧
      ∀ sym, (y.heap.load r).get sym = firstConstraint (y.nodes.map ExecNode.event) sym ∧
        (s.heap.load r).get sym = firstConstraint (y.nodes.map ExecNode.event) sym := by
  intro y hy
  obtain ⟨t, ht, hlike⟩ := reach_texts hs
  rw [hlike.heap]
  exact (mgrInv_reach h ht).last_cmgr (hlike.yields ▸ hy)

/-- **A leak is seen at once**: the new child's manager has a constraint that no
event above it states. -/
theorem not_known_of_leaks {P : TextParser} {resolver : Resolver} {s t : State P} (hs : Known s.heap s.nodes)
    (howners : List.Forall₂ (fun node children => children.owner = node) s.nodes s.iters) (hleak : Leaks s)
    (h : Next (step P resolver) s t) : ¬ Known t.heap t.nodes := by
  obtain ⟨node, nodes, children, iters, hn, hi, hcase⟩ := next_cases h
  obtain ⟨node', nodes', children', iters', r, hn', hi', hcond, hrest, hevent, hr, hadds⟩ := hleak
  rw [hn] at hn' hs howners
  rw [hi] at hi' howners
  cases hn'
  cases hi'
  have howner := (List.forall₂_cons.mp howners).1
  rw [howner] at hevent hr
  obtain ⟨r', hr', -, hget⟩ := hs.1
  obtain rfl := Option.some.inj (hr.symm.trans hr')
  have heop : node.isEop = false := by
    rw [ExecNode.isEop, hevent]
    rfl
  rcases hcase with ⟨heop', -⟩ | ⟨-, hnil, -⟩ | ⟨-, xml, rest, made, -, hc, rfl⟩
  · rw [heop] at heop'
    cases heop'
  · exact absurd hnil hrest
  · rcases ChildIter.getChild_eq hc with ⟨hnone, -⟩ | ⟨r₁, cond, hr₁, hcond', hm, hheap, -⟩
    · rw [howner, hr] at hnone
      cases hnone
    · obtain rfl : r = r₁ := by simpa [howner, hr] using hr₁
      obtain ⟨symbol, constraints, hsymbol, hnew⟩ := hadds
      obtain rfl : some (.constraint symbol constraints) = cond := by
        rw [← hsymbol]
        simp only [ChildIter.getCond, hcond, howner, hevent, getAttribute, ok_bind, Except.ok.injEq] at hcond'
        exact congrArg Prod.fst hcond'
      rw [childMgr_of_constrains hnew] at hm hheap
      rintro ⟨⟨r₂, hr₂, -, hget'⟩, -⟩
      obtain rfl := Option.some.inj ((ExecNode.make_eq hm).2.2.2.symm.trans hr₂)
      -- the leaked constraints, which the events do not have
      have hleaked := hget' symbol
      simp only [hheap, Heap.load, List.getD_eq_getElem?_getD, List.getElem?_concat_length,
        Option.getD_some] at hleaked
      rw [ConstraintMgr.get, Dict.get?_set, if_pos rfl, List.reverse_cons, List.map_append,
        firstConstraint_append, ← hget symbol] at hleaked
      have hnone : ConstraintMgr.get (s.heap.load r) symbol = none := by
        simpa [Dict.contains, ConstraintMgr.get] using hnew
      have hown : firstConstraint ([node].map ExecNode.event) symbol = none := by
        rw [List.map_cons, hevent]
        rfl
      rw [hnone, hown] at hleaked
      cases hleaked

omit [StrHash] in
/-- The first path of `condTree`, when it has been yielded. -/
theorem get_last_condTree :
    let _ : StrHash := ⟨fun s => s.length⟩
    ∃ (y : Yielded) (last : ExecNode) (r : ℕ), y.nodes.getLast? = some last ∧ last.cmgr = some r ∧
      (y.heap.load r).get (.id "x") =
        firstConstraint (y.nodes.map ExecNode.event) (.id "x") := by
  intro _
  obtain ⟨heap, root, s, y, hroot, hreach, hy⟩ : ∃ heap root s y,
      ofElement noResolver true condTree = .ok (heap, root) ∧
        ReachIn (step (.shared fun _ left => left) noResolver) (fun s => ¬ Leaks s)
          (start .empty heap root) s ∧ s.yields = [y] :=
    ⟨_, _, _, _, rfl, .head ⟨not_leaks_of_head rfl (by decide), rfl⟩
      (.head ⟨not_leaks_of_head rfl (by decide), rfl⟩ .refl), rfl⟩
  obtain ⟨last, r, hlast, hr, hget⟩ := get_last hroot hreach y (by simp [hy])
  exact ⟨y, last, r, hlast, hr, (hget _).1⟩

/-- Two branches: a condition in whose text `int()` raises, and one without a
text. -/
def unreadTree : Element :=
  let eop := nodeElement [leaf "KIND" "@LOG_EOP"] []
  nodeElement [leaf "KIND" "@LOG_CALL", leaf "CODE" "a.c:1", leaf "CALL" "g(x)"]
    [nodeElement [leaf "KIND" "@LOG_ASSUME", leaf "COND" "0u, x@=\x7b [7, 7] \x7d"] [eop],
      nodeElement [leaf "KIND" "@LOG_ASSUME", .mk "COND" none []] [eop]]

omit [StrHash] in
/-- The second branch sees a constraint that only the text of the first one has. -/
theorem sibling_seen :
    let _ : StrHash := ⟨fun s => s.length⟩
    ∃ heap root s y last r, ofElement noResolver true unreadTree = .ok (heap, root) ∧
      Reach (step (.shared fun _ left => left) noResolver) (start .empty heap root) s ∧ y ∈ s.yields ∧
      y.nodes.getLast? = some last ∧ last.cmgr = some r ∧ (y.heap.load r).get (.id "x") = some [(7, 7)] ∧
      firstConstraint (y.nodes.map ExecNode.event) (.id "x") = none := by
  intro _
  obtain ⟨heap, root, yields, hroot, hdone, hlast⟩ : ∃ heap root yields,
      ofElement noResolver true unreadTree = .ok (heap, root) ∧
        iterateFrom (.shared fun _ left => left) .empty noResolver heap root = .done yields ∧
        ∃ y last r, yields.getLast? = some y ∧ y.nodes.getLast? = some last ∧ last.cmgr = some r ∧
          (y.heap.load r).get (.id "x") = some [(7, 7)] ∧
          firstConstraint (y.nodes.map ExecNode.event) (.id "x") = none :=
    ⟨_, _, _, rfl, rfl, _, _, _, rfl, rfl, rfl, by decide, by decide⟩
  obtain ⟨y, last, r, hy, hrest⟩ := hlast
  obtain ⟨s, hreach, hyields⟩ := reach_of_done hdone
  exact ⟨heap, root, s, y, last, r, hroot, hreach, hyields ▸ List.mem_of_getLast? hy, hrest⟩

end ExecTree

end Apisan
