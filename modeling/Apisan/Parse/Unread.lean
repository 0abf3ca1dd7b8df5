/-
# What the parser leaves unread

All events share one parser. Where a condition has no text the parser goes on
with what its lexer has left, and after `int()` has raised that is the rest of
another event's text: its constraint may get into a manager, though no event of
the path states it (`ExecTree.Leaks`).

A run without such a step is the run of the tree whose texts are parsed each by
itself, with the same managers, nodes and paths, whatever the consumer of the
paths parses in between (`ExecTree.iterateFrom_shared`). No tree whose conditions
all have a text has such a step (`ExecTree.not_leaks_of_texted`).

Key definitions: `ExecTree.Leaks`, `ExecTree.Like`, `Element.texted`.
Key theorems: `ExecTree.step_like`, `ExecTree.iterateFrom_shared`,
`ExecTree.reach_texts`, `ExecTree.not_leaks_of_texted`.
-/
import Apisan.Parse.Paths

namespace Apisan

open Python Machine

variable [StrHash] {P : TextParser} {consume : List Yielded → SParser.Unread → SParser.Unread}
variable {resolver : Resolver}

/-- Two iterators over the same children. The conditions of their owner are the
same, or they add nothing. -/
structure ChildIter.Like (heap : Heap) (i j : ChildIter) : Prop where
  owner : i.owner = j.owner
  rest : i.rest = j.rest
  cond : i.cond = j.cond ∨ ∃ symbol r, i.cond = some symbol ∧ j.cond = some none ∧
    i.owner.cmgr = some r ∧ ¬ Constrains heap r symbol

namespace ChildIter

theorem Like.mono {h h' : Heap} (hh : h <+: h') {i j : ChildIter} (hl : Like h i j) : Like h' i j := by
  obtain ⟨howner, hrest, hcond⟩ := hl
  refine ⟨howner, hrest, hcond.imp_right ?_⟩
  rintro ⟨symbol, r, hi, hj, hr, hnot⟩
  exact ⟨symbol, r, hi, hj, hr, fun hc => hnot (hc.anti hh)⟩

/-- The condition that the shared parser finds, and the one of the text. -/
theorem getCond_like (consume : List Yielded → SParser.Unread → SParser.Unread) {heap : Heap}
    {i j : ChildIter} (h : Like heap i j) {r : ℕ} (hr : i.owner.cmgr = some r) (left : SParser.Unread)
    (hleft : i.cond = none → i.owner.event = .assume (some none) →
      ¬ Constrains heap r (parseText left none).1) :
    (∃ e, i.getCond (.shared consume) left = .error e ∧ j.getCond .texts () = .error e) ∨
      ∃ cond cond' left', i.getCond (.shared consume) left = .ok (cond, left') ∧
        j.getCond .texts () = .ok (cond', ()) ∧ (cond = cond' ∨ cond' = none ∧ ¬ Constrains heap r cond) := by
  obtain ⟨howner, -, hcond⟩ := h
  unfold getCond
  rw [← howner]
  rcases hcond with hsame | ⟨symbol, r', hi, hj, hr', hnot⟩
  · rw [← hsame]
    cases hi : i.cond with
    | some symbol => exact .inr ⟨symbol, symbol, left, rfl, rfl, .inl rfl⟩
    | none =>
      cases hevent : i.owner.event with
      | assume text =>
        cases text with
        | none => exact .inl ⟨_, rfl, rfl⟩
        | some text =>
          cases text with
          | none => exact .inr ⟨_, none, _, rfl, rfl, .inr ⟨rfl, hleft hi hevent⟩⟩
          | some text => exact .inr ⟨_, _, _, rfl, rfl, .inl rfl⟩
      | _ => exact .inr ⟨none, none, left, rfl, rfl, .inl rfl⟩
  · obtain rfl := Option.some.inj (hr.symm.trans hr')
    rw [hi, hj]
    exact .inr ⟨symbol, none, left, rfl, rfl, .inr ⟨rfl, hnot⟩⟩

/-- The child that is made, with the shared parser and with the texts alone. -/
theorem getChild_like (consume : List Yielded → SParser.Unread → SParser.Unread) (resolver : Resolver)
    {heap : Heap} {i j : ChildIter} (h : Like heap i j) (left : SParser.Unread)
    (hleft : ∀ r, i.owner.cmgr = some r → i.cond = none → i.owner.event = .assume (some none) →
      ¬ Constrains heap r (parseText left none).1) (xml : Element) (rest : List Element) :
    (∃ e, i.getChild (.shared consume) resolver left heap xml = .error e ∧
        j.getChild .texts resolver () heap xml = .error e) ∨
      ∃ m m', i.getChild (.shared consume) resolver left heap xml = .ok m ∧
        j.getChild .texts resolver () heap xml = .ok m' ∧ m.heap = m'.heap ∧ m.child = m'.child ∧
        heap <+: m.heap ∧ Like m.heap ⟨i.owner, rest, m.cond⟩ ⟨j.owner, rest, m'.cond⟩ := by
  have howner := h.owner
  unfold getChild
  rw [← howner]
  cases hr : i.owner.cmgr with
  | none =>
    simp only
    cases ExecNode.make resolver xml none with
    | error e => exact .inl ⟨e, rfl, rfl⟩
    | ok n =>
      refine .inr ⟨_, _, rfl, rfl, rfl, rfl, List.prefix_refl _, rfl, rfl, h.cond.imp_right ?_⟩
      rintro ⟨symbol, r, -, -, hsome, -⟩
      rw [hr] at hsome
      cases hsome
  | some r =>
    rcases getCond_like consume h hr left (hleft r hr) with ⟨e, hi, hj⟩ |
      ⟨cond, cond', left', hi, hj, hcond⟩
    · simp only [hi, hj]
      exact .inl ⟨e, rfl, rfl⟩
    · have hmgr : childMgr heap r cond' = childMgr heap r cond := by
        rcases hcond with rfl | ⟨rfl, hnot⟩
        · rfl
        · rw [childMgr_of_not_constrains hnot]
          rfl
      simp only [hi, hj, ok_bind, hmgr]
      cases ExecNode.make resolver xml (some (childMgr heap r cond).2) with
      | error e => exact .inl ⟨e, rfl, rfl⟩
      | ok n =>
        refine .inr ⟨_, _, rfl, rfl, rfl, rfl, childMgr_mono heap r cond, rfl, rfl, ?_⟩
        rcases hcond with rfl | ⟨rfl, hnot⟩
        · exact .inl rfl
        · exact .inr ⟨cond, r, rfl, rfl, hr, fun hc => hnot (hc.anti (childMgr_mono heap r cond))⟩

end ChildIter

/-! ### Conditions with texts -/

namespace Element

/-- The condition of the element's event has a text, if there is one. -/
def condTexted (resolver : Resolver) (e : Element) : Bool :=
  match ExecNode.parseEvent resolver (e.find "EVENT") with
  | .ok (.assume (some none)) => false
  | _ => true

omit [StrHash] in
theorem condTexted_iff {e : Element} : condTexted resolver e = true ↔
    ExecNode.parseEvent resolver (e.find "EVENT") ≠ .ok (.assume (some none)) := by
  unfold condTexted
  split
  · rename_i hevent
    simp [hevent]
  · rename_i hevent
    exact iff_of_true rfl fun h => hevent h

mutual

/-- Every condition in the tree has a text. -/
def texted (resolver : Resolver) : Element → Bool
  | .mk tag text children => condTexted resolver (.mk tag text children) && textedAll resolver children

def textedAll (resolver : Resolver) : List Element → Bool
  | [] => true
  | c :: cs => (c.tag != "NODE" || texted resolver c) && textedAll resolver cs

end

omit [StrHash] in
theorem textedAll_iff {es : List Element} : textedAll resolver es = true ↔
    ∀ c ∈ es, c.tag = "NODE" → texted resolver c = true := by
  induction es with
  | nil => simp [textedAll]
  | cons c cs ih =>
    rw [textedAll, Bool.and_eq_true, List.forall_mem_cons, ih, Bool.or_eq_true, bne_iff_ne]
    exact and_congr_left fun _ => ⟨fun h htag => h.resolve_left fun hne => hne htag,
      fun h => or_iff_not_imp_left.mpr fun htag => h (not_not.mp htag)⟩

omit [StrHash] in
theorem texted_iff (e : Element) : texted resolver e = true ↔
    condTexted resolver e = true ∧ ∀ c ∈ e.findall "NODE", texted resolver c = true := by
  obtain ⟨tag, text, children⟩ := e
  rw [texted, Bool.and_eq_true, textedAll_iff, findall]
  simp only [Element.children, List.mem_filter, beq_iff_eq, and_imp]

end Element

namespace ExecTree

/-! ### Leaks -/

/-- In the next round the parser is asked for a condition without a text, and
what it has left unread is a constraint that the manager does not have. -/
def Leaks (s : State P) : Prop :=
  ∃ node nodes children iters r, s.nodes = node :: nodes ∧ s.iters = children :: iters ∧
    children.cond = none ∧ children.rest ≠ [] ∧ children.owner.event = .assume (some none) ∧
    children.owner.cmgr = some r ∧ Constrains s.heap r (P.parse s.left none).1

/-- Only a condition without a text leaks. -/
theorem not_leaks_of_head {s : State P} {i : ChildIter} (hi : s.iters.head? = some i)
    (h : i.owner.event ≠ .assume (some none)) : ¬ Leaks s := by
  rintro ⟨node, nodes, children, iters, r, -, hiters, -, -, hevent, -⟩
  rw [hiters] at hi
  exact h (Option.some.inj hi ▸ hevent)

/-- The states have the same managers, nodes and paths. -/
structure Like (s : State (.shared consume)) (t : State .texts) : Prop where
  heap : s.heap = t.heap
  nodes : s.nodes = t.nodes
  iters : List.Forall₂ (ChildIter.Like s.heap) s.iters t.iters
  yields : s.yields = t.yields

/-- **A round that leaks nothing** is a round with the texts alone. -/
theorem step_like (s : State (.shared consume)) (t : State .texts) (h : Like s t) (hs : ¬ Leaks s) :
    Alike (step (.shared consume) resolver) (step .texts resolver) Like s t := by
  obtain ⟨left, heap, nodes, iters, yields⟩ := s
  obtain ⟨left', heap', nodes', iters', yields'⟩ := t
  obtain ⟨hheap, hnodes, hiters, hyields⟩ := h
  simp only at hheap hnodes hiters hyields
  subst hheap hnodes hyields
  cases nodes with
  | nil => exact .inr ⟨_, rfl, rfl⟩
  | cons node nodes =>
    cases hiters with
    | nil => exact .inr ⟨_, rfl, rfl⟩
    | @cons i j iters iters' hij hiters =>
      cases heop : node.isEop with
      | true => exact .inl ⟨_, _, next_yield heop, next_yield heop, rfl, rfl, hiters, rfl⟩
      | false =>
        have hrest := hij.rest
        cases hi : i.rest with
        | nil =>
          rw [hi] at hrest
          exact .inl ⟨_, _, next_drop heop hi, next_drop heop hrest.symm, rfl, rfl, hiters, rfl⟩
        | cons xml rest =>
          rw [hi] at hrest
          have hleft : ∀ r, i.owner.cmgr = some r → i.cond = none → i.owner.event = .assume (some none) →
              ¬ Constrains heap r (parseText left none).1 := fun r hr hcond hevent hc =>
            hs ⟨node, nodes, i, iters, r, rfl, rfl, hcond, by rw [hi]; exact List.cons_ne_nil _ _, hevent,
              hr, hc⟩
          rcases ChildIter.getChild_like consume resolver hij left hleft xml rest with
            ⟨e, hm, hm'⟩ | ⟨m, m', hm, hm', hheap, hchild, hpre, hlike⟩
          · exact .inr ⟨_, halt_raise heop hi hm, halt_raise heop hrest.symm hm'⟩
          · refine .inl ⟨_, _, next_child heop hi hm, next_child heop hrest.symm hm', hheap, ?_, ?_, rfl⟩
            · simp only [hchild]
            · simp only [← hchild]
              exact .cons ⟨rfl, rfl, .inl rfl⟩ (.cons hlike (hiters.imp fun _ _ h => h.mono hpre))

theorem like_start (left : SParser.Unread) (heap : Heap) (root : ExecNode) :
    Like (start left heap root : State (.shared consume)) (start () heap root) :=
  ⟨rfl, rfl, .cons ⟨rfl, rfl, .inl rfl⟩ .nil, rfl⟩

/-- **Without leaks** the tree is iterated as if each text was parsed by itself. -/
theorem iterateFrom_shared (consume : List Yielded → SParser.Unread → SParser.Unread) (left : SParser.Unread)
    {heap : Heap} {root : ExecNode}
    (h : ∀ s, Reach (step (.shared consume) resolver) (start left heap root) s → ¬ Leaks s) :
    iterateFrom (.shared consume) left resolver heap root = iterate resolver heap root := by
  have hlike : ∀ (s : State (.shared consume)) (t : State .texts), Like s t → ¬ Leaks s →
      Alike (step (.shared consume) resolver) (step .texts resolver) Like s t := step_like
  have hrun := run_eq_of_related hlike
    (measure (start left heap root : State (.shared consume)) + 1) (like_start left heap root) h
  unfold iterate iterateFrom
  rw [hrun]
  rfl

/-- **A run that leaks nothing** is a run with the texts alone. -/
theorem reach_texts {left : SParser.Unread} {heap : Heap} {root : ExecNode} {s : State (.shared consume)}
    (hs : ReachIn (step (.shared consume) resolver) (fun s => ¬ Leaks s) (start left heap root) s) :
    ∃ t, Reach (step .texts resolver) (start () heap root) t ∧ Like s t :=
  ReachIn.related step_like (like_start left heap root) hs

/-! ### Trees whose conditions have texts -/

/-- The event of the node is not without a text, nor are those below that are still
to come. -/
def IterTexted (resolver : Resolver) (i : ChildIter) : Prop :=
  i.owner.event ≠ .assume (some none) ∧ ∀ c ∈ i.rest, c.texted resolver = true

omit [StrHash] in
theorem iterTexted_iter {xml : Element} {cmgr : Option ℕ} {n : ExecNode} (h : xml.texted resolver = true)
    (hn : ExecNode.make resolver xml cmgr = .ok n) : IterTexted resolver n.iter := by
  obtain ⟨-, hevent, rfl, -⟩ := ExecNode.make_eq hn
  obtain ⟨hcond, hchildren⟩ := (Element.texted_iff _).mp h
  exact ⟨fun hassume => Element.condTexted_iff.mp hcond (hassume ▸ hevent), hchildren⟩

theorem iterTexted_next (s t : State P) (hs : ∀ i ∈ s.iters, IterTexted resolver i)
    (h : Next (step P resolver) s t) : ∀ i ∈ t.iters, IterTexted resolver i := by
  obtain ⟨node, nodes, children, iters, -, hi, hcase⟩ := next_cases h
  rw [hi, List.forall_mem_cons] at hs
  obtain ⟨hchildren, hiters⟩ := hs
  rcases hcase with ⟨-, _, -, rfl⟩ | ⟨-, -, rfl⟩ | ⟨-, xml, rest, made, hrest, hmade, rfl⟩
  · exact hiters
  · exact hiters
  · obtain ⟨cmgr, hn, -⟩ := ChildIter.getChild_make hmade
    rw [IterTexted, hrest, List.forall_mem_cons] at hchildren
    exact List.forall_mem_cons.mpr ⟨iterTexted_iter hchildren.2.1 hn,
      List.forall_mem_cons.mpr ⟨⟨hchildren.1, hchildren.2.2⟩, hiters⟩⟩

/-- **Where every condition has a text** no run leaks anything. -/
theorem not_leaks_of_texted {b : Bool} {xml : Element} {left : P.Left} {heap : Heap} {root : ExecNode}
    {s : State P} (h : xml.texted resolver = true) (hroot : ofElement resolver b xml = .ok (heap, root))
    (hs : Reach (step P resolver) (start left heap root) s) : ¬ Leaks s := by
  have hstart : IterTexted resolver root.iter := by
    obtain ⟨n, hn, heq⟩ := bind_eq_ok.mp hroot
    have hiter := iterTexted_iter h hn
    cases b <;> cases heq <;> exact hiter
  have hinv := hs.invariant iterTexted_next (List.forall_mem_singleton.mpr hstart)
  cases hi : s.iters.head? with
  | some i => exact not_leaks_of_head hi (hinv i (List.mem_of_head? hi)).1
  | none =>
    rintro ⟨node, nodes, children, iters, r, -, hiters, -⟩
    rw [hiters] at hi
    cases hi

/-- Every run of such a tree is one that leaks nothing. -/
theorem reachIn_of_texted {b : Bool} {xml : Element} {left : P.Left} {heap : Heap} {root : ExecNode}
    {s : State P} (h : xml.texted resolver = true) (hroot : ofElement resolver b xml = .ok (heap, root))
    (hs : Reach (step P resolver) (start left heap root) s) :
    ReachIn (step P resolver) (fun s => ¬ Leaks s) (start left heap root) s :=
  hs.reachIn fun _ => not_leaks_of_texted h hroot

end ExecTree

end Apisan
