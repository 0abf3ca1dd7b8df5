/-
# Trees of events and their paths

A node of the tree wraps an element of the database, with its parsed event
and a reference to a constraint manager (`explorer.py`). Nodes are made when
an iterator over the children of a node is asked for the next one; a node
shares its parent's manager, unless the parent's event adds a constraint: then
the manager is copied and the copy is written.

`ExecTree.step` is the loop of `ExecTree.__iter__`, with its two stacks and
the managers as objects of a heap; a yield records the nodes and the heap of
its moment. The condition of an event is parsed when the first child of its node
is asked for, by the parser that all events share: what that has left unread goes
through the loop, and through the hands of whoever takes the paths
(`TextParser.shared`). Where every condition has a text the loop is that of
`TextParser.texts`, in which a condition is what its own text says.

Key definitions: `ConstraintMgr`, `ExecNode`, `TextParser`, `childMgr`,
`ChildIter.getChild`, `ExecTree.step`, `ExecTree.iterateFrom`,
`ExecTree.iterate`.
Key theorems: `ChildIter.getChild_eq`, `ExecTree.next_cases`,
`ExecTree.run_total`.
-/
import Mathlib.Algebra.BigOperators.Group.List.Basic
import Mathlib.Algebra.GroupWithZero.Nat
import Apisan.Lib.Machine
import Apisan.Lib.Dict
import Apisan.Parse.Event

namespace Apisan

open Python Machine

/-- The constraints of a `ConstraintMgr`, by the key of the symbol. -/
abbrev ConstraintMgr := Dict ℤ (List (ℤ × ℤ))

/-- The constraint managers made so far; a reference is a position. -/
abbrev Heap := List ConstraintMgr

/-- A node; `cmgr` is `none` where constraints are not parsed. -/
structure ExecNode where
  node : Element
  event : Event
  cmgr : Option ℕ

namespace Element

mutual

/-- The number of elements in the tree of an element. -/
def size : Element → ℕ
  | .mk _ _ children => 1 + sizes children

def sizes : List Element → ℕ
  | [] => 0
  | c :: cs => size c + sizes cs

end

theorem sizes_filter_le (p : Element → Bool) : ∀ es : List Element, sizes (es.filter p) ≤ sizes es
  | [] => Nat.le_refl _
  | e :: es => by
    have := sizes_filter_le p es
    rw [List.filter_cons]
    split_ifs <;> simp only [sizes] <;> omega

theorem size_findall (e : Element) (tag : String) : sizes (e.findall tag) + 1 ≤ size e := by
  obtain ⟨t, x, cs⟩ := e
  have := sizes_filter_le (fun c => c.tag == tag) cs
  simp only [Element.findall, Element.children, size]
  omega

end Element

/-- `ConstraintMgr.get`. -/
def ConstraintMgr.get [StrHash] (m : ConstraintMgr) (sym : Symbol) : Option (List (ℤ × ℤ)) :=
  m.get? sym.key

namespace Heap

/-- A new object. -/
def alloc (h : Heap) (m : ConstraintMgr) : Heap × ℕ := (h ++ [m], h.length)

/-- The object of a reference. -/
def load (h : Heap) (r : ℕ) : ConstraintMgr := h.getD r .empty

/-- Write the object of a reference. -/
def store (h : Heap) (r : ℕ) (m : ConstraintMgr) : Heap := h.set r m

/-- A heap that grows keeps its objects. -/
theorem load_mono {h h' : Heap} (hh : h <+: h') {r : ℕ} (hr : r < h.length) : h'.load r = h.load r := by
  obtain ⟨ms, rfl⟩ := hh
  simp [load, List.getElem?_append_left hr]

end Heap

namespace ExecNode

/-- `ExecNode.__init__`. -/
def make (resolver : Resolver) (node : Element) (cmgr : Option ℕ) : Except Error ExecNode :=
  if node.tag ≠ "NODE" then .error .assertionError
  else do
    let event ← parseEvent resolver (node.find "EVENT")
    .ok ⟨node, event, cmgr⟩

theorem make_eq {resolver : Resolver} {xml : Element} {cmgr : Option ℕ} {n : ExecNode}
    (h : make resolver xml cmgr = .ok n) :
    xml.tag = "NODE" ∧ parseEvent resolver (xml.find "EVENT") = .ok n.event ∧
      n.node = xml ∧ n.cmgr = cmgr := by
  unfold make at h
  split_ifs at h with htag
  cases hev : parseEvent resolver (xml.find "EVENT") with
  | error e => rw [hev] at h; cases h
  | ok ev =>
    rw [hev] at h
    cases h
    exact ⟨not_not.mp htag, rfl, rfl, rfl⟩

/-- `is_eop`. -/
def isEop (n : ExecNode) : Bool := n.event.isEop

end ExecNode

/-- An iterator over the children of a node (`ExecNode.__iter__`): the node, the
elements still to come, and the condition of the node's event once it was parsed
(`LazyParse`). -/
structure ChildIter where
  owner : ExecNode
  rest : List Element
  cond : Option (Option Symbol)

/-- `iter(node)`. -/
def ExecNode.iter (n : ExecNode) : ChildIter := ⟨n, n.node.findall "NODE", none⟩

/-- A path as it is yielded, and the heap at that moment. -/
structure Yielded where
  nodes : List ExecNode
  heap : Heap

/-- How the conditions of a tree are parsed. `Left` is what the parser has left
unread; the consumer of the paths may change it by parsing texts of its own
between two of them (`consume`, on all the paths it has got so far). -/
structure TextParser where
  Left : Type
  parse : Left → Option String → Option Symbol × Left
  consume : List Yielded → Left → Left

namespace TextParser

/-- Each text by itself. -/
def texts : TextParser := ⟨Unit, fun _ text => (textSymbol text, ()), fun _ _ => ()⟩

/-- The parser that all events share (`parser` of `event.py`). -/
def shared (consume : List Yielded → SParser.Unread → SParser.Unread) : TextParser :=
  ⟨SParser.Unread, parseText, consume⟩

end TextParser

section

variable [StrHash]

/-- The manager for the children of a node: a new one if the condition of its
event is a constraint on a symbol that has none. -/
def childMgr (h : Heap) (r : ℕ) (cond : Option Symbol) : Heap × ℕ :=
  match cond with
  | some (.constraint symbol constraints) =>
    if (h.load r).contains symbol.key then (h, r)
    else
      let (h', r') := h.alloc (h.load r)
      (h'.store r' ((h'.load r').set symbol.key constraints), r')
  | _ => (h, r)

/-- The condition is a constraint that the manager does not have. -/
def Constrains (h : Heap) (r : ℕ) (cond : Option Symbol) : Prop :=
  ∃ symbol constraints, cond = some (.constraint symbol constraints) ∧
    (h.load r).contains symbol.key = false

theorem childMgr_of_constrains {h : Heap} {r : ℕ} {symbol : Symbol} {constraints : List (ℤ × ℤ)}
    (hnew : (h.load r).contains symbol.key = false) :
    childMgr h r (some (.constraint symbol constraints)) =
      (h ++ [(h.load r).set symbol.key constraints], h.length) := by
  have hset : ∀ m m' : ConstraintMgr, (h ++ [m]).set h.length m' = h ++ [m'] := by simp
  have hload : ∀ m : ConstraintMgr, Heap.load (h ++ [m]) h.length = m := by simp [Heap.load]
  simp only [childMgr, hnew, Bool.false_eq_true, if_false, Heap.alloc, Heap.store, hset, hload]

theorem childMgr_of_not_constrains {h : Heap} {r : ℕ} {cond : Option Symbol} (hnot : ¬ Constrains h r cond) :
    childMgr h r cond = (h, r) := by
  unfold childMgr
  split
  · rename_i symbol constraints
    rw [if_pos]
    exact Bool.not_eq_false _ ▸ fun hno => hnot ⟨symbol, constraints, rfl, hno⟩
  · rfl

theorem childMgr_mono (h : Heap) (r : ℕ) (cond : Option Symbol) : h <+: (childMgr h r cond).1 := by
  by_cases hc : Constrains h r cond
  · obtain ⟨symbol, constraints, rfl, hnew⟩ := hc
    rw [childMgr_of_constrains hnew]
    exact List.prefix_append _ _
  · rw [childMgr_of_not_constrains hc]

/-- What a manager has it keeps. -/
theorem Constrains.anti {h h' : Heap} (hh : h <+: h') {r : ℕ} {cond : Option Symbol}
    (hc : Constrains h' r cond) : Constrains h r cond := by
  obtain ⟨symbol, constraints, rfl, hnew⟩ := hc
  refine ⟨symbol, constraints, rfl, ?_⟩
  by_cases hr : r < h.length
  · rw [← Heap.load_mono hh hr]
    exact hnew
  · simp [Heap.load, List.getElem?_eq_none (Nat.le_of_not_lt hr), Dict.contains]

end

namespace ChildIter

/-- The condition of the node's event, which is parsed the first time it is asked
for, and what the parser has left then. Only an assume event has one. -/
def getCond (P : TextParser) (left : P.Left) (children : ChildIter) :
    Except Error (Option Symbol × P.Left) :=
  match children.cond with
  | some symbol => .ok (symbol, left)
  | none =>
    match children.owner.event with
    | .assume text => do
      let text ← getAttribute text
      .ok (P.parse left text)
    | _ => .ok (none, left)

variable [StrHash]

/-- A child that was made, and what making it leaves: the parser, the heap and
the condition of the parent's event. -/
structure Made (P : TextParser) where
  left : P.Left
  heap : Heap
  cond : Option (Option Symbol)
  child : ExecNode

/-- `ExecNode._get_child`. -/
def getChild (P : TextParser) (resolver : Resolver) (left : P.Left) (h : Heap) (children : ChildIter)
    (xml : Element) : Except Error (Made P) :=
  match children.owner.cmgr with
  | none => do
    let child ← ExecNode.make resolver xml none
    .ok ⟨left, h, children.cond, child⟩
  | some r => do
    let (cond, left) ← children.getCond P left
    let (h', r') := childMgr h r cond
    let child ← ExecNode.make resolver xml (some r')
    .ok ⟨left, h', some cond, child⟩

/-- **What making a child does**, without and with constraints. -/
theorem getChild_eq {P : TextParser} {resolver : Resolver} {left : P.Left} {h : Heap}
    {children : ChildIter} {xml : Element} {m : Made P}
    (hc : children.getChild P resolver left h xml = .ok m) :
    (children.owner.cmgr = none ∧ ExecNode.make resolver xml none = .ok m.child ∧
        m.left = left ∧ m.heap = h ∧ m.cond = children.cond) ∨
      ∃ r cond, children.owner.cmgr = some r ∧ children.getCond P left = .ok (cond, m.left) ∧
        ExecNode.make resolver xml (some (childMgr h r cond).2) = .ok m.child ∧
        m.heap = (childMgr h r cond).1 ∧ m.cond = some cond := by
  unfold getChild at hc
  split at hc
  · rename_i hr
    obtain ⟨n, hn, heq⟩ := bind_eq_ok.mp hc
    cases heq
    exact .inl ⟨hr, hn, rfl, rfl, rfl⟩
  · rename_i r hr
    obtain ⟨⟨cond, left'⟩, hcond, heq⟩ := bind_eq_ok.mp hc
    obtain ⟨n, hn, heq⟩ := bind_eq_ok.mp heq
    cases heq
    exact .inr ⟨r, cond, hr, hcond, hn, rfl, rfl⟩

/-- The child is made of its element, with some manager if its parent has one. -/
theorem getChild_make {P : TextParser} {resolver : Resolver} {left : P.Left} {h : Heap}
    {children : ChildIter} {xml : Element} {m : Made P}
    (hc : children.getChild P resolver left h xml = .ok m) :
    ∃ cmgr, ExecNode.make resolver xml cmgr = .ok m.child ∧ (cmgr.isSome → children.owner.cmgr.isSome) := by
  rcases getChild_eq hc with ⟨-, hm, -⟩ | ⟨r, cond, hr, -, hm, -⟩
  · exact ⟨none, hm, nofun⟩
  · exact ⟨some _, hm, fun _ => by rw [hr]; rfl⟩

end ChildIter

namespace ExecTree

variable [StrHash]

/-- The loop of `__iter__`: what the parser has left, the managers, both stacks,
top first, and what was yielded. -/
structure State (P : TextParser) where
  left : P.Left
  heap : Heap
  nodes : List ExecNode
  iters : List ChildIter
  yields : List Yielded

/-- How the loop ends. -/
inductive Outcome
  | done (yields : List Yielded)
  | raised (e : Error) (yields : List Yielded)

/-- One round of the loop. -/
def step (P : TextParser) (resolver : Resolver) (s : State P) : State P ⊕ Outcome :=
  match s.nodes, s.iters with
  | [], _ => .inr (.done s.yields)
  | _ :: _, [] => .inr (.raised .indexError s.yields)
  | node :: nodes, children :: iters =>
    if node.isEop then
      let yields := s.yields ++ [⟨(node :: nodes).reverse, s.heap⟩]
      .inl ⟨P.consume yields s.left, s.heap, nodes, iters, yields⟩
    else
      match children.rest with
      | [] => .inl { s with nodes := nodes, iters := iters }
      | xml :: rest =>
        match children.getChild P resolver s.left s.heap xml with
        | .error e => .inr (.raised e s.yields)
        | .ok made =>
          .inl ⟨made.left, made.heap, made.child :: node :: nodes,
            made.child.iter :: ⟨children.owner, rest, made.cond⟩ :: iters, s.yields⟩

/-- The start of the loop. -/
def start {P : TextParser} (left : P.Left) (heap : Heap) (root : ExecNode) : State P :=
  ⟨left, heap, [root], [root.iter], []⟩

/-! ### The loop ends -/

variable {P : TextParser}

/-- What is left to do: the nodes on the stack, and two rounds for each node
still to come. -/
def measure (s : State P) : ℕ := s.nodes.length + 2 * (s.iters.map fun i => Element.sizes i.rest).sum

/-- **What a round can do.** It yields the path to an EOP node and drops the
node, drops a node without further children, or goes to the next child. -/
theorem next_cases {resolver : Resolver} {s t : State P} (h : Next (step P resolver) s t) :
    ∃ node nodes children iters, s.nodes = node :: nodes ∧ s.iters = children :: iters ∧
      ((node.isEop = true ∧ ∃ yields, yields = s.yields ++ [⟨(node :: nodes).reverse, s.heap⟩] ∧
          t = ⟨P.consume yields s.left, s.heap, nodes, iters, yields⟩) ∨
        (node.isEop = false ∧ children.rest = [] ∧ t = ⟨s.left, s.heap, nodes, iters, s.yields⟩) ∨
        (node.isEop = false ∧ ∃ xml rest made, children.rest = xml :: rest ∧
          children.getChild P resolver s.left s.heap xml = .ok made ∧
          t = ⟨made.left, made.heap, made.child :: node :: nodes,
            made.child.iter :: ⟨children.owner, rest, made.cond⟩ :: iters, s.yields⟩)) := by
  obtain ⟨left, heap, nodes, iters, yields⟩ := s
  unfold Next step at h
  cases nodes with
  | nil => cases h
  | cons node nodes =>
    cases iters with
    | nil => cases h
    | cons children iters =>
      refine ⟨node, nodes, children, iters, rfl, rfl, ?_⟩
      simp only at h
      split_ifs at h with heop
      · exact .inl ⟨heop, _, rfl, (Sum.inl.inj h).symm⟩
      · have heop : node.isEop = false := by simpa using heop
        split at h
        · exact .inr (.inl ⟨heop, ‹_›, (Sum.inl.inj h).symm⟩)
        · rename_i xml rest hrest
          split at h
          · cases h
          · rename_i made hmade
            exact .inr (.inr ⟨heop, xml, rest, made, hrest, hmade, (Sum.inl.inj h).symm⟩)

section

variable {resolver : Resolver} {left : P.Left} {heap : Heap} {node : ExecNode} {nodes : List ExecNode}
variable {children : ChildIter} {iters : List ChildIter} {yields : List Yielded}

theorem next_yield (heop : node.isEop = true) :
    Next (step P resolver) ⟨left, heap, node :: nodes, children :: iters, yields⟩
      ⟨P.consume (yields ++ [⟨(node :: nodes).reverse, heap⟩]) left, heap, nodes, iters,
        yields ++ [⟨(node :: nodes).reverse, heap⟩]⟩ := by
  simp only [Next, step, heop, if_true]

theorem next_drop (heop : node.isEop = false) (hrest : children.rest = []) :
    Next (step P resolver) ⟨left, heap, node :: nodes, children :: iters, yields⟩
      ⟨left, heap, nodes, iters, yields⟩ := by
  simp only [Next, step, heop, hrest, Bool.false_eq_true, if_false]

theorem next_child {xml : Element} {rest : List Element} {made : ChildIter.Made P}
    (heop : node.isEop = false) (hrest : children.rest = xml :: rest)
    (hmade : children.getChild P resolver left heap xml = .ok made) :
    Next (step P resolver) ⟨left, heap, node :: nodes, children :: iters, yields⟩
      ⟨made.left, made.heap, made.child :: node :: nodes,
        made.child.iter :: ⟨children.owner, rest, made.cond⟩ :: iters, yields⟩ := by
  simp only [Next, step, heop, hrest, hmade, Bool.false_eq_true, if_false]

theorem halt_raise {xml : Element} {rest : List Element} {e : Error}
    (heop : node.isEop = false) (hrest : children.rest = xml :: rest)
    (herror : children.getChild P resolver left heap xml = .error e) :
    step P resolver ⟨left, heap, node :: nodes, children :: iters, yields⟩ = .inr (.raised e yields) := by
  simp only [step, heop, hrest, herror, Bool.false_eq_true, if_false]

end

/-- **How the loop stops**: with nothing left on the stack, or at an exception. -/
theorem halt_cases {resolver : Resolver} {s : State P} {yields : List Yielded}
    (h : step P resolver s = .inr (.done yields)) : s.nodes = [] ∧ s.yields = yields := by
  obtain ⟨left, heap, nodes, iters, yields'⟩ := s
  unfold step at h
  cases nodes with
  | nil =>
    cases h
    exact ⟨rfl, rfl⟩
  | cons node nodes =>
    cases iters with
    | nil => cases h
    | cons children iters =>
      simp only at h
      split_ifs at h
      split at h
      · cases h
      · split at h <;> cases h

theorem measure_lt (resolver : Resolver) (s t : State P) (h : Next (step P resolver) s t) :
    measure t < measure s := by
  obtain ⟨node, nodes, children, iters, hn, hi, hcase⟩ := next_cases h
  rcases hcase with ⟨-, _, -, rfl⟩ | ⟨-, -, rfl⟩ | ⟨-, xml, rest, made, hrest, hmade, rfl⟩
  · simp only [measure, hn, hi, List.length_cons, List.map_cons, List.sum_cons]
    omega
  · simp only [measure, hn, hi, List.length_cons, List.map_cons, List.sum_cons]
    omega
  · obtain ⟨cmgr, hm, -⟩ := ChildIter.getChild_make hmade
    have hnode : made.child.node = xml := (ExecNode.make_eq hm).2.2.1
    have := Element.size_findall xml "NODE"
    simp only [measure, hn, hi, hrest, ExecNode.iter, hnode, List.length_cons, List.map_cons,
      List.sum_cons, Element.sizes]
    omega

variable (P) in
/-- What iterating the tree yields, and how it ends. -/
def iterateFrom (left : P.Left) (resolver : Resolver) (heap : Heap) (root : ExecNode) : Outcome :=
  (run (step P resolver) (measure (start left heap root) + 1) (start left heap root)).getD (.done [])

/-- **Iterating ends**, on every tree. -/
theorem run_total (left : P.Left) (resolver : Resolver) (heap : Heap) (root : ExecNode) :
    run (step P resolver) (measure (start left heap root) + 1) (start left heap root) =
      some (iterateFrom P left resolver heap root) := by
  obtain ⟨r, hr⟩ := run_of_measure measure (measure_lt resolver)
    (Nat.lt_succ_self (measure (start left heap root)))
  simp [iterateFrom, hr]

/-- A tree whose conditions all say by themselves what they are. -/
def iterate (resolver : Resolver) (heap : Heap) (root : ExecNode) : Outcome :=
  iterateFrom .texts () resolver heap root

/-- An iteration that ends has a run to a state with what it yielded. -/
theorem reach_of_done {left : P.Left} {resolver : Resolver} {heap : Heap} {root : ExecNode}
    {yields : List Yielded} (h : iterateFrom P left resolver heap root = .done yields) :
    ∃ s, Reach (step P resolver) (start left heap root) s ∧ s.yields = yields := by
  obtain ⟨s, hreach, hstep⟩ := exists_reach_of_run (run_total left resolver heap root)
  rw [h] at hstep
  exact ⟨s, hreach, (halt_cases hstep).2⟩

/-- The tree of an element of the database (`parse_file`): its root, which
starts with an empty constraint manager if constraints are parsed. -/
def ofElement (resolver : Resolver) (parseConstraints : Bool) (xml : Element) :
    Except Error (Heap × ExecNode) := do
  let root ← ExecNode.make resolver xml none
  if parseConstraints then
    let (heap, r) := Heap.alloc [] .empty
    .ok (heap, { root with cmgr := some r })
  else .ok ([], root)

end ExecTree

end Apisan
