/-
# What the checkers know is true

From the values of an execution to the verdict of a checker: the engine records
ranges that have the values (`Ento.Admits`), the extractor logs them, their print
is read back, and the constraint manager of a path keeps the first ones for each
symbol. So the constraints that a checker finds for a symbol have the value of a
symbolic expression with its text (`firstConstraint_confirms`), in every
execution that the state at the end of the path admits, and an argument that the
overflow checker calls correct is in range (`fileText_confirms`). This asks that
the events can be printed and the conditions have texts, and that the parser reads
the texts of the symbols that are logged (`Readable`).

Key definitions: `Readable`, `Confirms`.
Key theorems: `constraintOn_confirms`, `mem_parseFile`, `correct_confirms`,
`fileText_confirms`.
-/
import Apisan.Parse.Constraints
import Apisan.Extractor.Locations
import Apisan.Extractor.Paths
import Apisan.Check.Overflow

namespace Apisan

open Python Machine TextLines File

/-- The parser reads the texts of the symbols. -/
def Readable (L : Set Ento.SymExpr) : Prop := ∀ sym ∈ L, ∃ s, SParser.parse sym.dumpToStream = .ok (some s)

section

variable [StrHash] {L : Set Ento.SymExpr} {ρ : ℕ → ℤ}

/-- One of the symbolic expressions has a text that is read as an equal symbol,
and a value that `P` is true of. -/
def Confirms (L : Set Ento.SymExpr) (ρ : ℕ → ℤ) (s : Symbol) (P : ℤ → Prop) : Prop :=
  ∃ sym ∈ L, ∃ s', SParser.parse sym.dumpToStream = .ok (some s') ∧ s'.key = s.key ∧ P (sym.eval ρ)

theorem Confirms.mono {s : Symbol} {P Q : ℤ → Prop} (h : Confirms L ρ s P) (hPQ : ∀ v, P v → Q v) :
    Confirms L ρ s Q := by
  obtain ⟨sym, hsym, s', hparse, hkey, hP⟩ := h
  exact ⟨sym, hsym, s', hparse, hkey, hPQ _ hP⟩

/-- The value is in one of the intervals. -/
def Within (constraints : List (ℤ × ℤ)) (v : ℤ) : Prop := ∃ p ∈ constraints, p.1 ≤ v ∧ v ≤ p.2

omit [StrHash] in
/-- The constraint of a logged condition is the symbol's text, read, and the
ranges. -/
theorem constraint_condText {sym : Ento.SymExpr} {ranges : Ento.RangeSet} {s : Symbol} (hne : ranges ≠ [])
    (hparse : SParser.parse sym.dumpToStream = .ok (some s)) :
    (SymExecEvent.ofCond .assume (Ento.condText sym ranges)).toEvent.constraint = some (s, ranges.values) := by
  have hvalues : ranges.values ≠ [] := fun h => hne (List.map_eq_nil_iff.mp h)
  have hcond : SParser.parse (Ento.condText sym ranges) = .ok (some (.constraint s ranges.values)) := by
    rw [← Ento.getCond_values hne]
    exact parse_getCond hparse hvalues
  have htext : xmlText (Ento.condText sym ranges) = some (Ento.condText sym ranges) := by
    have hsome : (Ento.condText sym ranges).isEmpty = false := Ento.condText_isEmpty ranges
    rw [xmlText, if_neg]
    intro h
    rw [h] at hsome
    cases hsome
  have hsymbol : SParser.parseSymbol (Ento.condText sym ranges) = some (.constraint s ranges.values) := by
    unfold SParser.parseSymbol
    rw [hcond]
  have hevent : (SymExecEvent.ofCond .assume (Ento.condText sym ranges)).toEvent =
      .assume (some (some (Ento.condText sym ranges))) := congrArg (fun t => Event.assume (some t)) htext
  rw [hevent]
  simp only [Event.constraint, Event.ownCond, textSymbol, Option.bind_some, hsymbol]

/-- **What one event tells** of a symbol is true of the execution. -/
theorem constraintOn_confirms (hL : Readable L) {e : SymExecEvent} (he : e.kind = .assume → Ento.Shows L ρ e)
    {s : Symbol} {constraints : List (ℤ × ℤ)} (h : e.toEvent.constraintOn s = some constraints) :
    Confirms L ρ s (Within constraints) := by
  have hkind : e.kind = .assume := by
    obtain ⟨kind, code, sv⟩ := e
    cases kind with
    | assume => rfl
    | _ => cases h
  obtain ⟨sym, hsym, ranges, rfl, hvalue⟩ := he hkind
  obtain ⟨s', hparse⟩ := hL sym hsym
  have hne : ranges ≠ [] := by
    rintro rfl
    obtain ⟨i, hi, -⟩ := hvalue
    cases hi
  unfold Event.constraintOn at h
  rw [constraint_condText hne hparse] at h
  have hcases : (if s'.key = s.key then some ranges.values else none) = some constraints := h
  split_ifs at hcases with hkey
  obtain rfl := Option.some.inj hcases
  exact ⟨sym, hsym, s', hparse, hkey, hvalue⟩

/-- What the events of a path tell of a symbol. -/
theorem firstConstraint_confirms (hL : Readable L) {es : List SymExecEvent}
    (hes : ∀ e ∈ es, e.kind = .assume → Ento.Shows L ρ e) {s : Symbol} {constraints : List (ℤ × ℤ)}
    (h : firstConstraint (es.map SymExecEvent.toEvent) s = some constraints) :
    Confirms L ρ s (Within constraints) := by
  obtain ⟨event, hevent, hconstraint⟩ := List.exists_of_findSome?_eq_some h
  obtain ⟨e, he, rfl⟩ := List.mem_map.mp hevent
  exact constraintOn_confirms hL (hes e he) hconstraint

/-- **`Correct` can be trusted** with a manager whose constraints are true: the
argument is a nest around a symbol, and in range for the symbol's value. -/
theorem correct_confirms {m : ConstraintMgr}
    (hm : ∀ s constraints, m.get s = some constraints → Confirms L ρ s (Within constraints)) {arg : Symbol}
    (h : IntOvflChecker.checkIntegerOverflow (some m) arg IntOvflChecker.intLimit = .ok .correct) :
    ∃ (n : IntOvflChecker.Nest) (s : Symbol), arg = n.plug s ∧ IntOvflChecker.isBinary s = false ∧
      Confirms L ρ s fun v => IntOvflChecker.InRange (n.value v) := by
  obtain ⟨lo, hi, hinterval, hpasses⟩ := (IntOvflChecker.verdict arg _).1.mp h
  obtain ⟨hplug, hzero⟩ := IntOvflChecker.decompose_spec arg
  refine ⟨_, _, hplug, hinterval.1, (hm _ _ hinterval.2).mono fun v hv => ?_⟩
  obtain ⟨p, hp, hlo, hhi⟩ := hv
  obtain rfl := List.mem_singleton.mp hp
  exact ((IntOvflChecker.passes_iff hzero (hlo.trans hhi)).mp hpasses).2 v hlo hhi

/-! ### The managers of a file's paths -/

omit [StrHash] in
/-- A tree that a file yields is made of a child of a body that was read. -/
theorem mem_parseFile {resolver : Resolver} {b : Bool} {fromString : String → Option Element} {lines : List String}
    {tree : File.Tree} (h : tree ∈ (parseFile resolver b fromString lines).yields) :
    ∃ block ∈ File.blocks lines, ∃ xml, fromString (String.join block) = some xml ∧
      ∃ root ∈ xml.children, ExecTree.ofElement resolver b root = .ok tree := by
  rw [parseFile_eq, yields_readBlocks] at h
  obtain ⟨o, ho, hid⟩ := List.mem_filterMap.mp h
  obtain rfl : o = some tree := hid
  obtain ⟨block, hmem, hblock⟩ := List.mem_flatMap.mp ((List.takeWhile_sublist _).mem ho)
  unfold outcomes at hblock
  cases hxml : fromString (String.join block) with
  | none =>
    rw [hxml] at hblock
    cases List.mem_singleton.mp hblock
  | some xml =>
    rw [hxml] at hblock
    obtain ⟨root, hchild, hroot⟩ := List.mem_map.mp hblock
    refine ⟨block, hmem, xml, hxml, root, hchild, ?_⟩
    cases hmake : ExecTree.ofElement resolver b root with
    | error e =>
      rw [hmake] at hroot
      cases hroot
    | ok tree' =>
      rw [hmake] at hroot
      rw [Option.some.inj hroot]

/-- The sequences of a tree are those of the paths that it yields, and the
manager of a path has the first constraints on it. -/
theorem sequences_managers {xml : Element} {tree : File.Tree} {seqs : List (List Event)}
    (htree : ExecTree.ofElement noResolver true xml = .ok tree) (hseqs : File.sequences tree = some seqs) :
    ∃ yields, ExecTree.iterate noResolver tree.1 tree.2 = .done yields ∧
      ∀ y ∈ yields, y.nodes.map ExecNode.event ∈ seqs ∧ ∃ last r, y.nodes.getLast? = some last ∧ last.cmgr = some r ∧
        ∀ s, (y.heap.load r).get s = firstConstraint (y.nodes.map ExecNode.event) s := by
  unfold File.sequences at hseqs
  cases hiterate : ExecTree.iterate noResolver tree.1 tree.2 with
  | raised e yields =>
    rw [hiterate] at hseqs
    cases hseqs
  | done yields =>
    rw [hiterate] at hseqs
    obtain rfl := Option.some.inj hseqs
    refine ⟨yields, rfl, fun y hy => ⟨List.mem_map_of_mem hy, ?_⟩⟩
    obtain ⟨t, hreach, hyields⟩ := ExecTree.reach_of_done hiterate
    obtain ⟨last, r, hlast, hr, hget⟩ := (ExecTree.mgrInv_reach htree hreach).last_cmgr (hyields ▸ hy)
    exact ⟨last, r, hlast, hr, fun s => (hget s).1⟩

end

/-- The events that a path leaves are events of the state at its end. -/
theorem mem_newest {M : Type} {G : ExplodedGraph M} {q : List M} (hq : Simple G.Edge [] G.root q) {e : SymExecEvent}
    (he : e ∈ G.newest G.root q) : e ∈ G.events (q.getLastD G.root) := by
  obtain ⟨added, hevents, hsub, -, -⟩ := G.newest_spec q G.root hq.chain
  rw [hevents]
  exact List.mem_append_left _ (List.mem_reverse.mp (hsub.mem he))

section

variable [StrHash] {ι : Type} {N : ι → Type} [∀ i, DecidableEq (N i)] [∀ i, Fintype (N i)]
  (G : ∀ i, ExplodedGraph (N i)) (state : ∀ i, N i → Ento.ProgramState)

omit [StrHash] in
/-- The trees of a file with the reports of graphs are made of printed elements. -/
theorem printed_fileText {P : SymExecEvent → Prop} (b : Bool) (ns : Xml.Namespaces) {is : List ι}
    {before : ι → String} {after : String} (hprint : ∀ i ∈ is, ∀ n, ∀ e ∈ (G i).events n, e.Printable)
    (hP : ∀ i ∈ is, ∀ n, ∀ e ∈ (G i).events n, P e) (hbefore : ∀ i ∈ is, Silent (before i ++ "\n"))
    (hafter : Silent after) {tree : File.Tree}
    (htree : tree ∈ (parseFile noResolver b (Xml.read Element.mk ns)
      (textLines (fileText (is.map fun i => (before i, (G i).print)) after))).yields) :
    ∃ x, Printed P x ∧ ExecTree.ofElement noResolver b x.spaced = .ok tree := by
  have hreports : ∀ x ∈ is.map fun i => (before i, (G i).print),
      Silent (x.1 ++ "\n") ∧ ∀ e, .event e ∈ x.2 → e.Printable := by
    intro x hx
    obtain ⟨i, hi, rfl⟩ := List.mem_map.mp hx
    exact ⟨hbefore i hi, (G i).printable_print (hprint i hi)⟩
  obtain ⟨block, hblock, xml, hxml, root, hroot, hmake⟩ := mem_parseFile htree
  rw [blocks_fileText hafter hreports, List.map_map] at hblock
  obtain ⟨i, hi, rfl⟩ := List.mem_map.mp hblock
  have hprinti := (G i).printable_print (hprint i hi)
  obtain ⟨es, hes, hprinted⟩ := (G i).printed_print (hP i hi)
  rw [Function.comp_apply, join_textLines (clean_bodyText hprinti).1.newlines, read_body ns hprinti hes] at hxml
  obtain rfl := Option.some.inj hxml
  obtain ⟨x, hx, rfl⟩ := List.mem_map.mp hroot
  exact ⟨x, hprinted x hx, hmake⟩

end

/-- `x` is positive. -/
def positiveCond : Ento.NonLoc := .symbolVal (.symInt Ento.paramX .gt (Ento.intValue 0) Ento.intType)

/-- The states of a function that goes on if `x` is positive, and ends. -/
def positiveState : Fin 3 → Ento.ProgramState :=
  let positive := (Ento.assume (.integer 64 false) .initial positiveCond true).getD .initial
  fun
    | 0 => .initial
    | 1 => positive
    | 2 => positive.addEvent (.ofKind .eop)

theorem positiveState_succ (u v : Fin 3) (hv : v ∈ ExplodedGraph.switchGraph.succs u) :
    ∃ new, (positiveState v).eventList = new ++ (positiveState u).eventList :=
  match u, v, hv with
  | 0, _, .head _ => ⟨_, (List.append_nil _).symm⟩
  | 1, _, .head _ => ⟨[.ofKind .eop], rfl⟩
  | 2, _, hv => (List.not_mem_nil hv).elim

theorem positiveState_last : ∀ n, ∀ e ∈ (positiveState n).eventList.tail, e.kind ≠ .eop := by
  decide +kernel

def positiveGraph : ExplodedGraph (Fin 3) where
  root := ExplodedGraph.switchGraph.root
  succs := ExplodedGraph.switchGraph.succs
  events n := (positiveState n).eventList
  events_root := rfl
  events_succ := positiveState_succ
  eop_last n _ := positiveState_last n

theorem positiveState_admits (n : Fin 3) : Ento.Admits {Ento.paramX} (fun _ => 2) (positiveState n) := by
  have hinitial : Ento.Admits {Ento.paramX} (fun _ => 2) .initial := .initial
  have hmeant : positiveCond.Meant (.integer 64 false) fun _ => 2 := Ento.meant_paramX rfl
  have hlogged : ∀ sym ∈ positiveCond.logged, sym ∈ ({Ento.paramX} : Set Ento.SymExpr) :=
    fun sym hsym => List.mem_singleton.mp hsym
  have htrue : positiveCond.eval (fun _ => 2) ≠ 0 ↔ true = true := by decide +kernel
  obtain ⟨state, hassume, hadmits⟩ := Ento.assume_admits hinitial hmeant hlogged htrue
  have hpositive : Ento.Admits {Ento.paramX} (fun _ => 2)
      ((Ento.assume (.integer 64 false) .initial positiveCond true).getD .initial) := by
    rw [hassume]
    exact hadmits
  match n with
  | 0 => exact hinitial
  | 1 => exact hpositive
  | 2 => exact hpositive.addEvent fun h => by cases h

end Apisan
