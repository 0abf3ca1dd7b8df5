/-
# The text of a report

A report is the print of a graph between two marker lines; a database file has
the reports of its functions, with anything between them. The analyzer reads the
file line by line, keeps the lines between the markers, reads these as a
document, and iterates the trees in it. The text of a report reads as the
elements that the pieces stand for, spaced out by the line ends between the tags
(`read_body`), and the spaces change nothing in what is shown
(`sequences_spaced`).

Key definitions: `Piece.text`, `reportText`, `Element.spaced`, `File.sequences`,
`SymExecEvent.Printable`.
Key theorems: `exists_parts`, `read_body`, `sequences_spaced`.
-/
import Apisan.Lib.Markup
import Apisan.Lib.TextLines
import Apisan.Parse.File
import Apisan.Extractor.Fidelity
import Apisan.Extractor.EventXml

namespace Apisan

open Python TextLines

/-! ### What is written -/

/-- What `dumpTree` writes for a piece. -/
def Piece.text : Piece → String
  | openNode => "<NODE>\n"
  | event e => "<EVENT>\n" ++ e.getAsString ++ "\n" ++ "</EVENT>\n"
  | closeNode => "</NODE>\n"

/-- The text between the marker lines. -/
def bodyText (pieces : List Piece) : String :=
  "<TREE>\n" ++ String.join (pieces.map Piece.text) ++ "</TREE>\n" ++ "\n"

/-- The report of `checkEndAnalysis`, for what `dumpTree` wrote. -/
def reportText (pieces : List Piece) : String :=
  "\n@SYM_EXEC_EXTRACTOR_BEGIN\n" ++ bodyText pieces ++ "@SYM_EXEC_EXTRACTOR_END\n"

/-! ### Line ends between tags -/

namespace Element

mutual

/-- The element with a line end after the start tags of nodes and events. -/
def spaced : Element → Element
  | .mk tag text children =>
    .mk tag (if tag = "NODE" ∨ tag = "EVENT" then some "\n" else text) (spacedAll children)

def spacedAll : List Element → List Element
  | [] => []
  | e :: es => e.spaced :: spacedAll es

end

theorem spacedAll_eq : ∀ es : List Element, spacedAll es = es.map spaced
  | [] => rfl
  | e :: es => by rw [spacedAll, List.map_cons, spacedAll_eq es]

@[simp] theorem tag_spaced (e : Element) : e.spaced.tag = e.tag := by
  cases e
  rw [spaced]
  rfl

@[simp] theorem children_spaced (e : Element) : e.spaced.children = e.children.map spaced := by
  cases e
  rw [spaced]
  exact spacedAll_eq _

theorem text_spaced {e : Element} (h : e.tag ≠ "NODE") (h' : e.tag ≠ "EVENT") : e.spaced.text = e.text := by
  cases e
  rw [spaced]
  exact if_neg (not_or.mpr ⟨h, h'⟩)

theorem find_spaced (e : Element) (tag : String) : e.spaced.find tag = (e.find tag).map spaced := by
  unfold find
  rw [children_spaced, List.find?_map]
  have hcomp : (fun c : Element => c.tag == tag) ∘ spaced = fun c => c.tag == tag := by
    funext c
    simp
  rw [hcomp]

end Element

section

variable (resolver : Resolver)

theorem checkKind_spaced {α : Type} (kind : EventKind) {child : Element} (h : child.tag = "KIND") (a : α) :
    checkKind kind child.spaced a = checkKind kind child a := by
  unfold checkKind
  rw [Element.text_spaced (by rw [h]; decide) (by rw [h]; decide)]

theorem callChild_spaced (kind : EventKind) (tag : String) (htag : tag ≠ "NODE" ∧ tag ≠ "EVENT")
    (a : CallAttributes) (child : Element) :
    callChild kind tag resolver a child.spaced = callChild kind tag resolver a child := by
  unfold callChild
  rw [Element.tag_spaced]
  by_cases hkind : child.tag = "KIND"
  · rw [if_pos hkind, if_pos hkind, checkKind_spaced kind hkind]
  · rw [if_neg hkind, if_neg hkind]
    by_cases hcall : child.tag = tag
    · rw [if_pos hcall, if_pos hcall, Element.text_spaced (hcall ▸ htag.1) (hcall ▸ htag.2)]
    · rw [if_neg hcall, if_neg hcall]
      by_cases hcode : child.tag = "CODE"
      · rw [if_pos hcode, if_pos hcode, Element.text_spaced (by rw [hcode]; decide) (by rw [hcode]; decide)]
      · rw [if_neg hcode, if_neg hcode]

theorem locationChild_spaced (a : Option (Option String) × Option (Option String)) (child : Element) :
    locationChild resolver a child.spaced = locationChild resolver a child := by
  unfold locationChild
  rw [Element.tag_spaced]
  by_cases hkind : child.tag = "KIND"
  · rw [if_pos hkind, if_pos hkind, checkKind_spaced .location hkind]
  · rw [if_neg hkind, if_neg hkind]
    by_cases hloc : child.tag = "LOC"
    · rw [if_pos hloc, if_pos hloc]
    · rw [if_neg hloc, if_neg hloc]
      by_cases htype : child.tag = "TYPE"
      · rw [if_pos htype, if_pos htype, Element.text_spaced (by rw [htype]; decide) (by rw [htype]; decide)]
      · rw [if_neg htype, if_neg htype]
        by_cases hcode : child.tag = "CODE"
        · rw [if_pos hcode, if_pos hcode, Element.text_spaced (by rw [hcode]; decide) (by rw [hcode]; decide)]
        · rw [if_neg hcode, if_neg hcode]

theorem assumeChild_spaced (a : Option (Option String)) (child : Element) :
    assumeChild a child.spaced = assumeChild a child := by
  unfold assumeChild
  rw [Element.tag_spaced]
  by_cases hkind : child.tag = "KIND"
  · rw [if_pos hkind, if_pos hkind, checkKind_spaced .assume hkind]
  · rw [if_neg hkind, if_neg hkind]
    by_cases hcond : child.tag = "COND"
    · rw [if_pos hcond, if_pos hcond, Element.text_spaced (by rw [hcond]; decide) (by rw [hcond]; decide)]
    · rw [if_neg hcond, if_neg hcond]

/-- **The spaces are in no event.** -/
theorem parseEvent_spaced (e : Element) :
    ExecNode.parseEvent resolver (some e.spaced) = ExecNode.parseEvent resolver (some e) := by
  have hcall : callEvent e.spaced resolver = callEvent e resolver := by
    unfold callEvent
    rw [Element.children_spaced, List.foldlM_map]
    simp only [callChild_spaced resolver .call "CALL" (by decide)]
  have hret : returnEvent e.spaced resolver = returnEvent e resolver := by
    unfold returnEvent
    rw [Element.children_spaced, List.foldlM_map]
    simp only [callChild_spaced resolver .ret "RETURN" (by decide)]
  have hlocation : locationEvent e.spaced resolver = locationEvent e resolver := by
    unfold locationEvent
    rw [Element.children_spaced, List.foldlM_map]
    simp only [locationChild_spaced resolver]
  have hassume : assumeEvent e.spaced = assumeEvent e := by
    unfold assumeEvent
    rw [Element.children_spaced, List.foldlM_map]
    simp only [assumeChild_spaced]
  have heop : eopEvent e.spaced = eopEvent e := by
    unfold eopEvent
    rw [Element.children_spaced, List.foldlM_map]
    congr 1
    funext a child
    rw [Element.tag_spaced]
    by_cases hkind : child.tag = "KIND"
    · rw [if_pos hkind, if_pos hkind, checkKind_spaced .eop hkind]
    · rw [if_neg hkind, if_neg hkind]
  unfold ExecNode.parseEvent
  simp only [Element.children_spaced]
  cases hchildren : e.children with
  | nil => rfl
  | cons kind rest =>
    simp only [List.map_cons, Element.tag_spaced]
    by_cases hkind : kind.tag = "KIND"
    · rw [if_neg (not_not.mpr hkind), if_neg (not_not.mpr hkind),
        Element.text_spaced (by rw [hkind]; decide) (by rw [hkind]; decide), hcall, hret, hlocation, heop, hassume]
    · rw [if_pos hkind, if_pos hkind]

end

/-! ### Paths of spaced elements -/

namespace Element

variable {resolver : Resolver}

theorem parseEvent_find_spaced (e : Element) :
    ExecNode.parseEvent resolver (e.spaced.find "EVENT") = ExecNode.parseEvent resolver (e.find "EVENT") := by
  rw [find_spaced]
  cases e.find "EVENT" with
  | none => rfl
  | some event => exact parseEvent_spaced resolver event

theorem eventParses_spaced (b : Bool) (e : Element) :
    eventParses resolver b e.spaced = eventParses resolver b e := by
  unfold eventParses
  rw [parseEvent_find_spaced]

theorem isEop_spaced (e : Element) : isEop resolver e.spaced = isEop resolver e := by
  unfold isEop
  rw [parseEvent_find_spaced]

mutual

theorem parseable_spaced (b : Bool) : ∀ e : Element, parseable resolver b e.spaced = parseable resolver b e
  | .mk tag text children => by
    have hevent : eventParses resolver b (Element.mk tag text children).spaced = _ := eventParses_spaced b _
    rw [spaced] at hevent ⊢
    rw [parseable, parseable, hevent, parseables_spaced b children]

theorem parseables_spaced (b : Bool) : ∀ es : List Element,
    parseables resolver b (spacedAll es) = parseables resolver b es
  | [] => rfl
  | e :: es => by
    rw [spacedAll, parseables, parseables, tag_spaced, parseable_spaced b e, parseables_spaced b es]

end

mutual

theorem paths_spaced : ∀ e : Element, paths resolver e.spaced = (paths resolver e).map (List.map spaced)
  | .mk tag text children => by
    have hpaths : pathsFrom resolver (Element.mk tag text children).spaced.children =
        (pathsFrom resolver children).map (List.map spaced) := by
      rw [children_spaced, ← spacedAll_eq]
      exact pathsFrom_spaced children
    rw [paths_eq, paths_eq, isEop_spaced, hpaths]
    split_ifs
    · rfl
    · rw [List.map_map, List.map_map]
      rfl

theorem pathsFrom_spaced : ∀ es : List Element,
    pathsFrom resolver (spacedAll es) = (pathsFrom resolver es).map (List.map spaced)
  | [] => by
    rw [spacedAll, pathsFrom]
    rfl
  | e :: es => by
    rw [spacedAll, pathsFrom, pathsFrom, tag_spaced, paths_spaced e, pathsFrom_spaced es]
    split_ifs
    · rw [List.map_append]
    · rfl

end

/-- The events that elements show. -/
def shown (p : List Element) : List Event :=
  p.filterMap fun e => (ExecNode.parseEvent noResolver (e.find "EVENT")).toOption

theorem shown_spaced (p : List Element) : shown (p.map spaced) = shown p := by
  unfold shown
  rw [List.filterMap_map]
  congr 1
  funext e
  exact congrArg Except.toOption e.parseEvent_find_spaced

end Element

section

variable [StrHash]

/-- The sequences of a tree that was read. -/
def File.sequences (tree : File.Tree) : Option (List (List Event)) :=
  match ExecTree.iterate noResolver tree.1 tree.2 with
  | .done yields => some (yields.map fun y => y.nodes.map ExecNode.event)
  | .raised _ _ => none

/-- The sequences of a parseable element are what its paths show. -/
theorem sequences_eq {b : Bool} {xml : Element} (h : xml.parseable noResolver b = true) :
    ∃ tree, ExecTree.ofElement noResolver b xml = .ok tree ∧
      File.sequences tree = some ((Element.paths noResolver xml).map Element.shown) ∧
      ExecTree.sequences b xml = some ((Element.paths noResolver xml).map Element.shown) := by
  obtain ⟨heap, root, yields, hroot, hdone, hpaths, hevents⟩ := ExecTree.iterate_paths h
  have hshown : yields.map (fun y => y.nodes.map ExecNode.event) =
      (Element.paths noResolver xml).map Element.shown := by
    rw [← hpaths, List.map_map]
    refine List.map_congr_left fun y hy => ?_
    show _ = Element.shown (y.nodes.map ExecNode.node)
    unfold Element.shown
    rw [List.filterMap_map, ← List.filterMap_eq_map]
    refine List.filterMap_congr fun n hn => ?_
    show _ = (ExecNode.parseEvent noResolver (n.node.find "EVENT")).toOption
    rw [hevents y hy n hn]
    rfl
  refine ⟨(heap, root), hroot, ?_, ?_⟩
  · unfold File.sequences
    simp only [hdone, hshown]
  · unfold ExecTree.sequences
    rw [hroot]
    simp only [hdone, hshown]

/-- **The spaces change nothing in what is shown.** -/
theorem sequences_spaced {b : Bool} {xml : Element} (h : xml.parseable noResolver b = true) :
    ExecTree.sequences b xml.spaced = ExecTree.sequences b xml := by
  obtain ⟨-, -, -, hseqs⟩ := sequences_eq h
  obtain ⟨-, -, -, hspaced⟩ := sequences_eq ((xml.parseable_spaced b).trans h)
  rw [hseqs, hspaced, xml.paths_spaced, List.map_map]
  congr 1
  exact List.map_congr_left fun p _ => Element.shown_spaced p

end

/-! ### Reading a body -/

/-- What an event must keep for its report to be read back: its texts hold what a
document may hold, the location has nothing to escape if it is printed, and no
line begins as a marker line does. -/
structure SymExecEvent.Printable (e : SymExecEvent) : Prop where
  code : Legal e.code
  sv : Legal e.sv
  plain : e.kind = .fnCall ∨ e.kind = .fnReturn → Xml.Plain e.code.toList
  codeLines : e.code.toList.IsChain (NotAfterNewline '@')
  svLines : e.sv.toList.IsChain (NotAfterNewline '@')

instance (e : SymExecEvent) : Decidable e.Printable :=
  decidable_of_iff (Legal e.code ∧ Legal e.sv ∧ (e.kind = .fnCall ∨ e.kind = .fnReturn → Xml.Plain e.code.toList) ∧
      e.code.toList.IsChain (NotAfterNewline '@') ∧ e.sv.toList.IsChain (NotAfterNewline '@'))
    ⟨fun ⟨h₁, h₂, h₃, h₄, h₅⟩ => ⟨h₁, h₂, h₃, h₄, h₅⟩, fun h => ⟨h.code, h.sv, h.plain, h.codeLines, h.svLines⟩⟩

/-- The `TREE` element that is open, with its children so far. -/
def treeFrame (cs : List Element) : Xml.Frame Element :=
  ⟨['T', 'R', 'E', 'E'], "TREE", [], ['\n'], cs.map Element.spaced⟩

/-- A `NODE` element that is open. -/
def nodeFrame (cs : List Element) : Xml.Frame Element :=
  ⟨['N', 'O', 'D', 'E'], "NODE", [], ['\n'], cs.map Element.spaced⟩

/-- The elements that are open. -/
def frames : List (List Element) → List (Xml.Frame Element)
  | [] => []
  | [cs] => [treeFrame cs]
  | cs :: ds :: stack => nodeFrame cs :: frames (ds :: stack)

/-- The innermost open element, whatever its children are. -/
theorem frames_cons (cs : List Element) (stack : List (List Element)) : ∃ f fs,
    frames (cs :: stack) = f :: fs ∧ f.text = ['\n'] ∧ f.children = cs.map Element.spaced ∧
      ∀ cs', frames (cs' :: stack) = { f with children := cs'.map Element.spaced } :: fs := by
  cases stack with
  | nil => exact ⟨treeFrame cs, [], rfl, rfl, rfl, fun _ => rfl⟩
  | cons ds stack => exact ⟨nodeFrame cs, frames (ds :: stack), rfl, rfl, rfl, fun _ => rfl⟩

/-- A line end after children is no text. -/
theorem read_newline {f : Xml.Frame Element} (h : f.children ≠ []) (fs : List (Xml.Frame Element)) :
    Xml.Part.read Element.mk (f :: fs) .newline = some (f :: fs) := by
  have hadd : f.add ['\n'] = f := by
    unfold Xml.Frame.add
    rw [if_neg h]
  exact congrArg (fun g => some (g :: fs)) hadd

/-- Reading leaves, as parts. -/
theorem foldlM_leaves (ls : List Xml.Leaf) (f : Xml.Frame Element) (fs : List (Xml.Frame Element)) :
    (ls.map Xml.Part.leaf).foldlM (Xml.Part.read Element.mk) (f :: fs) =
      some ({ f with children := (ls.map (Xml.Leaf.element Element.mk)).reverse ++ f.children } :: fs) := by
  induction ls generalizing f with
  | nil => rfl
  | cons l ls ih =>
    rw [List.map_cons, List.foldlM_cons]
    show (ls.map Xml.Part.leaf).foldlM (Xml.Part.read Element.mk) ({ f with children := _ } :: fs) = _
    rw [ih]
    simp

/-- Reading an end tag after children, with line ends around it. -/
theorem foldlM_close {n : List Char} {g f : Xml.Frame Element} {fs : List (Xml.Frame Element)} (hname : g.name = n)
    (hg : g.children ≠ []) : [Xml.Part.newline, .stop n, .newline].foldlM (Xml.Part.read Element.mk) (g :: f :: fs) =
      some ({ f with children := g.element Element.mk :: f.children } :: fs) := by
  have hstop : Xml.Part.read Element.mk (g :: f :: fs) (.stop n) =
      some ({ f with children := g.element Element.mk :: f.children } :: fs) := if_pos hname
  rw [List.foldlM_cons, read_newline hg]
  show [Xml.Part.stop n, .newline].foldlM (Xml.Part.read Element.mk) (g :: f :: fs) = _
  rw [List.foldlM_cons, hstop]
  exact read_newline (List.cons_ne_nil _ _) fs

theorem spaced_element (e : SymExecEvent) :
    e.element.spaced = .mk "EVENT" (some "\n") e.element.children := by
  obtain ⟨kind, code, sv⟩ := e
  cases kind <;> rfl

/-- The parts of a piece: their text is what is written, and they read as the
piece does. -/
theorem Piece.exists_parts (p : Piece) (hp : ∀ e, p = .event e → e.Printable) : ∃ ps : List Xml.Part,
    p.text.toList = Xml.partsText ps ∧ (∀ q ∈ ps, q.Proper) ∧
      ∀ stack stack', stack ≠ [] → readPiece stack p = some stack' →
        ps.foldlM (Xml.Part.read Element.mk) (frames stack) = some (frames stack') := by
  have hnode : Xml.IsName ['N', 'O', 'D', 'E'] ∧ ':' ∉ ['N', 'O', 'D', 'E'] := by decide
  have hevent : Xml.IsName ['E', 'V', 'E', 'N', 'T'] ∧ ':' ∉ ['E', 'V', 'E', 'N', 'T'] := by decide
  cases p with
  | openNode =>
    refine ⟨[.start ['N', 'O', 'D', 'E'], .newline], by decide, ?_, ?_⟩
    · exact List.forall_mem_cons.mpr ⟨hnode, List.forall_mem_singleton.mpr trivial⟩
    · intro stack stack' hne h
      obtain rfl := Option.some.inj h
      obtain ⟨cs, stack, rfl⟩ := List.exists_cons_of_ne_nil hne
      rfl
  | closeNode =>
    refine ⟨[.stop ['N', 'O', 'D', 'E'], .newline], by decide, ?_, ?_⟩
    · exact List.forall_mem_cons.mpr ⟨hnode, List.forall_mem_singleton.mpr trivial⟩
    · intro stack stack' hne h
      match stack, h with
      | cs :: ds :: stack, h =>
        obtain rfl := Option.some.inj h
        obtain ⟨f, fs, hframes, -, hchildren, hframes'⟩ := frames_cons ds stack
        have helement : (nodeFrame cs).element Element.mk = (Element.mk "NODE" none cs.reverse).spaced := by
          rw [Element.spaced, Element.spacedAll_eq, List.map_reverse]
          rfl
        rw [hframes', List.map_cons, ← helement, ← hchildren]
        show [Xml.Part.stop ['N', 'O', 'D', 'E'], .newline].foldlM (Xml.Part.read Element.mk)
          (nodeFrame cs :: frames (ds :: stack)) = _
        rw [hframes]
        exact read_newline (List.cons_ne_nil _ _) fs
  | event e =>
    have hprint := hp e rfl
    obtain ⟨ls, htext, helement⟩ := e.exists_leaves hprint.code hprint.sv hprint.plain
    have hstring : e.getAsString.toList = ls.flatMap Xml.Leaf.text := by
      unfold SymExecEvent.xml Xml.documentText at htext
      simpa using htext
    have hchildren : e.element.children = ls.map (Xml.Leaf.element Element.mk) := by
      rw [← helement]
      rfl
    refine ⟨[.start ['E', 'V', 'E', 'N', 'T'], .newline] ++ (ls.map Xml.Part.leaf ++
      [.newline, .stop ['E', 'V', 'E', 'N', 'T'], .newline]), ?_, ?_, ?_⟩
    · simp [Piece.text, hstring, Xml.partsText, Xml.Part.text, List.flatMap_map]
    · intro q hq
      simp only [List.mem_append, List.mem_cons, List.mem_map, List.not_mem_nil, or_false] at hq
      rcases hq with (rfl | rfl) | ⟨l, -, rfl⟩ | rfl | rfl | rfl
      all_goals first | exact hevent | trivial
    · intro stack stack' hne h
      obtain ⟨cs, stack, rfl⟩ := List.exists_cons_of_ne_nil hne
      obtain rfl := Option.some.inj h
      obtain ⟨f, fs, hframes, -, hf, hframes'⟩ := frames_cons cs stack
      have hls : (ls.map (Xml.Leaf.element Element.mk)).reverse ++ [] ≠ [] := by
        rw [List.append_nil, ← hchildren]
        obtain ⟨kind, code, sv⟩ := e
        cases kind <;> simp [SymExecEvent.element, Element.children]
      have hopen : [Xml.Part.start ['E', 'V', 'E', 'N', 'T'], .newline].foldlM (Xml.Part.read Element.mk) (f :: fs) =
          some (⟨['E', 'V', 'E', 'N', 'T'], "EVENT", [], ['\n'], []⟩ :: f :: fs) := rfl
      rw [hframes, hframes', List.foldlM_append, hopen]
      show (ls.map Xml.Part.leaf ++ [Xml.Part.newline, .stop ['E', 'V', 'E', 'N', 'T'], .newline]).foldlM
        (Xml.Part.read Element.mk) (⟨['E', 'V', 'E', 'N', 'T'], "EVENT", [], ['\n'], []⟩ :: f :: fs) = _
      rw [List.foldlM_append, foldlM_leaves]
      show [Xml.Part.newline, .stop ['E', 'V', 'E', 'N', 'T'], .newline].foldlM (Xml.Part.read Element.mk)
        (⟨['E', 'V', 'E', 'N', 'T'], "EVENT", [], ['\n'],
          (ls.map (Xml.Leaf.element Element.mk)).reverse ++ []⟩ :: f :: fs) = _
      rw [foldlM_close rfl hls, List.map_cons, spaced_element, hchildren, ← hf]
      simp [Xml.Frame.element, Xml.content]

theorem readPiece_ne_nil {p : Piece} {stack stack' : List (List Element)} (h : readPiece stack p = some stack') :
    stack' ≠ [] := by
  rintro rfl
  match p, stack, h with
  | .openNode, _, h => cases h
  | .event _, _ :: _, h => cases h
  | .closeNode, _ :: _ :: _, h => cases h

/-- The parts of pieces in a row. -/
theorem exists_parts : ∀ pieces : List Piece, (∀ e, .event e ∈ pieces → e.Printable) → ∃ ps : List Xml.Part,
    (String.join (pieces.map Piece.text)).toList = Xml.partsText ps ∧ (∀ q ∈ ps, q.Proper) ∧
      ∀ stack stack', stack ≠ [] → pieces.foldlM readPiece stack = some stack' →
        ps.foldlM (Xml.Part.read Element.mk) (frames stack) = some (frames stack')
  | [], _ => by
    refine ⟨[], rfl, fun q hq => (List.not_mem_nil hq).elim, fun stack stack' _ h => ?_⟩
    rw [← Option.some.inj h]
    rfl
  | p :: pieces, h => by
    obtain ⟨ps, htext, hproper, hread⟩ := p.exists_parts fun e he => h e (he ▸ List.mem_cons_self)
    obtain ⟨qs, htext', hproper', hread'⟩ := exists_parts pieces fun e he => h e (List.mem_cons_of_mem _ he)
    refine ⟨ps ++ qs, ?_, List.forall_mem_append.mpr ⟨hproper, hproper'⟩, fun stack stack' hne hfold => ?_⟩
    · rw [List.map_cons, String.join_cons, String.toList_append, htext, htext', Xml.partsText_append]
    · rw [List.foldlM_cons] at hfold
      obtain ⟨mid, hmid, hfold⟩ := Option.bind_eq_some_iff.mp hfold
      rw [List.foldlM_append, hread stack mid hne hmid]
      exact hread' mid stack' (readPiece_ne_nil hmid) hfold

/-! ### The characters of a body -/

/-- No line of the text begins as a marker line does, and all line ends in it are
newlines. -/
structure Clean (cs : List Char) : Prop where
  newlines : '\r' ∉ cs
  chain : cs.IsChain (NotAfterNewline '@')

namespace Clean

theorem append {as bs : List Char} (ha : Clean as) (hb : Clean bs)
    (hx : bs.head? ≠ some '@' ∨ as.getLast? ≠ some '\n') : Clean (as ++ bs) where
  newlines := by
    rw [List.mem_append, not_or]
    exact ⟨ha.newlines, hb.newlines⟩
  chain := isChain_append ha.chain hb.chain hx

/-- A text between tags. -/
theorem between {as cs bs : List Char} (hcs : Clean cs) (ha : Clean as) (hb : Clean bs)
    (hlast : as.getLast? ≠ some '\n') (hhead : bs.head? ≠ some '@') : Clean (as ++ (cs ++ bs)) :=
  ha.append (hcs.append hb (.inl hhead)) (.inr hlast)

theorem escapeChar {c : Char} (hc : c ≠ '\r') : Clean (Xml.escapeChar c) := by
  unfold Xml.escapeChar
  split_ifs
  · exact ⟨by decide, isChain_of_notMem (by decide)⟩
  · exact ⟨by decide, isChain_of_notMem (by decide)⟩
  · exact ⟨by decide, isChain_of_notMem (by decide)⟩
  · exact ⟨fun h => hc (List.mem_singleton.mp h).symm, List.isChain_singleton c⟩

theorem head_escape {c : Char} {cs : List Char} (hc : c ≠ '@') : (Xml.escape (c :: cs)).head? ≠ some '@' := by
  unfold Xml.escape
  rw [List.flatMap_cons]
  unfold Xml.escapeChar
  split_ifs
  · simp
  · simp
  · simp
  · simp [hc]

theorem getLast_escapeChar {c : Char} (hc : c ≠ '\n') : (Xml.escapeChar c).getLast? ≠ some '\n' := by
  unfold Xml.escapeChar
  split_ifs
  · decide
  · decide
  · decide
  · simp [hc]

/-- Escaping keeps line ends, and what is first in a line. -/
theorem escape : ∀ {cs : List Char}, Clean cs → Clean (Xml.escape cs)
  | [], _ => ⟨List.not_mem_nil, List.isChain_nil⟩
  | c :: cs, h => by
    have hnot := h.newlines
    rw [List.mem_cons, not_or] at hnot
    have ih : Clean (Xml.escape cs) := escape ⟨hnot.2, h.chain.tail⟩
    have hescape : Xml.escape (c :: cs) = Xml.escapeChar c ++ Xml.escape cs := rfl
    rw [hescape]
    refine (escapeChar (Ne.symm hnot.1)).append ih ?_
    by_cases hc : c = '\n'
    · left
      cases cs with
      | nil => exact fun h => nomatch h
      | cons d cs =>
        have hchain := h.chain
        rw [List.isChain_cons_cons] at hchain
        exact head_escape (hchain.1 hc)
    · exact .inr (getLast_escapeChar hc)

end Clean

/-- A clean text from one tag to another. -/
structure Tagged (s : String) : Prop where
  clean : Clean s.toList
  head : s.toList.head? = some '<'
  last : s.toList.getLast? = some '>'

namespace Tagged

theorem append {s t : String} (hs : Tagged s) (ht : Tagged t) : Tagged (s ++ t) where
  clean := by
    rw [String.toList_append]
    exact hs.clean.append ht.clean (.inl (by rw [ht.head]; decide))
  head := by
    rw [String.toList_append, List.head?_append, hs.head]
    rfl
  last := by
    rw [String.toList_append, List.getLast?_append, ht.last]
    rfl

theorem leaf {start text stop : String} (hstart : Tagged start) (htext : Clean text.toList) (hstop : Tagged stop) :
    Tagged (start ++ text ++ stop) where
  clean := by
    rw [String.toList_append, String.toList_append]
    refine (hstart.clean.append htext (.inr ?_)).append hstop.clean (.inl ?_)
    · rw [hstart.last]
      decide
    · rw [hstop.head]
      decide
  head := by
    rw [String.append_assoc, String.toList_append, List.head?_append, hstart.head]
    rfl
  last := by
    rw [String.toList_append, List.getLast?_append, hstop.last]
    rfl

end Tagged

/-- **An event is printed clean**, from one tag to another. -/
theorem SymExecEvent.Printable.tagged {e : SymExecEvent} (h : e.Printable) : Tagged e.getAsString := by
  have hkind : ∀ k, Tagged ("<KIND>" ++ kindText k ++ "</KIND>") := fun k => by
    cases k
    all_goals exact ⟨⟨by decide, by decide⟩, by decide, by decide⟩
  have hcode : Tagged e.getCodeAsXMLNode :=
    Tagged.leaf ⟨⟨by decide, by decide⟩, by decide, by decide⟩ ⟨fun hmem => (h.code _ hmem).2 rfl, h.codeLines⟩
      ⟨⟨by decide, by decide⟩, by decide, by decide⟩
  have hsv : Clean (encodeToXML e.sv).toList := by
    rw [encodeToXML_eq]
    exact Clean.escape ⟨fun hmem => (h.sv _ hmem).2 rfl, h.svLines⟩
  obtain ⟨kind, code, sv⟩ := e
  cases kind with
  | fnCall =>
    exact (hkind .fnCall).append (hcode.append (Tagged.leaf ⟨⟨by decide, by decide⟩, by decide, by decide⟩ hsv
      ⟨⟨by decide, by decide⟩, by decide, by decide⟩))
  | fnReturn =>
    exact (hkind .fnReturn).append (hcode.append (Tagged.leaf ⟨⟨by decide, by decide⟩, by decide, by decide⟩ hsv
      ⟨⟨by decide, by decide⟩, by decide, by decide⟩))
  | assume =>
    exact (hkind .assume).append (Tagged.leaf ⟨⟨by decide, by decide⟩, by decide, by decide⟩ hsv
      ⟨⟨by decide, by decide⟩, by decide, by decide⟩)
  | eop => exact hkind .eop

/-- Pieces are printed clean, each from a tag to a line end. -/
theorem clean_pieces : ∀ pieces : List Piece, (∀ e, .event e ∈ pieces → e.Printable) →
    Clean (String.join (pieces.map Piece.text)).toList ∧
      (String.join (pieces.map Piece.text)).toList.head? ≠ some '@'
  | [], _ => ⟨⟨by decide, by decide⟩, by decide⟩
  | p :: pieces, h => by
    have ih := clean_pieces pieces fun e he => h e (List.mem_cons_of_mem _ he)
    have hp : Clean p.text.toList ∧ p.text.toList.head? = some '<' := by
      cases p with
      | openNode => exact ⟨⟨by decide, by decide⟩, by decide⟩
      | closeNode => exact ⟨⟨by decide, by decide⟩, by decide⟩
      | event e =>
        have htagged := (h e List.mem_cons_self).tagged
        unfold Piece.text
        rw [String.toList_append, String.toList_append, String.toList_append, List.append_assoc, List.append_assoc]
        refine ⟨?_, rfl⟩
        refine Clean.append ⟨by decide, by decide⟩ (htagged.clean.append ⟨by decide, by decide⟩ (.inl (by decide)))
          (.inl ?_)
        rw [List.head?_append, htagged.head]
        decide
    rw [List.map_cons, String.join_cons, String.toList_append]
    refine ⟨hp.1.append ih.1 (.inl ih.2), ?_⟩
    rw [List.head?_append, hp.2]
    exact fun h => absurd (Option.some.inj h) (by decide)

theorem clean_bodyText {pieces : List Piece} (h : ∀ e, .event e ∈ pieces → e.Printable) :
    Clean (bodyText pieces).toList ∧ (bodyText pieces).toList.head? ≠ some '@' := by
  obtain ⟨hclean, hhead⟩ := clean_pieces pieces h
  have htail : ((String.join (pieces.map Piece.text)).toList ++ ("</TREE>\n".toList ++ "\n".toList)).head? ≠
      some '@' := by
    rw [List.head?_append]
    cases h : (String.join (pieces.map Piece.text)).toList.head? with
    | none => exact fun h => absurd (Option.some.inj h) (by decide)
    | some c => exact fun h' => hhead (h.trans h')
  unfold bodyText
  rw [String.toList_append, String.toList_append, String.toList_append, List.append_assoc, List.append_assoc]
  refine ⟨?_, fun h => absurd (Option.some.inj h) (by decide)⟩
  exact Clean.append ⟨by decide, by decide⟩ (hclean.append ⟨by decide, by decide⟩ (.inl (by decide))) (.inl htail)

/-- **A body is read** as the elements that its pieces stand for, spaced. -/
theorem read_body (ns : Xml.Namespaces) {pieces : List Piece} {es : List Element}
    (h : ∀ e, .event e ∈ pieces → e.Printable) (hreads : readTree pieces = some es) :
    Xml.read Element.mk ns (bodyText pieces) = some (.mk "TREE" (some "\n") (es.map Element.spaced)) := by
  obtain ⟨ps, htext, hproper, hread⟩ := exists_parts pieces h
  have hfold : pieces.foldlM readPiece [[]] = some [es.reverse] := by
    unfold readTree at hreads
    split at hreads
    · rename_i cs hcs
      rw [hcs, ← Option.some.inj hreads, List.reverse_reverse]
    · cases hreads
  have hframes : (Xml.Part.newline :: ps).foldlM (Xml.Part.read Element.mk)
      [Xml.Frame.opened Element ['T', 'R', 'E', 'E']] = some [treeFrame es.reverse] :=
    hread [[]] [es.reverse] (List.cons_ne_nil _ _) hfold
  have hproper' : ∀ q ∈ Xml.Part.newline :: ps, q.Proper := List.forall_mem_cons.mpr ⟨trivial, hproper⟩
  have htree : Xml.IsName ['T', 'R', 'E', 'E'] ∧ ':' ∉ ['T', 'R', 'E', 'E'] := by decide
  obtain ⟨ts, hts, hbuild⟩ : ∃ ts, Xml.Tokens (Xml.partsText (.start ['T', 'R', 'E', 'E'] ::
      ((.newline :: ps) ++ [.stop ['T', 'R', 'E', 'E']])) ++ List.replicate 2 '\n') ts ∧
        Xml.build Element.mk ns ts = some ((treeFrame es.reverse).element Element.mk) :=
    Xml.build_parts htree.1 htree.2 hproper' rfl hframes 2
  have hbody : (bodyText pieces).toList = Xml.partsText (.start ['T', 'R', 'E', 'E'] ::
      ((.newline :: ps) ++ [.stop ['T', 'R', 'E', 'E']])) ++ List.replicate 2 '\n' := by
    unfold bodyText
    simp [htext, Xml.partsText, Xml.Part.text, List.replicate]
  have helement : (treeFrame es.reverse).element Element.mk = .mk "TREE" (some "\n") (es.map Element.spaced) := by
    unfold treeFrame Xml.Frame.element
    rw [List.map_reverse, List.reverse_reverse]
    rfl
  rw [Xml.read_eq_some (clean_bodyText h).1.newlines, hbody, ← helement]
  exact ⟨ts, hts, hbuild⟩

end Apisan
