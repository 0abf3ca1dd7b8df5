/-
# Reading a database file

`parse_file` goes through the lines of a file with a flag and a buffer: a line
with the begin marker starts a body, a line with the end marker completes it,
and its text is parsed. What it yields is decided by the blocks of the file, the
lines between a begin marker and the next marker where that is an end marker
(`parseFile_eq`). A body that does not parse ends the generator, so a file's
trees are those of all its blocks exactly if nothing that makes no tree stands
before something that does (`parseFile_yields_iff`).

Key definitions: `parseLines`, `parseFile`, `blocks`, `blockTrees`, `outcomes`.
Key theorems: `mem_blocks`, `parseLines_eq`, `parseFile_eq`,
`parseFile_yields_iff`.
-/
import Apisan.Lib.Xml
import Apisan.Parse.Explorer

namespace Apisan

open Python

namespace File

/-- `line.startswith(pre)`. -/
def startsWith (line pre : String) : Bool := pre.toList.isPrefixOf line.toList

/-- `SIG`. -/
def sig : String := "@SYM_EXEC_EXTRACTOR"

/-- `sig_begin`. -/
def sigBegin : String := sig ++ "_BEGIN"

/-- `sig_end`. -/
def sigEnd : String := sig ++ "_END"

/-- What a generator yields, and the exception it ends with, if any. -/
structure Generated (A : Type) where
  yields : List A
  error : Option Error

namespace Generated

variable {A : Type}

/-- A generator that returns. -/
def done : Generated A := ⟨[], none⟩

/-- Yield `a`, and go on. -/
def yield (a : A) (g : Generated A) : Generated A := { g with yields := a :: g.yields }

/-- Go on after a loop that raised nothing. -/
def andThen (g h : Generated A) : Generated A :=
  match g.error with
  | some _ => g
  | none => ⟨g.yields ++ h.yields, h.error⟩

end Generated

/-- A tree, with the heap of its constraint managers. -/
abbrev Tree := Heap × ExecNode

section

variable (resolver : Resolver) (parseConstraints : Bool)

/-- The loop over the roots of a body. -/
def yieldTrees : List Element → Generated Tree
  | [] => .done
  | root :: roots =>
    match ExecTree.ofElement resolver parseConstraints root with
    | .error e => ⟨[], some e⟩
    | .ok tree => (yieldTrees roots).yield tree

-- `ET.fromstring`; `none` where it raises
variable (fromString : String → Option Element)

/-- The loop over the lines, with the flag `start` and the buffer `body`. -/
def parseLines : Bool → String → List String → Generated Tree
  | _, _, [] => .done
  | start, body, line :: lines =>
    if startsWith line sigBegin then parseLines true "" lines
    else if start then
      if startsWith line sigEnd then
        match fromString body with
        -- `return []`: the lines that are left are not read
        | none => .done
        | some xml =>
          (yieldTrees resolver parseConstraints xml.children).andThen (parseLines false body lines)
      else parseLines true (body ++ line) lines
    else parseLines false body lines

/-- `parse_file`, on the lines of the file. -/
def parseFile (lines : List String) : Generated Tree :=
  parseLines resolver parseConstraints fromString false "" lines

end

/-! ### Blocks -/

def isMarker (line : String) : Bool := startsWith line sigBegin || startsWith line sigEnd

/-- The lines before the next marker, if that is an end marker. -/
def blockAt (lines : List String) : Option (List String) :=
  match lines.dropWhile fun line => !isMarker line with
  | [] => none
  | line :: _ => if startsWith line sigEnd then some (lines.takeWhile fun line => !isMarker line) else none

/-- The complete blocks of a file. -/
def blocks : List String → List (List String)
  | [] => []
  | line :: lines =>
    if startsWith line sigBegin then (blockAt lines).toList ++ blocks lines else blocks lines

/-- No line is both markers. -/
theorem not_end_of_begin {line : String} (h : startsWith line sigBegin = true) :
    startsWith line sigEnd = false := by
  rw [← Bool.not_eq_true]
  intro h'
  rw [startsWith, List.isPrefixOf_iff_prefix] at h h'
  have hpre := List.prefix_of_prefix_length_le h' h (by decide)
  exact absurd hpre (by decide)

theorem blockAt_cons_begin {line : String} (h : startsWith line sigBegin = true) (lines : List String) :
    blockAt (line :: lines) = none := by
  have hmarker : isMarker line = true := by rw [isMarker, h, Bool.true_or]
  rw [blockAt, List.dropWhile_cons_of_neg (by simp [hmarker])]
  simp [not_end_of_begin h]

theorem blockAt_cons_end {line : String} (h : startsWith line sigEnd = true) (lines : List String) :
    blockAt (line :: lines) = some [] := by
  have hmarker : isMarker line = true := by rw [isMarker, h, Bool.or_true]
  rw [blockAt, List.dropWhile_cons_of_neg (by simp [hmarker]), List.takeWhile_cons_of_neg (by simp [hmarker])]
  simp [h]

theorem blockAt_cons {line : String} (h : isMarker line = false) (lines : List String) :
    blockAt (line :: lines) = (blockAt lines).map (line :: ·) := by
  rw [blockAt, blockAt, List.dropWhile_cons_of_pos (by simp [h]), List.takeWhile_cons_of_pos (by simp [h])]
  split
  · rfl
  · split_ifs
    · rfl
    · rfl

/-- The lines of a marker, or another line. -/
theorem marker_cases (line : String) : startsWith line sigBegin = true ∨
    (startsWith line sigBegin = false ∧ startsWith line sigEnd = true) ∨
    (startsWith line sigBegin = false ∧ startsWith line sigEnd = false ∧ isMarker line = false) := by
  rw [isMarker]
  cases startsWith line sigBegin <;> cases startsWith line sigEnd <;> simp

theorem blockAt_eq_some : ∀ {lines block : List String}, blockAt lines = some block ↔
    ∃ e post, lines = block ++ e :: post ∧ startsWith e sigEnd = true ∧
      ∀ line ∈ block, isMarker line = false
  | [], block => by
    constructor
    · intro h
      cases h
    · rintro ⟨e, post, h, -⟩
      simp at h
  | line :: lines, block => by
    rcases marker_cases line with h | ⟨-, h⟩ | ⟨hb, he, h⟩
    · rw [blockAt_cons_begin h]
      refine iff_of_false (by simp) ?_
      rintro ⟨e, post, hlines, he, hblock⟩
      cases block with
      | nil =>
        obtain ⟨rfl, -⟩ := List.cons.inj hlines
        rw [not_end_of_begin h] at he
        cases he
      | cons l block =>
        obtain ⟨rfl, -⟩ := List.cons.inj hlines
        have hmarker := hblock line List.mem_cons_self
        rw [isMarker, h] at hmarker
        cases hmarker
    · rw [blockAt_cons_end h]
      constructor
      · intro hnil
        cases hnil
        exact ⟨line, lines, rfl, h, by simp⟩
      · rintro ⟨e, post, hlines, he, hblock⟩
        cases block with
        | nil => rfl
        | cons l block =>
          obtain ⟨rfl, -⟩ := List.cons.inj hlines
          have hmarker := hblock line List.mem_cons_self
          rw [isMarker, h, Bool.or_true] at hmarker
          cases hmarker
    · rw [blockAt_cons h, Option.map_eq_some_iff]
      constructor
      · rintro ⟨block', hblock', rfl⟩
        obtain ⟨e, post, rfl, he', hblock⟩ := blockAt_eq_some.mp hblock'
        exact ⟨e, post, rfl, he', List.forall_mem_cons.mpr ⟨h, hblock⟩⟩
      · rintro ⟨e, post, hlines, he', hblock⟩
        cases block with
        | nil =>
          obtain ⟨rfl, -⟩ := List.cons.inj hlines
          rw [he] at he'
          cases he'
        | cons l block =>
          obtain ⟨rfl, rfl⟩ := List.cons.inj hlines
          exact ⟨block, blockAt_eq_some.mpr ⟨e, post, rfl, he', (List.forall_mem_cons.mp hblock).2⟩, rfl⟩

/-- **What the blocks are**: the lines between a begin marker and the next
marker, an end marker. -/
theorem mem_blocks {block : List String} : ∀ {lines : List String}, block ∈ blocks lines ↔
    ∃ pre b e post, lines = pre ++ b :: (block ++ e :: post) ∧ startsWith b sigBegin = true ∧
      startsWith e sigEnd = true ∧ ∀ line ∈ block, isMarker line = false
  | [] => by simp [blocks]
  | line :: lines => by
    have htail : block ∈ blocks (line :: lines) ↔
        (startsWith line sigBegin = true ∧ blockAt lines = some block) ∨ block ∈ blocks lines := by
      rw [blocks]
      split_ifs with h
      · simp [h]
      · simp [h]
    rw [htail, blockAt_eq_some, mem_blocks]
    constructor
    · rintro (⟨hb, e, post, rfl, he, hblock⟩ | ⟨pre, b, e, post, rfl, hb, he, hblock⟩)
      · exact ⟨[], line, e, post, rfl, hb, he, hblock⟩
      · exact ⟨line :: pre, b, e, post, rfl, hb, he, hblock⟩
    · rintro ⟨pre, b, e, post, hlines, hb, he, hblock⟩
      cases pre with
      | nil =>
        obtain ⟨rfl, rfl⟩ := List.cons.inj hlines
        exact .inl ⟨hb, e, post, rfl, he, hblock⟩
      | cons l pre =>
        obtain ⟨rfl, rfl⟩ := List.cons.inj hlines
        exact .inr ⟨pre, b, e, post, rfl, hb, he, hblock⟩

/-! ### What is yielded -/

theorem takeWhile_append_of_none {A : Type} (ys : List (Option A)) : ∀ {xs : List (Option A)}, none ∈ xs →
    (xs ++ ys).takeWhile Option.isSome = xs.takeWhile Option.isSome
  | none :: xs, _ => by simp
  | some a :: xs, h => by
    have hxs : none ∈ xs := by simpa using h
    simp [takeWhile_append_of_none ys hxs]

/-- Nothing is lost at the first `none` exactly if nothing comes after it. -/
theorem filterMap_takeWhile_iff {A : Type} : ∀ os : List (Option A),
    (os.takeWhile Option.isSome).filterMap id = os.filterMap id ↔
      os.Pairwise fun a b => a = none → b = none
  | [] => by simp
  | none :: os => by
    have hnil : [] = os.filterMap id ↔ ∀ b ∈ os, b = none := by
      rw [eq_comm, List.filterMap_eq_nil_iff]
      rfl
    rw [List.takeWhile_cons_of_neg (by simp), List.filterMap_cons_none rfl, List.filterMap_nil, hnil,
      List.pairwise_cons]
    refine ⟨fun h => ⟨fun b hb _ => h b hb, ?_⟩, fun h b hb => h.1 b hb rfl⟩
    exact List.pairwise_of_forall_mem_list fun _ _ b hb _ => h b hb
  | some a :: os => by
    have hcons : ∀ l : List (Option A), (some a :: l).filterMap id = a :: l.filterMap id := fun l => rfl
    rw [List.takeWhile_cons_of_pos rfl, hcons, hcons, List.cons_inj_right, filterMap_takeWhile_iff os,
      List.pairwise_cons]
    simp

section

variable (resolver : Resolver) (parseConstraints : Bool) (fromString : String → Option Element)

theorem yieldTrees_append (bs : List Element) : ∀ as : List Element,
    yieldTrees resolver parseConstraints (as ++ bs) =
      (yieldTrees resolver parseConstraints as).andThen (yieldTrees resolver parseConstraints bs)
  | [] => rfl
  | root :: as => by
    rw [List.cons_append, yieldTrees, yieldTrees]
    cases ExecTree.ofElement resolver parseConstraints root with
    | error e => rfl
    | ok tree =>
      simp only [yieldTrees_append bs as]
      obtain ⟨yields, error⟩ := yieldTrees resolver parseConstraints as
      cases error <;> rfl

/-- What a body does: it stops the generator, or its trees are yielded. -/
def readBody (text : String) (rest : Generated Tree) : Generated Tree :=
  match fromString text with
  | none => .done
  | some xml => (yieldTrees resolver parseConstraints xml.children).andThen rest

/-- What the blocks do, in order. -/
def readBlocks : List (List String) → Generated Tree
  | [] => .done
  | block :: rest => readBody resolver parseConstraints fromString (String.join block) (readBlocks rest)

/-- **The loop over the lines follows the blocks.** Before a begin marker it does
what the blocks do; with a buffer, first what the lines before the next marker
complete it to. -/
theorem parseLines_eq : ∀ (lines : List String) (body : String),
    parseLines resolver parseConstraints fromString false body lines =
        readBlocks resolver parseConstraints fromString (blocks lines) ∧
      parseLines resolver parseConstraints fromString true body lines =
        match blockAt lines with
        | some block => readBody resolver parseConstraints fromString (body ++ String.join block)
            (readBlocks resolver parseConstraints fromString (blocks lines))
        | none => readBlocks resolver parseConstraints fromString (blocks lines)
  | [], body => ⟨rfl, rfl⟩
  | line :: lines, body => by
    rcases marker_cases line with h | ⟨hb, he⟩ | ⟨hb, he, h⟩
    · -- the buffer is given up, whatever it was
      have hbegin := (parseLines_eq lines "").2
      have hblocks : blocks (line :: lines) = (blockAt lines).toList ++ blocks lines := by
        rw [blocks, if_pos h]
      have hread : parseLines resolver parseConstraints fromString true "" lines =
          readBlocks resolver parseConstraints fromString (blocks (line :: lines)) := by
        rw [hbegin, hblocks]
        cases blockAt lines with
        | none => rfl
        | some block =>
          simp only [String.empty_append]
          rfl
      rw [parseLines, if_pos h, parseLines, if_pos h, blockAt_cons_begin h, hread]
      exact ⟨rfl, rfl⟩
    · have hnot : ¬ startsWith line sigBegin = true := by rw [hb]; decide
      have hblocks : blocks (line :: lines) = blocks lines := by rw [blocks, if_neg hnot]
      rw [parseLines, if_neg hnot, if_neg (by decide), parseLines, if_neg hnot, if_pos rfl, if_pos he,
        blockAt_cons_end he, hblocks, (parseLines_eq lines body).1]
      refine ⟨rfl, ?_⟩
      simp only [String.join_nil, String.append_empty]
      rfl
    · have hnot : ¬ startsWith line sigBegin = true := by rw [hb]; decide
      have hnot' : ¬ startsWith line sigEnd = true := by rw [he]; decide
      have hblocks : blocks (line :: lines) = blocks lines := by rw [blocks, if_neg hnot]
      rw [parseLines, if_neg hnot, if_neg (by decide), parseLines, if_neg hnot, if_pos rfl, if_neg hnot',
        blockAt_cons h, hblocks, (parseLines_eq lines body).1, (parseLines_eq lines (body ++ line)).2]
      refine ⟨rfl, ?_⟩
      cases blockAt lines with
      | none => rfl
      | some block =>
        simp only [Option.map_some]
        rw [String.join_cons, String.append_assoc]

/-- **What a file yields** is what its blocks do. -/
theorem parseFile_eq (lines : List String) : parseFile resolver parseConstraints fromString lines =
    readBlocks resolver parseConstraints fromString (blocks lines) :=
  (parseLines_eq resolver parseConstraints fromString lines "").1

/-- What a block makes: nothing for a body that does not parse, and else its
trees, or nothing, root by root. -/
def outcomes (block : List String) : List (Option Tree) :=
  match fromString (String.join block) with
  | none => [none]
  | some xml => xml.children.map fun root =>
      (ExecTree.ofElement resolver parseConstraints root).toOption

/-- The trees of a block. -/
def blockTrees (block : List String) : List Tree :=
  (outcomes resolver parseConstraints fromString block).filterMap id

theorem yields_yieldTrees : ∀ roots : List Element, (yieldTrees resolver parseConstraints roots).yields =
      ((roots.map fun root => (ExecTree.ofElement resolver parseConstraints root).toOption).takeWhile
        Option.isSome).filterMap id ∧
    ((yieldTrees resolver parseConstraints roots).error = none ↔
      ∀ root ∈ roots, (ExecTree.ofElement resolver parseConstraints root).toOption ≠ none)
  | [] => ⟨rfl, by simp [yieldTrees, Generated.done]⟩
  | root :: roots => by
    obtain ⟨hyields, herror⟩ := yields_yieldTrees roots
    rw [yieldTrees]
    cases h : ExecTree.ofElement resolver parseConstraints root with
    | error e => simp [h, Except.toOption]
    | ok tree => simpa [h, Except.toOption, Generated.yield, hyields] using herror

/-- **What is yielded**: what the blocks make, up to the first nothing. -/
theorem yields_readBlocks : ∀ bs : List (List String),
    (readBlocks resolver parseConstraints fromString bs).yields =
      ((bs.flatMap (outcomes resolver parseConstraints fromString)).takeWhile Option.isSome).filterMap id
  | [] => rfl
  | block :: bs => by
    have ih := yields_readBlocks bs
    rw [readBlocks, readBody, List.flatMap_cons]
    cases h : fromString (String.join block) with
    | none => simp [outcomes, h, Generated.done]
    | some xml =>
      obtain ⟨hyields, herror⟩ := yields_yieldTrees resolver parseConstraints xml.children
      have hout : outcomes resolver parseConstraints fromString block = xml.children.map fun root =>
          (ExecTree.ofElement resolver parseConstraints root).toOption := by rw [outcomes, h]
      simp only [Generated.andThen]
      cases he : (yieldTrees resolver parseConstraints xml.children).error with
      | some e =>
        -- a root raised
        have hmem : none ∈ outcomes resolver parseConstraints fromString block := by
          by_contra hnot
          have hall := herror.mpr fun root hroot hnone =>
            hnot (hout ▸ List.mem_map.mpr ⟨root, hroot, hnone⟩)
          rw [hall] at he
          cases he
        rw [takeWhile_append_of_none _ hmem, hout]
        exact hyields
      | none =>
        have hmem : none ∉ outcomes resolver parseConstraints fromString block := fun hmem => by
          rw [hout] at hmem
          obtain ⟨root, hroot, hnone⟩ := List.mem_map.mp hmem
          exact herror.mp he root hroot hnone
        have hall : ∀ o ∈ outcomes resolver parseConstraints fromString block, o.isSome = true :=
          fun o ho => Option.isSome_iff_ne_none.mpr fun hnone => hmem (hnone ▸ ho)
        rw [List.takeWhile_append_of_pos hall, List.filterMap_append, hyields, ih, ← hout,
          List.takeWhile_eq_self_iff.mpr hall]

/-- **When a file yields the trees of all its blocks**: no body that does not
parse, and no root that makes no tree, stands before a root that makes one. -/
theorem parseFile_yields_iff (lines : List String) :
    (parseFile resolver parseConstraints fromString lines).yields =
        (blocks lines).flatMap (blockTrees resolver parseConstraints fromString) ↔
      ((blocks lines).flatMap (outcomes resolver parseConstraints fromString)).Pairwise
        fun a b => a = none → b = none := by
  have hflat : (blocks lines).flatMap (blockTrees resolver parseConstraints fromString) =
      ((blocks lines).flatMap (outcomes resolver parseConstraints fromString)).filterMap id := by
    rw [List.filterMap_flatMap]
    rfl
  rw [parseFile_eq, yields_readBlocks, hflat]
  exact filterMap_takeWhile_iff _

end

/-- Two functions, the first one in a file with `&` in its name. -/
def ampersandFile : List String :=
  ["@SYM_EXEC_EXTRACTOR_BEGIN\n",
    "<TREE><NODE><EVENT><KIND>@LOG_CALL</KIND><CODE>a&b.c:5</CODE><CALL>f(x)</CALL></EVENT></NODE></TREE>\n",
    "@SYM_EXEC_EXTRACTOR_END\n",
    "@SYM_EXEC_EXTRACTOR_BEGIN\n",
    "<TREE><NODE><EVENT><KIND>@LOG_EOP</KIND></EVENT></NODE></TREE>\n",
    "@SYM_EXEC_EXTRACTOR_END\n"]

/-- The tree of the second function is lost. -/
theorem ampersandFile_lost :
    let fromString := Xml.read Element.mk Xml.noNamespaces
    (parseFile noResolver true fromString ampersandFile).yields.length = 0 ∧
      ((blocks ampersandFile).flatMap (blockTrees noResolver true fromString)).length = 1 ∧
      (parseFile noResolver true fromString ampersandFile).yields ≠
        (blocks ampersandFile).flatMap (blockTrees noResolver true fromString) := by
  intro fromString
  have hyields : (parseFile noResolver true fromString ampersandFile).yields.length = 0 := by decide +kernel
  have htrees : ((blocks ampersandFile).flatMap (blockTrees noResolver true fromString)).length = 1 := by
    decide +kernel
  refine ⟨hyields, htrees, fun heq => ?_⟩
  rw [heq, htrees] at hyields
  cases hyields

end File

end Apisan
