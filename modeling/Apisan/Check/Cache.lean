/-
# The cache of the explorer

`Explorer` keeps the contexts of a database file in a file beside it, named
after the checker (`explorer.py`). Nothing ever removes or dates such a file: it
is read whatever the database and the configuration have become since, until
the cache is switched off by hand (`--skip-cache`). A run after a rebuild then
reports on the old contents (`Cache.stale_reports`).

Names of cache files tell files and checkers apart and are no databases
(`cachedFn_inj`, `isDatabase_cachedFn`), so the cache files are a memo table of
`_explore_file` (`Cache.tryCached_call`), and a run reports on the contents and the
configuration that each file had when the checker first explored it
(`Cache.explore_pinned`).

Key definitions: `Cache.World`, `Cache.tryCached`, `Cache.explore`,
`Cache.exploreParallel`, `Cache.Step`, `Cache.pinned`.
Key theorems: `cachedFn_inj`, `Cache.tryCached_call`, `Cache.explore_pinned`.
-/
import Mathlib.Data.List.TakeWhile
import Apisan.Lib.Memo
import Apisan.Parse.Unread
import Apisan.Check.Order
import Apisan.Parse.File

namespace Apisan

open Python FirstSeen Deviant

/-! ### Names of files -/

/-- The keys of `CHECKERS`. -/
inductive CheckerName
  | rvchk
  | cpair
  | cond
  | fsb
  | args
  | intovfl
  | thread
  deriving DecidableEq, Repr

/-- `checker.name`. -/
def CheckerName.name : CheckerName → String
  | rvchk => "rvchk"
  | cpair => "cpair"
  | cond => "cond"
  | fsb => "fsb"
  | args => "args"
  | intovfl => "intovfl"
  | thread => "thread"

/-- `get_supported_extensions`. -/
def supportedExtensions : List String := [".as.xz", ".as.lzma", ".as.bz2", ".as.gz", ".as.gzip", ".as"]

/-- A name that `get_files` yields. -/
def isDatabase (fn : String) : Bool :=
  supportedExtensions.any fun ext => ext.toList.isSuffixOf fn.toList

/-- The files of a database. -/
abbrev DatabaseFile := { fn : String // isDatabase fn = true }

/-- The name of the cache file (the argument of `cached`). -/
def cachedFn (fn : String) (checker : CheckerName) : String := fn ++ "." ++ checker.name

/-- What follows the last dot, reversed. -/
def afterDot (cs : List Char) : List Char := cs.reverse.takeWhile (· != '.')

theorem afterDot_append {cs ds : List Char} (h : '.' ∈ ds) : afterDot (cs ++ ds) = afterDot ds := by
  rw [afterDot, List.reverse_append, List.takeWhile_append, if_neg]
  · rfl
  · intro hlen
    have hall : ds.reverse.takeWhile (· != '.') = ds.reverse :=
      (List.takeWhile_prefix _).eq_of_length hlen
    have hdot := List.takeWhile_eq_self_iff.mp hall '.' (List.mem_reverse.mpr h)
    exact absurd hdot (by decide)

theorem toList_cachedFn (fn : String) (c : CheckerName) :
    (cachedFn fn c).toList = fn.toList ++ '.' :: c.name.toList := by
  rw [cachedFn, String.toList_append, String.toList_append, List.append_assoc]
  rfl

theorem afterDot_cachedFn (fn : String) (c : CheckerName) :
    afterDot (cachedFn fn c).toList = c.name.toList.reverse := by
  rw [toList_cachedFn, afterDot_append List.mem_cons_self]
  cases c <;> decide

/-- **Names of cache files tell files and checkers apart.** -/
theorem cachedFn_inj {fn fn' : String} {c c' : CheckerName} :
    cachedFn fn c = cachedFn fn' c' ↔ fn = fn' ∧ c = c' := by
  constructor
  · intro h
    have hafter := congrArg (fun s => afterDot s.toList) h
    simp only [afterDot_cachedFn] at hafter
    have hname : c = c' := by
      revert hafter
      cases c <;> cases c' <;> decide
    subst hname
    have hlist := congrArg String.toList h
    rw [toList_cachedFn, toList_cachedFn] at hlist
    exact ⟨String.toList_inj.mp (List.append_cancel_right hlist), rfl⟩
  · rintro ⟨rfl, rfl⟩
    rfl

/-- No cache file is a database. -/
theorem isDatabase_cachedFn (fn : String) (c : CheckerName) : isDatabase (cachedFn fn c) = false := by
  rw [isDatabase, List.any_eq_false]
  intro ext hext hsuffix
  obtain ⟨p, hp⟩ := List.isSuffixOf_iff_suffix.mp hsuffix
  have hdot : ∀ ext ∈ supportedExtensions, '.' ∈ ext.toList := by decide
  have hafter := afterDot_cachedFn fn c
  rw [← hp, afterDot_append (hdot ext hext)] at hafter
  have hother : ∀ ext ∈ supportedExtensions, afterDot ext.toList ≠ c.name.toList.reverse := by
    cases c <;> decide
  exact hother ext hext hafter

namespace Cache

/-! ### The explorer -/

/-- A class of `CHECKERS`, as the explorer uses its objects. -/
structure CheckerClass (Conf Ctx Reports : Type) where
  parseConstraints : Bool
  process : Conf → List Path → Except Error Ctx
  merge : Conf → List Ctx → Reports

/-- What a file holds: the bodies of a database, each with the roots of its
trees if its text parses, or a pickled result. -/
inductive Contents (Ctx : Type)
  | database (bodies : List (Option (List Element)))
  | pickle (result : List Ctx)

/-- The configuration and the files. -/
structure World (Conf Ctx : Type) where
  conf : Conf
  files : Dict String (Contents Ctx)

/-- An object of `Explorer`, with the name of its checker. -/
structure Explorer where
  checker : CheckerName
  readCache : Bool
  writeCache : Bool

/-- `Explorer.__init__`. -/
def Explorer.new (checker : CheckerName) : Explorer := ⟨checker, true, true⟩

/-- An explorer with `--skip-cache`. -/
def Explorer.skipCache (checker : CheckerName) : Explorer := ⟨checker, false, false⟩

/-- `parse_file`: the roots of the trees, up to a body that does not parse. -/
def parseFile : List (Option (List Element)) → List Element
  | [] => []
  | none :: _ => []
  | some roots :: bodies => roots ++ parseFile bodies

/-- The bodies of the blocks of a file. -/
def bodies (fromString : String → Option Element) (lines : List String) : List (Option (List Element)) :=
  (File.blocks lines).map fun block => (fromString (String.join block)).map Element.children

/-- The trees that a file yields are those of the roots, one after the other. -/
theorem file_parseFile_eq (resolver : Resolver) (parseConstraints : Bool)
    (fromString : String → Option Element) (lines : List String) :
    File.parseFile resolver parseConstraints fromString lines =
      File.yieldTrees resolver parseConstraints (parseFile (bodies fromString lines)) := by
  rw [File.parseFile_eq, bodies]
  induction File.blocks lines with
  | nil => rfl
  | cons block bs ih =>
    rw [File.readBlocks, File.readBody, List.map_cons, ih]
    cases fromString (String.join block) with
    | none => rfl
    | some xml =>
      rw [Option.map_some, parseFile, File.yieldTrees_append]

section

variable {Conf Ctx Reports : Type}

/-- The input of `_explore_file` for a file. -/
def World.now (w : World Conf Ctx) (fn : String) : Conf × Option (Contents Ctx) :=
  (w.conf, w.files.get? fn)

/-- `pickle.load` on a cache file, if there is one. -/
def World.load (w : World Conf Ctx) (cached : String) : Option (List Ctx) :=
  match w.files.get? cached with
  | some (.pickle result) => some result
  | _ => none

/-- `pickle.dump` to a cache file. -/
def World.dump (w : World Conf Ctx) (cached : String) (result : List Ctx) : World Conf Ctx :=
  { w with files := w.files.set cached (.pickle result) }

variable [StrHash] (resolver : String → Resolver)
  (checkers : CheckerName → CheckerClass Conf Ctx Reports)

/-- `checker.process` on the tree of a root, with what the parser of the events has
left. What iterating the tree raises is raised after the paths before it were
processed. -/
def processTreeFrom (P : TextParser) (left : P.Left) (chk : CheckerClass Conf Ctx Reports)
    (resolver : Resolver) (conf : Conf) (root : Element) : Except Error (List Ctx) := do
  let (heap, node) ← ExecTree.ofElement resolver chk.parseConstraints root
  match ExecTree.iterateFrom P left resolver heap node with
  | .done yields => do
    let ctx ← chk.process conf (yields.map Yielded.path)
    .ok [ctx]
  | .raised e yields => do
    let _ ← chk.process conf (yields.map Yielded.path)
    .error e

/-- `checker.process` on a tree whose conditions all say by themselves what they
are. -/
def processTree (chk : CheckerClass Conf Ctx Reports) (resolver : Resolver) (conf : Conf) (root : Element) :
    Except Error (List Ctx) :=
  processTreeFrom .texts () chk resolver conf root

theorem processTree_eq (chk : CheckerClass Conf Ctx Reports) (resolver : Resolver) (conf : Conf)
    (root : Element) : processTree chk resolver conf root = (do
      let (heap, node) ← ExecTree.ofElement resolver chk.parseConstraints root
      match ExecTree.iterate resolver heap node with
      | .done yields => do
        let ctx ← chk.process conf (yields.map Yielded.path)
        .ok [ctx]
      | .raised e yields => do
        let _ ← chk.process conf (yields.map Yielded.path)
        .error e) := rfl

/-- **Where every condition has a text** it makes no difference how far the parser of
the events has got, and what the checker parses between the paths. -/
theorem processTreeFrom_shared {consume : List Yielded → SParser.Unread → SParser.Unread}
    {left : SParser.Unread} {chk : CheckerClass Conf Ctx Reports} {resolver : Resolver} {root : Element}
    (h : root.texted resolver = true) (conf : Conf) :
    processTreeFrom (.shared consume) left chk resolver conf root = processTree chk resolver conf root := by
  unfold processTree processTreeFrom
  cases hroot : ExecTree.ofElement resolver chk.parseConstraints root with
  | error e => rfl
  | ok tree =>
    have hsame := ExecTree.iterateFrom_shared consume left fun _ =>
      ExecTree.not_leaks_of_texted h hroot
    simp only [ok_bind, hsame]
    rfl

/-- `_explore_file`, without its decorator. A pickle is no text. That the result is
one of the contents and the configuration alone holds while no condition is
parsed without a text: the parser of the events outlives a file, and what it has
left unread may come from another one. -/
def exploreFile (key : CheckerName × String) (input : Conf × Option (Contents Ctx)) :
    Except Error (List Ctx) :=
  match input.2 with
  | some (.database bodies) =>
    gather (processTree (checkers key.1) (resolver key.2) input.1) (parseFile bodies)
  | some (.pickle _) => .error .valueError
  | none => .error .fileNotFoundError

/-- `_explore_file`, decorated with `cached`. -/
def tryCached (e : Explorer) (w : World Conf Ctx) (fn : String) :
    World Conf Ctx × Except Error (List Ctx) :=
  match if e.readCache then w.load (cachedFn fn e.checker) else none with
  | some result => (w, .ok result)
  | none =>
    match exploreFile resolver checkers (e.checker, fn) (w.now fn) with
    | .error err => (w, .error err)
    | .ok result =>
      -- `cached_fn` has no value where the cache is not read: nothing is written
      (if e.writeCache && e.readCache then w.dump (cachedFn fn e.checker) result else w, .ok result)

/-- The loop of `explore`. -/
def exploreAll (e : Explorer) : World Conf Ctx → List DatabaseFile →
    World Conf Ctx × Except Error (List Ctx)
  | w, [] => (w, .ok [])
  | w, fn :: fns =>
    match tryCached resolver checkers e w fn with
    | (w, .error err) => (w, .error err)
    | (w, .ok ctxs) =>
      let (w, rest) := exploreAll e w fns
      (w, rest.map (ctxs ++ ·))

/-- `Explorer.explore`, on the files that `get_files` yields. -/
def explore (e : Explorer) (w : World Conf Ctx) (fns : List DatabaseFile) :
    World Conf Ctx × Except Error Reports :=
  let (w', ctxs) := exploreAll resolver checkers e w fns
  (w', ctxs.map ((checkers e.checker).merge w.conf))

/-- The calls that worker processes make, in the order in which they get to
them; a call that raises does not stop the others. -/
def callAll (e : Explorer) : World Conf Ctx → List DatabaseFile →
    World Conf Ctx × List (DatabaseFile × Except Error (List Ctx))
  | w, [] => (w, [])
  | w, fn :: fns =>
    let (w, result) := tryCached resolver checkers e w fn
    let (w, results) := callAll e w fns
    (w, (fn, result) :: results)

/-- `Explorer.explore_parallel`, with the order of the workers' calls: the
results are merged in the order of the files, unless a call raised or was left
out after one that did. -/
def exploreParallel (e : Explorer) (w : World Conf Ctx) (fns order : List DatabaseFile) :
    World Conf Ctx × Option Reports :=
  let (w', results) := callAll resolver checkers e w order
  let ctxs := fns.mapM fun fn => (results.lookup fn).bind Except.toOption
  (w', ctxs.map fun ctxs => (checkers e.checker).merge w.conf ctxs.flatten)

/-! ### Histories -/

/-- A step of a history. -/
inductive Step (Conf : Type)
  | rebuild (fn : DatabaseFile) (bodies : List (Option (List Element)))
  | configure (conf : Conf)
  | explore (checker : CheckerName) (fns : List DatabaseFile)
  | exploreParallel (checker : CheckerName) (fns order : List DatabaseFile)

/-- The world after a step, its runs with both caches on. -/
def step (w : World Conf Ctx) : Step Conf → World Conf Ctx
  | .rebuild fn bodies => { w with files := w.files.set fn (.database bodies) }
  | .configure conf => { w with conf := conf }
  | .explore checker fns => (explore resolver checkers (.new checker) w fns).1
  | .exploreParallel checker fns order =>
    (exploreParallel resolver checkers (.new checker) w fns order).1

/-- The world after a history that starts without files. -/
def after (conf : Conf) (steps : List (Step Conf)) : World Conf Ctx :=
  steps.foldl (step resolver checkers) ⟨conf, .empty⟩

/-! ### The calls of a history -/

/-- A call of `_explore_file`. -/
abbrev FileCall (Conf Ctx : Type) := Memo.Call (CheckerName × String) (Conf × Option (Contents Ctx))

omit [StrHash] in
/-- The call for a file. -/
def World.call (w : World Conf Ctx) (checker : CheckerName) (fn : DatabaseFile) : FileCall Conf Ctx :=
  ⟨(checker, fn), w.now fn⟩

/-- The files that the loop of `explore` gets to. -/
def called (e : Explorer) : World Conf Ctx → List DatabaseFile → List DatabaseFile
  | _, [] => []
  | w, fn :: fns =>
    fn :: match tryCached resolver checkers e w fn with
      | (_, .error _) => []
      | (w, .ok _) => called e w fns

/-- The calls of a step. -/
def stepCalls (w : World Conf Ctx) : Step Conf → List (FileCall Conf Ctx)
  | .rebuild _ _ => []
  | .configure _ => []
  | .explore checker fns =>
    (called resolver checkers (.new checker) w fns).map (w.call checker)
  | .exploreParallel checker _ order => order.map (w.call checker)

/-- The calls of the steps, from a world on. -/
def callsFrom : World Conf Ctx → List (Step Conf) → List (FileCall Conf Ctx)
  | _, [] => []
  | w, s :: steps => stepCalls resolver checkers w s ++ callsFrom (step resolver checkers w s) steps

/-- The calls of a history. -/
def calls (conf : Conf) (steps : List (Step Conf)) : List (FileCall Conf Ctx) :=
  callsFrom resolver checkers ⟨conf, .empty⟩ steps

/-- The configuration and the contents that a checker's reports on a file are
about, after the calls: those of the checker's first call for the file that
returned, and the present ones if there is none. -/
def pinned (cs : List (FileCall Conf Ctx)) (w : World Conf Ctx) (checker : CheckerName)
    (fn : DatabaseFile) : Conf × Option (Contents Ctx) :=
  (Memo.first (exploreFile resolver checkers) cs (checker, fn)).getD (w.now fn)

/-- The cache files keep the results of the calls. -/
def Kept (cs : List (FileCall Conf Ctx)) (w : World Conf Ctx) : Prop :=
  ∀ checker fn, w.load (cachedFn fn checker) =
    Memo.tableAfter (exploreFile resolver checkers) cs (checker, fn)

/-- Everything but cache files is the same. -/
structure SameInputs (w w' : World Conf Ctx) : Prop where
  conf : w'.conf = w.conf
  files : ∀ fn : DatabaseFile, w'.files.get? fn = w.files.get? fn

omit [StrHash] in
theorem SameInputs.now {w w' : World Conf Ctx} (h : SameInputs w w') (fn : DatabaseFile) :
    w'.now fn = w.now fn := by
  rw [World.now, World.now, h.conf, h.files]

omit [StrHash] in
theorem load_dump (w : World Conf Ctx) (fn fn' : String) (c c' : CheckerName) (result : List Ctx) :
    (w.dump (cachedFn fn c) result).load (cachedFn fn' c') =
      if c' = c ∧ fn' = fn then some result else w.load (cachedFn fn' c') := by
  rw [World.load, World.dump, Dict.get?_set]
  by_cases h : c' = c ∧ fn' = fn
  · rw [if_pos h, if_pos (cachedFn_inj.mpr ⟨h.2, h.1⟩)]
  · rw [if_neg h, if_neg fun heq => h (cachedFn_inj.mp heq).symm]
    rfl

omit [StrHash] in
theorem sameInputs_dump (w : World Conf Ctx) (fn : String) (c : CheckerName) (result : List Ctx) :
    SameInputs w (w.dump (cachedFn fn c) result) := by
  refine ⟨rfl, fun fn' => ?_⟩
  have hne : (fn' : String) ≠ cachedFn fn c := fun h => by
    have hdb := fn'.2
    rw [h, isDatabase_cachedFn] at hdb
    cases hdb
  rw [World.dump, Dict.get?_set, if_neg hne]

variable {resolver checkers}

/-- **A call reads and extends the memo table** of `_explore_file`. -/
theorem tryCached_call {cs : List (FileCall Conf Ctx)} {w : World Conf Ctx}
    (h : Kept resolver checkers cs w) (c : CheckerName) (fn : DatabaseFile) :
    (tryCached resolver checkers (.new c) w fn).2 =
        exploreFile resolver checkers (c, fn) (pinned resolver checkers cs w c fn) ∧
      Kept resolver checkers (cs ++ [w.call c fn]) (tryCached resolver checkers (.new c) w fn).1 ∧
      SameInputs w (tryCached resolver checkers (.new c) w fn).1 := by
  have hresult := Memo.result_eq (f := exploreFile resolver checkers) cs (c, fn.1) (w.now fn)
  have htable := Memo.tableAfter_concat (f := exploreFile resolver checkers) cs (w.call c fn)
  have hload := h c fn
  rw [Memo.result, ← hload] at hresult
  rw [Memo.call, Memo.result, World.call, ← hload] at htable
  simp only at hresult htable
  unfold tryCached Explorer.new pinned
  rw [if_pos rfl]
  cases hcached : w.load (cachedFn fn c) with
  | some result =>
    rw [hcached] at hresult hload htable
    -- the table has the result already
    have hsame : Function.update (Memo.tableAfter (exploreFile resolver checkers) cs) (c, fn.1)
        (some result) = Memo.tableAfter (exploreFile resolver checkers) cs := by
      rw [hload, Function.update_eq_self]
    refine ⟨hresult, fun c' fn' => ?_, rfl, fun _ => rfl⟩
    rw [World.call, htable, h c' fn']
    exact (congrFun hsame _).symm
  | none =>
    rw [hcached] at hresult hload htable
    simp only at hresult htable ⊢
    cases hf : exploreFile resolver checkers (c, fn.1) (w.now fn) with
    | error err =>
      rw [hf] at hresult htable
      have hsame : Function.update (Memo.tableAfter (exploreFile resolver checkers) cs) (c, fn.1)
          none = Memo.tableAfter (exploreFile resolver checkers) cs := by
        rw [hload, Function.update_eq_self]
      refine ⟨hresult, fun c' fn' => ?_, rfl, fun _ => rfl⟩
      rw [World.call, htable, h c' fn']
      exact (congrFun hsame _).symm
    | ok result =>
      rw [hf] at hresult htable
      refine ⟨hresult, fun c' fn' => ?_, sameInputs_dump w fn c result⟩
      show (w.dump (cachedFn fn c) result).load (cachedFn fn' c') = _
      rw [load_dump, World.call, htable, Function.update_apply, h c' fn']
      simp only [Prod.mk.injEq]
      rfl

/-- What is pinned is the same after a call with present inputs. -/
theorem pinned_concat {cs : List (FileCall Conf Ctx)} {w w' : World Conf Ctx} (h : SameInputs w w')
    (c : CheckerName) (fn fn' : DatabaseFile) :
    pinned resolver checkers (cs ++ [w.call c fn]) w' c fn' = pinned resolver checkers cs w c fn' := by
  rw [pinned, pinned, h.now]
  apply Memo.first_append_now
  intro call hcall hkey
  rw [List.mem_singleton.mp hcall] at hkey ⊢
  rw [World.call, Prod.mk.injEq] at hkey
  rw [World.call, hkey.2]

omit [StrHash] in
/-- The call for a file is the same where the inputs are. -/
theorem SameInputs.call {w w' : World Conf Ctx} (h : SameInputs w w') (c : CheckerName) :
    w'.call c = w.call c := by
  funext fn
  rw [World.call, World.call, h.now]

/-- **The loop** gets what is pinned of each file. -/
theorem exploreAll_pinned (c : CheckerName) : ∀ (fns : List DatabaseFile) {cs : List (FileCall Conf Ctx)}
    {w : World Conf Ctx}, Kept resolver checkers cs w →
    (exploreAll resolver checkers (.new c) w fns).2 = gather (fun fn : DatabaseFile =>
        exploreFile resolver checkers (c, fn) (pinned resolver checkers cs w c fn)) fns ∧
      Kept resolver checkers (cs ++ (called resolver checkers (.new c) w fns).map (w.call c))
        (exploreAll resolver checkers (.new c) w fns).1
  | [], cs, w, h => ⟨rfl, by rwa [called, List.map_nil, List.append_nil]⟩
  | fn :: fns, cs, w, h => by
    obtain ⟨hresult, hkept, hsame⟩ := tryCached_call h c fn
    have ih := exploreAll_pinned c fns hkept
    rw [exploreAll, called, gather, List.map_cons, ← hresult]
    cases htry : tryCached resolver checkers (.new c) w fn with
    | mk w' r =>
      rw [htry] at hkept hsame ih
      cases r with
      | error err => exact ⟨rfl, hkept⟩
      | ok ctxs =>
        rw [hsame.call] at ih
        simp only [pinned_concat hsame] at ih
        obtain ⟨hrest, hkept'⟩ := ih
        rw [List.append_assoc] at hkept'
        refine ⟨?_, hkept'⟩
        rw [← hrest]
        show (exploreAll resolver checkers (.new c) w' fns).2.map (ctxs ++ ·) = _
        cases (exploreAll resolver checkers (.new c) w' fns).2 <;> rfl

/-- **The workers' calls** get what is pinned of each file. -/
theorem callAll_pinned (c : CheckerName) : ∀ (order : List DatabaseFile) {cs : List (FileCall Conf Ctx)}
    {w : World Conf Ctx}, Kept resolver checkers cs w →
    (callAll resolver checkers (.new c) w order).2 = order.map (fun fn =>
        (fn, exploreFile resolver checkers (c, fn.1) (pinned resolver checkers cs w c fn))) ∧
      Kept resolver checkers (cs ++ order.map (w.call c)) (callAll resolver checkers (.new c) w order).1
  | [], cs, w, h => ⟨rfl, by rwa [List.map_nil, List.append_nil]⟩
  | fn :: fns, cs, w, h => by
    obtain ⟨hresult, hkept, hsame⟩ := tryCached_call h c fn
    obtain ⟨hrest, hkept'⟩ := callAll_pinned c fns hkept
    simp only [pinned_concat hsame] at hrest
    rw [hsame.call, List.append_assoc] at hkept'
    refine ⟨?_, hkept'⟩
    rw [callAll, List.map_cons, ← hresult, ← hrest]

/-- **A step extends the memo table** by its calls. -/
theorem step_kept {cs : List (FileCall Conf Ctx)} {w : World Conf Ctx} (h : Kept resolver checkers cs w)
    (s : Step Conf) :
    Kept resolver checkers (cs ++ stepCalls resolver checkers w s) (step resolver checkers w s) := by
  cases s with
  | rebuild fn bodies =>
    rw [stepCalls, List.append_nil]
    intro checker fn'
    have hne : cachedFn fn' checker ≠ fn := fun heq => by
      have hdb := fn.2
      rw [← heq, isDatabase_cachedFn] at hdb
      cases hdb
    rw [← h checker fn', step, World.load, Dict.get?_set, if_neg hne, World.load]
  | configure conf =>
    rw [stepCalls, List.append_nil]
    exact h
  | explore checker fns => exact (exploreAll_pinned checker fns h).2
  | exploreParallel checker fns order => exact (callAll_pinned checker order h).2

theorem kept_from : ∀ (steps : List (Step Conf)) {cs : List (FileCall Conf Ctx)} {w : World Conf Ctx},
    Kept resolver checkers cs w → Kept resolver checkers (cs ++ callsFrom resolver checkers w steps)
      (steps.foldl (step resolver checkers) w)
  | [], cs, w, h => by rwa [callsFrom, List.append_nil]
  | s :: steps, cs, w, h => by
    rw [callsFrom, ← List.append_assoc]
    exact kept_from steps (step_kept h s)

/-- **After a history** the cache files keep the results of its calls. -/
theorem kept_after (conf : Conf) (steps : List (Step Conf)) :
    Kept resolver checkers (calls resolver checkers conf steps) (after resolver checkers conf steps) :=
  have hstart : Kept resolver checkers [] ⟨conf, .empty⟩ := fun _ _ => rfl
  kept_from steps hstart

/-- With the caches off, the loop gets the present result of each file. -/
theorem exploreAll_skipCache (c : CheckerName) (w : World Conf Ctx) : ∀ fns : List DatabaseFile,
    exploreAll resolver checkers (.skipCache c) w fns =
      (w, gather (fun fn : DatabaseFile => exploreFile resolver checkers (c, fn) (w.now fn)) fns)
  | [] => rfl
  | fn :: fns => by
    have htry : tryCached resolver checkers (.skipCache c) w fn =
        (w, exploreFile resolver checkers (c, fn) (w.now fn)) := by
      rw [tryCached, Explorer.skipCache]
      cases exploreFile resolver checkers (c, fn) (w.now fn) <;> rfl
    rw [exploreAll, htry, gather]
    cases exploreFile resolver checkers (c, fn) (w.now fn) with
    | error err => rfl
    | ok ctxs =>
      simp only [exploreAll_skipCache c w fns]
      cases gather (fun fn : DatabaseFile => exploreFile resolver checkers (c, fn) (w.now fn)) fns <;> rfl

end

theorem lookup_map {A B : Type} [BEq A] [LawfulBEq A] (g : A → B) {a : A} : ∀ {as : List A}, a ∈ as →
    (as.map fun a => (a, g a)).lookup a = some (g a)
  | b :: as, h => by
    rw [List.map_cons, List.lookup_cons]
    by_cases hab : a = b
    · subst hab
      rw [beq_self_eq_true]
    · rw [beq_false_of_ne hab]
      exact lookup_map g ((List.mem_cons.mp h).resolve_left hab)

section

variable {Conf Ctx Reports : Type} [StrHash] (resolver : String → Resolver)
  (checkers : CheckerName → CheckerClass Conf Ctx Reports)

/-- **What a cached run reports on.** After every history, a run merges, under
the present configuration, the contexts of each file for the contents and the
configuration that were there when the checker first explored the file; in
worker processes too, in whatever order they make their calls. It reports what
a run without the cache does if these are the present ones. -/
theorem explore_pinned (conf : Conf) (steps : List (Step Conf)) (c : CheckerName)
    (fns : List DatabaseFile) :
    let w := after resolver checkers conf steps
    let input := pinned resolver checkers (calls resolver checkers conf steps) w c
    let reports := (gather (fun fn : DatabaseFile =>
      exploreFile resolver checkers (c, fn) (input fn)) fns).map ((checkers c).merge w.conf)
    (explore resolver checkers (.new c) w fns).2 = reports ∧
      (∀ order, (∀ fn ∈ fns, fn ∈ order) →
        (exploreParallel resolver checkers (.new c) w fns order).2 = reports.toOption) ∧
      ((∀ fn ∈ fns, input fn = w.now fn) →
        (explore resolver checkers (.new c) w fns).2 =
          (explore resolver checkers (.skipCache c) w fns).2) := by
  intro w input reports
  have hkept : Kept resolver checkers (calls resolver checkers conf steps) w := kept_after conf steps
  have hexplore : (explore resolver checkers (.new c) w fns).2 = reports := by
    have hall := (exploreAll_pinned c fns hkept).1
    exact congrArg (Except.map ((checkers c).merge w.conf)) hall
  refine ⟨hexplore, fun order horder => ?_, fun hnow => ?_⟩
  · have hcalls := (callAll_pinned c order hkept).1
    have hlookup : ∀ fn ∈ fns,
        ((callAll resolver checkers (.new c) w order).2.lookup fn).bind Except.toOption =
          (exploreFile resolver checkers (c, fn.1) (input fn)).toOption := fun fn hfn => by
      rw [hcalls, lookup_map _ (horder fn hfn), Option.bind_some]
    have hctxs := congrArg (Option.map ((checkers c).merge w.conf)) (mapM_toOption hlookup)
    rw [Option.map_map] at hctxs
    calc (exploreParallel resolver checkers (.new c) w fns order).2
      _ = (gather (fun fn : DatabaseFile =>
            exploreFile resolver checkers (c, fn) (input fn)) fns).toOption.map
            ((checkers c).merge w.conf) := hctxs
      _ = reports.toOption := by
        show _ = Except.toOption (Except.map _ _)
        cases gather (fun fn : DatabaseFile =>
          exploreFile resolver checkers (c, fn.1) (input fn)) fns <;> rfl
  · have hskip : exploreAll resolver checkers (.skipCache c) w fns = _ := exploreAll_skipCache c w fns
    have hpresent := gather_congr fun fn hfn =>
      congrArg (exploreFile resolver checkers (c, fn.1)) (hnow fn hfn)
    calc (explore resolver checkers (.new c) w fns).2
      _ = reports := hexplore
      _ = (exploreAll resolver checkers (.skipCache c) w fns).2.map ((checkers c).merge w.conf) := by
        rw [hskip]
        exact congrArg (Except.map ((checkers c).merge w.conf)) hpresent
      _ = (explore resolver checkers (.skipCache c) w fns).2 := rfl

end

/-! ### A stale run -/

/-- `ThreadSafetyChecker`, as `CHECKERS` has it. -/
def threadClass [SetOrder Code] : CheckerClass Config (Context (Option String) Bool Code)
    (Except Error (Option (List (BugReport (Option String) Bool Code)))) where
  parseConstraints := false
  process := Checker.process ThreadSafetyChecker.processPath
  merge _ := ThreadSafetyChecker.merge

/-- A node with a call event. -/
def callElement (call code : String) (below : Element) : Element :=
  ExecTree.nodeElement
    [ExecTree.leaf "KIND" "@LOG_CALL", ExecTree.leaf "CODE" code, ExecTree.leaf "CALL" call] [below]

/-- Four calls of `f` with a lock, and one without. -/
def locksTree : Element :=
  callElement "pthread_mutex_lock(m)" "a.c:0" <|
  callElement "f()" "a.c:1" <| callElement "f()" "a.c:2" <|
  callElement "f()" "a.c:3" <| callElement "f()" "a.c:4" <|
  callElement "pthread_mutex_unlock(m)" "a.c:5" <| callElement "f()" "b.c:1" <|
  ExecTree.nodeElement [ExecTree.leaf "KIND" "@LOG_EOP"] []

/-- The only file of the database. -/
def databaseFile : DatabaseFile := ⟨"as-out/a.c.as", by decide⟩

/-- The file is built without trees, checked, and built with a tree. -/
def staleSteps : List (Step Config) :=
  [.rebuild databaseFile [], .explore .thread [databaseFile],
    .rebuild databaseFile [some [locksTree]]]

/-- The tree's uses have a report: the call without a lock. -/
theorem mem_reported_locks [SetOrder Code] : (4 / 5, some "b.c:1", some "f", false) ∈
    reported (ThreadSafetyChecker.merge (Context.ofTrees ⟨4 / 5⟩ [lockedCalls ++ unlockedCall])) := by
  have hcommon : Common ⟨4 / 5⟩ (sites [lockedCalls ++ unlockedCall] (some "f"))
      (sitesOf [lockedCalls ++ unlockedCall] (some "f") true) := by decide +kernel
  have hrare : ¬ Common ⟨4 / 5⟩ (sites [lockedCalls ++ unlockedCall] (some "f"))
      (sitesOf [lockedCalls ++ unlockedCall] (some "f") false) := by decide +kernel
  have hmissing : Missing ⟨4 / 5⟩ [lockedCalls ++ unlockedCall] (some "f") (some "b.c:1") := by
    refine ⟨by decide, fun v hv => ?_⟩
    cases v with
    | true => decide
    | false => exact absurd hv hrare
  have hends : Ends ⟨4 / 5⟩ [lockedCalls ++ unlockedCall] (some "f") true false := by
    refine ⟨⟨[], [false], by decide, hcommon, fun w hw => ?_⟩, [true], [], by decide, trivial, by simp⟩
    rw [List.mem_singleton.mp hw]
    exact hrare
  exact (ThreadSafetyChecker.mem_reported _ _ _).mpr
    ⟨_, _, _, _, hmissing, hends, by decide +kernel⟩

/-- The cached run has no reports, the run without the cache does. -/
theorem stale_reports :
    let _ : StrHash := ⟨fun s => s.length⟩
    let _ : SetOrder Code := ⟨Finset.toList, fun _ _ => Finset.mem_toList, Finset.nodup_toList⟩
    let w := after (fun _ => noResolver) (fun _ => threadClass) ⟨4 / 5⟩ staleSteps
    let run := fun e => (explore (fun _ => noResolver) (fun _ => threadClass) e w [databaseFile]).2
    run (.new .thread) = .ok (.ok none) ∧
      (∃ bugs, run (.skipCache .thread) = .ok bugs ∧
        (4 / 5, some "b.c:1", some "f", false) ∈ reported bugs) ∧
      run (.new .thread) ≠ run (.skipCache .thread) := by
  intro _ _ w run
  have hcached : run (.new .thread) = .ok (.ok none) := rfl
  have hfresh : run (.skipCache .thread) =
      .ok (ThreadSafetyChecker.merge (Context.ofTrees ⟨4 / 5⟩ [lockedCalls ++ unlockedCall])) := rfl
  refine ⟨hcached, ⟨_, hfresh, mem_reported_locks⟩, fun heq => ?_⟩
  rw [hcached, hfresh] at heq
  have hmem := mem_reported_locks
  rw [← Except.ok.inj heq] at hmem
  obtain ⟨bugs, h, -⟩ := hmem
  cases h

/-- The file is built with a tree and checked. -/
def freshSteps : List (Step Config) :=
  [.rebuild databaseFile [some [locksTree]], .explore .thread [databaseFile]]

/-- A second run, in a worker and in the loop. -/
theorem explore_pinned_fresh :
    let _ : StrHash := ⟨fun s => s.length⟩
    let _ : SetOrder Code := ⟨Finset.toList, fun _ _ => Finset.mem_toList, Finset.nodup_toList⟩
    let w := after (fun _ => noResolver) (fun _ => threadClass) ⟨4 / 5⟩ freshSteps
    let run := fun e => (explore (fun _ => noResolver) (fun _ => threadClass) e w [databaseFile]).2
    let workers := exploreParallel (fun _ => noResolver) (fun _ => threadClass) (.new .thread) w
      [databaseFile] [databaseFile]
    workers.2 = (run (.new .thread)).toOption ∧ run (.new .thread) = run (.skipCache .thread) := by
  intro _ _ w run workers
  obtain ⟨hrun, hworkers, hskip⟩ := explore_pinned (fun _ => noResolver) (fun _ => threadClass)
    ⟨4 / 5⟩ freshSteps .thread [databaseFile]
  refine ⟨?_, hskip fun fn hfn => ?_⟩
  · rw [hworkers [databaseFile] (fun _ h => h), ← hrun]
  · rw [List.mem_singleton.mp hfn]
    rfl

end Cache

end Apisan
