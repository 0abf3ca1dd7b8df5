/-
# What the statistics of return values mean

The contexts of the checker of return values, from the trees of a database to
their merge. A function is used at the locations of the return events with a
parseable call of it on a path that some tree yields, those of wrappers apart;
it is used with the first constraints that the path assumes of the call,
before or after the return (`statistics`). This holds where the parser of the
events leaks nothing from one text into a condition without one
(`TreeRun.NoLeak`); how far it has got before a tree, and what the checker parses
between two paths, makes no difference then.

Key definitions: `retValClass`, `TreeRun`, `TreeRun.NoLeak`,
`RetValChecker.Yields`, `RetValChecker.Returns`, `RetValChecker.Wrapper`,
`RetValChecker.contexts`.
Key theorems: `RetValChecker.mem_processPath`, `RetValChecker.processTree_ok`,
`RetValChecker.contexts_ok`, `RetValChecker.statistics`.
-/
import Apisan.Parse.Constraints
import Apisan.Check.Cache

namespace Apisan

open Python Machine Cache

variable [StrHash]

/-- `RetValChecker`, as `CHECKERS` has it. -/
def retValClass [SetOrder Code] (id? : ℤ → Option String) :
    CheckerClass Config (Context ℤ (List (ℤ × ℤ)) Code)
      (Except Error (Option (List (BugReport ℤ (List (ℤ × ℤ)) Code)))) where
  parseConstraints := true
  process := Checker.process RetValChecker.processPath
  merge _ := RetValChecker.merge id?

/-- A tree that a checker processes: its element and resolver, what the parser of
the events has left before it, and what the checker leaves of that after each
path. -/
structure TreeRun where
  left : SParser.Unread
  consume : List Yielded → SParser.Unread → SParser.Unread
  resolver : Resolver
  xml : Element

/-- Iterating the tree, no condition without a text is parsed to a constraint that
its path does not have. -/
def TreeRun.NoLeak (tree : TreeRun) : Prop :=
  ∀ heap root, ExecTree.ofElement tree.resolver true tree.xml = .ok (heap, root) →
    ∀ s, Reach (ExecTree.step (.shared tree.consume) tree.resolver) (ExecTree.start tree.left heap root) s →
      ¬ ExecTree.Leaks s

/-- A tree whose conditions have texts leaks nothing. -/
theorem TreeRun.noLeak_of_texted {tree : TreeRun} (h : tree.xml.texted tree.resolver = true) : tree.NoLeak :=
  fun _ _ hroot _ hs => ExecTree.not_leaks_of_texted h hroot hs

namespace RetValChecker

/-- Iterating the tree yields a path with these events. -/
def Yields (tree : TreeRun) (events : List Event) : Prop :=
  ∃ heap root yields y, ExecTree.ofElement tree.resolver true tree.xml = .ok (heap, root) ∧
    ExecTree.iterateFrom (.shared tree.consume) tree.left tree.resolver heap root = .done yields ∧
    y ∈ yields ∧ y.nodes.map ExecNode.event = events

/-- A return event with a parseable call, and its location. -/
def Returns (event : Event) (name : Symbol) (args : List Symbol) (code : Code) : Prop :=
  ∃ text, event = .ret ⟨some text, some code⟩ ∧ textSymbol text = some (.call name args)

/-- A call without constraints on the path, whose return is the last event
before the end. -/
def Wrapper (events : List Event) (i : ℕ) (call : Symbol) : Prop :=
  firstConstraint events call = none ∧ i + 2 = events.length

/-! ### The uses of a path -/

omit [StrHash] in
theorem call_eq_some {a : CallAttributes} {name : Symbol} {args : List Symbol} :
    a.call = .ok (some (name, args)) ↔
      ∃ text, a.callText = some text ∧ textSymbol text = some (.call name args) := by
  obtain ⟨callText, code⟩ := a
  cases callText with
  | none =>
    constructor
    · intro h
      cases h
    · rintro ⟨text, htext, -⟩
      cases htext
  | some text =>
    have hget : getAttribute (some text) = .ok text := rfl
    rw [CallAttributes.call, hget, ok_bind]
    simp only [Except.ok.injEq, Option.some.injEq, exists_eq_left']
    constructor
    · intro h
      split at h
      · obtain ⟨rfl, rfl⟩ : _ = name ∧ _ = args := by simpa using h
        assumption
      · cases h
    · intro h
      rw [h]

omit [StrHash] in
/-- The call that a return event is asked for. -/
theorem returns_iff {event : Event} {name : Symbol} {args : List Symbol} {code : Code} :
    Returns event name args code ↔
      ∃ a, isReturn event = .ok (some a) ∧ a.call = .ok (some (name, args)) ∧ a.code = some code := by
  simp only [call_eq_some]
  constructor
  · rintro ⟨text, rfl, hparse⟩
    cases text with
    | none => cases hparse
    | some text => exact ⟨_, rfl, ⟨_, rfl, hparse⟩, rfl⟩
  · rintro ⟨a, hreturn, ⟨text, htext, hparse⟩, hcode⟩
    cases event with
    | ret b =>
      obtain ⟨callText, hcallText, hmap⟩ := bind_eq_ok.mp hreturn
      cases callText with
      | none => cases hmap
      | some t =>
        cases hmap
        obtain ⟨callText', code'⟩ := b
        cases htext
        cases hcode
        exact ⟨text, rfl, hparse⟩
    | _ => cases hreturn

theorem mem_processEvent {path : Path} {m : ConstraintMgr} (hm : path.cmgr = some m) {event : Event}
    {i : ℕ} {adds : List (Add ℤ (List (ℤ × ℤ)) Code)} (h : processEvent path (event, i) = .ok adds)
    {a : Add ℤ (List (ℤ × ℤ)) Code} : a ∈ adds ↔ ∃ name args code, Returns event name args code ∧
      ¬ (m.get (.call name args) = none ∧ i + 2 = path.events.length) ∧
      a = ⟨name.key, m.get (.call name args), code⟩ := by
  simp only [returns_iff]
  obtain ⟨found, hfound, h⟩ := bind_eq_ok.mp h
  rw [hfound]
  cases found with
  | none =>
    cases h
    simp
  | some b =>
    obtain ⟨call, hcall, h⟩ := bind_eq_ok.mp h
    cases call with
    | none =>
      cases h
      simp [hcall]
    | some x =>
      obtain ⟨name, args⟩ := x
      obtain ⟨code, hcode, h⟩ := bind_eq_ok.mp h
      have hcode : b.code = some code := by
        cases hb : b.code with
        | none =>
          rw [hb] at hcode
          cases hcode
        | some c =>
          rw [hb] at hcode
          cases hcode
          rfl
      have hlookup : getConstraint path.cmgr (.call name args) = .ok (m.get (.call name args)) := by
        rw [hm]
        rfl
      simp only [hlookup, ok_bind] at h
      cases hget : m.get (.call name args) with
      | none =>
        simp only [hget] at h
        split_ifs at h with hi
        · cases h
          simp [hcall, hget, hi]
        · cases h
          simp [hcall, hget, hi, hcode]
      | some constraint =>
        rw [hget] at h
        cases h
        simp [hcall, hget, hcode]

/-- **The uses of a path**, given the constraints at its end. -/
theorem mem_processPath {path : Path} {m : ConstraintMgr} (hm : path.cmgr = some m)
    (hget : ∀ sym, m.get sym = firstConstraint path.events sym)
    {adds : List (Add ℤ (List (ℤ × ℤ)) Code)} (h : processPath path = .ok adds)
    {a : Add ℤ (List (ℤ × ℤ)) Code} : a ∈ adds ↔ ∃ i event name args code,
      path.events[i]? = some event ∧ Returns event name args code ∧
        ¬ Wrapper path.events i (.call name args) ∧
        a = ⟨name.key, firstConstraint path.events (.call name args), code⟩ := by
  rw [mem_gather h]
  constructor
  · rintro ⟨⟨event, i⟩, hmem, l, hl, ha⟩
    obtain ⟨name, args, code, hret, hwrapper, rfl⟩ := (mem_processEvent hm hl).mp ha
    rw [hget] at hwrapper ⊢
    exact ⟨i, event, name, args, code, List.mem_zipIdx_iff_getElem?.mp hmem, hret, hwrapper, rfl⟩
  · rintro ⟨i, event, name, args, code, hi, hret, hwrapper, rfl⟩
    have hmem : (event, i) ∈ path.events.zipIdx := List.mem_zipIdx_iff_getElem?.mpr hi
    obtain ⟨l, hl⟩ := of_gather_ok h (event, i) hmem
    rw [Wrapper, ← hget] at hwrapper
    rw [← hget]
    exact ⟨(event, i), hmem, l, hl, (mem_processEvent hm hl).mpr ⟨name, args, code, hret, hwrapper, rfl⟩⟩

/-! ### The uses of a tree -/

/-- The constraints at the end of a path that was yielded. -/
theorem exists_cmgr {resolver : Resolver} {xml : Element} {heap : Heap} {root : ExecNode}
    {yields : List Yielded} (hroot : ExecTree.ofElement resolver true xml = .ok (heap, root))
    (hdone : ExecTree.iterate resolver heap root = .done yields) {y : Yielded} (hy : y ∈ yields) :
    ∃ m, y.path.cmgr = some m ∧ ∀ sym, m.get sym = firstConstraint y.path.events sym := by
  obtain ⟨s, hreach, hyields⟩ := ExecTree.reach_of_done hdone
  obtain ⟨last, r, hlast, hr, hget⟩ := (ExecTree.mgrInv_reach hroot hreach).last_cmgr (hyields ▸ hy)
  refine ⟨y.heap.load r, ?_, fun sym => (hget sym).1⟩
  rw [Yielded.path, hlast, Option.bind_some, hr]
  rfl

/-- The constraints at the end of a path of a tree that leaks nothing. -/
theorem exists_cmgr_shared {tree : TreeRun} (hclean : tree.NoLeak) {heap : Heap} {root : ExecNode}
    {yields : List Yielded} (hroot : ExecTree.ofElement tree.resolver true tree.xml = .ok (heap, root))
    (hdone : ExecTree.iterateFrom (.shared tree.consume) tree.left tree.resolver heap root = .done yields)
    {y : Yielded} (hy : y ∈ yields) :
    ∃ m, y.path.cmgr = some m ∧ ∀ sym, m.get sym = firstConstraint y.path.events sym := by
  rw [ExecTree.iterateFrom_shared tree.consume tree.left (hclean heap root hroot)] at hdone
  exact exists_cmgr hroot hdone hy

/-- The use that a tree adds to a key, with a value and a location. -/
def Used (tree : TreeRun) (a : Add ℤ (List (ℤ × ℤ)) Code) : Prop :=
  ∃ events, Yields tree events ∧ ∃ i event name args, events[i]? = some event ∧
    Returns event name args a.code ∧ name.key = a.key ∧ ¬ Wrapper events i (.call name args) ∧
    firstConstraint events (.call name args) = a.value

section

variable [SetOrder Code] {id? : ℤ → Option String} {config : Config}

/-- **The context of a tree** has the uses of the paths that iterating it
yields. -/
theorem processTree_ok {tree : TreeRun} (hclean : tree.NoLeak) {l : List (Context ℤ (List (ℤ × ℤ)) Code)}
    (h : processTreeFrom (.shared tree.consume) tree.left (retValClass id?) tree.resolver config tree.xml =
      .ok l) :
    ∃ adds, l = [(Context.new config).addAll adds] ∧ ∀ a, a ∈ adds ↔ Used tree a := by
  obtain ⟨⟨heap, root⟩, hroot, h⟩ := bind_eq_ok.mp h
  cases hdone : ExecTree.iterateFrom (.shared tree.consume) tree.left tree.resolver heap root with
  | raised e yields =>
    simp only [hdone] at h
    obtain ⟨-, -, h⟩ := bind_eq_ok.mp h
    cases h
  | done yields =>
    simp only [hdone] at h
    obtain ⟨c, hc, h⟩ := bind_eq_ok.mp h
    cases h
    obtain ⟨hpaths, rfl⟩ := Checker.process_ok.mp hc
    refine ⟨_, rfl, fun a => ?_⟩
    simp only [Checker.mem_uses, List.mem_map, exists_exists_and_eq_and]
    constructor
    · rintro ⟨y, hy, adds, hadds, ha⟩
      obtain ⟨m, hm, hget⟩ := exists_cmgr_shared hclean hroot hdone hy
      obtain ⟨i, event, name, args, code, hi, hret, hwrapper, rfl⟩ := (mem_processPath hm hget hadds).mp ha
      exact ⟨y.path.events, ⟨heap, root, yields, y, hroot, hdone, hy, rfl⟩, i, event, name, args, hi, hret,
        rfl, hwrapper, rfl⟩
    · rintro ⟨events, ⟨heap', root', yields', y, hroot', hdone', hy, rfl⟩, i, event, name, args, hi, hret,
        hkey, hwrapper, hvalue⟩
      cases hroot.symm.trans hroot'
      cases hdone.symm.trans hdone'
      obtain ⟨m, hm, hget⟩ := exists_cmgr_shared hclean hroot hdone hy
      obtain ⟨adds, hadds⟩ := hpaths y.path (List.mem_map_of_mem hy)
      refine ⟨y, hy, adds, hadds, (mem_processPath hm hget hadds).mpr
        ⟨i, event, name, args, a.code, hi, hret, hwrapper, ?_⟩⟩
      obtain ⟨key, value, code⟩ := a
      rw [Add.mk.injEq]
      exact ⟨hkey.symm, hvalue.symm, rfl⟩

/-- The contexts of trees: `process` on each, in order. -/
def contexts (id? : ℤ → Option String) (config : Config) (trees : List TreeRun) :
    Except Error (List (Context ℤ (List (ℤ × ℤ)) Code)) :=
  gather (fun tree : TreeRun =>
    processTreeFrom (.shared tree.consume) tree.left (retValClass id?) tree.resolver config tree.xml) trees

/-- A return event with all its attributes. -/
def Complete (event : Event) : Prop := ∀ a, event = .ret a → a.callText ≠ none ∧ a.code ≠ none

omit [SetOrder Code] in
theorem processEvent_ok {path : Path} {m : ConstraintMgr} (hm : path.cmgr = some m) {event : Event}
    (h : Complete event) (i : ℕ) : ∃ adds, processEvent path (event, i) = .ok adds := by
  cases event with
  | ret a =>
    obtain ⟨htext, hcode⟩ := h a rfl
    obtain ⟨callText, code⟩ := a
    obtain ⟨text, rfl⟩ := Option.ne_none_iff_exists'.mp htext
    obtain ⟨x, rfl⟩ := Option.ne_none_iff_exists'.mp hcode
    cases text with
    | none => exact ⟨_, rfl⟩
    | some text =>
      have hreturn : isReturn (.ret ⟨some (some text), some x⟩) = .ok (some ⟨some (some text), some x⟩) := rfl
      obtain ⟨call, hcall⟩ : ∃ call, CallAttributes.call ⟨some (some text), some x⟩ = .ok call := ⟨_, rfl⟩
      simp only [processEvent, hreturn, ok_bind, hcall]
      cases call with
      | none => exact ⟨_, rfl⟩
      | some y =>
        obtain ⟨name, args⟩ := y
        have hlookup : getConstraint path.cmgr (.call name args) = .ok (m.get (.call name args)) := by
          rw [hm]
          rfl
        simp only [getAttribute, hlookup, ok_bind]
        cases m.get (.call name args) with
        | none =>
          simp only
          split_ifs
          · exact ⟨_, rfl⟩
          · exact ⟨_, rfl⟩
        | some constraint => exact ⟨_, rfl⟩
  | _ => exact ⟨_, rfl⟩

/-- Trees of parseable events have contexts, if their return events are
complete. -/
theorem contexts_ok {trees : List TreeRun} (hclean : ∀ tree ∈ trees, tree.NoLeak)
    (h : ∀ tree ∈ trees, tree.xml.parseable tree.resolver true = true)
    (hcomplete : ∀ tree ∈ trees, ∀ events, Yields tree events → ∀ event ∈ events, Complete event) :
    ∃ ctxs, contexts id? config trees = .ok ctxs := by
  refine gather_ok fun tree ht => ?_
  obtain ⟨heap, root, yields, hroot, hdone, -⟩ :=
    ExecTree.iterateFrom_paths (P := .shared tree.consume) (h tree ht) tree.left
  have hpaths : ∀ path ∈ yields.map Yielded.path, ∃ adds, processPath path = .ok adds := fun path hpath => by
    obtain ⟨y, hy, rfl⟩ := List.mem_map.mp hpath
    obtain ⟨m, hm, -⟩ := exists_cmgr_shared (hclean tree ht) hroot hdone hy
    have hevents := hcomplete tree ht y.path.events ⟨heap, root, yields, y, hroot, hdone, hy, rfl⟩
    refine gather_ok fun x hx => ?_
    have hmem : x.1 ∈ y.path.events := List.mem_of_getElem? (List.mem_zipIdx_iff_getElem?.mp hx)
    exact processEvent_ok hm (hevents x.1 hmem) x.2
  have hprocess : Checker.process processPath config (yields.map Yielded.path) = .ok _ :=
    Checker.process_ok.mpr ⟨hpaths, rfl⟩
  have hroot' : ExecTree.ofElement tree.resolver (retValClass id?).parseConstraints tree.xml =
    .ok (heap, root) := hroot
  have hprocess' : (retValClass id?).process config (yields.map Yielded.path) = .ok _ := hprocess
  simp only [processTreeFrom, hroot', ok_bind, hdone, hprocess']
  exact ⟨_, rfl⟩

/-- **What the statistics mean**, if no tree leaks anything. The merged context
has, for each function, the locations of the returns of a call of it on a yielded
path, wrappers apart; and with the constraints of the first assume event on the
path that is about the call. -/
theorem statistics {trees : List TreeRun} (hclean : ∀ tree ∈ trees, tree.NoLeak)
    {ctxs : List (Context ℤ (List (ℤ × ℤ)) Code)} {c : Context ℤ (List (ℤ × ℤ)) Code}
    (h : contexts id? config trees = .ok ctxs) (hc : Context.mergeAll ctxs = some c) :
    (∀ f x, x ∈ c.total f ↔ ∃ tree ∈ trees, ∃ events, Yields tree events ∧
      ∃ i event name args, events[i]? = some event ∧ Returns event name args x ∧ name.key = f ∧
        ¬ Wrapper events i (.call name args)) ∧
    ∀ f v x, x ∈ c.codes f v ↔ ∃ tree ∈ trees, ∃ events, Yields tree events ∧
      ∃ event ∈ events, ∃ name args, Returns event name args x ∧ name.key = f ∧
        firstConstraint events (.call name args) = some v := by
  obtain ⟨d, ds, rfl, rfl⟩ : ∃ d ds, ctxs = d :: ds ∧ ds.foldl Context.merge d = c := by
    cases ctxs with
    | nil => cases hc
    | cons d ds => exact ⟨d, ds, rfl, Option.some.inj hc⟩
  have hsome : ∀ tree ∈ trees, ∃ adds, processTreeFrom (.shared tree.consume) tree.left (retValClass id?)
      tree.resolver config tree.xml = .ok [(Context.new config).addAll adds] ∧ ∀ a, a ∈ adds ↔ Used tree a := by
    intro tree ht
    obtain ⟨l, hl⟩ := of_gather_ok h tree ht
    obtain ⟨adds, rfl, hadds⟩ := processTree_ok (hclean tree ht) hl
    exact ⟨adds, hl, hadds⟩
  constructor
  · intro f x
    rw [Context.mem_total_foldl_merge]
    constructor
    · rintro ⟨e, he, hx⟩
      obtain ⟨tree, ht, l, hl, hel⟩ := (mem_gather h).mp he
      obtain ⟨adds, rfl, hadds⟩ := processTree_ok (hclean tree ht) hl
      obtain rfl := List.mem_singleton.mp hel
      rw [Context.mem_total_addAll] at hx
      obtain ⟨a, ha, rfl, rfl⟩ := hx.resolve_left (Finset.notMem_empty x)
      obtain ⟨events, hyields, i, event, name, args, hi, hret, hkey, hwrapper, -⟩ := (hadds a).mp ha
      exact ⟨tree, ht, events, hyields, i, event, name, args, hi, hret, hkey, hwrapper⟩
    · rintro ⟨tree, ht, events, hyields, i, event, name, args, hi, hret, hkey, hwrapper⟩
      obtain ⟨adds, hl, hadds⟩ := hsome tree ht
      refine ⟨_, (mem_gather h).mpr ⟨tree, ht, _, hl, List.mem_singleton_self _⟩, ?_⟩
      exact Context.mem_total_addAll.mpr (.inr ⟨⟨f, firstConstraint events (.call name args), x⟩,
        (hadds _).mpr ⟨events, hyields, i, event, name, args, hi, hret, hkey, hwrapper, rfl⟩, rfl, rfl⟩)
  · intro f v x
    rw [Context.mem_codes_foldl_merge]
    constructor
    · rintro ⟨e, he, hx⟩
      obtain ⟨tree, ht, l, hl, hel⟩ := (mem_gather h).mp he
      obtain ⟨adds, rfl, hadds⟩ := processTree_ok (hclean tree ht) hl
      obtain rfl := List.mem_singleton.mp hel
      rw [Context.mem_codes_addAll] at hx
      obtain ⟨a, ha, rfl, hv, rfl⟩ := hx.resolve_left (Finset.notMem_empty x)
      obtain ⟨events, hyields, i, event, name, args, hi, hret, hkey, -, hfirst⟩ := (hadds a).mp ha
      exact ⟨tree, ht, events, hyields, event, List.mem_of_getElem? hi, name, args, hret, hkey,
        hfirst.trans hv⟩
    · rintro ⟨tree, ht, events, hyields, event, hmem, name, args, hret, hkey, hfirst⟩
      obtain ⟨adds, hl, hadds⟩ := hsome tree ht
      obtain ⟨i, hi⟩ := List.mem_iff_getElem?.mp hmem
      -- a call with constraints is no wrapper
      have hwrapper : ¬ Wrapper events i (.call name args) := fun hw => by
        rw [Wrapper, hfirst] at hw
        cases hw.1
      refine ⟨_, (mem_gather h).mpr ⟨tree, ht, _, hl, List.mem_singleton_self _⟩, ?_⟩
      exact Context.mem_codes_addAll.mpr (.inr ⟨⟨f, some v, x⟩,
        (hadds _).mpr ⟨events, hyields, i, event, name, args, hi, hret, hkey, hwrapper, hfirst⟩, rfl, rfl,
        rfl⟩)

end

/-- A node with a return event. -/
def returnElement (call code : String) (below : Element) : Element :=
  ExecTree.nodeElement
    [ExecTree.leaf "KIND" "@LOG_RETURN", ExecTree.leaf "CODE" code, ExecTree.leaf "RETURN" call] [below]

/-- A call whose result is compared after its return. -/
def comparedTree : Element :=
  returnElement "f(x)" "a.c:1" <|
  ExecTree.nodeElement [ExecTree.leaf "KIND" "@LOG_ASSUME", ExecTree.leaf "COND" "f(x)@=\x7b [0, 0] \x7d"]
    [ExecTree.nodeElement [ExecTree.leaf "KIND" "@LOG_EOP"] []]

/-- A tree for a fresh parser, and a checker that parses nothing between its paths. -/
def freshRun (xml : Element) : TreeRun := ⟨.empty, fun _ left => left, noResolver, xml⟩

omit [StrHash] in
/-- The return is used with the constraints of the comparison. -/
theorem statistics_compared :
    let _ : StrHash := ⟨fun s => s.length⟩
    let _ : SetOrder Code := ⟨Finset.toList, fun _ _ => Finset.mem_toList, Finset.nodup_toList⟩
    ∃ ctxs c, contexts (fun _ => none) ⟨4 / 5⟩ [freshRun comparedTree] = .ok ctxs ∧
      Context.mergeAll ctxs = some c ∧ some "a.c:1" ∈ c.total (Symbol.id "f").key ∧
      some "a.c:1" ∈ c.codes (Symbol.id "f").key [(0, 0)] := by
  intro _ _
  obtain ⟨ctxs, c, hctxs, hc⟩ : ∃ ctxs c,
      contexts (fun _ => none) ⟨4 / 5⟩ [freshRun comparedTree] = .ok ctxs ∧
        Context.mergeAll ctxs = some c := ⟨_, _, rfl, rfl⟩
  have hclean : ∀ tree ∈ [freshRun comparedTree], tree.NoLeak :=
    List.forall_mem_singleton.mpr (TreeRun.noLeak_of_texted (by decide))
  obtain ⟨htotal, hcodes⟩ := statistics hclean hctxs hc
  have hret : Returns (.ret ⟨some (some "f(x)"), some (some "a.c:1")⟩) (.id "f") [.id "x"]
      (some "a.c:1") := ⟨_, rfl, rfl⟩
  have hyields : Yields (freshRun comparedTree) [.ret ⟨some (some "f(x)"), some (some "a.c:1")⟩,
      .assume (some (some "f(x)@=\x7b [0, 0] \x7d")), .eop] :=
    ⟨_, _, _, _, rfl, rfl, List.mem_singleton_self _, rfl⟩
  refine ⟨ctxs, c, hctxs, hc, ?_, ?_⟩
  · exact (htotal _ _).mpr ⟨_, List.mem_singleton_self _, _, hyields, 0, _, _, _, rfl, hret, rfl,
      fun hw => absurd hw.2 (by decide)⟩
  · exact (hcodes _ _ _).mpr ⟨_, List.mem_singleton_self _, _, hyields, _, List.mem_cons_self, _, _, hret,
      rfl, by decide⟩

/-- Two branches: a condition in whose text `int()` raises, and one without a text
before a return. -/
def unreadReturn : Element :=
  let eop := ExecTree.nodeElement [ExecTree.leaf "KIND" "@LOG_EOP"] []
  ExecTree.nodeElement
    [ExecTree.leaf "KIND" "@LOG_CALL", ExecTree.leaf "CODE" "a.c:1", ExecTree.leaf "CALL" "g(x)"]
    [ExecTree.nodeElement
        [ExecTree.leaf "KIND" "@LOG_ASSUME", ExecTree.leaf "COND" "0u, f(x)@=\x7b [7, 7] \x7d"] [eop],
      ExecTree.nodeElement [ExecTree.leaf "KIND" "@LOG_ASSUME", .mk "COND" none []]
        [returnElement "f(x)" "a.c:2" eop]]

/-- The element's event records nothing. -/
def quiet (e : Element) : Bool :=
  match ExecNode.parseEvent noResolver (e.find "EVENT") with
  | .ok event => event.constraint.isNone
  | .error _ => true

/-- No path of the tree says anything of a symbol. -/
theorem unreadReturn_constraint {events : List Event} (h : Yields (freshRun unreadReturn) events) (s : Symbol) :
    firstConstraint events s = none := by
  have hparse : unreadReturn.parseable noResolver true = true := by decide
  have hquiet : ∀ p ∈ Element.paths noResolver unreadReturn, ∀ e ∈ p, quiet e = true := by decide +kernel
  obtain ⟨heap, root, yields, y, hroot, hdone, hy, rfl⟩ := h
  obtain ⟨heap', root', yields', hroot', hdone', hpaths, hevents⟩ :=
    ExecTree.iterateFrom_paths (P := .shared fun _ left => left) hparse .empty
  cases hroot.symm.trans hroot'
  cases hdone.symm.trans hdone'
  refine List.findSome?_eq_none_iff.mpr fun event hevent => ?_
  obtain ⟨n, hn, rfl⟩ := List.mem_map.mp hevent
  have hnode := hquiet _ (hpaths ▸ List.mem_map_of_mem hy) n.node (List.mem_map_of_mem hn)
  rw [quiet, hevents y hy n hn, Option.isNone_iff_eq_none] at hnode
  rw [Event.constraintOn, hnode]
  rfl

omit [StrHash] in
/-- The return is used with constraints that no path of the tree has. -/
theorem return_leaked :
    let _ : StrHash := ⟨fun s => s.length⟩
    let _ : SetOrder Code := ⟨Finset.toList, fun _ _ => Finset.mem_toList, Finset.nodup_toList⟩
    ∃ ctxs c, contexts (fun _ => none) ⟨4 / 5⟩ [freshRun unreadReturn] = .ok ctxs ∧
      Context.mergeAll ctxs = some c ∧ some "a.c:2" ∈ c.codes (Symbol.id "f").key [(7, 7)] ∧
      ∀ events, Yields (freshRun unreadReturn) events → ∀ s, firstConstraint events s = none := by
  intro _ _
  refine ⟨_, _, rfl, rfl, by decide, fun events h s => unreadReturn_constraint h s⟩

end RetValChecker

end Apisan
