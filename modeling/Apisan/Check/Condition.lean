/-
# The checker of conditions

What `condition.py` collects, and why a run never gets there. For every call of
a path the checker adds a use with every other call of the path, both with
their constraints at its end, and the contexts of trees that have one are
merged as for all checkers (`stores_of_initialized`). But its
`_initialize_process` takes a configuration that `process` does not pass, so
every tree raises (`collects_iff`).

Key definitions: `Context.baseBugs`, `CondChecker.processPath`,
`CondChecker.process`, `CondChecker.PairUsed`, `CondChecker.Collects`.
Key theorems: `CondChecker.mem_processPath`,
`CondChecker.stores_of_initialized`, `CondChecker.collects_iff`.
-/
import Apisan.Check.Deviant

namespace Apisan

open Python

/-- The reports of a key in `Context.get_bugs`, for the checkers that keep it. -/
def Context.baseBugs {K V C : Type} [DecidableEq C] [SetOrder C] (config : Config) (key : K)
    (value : Store1 V C) (total : Finset C) : Except Error (List (BugReport K V C)) :=
  gather (fun x => do
    let score ← quotient x.2.card total.card
    if config.threshold ≤ score ∧ score ≠ 1 then .ok (reports score key x.1 (total \ x.2)) else .ok [])
    value.entries

namespace CondChecker

variable [StrHash]

/-- A key of the context, and a value as well: the name of the called function,
and the constraints on the result. -/
abbrev Key := ℤ × Option (List (ℤ × ℤ))

/-- `cmgr.get(call, True)`, where the call may be `None`. -/
def constraintOf (cmgr : Option ConstraintMgr) :
    Option (Symbol × List Symbol) → Except Error (Option (List (ℤ × ℤ)))
  | some (name, args) => getConstraint cmgr (.call name args)
  | none => do
    let _ ← getAttribute cmgr
    .ok none

/-- The use of a call with another event of the path. A call that does not
parse has no `name`. -/
def addOther (cmgr : Option ConstraintMgr) (call : Option (Symbol × List Symbol))
    (cstr : Option (List (ℤ × ℤ))) (code : Code) (other : Event) :
    Except Error (List (Add Key Key Code)) := do
  match ← isCall other with
  | none => .ok []
  | some b =>
    let ffCall ← b.call
    let otherCstr ← constraintOf cmgr ffCall
    let (name, _) ← getAttribute call
    let (ffName, _) ← getAttribute ffCall
    .ok [⟨(name.key, cstr), some (ffName.key, otherCstr), code⟩]

/-- The uses of the event at an index. -/
def processEvent (path : Path) (x : Event × ℕ) : Except Error (List (Add Key Key Code)) := do
  match ← isCall x.1 with
  | none => .ok []
  | some a =>
    let call ← a.call
    let code ← getAttribute a.code
    let cstr ← constraintOf path.cmgr call
    gather (fun other => if x.2 = other.2 then .ok [] else addOther path.cmgr call cstr code other.1)
      path.events.zipIdx

/-- `CondChecker._process_path`. -/
def processPath (path : Path) : Except Error (List (Add Key Key Code)) :=
  gather (processEvent path) path.events.zipIdx

/-- `CondChecker._initialize_process`, given its arguments after `self`. -/
def initializeProcess : List Config → Except Error (Context Key Key Code)
  | [config] => .ok (.new config)
  | _ => .error .typeError

/-- `Checker.process`, which calls `_initialize_process` without arguments. -/
def process (tree : List Path) : Except Error (Context Key Key Code) := do
  let context ← initializeProcess []
  tree.foldlM (fun c path => do
    let adds ← processPath path
    .ok (c.addAll adds)) context

/-- The contexts of the trees. -/
def processAll (trees : List (List Path)) : Except Error (List (Context Key Key Code)) :=
  gather (fun tree => do
    let c ← process tree
    .ok [c]) trees

/-- `CondChecker.rank`. -/
def rank (reports : List (BugReport Key Key Code)) : List (BugReport Key Key Code) := sortedByScore reports

/-- `CondChecker.merge`. -/
def merge [SetOrder Code] (ctxs : List (Context Key Key Code)) :
    Except Error (Option (List (BugReport Key Key Code))) :=
  Deviant.merge Context.baseBugs rank ctxs

/-! ### What a path adds -/

/-- The event at an index is a call that parses, with its name and its
constraints at the end of the path. -/
def CallAt (path : Path) (i : ℕ) (a : CallAttributes) (key : Key) : Prop :=
  ∃ event name args m, path.events[i]? = some event ∧ isCall event = .ok (some a) ∧
    a.call = .ok (some (name, args)) ∧ path.cmgr = some m ∧ key = (name.key, m.get (.call name args))

/-- Two calls at distinct positions of a path, the first one at a location. -/
def PairUsed (paths : List Path) (key value : Key) (code : Code) : Prop :=
  ∃ path ∈ paths, ∃ i j a b, i ≠ j ∧ CallAt path i a key ∧ CallAt path j b value ∧ a.code = some code

theorem constraintOf_some {cmgr : Option ConstraintMgr} {name : Symbol} {args : List Symbol}
    {cstr : Option (List (ℤ × ℤ))} : constraintOf cmgr (some (name, args)) = .ok cstr ↔
      ∃ m, cmgr = some m ∧ cstr = m.get (.call name args) := by
  cases cmgr <;> simp [constraintOf, getConstraint, eq_comm]

theorem mem_addOther {cmgr : Option ConstraintMgr} {call : Option (Symbol × List Symbol)}
    {cstr : Option (List (ℤ × ℤ))} {code : Code} {other : Event} {adds : List (Add Key Key Code)}
    (h : addOther cmgr call cstr code other = .ok adds) {x : Add Key Key Code} : x ∈ adds ↔
      ∃ b name args ffName ffArgs m, isCall other = .ok (some b) ∧ b.call = .ok (some (ffName, ffArgs)) ∧
        call = some (name, args) ∧ cmgr = some m ∧
        x = ⟨(name.key, cstr), some (ffName.key, m.get (.call ffName ffArgs)), code⟩ := by
  obtain ⟨r, hr, h⟩ := bind_eq_ok.mp h
  cases r with
  | none =>
    cases h
    simp [hr]
  | some b =>
    obtain ⟨ffCall, hffCall, h⟩ := bind_eq_ok.mp h
    obtain ⟨otherCstr, hother, h⟩ := bind_eq_ok.mp h
    obtain ⟨⟨name, args⟩, hcall, h⟩ := bind_eq_ok.mp h
    obtain ⟨⟨ffName, ffArgs⟩, hff, h⟩ := bind_eq_ok.mp h
    cases h
    obtain rfl := getAttribute_eq_ok.mp hcall
    obtain rfl := getAttribute_eq_ok.mp hff
    obtain ⟨m, rfl, rfl⟩ := constraintOf_some.mp hother
    rw [List.mem_singleton]
    constructor
    · rintro rfl
      exact ⟨b, name, args, ffName, ffArgs, m, hr, hffCall, rfl, rfl, rfl⟩
    · rintro ⟨b', name', args', ffName', ffArgs', m', hr', hff', hcall', hm', rfl⟩
      cases hr.symm.trans hr'
      cases hffCall.symm.trans hff'
      cases hcall'
      cases hm'
      rfl

/-- **What a path adds**: each two calls at distinct positions. -/
theorem mem_processPath {path : Path} {adds : List (Add Key Key Code)} (h : processPath path = .ok adds)
    {x : Add Key Key Code} :
    x ∈ adds ↔ ∃ i j a b value, i ≠ j ∧ CallAt path i a x.key ∧ CallAt path j b value ∧
      x.value = some value ∧ a.code = some x.code := by
  rw [mem_gather h]
  constructor
  · rintro ⟨⟨event, i⟩, hevent, l, hl, hx⟩
    obtain ⟨r, hr, hl⟩ := bind_eq_ok.mp hl
    cases r with
    | none =>
      cases hl
      cases hx
    | some a =>
      obtain ⟨call, hcall, hl⟩ := bind_eq_ok.mp hl
      obtain ⟨code, hcode, hl⟩ := bind_eq_ok.mp hl
      obtain ⟨cstr, hcstr, hl⟩ := bind_eq_ok.mp hl
      obtain ⟨⟨other, j⟩, hother, l', hl', hx⟩ := (mem_gather hl).mp hx
      by_cases hij : i = j
      · rw [if_pos hij] at hl'
        cases hl'
        cases hx
      rw [if_neg hij] at hl'
      obtain ⟨b, name, args, ffName, ffArgs, m, hb, hffCall, rfl, hm, rfl⟩ := (mem_addOther hl').mp hx
      obtain ⟨m', hm', rfl⟩ := constraintOf_some.mp hcstr
      cases hm.symm.trans hm'
      exact ⟨i, j, a, b, _, hij,
        ⟨event, name, args, m, List.mem_zipIdx_iff_getElem?.mp hevent, hr, hcall, hm, rfl⟩,
        ⟨other, ffName, ffArgs, m, List.mem_zipIdx_iff_getElem?.mp hother, hb, hffCall, hm, rfl⟩, rfl,
        getAttribute_eq_ok.mp hcode⟩
  · rintro ⟨i, j, a, b, value, hij, ⟨event, name, args, m, hevent, hr, hcall, hm, hkey⟩,
      ⟨other, ffName, ffArgs, m', hother, hb, hffCall, hm', rfl⟩, hvalue, hcode⟩
    cases hm.symm.trans hm'
    obtain ⟨key, v, code⟩ := x
    cases hkey
    cases hvalue
    have hevent : (event, i) ∈ path.events.zipIdx := List.mem_zipIdx_iff_getElem?.mpr hevent
    have hother : (other, j) ∈ path.events.zipIdx := List.mem_zipIdx_iff_getElem?.mpr hother
    obtain ⟨l, hl⟩ := of_gather_ok h _ hevent
    refine ⟨(event, i), hevent, l, hl, ?_⟩
    obtain ⟨r, hr', hl⟩ := bind_eq_ok.mp hl
    cases hr.symm.trans hr'
    obtain ⟨call, hcall', hl⟩ := bind_eq_ok.mp hl
    cases hcall.symm.trans hcall'
    obtain ⟨code', hcode', hl⟩ := bind_eq_ok.mp hl
    cases hcode.symm.trans (getAttribute_eq_ok.mp hcode')
    obtain ⟨cstr, hcstr, hl⟩ := bind_eq_ok.mp hl
    obtain ⟨m', hm', rfl⟩ := constraintOf_some.mp hcstr
    cases hm.symm.trans hm'
    obtain ⟨l', hl'⟩ := of_gather_ok hl _ hother
    refine (mem_gather hl).mpr ⟨(other, j), hother, l', hl', ?_⟩
    rw [if_neg hij] at hl'
    exact (mem_addOther hl').mpr ⟨b, name, args, ffName, ffArgs, m, hb, hffCall, rfl, hm, rfl⟩

/-! ### Trees -/

/-- The stores of a context hold the pairs of calls of the paths, and nothing
else. -/
def HoldsPairs (paths : List Path) (c : Context Key Key Code) : Prop :=
  (∀ key value code, code ∈ c.codes key value ↔ PairUsed paths key value code) ∧
    ∀ key code, code ∈ c.total key ↔ ∃ value, PairUsed paths key value code

/-- **What the stores would hold.** Where each tree is processed from a new
context, as the other checkers do it, the merged context holds the pairs. -/
theorem stores_of_initialized {config : Config} {trees : List (List Path)}
    {ctxs : List (Context Key Key Code)} (h : Checker.Processed processPath config trees ctxs) :
    ∀ c, Context.mergeAll ctxs = some c → HoldsPairs trees.flatten c := by
  have hok : ∀ path ∈ trees.flatten, ∃ adds, processPath path = .ok adds := fun path hpath => by
    obtain ⟨tree, htree, hmem⟩ := List.mem_flatten.mp hpath
    obtain ⟨c, -, hc⟩ := h.exists_ctx htree
    exact (Checker.process_ok.mp hc).1 path hmem
  -- the uses of all trees are the pairs of their paths
  have huses : ∀ x, (∃ uses ∈ trees.map (Checker.uses processPath), x ∈ uses) ↔
      ∃ value, x.value = some value ∧ PairUsed trees.flatten x.key value x.code := fun x => by
    constructor
    · rintro ⟨uses, huses, hx⟩
      obtain ⟨tree, htree, rfl⟩ := List.mem_map.mp huses
      obtain ⟨path, hpath, adds, hadds, hx⟩ := Checker.mem_uses.mp hx
      obtain ⟨i, j, a, b, value, hij, hi, hj, hvalue, hcode⟩ := (mem_processPath hadds).mp hx
      exact ⟨value, hvalue, path, List.mem_flatten.mpr ⟨tree, htree, hpath⟩, i, j, a, b, hij, hi, hj, hcode⟩
    · rintro ⟨value, hvalue, path, hpath, i, j, a, b, hij, hi, hj, hcode⟩
      obtain ⟨adds, hadds⟩ := hok path hpath
      obtain ⟨tree, htree, hmem⟩ := List.mem_flatten.mp hpath
      have hx : x ∈ adds := (mem_processPath hadds).mpr ⟨i, j, a, b, value, hij, hi, hj, hvalue, hcode⟩
      exact ⟨_, List.mem_map_of_mem htree, Checker.mem_uses.mpr ⟨path, hmem, adds, hadds, hx⟩⟩
  rw [Context.ofTrees_of_processed h]
  intro c hc
  rcases Context.mergeAll_ofTrees config (trees.map (Checker.uses processPath)) with
    ⟨-, hnone⟩ | ⟨c', hsome, -, hholds⟩
  · rw [hnone] at hc
    cases hc
  cases hsome.symm.trans hc
  refine ⟨fun key value code => ?_, fun key code => ?_⟩
  · rw [hholds.codes, mem_sitesOf]
    constructor
    · rintro ⟨uses, hmem, x, hx, rfl, hvalue, rfl⟩
      obtain ⟨value', hvalue', hpair⟩ := (huses x).mp ⟨uses, hmem, hx⟩
      cases hvalue.symm.trans hvalue'
      exact hpair
    · intro hpair
      obtain ⟨uses, hmem, hx⟩ := (huses ⟨key, some value, code⟩).mpr ⟨value, rfl, hpair⟩
      exact ⟨uses, hmem, _, hx, rfl, rfl, rfl⟩
  · rw [hholds.total, mem_sites]
    constructor
    · rintro ⟨uses, hmem, x, hx, rfl, rfl⟩
      obtain ⟨value, -, hpair⟩ := (huses x).mp ⟨uses, hmem, hx⟩
      exact ⟨value, hpair⟩
    · rintro ⟨value, hpair⟩
      obtain ⟨uses, hmem, hx⟩ := (huses ⟨key, some value, code⟩).mpr ⟨value, rfl, hpair⟩
      exact ⟨uses, hmem, _, hx, rfl, rfl⟩

/-- The checker runs on the trees without an exception, and collects the pairs
of calls. -/
def Collects [SetOrder Code] (trees : List (List Path)) : Prop :=
  ∃ ctxs bugs, processAll trees = .ok ctxs ∧ merge ctxs = .ok bugs ∧
    ∀ c, Context.mergeAll ctxs = some c → HoldsPairs trees.flatten c

/-- **When the checker collects anything**: for no tree at all. -/
theorem collects_iff [SetOrder Code] (trees : List (List Path)) : Collects trees ↔ trees = [] := by
  constructor
  · rintro ⟨ctxs, bugs, hctxs, -, -⟩
    cases trees with
    | nil => rfl
    | cons tree trees => cases hctxs
  · rintro rfl
    exact ⟨[], none, rfl, rfl, fun c hc => by cases hc⟩

/-- A tree with two calls on its path. -/
def twoCalls : List Path :=
  [⟨[.call ⟨some (some "f(x)"), some (some "a.c:1")⟩, .call ⟨some (some "g(x)"), some (some "a.c:2")⟩, .eop],
    some .empty⟩]

omit [StrHash] in
/-- It raises before its path is looked at. -/
theorem twoCalls_raise :
    let _ : StrHash := ⟨fun s => s.length⟩
    let _ : SetOrder Code := ⟨Finset.toList, fun _ _ => Finset.mem_toList, Finset.nodup_toList⟩
    process twoCalls = .error .typeError ∧ ¬ Collects [twoCalls] := by
  intro _ _
  refine ⟨rfl, ?_⟩
  rintro ⟨ctxs, bugs, hctxs, -⟩
  cases hctxs

end CondChecker

end Apisan
