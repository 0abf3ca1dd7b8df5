/-
# Checkers

What a checker sees of a path: its events, and the constraint manager of its
last node. A checker is given by the uses it adds to its context for a path,
or what it raises; `process` makes the context of a tree's paths, and merging
the contexts of all trees into the first is the same for every checker.

The view of a processed context is the least one above the uses of its paths
(`view_process_le`), so it is decided by the set of paths: where a list of paths
is cut into trees, the join of the views of the trees' contexts is the view of
one context that processed them all (`Processed.view_eq`).

Key definitions: `Path`, `Checker.process`, `Checker.Processed`.
Key theorems: `Checker.process_ok`, `Checker.view_process_le`,
`Checker.Processed.view_eq`.
-/
import Apisan.Check.Context
import Apisan.Parse.Explorer

namespace Apisan

open Python

/-- A path as a checker gets it: the events of its nodes, and the constraints
of its last node (`path[-1].cmgr`). -/
structure Path where
  events : List Event
  cmgr : Option ConstraintMgr

/-- A path that was yielded. -/
def Yielded.path (y : Yielded) : Path where
  events := y.nodes.map ExecNode.event
  cmgr := y.nodes.getLast?.bind fun n => n.cmgr.map y.heap.load

/-- `is_call`: the attributes of a call event that has a text. -/
def isCall : Event → Except Error (Option CallAttributes)
  | .call a => do
    let text ← getAttribute a.callText
    .ok (text.map fun _ => a)
  | _ => .ok none

/-- The attributes that a checker reads of a call event are there: its text, and
the location of a call with a text. -/
def HasAttributes : Event → Prop
  | .call a => a.callText ≠ none ∧ (a.callText ≠ some none → a.code ≠ none)
  | _ => True

instance : DecidablePred HasAttributes
  | .call _ => inferInstanceAs (Decidable (_ ∧ _))
  | .ret _ => .isTrue trivial
  | .location _ _ => .isTrue trivial
  | .eop => .isTrue trivial
  | .assume _ => .isTrue trivial

/-- `is_return`. -/
def isReturn : Event → Except Error (Option CallAttributes)
  | .ret a => do
    let text ← getAttribute a.callText
    .ok (text.map fun _ => a)
  | _ => .ok none

inductive CallType
  | lock
  | unlock
  | other
  deriving DecidableEq, Repr

/-- `match_call`. -/
def matchCall (a : CallAttributes) : Except Error CallType := do
  let callName ← a.callName
  if callName = some "pthread_mutex_lock" then .ok .lock
  else if callName = some "pthread_mutex_unlock" then .ok .unlock
  else .ok .other

/-- `cmgr.get(sym)`, on a manager that may be `None`. -/
def getConstraint [StrHash] (cmgr : Option ConstraintMgr) (sym : Symbol) :
    Except Error (Option (List (ℤ × ℤ))) :=
  match cmgr with
  | some m => .ok (m.get sym)
  | none => .error .attributeError

namespace Checker

variable {P K V C : Type} [DecidableEq K] [DecidableEq V] [DecidableEq C]

section

variable (processPath : P → Except Error (List (Add K V C)))

/-- `Checker.process`, for a checker that adds the uses of each path to a new
context. -/
def process (config : Config) (tree : List P) : Except Error (Context K V C) :=
  tree.foldlM (fun c path => do
    let adds ← processPath path
    .ok (c.addAll adds)) (.new config)

end

variable {processPath : P → Except Error (List (Add K V C))}

/-- The uses of the paths, in order. -/
def uses (processPath : P → Except Error (List (Add K V C))) (tree : List P) : List (Add K V C) :=
  tree.flatMap fun path =>
    match processPath path with
    | .ok adds => adds
    | .error _ => []

omit [DecidableEq K] [DecidableEq V] [DecidableEq C] in
theorem mem_uses {a : Add K V C} {tree : List P} : a ∈ uses processPath tree ↔
    ∃ path ∈ tree, ∃ adds, processPath path = .ok adds ∧ a ∈ adds := by
  rw [uses, List.mem_flatMap]
  refine exists_congr fun path => and_congr_right fun _ => ?_
  cases processPath path <;> simp

theorem foldlM_ok {c' : Context K V C} : ∀ {tree : List P} {c : Context K V C},
    tree.foldlM (fun c path => do
      let adds ← processPath path
      Except.ok (c.addAll adds)) c = .ok c' ↔
      (∀ path ∈ tree, ∃ adds, processPath path = .ok adds) ∧ c' = c.addAll (uses processPath tree)
  | [], c => by
    constructor
    · intro h
      cases h
      exact ⟨by simp, rfl⟩
    · rintro ⟨-, rfl⟩
      rfl
  | path :: tree, c => by
    rw [List.foldlM_cons, List.forall_mem_cons, uses, List.flatMap_cons, ← uses]
    cases hp : processPath path with
    | error e =>
      constructor
      · intro h
        cases h
      · rintro ⟨⟨⟨adds, h⟩, -⟩, -⟩
        cases h
    | ok adds =>
      have happend : c.addAll (adds ++ uses processPath tree) =
          (c.addAll adds).addAll (uses processPath tree) := List.foldl_append
      rw [happend]
      refine Iff.trans (foldlM_ok (c := c.addAll adds)) ?_
      simp

/-- **What `process` returns.** It returns a context if no path raises: the
one with the uses of the paths. -/
theorem process_ok {config : Config} {tree : List P} {c : Context K V C} :
    process processPath config tree = .ok c ↔
      (∀ path ∈ tree, ∃ adds, processPath path = .ok adds) ∧
        c = (Context.new config).addAll (uses processPath tree) :=
  foldlM_ok

/-- The view of a processed context is the least one above the uses. -/
theorem view_process_le {config : Config} {tree : List P} {c : Context K V C}
    (h : process processPath config tree = .ok c) {x : Context.View K V C} :
    c.view ≤ x ↔ ∀ a ∈ uses processPath tree, Context.useView a ≤ x := by
  obtain ⟨-, rfl⟩ := process_ok.mp h
  rw [Context.view_addAll_le, Context.view_new]
  simp

/-- Contexts of trees: those `process` returns, one for each tree. -/
def Processed (processPath : P → Except Error (List (Add K V C))) (config : Config)
    (trees : List (List P)) (ctxs : List (Context K V C)) : Prop :=
  List.Forall₂ (fun tree c => process processPath config tree = .ok c) trees ctxs

namespace Processed

variable {config : Config} {trees : List (List P)} {ctxs : List (Context K V C)}

theorem exists_ctx (h : Processed processPath config trees ctxs) {tree : List P} (ht : tree ∈ trees) :
    ∃ c ∈ ctxs, process processPath config tree = .ok c := by
  induction h with
  | nil => cases ht
  | @cons t c trees ctxs hc _ ih =>
    rcases List.mem_cons.mp ht with rfl | ht
    · exact ⟨c, List.mem_cons_self, hc⟩
    · obtain ⟨d, hd, hproc⟩ := ih ht
      exact ⟨d, List.mem_cons_of_mem _ hd, hproc⟩

theorem exists_tree (h : Processed processPath config trees ctxs) {c : Context K V C} (hc : c ∈ ctxs) :
    ∃ tree ∈ trees, process processPath config tree = .ok c := by
  induction h with
  | nil => cases hc
  | @cons t d trees ctxs hd _ ih =>
    rcases List.mem_cons.mp hc with rfl | hc
    · exact ⟨t, List.mem_cons_self, hd⟩
    · obtain ⟨tree, ht, hproc⟩ := ih hc
      exact ⟨tree, List.mem_cons_of_mem _ ht, hproc⟩

variable {paths : List P}

/-- One context processes all the paths, if each tree's does its own. -/
theorem process_paths (h : Processed processPath config trees ctxs)
    (hpaths : ∀ p, p ∈ paths ↔ ∃ tree ∈ trees, p ∈ tree) :
    process processPath config paths =
      .ok ((Context.new config).addAll (uses processPath paths)) := by
  rw [process_ok]
  refine ⟨fun path hpath => ?_, rfl⟩
  obtain ⟨tree, ht, hmem⟩ := (hpaths path).mp hpath
  obtain ⟨c, -, hc⟩ := h.exists_ctx ht
  exact (process_ok.mp hc).1 path hmem

/-- The views of the trees' contexts have the least bound of all uses. -/
theorem le_iff (h : Processed processPath config trees ctxs)
    (hpaths : ∀ p, p ∈ paths ↔ ∃ tree ∈ trees, p ∈ tree) {x : Context.View K V C} :
    (∀ c ∈ ctxs, c.view ≤ x) ↔ ∀ a ∈ uses processPath paths, Context.useView a ≤ x := by
  constructor
  · intro hctxs a ha
    obtain ⟨path, hpath, adds, hadds, ha⟩ := mem_uses.mp ha
    obtain ⟨tree, ht, hmem⟩ := (hpaths path).mp hpath
    obtain ⟨c, hc, hproc⟩ := h.exists_ctx ht
    exact (view_process_le hproc).mp (hctxs c hc) a (mem_uses.mpr ⟨path, hmem, adds, hadds, ha⟩)
  · intro huses c hc
    obtain ⟨tree, ht, hproc⟩ := h.exists_tree hc
    refine (view_process_le hproc).mpr fun a ha => huses a ?_
    obtain ⟨path, hpath, hadds⟩ := mem_uses.mp ha
    exact mem_uses.mpr ⟨path, (hpaths path).mpr ⟨tree, ht, hpath⟩, hadds⟩

theorem config_eq (h : Processed processPath config trees ctxs) {c : Context K V C} (hc : c ∈ ctxs) :
    c.config = config := by
  obtain ⟨tree, -, hproc⟩ := h.exists_tree hc
  rw [(process_ok.mp hproc).2, Context.addAll_config]
  rfl

/-- **Merging is a join.** A context with the least view above those of the
trees' contexts has the view of one context that processed all the paths. -/
theorem view_eq (h : Processed processPath config trees ctxs)
    (hpaths : ∀ p, p ∈ paths ↔ ∃ tree ∈ trees, p ∈ tree) {c all : Context K V C}
    (hall : process processPath config paths = .ok all)
    (hc : ∀ x, c.view ≤ x ↔ ∀ d ∈ ctxs, d.view ≤ x) : c.view = all.view := by
  have hle : ∀ x, c.view ≤ x ↔ all.view ≤ x := fun x => by
    rw [hc, h.le_iff hpaths, view_process_le hall]
  exact le_antisymm ((hle _).mpr le_rfl) ((hle _).mp le_rfl)

end Processed

end Checker

end Apisan
