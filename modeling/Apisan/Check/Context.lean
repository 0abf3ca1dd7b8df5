/-
# Stores and contexts

What a checker collects (`store.py`, `checker.py`): for every key the set of
all code locations, and for every key and value (the context of a use) the set
of the locations seen with it. Keys and values stand for Python's objects up
to Python's equality.

The view of a context, which forgets the order of its dictionaries, lives in a
join semilattice. Adding a use joins a least view to it and merging contexts
joins their views, so all that adds and merges of any order and number decide
is which uses were added (`view_addAll_le`, `view_merge`).

Key definitions: `Store1`, `Store2`, `Context`, `Context.add`,
`Context.merge`, `Context.View`, `Context.view`.
Key theorems: `Context.view_add`, `Context.view_merge`,
`Context.view_addAll_le`.
-/
import Mathlib.Data.Finset.Basic
import Mathlib.Data.Finset.Lattice.Basic
import Mathlib.Data.Rat.Defs
import Apisan.Lib.Dict

namespace Apisan

/-- A store of level 1: a `defaultdict(set)`. -/
abbrev Store1 (K C : Type*) := Dict K (Finset C)

/-- A store of level 2: a `defaultdict` of stores of level 1. -/
abbrev Store2 (K V C : Type*) := Dict K (Store1 V C)

/-- What the modelled code reads of the configuration. -/
structure Config where
  threshold : ℚ
  deriving DecidableEq, Repr

structure Context (K V C : Type*) where
  totalUses : Store1 K C
  ctxUses : Store2 K V C
  config : Config

/-- The arguments of a call of `Context.add`. -/
structure Add (K V C : Type*) where
  key : K
  value : Option V
  code : C

section

variable {K V C : Type*} [DecidableEq K] [DecidableEq V] [DecidableEq C]

/-- `_merge` at level 1. -/
def Store1.merge (m target : Store1 K C) : Store1 K C := Dict.merge (· ∪ ·) ∅ m target

/-- `_merge` at level 2. -/
def Store2.merge (m target : Store2 K V C) : Store2 K V C := Dict.merge Store1.merge .empty m target

namespace Context

/-- `Context.__init__`. -/
def new (config : Config) : Context K V C := ⟨.empty, .empty, config⟩

/-- `Context.add`. -/
def add (c : Context K V C) (key : K) (value : Option V) (code : C) : Context K V C :=
  let ctxUses :=
    match value with
    | some v => c.ctxUses.upsert key .empty fun d => d.upsert v ∅ (insert code)
    | none => c.ctxUses
  { c with totalUses := c.totalUses.upsert key ∅ (insert code), ctxUses := ctxUses }

/-- A sequence of adds. -/
def addAll (c : Context K V C) (adds : List (Add K V C)) : Context K V C :=
  adds.foldl (fun c a => c.add a.key a.value a.code) c

/-- `Context.merge`. -/
def merge (c other : Context K V C) : Context K V C :=
  { c with
    totalUses := Store1.merge c.totalUses other.totalUses
    ctxUses := Store2.merge c.ctxUses other.ctxUses }

/-- The merge of all contexts into the first one, as every checker's `merge`
makes it; there may be none. -/
def mergeAll : List (Context K V C) → Option (Context K V C)
  | [] => none
  | c :: cs => some (cs.foldl merge c)

@[simp] theorem merge_config (c d : Context K V C) : (c.merge d).config = c.config := rfl

theorem addAll_config : ∀ (adds : List (Add K V C)) (c : Context K V C),
    (c.addAll adds).config = c.config
  | [], _ => rfl
  | a :: adds, c => addAll_config adds (c.add a.key a.value a.code)

theorem foldl_merge_config : ∀ (cs : List (Context K V C)) (c : Context K V C),
    (cs.foldl merge c).config = c.config
  | [], _ => rfl
  | d :: cs, c => foldl_merge_config cs (c.merge d)

end Context

/-! ### Views -/

/-- The view of a store of level 1. -/
def Store1.view (d : Store1 K C) : K → WithBot (Finset C) := Dict.view id d

/-- The view of a store of level 2. -/
def Store2.view (d : Store2 K V C) : K → WithBot (V → WithBot (Finset C)) := Dict.view Store1.view d

theorem Store1.view_merge (d e : Store1 K C) : (Store1.merge d e).view = d.view ⊔ e.view :=
  Dict.view_merge (fun _ _ => rfl) (fun v => Finset.empty_subset v) d e

theorem Store2.view_merge (d e : Store2 K V C) : (Store2.merge d e).view = d.view ⊔ e.view :=
  have hempty : ∀ v : Store1 V C, Store1.view (.empty : Store1 V C) ≤ v.view := fun _ _ => bot_le
  Dict.view_merge Store1.view_merge hempty d e

/-- The view with a set at one key. -/
def at1 (k : K) (s : Finset C) : K → WithBot (Finset C) := fun k' => if k' = k then (s : WithBot _) else ⊥

/-- The view with a view at one key. -/
def at2 (k : K) (s : V → WithBot (Finset C)) : K → WithBot (V → WithBot (Finset C)) :=
  fun k' => if k' = k then (s : WithBot _) else ⊥

theorem Store1.view_insert (d : Store1 K C) (k : K) (x : C) :
    Store1.view (d.upsert k ∅ (insert x)) = d.view ⊔ at1 k {x} := by
  have hf : ∀ u : Finset C, id (insert x u) = id u ⊔ {x} := fun u => by
    rw [id, id, Finset.sup_eq_union, Finset.union_comm]
    rfl
  exact Dict.view_upsert hf (Finset.empty_subset _) d k

theorem Store2.view_insert (d : Store2 K V C) (k : K) (v : V) (x : C) :
    Store2.view (d.upsert k .empty fun e => e.upsert v ∅ (insert x)) = d.view ⊔ at2 k (at1 v {x}) :=
  Dict.view_upsert (fun e => Store1.view_insert e v x) bot_le d k

namespace Context

/-- All that is seen of a context, the order of its dictionaries apart: the
locations of each key, and of each key and value. -/
abbrev View (K V C : Type*) := (K → WithBot (Finset C)) × (K → WithBot (V → WithBot (Finset C)))

def view (c : Context K V C) : View K V C := (c.totalUses.view, c.ctxUses.view)

/-- The view with one use. -/
def useView (a : Add K V C) : View K V C :=
  (at1 a.key {a.code}, a.value.elim ⊥ fun v => at2 a.key (at1 v {a.code}))

omit [DecidableEq C] in
theorem view_new (config : Config) : (new config : Context K V C).view = ⊥ := rfl

theorem view_add (c : Context K V C) (a : Add K V C) :
    (c.add a.key a.value a.code).view = c.view ⊔ useView a := by
  have htotal := Store1.view_insert c.totalUses a.key a.code
  cases hv : a.value with
  | none =>
    have huse : useView a = (at1 a.key {a.code}, ⊥) := by rw [useView, hv]; rfl
    rw [huse]
    exact Prod.ext htotal (sup_bot_eq _).symm
  | some v =>
    have huse : useView a = (at1 a.key {a.code}, at2 a.key (at1 v {a.code})) := by
      rw [useView, hv]; rfl
    rw [huse]
    exact Prod.ext htotal (Store2.view_insert c.ctxUses a.key v a.code)

/-- **A merge is a join.** -/
theorem view_merge (c d : Context K V C) : (c.merge d).view = c.view ⊔ d.view :=
  Prod.ext (Store1.view_merge c.totalUses d.totalUses) (Store2.view_merge c.ctxUses d.ctxUses)

theorem view_addAll_le {x : View K V C} : ∀ {adds : List (Add K V C)} {c : Context K V C},
    (c.addAll adds).view ≤ x ↔ c.view ≤ x ∧ ∀ a ∈ adds, useView a ≤ x
  | [], c => by simp [addAll]
  | a :: adds, c => by
    have hcons : c.addAll (a :: adds) = (c.add a.key a.value a.code).addAll adds := rfl
    rw [hcons, view_addAll_le, view_add, sup_le_iff, List.forall_mem_cons, and_assoc]

end Context

end

end Apisan
