/-
# Dictionaries

Python's dictionaries: entries in the order their keys were inserted, each
key once. A write to a key that is there keeps its place; a read of a
`defaultdict` inserts the key. `merge` joins one dictionary into another,
entry by entry.

Two dictionaries with the same view (`Dict.get?` as a function of the key)
are equal for Python. Where the values have a view in a join semilattice and
the join of values is the join of their views, the view of a merge is the join
of the views (`Dict.view_merge`); this holds at every level of a dictionary of
dictionaries.

Key definitions: `Dict`, `Dict.get?`, `Dict.upsert`, `Dict.merge`, `Dict.view`.
Key theorems: `Dict.get?_upsert`, `Dict.get?_merge`, `Dict.view_merge`,
`Dict.view_upsert`.
-/
import Mathlib.Order.WithBot
import Mathlib.Order.BoundedOrder.Lattice
import Mathlib.Logic.Function.Basic

/-- A dictionary: its entries, in order of insertion. -/
structure Dict (K V : Type*) where
  entries : List (K × V)
  nodup : (entries.map Prod.fst).Nodup

namespace Dict

section

variable {K V : Type*} [DecidableEq K]

/-- The value of a key in a list of entries. -/
def find (k : K) : List (K × V) → Option V
  | [] => none
  | (k', v) :: es => if k' = k then some v else find k es

/-- Apply `f` to the value of a key; a key that is not there is inserted at
the end, with `f` of the default value. -/
def put (k : K) (default : V) (f : V → V) : List (K × V) → List (K × V)
  | [] => [(k, f default)]
  | (k', v) :: es => if k' = k then (k', f v) :: es else (k', v) :: put k default f es

theorem find_eq_none {k : K} : ∀ {es : List (K × V)}, find k es = none ↔ k ∉ es.map Prod.fst
  | [] => by simp [find]
  | (k', v) :: es => by
    rw [find]
    split_ifs with h
    · simp [h]
    · rw [find_eq_none]
      simp [Ne.symm h]

theorem find_eq_some {k : K} {v : V} : ∀ {es : List (K × V)}, (es.map Prod.fst).Nodup →
    (find k es = some v ↔ (k, v) ∈ es)
  | [], _ => by simp [find]
  | (k', v') :: es, h => by
    rw [List.map_cons, List.nodup_cons] at h
    rw [find]
    split_ifs with hk
    · subst hk
      have hnot : (k', v) ∉ es := fun hmem => h.1 (List.mem_map.mpr ⟨_, hmem, rfl⟩)
      simp [hnot, eq_comm]
    · rw [find_eq_some h.2]
      simp [Ne.symm hk]

theorem mem_keys_put {k k' : K} {default : V} {f : V → V} : ∀ {es : List (K × V)},
    k' ∈ (put k default f es).map Prod.fst ↔ k' = k ∨ k' ∈ es.map Prod.fst
  | [] => by simp [put]
  | (k₁, v) :: es => by
    rw [put]
    split_ifs with h
    · subst h
      simp
    · rw [List.map_cons, List.map_cons, List.mem_cons, List.mem_cons, mem_keys_put]
      exact or_left_comm

theorem nodup_put {k : K} {default : V} {f : V → V} : ∀ {es : List (K × V)},
    (es.map Prod.fst).Nodup → ((put k default f es).map Prod.fst).Nodup
  | [], _ => by simp [put]
  | (k', v) :: es, h => by
    rw [put]
    split_ifs with hk
    · exact h
    · rw [List.map_cons, List.nodup_cons] at h ⊢
      refine ⟨fun hmem => ?_, nodup_put h.2⟩
      rcases mem_keys_put.mp hmem with hmem | hmem
      · exact hk hmem
      · exact h.1 hmem

theorem find_put {k k' : K} {default : V} {f : V → V} : ∀ {es : List (K × V)},
    find k' (put k default f es) = if k' = k then some (f ((find k es).getD default)) else find k' es
  | [] => by
    simp only [put, find, Option.getD_none, eq_comm]
  | (k₁, v) :: es => by
    rw [put]
    by_cases h : k₁ = k
    · subst h
      by_cases h' : k₁ = k'
      · simp [find, h']
      · simp [find, h', Ne.symm h']
    · by_cases h' : k₁ = k'
      · subst h'
        simp [find, h]
      · simp only [find, h, h', if_false]
        exact find_put

/-- The value of a key. -/
def get? (d : Dict K V) (k : K) : Option V := find k d.entries

/-- The empty dictionary. -/
def empty : Dict K V := ⟨[], List.nodup_nil⟩

/-- Apply `f` to the value of a key, or to the default value for a key that is
not there, which is inserted. -/
def upsert (d : Dict K V) (k : K) (default : V) (f : V → V) : Dict K V :=
  ⟨put k default f d.entries, nodup_put d.nodup⟩

/-- `d[k] = v`. -/
def set (d : Dict K V) (k : K) (v : V) : Dict K V := d.upsert k v fun _ => v

/-- `k in d`. -/
def contains (d : Dict K V) (k : K) : Bool := (d.get? k).isSome

@[simp] theorem get?_empty (k : K) : (empty : Dict K V).get? k = none := rfl

theorem get?_upsert (d : Dict K V) (k k' : K) (default : V) (f : V → V) :
    (d.upsert k default f).get? k' =
      if k' = k then some (f ((d.get? k).getD default)) else d.get? k' :=
  find_put

theorem get?_set (d : Dict K V) (k k' : K) (v : V) :
    (d.set k v).get? k' = if k' = k then some v else d.get? k' :=
  get?_upsert d k k' v _

theorem mem_entries {d : Dict K V} {k : K} {v : V} : (k, v) ∈ d.entries ↔ d.get? k = some v :=
  (find_eq_some d.nodup).symm

/-- The keys, in order of insertion. -/
def keys (d : Dict K V) : List K := d.entries.map Prod.fst

theorem keys_put {k : K} {default : V} {f : V → V} : ∀ {es : List (K × V)},
    (put k default f es).map Prod.fst =
      es.map Prod.fst ++ [k].filter fun k => k ∉ es.map Prod.fst
  | [] => by simp [put]
  | (k', v) :: es => by
    rw [put]
    split_ifs with h
    · subst h
      simp
    · have hmem : k ∈ ((k', v) :: es).map Prod.fst ↔ k ∈ es.map Prod.fst := by
        rw [List.map_cons, List.mem_cons]
        exact or_iff_right (Ne.symm h)
      have hfilter : [k].filter (fun k => k ∉ ((k', v) :: es).map Prod.fst) =
          [k].filter fun k => k ∉ es.map Prod.fst := by
        refine List.filter_congr fun x hx => ?_
        rw [List.mem_singleton.mp hx]
        exact decide_eq_decide.mpr (not_congr hmem)
      rw [hfilter, List.map_cons, keys_put]
      rfl

theorem keys_upsert (d : Dict K V) (k : K) (default : V) (f : V → V) :
    (d.upsert k default f).keys = d.keys ++ [k].filter fun k => k ∉ d.keys :=
  keys_put

/-- Join the entries of another dictionary into this one. -/
def merge (join : V → V → V) (default : V) (d e : Dict K V) : Dict K V :=
  e.entries.foldl (fun d x => d.upsert x.1 default fun u => join u x.2) d

theorem get?_foldl_upsert (join : V → V → V) (default : V) (k : K) : ∀ (es : List (K × V))
    (d : Dict K V), (es.map Prod.fst).Nodup →
    (es.foldl (fun d x => d.upsert x.1 default fun u => join u x.2) d).get? k =
      match find k es with
      | none => d.get? k
      | some v => some (join ((d.get? k).getD default) v)
  | [], d, _ => rfl
  | (k', v) :: es, d, h => by
    rw [List.map_cons, List.nodup_cons] at h
    rw [List.foldl_cons, get?_foldl_upsert join default k es _ h.2, get?_upsert, find]
    by_cases hk : k' = k
    · subst hk
      have hnone : find k' es = none := find_eq_none.mpr h.1
      simp [hnone]
    · simp [hk, Ne.symm hk]

/-- **The value of a key after a merge.** -/
theorem get?_merge (join : V → V → V) (default : V) (d e : Dict K V) (k : K) :
    (merge join default d e).get? k =
      match e.get? k with
      | none => d.get? k
      | some v => some (join ((d.get? k).getD default) v) :=
  get?_foldl_upsert join default k e.entries d e.nodup

theorem keys_foldl_upsert (join : V → V → V) (default : V) : ∀ (es : List (K × V)) (d : Dict K V),
    (es.map Prod.fst).Nodup →
    (es.foldl (fun d x => d.upsert x.1 default fun u => join u x.2) d).keys =
      d.keys ++ (es.map Prod.fst).filter fun k => k ∉ d.keys
  | [], d, _ => by simp
  | (k, v) :: es, d, h => by
    rw [List.map_cons, List.nodup_cons] at h
    rw [List.foldl_cons, keys_foldl_upsert join default es _ h.2, keys_upsert, List.map_cons,
      List.append_assoc]
    congr 1
    have hrest : (es.map Prod.fst).filter (fun k' => k' ∉ d.keys ++ [k].filter fun k => k ∉ d.keys) =
        (es.map Prod.fst).filter fun k' => k' ∉ d.keys := by
      refine List.filter_congr fun k' hk' => ?_
      have hne : k' ≠ k := fun heq => h.1 (heq ▸ hk')
      simp [hne]
    rw [hrest, ← List.filter_append, List.singleton_append]

/-- **The order of the keys after a merge**: those that are new come last. -/
theorem keys_merge (join : V → V → V) (default : V) (d e : Dict K V) :
    (merge join default d e).keys = d.keys ++ e.keys.filter fun k => k ∉ d.keys :=
  keys_foldl_upsert join default e.entries d e.nodup

/-- Apply a function to the values. -/
def map {W : Type*} (g : V → W) (d : Dict K V) : Dict K W where
  entries := d.entries.map fun x => (x.1, g x.2)
  nodup := by
    rw [List.map_map]
    exact d.nodup

omit [DecidableEq K] in
theorem ext_entries {d e : Dict K V} (h : d.entries = e.entries) : d = e := by
  cases d
  cases e
  cases h
  rfl

theorem find_map {W : Type*} (g : V → W) (k : K) : ∀ es : List (K × V),
    find k (es.map fun x => (x.1, g x.2)) = (find k es).map g
  | [] => rfl
  | (k', v) :: es => by
    rw [List.map_cons, find, find]
    split_ifs
    · rfl
    · exact find_map g k es

theorem get?_map {W : Type*} (g : V → W) (d : Dict K V) (k : K) : (d.map g).get? k = (d.get? k).map g :=
  find_map g k d.entries

omit [DecidableEq K] in
theorem map_congr {W : Type*} {g g' : V → W} {d : Dict K V} (h : ∀ x ∈ d.entries, g x.2 = g' x.2) :
    d.map g = d.map g' :=
  ext_entries (List.map_congr_left fun x hx => Prod.ext rfl (h x hx))

theorem put_self {k : K} {v default : V} : ∀ {es : List (K × V)}, find k es = some v →
    put k default (fun _ => v) es = es
  | [], h => by cases h
  | (k', v') :: es, h => by
    rw [find] at h
    rw [put]
    split_ifs at h ⊢ with hk
    · cases h
      rfl
    · rw [put_self h]

/-- Writing the value that is there changes nothing. -/
theorem set_self {d : Dict K V} {k : K} {v : V} (h : d.get? k = some v) : d.set k v = d :=
  ext_entries (put_self h)

theorem find_put_map {R W : Type*} [DecidableEq R] (g : R → W) {k : K} {q : R} (default : W) (f : W → W) :
    ∀ {es : List (K × R)}, (es.map Prod.fst).Nodup → (∀ x ∈ es, x.1 = k ↔ x.2 = q) →
    (put k q (fun _ => q) es).map
        (fun x => (x.1, Function.update g q (f (((find k es).map g).getD default)) x.2)) =
      put k default f (es.map fun x => (x.1, g x.2))
  | [], _, _ => by simp [put, find]
  | (k', q') :: es, hnodup, h => by
    rw [List.map_cons, List.nodup_cons] at hnodup
    rw [List.forall_mem_cons] at h
    obtain ⟨hhead, htail⟩ := h
    rw [put, find, List.map_cons, put]
    by_cases hk : k' = k
    · subst hk
      have hq : q' = q := hhead.mp rfl
      subst hq
      have hrest : ∀ x ∈ es, (x.1, Function.update g q' (f (((some q').map g).getD default)) x.2) =
          (x.1, g x.2) := fun x hx => by
        have hne : x.2 ≠ q' := fun hq =>
          hnodup.1 (List.mem_map.mpr ⟨x, hx, (htail x hx).mpr hq⟩)
        rw [Function.update_of_ne hne]
      simp only [if_true, List.map_cons, Function.update_self]
      rw [List.map_congr_left hrest]
      rfl
    · have hq : q' ≠ q := fun hq => hk (hhead.mpr hq)
      simp only [hk, if_false, List.map_cons, Function.update_of_ne hq]
      rw [find_put_map g default f hnodup.2 htail]

/-- **Writing through a reference.** The values are read at references, and
`q` is the reference of `k` and of no other key: a write at `q` is a write at
`k`. -/
theorem map_set_update {R W : Type*} [DecidableEq R] (g : R → W) {d : Dict K R} {k : K} {q : R}
    (default : W) (f : W → W) (h : ∀ l r, d.get? l = some r → (l = k ↔ r = q)) :
    (d.set k q).map (Function.update g q (f (((d.map g).get? k).getD default))) =
      (d.map g).upsert k default f := by
  have hmem : ∀ x ∈ d.entries, x.1 = k ↔ x.2 = q := fun x hx => h x.1 x.2 (mem_entries.mp hx)
  apply ext_entries
  rw [get?_map]
  exact find_put_map g default f d.nodup hmem

/-- The keys, with numbers from `n` on. -/
def number (n : ℕ) (d : Dict K V) : Dict K ℕ where
  entries := (d.entries.zipIdx n).map fun x => (x.1.1, x.2)
  nodup := by
    have hkeys : ((d.entries.zipIdx n).map fun x => (x.1.1, x.2)).map Prod.fst = d.entries.map Prod.fst := by
      rw [List.map_map, ← List.zipIdx_map_fst n d.entries, List.map_map, List.zipIdx_map_fst]
      rfl
    rw [hkeys]
    exact d.nodup

theorem get?_number {n q : ℕ} {d : Dict K V} {k : K} :
    (d.number n).get? k = some q ↔ ∃ m v, d.entries[m]? = some (k, v) ∧ q = n + m := by
  rw [← mem_entries, number, List.mem_map]
  constructor
  · rintro ⟨⟨⟨k', v⟩, q'⟩, hmem, heq⟩
    cases heq
    obtain ⟨hle, hget⟩ := List.mem_zipIdx_iff_le_and_getElem?_sub.mp hmem
    exact ⟨q' - n, v, hget, (Nat.add_sub_cancel' hle).symm⟩
  · rintro ⟨m, v, hm, rfl⟩
    refine ⟨((k, v), n + m), List.mem_zipIdx_iff_le_and_getElem?_sub.mpr ⟨Nat.le_add_right _ _, ?_⟩, rfl⟩
    rw [Nat.add_sub_cancel_left]
    exact hm

omit [DecidableEq K] in
/-- Reading back at the numbers. -/
theorem map_number {n : ℕ} {d : Dict K V} {g : ℕ → V}
    (h : ∀ (m : ℕ) (x : K × V), d.entries[m]? = some x → g (n + m) = x.2) : (d.number n).map g = d := by
  apply ext_entries
  show ((d.entries.zipIdx n).map fun x => (x.1.1, x.2)).map (fun x => (x.1, g x.2)) = d.entries
  rw [List.map_map]
  have hid : (d.entries.zipIdx n).map Prod.fst = d.entries := List.zipIdx_map_fst n d.entries
  conv_rhs => rw [← hid]
  refine List.map_congr_left fun x hx => ?_
  obtain ⟨hle, hget⟩ := List.mem_zipIdx_iff_le_and_getElem?_sub.mp hx
  have hg := h _ _ hget
  rw [Nat.add_sub_cancel' hle] at hg
  exact Prod.ext rfl hg

/-! ### Views -/

/-- The dictionary as a function of the key: ⊥ where there is no entry, else
the view of the value. -/
def view {A : Type*} (g : V → A) (d : Dict K V) (k : K) : WithBot A := (d.get? k).map g

variable {A : Type*} {g : V → A}

variable [SemilatticeSup A]

/-- **A merge is a join.** -/
theorem view_merge {join : V → V → V} {default : V} (hjoin : ∀ u v, g (join u v) = g u ⊔ g v)
    (hdefault : ∀ v, g default ≤ g v) (d e : Dict K V) :
    (merge join default d e).view g = d.view g ⊔ e.view g := by
  funext k
  have hd : ∀ v, g (join default v) = g v := fun v => by
    rw [hjoin, sup_eq_right.mpr (hdefault v)]
  simp only [view, Pi.sup_apply, get?_merge]
  cases he : e.get? k with
  | none => exact (sup_bot_eq _).symm
  | some v =>
    cases hk : d.get? k with
    | none =>
      calc WithBot.some (g (join default v))
        _ = WithBot.some (g v) := by rw [hd]
        _ = ⊥ ⊔ WithBot.some (g v) := (bot_sup_eq _).symm
    | some u =>
      calc WithBot.some (g (join u v))
        _ = WithBot.some (g u ⊔ g v) := by rw [hjoin]
        _ = WithBot.some (g u) ⊔ WithBot.some (g v) := WithBot.coe_sup _ _

/-- A write that joins a value to the one of a key. -/
theorem view_upsert {f : V → V} {default : V} {a : A} (hf : ∀ u, g (f u) = g u ⊔ a)
    (hdefault : g default ≤ a) (d : Dict K V) (k : K) :
    (d.upsert k default f).view g = d.view g ⊔ fun k' => if k' = k then WithBot.some a else ⊥ := by
  funext k'
  simp only [view, Pi.sup_apply, get?_upsert]
  by_cases hk : k' = k
  · subst hk
    simp only [if_true]
    cases hd : d.get? k' with
    | none =>
      calc WithBot.some (g (f default))
        _ = WithBot.some a := by rw [hf, sup_eq_right.mpr hdefault]
        _ = ⊥ ⊔ WithBot.some a := (bot_sup_eq _).symm
    | some u =>
      calc WithBot.some (g (f u))
        _ = WithBot.some (g u ⊔ a) := by rw [hf]
        _ = WithBot.some (g u) ⊔ WithBot.some a := WithBot.coe_sup _ _
  · simp only [hk, if_false]
    exact (sup_bot_eq _).symm

end

end Dict
