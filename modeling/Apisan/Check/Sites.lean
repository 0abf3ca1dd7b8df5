/-
# What a merged context holds

The uses that trees add decide, key by key, the locations of the merge of their
contexts, those seen with a value, and the order of the values: the one in
which they first appear.

Key definitions: `Context.codes`, `Context.values`, `Context.ofTrees`, `sites`,
`sitesOf`, `valuesOf`.
Key theorem: `Context.mergeAll_ofTrees`.
-/
import Apisan.Lib.FirstSeen
import Apisan.Check.Bugs

namespace Apisan

variable {K V C : Type} [DecidableEq K] [DecidableEq V] [DecidableEq C]

namespace Context

/-- `self.ctx_uses[key]`. -/
def dict (c : Context K V C) (key : K) : Store1 V C := (c.ctxUses.get? key).getD .empty

/-- `self.ctx_uses[key][value]`. -/
def codes (c : Context K V C) (key : K) (value : V) : Finset C := ((c.dict key).get? value).getD ∅

/-- The values of a key, in order of insertion. -/
def values (c : Context K V C) (key : K) : List V := (c.dict key).keys

omit [DecidableEq V] [DecidableEq C] in
theorem dict_eq {c : Context K V C} {key : K} {value : Store1 V C} (h : c.ctxUses.get? key = some value) :
    c.dict key = value := by
  rw [dict, h, Option.getD_some]

omit [DecidableEq C] in
theorem codes_eq {c : Context K V C} {key : K} {x : V × Finset C} (h : x ∈ (c.dict key).entries) :
    c.codes key x.1 = x.2 := by
  rw [codes, Dict.mem_entries.mp h, Option.getD_some]

omit [DecidableEq V] [DecidableEq C] in
/-- A key with a value has a dictionary. -/
theorem exists_dict {c : Context K V C} {key : K} {v : V} (h : v ∈ c.values key) :
    ∃ value, c.ctxUses.get? key = some value := by
  cases hget : c.ctxUses.get? key with
  | some value => exact ⟨value, rfl⟩
  | none =>
    rw [values, dict, hget] at h
    cases h

omit [DecidableEq C] in
/-- A value with a location is one of the key's. -/
theorem mem_values_of_codes {c : Context K V C} {key : K} {v : V} (h : c.codes key v ≠ ∅) :
    v ∈ c.values key := by
  by_contra hnot
  have hnone : (c.dict key).get? v = none := Dict.find_eq_none.mpr hnot
  rw [codes, hnone] at h
  exact h rfl

/-! ### Adds -/

omit [DecidableEq V] [DecidableEq C] in
theorem total_new (config : Config) (key : K) : (new config : Context K V C).total key = ∅ := rfl

omit [DecidableEq C] in
theorem codes_new (config : Config) (key : K) (v : V) : (new config : Context K V C).codes key v = ∅ := rfl

theorem mem_total_add {c : Context K V C} {k key : K} {v : Option V} {code x : C} :
    x ∈ (c.add k v code).total key ↔ x ∈ c.total key ∨ (key = k ∧ x = code) := by
  have hget := Dict.get?_upsert c.totalUses k key ∅ (insert code)
  rw [total, show (c.add k v code).totalUses.get? key = _ from hget]
  by_cases hk : key = k
  · subst hk
    simp [total, or_comm]
  · simp [total, hk]

theorem dict_add (c : Context K V C) (k key : K) (v : Option V) (code : C) :
    (c.add k v code).dict key =
      if key = k then v.elim (c.dict key) fun w => (c.dict key).upsert w ∅ (insert code)
      else c.dict key := by
  cases v with
  | none => exact (ite_self _).symm
  | some w =>
    have hget := Dict.get?_upsert c.ctxUses k key .empty fun d => d.upsert w ∅ (insert code)
    rw [dict, show (c.add k (some w) code).ctxUses.get? key = _ from hget]
    by_cases hk : key = k
    · subst hk
      simp [dict]
    · simp [dict, hk]

theorem mem_codes_add {c : Context K V C} {k key : K} {v : Option V} {w : V} {code x : C} :
    x ∈ (c.add k v code).codes key w ↔
      x ∈ c.codes key w ∨ (key = k ∧ v = some w ∧ x = code) := by
  rw [codes, dict_add]
  by_cases hk : key = k
  · subst hk
    cases v with
    | none => simp [codes]
    | some u =>
      simp only [if_true, Option.elim_some, Dict.get?_upsert]
      by_cases hw : w = u
      · subst hw
        simp [codes, or_comm]
      · simp [codes, hw, Ne.symm hw]
  · simp [codes, hk]

/-- The value that an add gives to a key, if any. -/
def valueOf (key : K) (a : Add K V C) : List V := if a.key = key then a.value.toList else []

theorem values_add (c : Context K V C) (a : Add K V C) (key : K) :
    (c.add a.key a.value a.code).values key = FirstSeen.extend (c.values key) (valueOf key a) := by
  rw [values, dict_add, valueOf]
  by_cases hk : a.key = key
  · rw [if_pos hk.symm, if_pos hk]
    cases a.value with
    | none => exact (List.append_nil _).symm
    | some v => exact Dict.keys_upsert _ _ _ _
  · rw [if_neg (Ne.symm hk), if_neg hk]
    exact (List.append_nil _).symm

theorem mem_total_addAll {key : K} {x : C} : ∀ {adds : List (Add K V C)} {c : Context K V C},
    x ∈ (c.addAll adds).total key ↔ x ∈ c.total key ∨ ∃ a ∈ adds, a.key = key ∧ a.code = x
  | [], c => by simp [addAll]
  | a :: adds, c => by
    have hcons : c.addAll (a :: adds) = (c.add a.key a.value a.code).addAll adds := rfl
    rw [hcons, mem_total_addAll, mem_total_add, or_assoc, List.exists_mem_cons_iff, eq_comm (a := key),
      eq_comm (a := x)]

theorem mem_codes_addAll {key : K} {v : V} {x : C} : ∀ {adds : List (Add K V C)} {c : Context K V C},
    x ∈ (c.addAll adds).codes key v ↔
      x ∈ c.codes key v ∨ ∃ a ∈ adds, a.key = key ∧ a.value = some v ∧ a.code = x
  | [], c => by simp [addAll]
  | a :: adds, c => by
    have hcons : c.addAll (a :: adds) = (c.add a.key a.value a.code).addAll adds := rfl
    rw [hcons, mem_codes_addAll, mem_codes_add, or_assoc, List.exists_mem_cons_iff, eq_comm (a := key),
      eq_comm (a := x)]

theorem values_addAll {key : K} : ∀ {adds : List (Add K V C)} {c : Context K V C},
    (c.addAll adds).values key = FirstSeen.mergeFrom (valueOf key) (c.values key) adds
  | [], _ => rfl
  | a :: adds, c => by
    have hcons : c.addAll (a :: adds) = (c.add a.key a.value a.code).addAll adds := rfl
    rw [hcons, values_addAll, values_add]
    rfl

/-! ### Merges -/

theorem mem_total_merge {c d : Context K V C} {key : K} {x : C} :
    x ∈ (c.merge d).total key ↔ x ∈ c.total key ∨ x ∈ d.total key := by
  have hget := Dict.get?_merge (· ∪ ·) ∅ c.totalUses d.totalUses key
  rw [total, show (c.merge d).totalUses.get? key = _ from hget, total, total]
  cases d.totalUses.get? key with
  | none => simp
  | some s => simp

theorem dict_merge (c d : Context K V C) (key : K) :
    (c.merge d).dict key = Store1.merge (c.dict key) (d.dict key) := by
  have hget := Dict.get?_merge Store1.merge .empty c.ctxUses d.ctxUses key
  rw [dict, show (c.merge d).ctxUses.get? key = _ from hget, dict, dict]
  cases d.ctxUses.get? key with
  | none => rfl
  | some e => rfl

theorem mem_codes_merge {c d : Context K V C} {key : K} {v : V} {x : C} :
    x ∈ (c.merge d).codes key v ↔ x ∈ c.codes key v ∨ x ∈ d.codes key v := by
  have hget := Dict.get?_merge (· ∪ ·) ∅ (c.dict key) (d.dict key) v
  rw [codes, dict_merge, show Dict.get? (Store1.merge (c.dict key) (d.dict key)) v = _ from hget,
    codes, codes]
  cases (d.dict key).get? v with
  | none => simp
  | some s => simp

theorem values_merge (c d : Context K V C) (key : K) :
    (c.merge d).values key = FirstSeen.extend (c.values key) (d.values key) := by
  rw [values, dict_merge]
  exact Dict.keys_merge _ _ _ _

theorem covered_merge {c d : Context K V C} (hc : c.Covered) (hd : d.Covered) : (c.merge d).Covered := by
  intro key value h
  rw [← Finset.nonempty_iff_ne_empty]
  have hget := Dict.get?_merge Store1.merge .empty c.ctxUses d.ctxUses key
  rw [show (c.merge d).ctxUses.get? key = _ from hget] at h
  cases hdget : d.ctxUses.get? key with
  | none =>
    rw [hdget] at h
    obtain ⟨x, hx⟩ := Finset.nonempty_iff_ne_empty.mpr (hc key value h)
    exact ⟨x, mem_total_merge.mpr (.inl hx)⟩
  | some e =>
    obtain ⟨x, hx⟩ := Finset.nonempty_iff_ne_empty.mpr (hd key e hdget)
    exact ⟨x, mem_total_merge.mpr (.inr hx)⟩

theorem mem_total_foldl_merge {key : K} {x : C} : ∀ {cs : List (Context K V C)} {c : Context K V C},
    x ∈ (cs.foldl merge c).total key ↔ ∃ d ∈ c :: cs, x ∈ d.total key
  | [], c => by simp
  | d :: cs, c => by
    rw [List.foldl_cons, mem_total_foldl_merge]
    simp only [List.exists_mem_cons_iff, mem_total_merge, or_assoc]

theorem mem_codes_foldl_merge {key : K} {v : V} {x : C} : ∀ {cs : List (Context K V C)}
    {c : Context K V C}, x ∈ (cs.foldl merge c).codes key v ↔ ∃ d ∈ c :: cs, x ∈ d.codes key v
  | [], c => by simp
  | d :: cs, c => by
    rw [List.foldl_cons, mem_codes_foldl_merge]
    simp only [List.exists_mem_cons_iff, mem_codes_merge, or_assoc]

theorem values_foldl_merge {key : K} : ∀ {cs : List (Context K V C)} {c : Context K V C},
    (cs.foldl merge c).values key = FirstSeen.mergeFrom (fun d => d.values key) (c.values key) cs
  | [], _ => rfl
  | d :: cs, c => by
    rw [List.foldl_cons, values_foldl_merge, values_merge]
    rfl

theorem covered_foldl_merge : ∀ (cs : List (Context K V C)) {c : Context K V C}, c.Covered →
    (∀ d ∈ cs, d.Covered) → (cs.foldl merge c).Covered
  | [], _, hc, _ => hc
  | d :: cs, _, hc, hcs => by
    rw [List.forall_mem_cons] at hcs
    exact covered_foldl_merge cs (covered_merge hc hcs.1) hcs.2

end Context

/-! ### Trees -/

/-- The locations that the trees use with a key. -/
def sites (trees : List (List (Add K V C))) (key : K) : Finset C :=
  ((trees.flatten.filter fun a => a.key = key).map Add.code).toFinset

/-- The locations that the trees use with a key and a value. -/
def sitesOf (trees : List (List (Add K V C))) (key : K) (v : V) : Finset C :=
  ((trees.flatten.filter fun a => a.key = key ∧ a.value = some v).map Add.code).toFinset

/-- The values of a key, in the order a tree first uses them. -/
def valuesOf (key : K) (adds : List (Add K V C)) : List V := FirstSeen.merge (Context.valueOf key) adds

omit [DecidableEq V] in
theorem mem_sites {trees : List (List (Add K V C))} {key : K} {x : C} :
    x ∈ sites trees key ↔ ∃ adds ∈ trees, ∃ a ∈ adds, a.key = key ∧ a.code = x := by
  simp only [sites, List.mem_toFinset, List.mem_map, List.mem_filter, List.mem_flatten,
    decide_eq_true_eq]
  constructor
  · rintro ⟨a, ⟨⟨adds, hadds, ha⟩, hk⟩, hx⟩
    exact ⟨adds, hadds, a, ha, hk, hx⟩
  · rintro ⟨adds, hadds, a, ha, hk, hx⟩
    exact ⟨a, ⟨⟨adds, hadds, ha⟩, hk⟩, hx⟩

theorem mem_sitesOf {trees : List (List (Add K V C))} {key : K} {v : V} {x : C} :
    x ∈ sitesOf trees key v ↔
      ∃ adds ∈ trees, ∃ a ∈ adds, a.key = key ∧ a.value = some v ∧ a.code = x := by
  simp only [sitesOf, List.mem_toFinset, List.mem_map, List.mem_filter, List.mem_flatten,
    decide_eq_true_eq]
  constructor
  · rintro ⟨a, ⟨⟨adds, hadds, ha⟩, hk, hv⟩, hx⟩
    exact ⟨adds, hadds, a, ha, hk, hv, hx⟩
  · rintro ⟨adds, hadds, a, ha, hk, hv, hx⟩
    exact ⟨a, ⟨⟨adds, hadds, ha⟩, hk, hv⟩, hx⟩

omit [DecidableEq C] in
theorem mem_valuesOf {key : K} {adds : List (Add K V C)} {v : V} :
    v ∈ valuesOf key adds ↔ ∃ a ∈ adds, a.key = key ∧ a.value = some v := by
  rw [valuesOf, FirstSeen.mem_merge]
  refine exists_congr fun a => and_congr_right fun _ => ?_
  rw [Context.valueOf]
  by_cases hk : a.key = key
  · simp [hk]
  · simp [hk]

omit [DecidableEq C] in
theorem nodup_valuesOf (key : K) (adds : List (Add K V C)) : (valuesOf key adds).Nodup := by
  refine FirstSeen.nodup_mergeFrom (fun a => ?_) List.nodup_nil
  rw [Context.valueOf]
  by_cases hk : a.key = key
  · rw [if_pos hk]
    cases a.value <;> simp
  · rw [if_neg hk]
    exact List.nodup_nil

omit [DecidableEq V] in
theorem sites_perm {trees trees' : List (List (Add K V C))} (h : trees.Perm trees') (key : K) :
    sites trees key = sites trees' key := by
  ext x
  rw [mem_sites, mem_sites]
  exact exists_congr fun adds => and_congr_left fun _ => h.mem_iff

theorem sitesOf_perm {trees trees' : List (List (Add K V C))} (h : trees.Perm trees') (key : K) (v : V) :
    sitesOf trees key v = sitesOf trees' key v := by
  ext x
  rw [mem_sitesOf, mem_sitesOf]
  exact exists_congr fun adds => and_congr_left fun _ => h.mem_iff

namespace Context

/-- The contexts of trees, given by the uses the trees add. -/
def ofTrees (config : Config) (trees : List (List (Add K V C))) : List (Context K V C) :=
  trees.map (new config).addAll

/-- The contexts of processed trees are those of the uses of their paths. -/
theorem ofTrees_of_processed {P : Type} {processPath : P → Except Python.Error (List (Add K V C))}
    {config : Config} {trees : List (List P)} {ctxs : List (Context K V C)}
    (h : Checker.Processed processPath config trees ctxs) :
    ctxs = ofTrees config (trees.map (Checker.uses processPath)) := by
  induction h with
  | nil => rfl
  | cons hc _ ih =>
    obtain ⟨-, rfl⟩ := Checker.process_ok.mp hc
    rw [ih]
    rfl

/-- What a context holds for trees. -/
structure Holds (trees : List (List (Add K V C))) (c : Context K V C) : Prop where
  total : ∀ key, c.total key = sites trees key
  codes : ∀ key v, c.codes key v = sitesOf trees key v
  values : ∀ key, c.values key = FirstSeen.merge (valuesOf key) trees
  covered : c.Covered

theorem foldl_ofTrees_holds (config : Config) (t : List (Add K V C)) (ts : List (List (Add K V C))) :
    ((ofTrees config ts).foldl merge ((new config).addAll t)).Holds (t :: ts) := by
  have hcons : (new config).addAll t :: ofTrees config ts = ofTrees config (t :: ts) := rfl
  refine ⟨fun key => ?_, fun key v => ?_, fun key => ?_, ?_⟩
  · ext x
    rw [mem_total_foldl_merge, mem_sites, hcons]
    simp only [ofTrees, List.mem_map, exists_exists_and_eq_and, mem_total_addAll, total_new,
      Finset.notMem_empty, false_or]
  · ext x
    rw [mem_codes_foldl_merge, mem_sitesOf, hcons]
    simp only [ofTrees, List.mem_map, exists_exists_and_eq_and, mem_codes_addAll, codes_new,
      Finset.notMem_empty, false_or]
  · have hvalues : ∀ adds : List (Add K V C), ((new config).addAll adds).values key = valuesOf key adds :=
      fun adds => values_addAll
    rw [values_foldl_merge, hvalues, FirstSeen.merge, FirstSeen.mergeFrom, FirstSeen.mergeFrom,
      List.foldl_cons, FirstSeen.extend_nil, ofTrees, List.foldl_map]
    simp only [hvalues]
  · refine covered_foldl_merge _ (covered_addAll (covered_new config)) fun d hd => ?_
    obtain ⟨adds, -, rfl⟩ := List.mem_map.mp hd
    exact covered_addAll (covered_new config)

/-- **What merging the contexts of trees makes.** -/
theorem mergeAll_ofTrees (config : Config) (trees : List (List (Add K V C))) :
    (trees = [] ∧ mergeAll (ofTrees config trees) = none) ∨
      ∃ c, mergeAll (ofTrees config trees) = some c ∧ c.config = config ∧ c.Holds trees := by
  cases trees with
  | nil => exact .inl ⟨rfl, rfl⟩
  | cons t ts =>
    refine .inr ⟨_, rfl, ?_, foldl_ofTrees_holds config t ts⟩
    rw [foldl_merge_config, addAll_config]
    rfl

end Context

end Apisan
