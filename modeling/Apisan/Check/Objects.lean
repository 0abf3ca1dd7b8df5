/-
# Contexts as objects

The merge of contexts at the level of Python's objects. The dictionary that a
context holds for a key is an object of its own: `merge[key]` hands it out, or
makes a new one, and the recursive call writes to it in place. A set is never
written to: `union` makes a new one.

The dictionaries of different contexts and keys are different objects
(`Separate`), so a merge changes the context it merges into as `Context.merge`
does, and no other (`read_merge`).

Key definitions: `Objects`, `Objects.subscript`, `Objects.merge`,
`Objects.mergeAll`, `Objects.load`, `Objects.Separate`.
Key theorems: `Objects.separate_load`, `Objects.read_load`,
`Objects.read_merge`, `Objects.read_mergeAll`.
-/
import Mathlib.Logic.Function.Basic
import Apisan.Check.Context

namespace Apisan

/-- A context; the values of `ctxUses` are references to dictionaries. -/
structure ContextObject (K V C : Type) where
  totalUses : Store1 K C
  ctxUses : Dict K ℕ
  config : Config

/-- The contexts of a list, by index, and the dictionaries they refer to;
`next` is the first free reference. -/
structure Objects (K V C : Type) where
  ctxs : ℕ → ContextObject K V C
  dicts : ℕ → Store1 V C
  next : ℕ

namespace Objects

variable {K V C : Type} [DecidableEq K] [DecidableEq V] [DecidableEq C]

/-- `ctxs[i].ctx_uses[key]`: the reference, which a new dictionary gets if
there is none. -/
def subscript (s : Objects K V C) (i : ℕ) (key : K) : ℕ × Objects K V C :=
  match (s.ctxs i).ctxUses.get? key with
  | some q => (q, s)
  | none =>
    let c := s.ctxs i
    (s.next,
      { ctxs := Function.update s.ctxs i { c with ctxUses := c.ctxUses.set key s.next }
        dicts := Function.update s.dicts s.next .empty
        next := s.next + 1 })

/-- `_merge(merge[key], value, 1)`, where `value` is the dictionary at `r`. -/
def mergeKey (i : ℕ) (s : Objects K V C) (x : K × ℕ) : Objects K V C :=
  let (q, s) := s.subscript i x.1
  { s with dicts := Function.update s.dicts q (Store1.merge (s.dicts q) (s.dicts x.2)) }

/-- `ctxs[i].merge(ctxs[j])`. Where `i = j` the loop writes to keys that it has
been at, so its entries are those from before. -/
def merge (s : Objects K V C) (i j : ℕ) : Objects K V C :=
  let c := s.ctxs i
  let s := { s with
    ctxs := Function.update s.ctxs i
      { c with totalUses := Store1.merge c.totalUses (s.ctxs j).totalUses } }
  (s.ctxs j).ctxUses.entries.foldl (mergeKey i) s

/-- The loop of a checker's `merge`: the contexts of `js` into context `i`. -/
def mergeAll (s : Objects K V C) (i : ℕ) (js : List ℕ) : Objects K V C :=
  js.foldl (fun s j => s.merge i j) s

/-- What a context holds. -/
def read (s : Objects K V C) (i : ℕ) : Context K V C :=
  ⟨(s.ctxs i).totalUses, (s.ctxs i).ctxUses.map s.dicts, (s.ctxs i).config⟩

/-- The dictionaries of the contexts, in order. -/
def values (ctxs : List (Context K V C)) : List (Store1 V C) :=
  ctxs.flatMap fun c => c.ctxUses.entries.map Prod.snd

/-- Contexts as they are processed or unpickled: the dictionaries are objects
of their own, with references in order. -/
def load (ctxs : List (Context K V C)) : Objects K V C where
  ctxs i :=
    match ctxs[i]? with
    | some c => ⟨c.totalUses, c.ctxUses.number (values (ctxs.take i)).length, c.config⟩
    | none => ⟨.empty, .empty, ⟨0⟩⟩
  dicts q := (values ctxs).getD q .empty
  next := (values ctxs).length

/-- The dictionaries of different contexts and keys are different objects. -/
structure Separate (s : Objects K V C) : Prop where
  lt : ∀ {i k q}, (s.ctxs i).ctxUses.get? k = some q → q < s.next
  inj : ∀ {i j k l q}, (s.ctxs i).ctxUses.get? k = some q → (s.ctxs j).ctxUses.get? l = some q →
    i = j ∧ k = l

/-! ### One turn of the loop -/

/-- What `merge[key]` gives: a reference that is the one of the key and of no
other, to the dictionary that was there. -/
structure Handed (s : Objects K V C) (i : ℕ) (key : K) (q : ℕ) (s' : Objects K V C) : Prop where
  ctxs : s'.ctxs = Function.update s.ctxs i
    ⟨(s.ctxs i).totalUses, (s.ctxs i).ctxUses.set key q, (s.ctxs i).config⟩
  owner : ∀ j l r, (s.ctxs j).ctxUses.get? l = some r → ((j = i ∧ l = key) ↔ r = q)
  dict : s'.dicts q = ((s.read i).ctxUses.get? key).getD .empty
  old : ∀ r < s.next, s'.dicts r = s.dicts r
  lt : q < s'.next
  next_le : s.next ≤ s'.next

omit [DecidableEq V] [DecidableEq C]

theorem Separate.handed {s : Objects K V C} (h : s.Separate) (i : ℕ) (key : K) {q : ℕ}
    {s' : Objects K V C} (hs : s.subscript i key = (q, s')) : Handed s i key q s' := by
  have hread : (s.read i).ctxUses.get? key = ((s.ctxs i).ctxUses.get? key).map s.dicts :=
    Dict.get?_map _ _ _
  rw [subscript] at hs
  cases hget : (s.ctxs i).ctxUses.get? key with
  | some p =>
    rw [hget] at hs hread
    cases hs
    refine ⟨?_, fun j l r hr => ⟨?_, ?_⟩, ?_, fun _ _ => rfl, h.lt hget, le_rfl⟩
    · rw [Dict.set_self hget]
      exact (Function.update_eq_self _ _).symm
    · rintro ⟨rfl, rfl⟩
      exact Option.some.inj (hr.symm.trans hget)
    · rintro rfl
      exact h.inj hr hget
    · rw [hread]
      rfl
  | none =>
    rw [hget] at hs hread
    cases hs
    refine ⟨rfl, fun j l r hr => ⟨?_, ?_⟩, ?_, fun r hr => ?_, Nat.lt_succ_self _, Nat.le_succ _⟩
    · rintro ⟨rfl, rfl⟩
      rw [hget] at hr
      cases hr
    · rintro rfl
      exact absurd (h.lt hr) (lt_irrefl _)
    · rw [hread]
      exact Function.update_self ..
    · exact Function.update_of_ne (Nat.ne_of_lt hr) _ _

namespace Handed

variable {s s' : Objects K V C} {i q : ℕ} {key : K}

theorem get? (h : Handed s i key q s') (j : ℕ) (l : K) : (s'.ctxs j).ctxUses.get? l =
    if j = i ∧ l = key then some q else (s.ctxs j).ctxUses.get? l := by
  rw [h.ctxs]
  by_cases hj : j = i
  · subst hj
    rw [Function.update_self, Dict.get?_set]
    simp
  · rw [Function.update_of_ne hj, if_neg fun hc => hj hc.1]

theorem separate (h : Handed s i key q s') (hs : s.Separate) (d : ℕ → Store1 V C) :
    Separate ⟨s'.ctxs, d, s'.next⟩ := by
  have hget := h.get?
  refine ⟨fun {j l r} hr => ?_, fun {j k l m r} hr hr' => ?_⟩
  · rw [hget] at hr
    split_ifs at hr with hc
    · cases hr
      exact h.lt
    · exact lt_of_lt_of_le (hs.lt hr) h.next_le
  · rw [hget] at hr hr'
    split_ifs at hr hr' with hc hc' hc'
    · exact ⟨hc.1.trans hc'.1.symm, hc.2.trans hc'.2.symm⟩
    · cases hr
      exact absurd ((h.owner _ _ _ hr').mpr rfl) hc'
    · cases hr'
      exact absurd ((h.owner _ _ _ hr).mpr rfl) hc
    · exact hs.inj hr hr'

/-- A write at the reference is a write at the key. -/
theorem read_self (h : Handed s i key q s') (hs : s.Separate) (f : Store1 V C → Store1 V C) :
    read ⟨s'.ctxs, Function.update s'.dicts q (f (s'.dicts q)), s'.next⟩ i =
      ⟨(s.read i).totalUses, (s.read i).ctxUses.upsert key .empty f, (s.read i).config⟩ := by
  have howner : ∀ l p, (s.ctxs i).ctxUses.get? l = some p → (l = key ↔ p = q) := fun l p hp => by
    rw [← h.owner i l p hp]
    simp
  have hwrite := Dict.map_set_update s.dicts .empty f howner
  have hdict : s'.dicts q = (((s.ctxs i).ctxUses.map s.dicts).get? key).getD .empty := h.dict
  have hsame : ((s.ctxs i).ctxUses.set key q).map (Function.update s'.dicts q (f (s'.dicts q))) =
      ((s.ctxs i).ctxUses.set key q).map (Function.update s.dicts q (f (s'.dicts q))) := by
    refine Dict.map_congr fun x hx => ?_
    by_cases hxq : x.2 = q
    · rw [hxq, Function.update_self, Function.update_self]
    · rw [Function.update_of_ne hxq, Function.update_of_ne hxq]
      have hget := Dict.mem_entries.mp hx
      rw [Dict.get?_set] at hget
      split_ifs at hget
      · exact absurd (Option.some.inj hget).symm hxq
      · exact h.old _ (hs.lt hget)
  simp only [read, h.ctxs, Function.update_self]
  rw [hsame, hdict, hwrite]

/-- It changes no other context. -/
theorem read_other (h : Handed s i key q s') (hs : s.Separate) {j : ℕ} (hj : j ≠ i) (d : Store1 V C) :
    read ⟨s'.ctxs, Function.update s'.dicts q d, s'.next⟩ j = s.read j := by
  have hsame : (s.ctxs j).ctxUses.map (Function.update s'.dicts q d) = (s.ctxs j).ctxUses.map s.dicts := by
    refine Dict.map_congr fun x hx => ?_
    have hget := Dict.mem_entries.mp hx
    have hne : x.2 ≠ q := fun hq => hj ((h.owner _ _ _ hget).mpr hq).1
    rw [Function.update_of_ne hne]
    exact h.old _ (hs.lt hget)
  simp only [read, h.ctxs, Function.update_of_ne hj]
  rw [hsame]

end Handed

variable [DecidableEq V] [DecidableEq C]

theorem mergeKey_eq {s s' : Objects K V C} {i q : ℕ} {key : K} (h : s.subscript i key = (q, s')) (r : ℕ) :
    mergeKey i s (key, r) =
      ⟨s'.ctxs, Function.update s'.dicts q (Store1.merge (s'.dicts q) (s'.dicts r)), s'.next⟩ := by
  rw [mergeKey, h]

/-- One turn of the loop changes context `i` at one key, no other context, and
no dictionary that is still to be read. -/
theorem mergeKey_spec {s : Objects K V C} (h : s.Separate) {i j : ℕ} {key : K} {r : ℕ}
    (hr : (s.ctxs j).ctxUses.get? key = some r) :
    (mergeKey i s (key, r)).Separate ∧
      (mergeKey i s (key, r)).read = Function.update s.read i
        ⟨(s.read i).totalUses,
          (s.read i).ctxUses.upsert key .empty fun u => Store1.merge u (s.dicts r), (s.read i).config⟩ ∧
      ∀ l r', l ≠ key → (s.ctxs j).ctxUses.get? l = some r' →
        ((mergeKey i s (key, r)).ctxs j).ctxUses.get? l = some r' ∧
          (mergeKey i s (key, r)).dicts r' = s.dicts r' := by
  obtain ⟨⟨q, s'⟩, hs⟩ : ∃ x, s.subscript i key = x := ⟨_, rfl⟩
  have hq := h.handed i key hs
  rw [mergeKey_eq hs, hq.old r (h.lt hr)]
  refine ⟨hq.separate h _, ?_, fun l r' hl hr' => ⟨?_, ?_⟩⟩
  · funext k
    by_cases hk : k = i
    · subst hk
      rw [Function.update_self]
      exact hq.read_self h fun u => Store1.merge u (s.dicts r)
    · rw [Function.update_of_ne hk]
      exact hq.read_other h hk _
  · exact (hq.get? j l).trans ((if_neg fun hc => hl hc.2).trans hr')
  · have hne : r' ≠ q := fun hc => hl ((hq.owner _ _ _ hr').mpr hc).2
    exact (Function.update_of_ne hne _ _).trans (hq.old r' (h.lt hr'))

/-! ### Merges -/

/-- The loop over the keys of context `j`. -/
theorem foldl_mergeKey {i j : ℕ} : ∀ {es : List (K × ℕ)} {s : Objects K V C}, s.Separate →
    (es.map Prod.fst).Nodup → (∀ x ∈ es, (s.ctxs j).ctxUses.get? x.1 = some x.2) →
    (es.foldl (mergeKey i) s).Separate ∧
      (es.foldl (mergeKey i) s).read = Function.update s.read i
        ⟨(s.read i).totalUses,
          (es.map fun x => (x.1, s.dicts x.2)).foldl
            (fun d x => d.upsert x.1 .empty fun u => Store1.merge u x.2) (s.read i).ctxUses,
          (s.read i).config⟩
  | [], s, h, _, _ => ⟨h, (Function.update_eq_self _ _).symm⟩
  | (key, r) :: es, s, h, hnodup, hes => by
    rw [List.map_cons, List.nodup_cons] at hnodup
    rw [List.forall_mem_cons] at hes
    obtain ⟨hr, hes⟩ := hes
    obtain ⟨hsep, hread, hrest⟩ := mergeKey_spec (i := i) h hr
    have hne : ∀ x ∈ es, x.1 ≠ key := fun x hx hk => hnodup.1 (hk ▸ List.mem_map.mpr ⟨x, hx, rfl⟩)
    obtain ⟨hsep', hread'⟩ := foldl_mergeKey (i := i) (j := j) hsep hnodup.2 fun x hx =>
      (hrest x.1 x.2 (hne x hx) (hes x hx)).1
    have hdicts : (es.map fun x => (x.1, (mergeKey i s (key, r)).dicts x.2)) =
        es.map fun x => (x.1, s.dicts x.2) :=
      List.map_congr_left fun x hx => by rw [(hrest x.1 x.2 (hne x hx) (hes x hx)).2]
    rw [List.foldl_cons, List.map_cons, List.foldl_cons]
    refine ⟨hsep', ?_⟩
    rw [hread', hdicts, hread, Function.update_self, Function.update_idem]

/-- **What a merge of two objects does**: context `i` becomes the merge of
what the two hold, and no other context changes. -/
theorem read_merge {s : Objects K V C} (h : s.Separate) (i j : ℕ) :
    (s.merge i j).Separate ∧
      (s.merge i j).read = Function.update s.read i ((s.read i).merge (s.read j)) := by
  obtain ⟨s', hs'⟩ : ∃ s' : Objects K V C, s' = { s with
    ctxs := Function.update s.ctxs i
      ⟨Store1.merge (s.ctxs i).totalUses (s.ctxs j).totalUses, (s.ctxs i).ctxUses, (s.ctxs i).config⟩ } :=
    ⟨_, rfl⟩
  have hmerge : s.merge i j = (s'.ctxs j).ctxUses.entries.foldl (mergeKey i) s' := by
    rw [hs']
    rfl
  have hctx : ∀ k, (s'.ctxs k).ctxUses = (s.ctxs k).ctxUses := fun k => by
    rw [hs']
    by_cases hk : k = i
    · subst hk
      simp only [Function.update_self]
    · simp only [Function.update_of_ne hk]
  have hsep : s'.Separate := by
    refine ⟨fun {k l q} hq => ?_, fun {k k' l l' q} hq hq' => ?_⟩
    · rw [hctx] at hq
      rw [hs']
      exact h.lt hq
    · rw [hctx] at hq hq'
      exact h.inj hq hq'
  have hread : s'.read = Function.update s.read i ⟨Store1.merge (s.read i).totalUses (s.read j).totalUses,
      (s.read i).ctxUses, (s.read i).config⟩ := by
    funext k
    rw [hs']
    by_cases hk : k = i
    · subst hk
      simp only [read, Function.update_self]
    · simp only [read, Function.update_of_ne hk]
  have hdicts : s'.dicts = s.dicts := by rw [hs']
  obtain ⟨hsep', hread'⟩ := foldl_mergeKey (i := i) (j := j) hsep (s'.ctxs j).ctxUses.nodup
    fun x hx => Dict.mem_entries.mp hx
  rw [hmerge]
  refine ⟨hsep', ?_⟩
  rw [hread', hread, Function.update_self, Function.update_idem, hdicts, hctx]
  rfl

/-- **The loop of merges.** Context `i` ends with the least view above what it
and the contexts of `js` held, and no other context changes. -/
theorem read_mergeAll {i : ℕ} : ∀ (js : List ℕ) {s : Objects K V C}, s.Separate →
    (∀ k ≠ i, (s.mergeAll i js).read k = s.read k) ∧
      ((s.mergeAll i js).read i).config = (s.read i).config ∧
      ∀ x, ((s.mergeAll i js).read i).view ≤ x ↔
        (s.read i).view ≤ x ∧ ∀ j ∈ js, (s.read j).view ≤ x
  | [], s, _ => ⟨fun _ _ => rfl, rfl, fun x => by simp [mergeAll]⟩
  | j :: js, s, h => by
    obtain ⟨hsep, hread⟩ := read_merge h i j
    obtain ⟨hother, hconfig, hview⟩ := read_mergeAll (i := i) js hsep
    have hcons : s.mergeAll i (j :: js) = (s.merge i j).mergeAll i js := rfl
    have hi : (s.merge i j).read i = (s.read i).merge (s.read j) := by
      rw [hread, Function.update_self]
    have hk : ∀ k ≠ i, (s.merge i j).read k = s.read k := fun k hk => by
      rw [hread, Function.update_of_ne hk]
    rw [hcons]
    refine ⟨fun k hne => (hother k hne).trans (hk k hne), ?_, fun x => ?_⟩
    · rw [hconfig, hi, Context.merge_config]
    · rw [hview, hi, Context.view_merge, sup_le_iff, List.forall_mem_cons, and_assoc]
      refine and_congr_right fun hx => and_congr_right fun hj => forall₂_congr fun k _ => ?_
      by_cases hne : k = i
      · subst hne
        rw [hi, Context.view_merge, sup_le_iff]
        exact ⟨fun hc => hc.1, fun hc => ⟨hc, hj⟩⟩
      · rw [hk k hne]

/-! ### Loaded contexts -/

omit [DecidableEq V] [DecidableEq C]

omit [DecidableEq K] in
theorem values_split {ctxs : List (Context K V C)} {i : ℕ} {c : Context K V C} (h : ctxs[i]? = some c) :
    values ctxs = values (ctxs.take i) ++ (c.ctxUses.entries.map Prod.snd ++ values (ctxs.drop (i + 1))) := by
  obtain ⟨hi, hc⟩ := List.getElem?_eq_some_iff.mp h
  have hsplit : ctxs = ctxs.take i ++ c :: ctxs.drop (i + 1) := by
    rw [← hc, ← List.drop_eq_getElem_cons hi, List.take_append_drop]
  conv_lhs => rw [hsplit]
  rw [values, List.flatMap_append, List.flatMap_cons]
  rfl

theorem load_get? {ctxs : List (Context K V C)} {i q : ℕ} {k : K}
    (h : ((load ctxs).ctxs i).ctxUses.get? k = some q) : ∃ c m v, ctxs[i]? = some c ∧
      c.ctxUses.entries[m]? = some (k, v) ∧ q = (values (ctxs.take i)).length + m := by
  cases hc : ctxs[i]? with
  | none =>
    simp only [load, hc] at h
    cases h
  | some c =>
    simp only [load, hc] at h
    obtain ⟨m, v, hm, hq⟩ := Dict.get?_number.mp h
    exact ⟨c, m, v, rfl, hm, hq⟩

omit [DecidableEq K] in
theorem length_values_take {ctxs : List (Context K V C)} {i j : ℕ} {c : Context K V C}
    (h : ctxs[i]? = some c) (hij : i < j) :
    (values (ctxs.take i)).length + c.ctxUses.entries.length ≤ (values (ctxs.take j)).length := by
  have htake : (ctxs.take j)[i]? = some c := by rw [List.getElem?_take_of_lt hij, h]
  rw [values_split htake, List.take_take, Nat.min_eq_left (Nat.le_of_lt hij)]
  simp only [List.length_append, List.length_map]
  omega

theorem separate_load (ctxs : List (Context K V C)) : (load ctxs).Separate := by
  refine ⟨fun {i k q} h => ?_, fun {i j k l q} h h' => ?_⟩
  · obtain ⟨c, m, v, hc, hm, rfl⟩ := load_get? h
    have hlt := (List.getElem?_eq_some_iff.mp hm).1
    have hle := congrArg List.length (values_split hc)
    simp only [List.length_append, List.length_map] at hle
    have hnext : (load ctxs).next = (values ctxs).length := rfl
    omega
  · obtain ⟨c, m, v, hc, hm, rfl⟩ := load_get? h
    obtain ⟨c', m', v', hc', hm', hq⟩ := load_get? h'
    have hlt := (List.getElem?_eq_some_iff.mp hm).1
    have hlt' := (List.getElem?_eq_some_iff.mp hm').1
    rcases Nat.lt_trichotomy i j with hij | rfl | hij
    · have hle := length_values_take hc hij
      omega
    · have hmm : m = m' := by omega
      subst hmm
      have hcc : c = c' := Option.some.inj (hc.symm.trans hc')
      subst hcc
      exact ⟨rfl, congrArg Prod.fst (Option.some.inj (hm.symm.trans hm'))⟩
    · have hle := length_values_take hc' hij
      omega

omit [DecidableEq K] in
/-- A loaded context reads as it was. -/
theorem read_load {ctxs : List (Context K V C)} {i : ℕ} {c : Context K V C} (h : ctxs[i]? = some c) :
    (load ctxs).read i = c := by
  have hmap : (c.ctxUses.number (values (ctxs.take i)).length).map (load ctxs).dicts = c.ctxUses := by
    refine Dict.map_number fun m x hm => ?_
    have hlt := (List.getElem?_eq_some_iff.mp hm).1
    simp only [load, values_split h, List.getD_eq_getElem?_getD]
    rw [List.getElem?_append_right (Nat.le_add_right _ _), Nat.add_sub_cancel_left,
      List.getElem?_append_left (by rwa [List.length_map]), List.getElem?_map, hm]
    rfl
  have hctx : (load ctxs).ctxs i =
      ⟨c.totalUses, c.ctxUses.number (values (ctxs.take i)).length, c.config⟩ := by
    simp only [load, h]
  rw [read, hctx, hmap]

end Objects

end Apisan
