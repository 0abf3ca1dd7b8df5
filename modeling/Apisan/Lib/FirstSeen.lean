/-
# Orders of first appearance

The elements of several lists, in the order they first appear: the order of
the keys of a dictionary into which others are merged. Which element satisfying
`P` comes last depends on the order of the lists. An element can come last if
some list has it, and has before it every other element satisfying `P` that no
list without it has (`CanEnd`, `exists_perm_last`).

Key definitions: `FirstSeen.extend`, `FirstSeen.merge`, `FirstSeen.Last`,
`FirstSeen.CanEnd`.
Key theorems: `FirstSeen.last_concat`, `FirstSeen.last_map`,
`FirstSeen.exists_perm_last`.
-/
import Mathlib.Data.List.Nodup
import Mathlib.Data.List.Perm.Basic

namespace FirstSeen

variable {A V : Type*}

/-- `w` comes before `v`. -/
def Before (l : List V) (w v : V) : Prop := ∃ l₁ l₂, l = l₁ ++ v :: l₂ ∧ w ∈ l₁

/-- `v` is the last element that satisfies `P`. -/
def Last (P : V → Prop) (l : List V) (v : V) : Prop :=
  ∃ l₁ l₂, l = l₁ ++ v :: l₂ ∧ P v ∧ ∀ w ∈ l₂, ¬ P w

/-- `v` can come last among the elements that satisfy `P`, in some order of the
lists. -/
def CanEnd (f : A → List V) (as : List A) (P : V → Prop) (v : V) : Prop :=
  P v ∧ ∃ a ∈ as, v ∈ f a ∧ ∀ w, P w → w ≠ v → (∃ b ∈ as, w ∈ f b) →
    Before (f a) w v ∨ ∃ b ∈ as, w ∈ f b ∧ v ∉ f b

theorem Last.mem {P : V → Prop} {l : List V} {v : V} (h : Last P l v) : v ∈ l ∧ P v := by
  obtain ⟨l₁, l₂, rfl, hv, -⟩ := h
  exact ⟨by simp, hv⟩

theorem exists_last {P : V → Prop} : ∀ {l : List V}, (∃ v ∈ l, P v) → ∃ v, Last P l v
  | [], h => by
    obtain ⟨v, hv, -⟩ := h
    cases hv
  | w :: l, h => by
    by_cases hl : ∃ v ∈ l, P v
    · obtain ⟨v, l₁, l₂, rfl, hv, hafter⟩ := exists_last hl
      exact ⟨v, w :: l₁, l₂, rfl, hv, hafter⟩
    · obtain ⟨v, hv, hP⟩ := h
      rcases List.mem_cons.mp hv with rfl | hv
      · exact ⟨v, [], l, rfl, hP, fun u hu hPu => hl ⟨u, hu, hPu⟩⟩
      · exact absurd ⟨v, hv, hP⟩ hl

/-- Where `v` stands in a list without repetitions. -/
theorem split_unique {l l₁ l₂ m₁ m₂ : List V} {v : V} (hn : l.Nodup) (hl : l = l₁ ++ v :: l₂)
    (hm : l = m₁ ++ v :: m₂) : l₁ = m₁ ∧ l₂ = m₂ := by
  subst hl
  have hnot := List.nodup_middle.mp hn
  rw [List.nodup_cons, List.mem_append, not_or] at hnot
  obtain ⟨h₁, -, h₂⟩ := (List.append_cons_inj_of_notMem hnot.1.1 hnot.1.2).mp hm
  exact ⟨h₁, h₂⟩

theorem Last.unique {P : V → Prop} {l : List V} {v w : V} (hv : Last P l v) (hw : Last P l w) : v = w := by
  obtain ⟨l₁, l₂, rfl, hPv, hafter⟩ := hv
  obtain ⟨m₁, m₂, heq, hPw, hafter'⟩ := hw
  rcases List.append_eq_append_iff.mp heq with ⟨t, hm, ht⟩ | ⟨t, hl, ht⟩
  · cases t with
    | nil => exact (List.cons.inj ht).1
    | cons u t =>
      obtain ⟨rfl, rfl⟩ := List.cons.inj ht
      exact absurd hPw (hafter w (by simp))
  · cases t with
    | nil => exact (List.cons.inj ht).1.symm
    | cons u t =>
      obtain ⟨rfl, rfl⟩ := List.cons.inj ht
      exact absurd hPv (hafter' v (by simp))

theorem last_concat {P : V → Prop} {l : List V} {x v : V} :
    Last P (l ++ [x]) v ↔ (P x ∧ v = x) ∨ (¬ P x ∧ Last P l v) := by
  constructor
  · rintro ⟨l₁, l₂, heq, hPv, hafter⟩
    rcases List.eq_nil_or_concat l₂ with rfl | ⟨m, y, rfl⟩
    · obtain ⟨rfl, hxv⟩ := List.append_inj' heq rfl
      cases hxv
      exact .inl ⟨hPv, rfl⟩
    · rw [List.concat_eq_append, ← List.cons_append, ← List.append_assoc] at heq
      obtain ⟨rfl, hxy⟩ := List.append_inj' heq rfl
      cases hxy
      rw [List.concat_eq_append] at hafter
      exact .inr ⟨hafter x (by simp), l₁, m, rfl, hPv, fun w hw => hafter w (by simp [hw])⟩
  · rintro (⟨hPx, rfl⟩ | ⟨hPx, l₁, l₂, rfl, hPv, hafter⟩)
    · exact ⟨l, [], rfl, hPx, by simp⟩
    · refine ⟨l₁, l₂ ++ [x], by simp, hPv, fun w hw => ?_⟩
      rcases List.mem_append.mp hw with hw | hw
      · exact hafter w hw
      · rw [List.mem_singleton.mp hw]
        exact hPx

/-- The last of the images. -/
theorem last_map {B : Type*} {g : V → B} {P : V → Prop} {Q : B → Prop} {l : List V} {b : B}
    (hPQ : ∀ x ∈ l, Q (g x) ↔ P x) : Last Q (l.map g) b ↔ ∃ x, Last P l x ∧ g x = b := by
  constructor
  · rintro ⟨l₁, l₂, heq, hb, hafter⟩
    obtain ⟨m₁, m₂, rfl, rfl, hm₂⟩ := List.map_eq_append_iff.mp heq
    obtain ⟨x, m, rfl, rfl, rfl⟩ := List.map_eq_cons_iff.mp hm₂
    refine ⟨x, ⟨m₁, m, rfl, (hPQ x (by simp)).mp hb, fun w hw hPw => ?_⟩, rfl⟩
    exact hafter (g w) (List.mem_map_of_mem hw) ((hPQ w (by simp [hw])).mpr hPw)
  · rintro ⟨x, ⟨l₁, l₂, rfl, hx, hafter⟩, rfl⟩
    refine ⟨l₁.map g, l₂.map g, by simp, (hPQ x (by simp)).mpr hx, fun w hw => ?_⟩
    obtain ⟨y, hy, rfl⟩ := List.mem_map.mp hw
    rw [hPQ y (by simp [hy])]
    exact hafter y hy

variable [DecidableEq V]

/-- Add the elements of a list that are new. -/
def extend (l l' : List V) : List V := l ++ l'.filter fun w => w ∉ l

theorem extend_nil (l : List V) : extend [] l = l := List.filter_eq_self.mpr fun w _ => by simp

/-- The elements of the lists `f a`, in the order they first appear, after `l`. -/
def mergeFrom (f : A → List V) (l : List V) (as : List A) : List V := as.foldl (fun l a => extend l (f a)) l

/-- The elements of the lists `f a`, in the order they first appear. -/
def merge (f : A → List V) (as : List A) : List V := mergeFrom f [] as

theorem mem_mergeFrom {f : A → List V} {w : V} : ∀ {as : List A} {l : List V},
    w ∈ mergeFrom f l as ↔ w ∈ l ∨ ∃ a ∈ as, w ∈ f a
  | [], l => by simp [mergeFrom]
  | a :: as, l => by
    have hcons : mergeFrom f l (a :: as) = mergeFrom f (extend l (f a)) as := rfl
    rw [hcons, mem_mergeFrom]
    by_cases hw : w ∈ l
    · simp [extend, hw]
    · simp [extend, hw]

theorem mem_merge {f : A → List V} {as : List A} {w : V} : w ∈ merge f as ↔ ∃ a ∈ as, w ∈ f a := by
  rw [merge, mem_mergeFrom]
  simp

theorem nodup_mergeFrom {f : A → List V} (hf : ∀ a, (f a).Nodup) : ∀ {as : List A} {l : List V},
    l.Nodup → (mergeFrom f l as).Nodup
  | [], _, h => h
  | a :: as, l, h => by
    have hextend : (extend l (f a)).Nodup := by
      refine h.append ((hf a).filter _) fun w hl hw => ?_
      simp [hl] at hw
    have hrest : (mergeFrom f (extend l (f a)) as).Nodup := nodup_mergeFrom hf hextend
    exact hrest

/-- What comes after `l` is new. -/
theorem mergeFrom_eq (f : A → List V) : ∀ (as : List A) (l : List V), ∃ r, mergeFrom f l as = l ++ r ∧
    ∀ w ∈ r, w ∉ l ∧ ∃ a ∈ as, w ∈ f a
  | [], l => ⟨[], (List.append_nil l).symm, by simp⟩
  | a :: as, l => by
    obtain ⟨r, hr, hnew⟩ := mergeFrom_eq f as (extend l (f a))
    refine ⟨(f a).filter (fun w => w ∉ l) ++ r, ?_, fun w hw => ?_⟩
    · have hcons : mergeFrom f l (a :: as) = mergeFrom f (extend l (f a)) as := rfl
      rw [hcons, hr, extend, List.append_assoc]
    · rcases List.mem_append.mp hw with hw | hw
      · rw [List.mem_filter, decide_eq_true_iff] at hw
        exact ⟨hw.2, a, List.mem_cons_self, hw.1⟩
      · obtain ⟨hnot, b, hb, hwb⟩ := hnew w hw
        exact ⟨fun hl => hnot (List.mem_append_left _ hl), b, List.mem_cons_of_mem _ hb, hwb⟩

theorem merge_append_cons (f : A → List V) (as bs : List A) (a : A) :
    merge f (as ++ a :: bs) = mergeFrom f (merge f as ++ (f a).filter fun w => w ∉ merge f as) bs := by
  rw [merge, mergeFrom, List.foldl_append, List.foldl_cons]
  rfl

theorem exists_first {f : A → List V} {v : V} : ∀ {as : List A}, (∃ a ∈ as, v ∈ f a) →
    ∃ pre a post, as = pre ++ a :: post ∧ v ∈ f a ∧ ∀ b ∈ pre, v ∉ f b
  | [], h => by
    obtain ⟨a, ha, -⟩ := h
    cases ha
  | a :: as, h => by
    by_cases hv : v ∈ f a
    · exact ⟨[], a, as, rfl, hv, by simp⟩
    · obtain ⟨b, hb, hvb⟩ := h
      have hb : b ∈ as := (List.mem_cons.mp hb).resolve_left fun hba => hv (hba ▸ hvb)
      obtain ⟨pre, c, post, rfl, hc, hpre⟩ := exists_first ⟨b, hb, hvb⟩
      exact ⟨a :: pre, c, post, rfl, hc, List.forall_mem_cons.mpr ⟨hv, hpre⟩⟩

/-- What comes last can come last. -/
theorem Last.canEnd {f : A → List V} (hf : ∀ a, (f a).Nodup) {as : List A} {P : V → Prop} {v : V}
    (h : Last P (merge f as) v) : CanEnd f as P v := by
  have hnodup : (merge f as).Nodup := nodup_mergeFrom hf List.nodup_nil
  obtain ⟨l₁, l₂, hl, hPv, hafter⟩ := h
  -- `a` is the first that has `v`
  have hv : ∃ a ∈ as, v ∈ f a := mem_merge.mp (by simp [hl])
  obtain ⟨pre, a, post, rfl, hva, hpre⟩ := exists_first hv
  obtain ⟨c₁, c₂, hc⟩ := List.append_of_mem hva
  have hvpre : v ∉ merge f pre := fun hmem => by
    obtain ⟨b, hb, hvb⟩ := mem_merge.mp hmem
    exact hpre b hb hvb
  obtain ⟨r, hr, -⟩ := mergeFrom_eq f post (merge f pre ++ (f a).filter fun w => w ∉ merge f pre)
  have hsplit : merge f (pre ++ a :: post) = (merge f pre ++ c₁.filter fun w => w ∉ merge f pre) ++
      v :: ((c₂.filter fun w => w ∉ merge f pre) ++ r) := by
    rw [merge_append_cons, hr, hc, List.filter_append, List.filter_cons_of_pos (by simpa using hvpre)]
    simp
  obtain ⟨rfl, rfl⟩ := split_unique hnodup hl hsplit
  refine ⟨hPv, a, by simp, hva, fun w hPw hwv hw => ?_⟩
  have hmem : w ∈ merge f (pre ++ a :: post) := mem_merge.mpr hw
  rw [hl, List.mem_append, List.mem_cons] at hmem
  rcases hmem with hmem | rfl | hmem
  · rcases List.mem_append.mp hmem with hmem | hmem
    · obtain ⟨b, hb, hwb⟩ := mem_merge.mp hmem
      exact .inr ⟨b, by simp [hb], hwb, hpre b hb⟩
    · exact .inl ⟨c₁, c₂, hc, List.mem_of_mem_filter hmem⟩
  · exact absurd rfl hwv
  · exact absurd hPw (hafter w hmem)

/-- What can come last does so when the lists without it stand first, and then
the one that shows that it can. -/
theorem CanEnd.exists_perm {f : A → List V} (hf : ∀ a, (f a).Nodup) {as : List A} {P : V → Prop} {v : V}
    (h : CanEnd f as P v) : ∃ bs, as.Perm bs ∧ Last P (merge f bs) v := by
  obtain ⟨hPv, a, ha, hva, hbefore⟩ := h
  obtain ⟨pre, hpre⟩ : ∃ pre, pre = as.filter fun b => v ∉ f b := ⟨_, rfl⟩
  have hmempre : ∀ b, b ∈ pre ↔ b ∈ as ∧ v ∉ f b := fun b => by simp [hpre]
  obtain ⟨post, hpost⟩ : ∃ post, (as.filter fun b => v ∈ f b).Perm (a :: post) := by
    obtain ⟨l₁, l₂, hsplit⟩ := List.append_of_mem
      (List.mem_filter.mpr ⟨ha, decide_eq_true hva⟩ : a ∈ as.filter fun b => v ∈ f b)
    exact ⟨l₁ ++ l₂, hsplit ▸ List.perm_middle⟩
  have hperm : as.Perm (pre ++ a :: post) := by
    have hparts := (List.filter_append_perm (fun b => decide (v ∉ f b)) as).symm
    have hneg : (as.filter fun b => !decide (v ∉ f b)) = as.filter fun b => decide (v ∈ f b) :=
      List.filter_congr fun b _ => by simp
    rw [hneg, ← hpre] at hparts
    exact hparts.trans (hpost.append_left pre)
  refine ⟨_, hperm, ?_⟩
  obtain ⟨c₁, c₂, hc⟩ := List.append_of_mem hva
  have hvpre : v ∉ merge f pre := fun hmem => by
    obtain ⟨b, hb, hvb⟩ := mem_merge.mp hmem
    exact ((hmempre b).mp hb).2 hvb
  obtain ⟨r, hr, hnew⟩ := mergeFrom_eq f post (merge f pre ++ (f a).filter fun w => w ∉ merge f pre)
  -- what satisfies `P` is before `v`
  have hfirst : ∀ w, P w → w ≠ v → (∃ b ∈ as, w ∈ f b) →
      w ∈ merge f pre ∨ w ∈ c₁ := fun w hPw hwv hw => by
    rcases hbefore w hPw hwv hw with ⟨d₁, d₂, hd, hwd⟩ | ⟨b, hb, hwb, hvb⟩
    · exact .inr ((split_unique (hf a) hd hc).1 ▸ hwd)
    · exact .inl (mem_merge.mpr ⟨b, (hmempre b).mpr ⟨hb, hvb⟩, hwb⟩)
  have hnotc : ∀ w ∈ c₂, w ∉ c₁ ∧ w ≠ v := fun w hw => by
    have hn := hf a
    rw [hc, List.nodup_append, List.nodup_cons] at hn
    exact ⟨fun hw₁ => hn.2.2 w hw₁ w (List.mem_cons_of_mem _ hw) rfl, fun hwv => hn.2.1.1 (hwv ▸ hw)⟩
  refine ⟨merge f pre ++ c₁.filter fun w => w ∉ merge f pre,
    (c₂.filter fun w => w ∉ merge f pre) ++ r, ?_, hPv, fun w hw hPw => ?_⟩
  · rw [merge_append_cons, hr, hc, List.filter_append, List.filter_cons_of_pos (by simpa using hvpre)]
    simp
  · rcases List.mem_append.mp hw with hw | hw
    · rw [List.mem_filter, decide_eq_true_iff] at hw
      obtain ⟨hwc, hwpre⟩ := hw
      have hwa : w ∈ f a := by rw [hc]; simp [hwc]
      rcases hfirst w hPw (hnotc w hwc).2 ⟨a, ha, hwa⟩ with hmem | hmem
      · exact hwpre hmem
      · exact (hnotc w hwc).1 hmem
    · obtain ⟨hnot, b, hb, hwb⟩ := hnew w hw
      rw [List.mem_append, not_or, List.mem_filter, decide_eq_true_iff] at hnot
      have hwa : w ∉ f a := fun hmem => hnot.2 ⟨hmem, hnot.1⟩
      have hbas : b ∈ as := hperm.mem_iff.mpr (by simp [hb])
      rcases hfirst w hPw (fun hwv => hwa (hwv ▸ hva)) ⟨b, hbas, hwb⟩ with hmem | hmem
      · exact hnot.1 hmem
      · exact hwa (by rw [hc]; simp [hmem])

omit [DecidableEq V] in
theorem CanEnd.perm {f : A → List V} {as bs : List A} (h : as.Perm bs) {P : V → Prop} {v : V}
    (hv : CanEnd f bs P v) : CanEnd f as P v := by
  obtain ⟨hPv, a, ha, hva, hbefore⟩ := hv
  refine ⟨hPv, a, h.mem_iff.mpr ha, hva, fun w hPw hwv hw => ?_⟩
  obtain ⟨b, hb, hwb⟩ := hw
  rcases hbefore w hPw hwv ⟨b, h.mem_iff.mp hb, hwb⟩ with hbef | ⟨c, hc, hwc, hvc⟩
  · exact .inl hbef
  · exact .inr ⟨c, h.mem_iff.mpr hc, hwc, hvc⟩

/-- **Which elements come last.** -/
theorem exists_perm_last {f : A → List V} (hf : ∀ a, (f a).Nodup) {as : List A} {P : V → Prop} {v : V} :
    (∃ bs, as.Perm bs ∧ Last P (merge f bs) v) ↔ CanEnd f as P v := by
  constructor
  · rintro ⟨bs, hperm, hlast⟩
    exact (hlast.canEnd hf).perm hperm
  · exact fun h => h.exists_perm hf

end FirstSeen
