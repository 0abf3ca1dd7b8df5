/-
# Who is reported, and with which context

The contexts of uses that adds and merges make, in any order and number, and
the reports of the checkers of return values and locks for each of them. A
context of a key qualifies if its share of the locations reaches the threshold
and is not all of them. The locations that no qualifying context has are
reported, each once (`reported_iff_deviates`). The context a report shows is the last one
of the key, so the reports are justified exactly where that one qualifies
(`justified_iff`).

Key definitions: `Context.Reachable`, `Context.Qualifies`, `Context.Deviates`,
`Context.Justified`.
Key theorems: `Context.Reachable.sound`, `Context.getBugs_spec`,
`reported_iff_deviates`, `justified_iff`.
-/
import Mathlib.Algebra.Order.Field.Basic
import Mathlib.Algebra.Order.Field.Rat
import Apisan.Check.Order

namespace Apisan

open Python FirstSeen Deviant

variable {K V C : Type} [DecidableEq K] [DecidableEq V] [DecidableEq C]

namespace Context

/-- The contexts that adds and merges make. -/
inductive Reachable : Context K V C → Prop
  | new (config : Config) : Reachable (new config)
  | add {c : Context K V C} (key : K) (value : Option V) (code : C) (h : Reachable c) :
      Reachable (c.add key value code)
  | merge {c d : Context K V C} (hc : Reachable c) (hd : Reachable d) : Reachable (c.merge d)

/-- A context of a key whose share reaches the threshold and is not all. -/
def Qualifies (c : Context K V C) (key : K) (v : V) : Prop :=
  v ∈ c.values key ∧ c.config.threshold ≤ share (c.total key) (c.codes key v) ∧
    c.codes key v ≠ c.total key

instance (c : Context K V C) (key : K) (v : V) : Decidable (c.Qualifies key v) :=
  inferInstanceAs (Decidable (_ ∧ _ ∧ _))

/-- A location of a key with a qualifying context, that no such context has. -/
def Deviates (c : Context K V C) (key : K) (x : C) : Prop :=
  x ∈ c.total key ∧ (∃ v, c.Qualifies key v) ∧ ∀ v, c.Qualifies key v → x ∉ c.codes key v

/-- The report shows a context that qualifies and does not have its location,
with the share of that context. -/
def Justified (c : Context K V C) (b : BugReport K V C) : Prop :=
  b.score = share (c.total b.key) (c.codes b.key b.ctx) ∧ c.config.threshold ≤ b.score ∧ b.score < 1 ∧
    b.code ∉ c.codes b.key b.ctx

/-! ### What every context keeps -/

/-- The sets of a context: none is empty, and a key has the locations of its
values. -/
structure Sound (c : Context K V C) : Prop where
  covered : c.Covered
  nonempty : ∀ key v, v ∈ c.values key → c.codes key v ≠ ∅
  subset : ∀ key v, c.codes key v ⊆ c.total key

omit [DecidableEq C] in
theorem sound_new (config : Config) : (new config : Context K V C).Sound where
  covered := covered_new config
  nonempty := fun _ _ h => by cases h
  subset := fun _ _ => Finset.empty_subset _

theorem Sound.add {c : Context K V C} (h : c.Sound) (key : K) (value : Option V) (code : C) :
    (c.add key value code).Sound where
  covered := covered_add h.covered key value code
  nonempty := fun k v hv => by
    have hvalues := values_add c ⟨key, value, code⟩ k
    rw [hvalues, extend, List.mem_append] at hv
    rw [← Finset.nonempty_iff_ne_empty]
    rcases hv with hv | hv
    · obtain ⟨x, hx⟩ := Finset.nonempty_iff_ne_empty.mpr (h.nonempty k v hv)
      exact ⟨x, mem_codes_add.mpr (.inl hx)⟩
    · have hmem := List.mem_of_mem_filter hv
      rw [valueOf] at hmem
      by_cases hk : key = k
      · rw [if_pos hk, Option.mem_toList] at hmem
        exact ⟨code, mem_codes_add.mpr (.inr ⟨hk.symm, hmem, rfl⟩)⟩
      · rw [if_neg hk] at hmem
        cases hmem
  subset := fun k v x hx => by
    rcases mem_codes_add.mp hx with hx | ⟨hk, -, hx⟩
    · exact mem_total_add.mpr (.inl (h.subset k v hx))
    · exact mem_total_add.mpr (.inr ⟨hk, hx⟩)

theorem Sound.merge {c d : Context K V C} (hc : c.Sound) (hd : d.Sound) : (c.merge d).Sound where
  covered := covered_merge hc.covered hd.covered
  nonempty := fun k v hv => by
    rw [values_merge, extend, List.mem_append] at hv
    rw [← Finset.nonempty_iff_ne_empty]
    rcases hv with hv | hv
    · obtain ⟨x, hx⟩ := Finset.nonempty_iff_ne_empty.mpr (hc.nonempty k v hv)
      exact ⟨x, mem_codes_merge.mpr (.inl hx)⟩
    · obtain ⟨x, hx⟩ := Finset.nonempty_iff_ne_empty.mpr (hd.nonempty k v (List.mem_of_mem_filter hv))
      exact ⟨x, mem_codes_merge.mpr (.inr hx)⟩
  subset := fun k v x hx => by
    rcases mem_codes_merge.mp hx with hx | hx
    · exact mem_total_merge.mpr (.inl (hc.subset k v hx))
    · exact mem_total_merge.mpr (.inr (hd.subset k v hx))

theorem Reachable.sound {c : Context K V C} (h : c.Reachable) : c.Sound := by
  induction h with
  | new config => exact sound_new config
  | add key value code _ ih => exact ih.add key value code
  | merge _ _ ihc ihd => exact ihc.merge ihd

theorem Holds.sound {trees : List (List (Add K V C))} {c : Context K V C} (h : c.Holds trees) : c.Sound where
  covered := h.covered
  nonempty := fun key v hv => by
    rw [h.values] at hv
    rw [h.codes]
    exact (sitesOf_spec hv).1
  subset := fun key v x hx => by
    rw [h.codes, mem_sitesOf] at hx
    obtain ⟨adds, hadds, a, ha, hkey, -, hcode⟩ := hx
    rw [h.total, mem_sites]
    exact ⟨adds, hadds, a, ha, hkey, hcode⟩

theorem reachable_addAll : ∀ {adds : List (Add K V C)} {c : Context K V C}, c.Reachable →
    (c.addAll adds).Reachable
  | [], _, h => h
  | a :: adds, c, h => by
    have hadd : (c.add a.key a.value a.code).Reachable := h.add a.key a.value a.code
    have hrest : ((c.add a.key a.value a.code).addAll adds).Reachable := reachable_addAll hadd
    exact hrest

/-! ### Shares -/

omit [DecidableEq C] in
theorem share_eq_one {total codes : Finset C} (htotal : total ≠ ∅) (hsub : codes ⊆ total) :
    share total codes = 1 ↔ codes = total := by
  have hcard : (total.card : ℚ) ≠ 0 :=
    Nat.cast_ne_zero.mpr (Finset.card_ne_zero.mpr (Finset.nonempty_iff_ne_empty.mpr htotal))
  rw [share, div_eq_one_iff_eq hcard, Nat.cast_inj]
  constructor
  · exact fun h => Finset.eq_of_subset_of_card_le hsub h.ge
  · rintro rfl
    rfl

omit [DecidableEq C] in
theorem share_lt_one {total codes : Finset C} (hsub : codes ⊂ total) : share total codes < 1 := by
  have hcard : codes.card < total.card := Finset.card_lt_card hsub
  have hpos : (0 : ℚ) < total.card := Nat.cast_pos.mpr (by omega)
  rw [share, div_lt_one hpos]
  exact Nat.cast_lt.mpr hcard

/-! ### The reports of a context -/

section

variable {c : Context K V C}

variable [SetOrder C]

/-- What is reported for a key, and that each location is so at most once. -/
theorem keyBugs_spec (h : c.Sound) (references : Bool) {key : K} {value : Store1 V C}
    (hvalue : c.ctxUses.get? key = some value) :
    ∃ bugs, keyBugs references c.config key value (c.total key) = .ok bugs ∧
      ((bugs.map fun b => (b.key, b.code)).Nodup ∧ ∀ b ∈ bugs, b.key = key) ∧
      ∀ r, (∃ b ∈ bugs, b.shown = r) ↔ ∃ x w v, c.Deviates key x ∧
        Last (c.Qualifies key) (c.values key) w ∧ Last (fun _ => True) (c.values key) v ∧
        r = (share (c.total key) (c.codes key w), x, key, v) := by
  have hdict := dict_eq hvalue
  have htotal := h.covered key value hvalue
  have hmem : ∀ x ∈ value.entries, x.1 ∈ c.values key := fun x hx => by
    rw [values, hdict]
    exact List.mem_map_of_mem hx
  have hcodes : ∀ x ∈ value.entries, c.codes key x.1 = x.2 := fun x hx => codes_eq (hdict ▸ hx)
  have hqualifies : ∀ x ∈ value.entries, Common c.config (c.total key) x.2 ↔ c.Qualifies key x.1 := by
    intro x hx
    rw [Qualifies, and_iff_right (hmem x hx), hcodes x hx, Common, Ne,
      share_eq_one htotal (hcodes x hx ▸ h.subset key x.1)]
  have hentry : ∀ v ∈ c.values key, ∃ x ∈ value.entries, x.1 = v := fun v hv => by
    rw [values, hdict] at hv
    exact List.mem_map.mp hv
  have hspec : ∀ x ∈ value.entries, x.2 ≠ ∅ ∧ x.2 ⊆ c.total key := fun x hx => by
    rw [← hcodes x hx]
    exact ⟨h.nonempty key x.1 (hmem x hx), h.subset key x.1⟩
  rcases keyBugs_eq c.config references key htotal hspec with
    ⟨hnone, hbugs⟩ | ⟨diff, x, y, hdiff, hx, hy, hbugs⟩
  · refine ⟨[], hbugs, ⟨List.nodup_nil, by simp⟩, fun r => ?_⟩
    constructor
    · rintro ⟨b, hb, -⟩
      cases hb
    · rintro ⟨-, -, -, ⟨-, ⟨v, hv⟩, -⟩, -⟩
      obtain ⟨x, hx, rfl⟩ := hentry v hv.1
      exact absurd ⟨x, hx, (hqualifies x hx).mpr hv⟩ hnone
  · have hkeys : c.values key = value.entries.map Prod.fst := by rw [values, hdict, Dict.keys]
    have hcommon : Last (c.Qualifies key) (c.values key) x.1 := by
      rw [hkeys, last_map fun z hz => (hqualifies z hz).symm]
      exact ⟨x, hx, rfl⟩
    have hend : Last (fun _ => True) (c.values key) y.1 := by
      rw [hkeys, last_map fun _ _ => Iff.rfl]
      exact ⟨y, hy, rfl⟩
    have hdeviates : ∀ z, z ∈ diff ↔ c.Deviates key z := fun z => by
      have hsome : ∃ v, c.Qualifies key v := ⟨x.1, hcommon.mem.2⟩
      rw [hdiff, Rest, Deviates, and_iff_right hsome]
      refine and_congr_right fun _ => ⟨fun hz v hv => ?_, fun hz w hw hPw => ?_⟩
      · obtain ⟨w, hw, rfl⟩ := hentry v hv.1
        rw [hcodes w hw]
        exact hz w hw ((hqualifies w hw).mpr hv)
      · rw [← hcodes w hw]
        exact hz w.1 ((hqualifies w hw).mp hPw)
    refine ⟨_, hbugs, ⟨?_, by simp⟩, fun r => ?_⟩
    · rw [List.map_map]
      exact (SetOrder.nodup_list diff).map fun z z' hz => congrArg Prod.snd hz
    · simp only [List.mem_map, exists_exists_and_eq_and, SetOrder.mem_list]
      constructor
      · rintro ⟨z, hz, rfl⟩
        exact ⟨z, x.1, y.1, (hdeviates z).mp hz, hcommon, hend, by rw [hcodes x hx.mem.1, BugReport.shown]⟩
      · rintro ⟨z, w, v, hz, hw, hv, rfl⟩
        rw [hw.unique hcommon, hv.unique hend, hcodes x hx.mem.1]
        exact ⟨z, (hdeviates z).mpr hz, rfl⟩

/-- **The reports of a context.** Each deviating location of each key is
reported once, with the share of the qualifying context that is last among the
qualifying ones, and with the last context of all. -/
theorem getBugs_spec (h : c.Sound) (references : Bool) :
    ∃ bugs, c.getBugs (keyBugs references) = .ok bugs ∧ (bugs.map fun b => (b.key, b.code)).Nodup ∧
      ∀ r, (∃ b ∈ bugs, b.shown = r) ↔ ∃ key x w v, c.Deviates key x ∧
        Last (c.Qualifies key) (c.values key) w ∧ Last (fun _ => True) (c.values key) v ∧
        r = (share (c.total key) (c.codes key w), x, key, v) := by
  have hkey : ∀ x ∈ c.ctxUses.entries, c.ctxUses.get? x.1 = some x.2 := fun x hx => Dict.mem_entries.mp hx
  obtain ⟨bugs, hbugs⟩ : ∃ bugs, c.getBugs (keyBugs references) = .ok bugs :=
    gather_ok fun x hx => by
      obtain ⟨l, hl, -⟩ := keyBugs_spec h references (hkey x hx)
      exact ⟨l, hl⟩
  refine ⟨bugs, hbugs, nodup_gather hbugs c.ctxUses.nodup fun x hx l hl => ?_, fun r => ?_⟩
  · obtain ⟨l', hl', ⟨hnodup, hfst⟩, -⟩ := keyBugs_spec h references (hkey x hx)
    cases hl.symm.trans hl'
    exact ⟨hnodup, hfst⟩
  · constructor
    · rintro ⟨b, hb, rfl⟩
      obtain ⟨x, hx, l, hl, hbl⟩ := (mem_gather hbugs).mp hb
      obtain ⟨l', hl', -, hiff⟩ := keyBugs_spec h references (hkey x hx)
      cases hl.symm.trans hl'
      obtain ⟨z, w, v, hz⟩ := (hiff b.shown).mp ⟨b, hbl, rfl⟩
      exact ⟨x.1, z, w, v, hz⟩
    · rintro ⟨key, x, w, v, hx, hw, hv, rfl⟩
      obtain ⟨value, hvalue⟩ := exists_dict hw.mem.1
      obtain ⟨l, hl, -, hiff⟩ := keyBugs_spec h references hvalue
      obtain ⟨b, hb, hshown⟩ := (hiff _).mpr ⟨x, w, v, hx, hw, hv, rfl⟩
      exact ⟨b, (mem_gather hbugs).mpr ⟨_, Dict.mem_entries.mpr hvalue, l, hl, hb⟩, hshown⟩

/-- Who is reported by `get_bugs`. -/
theorem exists_reported_iff (h : c.Sound) (references : Bool) :
    ∃ bugs, c.getBugs (keyBugs references) = .ok bugs ∧ (bugs.map fun b => (b.key, b.code)).Nodup ∧
      ∀ key x, (∃ b ∈ bugs, b.key = key ∧ b.code = x) ↔ c.Deviates key x := by
  obtain ⟨bugs, hbugs, hnodup, hiff⟩ := getBugs_spec h references
  refine ⟨bugs, hbugs, hnodup, fun key x => ?_⟩
  constructor
  · rintro ⟨b, hb, rfl, rfl⟩
    obtain ⟨key, x, w, v, hx, -, -, hshown⟩ := (hiff b.shown).mp ⟨b, hb, rfl⟩
    obtain ⟨-, hcode, hkey, -⟩ := BugReport.of_shown hshown
    rw [hkey, hcode]
    exact hx
  · intro hx
    obtain ⟨v, hv⟩ := hx.2.1
    have hlast : ∃ w, Last (c.Qualifies key) (c.values key) w := exists_last ⟨v, hv.1, hv⟩
    have hend : ∃ w, Last (fun _ => True) (c.values key) w := exists_last ⟨v, hv.1, trivial⟩
    obtain ⟨w, hw⟩ := hlast
    obtain ⟨u, hu⟩ := hend
    obtain ⟨b, hb, hshown⟩ := (hiff _).mpr ⟨key, x, w, u, hx, hw, hu, rfl⟩
    obtain ⟨-, hcode, hkey, -⟩ := BugReport.of_shown hshown
    exact ⟨b, hb, hkey, hcode⟩

/-- Where the reports of `get_bugs` are justified. -/
theorem forall_justified_iff (h : c.Sound) (references : Bool) :
    (∀ bugs, c.getBugs (keyBugs references) = .ok bugs → ∀ b ∈ bugs, c.Justified b) ↔
      ∀ key, (∃ x, c.Deviates key x) → ∃ v, Last (fun _ => True) (c.values key) v ∧ c.Qualifies key v := by
  obtain ⟨bugs, hbugs, -, hiff⟩ := getBugs_spec h references
  have hsub : ∀ {key v}, c.Qualifies key v → c.codes key v ⊂ c.total key := fun {key v} hv =>
    Finset.ssubset_iff_subset_ne.mpr ⟨h.subset key v, hv.2.2⟩
  constructor
  · intro hjust key hsome
    obtain ⟨x, hx⟩ := hsome
    obtain ⟨v, hv⟩ := hx.2.1
    have hlast : ∃ w, Last (c.Qualifies key) (c.values key) w := exists_last ⟨v, hv.1, hv⟩
    have hend : ∃ w, Last (fun _ => True) (c.values key) w := exists_last ⟨v, hv.1, trivial⟩
    obtain ⟨w, hw⟩ := hlast
    obtain ⟨u, hu⟩ := hend
    obtain ⟨b, hb, hshown⟩ := (hiff _).mpr ⟨key, x, w, u, hx, hw, hu, rfl⟩
    obtain ⟨-, -, hkey, hctx⟩ := BugReport.of_shown hshown
    obtain ⟨hscore, hthreshold, hlt, -⟩ := hjust bugs hbugs b hb
    rw [hkey, hctx] at hscore
    rw [hscore] at hthreshold hlt
    refine ⟨u, hu, hu.mem.1, hthreshold, fun hall => ?_⟩
    -- the context shown does not have all locations, since its share is not 1
    have htotal : c.total key ≠ ∅ := Finset.nonempty_iff_ne_empty.mp ⟨x, hx.1⟩
    rw [hall, (share_eq_one htotal (Finset.Subset.refl _)).mpr rfl] at hlt
    exact absurd hlt (lt_irrefl 1)
  · intro hends bugs' hbugs' b hb
    cases hbugs.symm.trans hbugs'
    obtain ⟨key, x, w, v, hx, hw, hv, hshown⟩ := (hiff b.shown).mp ⟨b, hb, rfl⟩
    obtain ⟨hscore, hcode, hkey, hctx⟩ := BugReport.of_shown hshown
    obtain ⟨u, hu, hqualifies⟩ := hends key ⟨x, hx⟩
    rw [hu.unique hv] at hqualifies
    -- the last context of all is then the last that qualifies
    have hwv : w = v := by
      refine hw.unique ?_
      obtain ⟨l₁, l₂, hl, -, hafter⟩ := hv
      exact ⟨l₁, l₂, hl, hqualifies, fun z hz => absurd trivial (hafter z hz)⟩
    rw [hwv] at hscore
    rw [Justified, hscore, hcode, hkey, hctx]
    exact ⟨rfl, hqualifies.2.1, share_lt_one (hsub hqualifies), hx.2.2 v hqualifies⟩

end

end Context

section

variable [SetOrder C]

/-- **Who is reported.** For each key, the checkers of return values and locks
report the locations that no qualifying context has, once each, if there is
such a context; no lookup of a score fails. -/
theorem reported_iff_deviates {c : Context K V C} (h : c.Reachable) :
    (∃ bugs, c.getBugs RetValContext.keyBugs = .ok bugs ∧ (bugs.map fun b => (b.key, b.code)).Nodup ∧
      ∀ key x, (∃ b ∈ bugs, b.key = key ∧ b.code = x) ↔ c.Deviates key x) ∧
    ∃ bugs, c.getBugs ThreadSafetyContext.keyBugs = .ok bugs ∧
      (bugs.map fun b => (b.key, b.code)).Nodup ∧
      ∀ key x, (∃ b ∈ bugs, b.key = key ∧ b.code = x) ↔ c.Deviates key x :=
  ⟨Context.exists_reported_iff h.sound false, Context.exists_reported_iff h.sound true⟩

/-- The calls of `f` with a lock, and then the one without. -/
def lockContext : Context (Option String) Bool Code :=
  ((Context.new ⟨4 / 5⟩).addAll lockedCalls).merge ((Context.new ⟨4 / 5⟩).addAll unlockedCall)

theorem lockContext_reachable : lockContext.Reachable :=
  .merge (Context.reachable_addAll (.new _)) (Context.reachable_addAll (.new _))

theorem lockContext_qualifies (v : Bool) : lockContext.Qualifies (some "f") v ↔ v = true := by
  cases v with
  | true => exact iff_of_true (by decide +kernel) rfl
  | false => exact iff_of_false (by decide +kernel) (by simp)

theorem lockContext_deviates : lockContext.Deviates (some "f") (some "b.c:1") := by
  refine ⟨by decide +kernel, ⟨true, (lockContext_qualifies true).mpr rfl⟩, fun v hv => ?_⟩
  rw [(lockContext_qualifies v).mp hv]
  decide +kernel

/-- The call without a lock is reported. -/
theorem reported_lockContext :
    let _ : SetOrder Code := ⟨Finset.toList, fun _ _ => Finset.mem_toList, Finset.nodup_toList⟩
    (∃ bugs, lockContext.getBugs RetValContext.keyBugs = .ok bugs ∧
      ∃ b ∈ bugs, b.key = some "f" ∧ b.code = some "b.c:1") ∧
    ∃ bugs, lockContext.getBugs ThreadSafetyContext.keyBugs = .ok bugs ∧
      ∃ b ∈ bugs, b.key = some "f" ∧ b.code = some "b.c:1" := by
  intro _
  obtain ⟨⟨bugs, hbugs, -, hiff⟩, bugs', hbugs', -, hiff'⟩ := reported_iff_deviates lockContext_reachable
  exact ⟨⟨bugs, hbugs, (hiff _ _).mpr lockContext_deviates⟩,
    bugs', hbugs', (hiff' _ _).mpr lockContext_deviates⟩

/-- **Which context a report shows.** The reports name a context that justifies
them exactly if, for each key with a reported location, the context that was
inserted last qualifies. -/
theorem justified_iff {c : Context K V C} (h : c.Reachable) :
    ((∀ bugs, c.getBugs RetValContext.keyBugs = .ok bugs → ∀ b ∈ bugs, c.Justified b) ↔
      ∀ key, (∃ x, c.Deviates key x) → ∃ v, Last (fun _ => True) (c.values key) v ∧ c.Qualifies key v) ∧
    ((∀ bugs, c.getBugs ThreadSafetyContext.keyBugs = .ok bugs → ∀ b ∈ bugs, c.Justified b) ↔
      ∀ key, (∃ x, c.Deviates key x) → ∃ v, Last (fun _ => True) (c.values key) v ∧ c.Qualifies key v) :=
  ⟨Context.forall_justified_iff h.sound false, Context.forall_justified_iff h.sound true⟩

end

/-- The report of the call without a lock shows just that as the expected use,
with the share of the calls with a lock. -/
theorem lockContext_unjustified :
    let _ : SetOrder Code := ⟨Finset.toList, fun _ _ => Finset.mem_toList, Finset.nodup_toList⟩
    lockContext.Reachable ∧
      ∃ bugs, lockContext.getBugs ThreadSafetyContext.keyBugs = .ok bugs ∧
        ∃ b ∈ bugs, b.shown = (4 / 5, some "b.c:1", some "f", false) ∧ ¬ lockContext.Justified b := by
  intro _
  have hvalues : lockContext.values (some "f") = [true, false] := by decide +kernel
  have hlast : Last (lockContext.Qualifies (some "f")) (lockContext.values (some "f")) true := by
    rw [hvalues]
    refine ⟨[], [false], rfl, (lockContext_qualifies true).mpr rfl, fun v hv => ?_⟩
    rw [List.mem_singleton.mp hv, lockContext_qualifies]
    simp
  have hend : Last (fun _ => True) (lockContext.values (some "f")) false := by
    rw [hvalues]
    exact ⟨[true], [], rfl, trivial, by simp⟩
  have hshare : share (lockContext.total (some "f")) (lockContext.codes (some "f") true) = 4 / 5 := by
    decide +kernel
  obtain ⟨bugs, hbugs, -, hiff⟩ := Context.getBugs_spec lockContext_reachable.sound true
  obtain ⟨b, hb, hshown⟩ := (hiff _).mpr ⟨_, _, _, _, lockContext_deviates, hlast, hend, rfl⟩
  rw [hshare] at hshown
  refine ⟨lockContext_reachable, bugs, hbugs, b, hb, hshown, fun hjust => ?_⟩
  obtain ⟨-, hcode, hkey, hctx⟩ := BugReport.of_shown hshown
  have hmem : some "b.c:1" ∈ lockContext.codes (some "f") false := by decide +kernel
  obtain ⟨-, -, -, hnot⟩ := hjust
  rw [hcode, hkey, hctx] at hnot
  exact hnot hmem

/-- In the other order the report is justified. -/
theorem justified_locks :
    let _ : SetOrder Code := ⟨Finset.toList, fun _ _ => Finset.mem_toList, Finset.nodup_toList⟩
    let c : Context (Option String) Bool Code :=
      ((Context.new ⟨4 / 5⟩).addAll unlockedCall).merge ((Context.new ⟨4 / 5⟩).addAll lockedCalls)
    ∀ bugs, c.getBugs ThreadSafetyContext.keyBugs = .ok bugs → ∀ b ∈ bugs, c.Justified b := by
  intro _ c
  have hreach : c.Reachable :=
    .merge (Context.reachable_addAll (.new _)) (Context.reachable_addAll (.new _))
  refine (justified_iff hreach).2.mpr fun key hdev => ?_
  obtain ⟨x, hx, ⟨v, hv⟩, -⟩ := hdev
  -- `f` is the only key
  obtain rfl : key = some "f" := by
    by_contra hkey
    have hnone : c.values key = [] := by
      rw [Context.values, Context.dict, Dict.get?, Dict.find_eq_none.mpr]
      · rfl
      · have hkeys : c.ctxUses.keys = [some "f"] := by decide +kernel
        rw [← Dict.keys, hkeys, List.mem_singleton]
        exact hkey
    rw [Context.Qualifies, hnone] at hv
    cases hv.1
  have hvalues : c.values (some "f") = [false, true] := by decide +kernel
  rw [hvalues]
  exact ⟨true, ⟨[false], [], rfl, trivial, by simp⟩, by decide +kernel⟩

end Apisan
