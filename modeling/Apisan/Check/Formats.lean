/-
# The score of a format string

The checker of format strings divides the locations with a string literal by
all locations of an argument. It adds up the locations with a format and those
with another literal, so the score is a fraction of sites exactly if no site
passes both (`score_fraction_iff`).

Key definitions: `FSBChecker.Passes`, `FSBChecker.Made`, `FSBContext.score`,
`FSBChecker.Fraction`.
Key theorems: `countWhere_eq_sum`, `FSBChecker.Made.holds`,
`FSBContext.getBugs_spec`, `FSBChecker.score_fraction_iff`.
-/
import Mathlib.Algebra.BigOperators.Group.Finset.Basic
import Mathlib.Algebra.Order.Field.Basic
import Mathlib.Algebra.Order.Field.Rat
import Mathlib.Data.Set.Card
import Apisan.Check.Reports

namespace Apisan

open Python

/-- The sizes of the sets of some values, added up. -/
theorem countWhere_eq_sum {V C : Type} [DecidableEq V] [DecidableEq C] {p : V → Bool} {s : Finset V}
    (hp : ∀ v, p v = true ↔ v ∈ s) (d : Store1 V C) :
    countWhere p d = ∑ v ∈ s, ((d.get? v).getD ∅).card := by
  have hcard : (d.entries.filter fun x => p x.1).map (fun x => x.2.card) =
      ((d.entries.filter fun x => p x.1).map Prod.fst).map fun v => ((d.get? v).getD ∅).card := by
    rw [List.map_map]
    refine List.map_congr_left fun x hx => ?_
    rw [Function.comp_apply, Dict.mem_entries.mp (List.mem_of_mem_filter hx), Option.getD_some]
  have hnodup : ((d.entries.filter fun x => p x.1).map Prod.fst).Nodup :=
    d.nodup.sublist (List.filter_sublist.map _)
  rw [countWhere, hcard, ← List.sum_toFinset _ hnodup]
  refine Finset.sum_subset (fun v hv => ?_) fun v hv hnot => ?_
  · obtain ⟨x, hx, rfl⟩ := List.mem_map.mp (List.mem_toFinset.mp hv)
    exact (hp x.1).mp (List.mem_filter.mp hx).2
  · have hnone : d.get? v = none := by
      by_contra hne
      obtain ⟨codes, hcodes⟩ := Option.ne_none_iff_exists'.mp hne
      have hmem : (v, codes) ∈ d.entries.filter fun x => p x.1 :=
        List.mem_filter.mpr ⟨Dict.mem_entries.mpr hcodes, (hp v).mpr hv⟩
      exact hnot (List.mem_toFinset.mpr (List.mem_map_of_mem hmem))
    rw [hnone]
    rfl

/-! ### Reports -/

namespace FSBContext

variable {K C : Type} [DecidableEq K] [DecidableEq C]

/-- The score that `get_bugs` computes for a key. -/
def score (c : Context K (Bool × Bool) C) (key : K) : Except Error ℚ :=
  quotient (countWhere (fun ctx => ctx.1) (c.dict key)) (c.total key).card

theorem score_eq {c : Context K (Bool × Bool) C} {key : K} (htotal : c.total key ≠ ∅) :
    score c key = .ok ((((c.codes key (true, true)).card + (c.codes key (true, false)).card : ℕ) : ℚ) /
      (c.total key).card) := by
  have hp : ∀ v : Bool × Bool, v.1 = true ↔ v ∈ ({(true, true), (true, false)} : Finset (Bool × Bool)) := by
    decide
  rw [score, quotient_ok htotal, countWhere_eq_sum hp, Finset.sum_pair (by decide)]
  rfl

variable [SetOrder C]

omit [DecidableEq K] [DecidableEq C] in
theorem mem_reports {q : ℚ} {key : K} {v : Bool × Bool} {codes : Finset C}
    {b : BugReport K (Bool × Bool) C} :
    b ∈ reports q key v codes ↔ ∃ x ∈ codes, b = ⟨q, x, key, v, none⟩ := by
  simp only [reports, List.mem_map, SetOrder.mem_list, eq_comm]

omit [DecidableEq K] [DecidableEq C] in
/-- The reports of a key with a location. -/
theorem mem_keyBugs (config : Config) (key : K) {value : Store1 (Bool × Bool) C} {total : Finset C} {q : ℚ}
    (hq : quotient (countWhere (fun ctx => ctx.1) value) total.card = .ok q) :
    ∃ bugs, keyBugs config key value total = .ok bugs ∧ ∀ b, b ∈ bugs ↔
      (config.threshold ≤ q ∧ q ≠ 1) ∧ ∃ x ∈ value.entries, x.1.1 = false ∧ b ∈ reports q key x.1 x.2 := by
  have hbody : ∀ x : (Bool × Bool) × Finset C,
      (if x.1.1 then .ok []
      else do
        let score ← quotient (countWhere (fun ctx => ctx.1) value) total.card
        if config.threshold ≤ score ∧ score ≠ 1 then .ok (reports score key x.1 x.2) else .ok []
        : Except Error (List (BugReport K (Bool × Bool) C))) =
      .ok (if x.1.1 = false ∧ config.threshold ≤ q ∧ q ≠ 1 then reports q key x.1 x.2 else []) := by
    intro x
    rw [hq, ok_bind]
    by_cases hx : x.1.1 = true
    · simp [hx]
    · by_cases hthreshold : config.threshold ≤ q ∧ q ≠ 1
      · simp [hx, hthreshold]
      · rw [if_neg hx, if_neg hthreshold, if_neg fun h => hthreshold h.2]
  obtain ⟨bugs, hbugs⟩ : ∃ bugs, keyBugs config key value total = .ok bugs :=
    gather_ok fun x _ => ⟨_, hbody x⟩
  refine ⟨bugs, hbugs, fun b => ?_⟩
  have hmem := mem_gather (x := b) hbugs
  simp only [hbody, Except.ok.injEq, exists_eq_left'] at hmem
  rw [hmem]
  constructor
  · rintro ⟨x, hx, hb⟩
    by_cases hcond : x.1.1 = false ∧ config.threshold ≤ q ∧ q ≠ 1
    · rw [if_pos hcond] at hb
      exact ⟨hcond.2, x, hx, hcond.1, hb⟩
    · rw [if_neg hcond] at hb
      cases hb
  · rintro ⟨hthreshold, x, hx, hfalse, hb⟩
    refine ⟨x, hx, ?_⟩
    rw [if_pos ⟨hfalse, hthreshold⟩]
    exact hb

/-- **The reports of format strings.** A location is reported for a key if it
has a value without a literal, and the score of the key reaches the threshold
and is not 1. -/
theorem getBugs_spec {c : Context K (Bool × Bool) C} (h : c.Sound) :
    ∃ bugs, c.getBugs keyBugs = .ok bugs ∧ ∀ key x q, (∃ b ∈ bugs, b.key = key ∧ b.code = x ∧ b.score = q) ↔
      score c key = .ok q ∧ (c.config.threshold ≤ q ∧ q ≠ 1) ∧ ∃ v, v.1 = false ∧ x ∈ c.codes key v := by
  have hkey : ∀ x ∈ c.ctxUses.entries, ∃ q, score c x.1 = .ok q ∧ c.dict x.1 = x.2 := fun x hx => by
    have hget := Dict.mem_entries.mp hx
    exact ⟨_, score_eq (h.covered x.1 x.2 hget), Context.dict_eq hget⟩
  have hspec : ∀ x ∈ c.ctxUses.entries, ∃ q bugs, score c x.1 = .ok q ∧
      keyBugs c.config x.1 x.2 (c.total x.1) = .ok bugs ∧ ∀ b, b ∈ bugs ↔
        (c.config.threshold ≤ q ∧ q ≠ 1) ∧ ∃ y ∈ x.2.entries, y.1.1 = false ∧ b ∈ reports q x.1 y.1 y.2 :=
    fun x hx => by
      obtain ⟨q, hq, hdict⟩ := hkey x hx
      have hquot := hq
      rw [score, hdict] at hquot
      obtain ⟨bugs, hbugs, hmem⟩ := mem_keyBugs c.config x.1 hquot
      exact ⟨q, bugs, hq, hbugs, hmem⟩
  obtain ⟨bugs, hbugs⟩ : ∃ bugs, c.getBugs keyBugs = .ok bugs := gather_ok fun x hx => by
    obtain ⟨-, bugs, -, hbugs, -⟩ := hspec x hx
    exact ⟨bugs, hbugs⟩
  refine ⟨bugs, hbugs, fun key x q => ?_⟩
  constructor
  · rintro ⟨b, hb, rfl, rfl, rfl⟩
    obtain ⟨y, hy, l, hl, hbl⟩ := (mem_gather hbugs).mp hb
    obtain ⟨q, l', hq, hl', hmem⟩ := hspec y hy
    cases hl.symm.trans hl'
    obtain ⟨hthreshold, z, hz, hfalse, hbz⟩ := (hmem b).mp hbl
    obtain ⟨x, hx, rfl⟩ := mem_reports.mp hbz
    obtain ⟨-, -, hdict⟩ := hkey y hy
    have hcodes : c.codes y.1 z.1 = z.2 := Context.codes_eq (hdict ▸ hz)
    exact ⟨hq, hthreshold, z.1, hfalse, hcodes.symm ▸ hx⟩
  · rintro ⟨hq, hthreshold, v, hfalse, hx⟩
    -- the key has a dictionary with the value, since it has the location
    have hv : v ∈ c.values key := Context.mem_values_of_codes (Finset.ne_empty_of_mem hx)
    obtain ⟨value, hvalue⟩ := Context.exists_dict hv
    have hdict := Context.dict_eq hvalue
    rw [Context.values, hdict] at hv
    obtain ⟨⟨v, codes⟩, hcodes, rfl⟩ := List.mem_map.mp hv
    rw [Context.codes_eq (hdict ▸ hcodes)] at hx
    obtain ⟨q', l, hq', hl, hmem⟩ := hspec (key, value) (Dict.mem_entries.mpr hvalue)
    cases hq.symm.trans hq'
    have hb : (⟨q, x, key, v, none⟩ : BugReport K (Bool × Bool) C) ∈ l :=
      (hmem _).mpr ⟨hthreshold, (v, codes), hcodes, hfalse, mem_reports.mpr ⟨x, hx, rfl⟩⟩
    exact ⟨_, (mem_gather hbugs).mpr ⟨_, Dict.mem_entries.mpr hvalue, l, hl, hb⟩, rfl, rfl, rfl⟩

end FSBContext

/-! ### Sites -/

namespace FSBChecker

variable [StrHash]

/-- A call on one of the paths passes an argument at the position of the key. -/
def Passes (paths : List Path) (key : ℤ × ℕ) (arg : Symbol) (code : Code) : Prop :=
  ∃ path ∈ paths, ∃ event ∈ path.events, ∃ a name args, isCall event = .ok (some a) ∧
    a.call = .ok (some (name, args)) ∧ a.code = some code ∧ name.key = key.1 ∧ args[key.2]? = some arg

/-- A string literal. -/
def IsLiteral (arg : Symbol) : Prop := ∃ string, arg = .stringLiteral string

/-- The sites of a key. -/
def callSites (paths : List Path) (key : ℤ × ℕ) : Set Code := {code | ∃ arg, Passes paths key arg code}

/-- The sites that pass a literal on some path. -/
def literalSites (paths : List Path) (key : ℤ × ℕ) : Set Code :=
  {code | ∃ arg, IsLiteral arg ∧ Passes paths key arg code}

/-- The sites that pass something else on some path. -/
def otherSites (paths : List Path) (key : ℤ × ℕ) : Set Code :=
  {code | ∃ arg, ¬ IsLiteral arg ∧ Passes paths key arg code}

/-- The contexts that processing and merging make of paths. -/
inductive Made : List Path → Context (ℤ × ℕ) (Bool × Bool) Code → Prop
  | process {config : Config} {tree : List Path} {c : Context (ℤ × ℕ) (Bool × Bool) Code}
      (h : Checker.process processPath config tree = .ok c) : Made tree c
  | merge {ps qs : List Path} {c d : Context (ℤ × ℕ) (Bool × Bool) Code} (hc : Made ps c) (hd : Made qs d) :
      Made (ps ++ qs) (c.merge d)

/-- What a context holds for paths. -/
structure Holds (paths : List Path) (c : Context (ℤ × ℕ) (Bool × Bool) Code) : Prop where
  sound : c.Sound
  total : ∀ key x, x ∈ c.total key ↔ ∃ arg, Passes paths key arg x
  codes : ∀ key v x, x ∈ c.codes key v ↔ ∃ arg, value arg = v ∧ Passes paths key arg x

omit [StrHash] in
theorem value_literal (arg : Symbol) : (value arg).1 = true ↔ IsLiteral arg := by
  cases arg <;> simp [value, IsLiteral]

theorem passes_append {ps qs : List Path} {key : ℤ × ℕ} {arg : Symbol} {code : Code} :
    Passes (ps ++ qs) key arg code ↔ Passes ps key arg code ∨ Passes qs key arg code := by
  simp only [Passes, List.mem_append, or_and_right, exists_or]

theorem mem_processEvent {event : Event} {adds : List (Add (ℤ × ℕ) (Bool × Bool) Code)}
    (h : processEvent event = .ok adds) {b : Add (ℤ × ℕ) (Bool × Bool) Code} : b ∈ adds ↔
      ∃ a name args arg, isCall event = .ok (some a) ∧ a.call = .ok (some (name, args)) ∧
        a.code = some b.code ∧ name.key = b.key.1 ∧ args[b.key.2]? = some arg ∧ b.value = some (value arg) := by
  obtain ⟨r, hr, h⟩ := bind_eq_ok.mp h
  cases r with
  | none =>
    cases h
    simp [hr]
  | some a =>
    obtain ⟨call, hcall, h⟩ := bind_eq_ok.mp h
    obtain ⟨code, hcode, h⟩ := bind_eq_ok.mp h
    obtain ⟨⟨name, args⟩, hsome, h⟩ := bind_eq_ok.mp h
    cases h
    have hcode : a.code = some code := getAttribute_eq_ok.mp hcode
    obtain rfl : call = some (name, args) := getAttribute_eq_ok.mp hsome
    rw [hr]
    constructor
    · intro hb
      obtain ⟨⟨arg, i⟩, hmem, rfl⟩ := List.mem_map.mp hb
      exact ⟨a, name, args, arg, rfl, hcall, hcode, rfl, List.mem_zipIdx_iff_getElem?.mp hmem, rfl⟩
    · rintro ⟨a', name', args', arg, ha, hcall', hcode', hname, harg, hvalue⟩
      cases ha
      rw [hcall] at hcall'
      cases hcall'
      obtain ⟨⟨f, i⟩, v, code'⟩ := b
      cases hcode.symm.trans hcode'
      cases hname
      cases hvalue
      exact List.mem_map.mpr ⟨(arg, i), List.mem_zipIdx_iff_getElem?.mpr harg, rfl⟩

/-- **The uses of a path**: one for each argument of each call. -/
theorem mem_processPath {path : Path} {adds : List (Add (ℤ × ℕ) (Bool × Bool) Code)}
    (h : processPath path = .ok adds) {b : Add (ℤ × ℕ) (Bool × Bool) Code} : b ∈ adds ↔
      ∃ arg, b.value = some (value arg) ∧ Passes [path] b.key arg b.code := by
  rw [mem_gather h]
  constructor
  · rintro ⟨event, hevent, l, hl, hb⟩
    obtain ⟨a, name, args, arg, ha, hcall, hcode, hname, harg, hvalue⟩ := (mem_processEvent hl).mp hb
    exact ⟨arg, hvalue, path, List.mem_singleton_self _, event, hevent, a, name, args, ha, hcall, hcode,
      hname, harg⟩
  · rintro ⟨arg, hvalue, q, hq, event, hevent, a, name, args, ha, hcall, hcode, hname, harg⟩
    rw [List.mem_singleton.mp hq] at hevent
    obtain ⟨l, hl⟩ := of_gather_ok h event hevent
    exact ⟨event, hevent, l, hl,
      (mem_processEvent hl).mpr ⟨a, name, args, arg, ha, hcall, hcode, hname, harg, hvalue⟩⟩

theorem mem_uses_iff {tree : List Path} (h : ∀ path ∈ tree, ∃ adds, processPath path = .ok adds)
    {b : Add (ℤ × ℕ) (Bool × Bool) Code} : b ∈ Checker.uses processPath tree ↔
      ∃ arg, b.value = some (value arg) ∧ Passes tree b.key arg b.code := by
  rw [Checker.mem_uses]
  constructor
  · rintro ⟨path, hpath, adds, hadds, hb⟩
    obtain ⟨arg, hvalue, q, hq, hcall⟩ := (mem_processPath hadds).mp hb
    rw [List.mem_singleton.mp hq] at hcall
    exact ⟨arg, hvalue, path, hpath, hcall⟩
  · rintro ⟨arg, hvalue, path, hpath, hcall⟩
    obtain ⟨adds, hadds⟩ := h path hpath
    exact ⟨path, hpath, adds, hadds,
      (mem_processPath hadds).mpr ⟨arg, hvalue, path, List.mem_singleton_self _, hcall⟩⟩

/-- **What every context holds**: the sites of its paths, by what they pass. -/
theorem Made.holds {paths : List Path} {c : Context (ℤ × ℕ) (Bool × Bool) Code} (h : Made paths c) :
    Holds paths c := by
  induction h with
  | @process config tree c h =>
    obtain ⟨hok, rfl⟩ := Checker.process_ok.mp h
    refine ⟨(Context.reachable_addAll (.new config)).sound, fun key x => ?_, fun key v x => ?_⟩
    · rw [Context.mem_total_addAll, Context.total_new]
      constructor
      · rintro (hempty | ⟨b, hb, rfl, rfl⟩)
        · cases hempty
        · obtain ⟨arg, -, hpasses⟩ := (mem_uses_iff hok).mp hb
          exact ⟨arg, hpasses⟩
      · rintro ⟨arg, hpasses⟩
        exact .inr ⟨⟨key, some (value arg), x⟩, (mem_uses_iff hok).mpr ⟨arg, rfl, hpasses⟩, rfl, rfl⟩
    · rw [Context.mem_codes_addAll, Context.codes_new]
      constructor
      · rintro (hempty | ⟨b, hb, rfl, hv, rfl⟩)
        · cases hempty
        · obtain ⟨arg, hvalue, hpasses⟩ := (mem_uses_iff hok).mp hb
          rw [hvalue] at hv
          exact ⟨arg, Option.some.inj hv, hpasses⟩
      · rintro ⟨arg, rfl, hpasses⟩
        exact .inr ⟨⟨key, some (value arg), x⟩, (mem_uses_iff hok).mpr ⟨arg, rfl, hpasses⟩, rfl, rfl, rfl⟩
  | merge _ _ ihc ihd =>
    refine ⟨ihc.sound.merge ihd.sound, fun key x => ?_, fun key v x => ?_⟩
    · rw [Context.mem_total_merge, ihc.total, ihd.total]
      simp only [passes_append, exists_or]
    · rw [Context.mem_codes_merge, ihc.codes, ihd.codes]
      simp only [passes_append, and_or_left, exists_or]

theorem Holds.callSites_eq {paths : List Path} {c : Context (ℤ × ℕ) (Bool × Bool) Code} (h : Holds paths c)
    (key : ℤ × ℕ) : callSites paths key = ↑(c.total key) := by
  ext x
  rw [Finset.mem_coe, h.total]
  exact Iff.rfl

theorem Holds.literalSites_eq {paths : List Path} {c : Context (ℤ × ℕ) (Bool × Bool) Code}
    (h : Holds paths c) (key : ℤ × ℕ) :
    literalSites paths key = ↑(c.codes key (true, true) ∪ c.codes key (true, false)) := by
  ext x
  rw [Finset.mem_coe, Finset.mem_union, h.codes, h.codes]
  constructor
  · rintro ⟨arg, hlit, hpasses⟩
    have hfst := (value_literal arg).mpr hlit
    obtain ⟨v, hv⟩ : ∃ v, value arg = v := ⟨_, rfl⟩
    rw [hv] at hfst
    obtain ⟨l, f⟩ := v
    obtain rfl : l = true := hfst
    cases f with
    | true => exact .inl ⟨arg, hv, hpasses⟩
    | false => exact .inr ⟨arg, hv, hpasses⟩
  · rintro (⟨arg, hv, hpasses⟩ | ⟨arg, hv, hpasses⟩)
    · exact ⟨arg, (value_literal arg).mp (by rw [hv]), hpasses⟩
    · exact ⟨arg, (value_literal arg).mp (by rw [hv]), hpasses⟩

theorem Holds.mem_otherSites {paths : List Path} {c : Context (ℤ × ℕ) (Bool × Bool) Code}
    (h : Holds paths c) (key : ℤ × ℕ) (x : Code) :
    x ∈ otherSites paths key ↔ ∃ v, v.1 = false ∧ x ∈ c.codes key v := by
  constructor
  · rintro ⟨arg, hlit, hpasses⟩
    have hfalse : (value arg).1 = false := by
      rw [← Bool.not_eq_true, value_literal]
      exact hlit
    exact ⟨value arg, hfalse, (h.codes key _ x).mpr ⟨arg, rfl, hpasses⟩⟩
  · rintro ⟨v, hfalse, hx⟩
    obtain ⟨arg, rfl, hpasses⟩ := (h.codes key v x).mp hx
    refine ⟨arg, fun hlit => ?_, hpasses⟩
    rw [(value_literal arg).mpr hlit] at hfalse
    cases hfalse

/-- No site passes literals of both kinds if the sets of the two are disjoint. -/
theorem Holds.disjoint_iff {paths : List Path} {c : Context (ℤ × ℕ) (Bool × Bool) Code} (h : Holds paths c)
    (key : ℤ × ℕ) : Disjoint (c.codes key (true, true)) (c.codes key (true, false)) ↔
      ∀ code s t, Passes paths key (.stringLiteral s) code → Passes paths key (.stringLiteral t) code →
        isFormatString s = isFormatString t := by
  rw [Finset.disjoint_left]
  constructor
  · intro hdisj code s t hs ht
    have hmem : ∀ u, Passes paths key (.stringLiteral u) code →
        code ∈ c.codes key (true, isFormatString u) := fun u hu => (h.codes key _ _).mpr ⟨_, rfl, hu⟩
    have hs := hmem s hs
    have ht := hmem t ht
    cases hfs : isFormatString s <;> cases hft : isFormatString t
    · rfl
    · rw [hfs] at hs
      rw [hft] at ht
      exact absurd hs (hdisj ht)
    · rw [hfs] at hs
      rw [hft] at ht
      exact absurd ht (hdisj hs)
    · rfl
  · intro hsame x hformat hplain
    obtain ⟨arg, hv, hpasses⟩ := (h.codes key _ x).mp hformat
    obtain ⟨arg', hv', hpasses'⟩ := (h.codes key _ x).mp hplain
    obtain ⟨s, rfl⟩ := (value_literal arg).mp (by rw [hv])
    obtain ⟨t, rfl⟩ := (value_literal arg').mp (by rw [hv'])
    have hs : isFormatString s = true := congrArg Prod.snd hv
    have ht : isFormatString t = false := congrArg Prod.snd hv'
    have hst := hsame x s t hpasses hpasses'
    rw [hs, ht] at hst
    cases hst

/-! ### The score -/

section

variable [SetOrder Code]

/-- The score of a key is a fraction of its sites: those that pass a literal on
some path. Where it decides for reports, they are the sites with another use. -/
def Fraction (paths : List Path) (c : Context (ℤ × ℕ) (Bool × Bool) Code) (key : ℤ × ℕ) : Prop :=
  (callSites paths key).Nonempty → ∃ q bugs, FSBContext.score c key = .ok q ∧
    c.getBugs FSBContext.keyBugs = .ok bugs ∧ (∀ b ∈ bugs, b.key = key → b.score = q) ∧
    q = ((literalSites paths key).ncard : ℚ) / (callSites paths key).ncard ∧ (0 ≤ q ∧ q ≤ 1) ∧
    (q = 1 → callSites paths key ⊆ literalSites paths key) ∧
    (c.config.threshold ≤ q → q < 1 →
      ∀ x, (∃ b ∈ bugs, b.key = key ∧ b.code = x) ↔ x ∈ otherSites paths key)

/-- What the score is where the two kinds of literals share no site. -/
theorem Holds.fraction {paths : List Path} {c : Context (ℤ × ℕ) (Bool × Bool) Code} (h : Holds paths c)
    {key : ℤ × ℕ} (hdisj : Disjoint (c.codes key (true, true)) (c.codes key (true, false))) :
    Fraction paths c key := by
  intro hne
  obtain ⟨bugs, hbugs, hreports⟩ := FSBContext.getBugs_spec h.sound
  rw [h.callSites_eq, Finset.coe_nonempty] at hne
  have htotal : c.total key ≠ ∅ := Finset.nonempty_iff_ne_empty.mp hne
  obtain ⟨literals, hliterals⟩ : ∃ s, c.codes key (true, true) ∪ c.codes key (true, false) = s := ⟨_, rfl⟩
  have hsub : literals ⊆ c.total key := by
    rw [← hliterals]
    exact Finset.union_subset (h.sound.subset key _) (h.sound.subset key _)
  have hscore : FSBContext.score c key = .ok (share (c.total key) literals) := by
    rw [FSBContext.score_eq htotal, ← Finset.card_union_of_disjoint hdisj, hliterals, share]
  have hone := Context.share_eq_one htotal hsub
  refine ⟨_, bugs, hscore, hbugs, fun b hb hkey => ?_, ?_, ⟨?_, ?_⟩, fun hq => ?_, fun hle hlt x => ?_⟩
  · have hb := (hreports key b.code b.score).mp ⟨b, hb, hkey, rfl, rfl⟩
    exact Except.ok.inj (hb.1.symm.trans hscore)
  · rw [h.callSites_eq, h.literalSites_eq, hliterals, Set.ncard_coe_finset, Set.ncard_coe_finset, share]
  · exact div_nonneg (Nat.cast_nonneg _) (Nat.cast_nonneg _)
  · rcases eq_or_ne literals (c.total key) with heq | hne
    · exact (hone.mpr heq).le
    · exact (Context.share_lt_one (Finset.ssubset_iff_subset_ne.mpr ⟨hsub, hne⟩)).le
  · rw [h.callSites_eq, h.literalSites_eq, hliterals, hone.mp hq]
  · rw [h.mem_otherSites]
    constructor
    · rintro ⟨b, hb, hkey, hcode⟩
      exact ((hreports key x b.score).mp ⟨b, hb, hkey, hcode, rfl⟩).2.2
    · intro hx
      obtain ⟨b, hb, hkey, hcode, -⟩ := (hreports key x _).mpr ⟨hscore, ⟨hle, hlt.ne⟩, hx⟩
      exact ⟨b, hb, hkey, hcode⟩

/-- A score that is a fraction of the sites counts no site twice. -/
theorem Holds.disjoint_of_fraction {paths : List Path} {c : Context (ℤ × ℕ) (Bool × Bool) Code}
    (h : Holds paths c) {key : ℤ × ℕ} (hfraction : Fraction paths c key) :
    Disjoint (c.codes key (true, true)) (c.codes key (true, false)) := by
  by_contra hnot
  obtain ⟨x, hx, -⟩ := Finset.not_disjoint_iff.mp hnot
  have hne : (callSites paths key).Nonempty := ⟨x, by
    rw [h.callSites_eq]
    exact h.sound.subset key _ hx⟩
  obtain ⟨q, -, hq, -, -, hfrac, -⟩ := hfraction hne
  rw [h.callSites_eq, Finset.coe_nonempty] at hne
  have htotal : c.total key ≠ ∅ := Finset.nonempty_iff_ne_empty.mp hne
  have hpos : ((c.total key).card : ℚ) ≠ 0 := Nat.cast_ne_zero.mpr (Finset.card_ne_zero.mpr hne)
  cases (FSBContext.score_eq htotal).symm.trans hq
  -- the sum of the sizes is then the size of the union
  rw [h.callSites_eq, h.literalSites_eq, Set.ncard_coe_finset, Set.ncard_coe_finset, div_left_inj' hpos,
    Nat.cast_inj, eq_comm, Finset.card_union_eq_card_add_card] at hfrac
  exact hnot hfrac

/-- **When the score is a fraction of sites**: if and only if no site passes a
literal with a format and a literal without one. -/
theorem score_fraction_iff {paths : List Path} {c : Context (ℤ × ℕ) (Bool × Bool) Code}
    (h : Made paths c) (key : ℤ × ℕ) : Fraction paths c key ↔
      ∀ code s t, Passes paths key (.stringLiteral s) code → Passes paths key (.stringLiteral t) code →
        isFormatString s = isFormatString t := by
  rw [← h.holds.disjoint_iff key]
  exact ⟨h.holds.disjoint_of_fraction, h.holds.fraction⟩

end

/-- A path that calls `f` with an argument. -/
def callOfF (arg code : String) : Path where
  events := [.call ⟨some (some ("f(" ++ arg ++ ")")), some (some code)⟩]
  cmgr := none

/-- The context of a tree of such paths. -/
def ctxOfF (tree : List Path) : Context (ℤ × ℕ) (Bool × Bool) Code :=
  (Context.new ⟨4 / 5⟩).addAll (Checker.uses processPath tree)

theorem ctxOfF_config (tree : List Path) : (ctxOfF tree).config = ⟨4 / 5⟩ := Context.addAll_config _ _

theorem ctxOfF_sound (tree : List Path) : (ctxOfF tree).Sound := (Context.reachable_addAll (.new _)).sound

/-- Two paths to one site, with a format and with a text, and another site that
passes a variable. -/
def twoLiterals : List Path :=
  [callOfF "\"%d\"" "a.c:1", callOfF "\"x\"" "a.c:1", callOfF "y" "a.c:2"]

omit [StrHash] in
/-- The score is 1, and the site that passes a variable is not reported. -/
theorem twoLiterals_not_fraction :
    let _ : StrHash := ⟨fun s => s.length⟩
    let _ : SetOrder Code := ⟨Finset.toList, fun _ _ => Finset.mem_toList, Finset.nodup_toList⟩
    Made twoLiterals (ctxOfF twoLiterals) ∧
      FSBContext.score (ctxOfF twoLiterals) ((Symbol.id "f").key, 0) = .ok 1 ∧
      ¬ Fraction twoLiterals (ctxOfF twoLiterals) ((Symbol.id "f").key, 0) := by
  intro _ _
  have hisOk : ∀ path ∈ twoLiterals, (processPath path).isOk = true := by decide +kernel
  have hok : ∀ path ∈ twoLiterals, ∃ adds, processPath path = .ok adds := fun path hpath =>
    exists_eq_ok (hisOk path hpath)
  have hmade : Made twoLiterals (ctxOfF twoLiterals) := .process (Checker.process_ok.mpr ⟨hok, rfl⟩)
  refine ⟨hmade, by decide +kernel, fun hfraction => ?_⟩
  have hdisj := hmade.holds.disjoint_of_fraction hfraction
  revert hdisj
  decide +kernel

omit [StrHash] in
/-- Without the second path the score is 1/2. -/
theorem fraction_oneLiteral :
    let _ : StrHash := ⟨fun s => s.length⟩
    let _ : SetOrder Code := ⟨Finset.toList, fun _ _ => Finset.mem_toList, Finset.nodup_toList⟩
    let tree := [callOfF "\"%d\"" "a.c:1", callOfF "y" "a.c:2"]
    Fraction tree (ctxOfF tree) ((Symbol.id "f").key, 0) := by
  intro _ _ tree
  have hisOk : ∀ path ∈ tree, (processPath path).isOk = true := by decide +kernel
  have hok : ∀ path ∈ tree, ∃ adds, processPath path = .ok adds := fun path hpath =>
    exists_eq_ok (hisOk path hpath)
  have hmade : Made tree (ctxOfF tree) := .process (Checker.process_ok.mpr ⟨hok, rfl⟩)
  exact (score_fraction_iff hmade _).mpr ((hmade.holds.disjoint_iff _).mp (by decide +kernel))

end FSBChecker

end Apisan
