/-
# The reports on a database

Who is reported when a database is checked, in terms of the graphs in it. The
checkers of return values and locks report the sites that deviate from what most
sites of a function do, the checker of arguments those that pass unrelated
arguments where most pass related ones; each site is reported once for a key, and
the reports are sorted by their scores. What a site does is told by the sequences
that the paths of the graphs leave (`RetValChecker.explore_returns`,
`ThreadSafetyChecker.explore_locks`, `ArgChecker.explore_arguments`).

Key definitions: `Sites`, `Sites.Deviates`, `RetValChecker.Use`,
`ThreadSafetyChecker.Use`, `ArgChecker.Use`, `ArgChecker.Related`.
Key theorems: `Added.exists_deviant`, `Added.exists_unrelated`,
`RetValChecker.adds`, `ThreadSafetyChecker.adds`, `ArgChecker.adds`.
-/
import Apisan.Check.Locks
import Apisan.Check.Printing
import Apisan.Check.Pipeline

namespace Apisan

open Python Cache TextLines

/-! ### Sites -/

/-- The locations of uses: those of a key, and those of a key with a value. -/
structure Sites {K V : Type} (use : Add K V Code → Prop) where
  total : K → Finset Code
  codes : K → V → Finset Code
  mem_total : ∀ key x, x ∈ total key ↔ ∃ a, use a ∧ a.key = key ∧ a.code = x
  mem_codes : ∀ key v x, x ∈ codes key v ↔ ∃ a, use a ∧ a.key = key ∧ a.value = some v ∧ a.code = x

namespace Sites

variable {K V : Type} {use : Add K V Code → Prop} (S : Sites use) (config : Config)

/-- Most sites of the key have the value, but not all. -/
def Major (key : K) (v : V) : Prop :=
  S.codes key v ≠ ∅ ∧ config.threshold ≤ share (S.total key) (S.codes key v) ∧ S.codes key v ≠ S.total key

/-- The site has none of the values that most sites of the key have. -/
def Deviates (key : K) (x : Code) : Prop :=
  x ∈ S.total key ∧ (∃ v, S.Major config key v) ∧ ∀ v, S.Major config key v → x ∉ S.codes key v

/-- The site passes unrelated arguments, where most sites of the key, but not
all, pass related ones. -/
def Unrelated {use : Add K Bool Code → Prop} (S : Sites use) (config : Config) (key : K) (x : Code) : Prop :=
  config.threshold ≤ share (S.total key) (S.codes key true) ∧ S.codes key true ≠ S.total key ∧
    x ∈ S.codes key false

end Sites

/-! ### Rankings -/

/-- The site of a report. -/
def BugReport.site {K V C : Type} (b : BugReport K V C) : K × C := (b.key, b.code)

/-- A ranking sorts the reports by their scores, and keeps their sites. -/
structure Ranks {K V C : Type} (rank : List (BugReport K V C) → List (BugReport K V C)) : Prop where
  sorted : ∀ bugs, (rank bugs).Pairwise fun a b => b.score ≤ a.score
  perm : ∀ bugs, ((rank bugs).map BugReport.site).Perm (bugs.map BugReport.site)

section

variable {K V C : Type}

theorem ranks_sortedByScore : Ranks (sortedByScore : List (BugReport K V C) → List (BugReport K V C)) where
  sorted bugs := by
    have : Std.Total fun a b : BugReport K V C => b.score ≤ a.score := ⟨fun a b => le_total _ _⟩
    have : IsTrans (BugReport K V C) fun a b => b.score ≤ a.score := ⟨fun a b c hab hbc => hbc.trans hab⟩
    exact List.pairwise_insertionSort _ bugs
  perm bugs := (List.perm_insertionSort _ bugs).map _

theorem RetValChecker.ranks_rank (id? : K → Option String) :
    Ranks (RetValChecker.rank id? : List (BugReport K V C) → List (BugReport K V C)) where
  sorted bugs := ranks_sortedByScore.sorted _
  perm bugs := by
    refine (ranks_sortedByScore.perm _).trans ?_
    rw [List.map_map]
    exact .refl _

theorem Ranks.mem_site {rank : List (BugReport K V C) → List (BugReport K V C)} (h : Ranks rank)
    (bugs : List (BugReport K V C)) (key : K) (x : C) :
    (∃ b ∈ rank bugs, b.key = key ∧ b.code = x) ↔ ∃ b ∈ bugs, b.key = key ∧ b.code = x := by
  have hmem := (h.perm bugs).mem_iff (a := (key, x))
  simpa only [List.mem_map, BugReport.site, Prod.mk.injEq] using hmem

end

/-! ### The reports of contexts -/

namespace Added

variable {K V : Type} [DecidableEq K] [DecidableEq V] {config : Config} {use : Add K V Code → Prop}
variable {ctxs : List (Context K V Code)}

/-- The merge of the contexts holds the sites of the uses; there is none if there
are no trees. -/
theorem exists_sites (h : Added config use ctxs) : (Context.mergeAll ctxs = none ∧ ∀ a, ¬ use a) ∨
    ∃ c, Context.mergeAll ctxs = some c ∧ c.config = config ∧ c.Sound ∧
      ∃ S : Sites use, S.total = c.total ∧ S.codes = c.codes := by
  obtain ⟨trees, rfl, huse⟩ := h
  rcases Context.mergeAll_ofTrees config trees with ⟨rfl, hnone⟩ | ⟨c, hc, hconfig, hholds⟩
  · refine .inl ⟨hnone, fun a ha => ?_⟩
    obtain ⟨adds, hadds, -⟩ := (huse a).mpr ha
    cases hadds
  · refine .inr ⟨c, hc, hconfig, hholds.sound, ⟨c.total, c.codes, fun key x => ?_, fun key v x => ?_⟩, rfl, rfl⟩
    · rw [hholds.total, mem_sites]
      constructor
      · rintro ⟨adds, hadds, a, ha, hkey, hcode⟩
        exact ⟨a, (huse a).mp ⟨adds, hadds, ha⟩, hkey, hcode⟩
      · rintro ⟨a, ha, hkey, hcode⟩
        obtain ⟨adds, hadds, ha⟩ := (huse a).mpr ha
        exact ⟨adds, hadds, a, ha, hkey, hcode⟩
    · rw [hholds.codes, mem_sitesOf]
      constructor
      · rintro ⟨adds, hadds, a, ha, hkey, hvalue, hcode⟩
        exact ⟨a, (huse a).mp ⟨adds, hadds, ha⟩, hkey, hvalue, hcode⟩
      · rintro ⟨a, ha, hkey, hvalue, hcode⟩
        obtain ⟨adds, hadds, ha⟩ := (huse a).mpr ha
        exact ⟨adds, hadds, a, ha, hkey, hvalue, hcode⟩

/-- No uses have no sites. -/
def noSites (h : ∀ a, ¬ use a) : Sites use where
  total _ := ∅
  codes _ _ := ∅
  mem_total _ x := iff_of_false (Finset.notMem_empty x) fun hx => h _ hx.choose_spec.1
  mem_codes _ _ x := iff_of_false (Finset.notMem_empty x) fun hx => h _ hx.choose_spec.1

end Added

/-- The reports are sorted by their scores, and name the sites of which `P` is
true, each once, and no others. -/
structure Verdict {K V : Type} (bugs : Option (List (BugReport K V Code))) (P : K → Code → Prop) : Prop where
  sorted : (bugs.getD []).Pairwise fun a b => b.score ≤ a.score
  nodup : ((bugs.getD []).map BugReport.site).Nodup
  iff : ∀ key x, (∃ b ∈ bugs.getD [], b.key = key ∧ b.code = x) ↔ P key x

section

variable {K V : Type} [DecidableEq K] [DecidableEq V] [SetOrder Code] {config : Config}

omit [SetOrder Code] in
/-- The reports of merged contexts, given those of a context. -/
theorem Added.exists_verdict {use : Add K V Code → Prop} {ctxs : List (Context K V Code)} (h : Added config use ctxs)
    {rank : List (BugReport K V Code) → List (BugReport K V Code)} (hrank : Ranks rank)
    {keyBugs : Config → K → Store1 V Code → Finset Code → Except Error (List (BugReport K V Code))}
    {P : Sites use → K → Code → Prop} (hnone : ∀ S key x, P S key x → ∃ v, S.codes key v ≠ ∅)
    (hsome : ∀ c : Context K V Code, c.Sound → c.config = config → ∀ S : Sites use, S.total = c.total →
      S.codes = c.codes → ∃ bugs, c.getBugs keyBugs = .ok bugs ∧ (bugs.map BugReport.site).Nodup ∧
        ∀ key x, (∃ b ∈ bugs, b.key = key ∧ b.code = x) ↔ P S key x) :
    ∃ (S : Sites use) (bugs : Option (List (BugReport K V Code))),
      Deviant.merge keyBugs rank ctxs = .ok bugs ∧ Verdict bugs (P S) := by
  rcases h.exists_sites with ⟨hmerge, huse⟩ | ⟨c, hmerge, hconfig, hsound, S, htotal, hcodes⟩
  · refine ⟨Added.noSites huse, none, ?_, ⟨.nil, List.nodup_nil, fun key x => iff_of_false ?_ fun hP => ?_⟩⟩
    · unfold Deviant.merge
      rw [hmerge]
    · rintro ⟨b, hb, -⟩
      cases hb
    · obtain ⟨v, hv⟩ := hnone _ key x hP
      exact hv rfl
  · obtain ⟨bugs, hbugs, hnodup, hiff⟩ := hsome c hsound hconfig S htotal hcodes
    refine ⟨S, some (rank bugs), Deviant.merge_eq_some.mpr ⟨c, bugs, hmerge, hbugs, rfl⟩, hrank.sorted bugs, ?_, ?_⟩
    · exact (hrank.perm bugs).nodup_iff.mpr hnodup
    · exact fun key x => (hrank.mem_site bugs key x).trans (hiff key x)

omit [SetOrder Code] in
theorem Sites.qualifies_iff_major {use : Add K V Code → Prop} (S : Sites use) {c : Context K V Code} (h : c.Sound)
    (htotal : S.total = c.total) (hcodes : S.codes = c.codes) (key : K) (v : V) :
    c.Qualifies key v ↔ S.Major c.config key v := by
  unfold Context.Qualifies Major
  rw [htotal, hcodes]
  exact and_congr_left fun _ => ⟨h.nonempty key v, Context.mem_values_of_codes⟩

/-- **Who deviates** is reported. -/
theorem Added.exists_deviant {use : Add K V Code → Prop} {ctxs : List (Context K V Code)} (h : Added config use ctxs)
    (references : Bool) {rank : List (BugReport K V Code) → List (BugReport K V Code)} (hrank : Ranks rank) :
    ∃ (S : Sites use) (bugs : Option (List (BugReport K V Code))),
      Deviant.merge (Deviant.keyBugs references) rank ctxs = .ok bugs ∧ Verdict bugs (S.Deviates config) := by
  refine h.exists_verdict hrank (P := fun S => S.Deviates config) (fun S key x hx => ?_) ?_
  · obtain ⟨-, ⟨v, hv⟩, -⟩ := hx
    exact ⟨v, hv.1⟩
  · rintro c hsound rfl S htotal hcodes
    have hmajor := S.qualifies_iff_major hsound htotal hcodes
    obtain ⟨bugs, hbugs, hnodup, hiff⟩ := Context.exists_reported_iff hsound references
    refine ⟨bugs, hbugs, hnodup, fun key x => (hiff key x).trans ?_⟩
    unfold Context.Deviates Sites.Deviates
    simp only [hmajor, htotal, hcodes]

namespace ArgContext

/-- The reports of a key: the locations of the unrelated uses. -/
theorem keyBugs_spec {c : Context K Bool Code} (h : c.Sound) {x : K × Store1 Bool Code}
    (hx : x ∈ c.ctxUses.entries) : ∃ bugs, keyBugs c.config x.1 x.2 (c.total x.1) = .ok bugs ∧
      ((bugs.map BugReport.site).Nodup ∧ ∀ b ∈ bugs, b.key = x.1) ∧ ∀ y, (∃ b ∈ bugs, b.code = y) ↔
        (c.config.threshold ≤ share (c.total x.1) (c.codes x.1 true) ∧
          share (c.total x.1) (c.codes x.1 true) ≠ 1) ∧ y ∈ c.codes x.1 false := by
  have hget := Dict.mem_entries.mp hx
  have hcodes : ∀ v, (x.2.get? v).getD ∅ = c.codes x.1 v := fun v => by
    rw [Context.codes, Context.dict_eq hget]
  have hquot : quotient (c.codes x.1 true).card (c.total x.1).card = .ok (share (c.total x.1) (c.codes x.1 true)) :=
    quotient_ok (h.covered x.1 x.2 hget) _
  unfold keyBugs
  simp only [hcodes, hquot, ok_bind]
  split_ifs with hshare
  · refine ⟨_, rfl, ⟨?_, fun b hb => ?_⟩, fun y => ?_⟩
    · unfold reports
      rw [List.map_map]
      exact (SetOrder.nodup_list _).map fun z z' hz => congrArg Prod.snd hz
    · obtain ⟨z, -, rfl⟩ := List.mem_map.mp hb
      rfl
    · rw [and_iff_right hshare]
      simp only [reports, List.mem_map, exists_exists_and_eq_and, exists_eq_right, SetOrder.mem_list]
  · refine ⟨[], rfl, ⟨List.nodup_nil, fun b hb => (List.not_mem_nil hb).elim⟩, fun y => ?_⟩
    refine iff_of_false ?_ fun hy => hshare hy.1
    rintro ⟨b, hb, -⟩
    exact List.not_mem_nil hb

/-- The reports of a context of arguments. -/
theorem getBugs_spec {c : Context K Bool Code} (h : c.Sound) : ∃ bugs, c.getBugs keyBugs = .ok bugs ∧
    (bugs.map BugReport.site).Nodup ∧ ∀ key x, (∃ b ∈ bugs, b.key = key ∧ b.code = x) ↔
      (c.config.threshold ≤ share (c.total key) (c.codes key true) ∧ share (c.total key) (c.codes key true) ≠ 1) ∧
        x ∈ c.codes key false := by
  obtain ⟨bugs, hbugs⟩ : ∃ bugs, c.getBugs keyBugs = .ok bugs := gather_ok fun x hx => by
    obtain ⟨l, hl, -⟩ := keyBugs_spec h hx
    exact ⟨l, hl⟩
  refine ⟨bugs, hbugs, nodup_gather hbugs c.ctxUses.nodup fun x hx l hl => ?_, fun key y => ?_⟩
  · obtain ⟨l', hl', hsites, -⟩ := keyBugs_spec h hx
    cases hl.symm.trans hl'
    exact hsites
  · constructor
    · rintro ⟨b, hb, rfl, rfl⟩
      obtain ⟨x, hx, l, hl, hbl⟩ := (mem_gather hbugs).mp hb
      obtain ⟨l', hl', ⟨-, hkey⟩, hiff⟩ := keyBugs_spec h hx
      cases hl.symm.trans hl'
      rw [hkey b hbl]
      exact (hiff b.code).mp ⟨b, hbl, rfl⟩
    · rintro ⟨hshare, hy⟩
      -- the key has a dictionary, since it has the location
      obtain ⟨value, hvalue⟩ := Context.exists_dict (Context.mem_values_of_codes (Finset.ne_empty_of_mem hy))
      have hentry : (key, value) ∈ c.ctxUses.entries := Dict.mem_entries.mpr hvalue
      obtain ⟨l, hl, ⟨-, hkey⟩, hiff⟩ := keyBugs_spec h hentry
      obtain ⟨b, hb, hcode⟩ := (hiff y).mpr ⟨hshare, hy⟩
      exact ⟨b, (mem_gather hbugs).mpr ⟨_, hentry, l, hl, hb⟩, hkey b hb, hcode⟩

end ArgContext

/-- **Unrelated arguments** are reported. -/
theorem Added.exists_unrelated {use : Add K Bool Code → Prop} {ctxs : List (Context K Bool Code)}
    (h : Added config use ctxs) : ∃ (S : Sites use) (bugs : Option (List (BugReport K Bool Code))),
      Deviant.merge ArgContext.keyBugs sortedByScore ctxs = .ok bugs ∧ Verdict bugs (S.Unrelated config) := by
  refine h.exists_verdict ranks_sortedByScore (P := fun S => S.Unrelated config) (fun S key x hx => ?_) ?_
  · exact ⟨false, Finset.ne_empty_of_mem hx.2.2⟩
  · rintro c hsound rfl S htotal hcodes
    obtain ⟨bugs, hbugs, hnodup, hiff⟩ := ArgContext.getBugs_spec hsound
    refine ⟨bugs, hbugs, hnodup, fun key x => (hiff key x).trans ?_⟩
    unfold Sites.Unrelated
    rw [htotal, hcodes, and_assoc]
    refine and_congr_right fun _ => and_congr_left fun hx => not_congr ?_
    have hmem : x ∈ c.total key := hsound.subset key false hx
    exact Context.share_eq_one (Finset.ne_empty_of_mem hmem) (hsound.subset key true)

end

/-! ### The uses of sequences -/

/-- A printed event has the attributes that checkers read. -/
theorem hasAttributes_mapCode (e : SymExecEvent) (f : Option String → Option String) :
    HasAttributes (e.toEvent.mapCode f) ∧ RetValChecker.Complete (e.toEvent.mapCode f) := by
  obtain ⟨kind, code, sv⟩ := e
  cases kind with
  | fnCall => exact ⟨⟨fun h => (by cases h), fun _ h => (by cases h)⟩, fun a h => (by cases h)⟩
  | fnReturn =>
    refine ⟨trivial, fun a h => ?_⟩
    cases h
    exact ⟨fun h => (by cases h), fun h => (by cases h)⟩
  | assume => exact ⟨trivial, fun a h => (by cases h)⟩
  | eop => exact ⟨trivial, fun a h => (by cases h)⟩

section

variable [StrHash]

namespace RetValChecker

/-- A return of a call uses the function, at its location, with the first
constraints on the call, unless it is of a wrapper. -/
def Use (s : List Event) (a : Add ℤ (List (ℤ × ℤ)) Code) : Prop :=
  ∃ i event name args, s[i]? = some event ∧ Returns event name args a.code ∧ name.key = a.key ∧
    ¬ Wrapper s i (.call name args) ∧ firstConstraint s (.call name args) = a.value

theorem adds : Adds true processPath Use := by
  intro path hprinted
  obtain ⟨m, hm, hget⟩ := hprinted.constraints rfl
  obtain ⟨adds, hadds⟩ : ∃ adds, processPath path = .ok adds := gather_ok fun x hx => by
    have hmem : x.1 ∈ path.events := List.mem_of_getElem? (List.mem_zipIdx_iff_getElem?.mp hx)
    obtain ⟨e, f, he⟩ := hprinted.events x.1 hmem
    exact processEvent_ok hm (he ▸ (hasAttributes_mapCode e f).2) x.2
  refine ⟨adds, hadds, fun a => (mem_processPath hm hget hadds).trans ?_⟩
  constructor
  · rintro ⟨i, event, name, args, code, hi, hret, hwrapper, rfl⟩
    exact ⟨i, event, name, args, hi, hret, rfl, hwrapper, rfl⟩
  · rintro ⟨i, event, name, args, hi, hret, hkey, hwrapper, hvalue⟩
    refine ⟨i, event, name, args, a.code, hi, hret, hwrapper, ?_⟩
    rw [hkey, hvalue]

end RetValChecker

namespace ThreadSafetyChecker

/-- A call that neither locks nor unlocks uses its name, with whether the last
operation on a lock before it locks. -/
def Use (s : List Event) (a : Add (Option String) Bool Code) : Prop :=
  ∃ before event after, s = before ++ event :: after ∧ a ∈ use (flag before) event

omit [StrHash] in
/-- The uses that the events of a path add. -/
theorem mem_run {events : List Event} {s : Bool × List (Add (Option String) Bool Code)} :
    events.foldlM processEvent (false, []) = .ok s → ∀ a, a ∈ s.2 ↔ Use events a := by
  induction events using List.reverseRecOn generalizing s with
  | nil =>
    intro h a
    cases h
    refine iff_of_false List.not_mem_nil ?_
    rintro ⟨before, event, after, heq, -⟩
    cases before <;> cases heq
  | append_singleton events x ih =>
    intro h a
    obtain ⟨t, ht, -, rfl⟩ := run_concat.mp h
    obtain ⟨-, hflag⟩ := run_ok ht
    rw [List.mem_append, ih ht, hflag]
    constructor
    · rintro (⟨before, event, after, rfl, ha⟩ | ha)
      · exact ⟨before, event, after ++ [x], by simp, ha⟩
      · exact ⟨events, x, [], rfl, ha⟩
    · rintro ⟨before, event, after, heq, ha⟩
      rcases List.eq_nil_or_concat after with rfl | ⟨l, y, rfl⟩
      · obtain ⟨rfl, hxe⟩ := List.append_inj' heq rfl
        cases hxe
        exact .inr ha
      · rw [List.concat_eq_append, ← List.cons_append, ← List.append_assoc] at heq
        obtain ⟨rfl, -⟩ := List.append_inj' heq rfl
        exact .inl ⟨before, event, l, rfl, ha⟩

theorem adds : Adds false processPath Use := by
  intro path hprinted
  obtain ⟨s, hs⟩ : ∃ s, path.events.foldlM processEvent (false, []) = .ok s := exists_run fun event hevent => by
    obtain ⟨e, f, rfl⟩ := hprinted.events event hevent
    exact (hasAttributes_mapCode e f).1
  exact ⟨s.2, bind_eq_ok.mpr ⟨s, hs, rfl⟩, mem_run hs⟩

end ThreadSafetyChecker

namespace ArgChecker

/-- A call event with a parseable call, and its location. -/
def Calls (event : Event) (name : Symbol) (args : List Symbol) (code : Code) : Prop :=
  ∃ text, event = .call ⟨some text, some code⟩ ∧ textSymbol text = some (.call name args)

/-- One of the arguments is a call, and they have an identifier in common. -/
def Related (arg1 arg2 : Symbol) : Prop :=
  (∃ name args, arg1 = .call name args ∨ arg2 = .call name args) ∧
    ∃ x y, Below arg1 (.id x) ∧ Below arg2 (.id y) ∧ (Symbol.id x).key = (Symbol.id y).key

theorem checkRelated_iff (arg1 arg2 : Symbol) : checkRelated arg1 arg2 = true ↔ Related arg1 arg2 := by
  have hcall : checkRelated arg1 arg2 = true ↔ (∃ name args, arg1 = .call name args ∨ arg2 = .call name args) ∧
      extractNodes arg1 ∩ extractNodes arg2 ≠ ∅ := by
    unfold checkRelated
    cases arg1 <;> cases arg2 <;> simp [exists_or]
  have hcommon : extractNodes arg1 ∩ extractNodes arg2 ≠ ∅ ↔
      ∃ x y, Below arg1 (.id x) ∧ Below arg2 (.id y) ∧ (Symbol.id x).key = (Symbol.id y).key := by
    rw [← Finset.nonempty_iff_ne_empty]
    unfold Finset.Nonempty
    simp only [Finset.mem_inter, mem_extractNodes]
    constructor
    · rintro ⟨k, ⟨x, hx, rfl⟩, y, hy, hkey⟩
      exact ⟨x, y, hx, hy, hkey⟩
    · rintro ⟨x, y, hx, hy, hkey⟩
      exact ⟨_, ⟨x, hx, rfl⟩, y, hy, hkey⟩
  exact hcall.trans (and_congr_right fun _ => hcommon)

/-- A call uses each two of its arguments, at their positions, with whether they
are related. -/
def Use (s : List Event) (a : Add (ℤ × ℕ × ℕ) Bool Code) : Prop :=
  ∃ event ∈ s, ∃ name args, Calls event name args a.code ∧ ∃ i j arg1 arg2 related, i < j ∧
    args[i]? = some arg1 ∧ args[j]? = some arg2 ∧ a.key = (name.key, i, j) ∧ a.value = some related ∧
      (related = true ↔ Related arg1 arg2)

omit [StrHash] in
theorem mem_drop_zipIdx {A : Type} {l : List A} {n : ℕ} {x : A × ℕ} :
    x ∈ l.zipIdx.drop n ↔ n ≤ x.2 ∧ l[x.2]? = some x.1 := by
  rw [List.mem_iff_getElem?]
  simp only [List.getElem?_drop, List.getElem?_zipIdx, Option.map_eq_some_iff, Nat.zero_add]
  constructor
  · rintro ⟨k, a, ha, rfl⟩
    exact ⟨Nat.le_add_right n k, ha⟩
  · rintro ⟨hn, hx⟩
    refine ⟨x.2 - n, x.1, ?_, ?_⟩
    · rw [Nat.add_sub_cancel' hn]
      exact hx
    · rw [Nat.add_sub_cancel' hn]

/-- The uses of a call. -/
theorem mem_pairs (name : Symbol) (args : List Symbol) (code : Code) {a : Add (ℤ × ℕ × ℕ) Bool Code} :
    a ∈ (args.zipIdx.flatMap fun x : Symbol × ℕ => (args.zipIdx.drop (x.2 + 1)).map fun y : Symbol × ℕ =>
      (⟨(name.key, x.2, y.2), some (checkRelated x.1 y.1), code⟩ : Add (ℤ × ℕ × ℕ) Bool Code)) ↔
      code = a.code ∧ ∃ i j arg1 arg2, i < j ∧ args[i]? = some arg1 ∧ args[j]? = some arg2 ∧
        a.key = (name.key, i, j) ∧ a.value = some (checkRelated arg1 arg2) := by
  simp only [List.mem_flatMap, List.mem_map, List.mem_zipIdx_iff_getElem?, mem_drop_zipIdx]
  constructor
  · rintro ⟨⟨arg1, i⟩, h1, ⟨arg2, j⟩, ⟨hij, h2⟩, rfl⟩
    exact ⟨rfl, i, j, arg1, arg2, hij, h1, h2, rfl, rfl⟩
  · rintro ⟨hcode, i, j, arg1, arg2, hij, h1, h2, hkey, hvalue⟩
    refine ⟨(arg1, i), h1, (arg2, j), ⟨hij, h2⟩, ?_⟩
    rw [← hkey, ← hvalue, hcode]

/-- The uses of a printed event. -/
theorem processEvent_spec (e : SymExecEvent) (f : Option String → Option String) :
    ∃ adds, processEvent (e.toEvent.mapCode f) = .ok adds ∧ ∀ a, a ∈ adds ↔ ∃ name args,
      Calls (e.toEvent.mapCode f) name args a.code ∧ ∃ i j arg1 arg2, i < j ∧ args[i]? = some arg1 ∧
        args[j]? = some arg2 ∧ a.key = (name.key, i, j) ∧ a.value = some (checkRelated arg1 arg2) := by
  have hother : ∀ event, isCall event = .ok none → (∀ name args code, ¬ Calls event name args code) →
      ∃ adds, processEvent event = .ok adds ∧ ∀ a, a ∈ adds ↔ ∃ name args,
        Calls event name args a.code ∧ ∃ i j arg1 arg2, i < j ∧ args[i]? = some arg1 ∧
          args[j]? = some arg2 ∧ a.key = (name.key, i, j) ∧ a.value = some (checkRelated arg1 arg2) := by
    intro event hcall hnone
    refine ⟨[], ?_, fun a => iff_of_false List.not_mem_nil ?_⟩
    · unfold processEvent
      rw [hcall]
      rfl
    · rintro ⟨name, args, hcalls, -⟩
      exact hnone name args a.code hcalls
  obtain ⟨kind, code, sv⟩ := e
  cases kind with
  | fnReturn => exact hother _ rfl fun name args c => by rintro ⟨text, heq, -⟩; cases heq
  | assume => exact hother _ rfl fun name args c => by rintro ⟨text, heq, -⟩; cases heq
  | eop => exact hother _ rfl fun name args c => by rintro ⟨text, heq, -⟩; cases heq
  | fnCall =>
    have hevent : (SymExecEvent.mk .fnCall code sv).toEvent.mapCode f =
        .call ⟨some (xmlText sv), some (f (xmlText code))⟩ := rfl
    rw [hevent]
    have hparse : ∀ name args c, Calls (.call ⟨some (xmlText sv), some (f (xmlText code))⟩) name args c ↔
        textSymbol (xmlText sv) = some (.call name args) ∧ f (xmlText code) = c := by
      intro name args c
      constructor
      · rintro ⟨text, heq, hparse⟩
        cases heq
        exact ⟨hparse, rfl⟩
      · rintro ⟨hparse, rfl⟩
        exact ⟨_, rfl, hparse⟩
    cases htext : xmlText sv with
    | none =>
      rw [htext] at hparse
      exact hother _ rfl fun name args c h => by cases ((hparse name args c).mp h).1
    | some text =>
      rw [htext] at hparse
      have hseen : isCall (.call ⟨some (some text), some (f (xmlText code))⟩) =
        .ok (some ⟨some (some text), some (f (xmlText code))⟩) := rfl
      obtain ⟨call, hcall⟩ : ∃ call, CallAttributes.call ⟨some (some text), some (f (xmlText code))⟩ = .ok call :=
        ⟨_, rfl⟩
      have hsome : ∀ name args, call = some (name, args) ↔ textSymbol (some text) = some (.call name args) := by
        intro name args
        have hiff : CallAttributes.call ⟨some (some text), some (f (xmlText code))⟩ = .ok (some (name, args)) ↔ _ :=
          RetValChecker.call_eq_some
        rw [hcall] at hiff
        simpa using hiff
      cases call with
      | none =>
        refine ⟨[], ?_, fun a => iff_of_false List.not_mem_nil ?_⟩
        · unfold processEvent
          rw [hseen, ok_bind]
          simp only [hcall]
          rfl
        · rintro ⟨name, args, hcalls, -⟩
          cases (hsome name args).mpr ((hparse name args a.code).mp hcalls).1
      | some x =>
        obtain ⟨name, args⟩ := x
        refine ⟨_, ?_, fun a => (mem_pairs name args (f (xmlText code))).trans ?_⟩
        · unfold processEvent
          rw [hseen, ok_bind]
          simp only [hcall]
          rfl
        · constructor
          · rintro ⟨hcode, hpairs⟩
            exact ⟨name, args, (hparse name args a.code).mpr ⟨(hsome name args).mp rfl, hcode⟩, hpairs⟩
          · rintro ⟨name', args', hcalls, hpairs⟩
            obtain ⟨htext', hcode⟩ := (hparse name' args' a.code).mp hcalls
            cases (hsome name' args').mpr htext'
            exact ⟨hcode, hpairs⟩

theorem adds : Adds true processPath Use := by
  intro path hprinted
  have hevent : ∀ event ∈ path.events, ∃ adds, processEvent event = .ok adds := fun event hevent => by
    obtain ⟨e, f, rfl⟩ := hprinted.events event hevent
    obtain ⟨adds, hadds, -⟩ := processEvent_spec e f
    exact ⟨adds, hadds⟩
  obtain ⟨adds, hadds⟩ : ∃ adds, processPath path = .ok adds := gather_ok hevent
  refine ⟨adds, hadds, fun a => (mem_gather hadds).trans ?_⟩
  unfold Use
  refine exists_congr fun event => and_congr_right fun hmem => ?_
  obtain ⟨e, f, rfl⟩ := hprinted.events event hmem
  obtain ⟨l, hl, hiff⟩ := processEvent_spec e f
  simp only [hl, Except.ok.injEq, exists_eq_left', hiff]
  refine exists_congr fun name => exists_congr fun args => and_congr_right fun _ => ?_
  constructor
  · rintro ⟨i, j, arg1, arg2, hij, h1, h2, hkey, hvalue⟩
    exact ⟨i, j, arg1, arg2, _, hij, h1, h2, hkey, hvalue, checkRelated_iff arg1 arg2⟩
  · rintro ⟨i, j, arg1, arg2, related, hij, h1, h2, hkey, hvalue, hrelated⟩
    refine ⟨i, j, arg1, arg2, hij, h1, h2, hkey, hvalue.trans (congrArg some ?_)⟩
    exact Bool.eq_iff_iff.mpr (hrelated.trans (checkRelated_iff arg1 arg2).symm)

end ArgChecker

end

/-! ### A database to check -/

/-- A call of `f`, its return, and what is assumed of it, up to the end of the path. -/
def usedTrace : List SymExecEvent :=
  [.ofCall .fnCall "5" "f(x, g(x))", .ofCall .fnReturn "5" "f(x, g(x))",
    .ofCond .assume "f(x, g(x))@=\x7b [0, 0] \x7d", .ofKind .eop]

/-- The events of the trace up to each node. -/
def usedEvents (n : Fin 5) : List SymExecEvent := (usedTrace.take n).reverse

def usedSuccs (n : Fin 5) : List (Fin 5) := (List.finRange 5).filter fun m => m.val = n.val + 1

theorem usedEvents_succ (u v : Fin 5) (hv : v ∈ usedSuccs u) : ∃ new, usedEvents v = new ++ usedEvents u := by
  have hsuffix : ∀ u v, v ∈ usedSuccs u → usedEvents u <:+ usedEvents v := by decide
  obtain ⟨new, hnew⟩ := hsuffix u v hv
  exact ⟨new, hnew.symm⟩

theorem usedEvents_last (n : Fin 5) : ∀ e ∈ (usedEvents n).tail, e.kind ≠ .eop := by
  revert n
  decide

/-- A graph with the trace as its only path. -/
def usedGraph : ExplodedGraph (Fin 5) where
  root := 0
  succs := usedSuccs
  events := usedEvents
  events_root := rfl
  events_succ := usedEvents_succ
  eop_last n _ := usedEvents_last n

/-- A file with the report of the graph, between messages of the compiler. -/
def usedDatabase : Database Unit where
  graphs _ := [()]
  before _ _ := "a.c:3:1: warning: "
  after _ := "1 warning generated.\n"

/-- A world with this file. -/
def usedWorld (Ctx : Type) : World Config Ctx where
  conf := ⟨4 / 5⟩
  files := Dict.empty.set databaseFile.1 (.database (bodies (Xml.read Element.mk Xml.noNamespaces)
    (textLines (usedDatabase.text (fun _ => usedGraph) databaseFile))))

/-- The locations are within `a.c`. -/
def qualifyUsed (_ : DatabaseFile) (code : Option String) : Option String := code.map ("a.c" ++ ":" ++ ·)

theorem usedWorld_stored (Ctx : Type) : usedDatabase.Stored (fun _ => usedGraph) Xml.noNamespaces
    (fun _ => containedResolver "a.c") qualifyUsed (usedWorld Ctx) [databaseFile] where
  files fn hfn := by
    obtain rfl := List.mem_singleton.mp hfn
    unfold usedWorld
    rw [Dict.get?_set, if_pos rfl]
  before _ _ _ _ := by
    show Silent ("a.c:3:1: warning: " ++ "\n")
    decide
  after _ _ := by
    show Silent "1 warning generated.\n"
    decide
  printable _ _ _ _ := by
    show ∀ n, ∀ e ∈ usedEvents n, e.Printable
    decide +kernel
  resolves _ _ _ _ n e he hkind := by
    have hcode : ∀ n, ∀ e ∈ usedEvents n, e.kind = .fnCall ∨ e.kind = .fnReturn → xmlText e.code = some "5" := by
      decide
    rw [hcode n e he hkind]
    rfl
  texted _ _ _ _ := by
    show ∀ n, ∀ e ∈ usedEvents n, e.kind = .assume → e.sv ≠ ""
    decide

/-- The sequence that the graph leaves. -/
def usedSequence : List Event :=
  [.call ⟨some (some "f(x, g(x))"), some (some "a.c:5")⟩, .ret ⟨some (some "f(x, g(x))"), some (some "a.c:5")⟩,
    .assume (some (some "f(x, g(x))@=\x7b [0, 0] \x7d")), .eop]

theorem usedDatabase_leaves : usedDatabase.Leaves (fun _ => usedGraph) qualifyUsed [databaseFile] usedSequence := by
  have hpath : Simple usedGraph.Edge [] 0 [1, 2, 3, 4] := by
    refine ⟨?_, by decide, by simp⟩
    simp only [List.isChain_cons_cons, List.isChain_singleton, and_true]
    have hedge : ∀ u v : Fin 5, v.val = u.val + 1 → usedGraph.Edge u v := fun u v h =>
      List.mem_filter.mpr ⟨List.mem_finRange v, decide_eq_true h⟩
    exact ⟨hedge 0 1 rfl, hedge 1 2 rfl, hedge 2 3 rfl, hedge 3 4 rfl⟩
  have hleaves : LeftBy usedGraph [1, 2, 3, 4] (usedTrace.map SymExecEvent.toEvent) := ⟨hpath, rfl, rfl⟩
  exact ⟨databaseFile, List.mem_singleton_self _, (), List.mem_singleton_self _, [1, 2, 3, 4], _, hleaves, rfl⟩

/-! ### The checkers -/

section

variable [StrHash] [SetOrder Code]

/-- `ArgChecker`, as `CHECKERS` has it. -/
def argsClass : CheckerClass Config (Context (ℤ × ℕ × ℕ) Bool Code)
    (Except Error (Option (List (BugReport (ℤ × ℕ × ℕ) Bool Code)))) where
  parseConstraints := true
  process := Checker.process ArgChecker.processPath
  merge _ := ArgChecker.merge

def RetValChecker.adding (id? : ℤ → Option String) : Adding (retValClass id?) RetValChecker.Use where
  processPath := RetValChecker.processPath
  process := rfl
  adds := RetValChecker.adds

def ThreadSafetyChecker.adding : Adding threadClass ThreadSafetyChecker.Use where
  processPath := ThreadSafetyChecker.processPath
  process := rfl
  adds := ThreadSafetyChecker.adds

def ArgChecker.adding : Adding argsClass ArgChecker.Use where
  processPath := ArgChecker.processPath
  process := rfl
  adds := ArgChecker.adds

variable {ι : Type} {N : ι → Type} [∀ i, DecidableEq (N i)] [∀ i, Fintype (N i)] {D : Database ι}
variable {G : ∀ i, ExplodedGraph (N i)} {ns : Xml.Namespaces} {resolver : String → Resolver}
variable {qualify : DatabaseFile → Option String → Option String} {fns : List DatabaseFile} {e : Explorer}

/-- **Return values, from graphs to reports.** A database is explored to its end,
in one process or by workers in any order, and the sites are reported whose
returns deviate from what most sites of the function assume of them. -/
theorem RetValChecker.explore_returns (id? : ℤ → Option String) {w : World Config (Context ℤ (List (ℤ × ℤ)) Code)}
    (hstored : D.Stored G ns resolver qualify w fns) (hfresh : Fresh .rvchk e w) :
    ∃ (S : Sites fun a => ∃ s, D.Leaves G qualify fns s ∧ RetValChecker.Use s a)
      (bugs : Option (List (BugReport ℤ (List (ℤ × ℤ)) Code))),
      (explore resolver (fun _ => retValClass id?) e w fns).2 = .ok (.ok bugs) ∧
        (∀ order, (∀ fn ∈ fns, fn ∈ order) →
          (exploreParallel resolver (fun _ => retValClass id?) e w fns order).2 = some (.ok bugs)) ∧
        Verdict bugs (S.Deviates w.conf) := by
  obtain ⟨ctxs, hadded, hexplore, hparallel⟩ := Database.contexts (fun _ => retValClass id?)
    (RetValChecker.adding id?) hstored hfresh
  obtain ⟨S, bugs, hbugs, hverdict⟩ := hadded.exists_deviant false (RetValChecker.ranks_rank id?)
  refine ⟨S, bugs, hexplore.trans (congrArg Except.ok hbugs), fun order horder => ?_, hverdict⟩
  exact (hparallel order horder).trans (congrArg some hbugs)

omit [StrHash] [SetOrder Code] in
/-- The return of the call is a site of `f`, with what is assumed of it. -/
theorem RetValChecker.explore_returns_usedWorld :
    let _ : StrHash := ⟨fun s => s.length⟩
    let _ : SetOrder Code := ⟨Finset.toList, fun _ _ => Finset.mem_toList, Finset.nodup_toList⟩
    ∃ (S : Sites fun a => ∃ s, usedDatabase.Leaves (fun _ => usedGraph) qualifyUsed [databaseFile] s ∧
        RetValChecker.Use s a) (bugs : Option (List (BugReport ℤ (List (ℤ × ℤ)) Code))),
      (explore (fun _ => containedResolver "a.c") (fun _ => retValClass fun _ => none) (.skipCache .rvchk)
        (usedWorld _) [databaseFile]).2 = .ok (.ok bugs) ∧ Verdict bugs (S.Deviates ⟨4 / 5⟩) ∧
        some "a.c:5" ∈ S.codes (Symbol.id "f").key [(0, 0)] := by
  intro _ _
  obtain ⟨S, bugs, hexplore, -, hverdict⟩ := RetValChecker.explore_returns (fun _ => none)
    (usedWorld_stored (Context ℤ (List (ℤ × ℤ)) Code)) (.inl rfl)
  have hreturns : Returns (.ret ⟨some (some "f(x, g(x))"), some (some "a.c:5")⟩) (.id "f")
      [.id "x", .call (.id "g") [.id "x"]] (some "a.c:5") := ⟨_, rfl, rfl⟩
  have hfirst : firstConstraint usedSequence (.call (.id "f") [.id "x", .call (.id "g") [.id "x"]]) =
      some [(0, 0)] := by decide +kernel
  have huse : RetValChecker.Use usedSequence ⟨(Symbol.id "f").key, some [(0, 0)], some "a.c:5"⟩ :=
    ⟨1, _, _, _, rfl, hreturns, rfl, fun h => (by cases hfirst.symm.trans h.1), hfirst⟩
  exact ⟨S, bugs, hexplore, hverdict, (S.mem_codes _ _ _).mpr ⟨_, ⟨_, usedDatabase_leaves, huse⟩, rfl, rfl, rfl⟩⟩

/-- **Locks, from graphs to reports.** The sites are reported whose calls deviate
from whether most sites of the function are reached with a lock. -/
theorem ThreadSafetyChecker.explore_locks {w : World Config (Context (Option String) Bool Code)}
    (hstored : D.Stored G ns resolver qualify w fns) (hfresh : Fresh .thread e w) :
    ∃ (S : Sites fun a => ∃ s, D.Leaves G qualify fns s ∧ ThreadSafetyChecker.Use s a)
      (bugs : Option (List (BugReport (Option String) Bool Code))),
      (explore resolver (fun _ => threadClass) e w fns).2 = .ok (.ok bugs) ∧
        (∀ order, (∀ fn ∈ fns, fn ∈ order) →
          (exploreParallel resolver (fun _ => threadClass) e w fns order).2 = some (.ok bugs)) ∧
        Verdict bugs (S.Deviates w.conf) := by
  obtain ⟨ctxs, hadded, hexplore, hparallel⟩ := Database.contexts (fun _ => threadClass)
    ThreadSafetyChecker.adding hstored hfresh
  obtain ⟨S, bugs, hbugs, hverdict⟩ := hadded.exists_deviant true ranks_sortedByScore
  refine ⟨S, bugs, hexplore.trans (congrArg Except.ok hbugs), fun order horder => ?_, hverdict⟩
  exact (hparallel order horder).trans (congrArg some hbugs)

omit [StrHash] [SetOrder Code] in
/-- The call is a site of `f`, without a lock. -/
theorem ThreadSafetyChecker.explore_locks_usedWorld :
    let _ : StrHash := ⟨fun s => s.length⟩
    let _ : SetOrder Code := ⟨Finset.toList, fun _ _ => Finset.mem_toList, Finset.nodup_toList⟩
    ∃ (S : Sites fun a => ∃ s, usedDatabase.Leaves (fun _ => usedGraph) qualifyUsed [databaseFile] s ∧
        ThreadSafetyChecker.Use s a) (bugs : Option (List (BugReport (Option String) Bool Code))),
      (explore (fun _ => containedResolver "a.c") (fun _ => threadClass) (.skipCache .thread) (usedWorld _)
        [databaseFile]).2 = .ok (.ok bugs) ∧ Verdict bugs (S.Deviates ⟨4 / 5⟩) ∧
        some "a.c:5" ∈ S.codes (some "f") false := by
  intro _ _
  obtain ⟨S, bugs, hexplore, -, hverdict⟩ := ThreadSafetyChecker.explore_locks
    (usedWorld_stored (Context (Option String) Bool Code)) (.inl rfl)
  have huse : ThreadSafetyChecker.Use usedSequence ⟨some "f", some false, some "a.c:5"⟩ :=
    ⟨[], _, usedSequence.tail, rfl, List.mem_singleton_self _⟩
  exact ⟨S, bugs, hexplore, hverdict, (S.mem_codes _ _ _).mpr ⟨_, ⟨_, usedDatabase_leaves, huse⟩, rfl, rfl, rfl⟩⟩

/-- **Arguments, from graphs to reports.** The sites are reported that pass
unrelated arguments where most sites of the function pass related ones. -/
theorem ArgChecker.explore_arguments {w : World Config (Context (ℤ × ℕ × ℕ) Bool Code)}
    (hstored : D.Stored G ns resolver qualify w fns) (hfresh : Fresh .args e w) :
    ∃ (S : Sites fun a => ∃ s, D.Leaves G qualify fns s ∧ ArgChecker.Use s a)
      (bugs : Option (List (BugReport (ℤ × ℕ × ℕ) Bool Code))),
      (explore resolver (fun _ => argsClass) e w fns).2 = .ok (.ok bugs) ∧
        (∀ order, (∀ fn ∈ fns, fn ∈ order) →
          (exploreParallel resolver (fun _ => argsClass) e w fns order).2 = some (.ok bugs)) ∧
        Verdict bugs (S.Unrelated w.conf) := by
  obtain ⟨ctxs, hadded, hexplore, hparallel⟩ := Database.contexts (fun _ => argsClass)
    ArgChecker.adding hstored hfresh
  obtain ⟨S, bugs, hbugs, hverdict⟩ := hadded.exists_unrelated
  refine ⟨S, bugs, hexplore.trans (congrArg Except.ok hbugs), fun order horder => ?_, hverdict⟩
  exact (hparallel order horder).trans (congrArg some hbugs)

omit [StrHash] [SetOrder Code] in
/-- The call passes related arguments: `x` is in both. -/
theorem ArgChecker.explore_arguments_usedWorld :
    let _ : StrHash := ⟨fun s => s.length⟩
    let _ : SetOrder Code := ⟨Finset.toList, fun _ _ => Finset.mem_toList, Finset.nodup_toList⟩
    ∃ (S : Sites fun a => ∃ s, usedDatabase.Leaves (fun _ => usedGraph) qualifyUsed [databaseFile] s ∧
        ArgChecker.Use s a) (bugs : Option (List (BugReport (ℤ × ℕ × ℕ) Bool Code))),
      (explore (fun _ => containedResolver "a.c") (fun _ => argsClass) (.skipCache .args) (usedWorld _)
        [databaseFile]).2 = .ok (.ok bugs) ∧ Verdict bugs (S.Unrelated ⟨4 / 5⟩) ∧
        some "a.c:5" ∈ S.codes ((Symbol.id "f").key, 0, 1) true := by
  intro _ _
  obtain ⟨S, bugs, hexplore, -, hverdict⟩ := ArgChecker.explore_arguments
    (usedWorld_stored (Context (ℤ × ℕ × ℕ) Bool Code)) (.inl rfl)
  have hcalls : ArgChecker.Calls (.call ⟨some (some "f(x, g(x))"), some (some "a.c:5")⟩) (.id "f")
      [.id "x", .call (.id "g") [.id "x"]] (some "a.c:5") := ⟨_, rfl, rfl⟩
  have hrelated : ArgChecker.Related (.id "x") (.call (.id "g") [.id "x"]) := by
    refine ⟨⟨_, _, .inr rfl⟩, "x", "x", .refl _, ?_, rfl⟩
    exact .child (List.mem_singleton_self _) (.refl _)
  have huse : ArgChecker.Use usedSequence ⟨((Symbol.id "f").key, 0, 1), some true, some "a.c:5"⟩ :=
    ⟨_, List.mem_cons_self, _, _, hcalls, 0, 1, _, _, true, Nat.zero_lt_one, rfl, rfl, rfl, rfl,
      iff_of_true rfl hrelated⟩
  exact ⟨S, bugs, hexplore, hverdict, (S.mem_codes _ _ _).mpr ⟨_, ⟨_, usedDatabase_leaves, huse⟩, rfl, rfl, rfl⟩⟩

end

end Apisan
