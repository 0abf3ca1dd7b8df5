/-
# The causality checker

What `causality.py` counts. For every call of a path it notes the names called
later; within a tree the notes of one call site are intersected, and the
contexts of trees are merged like those of all checkers, which unites them.
So a site counts as followed by `g` as soon as all its occurrences in one tree
are, whatever the other trees hold (`run_spec`); it counts as it would if
all paths were one tree exactly where the trees that have the site agree
(`counts_iff_agree`).

Key definitions: `CausalityChecker.process`, `CausalityChecker.run`,
`Occurrence`, `FollowedBy`, `Agree`.
Key theorems: `CausalityChecker.process_spec`, `CausalityChecker.run_spec`,
`CausalityChecker.counts_iff_agree`.
-/
import Apisan.Check.Sites
import Apisan.Check.Checkers

namespace Apisan

open Python

variable [StrHash]

namespace CausalityChecker

/-- The keys of the context: the name of the called function, and the
constraints on the result. -/
abbrev Key := ℤ × Option (List (ℤ × ℤ))

/-- What `add_or_intersect` is called with: an entry, and the names called
later. -/
abbrev Found := (Key × Code) × Finset ℤ

/-- The call of an event, for a call event with a text. A call that does not
parse has no `name`. -/
def callOf (event : Event) : Except Error (Option (CallAttributes × Symbol × List Symbol)) := do
  match ← isCall event with
  | none => .ok none
  | some a =>
    let call ← a.call
    let call ← getAttribute call
    .ok (some (a, call))

/-- The inner loop: the names other than `name` that the events call. -/
def calls (name : ℤ) : List Event → Except Error (Finset ℤ)
  | [] => .ok ∅
  | event :: events => do
    let call ← callOf event
    let later ← calls name events
    match call with
    | none => .ok later
    | some (_, g, _) => .ok (if g.key ≠ name then insert g.key later else later)

/-- The outer loop. -/
def findCalls (cmgr : Option ConstraintMgr) : List Event → Except Error (List Found)
  | [] => .ok []
  | event :: events => do
    match ← callOf event with
    | none => findCalls cmgr events
    | some (a, name, args) =>
      let code ← getAttribute a.code
      let constraint ← getConstraint cmgr (.call name args)
      let later ← calls name.key events
      let found ← findCalls cmgr events
      .ok ((((name.key, constraint), code), later) :: found)

/-- `CausalityContext.add_or_intersect`, on the entries. -/
def addOrIntersect (entries : Dict (Key × Code) (Finset ℤ)) (x : Found) : Dict (Key × Code) (Finset ℤ) :=
  match entries.get? x.1 with
  | some values => entries.set x.1 (values ∩ x.2)
  | none => entries.set x.1 x.2

/-- `_process_path`, on the entries. -/
def processPath (entries : Dict (Key × Code) (Finset ℤ)) (path : Path) :
    Except Error (Dict (Key × Code) (Finset ℤ)) := do
  let found ← findCalls path.cmgr path.events
  .ok (found.foldl addOrIntersect entries)

section

variable [SetOrder ℤ]

/-- The adds of `CausalityContext.add_all`. -/
def allAdds (entries : Dict (Key × Code) (Finset ℤ)) : List (Add Key ℤ Code) :=
  entries.entries.flatMap fun x =>
    (SetOrder.list x.2).map (fun value => ⟨x.1.1, some value, x.1.2⟩) ++ [⟨x.1.1, none, x.1.2⟩]

/-- `process` of the checker. -/
def process (config : Config) (tree : List Path) : Except Error (Context Key ℤ Code) := do
  let entries ← tree.foldlM processPath .empty
  .ok ((Context.new config).addAll (allAdds entries))

/-- The contexts of the trees, merged; there may be no tree. -/
def run (config : Config) (trees : List (List Path)) : Except Error (Option (Context Key ℤ Code)) := do
  let ctxs ← gather (fun tree => do
    let ctx ← process config tree
    .ok [ctx]) trees
  .ok (Context.mergeAll ctxs)

end

/-! ### Occurrences -/

/-- Every call with a text parses and has a location, and there are
constraints to look it up in. -/
def Readable (path : Path) : Prop :=
  ∀ event ∈ path.events, ∃ call, callOf event = .ok call ∧
    ∀ x, call = some x → x.1.code ≠ none ∧ path.cmgr ≠ none

/-- The site `code` of a key stands on the path, with `later` after it. -/
def Occurrence (path : Path) (key : Key) (code : Code) (later : List Event) : Prop :=
  ∃ earlier event a name args, path.events = earlier ++ event :: later ∧
    callOf event = .ok (some (a, name, args)) ∧ a.code = some code ∧
    ∃ cmgr, path.cmgr = some cmgr ∧ key = (name.key, cmgr.get (.call name args))

/-- A call of `g`, other than `f`, is among the events. -/
def FollowedBy (f g : ℤ) (events : List Event) : Prop :=
  g ≠ f ∧ ∃ event ∈ events, ∃ a name args, callOf event = .ok (some (a, name, args)) ∧ name.key = g

/-- Every occurrence of a site in the tree is followed by `g`. -/
def AllFollowed (tree : List Path) (key : Key) (code : Code) (g : ℤ) : Prop :=
  ∀ path ∈ tree, ∀ later, Occurrence path key code later → FollowedBy key.1 g later

/-- The tree has the site. -/
def Occurs (tree : List Path) (key : Key) (code : Code) : Prop :=
  ∃ path ∈ tree, ∃ later, Occurrence path key code later

/-- Of the trees that have a site, either all or none have it followed by `g`
throughout. -/
def Agree (trees : List (List Path)) : Prop :=
  ∀ key code g, ∀ t ∈ trees, ∀ t' ∈ trees, Occurs t key code → Occurs t' key code →
    AllFollowed t key code g → AllFollowed t' key code g

/-! ### A path -/

theorem calls_ok (name : ℤ) : ∀ {events : List Event}, (∀ event ∈ events, ∃ call, callOf event = .ok call) →
    ∃ later, calls name events = .ok later
  | [], _ => ⟨∅, rfl⟩
  | event :: events, h => by
    rw [List.forall_mem_cons] at h
    obtain ⟨⟨call, hcall⟩, hrest⟩ := h
    obtain ⟨later, hlater⟩ := calls_ok name hrest
    rw [calls, hcall, ok_bind, hlater, ok_bind]
    cases call with
    | none => exact ⟨later, rfl⟩
    | some x => exact ⟨_, rfl⟩

theorem mem_calls {name g : ℤ} : ∀ {events : List Event} {later : Finset ℤ},
    calls name events = .ok later → (g ∈ later ↔ FollowedBy name g events)
  | [], later, h => by
    cases h
    simp [FollowedBy]
  | event :: events, later, h => by
    obtain ⟨call, hcall, h⟩ := bind_eq_ok.mp h
    obtain ⟨rest, hrest, h⟩ := bind_eq_ok.mp h
    have ih := mem_calls (g := g) hrest
    cases call with
    | none =>
      cases h
      rw [ih]
      simp [FollowedBy, hcall]
    | some x =>
      obtain ⟨a, f, args⟩ := x
      cases h
      have hhead : FollowedBy name g (event :: events) ↔
          (g ≠ name ∧ f.key = g) ∨ FollowedBy name g events := by
        simp only [FollowedBy, List.exists_mem_cons_iff, ← and_or_left]
        refine and_congr_right fun _ => or_congr_left ?_
        simp [hcall]
      rw [hhead, ← ih]
      by_cases hf : f.key = name
      · rw [if_neg (not_not.mpr hf), hf]
        refine (or_iff_right fun hc => hc.1 hc.2.symm).symm
      · rw [if_pos hf, Finset.mem_insert, eq_comm (a := g)]
        refine or_congr_left ⟨fun hg => ⟨hg ▸ hf, hg⟩, fun hc => hc.2⟩

theorem occurrence_cons {event : Event} {events : List Event} {cmgr : Option ConstraintMgr} {key : Key}
    {code : Code} {later : List Event} : Occurrence ⟨event :: events, cmgr⟩ key code later ↔
      (later = events ∧ ∃ a name args, callOf event = .ok (some (a, name, args)) ∧ a.code = some code ∧
        ∃ m, cmgr = some m ∧ key = (name.key, m.get (.call name args))) ∨
      Occurrence ⟨events, cmgr⟩ key code later := by
  constructor
  · rintro ⟨earlier, e, a, name, args, heq, hcall⟩
    cases earlier with
    | nil =>
      obtain ⟨rfl, rfl⟩ := List.cons.inj heq
      exact .inl ⟨rfl, a, name, args, hcall⟩
    | cons e' earlier =>
      obtain ⟨rfl, htail⟩ := List.cons.inj heq
      exact .inr ⟨earlier, e, a, name, args, htail, hcall⟩
  · rintro (⟨rfl, a, name, args, hcall⟩ | ⟨earlier, e, a, name, args, heq, hcall⟩)
    · exact ⟨[], event, a, name, args, rfl, hcall⟩
    · exact ⟨event :: earlier, e, a, name, args, congrArg (event :: ·) heq, hcall⟩

omit [StrHash] in
theorem Readable.callOf_ok {path : Path} (h : Readable path) :
    ∀ event ∈ path.events, ∃ call, callOf event = .ok call := fun event he => by
  obtain ⟨call, hcall, -⟩ := h event he
  exact ⟨call, hcall⟩

/-- **What is found on a path**: its occurrences of sites, each with the names
called after it. -/
theorem findCalls_ok (cmgr : Option ConstraintMgr) : ∀ {events : List Event}, Readable ⟨events, cmgr⟩ →
    ∃ found, findCalls cmgr events = .ok found ∧ ∀ key code later, ((key, code), later) ∈ found ↔
      ∃ rest, Occurrence ⟨events, cmgr⟩ key code rest ∧ calls key.1 rest = .ok later
  | [], _ => by
    refine ⟨[], rfl, fun key code later => ?_⟩
    constructor
    · intro hmem
      cases hmem
    · rintro ⟨rest, ⟨earlier, e, a, name, args, heq, -⟩, -⟩
      exact absurd heq (by simp)
  | event :: events, h => by
    have hevents : Readable ⟨events, cmgr⟩ := fun e he => h e (List.mem_cons_of_mem _ he)
    obtain ⟨found, hfound, hmem⟩ := findCalls_ok cmgr hevents
    obtain ⟨call, hcall, hread⟩ := h event List.mem_cons_self
    rw [findCalls, hcall, ok_bind]
    cases call with
    | none =>
      refine ⟨found, hfound, fun key code later => ?_⟩
      rw [hmem]
      refine exists_congr fun rest => and_congr_left fun _ => ?_
      rw [occurrence_cons, hcall]
      simp
    | some x =>
      obtain ⟨a, name, args⟩ := x
      obtain ⟨hcode, hcmgr⟩ := hread _ rfl
      obtain ⟨code, hcode⟩ : ∃ code, a.code = some code := Option.ne_none_iff_exists'.mp hcode
      obtain ⟨m, hm⟩ : ∃ m, cmgr = some m := Option.ne_none_iff_exists'.mp hcmgr
      obtain ⟨later, hlater⟩ := calls_ok name.key hevents.callOf_ok
      refine ⟨(((name.key, m.get (.call name args)), code), later) :: found, ?_, fun key code' later' => ?_⟩
      · rw [hm] at hfound ⊢
        simp only [hcode, getAttribute, getConstraint, ok_bind, hlater, hfound]
      · rw [List.mem_cons, hmem]
        simp only [occurrence_cons, or_and_right, exists_or]
        refine or_congr_left ⟨fun heq => ?_, ?_⟩
        · cases heq
          exact ⟨events, ⟨rfl, a, name, args, hcall, hcode, m, hm, rfl⟩, hlater⟩
        · rintro ⟨rest, ⟨rfl, a', name', args', hcall', hcode', m', hm', rfl⟩, hrest⟩
          rw [hcall] at hcall'
          cases hcall'
          rw [hcode] at hcode'
          cases hcode'
          rw [hm] at hm'
          cases hm'
          rw [hlater] at hrest
          cases hrest
          rfl

theorem readable_of_findCalls {cmgr : Option ConstraintMgr} : ∀ {events : List Event} {found : List Found},
    findCalls cmgr events = .ok found → Readable ⟨events, cmgr⟩
  | [], _, _ => by simp [Readable]
  | event :: events, found, h => by
    obtain ⟨call, hcall, h⟩ := bind_eq_ok.mp h
    refine List.forall_mem_cons.mpr ⟨⟨call, hcall, fun x hx => ?_⟩, ?_⟩
    · subst hx
      obtain ⟨a, name, args⟩ := x
      obtain ⟨code, hcode, h⟩ := bind_eq_ok.mp h
      obtain ⟨constraint, hconstraint, -⟩ := bind_eq_ok.mp h
      constructor
      · intro hnone
        have hnone : a.code = none := hnone
        rw [hnone] at hcode
        cases hcode
      · intro hnone
        have hnone : cmgr = none := hnone
        rw [hnone] at hconstraint
        cases hconstraint
    · cases call with
      | none => exact readable_of_findCalls h
      | some x =>
        obtain ⟨a, name, args⟩ := x
        obtain ⟨code, -, h⟩ := bind_eq_ok.mp h
        obtain ⟨constraint, -, h⟩ := bind_eq_ok.mp h
        obtain ⟨later, -, h⟩ := bind_eq_ok.mp h
        obtain ⟨found', hfound, -⟩ := bind_eq_ok.mp h
        exact readable_of_findCalls hfound

/-! ### A tree -/

omit [StrHash] in
/-- What `add_or_intersect` makes of a list: an entry has what its old value and
all its new ones share. -/
theorem foldl_addOrIntersect {e : Key × Code} : ∀ (found : List Found)
      (entries : Dict (Key × Code) (Finset ℤ)),
    ((∃ s, (found.foldl addOrIntersect entries).get? e = some s) ↔
      (∃ s, entries.get? e = some s) ∨ ∃ x ∈ found, x.1 = e) ∧
    ∀ s, (found.foldl addOrIntersect entries).get? e = some s → ∀ g, g ∈ s ↔
      (∀ t, entries.get? e = some t → g ∈ t) ∧ ∀ x ∈ found, x.1 = e → g ∈ x.2
  | [], entries => by
    refine ⟨by simp, fun s hs g => ?_⟩
    have hs : entries.get? e = some s := hs
    simp [hs]
  | x :: found, entries => by
    obtain ⟨hsome, hmem⟩ := foldl_addOrIntersect (e := e) found (addOrIntersect entries x)
    have hget : (addOrIntersect entries x).get? e =
        if e = x.1 then some (match entries.get? x.1 with | some t => t ∩ x.2 | none => x.2)
        else entries.get? e := by
      rw [addOrIntersect]
      cases entries.get? x.1 with
      | some t => exact Dict.get?_set _ _ _ _
      | none => exact Dict.get?_set _ _ _ _
    rw [List.foldl_cons]
    refine ⟨?_, fun s hs g => ?_⟩
    · rw [hsome, hget, List.exists_mem_cons_iff]
      by_cases he : e = x.1
      · simp [he]
      · simp [he, Ne.symm he]
    · rw [hmem s hs, hget, List.forall_mem_cons, ← and_assoc]
      refine and_congr_left fun _ => ?_
      by_cases he : e = x.1
      · subst he
        cases entries.get? x.1 with
        | some t => simp
        | none => simp
      · simp [he, Ne.symm he]

/-- The entries of the context hold a site of the tree with the names that
follow all its occurrences. -/
def Meets (tree : List Path) (entries : Dict (Key × Code) (Finset ℤ)) : Prop :=
  ∀ key code, ((∃ s, entries.get? (key, code) = some s) ↔ Occurs tree key code) ∧
    ∀ s, entries.get? (key, code) = some s → ∀ g, g ∈ s ↔ AllFollowed tree key code g

theorem meets_empty : Meets [] .empty := fun key code => by simp [Occurs]

/-- A path keeps what the entries hold. -/
theorem processPath_ok {tree : List Path} {entries : Dict (Key × Code) (Finset ℤ)} {path : Path}
    (hpath : Readable path) (h : Meets tree entries) :
    ∃ entries', processPath entries path = .ok entries' ∧ Meets (tree ++ [path]) entries' := by
  obtain ⟨found, hfound, hmem⟩ := findCalls_ok path.cmgr hpath
  refine ⟨_, by rw [processPath, hfound, ok_bind], fun key code => ?_⟩
  obtain ⟨hsome, hvalue⟩ := foldl_addOrIntersect (e := (key, code)) found entries
  obtain ⟨hoccurs, hall⟩ := h key code
  -- the occurrences on the path, as found
  have hlater : ∀ rest, Occurrence path key code rest → ∃ later, calls key.1 rest = .ok later := by
    rintro rest ⟨earlier, e, a, name, args, heq, -⟩
    exact calls_ok _ fun event he => hpath.callOf_ok event (by rw [heq]; simp [he])
  constructor
  · rw [hsome, hoccurs]
    simp only [Occurs, List.mem_append, or_and_right, exists_or]
    refine or_congr_right ⟨?_, ?_⟩
    · rintro ⟨⟨e, later⟩, hx, rfl⟩
      obtain ⟨rest, hrest, -⟩ := (hmem key code later).mp hx
      exact ⟨path, List.mem_singleton_self _, rest, hrest⟩
    · rintro ⟨p, hp, rest, hrest⟩
      rw [List.mem_singleton.mp hp] at hrest
      obtain ⟨later, hl⟩ := hlater rest hrest
      exact ⟨_, (hmem key code later).mpr ⟨rest, hrest, hl⟩, rfl⟩
  · intro s hs g
    rw [hvalue s hs, AllFollowed, List.forall_mem_append, List.forall_mem_singleton]
    refine and_congr ⟨fun hg => ?_, fun hg t ht => ?_⟩ ⟨fun hg rest hrest => ?_, ?_⟩
    · intro p hp rest hrest
      obtain ⟨t, ht⟩ := hoccurs.mpr ⟨p, hp, rest, hrest⟩
      exact (hall t ht g).mp (hg t ht) p hp rest hrest
    · exact (hall t ht g).mpr hg
    · obtain ⟨later, hl⟩ := hlater rest hrest
      exact (mem_calls hl).mp (hg _ ((hmem key code later).mpr ⟨rest, hrest, hl⟩) rfl)
    · rintro hg ⟨e, later⟩ hx rfl
      obtain ⟨rest, hrest, hl⟩ := (hmem key code later).mp hx
      exact (mem_calls hl).mpr (hg rest hrest)

theorem readable_of_processPath {entries entries' : Dict (Key × Code) (Finset ℤ)} {path : Path}
    (h : processPath entries path = .ok entries') : Readable path := by
  obtain ⟨found, hfound, -⟩ := bind_eq_ok.mp h
  exact readable_of_findCalls hfound

theorem foldlM_processPath : ∀ {paths tree : List Path} {entries : Dict (Key × Code) (Finset ℤ)},
    (∀ path ∈ paths, Readable path) → Meets tree entries →
    ∃ entries', paths.foldlM processPath entries = .ok entries' ∧ Meets (tree ++ paths) entries'
  | [], tree, entries, _, h => ⟨entries, rfl, by rwa [List.append_nil]⟩
  | path :: paths, tree, entries, hread, h => by
    rw [List.forall_mem_cons] at hread
    obtain ⟨entries₁, hstep, hmeets⟩ := processPath_ok hread.1 h
    obtain ⟨entries₂, hrun, hmeets'⟩ := foldlM_processPath hread.2 hmeets
    rw [List.append_assoc, List.singleton_append] at hmeets'
    exact ⟨entries₂, by rw [List.foldlM_cons, hstep, ok_bind, hrun], hmeets'⟩

theorem readable_of_foldlM : ∀ {paths : List Path} {entries entries' : Dict (Key × Code) (Finset ℤ)},
    paths.foldlM processPath entries = .ok entries' → ∀ path ∈ paths, Readable path
  | [], _, _, _ => by simp
  | path :: paths, entries, entries', h => by
    rw [List.foldlM_cons] at h
    obtain ⟨entries₁, hstep, h⟩ := bind_eq_ok.mp h
    exact List.forall_mem_cons.mpr ⟨readable_of_processPath hstep, readable_of_foldlM h⟩

section

variable [SetOrder ℤ]

omit [StrHash] in
theorem mem_allAdds {entries : Dict (Key × Code) (Finset ℤ)} {a : Add Key ℤ Code} :
    a ∈ allAdds entries ↔ ∃ s, entries.get? (a.key, a.code) = some s ∧
      (a.value = none ∨ ∃ g ∈ s, a.value = some g) := by
  rw [allAdds, List.mem_flatMap]
  constructor
  · rintro ⟨⟨⟨key, code⟩, s⟩, hx, ha⟩
    have hget := Dict.mem_entries.mp hx
    rcases List.mem_append.mp ha with ha | ha
    · obtain ⟨g, hg, rfl⟩ := List.mem_map.mp ha
      exact ⟨s, hget, .inr ⟨g, (SetOrder.mem_list _ _).mp hg, rfl⟩⟩
    · rw [List.mem_singleton.mp ha]
      exact ⟨s, hget, .inl rfl⟩
  · obtain ⟨key, value, code⟩ := a
    rintro ⟨s, hget, hvalue⟩
    refine ⟨((key, code), s), Dict.mem_entries.mpr hget, List.mem_append.mpr ?_⟩
    rcases hvalue with hnone | ⟨g, hg, hsome⟩
    · have hnone : value = none := hnone
      exact .inr (by rw [hnone]; exact List.mem_singleton_self _)
    · have hsome : value = some g := hsome
      refine .inl (List.mem_map.mpr ⟨g, (SetOrder.mem_list _ _).mpr hg, by rw [hsome]⟩)

/-- **What the context of a tree counts**: the sites of the tree, and each with
the names that follow all its occurrences in the tree. -/
theorem process_spec (config : Config) (tree : List Path) :
    ((∃ c, process config tree = .ok c) ↔ ∀ path ∈ tree, Readable path) ∧
      ∀ c, process config tree = .ok c → ∀ key code,
        (code ∈ c.total key ↔ Occurs tree key code) ∧
          ∀ g, code ∈ c.codes key g ↔ Occurs tree key code ∧ AllFollowed tree key code g := by
  refine ⟨⟨?_, fun hread => ?_⟩, fun c hc key code => ?_⟩
  · rintro ⟨c, hc⟩
    obtain ⟨entries, hentries, -⟩ := bind_eq_ok.mp hc
    exact readable_of_foldlM hentries
  · obtain ⟨entries, hrun, -⟩ := foldlM_processPath hread meets_empty
    exact ⟨_, by rw [process, hrun, ok_bind]⟩
  · obtain ⟨entries, hentries, hc⟩ := bind_eq_ok.mp hc
    cases hc
    obtain ⟨entries', hrun, hmeets⟩ := foldlM_processPath (readable_of_foldlM hentries) meets_empty
    rw [hentries] at hrun
    cases hrun
    rw [List.nil_append] at hmeets
    obtain ⟨hoccurs, hall⟩ := hmeets key code
    constructor
    · rw [Context.mem_total_addAll, Context.total_new, ← hoccurs]
      constructor
      · rintro (h | ⟨a, ha, rfl, rfl⟩)
        · cases h
        · obtain ⟨s, hs, -⟩ := mem_allAdds.mp ha
          exact ⟨s, hs⟩
      · rintro ⟨s, hs⟩
        exact .inr ⟨⟨key, none, code⟩, mem_allAdds.mpr ⟨s, hs, .inl rfl⟩, rfl, rfl⟩
    · intro g
      rw [Context.mem_codes_addAll, Context.codes_new, ← hoccurs]
      constructor
      · rintro (h | ⟨a, ha, rfl, hg, rfl⟩)
        · cases h
        · obtain ⟨s, hs, hvalue⟩ := mem_allAdds.mp ha
          refine ⟨⟨s, hs⟩, (hall s hs g).mp ?_⟩
          rcases hvalue with hnone | ⟨g', hg', hsome⟩
          · rw [hg] at hnone
            cases hnone
          · rw [hg] at hsome
            cases hsome
            exact hg'
      · rintro ⟨⟨s, hs⟩, hg⟩
        exact .inr ⟨⟨key, some g, code⟩,
          mem_allAdds.mpr ⟨s, hs, .inr ⟨g, (hall s hs g).mpr hg, rfl⟩⟩, rfl, rfl, rfl⟩

/-! ### Trees -/

/-- **What the merged context counts.** A site counts as followed by `g` if
all its occurrences in some tree are. -/
theorem run_spec (config : Config) (trees : List (List Path)) :
    ((∃ c, run config trees = .ok c) ↔ ∀ tree ∈ trees, ∀ path ∈ tree, Readable path) ∧
      ∀ c, run config trees = .ok c → ∀ key code,
        ((∃ ctx, c = some ctx ∧ code ∈ ctx.total key) ↔ ∃ tree ∈ trees, Occurs tree key code) ∧
          ∀ g, (∃ ctx, c = some ctx ∧ code ∈ ctx.codes key g) ↔
            ∃ tree ∈ trees, Occurs tree key code ∧ AllFollowed tree key code g := by
  refine ⟨⟨?_, fun hread => ?_⟩, fun c hc key code => ?_⟩
  · rintro ⟨c, hc⟩ tree htree
    obtain ⟨ctxs, hctxs, -⟩ := bind_eq_ok.mp hc
    obtain ⟨l, hl⟩ := of_gather_ok hctxs tree htree
    obtain ⟨ctx, hctx, -⟩ := bind_eq_ok.mp hl
    exact (process_spec config tree).1.mp ⟨ctx, hctx⟩
  · have hbody : ∀ tree ∈ trees, ∃ l, (do
        let ctx ← process config tree
        Except.ok [ctx]) = Except.ok l := fun tree htree => by
      obtain ⟨ctx, hctx⟩ := (process_spec config tree).1.mpr (hread tree htree)
      exact ⟨[ctx], by rw [hctx, ok_bind]⟩
    obtain ⟨ctxs, hctxs⟩ := gather_ok hbody
    exact ⟨_, by rw [run, hctxs, ok_bind]⟩
  · obtain ⟨ctxs, hctxs, hc⟩ := bind_eq_ok.mp hc
    cases hc
    have hmem : ∀ ctx, ctx ∈ ctxs ↔ ∃ tree ∈ trees, process config tree = .ok ctx := fun ctx => by
      rw [mem_gather hctxs]
      refine exists_congr fun tree => and_congr_right fun _ => ⟨?_, fun hctx => ?_⟩
      · rintro ⟨l, hl, hmem⟩
        obtain ⟨ctx', hctx, hl⟩ := bind_eq_ok.mp hl
        cases hl
        rw [List.mem_singleton.mp hmem]
        exact hctx
      · exact ⟨[ctx], by rw [hctx, ok_bind], List.mem_singleton_self _⟩
    have htrees : ∀ tree ∈ trees, ∃ ctx ∈ ctxs, process config tree = .ok ctx := fun tree htree => by
      obtain ⟨l, hl⟩ := of_gather_ok hctxs tree htree
      obtain ⟨ctx, hctx, -⟩ := bind_eq_ok.mp hl
      exact ⟨ctx, (hmem ctx).mpr ⟨tree, htree, hctx⟩, hctx⟩
    -- what the merge has, some context has
    have htotal : (∃ ctx, Context.mergeAll ctxs = some ctx ∧ code ∈ ctx.total key) ↔
        ∃ ctx ∈ ctxs, code ∈ ctx.total key := by
      cases ctxs with
      | nil => simp [Context.mergeAll]
      | cons d ds => simp only [Context.mergeAll, Option.some.injEq, exists_eq_left',
          Context.mem_total_foldl_merge]
    have hcodes : ∀ g, (∃ ctx, Context.mergeAll ctxs = some ctx ∧ code ∈ ctx.codes key g) ↔
        ∃ ctx ∈ ctxs, code ∈ ctx.codes key g := fun g => by
      cases ctxs with
      | nil => simp [Context.mergeAll]
      | cons d ds => simp only [Context.mergeAll, Option.some.injEq, exists_eq_left',
          Context.mem_codes_foldl_merge]
    constructor
    · rw [htotal]
      constructor
      · rintro ⟨ctx, hctx, hcode⟩
        obtain ⟨tree, htree, hproc⟩ := (hmem ctx).mp hctx
        exact ⟨tree, htree, (((process_spec config tree).2 ctx hproc key code).1).mp hcode⟩
      · rintro ⟨tree, htree, hoccurs⟩
        obtain ⟨ctx, hctx, hproc⟩ := htrees tree htree
        exact ⟨ctx, hctx, (((process_spec config tree).2 ctx hproc key code).1).mpr hoccurs⟩
    · intro g
      rw [hcodes]
      constructor
      · rintro ⟨ctx, hctx, hcode⟩
        obtain ⟨tree, htree, hproc⟩ := (hmem ctx).mp hctx
        exact ⟨tree, htree, (((process_spec config tree).2 ctx hproc key code).2 g).mp hcode⟩
      · rintro ⟨tree, htree, hfollowed⟩
        obtain ⟨ctx, hctx, hproc⟩ := htrees tree htree
        exact ⟨ctx, hctx, (((process_spec config tree).2 ctx hproc key code).2 g).mpr hfollowed⟩

/-- The run returns, and its context counts the sites of all trees, each as
followed by what follows all its occurrences in all trees. -/
def CountsSites (config : Config) (trees : List (List Path)) : Prop :=
  ∃ c, run config trees = .ok c ∧ ∀ key code,
    ((∃ ctx, c = some ctx ∧ code ∈ ctx.total key) ↔ ∃ tree ∈ trees, Occurs tree key code) ∧
      ∀ g, (∃ ctx, c = some ctx ∧ code ∈ ctx.codes key g) ↔
        (∃ tree ∈ trees, Occurs tree key code) ∧ ∀ tree ∈ trees, AllFollowed tree key code g

/-- **When the grouping of paths does not matter**: every path can be read, and
the trees that have a site agree on what follows all its occurrences. -/
theorem counts_iff_agree (config : Config) (trees : List (List Path)) :
    CountsSites config trees ↔ (∀ tree ∈ trees, ∀ path ∈ tree, Readable path) ∧ Agree trees := by
  obtain ⟨hreturns, hspec⟩ := run_spec config trees
  constructor
  · rintro ⟨c, hc, hcounts⟩
    refine ⟨hreturns.mp ⟨c, hc⟩, fun key code g t ht t' ht' hoccurs _ hfollowed => ?_⟩
    have hcounted := ((hspec c hc key code).2 g).mpr ⟨t, ht, hoccurs, hfollowed⟩
    exact (((hcounts key code).2 g).mp hcounted).2 t' ht'
  · rintro ⟨hread, hagree⟩
    obtain ⟨c, hc⟩ := hreturns.mpr hread
    refine ⟨c, hc, fun key code => ⟨(hspec c hc key code).1, fun g => ?_⟩⟩
    rw [(hspec c hc key code).2 g]
    constructor
    · rintro ⟨t, ht, hoccurs, hfollowed⟩
      refine ⟨⟨t, ht, hoccurs⟩, fun t' ht' path hpath later hlater => ?_⟩
      exact hagree key code g t ht t' ht' hoccurs ⟨path, hpath, later, hlater⟩ hfollowed path hpath
        later hlater
    · rintro ⟨⟨t, ht, hoccurs⟩, hall⟩
      exact ⟨t, ht, hoccurs, hall t ht⟩

omit [StrHash] [SetOrder ℤ]

/-- A call at a place, with nothing known of its result. -/
def callAt (text code : String) : Event := .call ⟨some (some text), some (some code)⟩

/-- A path that frees what it allocated. -/
def freed : Path := ⟨[callAt "malloc(n)" "a.c:1", callAt "free(p)" "a.c:2", .eop], some .empty⟩

/-- A path with the same allocation, in another tree, that does not. -/
def leaked : Path := ⟨[callAt "malloc(n)" "a.c:1", .eop], some .empty⟩

/-- The allocation counts as freed although one path leaks it. -/
theorem leak_hidden :
    let _ : StrHash := ⟨fun s => s.length⟩
    let _ : SetOrder ℤ := ⟨Finset.toList, fun _ _ => Finset.mem_toList, Finset.nodup_toList⟩
    (∀ tree ∈ [[freed], [leaked]], ∀ path ∈ tree, Readable path) ∧
      ¬ CountsSites ⟨4 / 5⟩ [[freed], [leaked]] := by
  intro _ _
  have hmalloc : callOf (callAt "malloc(n)" "a.c:1") =
      .ok (some (⟨some (some "malloc(n)"), some (some "a.c:1")⟩, .id "malloc", [.id "n"])) := rfl
  have hfree : callOf (callAt "free(p)" "a.c:2") =
      .ok (some (⟨some (some "free(p)"), some (some "a.c:2")⟩, .id "free", [.id "p"])) := rfl
  have heop : callOf .eop = .ok none := rfl
  have hread : ∀ tree ∈ [[freed], [leaked]], ∀ path ∈ tree, Readable path := by
    simp [Readable, freed, leaked, hmalloc, hfree, heop]
  refine ⟨hread, ?_⟩
  rintro ⟨c, hc, hcounts⟩
  have hoccurs : Occurs [freed] (6, none) (some "a.c:1") :=
    ⟨freed, List.mem_singleton_self _, _, [], _, _, _, _, rfl, hmalloc, rfl, _, rfl, rfl⟩
  have hfollowed : AllFollowed [freed] (6, none) (some "a.c:1") 4 := by
    intro path hpath later hlater
    rw [List.mem_singleton.mp hpath] at hlater
    rcases occurrence_cons.mp hlater with ⟨rfl, -⟩ | hlater
    · exact ⟨by decide, _, List.mem_cons_self, _, _, _, hfree, rfl⟩
    -- the other events are no such site
    rcases occurrence_cons.mp hlater with ⟨-, a, name, args, hcall, hcode, -⟩ | hlater
    · rw [hfree] at hcall
      cases hcall
      exact absurd hcode (by decide)
    rcases occurrence_cons.mp hlater with ⟨-, a, name, args, hcall, -⟩ | ⟨earlier, e, a, name, args, heq, -⟩
    · cases hcall
    · exact absurd heq (by simp)
  have hcounted := (((run_spec ⟨4 / 5⟩ [[freed], [leaked]]).2 c hc (6, none) (some "a.c:1")).2 4).mpr
    ⟨[freed], List.mem_cons_self, hoccurs, hfollowed⟩
  obtain ⟨-, hall⟩ := ((hcounts (6, none) (some "a.c:1")).2 4).mp hcounted
  have hleaked : Occurrence leaked (6, none) (some "a.c:1") [.eop] :=
    ⟨[], _, _, _, _, rfl, hmalloc, rfl, _, rfl, rfl⟩
  obtain ⟨-, event, hevent, a, name, args, hcall, -⟩ :=
    hall [leaked] (by simp) leaked (List.mem_singleton_self _) [.eop] hleaked
  rw [List.mem_singleton.mp hevent] at hcall
  cases hcall

end

end CausalityChecker

end Apisan
