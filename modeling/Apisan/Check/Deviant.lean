/-
# Reports of the checkers of return values and locks

`get_bugs` of `retval.py` and `thread.py`. For a key it goes through the values
in the order of their dictionary, takes the locations of each common value off
`diff`, and gives what is left the score of that value. The reports show the
last score that was given, and the value that the loop variable `ctx` is left
with: the last of all, whether common or not.

Key definitions: `Deviant.keyBugs`, `RetValChecker.merge`,
`ThreadSafetyChecker.merge`, `reported`.
Key theorems: `Deviant.foldlM_turn`, `Deviant.mem_keyBugs`,
`Deviant.mem_reported`.
-/
import Mathlib.Data.List.Sort
import Apisan.Check.Sites

namespace Apisan

open Python FirstSeen

/-- `d[key]` of a plain dictionary. -/
def subscript {K V : Type} [DecidableEq K] (d : Dict K V) (key : K) : Except Error V :=
  match d.get? key with
  | some v => .ok v
  | none => .error .keyError

variable {K V C : Type} [DecidableEq K] [DecidableEq V] [DecidableEq C]

/-- The share of the locations of a key that are seen with a value. -/
def share (total codes : Finset C) : ℚ := (codes.card : ℚ) / total.card

/-- A value is common if its share reaches the threshold and is not all. -/
def Common (config : Config) (total codes : Finset C) : Prop :=
  config.threshold ≤ share total codes ∧ share total codes ≠ 1

omit [DecidableEq C] in
instance (config : Config) (total codes : Finset C) : Decidable (Common config total codes) :=
  inferInstanceAs (Decidable (_ ∧ _))

section

variable [SetOrder C]

namespace Deviant

/-- One turn of the loop over the values, on `diff` and `scores`. -/
def turn (config : Config) (total : Finset C) (s : Finset C × Dict C ℚ) (x : V × Finset C) :
    Except Error (Finset C × Dict C ℚ) := do
  let score ← quotient x.2.card total.card
  if config.threshold ≤ score ∧ score ≠ 1 then
    let diff := s.1 \ x.2
    .ok (diff, (SetOrder.list diff).foldl (fun scores bug => scores.set bug score) s.2)
  else .ok s

/-- The report of a location that is left in `diff`. -/
def report (references : Bool) (key : K) (value : Store1 V C) (total diff : Finset C)
    (scores : Dict C ℚ) (bug : C) : Except Error (List (BugReport K V C)) := do
  let score ← subscript scores bug
  -- `ctx` is what the loop over the values has left in it
  match value.entries.getLast? with
  | some (ctx, _) => .ok [⟨score, bug, key, ctx, if references then some (total \ diff) else none⟩]
  | none => .error .unboundLocalError

/-- The reports of a key; `references` tells whether they show the other
locations. -/
def keyBugs (references : Bool) (config : Config) (key : K) (value : Store1 V C) (total : Finset C) :
    Except Error (List (BugReport K V C)) := do
  let (diff, scores) ← value.entries.foldlM (turn config total) (total, .empty)
  if diff.card = total.card then .ok []
  else gather (report references key value total diff scores) (SetOrder.list diff)

/-- `merge`, given the reports of a key and the ranking. -/
def merge (keyBugs : Config → K → Store1 V C → Finset C → Except Error (List (BugReport K V C)))
    (rank : List (BugReport K V C) → List (BugReport K V C)) (ctxs : List (Context K V C)) :
    Except Error (Option (List (BugReport K V C))) :=
  match Context.mergeAll ctxs with
  | none => .ok none
  | some ctx => do
    let bugs ← ctx.getBugs keyBugs
    .ok (some (rank bugs))

omit [DecidableEq V] [DecidableEq C] [SetOrder C] in
theorem merge_eq_some [DecidableEq V] [DecidableEq C]
    {keyBugs : Config → K → Store1 V C → Finset C → Except Error (List (BugReport K V C))}
    {rank : List (BugReport K V C) → List (BugReport K V C)} {ctxs : List (Context K V C)}
    {bugs : List (BugReport K V C)} : merge keyBugs rank ctxs = .ok (some bugs) ↔
      ∃ c bs, Context.mergeAll ctxs = some c ∧ c.getBugs keyBugs = .ok bs ∧ bugs = rank bs := by
  unfold merge
  cases hmerge : Context.mergeAll ctxs with
  | none => simp
  | some c =>
    refine bind_eq_ok.trans ?_
    simp [eq_comm]

end Deviant

/-! ### The two checkers -/

/-- `sorted(reports, key=lambda k: k.score, reverse=True)`. -/
def sortedByScore (reports : List (BugReport K V C)) : List (BugReport K V C) :=
  reports.insertionSort fun a b => b.score ≤ a.score

/-- `has_keyword`. -/
def hasKeyword (name : String) (keywords : List String) : Bool :=
  keywords.any fun keyword => name.toList.tails.any fun cs => keyword.toList.isPrefixOf cs

/-- `is_alloc`. -/
def isAlloc (name : String) : Bool := hasKeyword name ["alloc", "_new", "clone", "create", "dup"]

/-- `RetValContext.get_bugs`, for a key. -/
def RetValContext.keyBugs (config : Config) (key : K) (value : Store1 V C) (total : Finset C) :
    Except Error (List (BugReport K V C)) := Deviant.keyBugs false config key value total

/-- `ThreadSafetyContext.get_bugs`, for a key. No value that `add` stores is
`None`, so the check for it is left out. -/
def ThreadSafetyContext.keyBugs (config : Config) (key : K) (value : Store1 V C) (total : Finset C) :
    Except Error (List (BugReport K V C)) := Deviant.keyBugs true config key value total

/-- What `RetValChecker.rank` adds to a score; `id?` is the name of a key that
is an identifier. -/
def RetValChecker.bonus (id? : K → Option String) (key : K) : ℚ :=
  if (id? key).any isAlloc then 3 / 10 else 0

/-- `RetValChecker.rank`. -/
def RetValChecker.rank (id? : K → Option String) (reports : List (BugReport K V C)) :
    List (BugReport K V C) :=
  sortedByScore (reports.map fun report =>
    { report with score := report.score + RetValChecker.bonus id? report.key })

/-- `ThreadSafetyChecker.rank`. -/
def ThreadSafetyChecker.rank (reports : List (BugReport K V C)) : List (BugReport K V C) :=
  sortedByScore reports

/-- `RetValChecker.merge`. -/
def RetValChecker.merge (id? : K → Option String) (ctxs : List (Context K V C)) :
    Except Error (Option (List (BugReport K V C))) :=
  Deviant.merge RetValContext.keyBugs (RetValChecker.rank id?) ctxs

/-- `ThreadSafetyChecker.merge`. -/
def ThreadSafetyChecker.merge (ctxs : List (Context K V C)) :
    Except Error (Option (List (BugReport K V C))) :=
  Deviant.merge ThreadSafetyContext.keyBugs ThreadSafetyChecker.rank ctxs

/-- The score, location, key and value of a report. -/
def BugReport.shown (r : BugReport K V C) : ℚ × C × K × V := (r.score, r.code, r.key, r.ctx)

omit [DecidableEq K] [DecidableEq V] [DecidableEq C] [SetOrder C] in
theorem BugReport.of_shown {r : BugReport K V C} {q : ℚ} {x : C} {key : K} {v : V} (h : r.shown = (q, x, key, v)) :
    r.score = q ∧ r.code = x ∧ r.key = key ∧ r.ctx = v := by
  simpa [shown] using h

/-- What the reports show, as a set. -/
def reported (x : Except Error (Option (List (BugReport K V C)))) : Set (ℚ × C × K × V) :=
  {r | ∃ bugs, x = .ok (some bugs) ∧ ∃ b ∈ bugs, b.shown = r}

/-! ### The reports of a key -/

omit [DecidableEq K] [DecidableEq V] [SetOrder C] in
theorem get?_foldl_set {q : ℚ} {x : C} : ∀ {l : List C} {scores : Dict C ℚ},
    (l.foldl (fun scores bug => scores.set bug q) scores).get? x =
      if x ∈ l then some q else scores.get? x
  | [], scores => by simp
  | y :: l, scores => by
    rw [List.foldl_cons, get?_foldl_set, Dict.get?_set]
    by_cases hl : x ∈ l
    · rw [if_pos hl, if_pos (List.mem_cons_of_mem _ hl)]
    · by_cases hy : x = y
      · rw [if_neg hl, if_pos hy, if_pos (hy ▸ List.mem_cons_self)]
      · rw [if_neg hl, if_neg hy, if_neg (by simp [hl, hy])]

namespace Deviant

variable {total : Finset C}

omit [DecidableEq V] in
theorem turn_eq {config : Config} (htotal : total ≠ ∅) (s : Finset C × Dict C ℚ) (x : V × Finset C) :
    turn config total s x = .ok (if Common config total x.2 then
      (s.1 \ x.2, (SetOrder.list (s.1 \ x.2)).foldl
        (fun scores bug => scores.set bug (share total x.2)) s.2) else s) := by
  rw [turn, quotient_ok htotal, ok_bind]
  show (if Common config total x.2 then _ else _) = _
  by_cases hx : Common config total x.2
  · rw [if_pos hx, if_pos hx]
    rfl
  · rw [if_neg hx, if_neg hx]

omit [DecidableEq V] in
/-- **The loop over the values.** `diff` is left with the locations that no
common value has, and each of them with the score of the last common value. -/
theorem foldlM_turn (config : Config) (htotal : total ≠ ∅) (es : List (V × Finset C)) : ∃ diff scores,
    es.foldlM (turn config total) (total, .empty) = .ok (diff, scores) ∧
      (∀ c, c ∈ diff ↔ c ∈ total ∧ ∀ x ∈ es, Common config total x.2 → c ∉ x.2) ∧
      ∀ c ∈ diff, ∀ x, Last (fun x => Common config total x.2) es x →
        scores.get? c = some (share total x.2) := by
  induction es using List.reverseRecOn with
  | nil =>
    refine ⟨total, .empty, rfl, by simp, fun c _ x hx => ?_⟩
    obtain ⟨hmem, -⟩ := hx.mem
    cases hmem
  | append_singleton es x ih =>
    obtain ⟨diff, scores, hrun, hdiff, hscores⟩ := ih
    have hsnoc : (es ++ [x]).foldlM (turn config total) (total, .empty) =
        turn config total (diff, scores) x := by
      rw [List.foldlM_append, hrun, ok_bind, List.foldlM_cons]
      exact bind_pure _
    rw [hsnoc, turn_eq htotal]
    by_cases hx : Common config total x.2
    · rw [if_pos hx]
      refine ⟨_, _, rfl, fun c => ?_, fun c hc y hy => ?_⟩
      · rw [Finset.mem_sdiff, hdiff, List.forall_mem_append, List.forall_mem_singleton, and_assoc]
        simp [hx]
      · rw [get?_foldl_set, if_pos ((SetOrder.mem_list _ _).mpr hc)]
        rcases last_concat.mp hy with ⟨-, rfl⟩ | ⟨hnot, -⟩
        · rfl
        · exact absurd hx hnot
    · rw [if_neg hx]
      refine ⟨diff, scores, rfl, fun c => ?_, fun c hc y hy => ?_⟩
      · rw [hdiff, List.forall_mem_append, List.forall_mem_singleton]
        simp [hx]
      · rcases last_concat.mp hy with ⟨hcommon, -⟩ | ⟨-, hlast⟩
        · exact absurd hcommon hx
        · exact hscores c hc y hlast

/-- The locations of the key that no common value has. -/
def Rest (config : Config) (total : Finset C) (es : List (V × Finset C)) (c : C) : Prop :=
  c ∈ total ∧ ∀ x ∈ es, Common config total x.2 → c ∉ x.2

omit [DecidableEq K] [DecidableEq V] in
/-- **What the reports of a key are**: without a common value there are none;
else the last common value gives the score, and the last value of all is shown,
once for every location that is left. -/
theorem keyBugs_eq (config : Config) (references : Bool) (key : K) {value : Store1 V C}
    (htotal : total ≠ ∅) (hvalue : ∀ x ∈ value.entries, x.2 ≠ ∅ ∧ x.2 ⊆ total) :
    ((¬ ∃ x ∈ value.entries, Common config total x.2) ∧
      keyBugs references config key value total = .ok []) ∨
    ∃ diff x y, (∀ c, c ∈ diff ↔ Rest config total value.entries c) ∧
      Last (fun x => Common config total x.2) value.entries x ∧ Last (fun _ => True) value.entries y ∧
      keyBugs references config key value total = .ok ((SetOrder.list diff).map fun bug =>
        ⟨share total x.2, bug, key, y.1, if references then some (total \ diff) else none⟩) := by
  obtain ⟨diff, scores, hrun, hdiff, hscores⟩ := foldlM_turn config htotal value.entries
  rw [keyBugs, hrun, ok_bind]
  by_cases hcommon : ∃ x ∈ value.entries, Common config total x.2
  · have hlastcommon : ∃ x, Last (fun x => Common config total x.2) value.entries x := exists_last hcommon
    obtain ⟨x, hx⟩ := hlastcommon
    obtain ⟨hmem, hPx⟩ := hx.mem
    -- the common value has taken a location off
    have hcard : ¬ diff.card = total.card := by
      obtain ⟨hne, hsub⟩ := hvalue x hmem
      obtain ⟨c, hc⟩ := Finset.nonempty_iff_ne_empty.mpr hne
      have hlt : diff ⊂ total := Finset.ssubset_iff_subset_ne.mpr
        ⟨fun d hd => ((hdiff d).mp hd).1, fun heq => ((hdiff c).mp (heq ▸ hsub hc)).2 x hmem hPx hc⟩
      exact Nat.ne_of_lt (Finset.card_lt_card hlt)
    obtain ⟨y, hy⟩ : ∃ y, Last (fun _ => True) value.entries y := exists_last ⟨x, hmem, trivial⟩
    have hlast : value.entries.getLast? = some y := by
      obtain ⟨l₁, l₂, hsplit, -, hafter⟩ := hy
      cases l₂ with
      | nil => rw [hsplit, List.getLast?_concat]
      | cons z l₂ => exact absurd trivial (hafter z List.mem_cons_self)
    refine .inr ⟨diff, x, y, hdiff, hx, hy, (if_neg hcard).trans (gather_map fun bug hbug => ?_)⟩
    rw [report, subscript, hscores bug ((SetOrder.mem_list _ _).mp hbug) x hx, hlast]
    rfl
  · have hall : diff = total := by
      ext c
      rw [hdiff]
      exact and_iff_left fun x hx hPx => absurd ⟨x, hx, hPx⟩ hcommon
    exact .inl ⟨hcommon, if_pos (congrArg Finset.card hall)⟩

omit [DecidableEq K] [DecidableEq V] in
/-- **The reports of a key.** Every location that no common value has is
reported with the score of the last common value and with the last value. -/
theorem mem_keyBugs (config : Config) (references : Bool) (key : K) {value : Store1 V C}
    (htotal : total ≠ ∅) (hvalue : ∀ x ∈ value.entries, x.2 ≠ ∅ ∧ x.2 ⊆ total) :
    ∃ bugs, keyBugs references config key value total = .ok bugs ∧
      ∀ r, (∃ b ∈ bugs, b.shown = r) ↔ ∃ c x y,
        (c ∈ total ∧ ∀ z ∈ value.entries, Common config total z.2 → c ∉ z.2) ∧
        Last (fun x => Common config total x.2) value.entries x ∧
        Last (fun _ => True) value.entries y ∧ r = (share total x.2, c, key, y.1) := by
  rcases keyBugs_eq config references key htotal hvalue with
    ⟨hnone, hbugs⟩ | ⟨diff, x, y, hdiff, hx, hy, hbugs⟩
  · refine ⟨[], hbugs, fun r => ?_⟩
    constructor
    · rintro ⟨b, hb, -⟩
      cases hb
    · rintro ⟨c, x, y, -, hx, -⟩
      exact absurd ⟨x, hx.mem⟩ hnone
  · refine ⟨_, hbugs, fun r => ?_⟩
    simp only [List.mem_map, exists_exists_and_eq_and, SetOrder.mem_list]
    constructor
    · rintro ⟨c, hc, rfl⟩
      exact ⟨c, x, y, (hdiff c).mp hc, hx, hy, rfl⟩
    · rintro ⟨c, x', y', hc, hx', hy', rfl⟩
      rw [← hx.unique hx', ← hy.unique hy']
      exact ⟨c, (hdiff c).mpr hc, rfl⟩

/-- A location that no common value has. -/
def Missing (config : Config) (trees : List (List (Add K V C))) (key : K) (x : C) : Prop :=
  x ∈ sites trees key ∧ ∀ v, Common config (sites trees key) (sitesOf trees key v) → x ∉ sitesOf trees key v

/-- The last value of a key, and the last common one, in the order of the
trees. -/
def Ends (config : Config) (trees : List (List (Add K V C))) (key : K) (q v : V) : Prop :=
  Last (fun v => Common config (sites trees key) (sitesOf trees key v))
      (FirstSeen.merge (valuesOf key) trees) q ∧
    Last (fun _ => True) (FirstSeen.merge (valuesOf key) trees) v

omit [SetOrder C] in
theorem sitesOf_spec {trees : List (List (Add K V C))} {key : K} {v : V}
    (h : v ∈ FirstSeen.merge (valuesOf key) trees) :
    sitesOf trees key v ≠ ∅ ∧ sitesOf trees key v ⊆ sites trees key := by
  obtain ⟨adds, hadds, hv⟩ := mem_merge.mp h
  obtain ⟨a, ha, hk, hav⟩ := mem_valuesOf.mp hv
  refine ⟨Finset.nonempty_iff_ne_empty.mp ⟨a.code, mem_sitesOf.mpr ⟨adds, hadds, a, ha, hk, hav, rfl⟩⟩,
    fun x hx => ?_⟩
  obtain ⟨adds', hadds', a', ha', hk', -, hx'⟩ := mem_sitesOf.mp hx
  exact mem_sites.mpr ⟨adds', hadds', a', ha', hk', hx'⟩

/-- The reports of a key, for a context of trees. -/
theorem mem_keyBugs_of_holds (config : Config) (references : Bool)
    {trees : List (List (Add K V C))} {c : Context K V C} (h : c.Holds trees) {key : K} {value : Store1 V C}
    (hvalue : c.ctxUses.get? key = some value) :
    ∃ bugs, keyBugs references config key value (c.total key) = .ok bugs ∧
      ∀ r, (∃ b ∈ bugs, b.shown = r) ↔ ∃ x q v, Missing config trees key x ∧
        Ends config trees key q v ∧ r = (share (sites trees key) (sitesOf trees key q), x, key, v) := by
  have hdict := Context.dict_eq hvalue
  have hkeys : value.entries.map Prod.fst = FirstSeen.merge (valuesOf key) trees := by
    rw [← h.values key, Context.values, hdict]
    rfl
  have hcodes : ∀ x ∈ value.entries, x.2 = sitesOf trees key x.1 := fun x hx => by
    rw [← h.codes key x.1, Context.codes_eq (hdict ▸ hx)]
  have hmem : ∀ x ∈ value.entries, x.1 ∈ FirstSeen.merge (valuesOf key) trees := fun x hx => by
    rw [← hkeys]
    exact List.mem_map_of_mem hx
  have hspec : ∀ x ∈ value.entries, x.2 ≠ ∅ ∧ x.2 ⊆ c.total key := fun x hx => by
    rw [hcodes x hx, h.total]
    exact sitesOf_spec (hmem x hx)
  obtain ⟨bugs, hbugs, hiff⟩ := mem_keyBugs config references key (h.covered key value hvalue) hspec
  refine ⟨bugs, hbugs, fun r => ?_⟩
  rw [hiff, h.total]
  have hcommon : ∀ x ∈ value.entries, Common config (sites trees key) (sitesOf trees key x.1) ↔
      Common config (sites trees key) x.2 := fun x hx => by rw [← hcodes x hx]
  have hlast : ∀ q, Last (fun v => Common config (sites trees key) (sitesOf trees key v))
      (value.entries.map Prod.fst) q ↔
      ∃ y, Last (fun y => Common config (sites trees key) y.2) value.entries y ∧ y.1 = q := fun q =>
    last_map (Q := fun v => Common config (sites trees key) (sitesOf trees key v)) hcommon
  have hmissing : ∀ x, (x ∈ sites trees key ∧ ∀ z ∈ value.entries,
      Common config (sites trees key) z.2 → x ∉ z.2) ↔ Missing config trees key x := by
    refine fun x => and_congr_right fun _ => ⟨fun hx v hv hxv => ?_, fun hx z hz hPz => ?_⟩
    · obtain ⟨adds, hadds, a, ha, hk, hav, -⟩ := mem_sitesOf.mp hxv
      have hvm : v ∈ value.entries.map Prod.fst := by
        rw [hkeys]
        exact mem_merge.mpr ⟨adds, hadds, mem_valuesOf.mpr ⟨a, ha, hk, hav⟩⟩
      obtain ⟨z, hz, rfl⟩ := List.mem_map.mp hvm
      exact hx z hz ((hcommon z hz).mp hv) (hcodes z hz ▸ hxv)
    · rw [hcodes z hz] at hPz ⊢
      exact hx z.1 hPz
  constructor
  · rintro ⟨x, y, z, hx, hy, hz, rfl⟩
    refine ⟨x, y.1, z.1, (hmissing x).mp hx, ⟨?_, ?_⟩, by rw [← hcodes y hy.mem.1]⟩
    · rw [← hkeys]
      exact (hlast y.1).mpr ⟨y, hy, rfl⟩
    · rw [← hkeys]
      exact (last_map fun _ _ => Iff.rfl).mpr ⟨z, hz, rfl⟩
  · rintro ⟨x, q, v, hx, ⟨hq, hv⟩, rfl⟩
    rw [← hkeys] at hq hv
    obtain ⟨y, hy, rfl⟩ := (hlast q).mp hq
    obtain ⟨z, hz, rfl⟩ := (last_map fun _ _ => Iff.rfl).mp hv
    exact ⟨x, y, z, (hmissing x).mpr hx, hy, hz, by rw [← hcodes y hy.mem.1]⟩

/-- **What is reported**, where ranking adds a bonus to each score. -/
theorem mem_reported {references : Bool} {rank : List (BugReport K V C) → List (BugReport K V C)}
    {bonus : K → ℚ} (hrank : ∀ bugs r, (∃ b ∈ rank bugs, b.shown = r) ↔
      ∃ b ∈ bugs, (b.score + bonus b.key, b.code, b.key, b.ctx) = r)
    (config : Config) (trees : List (List (Add K V C))) :
    (∃ bugs, merge (keyBugs references) rank (Context.ofTrees config trees) = .ok bugs) ∧
      ∀ r, r ∈ reported (merge (keyBugs references) rank (Context.ofTrees config trees)) ↔
        ∃ key x q v, Missing config trees key x ∧ Ends config trees key q v ∧
          r = (share (sites trees key) (sitesOf trees key q) + bonus key, x, key, v) := by
  rcases Context.mergeAll_ofTrees config trees with ⟨rfl, hnone⟩ | ⟨c, hsome, hconfig, hc⟩
  · rw [merge, hnone]
    refine ⟨⟨none, rfl⟩, fun r => ⟨?_, ?_⟩⟩
    · rintro ⟨bugs, h, -⟩
      cases h
    · rintro ⟨key, x, q, v, -, ⟨hq, -⟩, -⟩
      obtain ⟨hmem, -⟩ := hq.mem
      cases hmem
  · have hok : ∀ x ∈ c.ctxUses.entries, ∃ bugs,
        keyBugs references c.config x.1 x.2 (c.total x.1) = .ok bugs := fun x hx => by
      obtain ⟨b, hb, -⟩ := mem_keyBugs_of_holds c.config references hc
        (Dict.mem_entries.mp hx)
      exact ⟨b, hb⟩
    obtain ⟨bugs, hbugs⟩ := gather_ok hok
    have hmerge : merge (keyBugs references) rank (Context.ofTrees config trees) = .ok (some (rank bugs)) := by
      rw [merge, hsome]
      show (c.getBugs (keyBugs references) >>= _) = _
      rw [Context.getBugs, hbugs]
      rfl
    refine ⟨⟨_, hmerge⟩, fun r => ?_⟩
    have hmem : r ∈ reported (merge (keyBugs references) rank (Context.ofTrees config trees)) ↔
        ∃ b ∈ bugs, (b.score + bonus b.key, b.code, b.key, b.ctx) = r := by
      rw [← hrank, hmerge]
      constructor
      · rintro ⟨l, hl, hb⟩
        cases hl
        exact hb
      · exact fun hb => ⟨_, rfl, hb⟩
    rw [hmem]
    constructor
    · rintro ⟨b, hb, rfl⟩
      obtain ⟨⟨key, value⟩, hx, l, hl, hbl⟩ := (mem_gather hbugs).mp hb
      obtain ⟨l', hl', hiff⟩ := mem_keyBugs_of_holds c.config references hc
        (Dict.mem_entries.mp hx)
      have hll : l = l' := Except.ok.inj (hl.symm.trans hl')
      subst hll
      obtain ⟨x, q, v, hmissing, hends, hshown⟩ := (hiff b.shown).mp ⟨b, hbl, rfl⟩
      obtain ⟨hscore, hcode, hkey, hctx⟩ := BugReport.of_shown hshown
      rw [hconfig] at hmissing hends
      exact ⟨key, x, q, v, hmissing, hends, by rw [hscore, hcode, hkey, hctx]⟩
    · rintro ⟨key, x, q, v, hmissing, hends, rfl⟩
      have hq : q ∈ c.values key := by
        rw [hc.values]
        exact hends.1.mem.1
      obtain ⟨value, hvalue⟩ := Context.exists_dict hq
      obtain ⟨l, hl, hiff⟩ := mem_keyBugs_of_holds c.config references hc hvalue
      rw [← hconfig] at hmissing hends
      obtain ⟨b, hb, hshown⟩ := (hiff _).mpr ⟨x, q, v, hmissing, hends, rfl⟩
      obtain ⟨hscore, hcode, hkey, hctx⟩ := BugReport.of_shown hshown
      refine ⟨b, (mem_gather hbugs).mpr ⟨_, Dict.mem_entries.mpr hvalue, l, hl, hb⟩, ?_⟩
      rw [hscore, hcode, hkey, hctx]

end Deviant

omit [DecidableEq K] [DecidableEq V] [DecidableEq C] [SetOrder C] in
theorem mem_sortedByScore {b : BugReport K V C} {bugs : List (BugReport K V C)} :
    b ∈ sortedByScore bugs ↔ b ∈ bugs :=
  (List.perm_insertionSort _ bugs).mem_iff

omit [DecidableEq K] [DecidableEq V] [DecidableEq C] [SetOrder C] in
theorem RetValChecker.mem_rank (id? : K → Option String) (bugs : List (BugReport K V C))
    (r : ℚ × C × K × V) : (∃ b ∈ RetValChecker.rank id? bugs, b.shown = r) ↔
      ∃ b ∈ bugs, (b.score + RetValChecker.bonus id? b.key, b.code, b.key, b.ctx) = r := by
  simp only [RetValChecker.rank, mem_sortedByScore, List.mem_map, exists_exists_and_eq_and]
  rfl

omit [DecidableEq K] [DecidableEq V] [DecidableEq C] [SetOrder C] in
theorem ThreadSafetyChecker.mem_rank (bugs : List (BugReport K V C)) (r : ℚ × C × K × V) :
    (∃ b ∈ ThreadSafetyChecker.rank bugs, b.shown = r) ↔
      ∃ b ∈ bugs, (b.score + 0, b.code, b.key, b.ctx) = r := by
  simp only [ThreadSafetyChecker.rank, mem_sortedByScore, add_zero]
  rfl

/-- What the checker of return values reports. -/
theorem RetValChecker.mem_reported (id? : K → Option String) (config : Config)
    (trees : List (List (Add K V C))) (r : ℚ × C × K × V) :
    r ∈ reported (RetValChecker.merge id? (Context.ofTrees config trees)) ↔
      ∃ key x q v, Deviant.Missing config trees key x ∧ Deviant.Ends config trees key q v ∧
        r = (share (sites trees key) (sitesOf trees key q) + RetValChecker.bonus id? key, x, key, v) :=
  (Deviant.mem_reported (RetValChecker.mem_rank id?) config trees).2 r

/-- What the checker of locks reports. -/
theorem ThreadSafetyChecker.mem_reported (config : Config) (trees : List (List (Add K V C)))
    (r : ℚ × C × K × V) : r ∈ reported (ThreadSafetyChecker.merge (Context.ofTrees config trees)) ↔
      ∃ key x q v, Deviant.Missing config trees key x ∧ Deviant.Ends config trees key q v ∧
        r = (share (sites trees key) (sitesOf trees key q) + 0, x, key, v) :=
  (Deviant.mem_reported ThreadSafetyChecker.mem_rank config trees).2 r

end

end Apisan
