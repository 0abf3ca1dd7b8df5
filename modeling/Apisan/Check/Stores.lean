/-
# The stores of any number of contexts

A pool of contexts, on which `add`, `add_or_intersect`, `add_all` and `merge`
are called in any order. The entries of `CausalityContext` only decide what is
added later, so each context of the pool is one that adds and merges make, and
its two stores agree: a key with values has a location, and each value has some
of them (`Pool.reachable_run`). Hence the quotients of all checkers are
defined, and each is a share (`Pool.run_agrees`).

Key definitions: `CausalityContext`, `Op`, `Pool.step`, `Pool.run`,
`Agrees`, `GetBugs`.
Key theorems: `Pool.reachable_step`, `Pool.reachable_run`, `Pool.run_agrees`.
-/
import Apisan.Check.Reports
import Apisan.Check.Condition
import Apisan.Check.Causality

namespace Apisan

open Python

/-- A `CausalityContext`. That of another checker has no entries. -/
structure CausalityContext (K V C : Type) where
  context : Context K V C
  entries : Dict (K × C) (Finset V)

variable {K V C : Type} [DecidableEq K] [DecidableEq V] [DecidableEq C]

namespace CausalityContext

/-- `__init__`. -/
def new (config : Config) : CausalityContext K V C := ⟨.new config, .empty⟩

/-- `add`. -/
def add (c : CausalityContext K V C) (key : K) (value : Option V) (code : C) : CausalityContext K V C :=
  { c with context := c.context.add key value code }

/-- `add_or_intersect`. -/
def addOrIntersect (c : CausalityContext K V C) (key : K) (values : Finset V) (code : C) :
    CausalityContext K V C :=
  match c.entries.get? (key, code) with
  | some old => { c with entries := c.entries.set (key, code) (old ∩ values) }
  | none => { c with entries := c.entries.set (key, code) values }

/-- `add_all`. -/
def addAll [SetOrder V] (c : CausalityContext K V C) : CausalityContext K V C :=
  c.entries.entries.foldl (fun c x =>
    let c := (SetOrder.list x.2).foldl (fun c value => c.add x.1.1 (some value) x.1.2) c
    c.add x.1.1 none x.1.2) c

/-- `merge`. -/
def merge (c other : CausalityContext K V C) : CausalityContext K V C :=
  { c with context := c.context.merge other.context }

/-- The adds of `add_all`. -/
def adds [SetOrder V] (entries : Dict (K × C) (Finset V)) : List (Add K V C) :=
  entries.entries.flatMap fun x =>
    (SetOrder.list x.2).map (fun value => ⟨x.1.1, some value, x.1.2⟩) ++ [⟨x.1.1, none, x.1.2⟩]

/-- `add_all` makes its adds, and leaves the entries. -/
theorem addAll_eq [SetOrder V] (c : CausalityContext K V C) :
    c.addAll = { c with context := c.context.addAll (adds c.entries) } := by
  have hvalues : ∀ (key : K) (code : C) (values : List V) (c : CausalityContext K V C),
      values.foldl (fun c value => c.add key (some value) code) c =
        { c with context := c.context.addAll (values.map fun value => ⟨key, some value, code⟩) } := by
    intro key code values
    induction values with
    | nil => exact fun c => rfl
    | cons value values ih => exact fun c => ih (c.add key (some value) code)
  have hentries : ∀ (l : List ((K × C) × Finset V)) (c : CausalityContext K V C),
      l.foldl (fun c x =>
        let c := (SetOrder.list x.2).foldl (fun c value => c.add x.1.1 (some value) x.1.2) c
        c.add x.1.1 none x.1.2) c =
      { c with context := c.context.addAll (l.flatMap fun x =>
        (SetOrder.list x.2).map (fun value => ⟨x.1.1, some value, x.1.2⟩) ++ [⟨x.1.1, none, x.1.2⟩]) } := by
    intro l
    induction l with
    | nil => exact fun c => rfl
    | cons x l ih =>
      intro c
      rw [List.foldl_cons, ih, List.flatMap_cons]
      simp only [hvalues]
      simp only [add, Context.addAll, List.foldl_append, List.foldl_cons, List.foldl_nil]
  exact hentries c.entries.entries c

/-- The entries, as the checker follows them. -/
theorem addOrIntersect_entries (c : CausalityContext CausalityChecker.Key ℤ Code)
    (key : CausalityChecker.Key) (values : Finset ℤ) (code : Code) :
    (c.addOrIntersect key values code).entries =
      CausalityChecker.addOrIntersect c.entries ((key, code), values) := by
  unfold addOrIntersect CausalityChecker.addOrIntersect
  cases c.entries.get? (key, code) with
  | none => rfl
  | some old => rfl

/-- The context, as the checker fills it. -/
theorem addAll_context [SetOrder ℤ] (c : CausalityContext CausalityChecker.Key ℤ Code) :
    c.addAll.context = c.context.addAll (CausalityChecker.allAdds c.entries) := by
  rw [addAll_eq]
  rfl

end CausalityContext

/-- An operation on the contexts of a pool, which are named by their
positions. -/
inductive Op (K V C : Type)
  | new (config : Config)
  | add (i : ℕ) (key : K) (value : Option V) (code : C)
  | addOrIntersect (i : ℕ) (key : K) (values : Finset V) (code : C)
  | addAll (i : ℕ)
  | merge (i j : ℕ)

/-- The contexts at hand. -/
abbrev Pool (K V C : Type) := List (CausalityContext K V C)

namespace Pool

variable [SetOrder V]

/-- An operation. -/
def step (pool : Pool K V C) : Op K V C → Pool K V C
  | .new config => pool ++ [.new config]
  | .add i key value code => pool.modify i fun c => c.add key value code
  | .addOrIntersect i key values code => pool.modify i fun c => c.addOrIntersect key values code
  | .addAll i => pool.modify i .addAll
  | .merge i j =>
    match pool[j]? with
    | some other => pool.modify i fun c => c.merge other
    | none => pool

/-- A sequence of operations. -/
def run (ops : List (Op K V C)) : Pool K V C := ops.foldl step []

/-! ### The stores -/

omit [DecidableEq K] [DecidableEq V] [DecidableEq C] [SetOrder V] in
/-- What holds of the changed context and of all others holds of the pool. -/
theorem forall_mem_modify {P : CausalityContext K V C → Prop} {f : CausalityContext K V C → CausalityContext K V C}
    (hf : ∀ c, P c → P (f c)) {pool : Pool K V C} (h : ∀ c ∈ pool, P c) (i : ℕ) :
    ∀ c ∈ pool.modify i f, P c := by
  intro c hc
  obtain ⟨j, hj⟩ := List.mem_iff_getElem?.mp hc
  rw [List.getElem?_modify] at hj
  obtain ⟨d, hd, rfl⟩ := Option.map_eq_some_iff.mp hj
  have hPd : P d := h d (List.mem_of_getElem? hd)
  by_cases hij : i = j
  · rw [if_pos hij]
    exact hf d hPd
  · rw [if_neg hij]
    exact hPd

/-- An operation makes contexts by adds and merges, if those at hand are made so. -/
theorem reachable_step {pool : Pool K V C} (h : ∀ c ∈ pool, c.context.Reachable) (op : Op K V C) :
    ∀ c ∈ pool.step op, c.context.Reachable := by
  cases op with
  | new config =>
    intro c hc
    rcases List.mem_append.mp hc with hc | hc
    · exact h c hc
    · rw [List.mem_singleton.mp hc]
      exact .new config
  | add i key value code => exact forall_mem_modify (fun c hc => hc.add key value code) h i
  | addOrIntersect i key values code =>
    -- the entries are no part of the stores
    refine forall_mem_modify (fun c hc => ?_) h i
    unfold CausalityContext.addOrIntersect
    cases c.entries.get? (key, code) with
    | none => exact hc
    | some old => exact hc
  | addAll i =>
    refine forall_mem_modify (fun c hc => ?_) h i
    rw [CausalityContext.addAll_eq]
    exact Context.reachable_addAll hc
  | merge i j =>
    cases hj : pool[j]? with
    | none =>
      have hstep : pool.step (.merge i j) = pool := by simp only [step, hj]
      rw [hstep]
      exact h
    | some other =>
      have hstep : pool.step (.merge i j) = pool.modify i fun c => c.merge other := by simp only [step, hj]
      have hother : other.context.Reachable := h other (List.mem_of_getElem? hj)
      rw [hstep]
      exact forall_mem_modify (fun c hc => Context.Reachable.merge hc hother) h i

/-- **The contexts of every run** are made by adds and merges. -/
theorem reachable_run (ops : List (Op K V C)) : ∀ c ∈ run ops, c.context.Reachable := by
  have hfoldl : ∀ (ops : List (Op K V C)) (pool : Pool K V C), (∀ c ∈ pool, c.context.Reachable) →
      ∀ c ∈ ops.foldl step pool, c.context.Reachable := by
    intro ops
    induction ops with
    | nil => exact fun pool h => h
    | cons op ops ih => exact fun pool h => ih (pool.step op) (reachable_step h op)
  exact hfoldl ops [] (by simp)

end Pool

/-! ### The quotients -/

/-- The stores of a context agree: a key with values has a location, and each
of its values has some of the locations, of which the quotient is the share. -/
def Agrees (c : Context K V C) : Prop :=
  ∀ key value, c.ctxUses.get? key = some value → c.total key ≠ ∅ ∧
    ∀ v codes, value.get? v = some codes → codes ≠ ∅ ∧ codes ⊆ c.total key ∧
      ∃ q, quotient codes.card (c.total key).card = .ok q ∧ 0 < q ∧ q ≤ 1 ∧ (q = 1 ↔ codes = c.total key)

/-- The `get_bugs` of the checkers, for a key. The base class's is that of the
checkers of causality and of conditions. -/
inductive GetBugs (K C : Type) [DecidableEq K] [DecidableEq C] [SetOrder C] :
    (V : Type) → (Config → K → Store1 V C → Finset C → Except Error (List (BugReport K V C))) → Prop
  | base (V : Type) : GetBugs K C V Context.baseBugs
  | args : GetBugs K C Bool ArgContext.keyBugs
  | fsb : GetBugs K C (Bool × Bool) FSBContext.keyBugs
  | intovfl : GetBugs K C IntOvflChkType IntOvflContext.keyBugs
  | rvchk (V : Type) : GetBugs K C V RetValContext.keyBugs
  | thread (V : Type) : GetBugs K C V ThreadSafetyContext.keyBugs

omit [DecidableEq C] in
theorem Context.Sound.agrees {c : Context K V C} (h : c.Sound) : Agrees c := by
  intro key value hvalue
  have htotal : c.total key ≠ ∅ := h.covered key value hvalue
  refine ⟨htotal, fun v codes hcodes => ?_⟩
  have hmem : (v, codes) ∈ (c.dict key).entries := by
    rw [dict_eq hvalue]
    exact Dict.mem_entries.mpr hcodes
  have heq : c.codes key v = codes := codes_eq hmem
  have hne : codes ≠ ∅ := heq ▸ h.nonempty key v (List.mem_map_of_mem hmem)
  have hsub : codes ⊆ c.total key := heq ▸ h.subset key v
  have hcard : 0 < codes.card := (Finset.nonempty_iff_ne_empty.mpr hne).card_pos
  have hle : codes.card ≤ (c.total key).card := Finset.card_le_card hsub
  have hpos : (0 : ℚ) < (c.total key).card := Nat.cast_pos.mpr (by omega)
  refine ⟨hne, hsub, share (c.total key) codes, quotient_ok htotal _, ?_, ?_, share_eq_one htotal hsub⟩
  · exact div_pos (Nat.cast_pos.mpr hcard) hpos
  · rw [share, div_le_one hpos]
    exact Nat.cast_le.mpr hle

omit [DecidableEq C] in
/-- The reports of a key are returned if it has a location, where the order of
its dictionary does not matter. -/
theorem Respects.returns {f : Config → K → Store1 V C → Finset C → Except Error (List (BugReport K V C))}
    (hf : Respects f) {c : Context K V C} (h : c.Covered) : ∃ bugs, c.getBugs f = .ok bugs := by
  refine gather_ok fun x hx => ?_
  have htotal : c.total x.1 ≠ ∅ := h x.1 x.2 (Dict.mem_entries.mp hx)
  obtain ⟨bugs, -, hbugs, -⟩ := hf c.config x.1 x.2 x.2 (c.total x.1) (fun _ => rfl) htotal
  exact ⟨bugs, hbugs⟩

section

variable [SetOrder C]

/-- **The reports of every checker are returned.** -/
theorem GetBugs.returns {f : Config → K → Store1 V C → Finset C → Except Error (List (BugReport K V C))}
    (hf : GetBugs K C V f) {c : Context K V C} (h : c.Sound) : ∃ bugs, c.getBugs f = .ok bugs := by
  cases hf with
  | base =>
    refine gather_ok fun x hx => gather_ok fun y _ => ?_
    have htotal : c.total x.1 ≠ ∅ := h.covered x.1 x.2 (Dict.mem_entries.mp hx)
    rw [quotient_ok htotal, ok_bind]
    split_ifs
    · exact ⟨_, rfl⟩
    · exact ⟨_, rfl⟩
  | args =>
    obtain rfl : ‹DecidableEq Bool› = instDecidableEqBool := Subsingleton.elim _ _
    exact ArgContext.respects.returns h.covered
  | fsb =>
    obtain rfl : ‹DecidableEq (Bool × Bool)› = instDecidableEqProd := Subsingleton.elim _ _
    exact FSBContext.respects.returns h.covered
  | intovfl =>
    obtain rfl : ‹DecidableEq IntOvflChkType› = instDecidableEqIntOvflChkType := Subsingleton.elim _ _
    exact IntOvflContext.respects.returns h.covered
  | rvchk =>
    obtain ⟨bugs, hbugs, -⟩ := Context.exists_reported_iff h false
    exact ⟨bugs, hbugs⟩
  | thread =>
    obtain ⟨bugs, hbugs, -⟩ := Context.exists_reported_iff h true
    exact ⟨bugs, hbugs⟩

namespace Pool

variable [SetOrder V]

/-- **What holds of every context.** Whatever was done with any contexts, the
stores of each agree, and all reports of it are returned. -/
theorem run_agrees (ops : List (Op K V C)) : ∀ c ∈ run ops, Agrees c.context ∧
    ∀ f, GetBugs K C V f → ∃ bugs, c.context.getBugs f = .ok bugs := fun c hc =>
  have hsound := (reachable_run ops c hc).sound
  ⟨hsound.agrees, fun _ hf => hf.returns hsound⟩

end Pool

end

/-- `False` before `True`. -/
abbrev falseFirst : SetOrder Bool where
  list := fun s => [false, true].filter (· ∈ s)
  mem_list := fun s x => by cases x <;> simp
  nodup_list := fun s => List.Nodup.filter _ (by decide)

/-- Two contexts, of which one is filled by its entries and merged into the
other. -/
def twoContexts : List (Op ℕ Bool ℕ) :=
  [.new ⟨4 / 5⟩, .new ⟨4 / 5⟩, .add 0 1 (some true) 10, .addOrIntersect 1 1 {true, false} 11,
    .addOrIntersect 1 1 {false} 11, .addAll 1, .add 1 4 none 12, .merge 0 1]

/-- The key of the merged context has two values, each with one of its two
locations. -/
theorem twoContexts_agrees :
    let _ : SetOrder Bool := falseFirst
    let _ : SetOrder ℕ := ⟨Finset.toList, fun _ _ => Finset.mem_toList, Finset.nodup_toList⟩
    ∃ c ∈ Pool.run twoContexts, (c.context.dict 1).entries = [(true, {10}), (false, {11})] ∧
      c.context.total 1 = {10, 11} ∧ Agrees c.context ∧ ∃ bugs, c.context.getBugs ArgContext.keyBugs = .ok bugs := by
  intro _ _
  have hrun : ∃ c ∈ Pool.run twoContexts, (c.context.dict 1).entries = [(true, {10}), (false, {11})] ∧
      c.context.total 1 = {10, 11} := by decide +kernel
  obtain ⟨c, hc, hdict, htotal⟩ := hrun
  obtain ⟨hagrees, hbugs⟩ := Pool.run_agrees twoContexts c hc
  exact ⟨c, hc, hdict, htotal, hagrees, hbugs _ .args⟩

end Apisan
