/-
# Reports of the checkers that only add

`get_bugs` of the checkers of arguments, format strings and integer overflows
(`argument.py`, `fsb.py`, `intovfl.py`), up to the order of the reports: the
sets of locations are iterated in any fixed order (`SetOrder`). Contexts with
one view and configuration have the same reports (`sameBugs`), and a context
whose uses were added never divides by zero (`Context.Covered`).

Key definitions: `SetOrder`, `BugReport`, `Context.getBugs`,
`ArgContext.keyBugs`, `FSBContext.keyBugs`, `IntOvflContext.keyBugs`,
`SameBugs`, `Context.Covered`.
Key theorems: `Context.covered_addAll`, `Context.sameBugs`,
`ArgContext.respects`, `FSBContext.respects`, `IntOvflContext.respects`.
-/
import Mathlib.Algebra.BigOperators.Group.List.Basic
import Mathlib.Algebra.GroupWithZero.Nat
import Mathlib.Data.Finset.Card
import Apisan.Check.Checkers

namespace Apisan

open Python

/-- The order in which the members of a set are iterated. -/
class SetOrder (C : Type) where
  list : Finset C → List C
  mem_list : ∀ s x, x ∈ list s ↔ x ∈ s
  nodup_list : ∀ s, (list s).Nodup

/-- A report; its references are the locations shown with it, if any. -/
structure BugReport (K V C : Type) where
  score : ℚ
  code : C
  key : K
  ctx : V
  references : Option (Finset C)

/-- The quotient of two sizes. -/
def quotient (n m : ℕ) : Except Error ℚ :=
  if m = 0 then .error .zeroDivisionError else .ok ((n : ℚ) / m)

variable {K V C : Type} [DecidableEq K] [DecidableEq V] [DecidableEq C] [SetOrder C]

namespace Context

/-- `self.total_uses[key]`. -/
def total (c : Context K V C) (key : K) : Finset C := (c.totalUses.get? key).getD ∅

/-- The loop of `get_bugs` over the keys, given the reports of a key. -/
def getBugs (keyBugs : Config → K → Store1 V C → Finset C → Except Error (List (BugReport K V C)))
    (c : Context K V C) : Except Error (List (BugReport K V C)) :=
  gather (fun x => keyBugs c.config x.1 x.2 (c.total x.1)) c.ctxUses.entries

end Context

/-- `len` of the sets of the entries that satisfy `p`, added up. -/
def countWhere (p : V → Bool) (value : Store1 V C) : ℕ :=
  ((value.entries.filter fun x => p x.1).map fun x => x.2.card).sum

/-- A report for every location of a set. -/
def reports (score : ℚ) (key : K) (ctx : V) (codes : Finset C) : List (BugReport K V C) :=
  (SetOrder.list codes).map fun bug => ⟨score, bug, key, ctx, none⟩

namespace ArgContext

/-- The reports of a key in `ArgContext.get_bugs`. -/
def keyBugs (config : Config) (key : K) (value : Store1 Bool C) (total : Finset C) :
    Except Error (List (BugReport K Bool C)) := do
  let related := ((value.get? true).getD ∅).card
  let score ← quotient related total.card
  let codes := (value.get? false).getD ∅
  if config.threshold ≤ score ∧ score ≠ 1 then .ok (reports score key false codes) else .ok []

end ArgContext

namespace FSBContext

/-- The reports of a key in `FSBContext.get_bugs`. -/
def keyBugs (config : Config) (key : K) (value : Store1 (Bool × Bool) C) (total : Finset C) :
    Except Error (List (BugReport K (Bool × Bool) C)) :=
  let correct := countWhere (fun ctx => ctx.1) value
  gather (fun x =>
    if x.1.1 then .ok []
    else do
      let score ← quotient correct total.card
      if config.threshold ≤ score ∧ score ≠ 1 then .ok (reports score key x.1 x.2) else .ok [])
    value.entries

end FSBContext

namespace IntOvflContext

/-- The reports of a key in `IntOvflContext.get_bugs`, which has no threshold. -/
def keyBugs (_ : Config) (key : K) (value : Store1 IntOvflChkType C) (total : Finset C) :
    Except Error (List (BugReport K IntOvflChkType C)) :=
  let correct := countWhere (· == .correct) value
  if correct = 0 then .ok []
  else do
    let score ← quotient correct total.card
    gather (fun x => if x.1 = .correct then .ok [] else .ok (reports score key x.1 x.2))
      value.entries

end IntOvflContext

/-! ### The reports are decided by the view -/

omit [DecidableEq C] [SetOrder C] in
theorem Store1.view_eq_iff {d e : Store1 V C} : d.view = e.view ↔ ∀ v, d.get? v = e.get? v := by
  have hview : ∀ (d : Store1 V C) v, d.view v = d.get? v := fun d v => Option.map_id_apply
  constructor
  · intro h v
    have hv := congrFun h v
    rwa [hview, hview] at hv
  · intro h
    funext v
    rw [hview, hview, h]

theorem Dict.entries_perm {A : Type} {d e : Dict V A} (h : ∀ v, d.get? v = e.get? v) :
    d.entries.Perm e.entries := by
  rw [List.perm_ext_iff_of_nodup (List.Nodup.of_map _ d.nodup) (List.Nodup.of_map _ e.nodup)]
  rintro ⟨v, a⟩
  rw [Dict.mem_entries, Dict.mem_entries, h]

omit [DecidableEq C] [SetOrder C] in
theorem countWhere_congr {d e : Store1 V C} (h : ∀ v, d.get? v = e.get? v) (p : V → Bool) :
    countWhere p d = countWhere p e :=
  (((Dict.entries_perm h).filter _).map _).sum_eq

/-- Two lists of reports, both returned, with the same members. -/
def SameBugs (x y : Except Error (List (BugReport K V C))) : Prop :=
  ∃ bs bs', x = .ok bs ∧ y = .ok bs' ∧ ∀ b, b ∈ bs ↔ b ∈ bs'

omit [DecidableEq K] [DecidableEq V] [DecidableEq C] [SetOrder C] in
theorem SameBugs.of_ok {x : Except Error (List (BugReport K V C))}
    {bs : List (BugReport K V C)} (h : x = .ok bs) : SameBugs x x :=
  ⟨bs, bs, h, h, fun _ => Iff.rfl⟩

omit [DecidableEq K] [DecidableEq V] [DecidableEq C] [SetOrder C] in
/-- Loops over lists whose elements match up make the same reports. -/
theorem SameBugs.gather {A B : Type} {f : A → Except Error (List (BugReport K V C))}
    {g : B → Except Error (List (BugReport K V C))} {as : List A} {bs : List B}
    (hab : ∀ a ∈ as, ∃ b ∈ bs, SameBugs (f a) (g b)) (hba : ∀ b ∈ bs, ∃ a ∈ as, SameBugs (f a) (g b)) :
    SameBugs (gather f as) (gather g bs) := by
  have hf : ∀ a ∈ as, ∃ l, f a = .ok l := fun a ha => by
    obtain ⟨b, -, l, l', hl, -⟩ := hab a ha
    exact ⟨l, hl⟩
  have hg : ∀ b ∈ bs, ∃ l, g b = .ok l := fun b hb => by
    obtain ⟨a, -, l, l', -, hl', -⟩ := hba b hb
    exact ⟨l', hl'⟩
  obtain ⟨l, hl⟩ := gather_ok hf
  obtain ⟨l', hl'⟩ := gather_ok hg
  refine ⟨l, l', hl, hl', fun x => ?_⟩
  rw [mem_gather hl, mem_gather hl']
  constructor
  · rintro ⟨a, ha, m, hm, hx⟩
    obtain ⟨b, hb, n, n', hn, hn', hiff⟩ := hab a ha
    have hmn : m = n := Except.ok.inj (hm.symm.trans hn)
    exact ⟨b, hb, n', hn', (hiff x).mp (hmn ▸ hx)⟩
  · rintro ⟨b, hb, m, hm, hx⟩
    obtain ⟨a, ha, n, n', hn, hn', hiff⟩ := hba b hb
    have hmn : m = n' := Except.ok.inj (hm.symm.trans hn')
    exact ⟨a, ha, n, hn, (hiff x).mpr (hmn ▸ hx)⟩

/-- The reports of a key do not depend on the order of its dictionary. -/
def Respects
    (keyBugs : Config → K → Store1 V C → Finset C → Except Error (List (BugReport K V C))) : Prop :=
  ∀ config key d e total, (∀ v, d.get? v = e.get? v) → total ≠ ∅ →
    SameBugs (keyBugs config key d total) (keyBugs config key e total)

omit [DecidableEq K] [DecidableEq V] [DecidableEq C] [SetOrder C] in
theorem quotient_ok {total : Finset C} (h : total ≠ ∅) (n : ℕ) :
    quotient n total.card = .ok ((n : ℚ) / total.card) :=
  if_neg (Finset.card_ne_zero.mpr (Finset.nonempty_iff_ne_empty.mpr h))

omit [DecidableEq K] [DecidableEq C] in
theorem ArgContext.respects : Respects (ArgContext.keyBugs : Config → K → Store1 Bool C → _) := by
  intro config key d e total h htotal
  have heq : ArgContext.keyBugs config key d total = ArgContext.keyBugs config key e total := by
    rw [ArgContext.keyBugs, ArgContext.keyBugs, h, h]
  rw [heq, ArgContext.keyBugs, quotient_ok htotal, ok_bind]
  split_ifs
  · exact SameBugs.of_ok rfl
  · exact SameBugs.of_ok rfl

omit [DecidableEq K] [DecidableEq C] in
theorem FSBContext.respects :
    Respects (FSBContext.keyBugs : Config → K → Store1 (Bool × Bool) C → _) := by
  intro config key d e total h htotal
  have hperm := Dict.entries_perm h
  have hsame : ∀ (n : ℕ) (x : (Bool × Bool) × Finset C), ∃ bs,
      (if x.1.1 then Except.ok []
      else do
        let score ← quotient n total.card
        if config.threshold ≤ score ∧ score ≠ 1 then .ok (reports score key x.1 x.2)
        else .ok []) = Except.ok bs := by
    intro n x
    rw [quotient_ok htotal, ok_bind]
    split_ifs
    · exact ⟨_, rfl⟩
    · exact ⟨_, rfl⟩
    · exact ⟨_, rfl⟩
  rw [FSBContext.keyBugs, FSBContext.keyBugs, countWhere_congr h]
  refine SameBugs.gather (fun a ha => ⟨a, hperm.mem_iff.mp ha, ?_⟩)
    fun b hb => ⟨b, hperm.mem_iff.mpr hb, ?_⟩
  · obtain ⟨bs, hbs⟩ := hsame (countWhere (fun ctx => ctx.1) e) a
    exact SameBugs.of_ok hbs
  · obtain ⟨bs, hbs⟩ := hsame (countWhere (fun ctx => ctx.1) e) b
    exact SameBugs.of_ok hbs

omit [DecidableEq K] [DecidableEq C] in
theorem IntOvflContext.respects :
    Respects (IntOvflContext.keyBugs : Config → K → Store1 IntOvflChkType C → _) := by
  intro config key d e total h htotal
  have hperm := Dict.entries_perm h
  rw [IntOvflContext.keyBugs, IntOvflContext.keyBugs, countWhere_congr h]
  by_cases hzero : countWhere (· == IntOvflChkType.correct) e = 0
  · rw [if_pos hzero, if_pos hzero]
    exact SameBugs.of_ok rfl
  rw [if_neg hzero, if_neg hzero, quotient_ok htotal, ok_bind]
  have hsame : ∀ (q : ℚ) (x : IntOvflChkType × Finset C), ∃ bs,
      (if x.1 = .correct then .ok [] else .ok (reports q key x.1 x.2) : Except Error _) = .ok bs := by
    intro q x
    split_ifs
    · exact ⟨_, rfl⟩
    · exact ⟨_, rfl⟩
  refine SameBugs.gather (fun a ha => ⟨a, hperm.mem_iff.mp ha, ?_⟩)
    fun b hb => ⟨b, hperm.mem_iff.mpr hb, ?_⟩
  · obtain ⟨bs, hbs⟩ := hsame _ a
    exact SameBugs.of_ok hbs
  · obtain ⟨bs, hbs⟩ := hsame _ b
    exact SameBugs.of_ok hbs

namespace Context

omit [DecidableEq C] [SetOrder C]

/-- Every key with a use of some value has a location. -/
def Covered (c : Context K V C) : Prop :=
  ∀ key value, c.ctxUses.get? key = some value → c.total key ≠ ∅

omit [DecidableEq V] in
theorem covered_new (config : Config) : (new config : Context K V C).Covered := by
  intro key value h
  cases h

variable [DecidableEq C]

theorem covered_add {c : Context K V C} (h : c.Covered) (key : K) (value : Option V) (code : C) :
    (c.add key value code).Covered := by
  intro k d hd
  have htotal : (c.add key value code).total k =
      if k = key then insert code (c.total key) else c.total k := by
    have hget := Dict.get?_upsert c.totalUses key k ∅ (insert code)
    rw [total, show (c.add key value code).totalUses.get? k = _ from hget]
    by_cases hk : k = key
    · rw [if_pos hk, if_pos hk]
      rfl
    · rw [if_neg hk, if_neg hk]
      rfl
  rw [htotal]
  by_cases hk : k = key
  · rw [if_pos hk]
    exact Finset.insert_ne_empty _ _
  rw [if_neg hk]
  apply h k d
  cases value with
  | none => exact hd
  | some v =>
    have hget : (c.add key (some v) code).ctxUses.get? k = c.ctxUses.get? k :=
      (Dict.get?_upsert _ _ _ _ _).trans (if_neg hk)
    rw [← hget]
    exact hd

theorem covered_addAll : ∀ {adds : List (Add K V C)} {c : Context K V C}, c.Covered →
    (c.addAll adds).Covered
  | [], _, h => h
  | a :: adds, c, h => by
    have hadd : (c.add a.key a.value a.code).Covered := covered_add h a.key a.value a.code
    have hrest : ((c.add a.key a.value a.code).addAll adds).Covered := covered_addAll hadd
    exact hrest

omit [DecidableEq C] in
theorem total_eq {c d : Context K V C} (h : c.view = d.view) (key : K) : c.total key = d.total key := by
  have hfst : c.totalUses.view = d.totalUses.view := congrArg Prod.fst h
  rw [total, total, Store1.view_eq_iff.mp hfst key]

omit [DecidableEq C] in
/-- Contexts with one view have the same keys, with equal dictionaries. -/
theorem exists_value {c d : Context K V C} (h : c.view = d.view) {key : K} {value : Store1 V C}
    (hc : c.ctxUses.get? key = some value) :
    ∃ value', d.ctxUses.get? key = some value' ∧ ∀ v, value.get? v = value'.get? v := by
  have hsnd : Store2.view c.ctxUses key = Store2.view d.ctxUses key := congrFun (congrArg Prod.snd h) key
  rw [Store2.view, Store2.view, Dict.view, Dict.view, hc] at hsnd
  cases hd : d.ctxUses.get? key with
  | none =>
    rw [hd] at hsnd
    cases hsnd
  | some value' =>
    rw [hd] at hsnd
    exact ⟨value', rfl, Store1.view_eq_iff.mp (Option.some.inj hsnd)⟩

omit [DecidableEq C] in
theorem Covered.of_view {c d : Context K V C} (h : c.view = d.view) (hd : d.Covered) : c.Covered := by
  intro key value hc
  obtain ⟨value', hvalue, -⟩ := exists_value h hc
  rw [total_eq h]
  exact hd key value' hvalue

omit [DecidableEq C] in
/-- **The view decides the reports.** -/
theorem sameBugs {keyBugs : Config → K → Store1 V C → Finset C → Except Error (List (BugReport K V C))}
    (hkey : Respects keyBugs) {c d : Context K V C} (hview : c.view = d.view)
    (hconfig : c.config = d.config) (hd : d.Covered) :
    SameBugs (c.getBugs keyBugs) (d.getBugs keyBugs) := by
  have hc : c.Covered := hd.of_view hview
  refine SameBugs.gather ?_ ?_
  · rintro ⟨key, value⟩ hmem
    obtain ⟨value', hvalue, heq⟩ := exists_value hview (Dict.mem_entries.mp hmem)
    refine ⟨(key, value'), Dict.mem_entries.mpr hvalue, ?_⟩
    rw [hconfig, total_eq hview]
    exact hkey _ _ _ _ _ heq (hd key value' hvalue)
  · rintro ⟨key, value⟩ hmem
    obtain ⟨value', hvalue, heq⟩ := exists_value hview.symm (Dict.mem_entries.mp hmem)
    refine ⟨(key, value'), Dict.mem_entries.mpr hvalue, ?_⟩
    rw [hconfig, total_eq hview]
    exact hkey _ _ _ _ _ (fun v => (heq v).symm) (hd key value (Dict.mem_entries.mp hmem))

end Context

end Apisan
