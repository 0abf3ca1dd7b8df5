/-
# Both ways of a condition

The engine assumes the condition of a branch to be true and to be false
(`assumeDual`). An execution that a state admits goes on in the state for the way
that it takes, if the condition is read as it is meant (`Meant`), and the values of
the symbols are split between the two ways, if it is decided both ways (`Decided`).
From several nodes a branch is taken up to the first one where it is infeasible
(`branchNodes_spec`), though it may be feasible again in a later one.

Key definitions: `ConditionSVal`, `assumeDual`, `getSymVal`, `checkNull`,
`processBranch`.
Key theorems: `assumeDual_admits`, `assumeDual_splits`, `getConcreteValue_iff`,
`checkNull_iff`, `branchNodes_spec`.
-/
import Apisan.Extractor.Executions

namespace Apisan
namespace Ento

/-- The `SVal` of a condition that is no location. -/
inductive ConditionSVal
  | unknown
  | undefined
  | nonLoc (val : NonLoc)
  deriving DecidableEq, Repr

variable {ρ : ℕ → ℤ} {ptrDiffTy conditionTy : QualType} {state : ProgramState} {sym : SymExpr} {assumption : Bool}

/-! ### Both ways -/

/-- `assumeDual`: the state with the condition true, and with it false. A state
that decides the condition stays as it is. -/
def assumeDual (ptrDiffTy : QualType) (state : ProgramState) (cond : NonLoc) :
    Option ProgramState × Option ProgramState :=
  match assume ptrDiffTy state cond true with
  | none => (none, some state)
  | some stTrue =>
    match assume ptrDiffTy state cond false with
    | none => (some state, none)
    | some stFalse => (some stTrue, some stFalse)

/-- One of two states. -/
def side (states : Option ProgramState × Option ProgramState) (branch : Bool) : Option ProgramState :=
  if branch then states.1 else states.2

/-- **An execution goes on** the way that its condition says. -/
theorem assumeDual_admits {L : Set SymExpr} {cond : NonLoc} (h : Admits L ρ state)
    (hmeant : cond.Meant ptrDiffTy ρ) (hL : ∀ sym ∈ cond.logged, sym ∈ L)
    (htrue : cond.eval ρ ≠ 0 ↔ assumption = true) :
    ∃ state', side (assumeDual ptrDiffTy state cond) assumption = some state' ∧ Admits L ρ state' := by
  obtain ⟨state', hassume, hadmits⟩ := assume_admits h hmeant hL htrue
  unfold side assumeDual
  cases assumption with
  | true =>
    rw [hassume]
    cases assume ptrDiffTy state cond false with
    | none => exact ⟨state, rfl, h⟩
    | some stFalse => exact ⟨state', rfl, hadmits⟩
  | false =>
    cases assume ptrDiffTy state cond true with
    | none => exact ⟨state, rfl, h⟩
    | some stTrue =>
      rw [hassume]
      exact ⟨state', rfl, hadmits⟩

/-- A condition is answered one way or the other. -/
theorem answers_or {cond : NonLoc} {v : SymExpr → ℤ} (h : Decided ptrDiffTy (cond, assumption))
    (hnot : ¬ Answers ptrDiffTy v (cond, assumption)) : Answers ptrDiffTy v (cond, !assumption) := by
  cases cond with
  | concreteInt value =>
    rw [answers_concreteInt] at hnot ⊢
    cases assumption <;> simpa using hnot
  | symbolVal cond =>
    rw [answers_symbolVal] at hnot ⊢
    push Not at hnot
    obtain ⟨q, hq, hholds⟩ := hnot
    have hfair := (h q hq).1
    obtain ⟨q', hq', rfl⟩ := Option.map_eq_some_iff.mp hq
    intro q hq
    rw [asked, hq'] at hq
    obtain rfl := Option.some.inj hq
    cases assumption with
    | true => exact (Question.negate_holds hfair.comparison _).mpr hholds
    | false =>
      by_contra hnot
      exact hholds ((Question.negate_holds (Opcode.isComparisonOp_negate.symm.trans hfair.comparison) _).mpr hnot)

/-- **A condition splits the values of the symbols**: whatever the state allows
is allowed by the successor for the answer that it gives, and a successor allows
nothing else. -/
theorem assumeDual_splits {cond : NonLoc} {v : SymExpr → ℤ} (hstate : state.Good)
    (h : ∀ branch, Decided ptrDiffTy (cond, branch)) (branch : Bool) :
    (∃ state' ∈ side (assumeDual ptrDiffTy state cond) branch, Allows state' v) ↔
      Allows state v ∧ Answers ptrDiffTy v (cond, branch) := by
  have hnone : ∀ b, assume ptrDiffTy state cond b = none → Allows state v → ¬ Answers ptrDiffTy v (cond, b) :=
    fun b hassume hv => (assume_exact (h b)).infeasible state hstate hassume v hv
  have hsome : ∀ b state', assume ptrDiffTy state cond b = some state' →
      (Allows state' v ↔ Allows state v ∧ Answers ptrDiffTy v (cond, b)) := fun b state' hassume =>
    ((assume_exact (h b)).feasible state state' hstate hassume).2 v
  -- the state stays as it is where the other way is infeasible
  have hstays : ∀ b, assume ptrDiffTy state cond (!b) = none →
      (Allows state v ↔ Allows state v ∧ Answers ptrDiffTy v (cond, b)) := fun b hassume => by
    refine ⟨fun hv => ⟨hv, ?_⟩, fun hv => hv.1⟩
    have hor := answers_or (h _) (hnone _ hassume hv)
    rwa [Bool.not_not] at hor
  have hno : ∀ b, assume ptrDiffTy state cond b = none →
      ((∃ state' ∈ (none : Option ProgramState), Allows state' v) ↔
        Allows state v ∧ Answers ptrDiffTy v (cond, b)) := fun b hassume => by
    refine iff_of_false (fun hex => ?_) fun hv => hnone b hassume hv.1 hv.2
    obtain ⟨_, hmem, -⟩ := hex
    cases hmem
  have hone : ∀ s : ProgramState, (∃ state' ∈ some s, Allows state' v) ↔ Allows s v := fun s => by simp
  unfold side assumeDual
  cases htrue : assume ptrDiffTy state cond true with
  | none =>
    cases branch with
    | true => exact hno true htrue
    | false => exact (hone state).trans (hstays false htrue)
  | some stTrue =>
    cases hfalse : assume ptrDiffTy state cond false with
    | none =>
      cases branch with
      | true => exact (hone state).trans (hstays true hfalse)
      | false => exact hno false hfalse
    | some stFalse =>
      cases branch with
      | true => exact (hone stTrue).trans (hsome true stTrue htrue)
      | false => exact (hone stFalse).trans (hsome false stFalse hfalse)

/-- `x > 0` is true or false. -/
theorem assumeDual_splits_paramX :
    (∃ state' ∈ side (assumeDual (.integer 64 false) .initial
        (.symbolVal (.symInt paramX .gt (intValue 0) intType))) false, Allows state' fun _ => 0) ↔
      Allows .initial (fun _ => 0) ∧ Answers (.integer 64 false) (fun _ => 0)
        (.symbolVal (.symInt paramX .gt (intValue 0) intType), false) :=
  assumeDual_splits good_initial (by decide +kernel) false

/-! ### Known values -/

/-- `RangeSet::getConcreteValue`: the value of a set with only one. -/
def RangeSet.getConcreteValue : RangeSet → Option APSInt
  | [r] => if r.first = r.second then some r.first else none
  | _ => none

/-- `getSymVal`: the value that a symbol must have, if it is recorded. -/
def getSymVal (state : ProgramState) (sym : SymExpr) : Option APSInt :=
  (state.constraintRange sym).bind RangeSet.getConcreteValue

/-- `checkNull`: whether a symbol is zero, if its ranges decide that. -/
def checkNull (state : ProgramState) (sym : SymExpr) : Option Bool :=
  match state.constraintRange sym with
  | none => none
  | some ranges =>
    match ranges.getConcreteValue with
    | some value => some (decide (value.bits = 0))
    | none =>
      let zero := sym.getType.getAPSIntType.getZeroValue
      if ranges.intersect zero zero = [] then some false else none

/-- **A set has a concrete value** exactly if that is its only one. -/
theorem getConcreteValue_iff {t : APSIntType} {ranges : RangeSet} {c : APSInt} (h : ranges.Proper t)
    (hc : c.type = t) : ranges.getConcreteValue = some c ↔ ranges.points = {c.value} := by
  constructor
  · intro hconcrete
    unfold RangeSet.getConcreteValue at hconcrete
    split at hconcrete
    · next r =>
      split_ifs at hconcrete with heq
      obtain rfl := Option.some.inj hconcrete
      ext x
      show x ∈ Intervals.points [(r.first.value, r.second.value)] ↔ x = r.first.value
      rw [Intervals.mem_points_cons, Intervals.points_nil, ← heq]
      simp only [Set.mem_empty_iff_false, or_false]
      omega
    · cases hconcrete
  · intro hpoints
    have hbounds : ∀ r ∈ ranges, r.first.value = c.value ∧ r.second.value = c.value := by
      intro r hr
      have hmem : (r.first.value, r.second.value) ∈ ranges.values := List.mem_map.mpr ⟨r, hr, rfl⟩
      have hle : r.first.value ≤ r.second.value := h.ordered.nonempty _ hmem
      have hfirst : r.first.value ∈ ranges.points := ⟨_, hmem, le_rfl, hle⟩
      have hsecond : r.second.value ∈ ranges.points := ⟨_, hmem, hle, le_rfl⟩
      rw [hpoints] at hfirst hsecond
      exact ⟨hfirst, hsecond⟩
    cases ranges with
    | nil =>
      have hc' : c.value ∈ RangeSet.points [] := hpoints ▸ rfl
      obtain ⟨p, hp, -⟩ := hc'
      exact (List.not_mem_nil hp).elim
    | cons r rest =>
      obtain ⟨hfirst, hsecond⟩ := hbounds r List.mem_cons_self
      obtain ⟨htype, htype'⟩ := h.typed r List.mem_cons_self
      cases rest with
      | nil =>
        have hr : r.first = r.second := APSInt.eq_of_value (htype.trans htype'.symm) (hfirst.trans hsecond.symm)
        have hrc : r.first = c := APSInt.eq_of_value (htype.trans hc.symm) hfirst
        show (if r.first = r.second then some r.first else none) = some c
        rw [if_pos hr, hrc]
      | cons s rest =>
        -- the next range would begin later
        have hlt := (Intervals.Ordered.cons_iff.mp h.ordered).2.1 (s.first.value, s.second.value)
          List.mem_cons_self
        have hs := (hbounds s (List.mem_cons_of_mem _ List.mem_cons_self)).1
        have hlt' : r.second.value < s.first.value := hlt
        omega

/-- **Whether a symbol is null** is known exactly if its values, which are
recorded, are all zero or all not zero. -/
theorem checkNull_iff {state : ProgramState} {sym : SymExpr} {b : Bool} (hstate : state.Good)
    (hpos : 0 < sym.getType.getAPSIntType.bitWidth) : checkNull state sym = some b ↔
      state.constraintRange sym ≠ none ∧ ∀ x ∈ state.values sym, (x = 0 ↔ b = true) := by
  unfold checkNull
  cases hranges : state.constraintRange sym with
  | none => exact iff_of_false (fun h => by cases h) fun h => h.1 rfl
  | some ranges =>
    have hproper := hstate sym ranges hranges
    have hvalues : state.values sym = ranges.points := by rw [ProgramState.values, getRange, hranges]
    have hnonempty : ranges.points.Nonempty := hvalues ▸ values_nonempty hstate hpos
    rw [hvalues]
    refine Iff.trans ?_ (and_iff_right (Option.some_ne_none ranges)).symm
    simp only
    cases hconcrete : ranges.getConcreteValue with
    | some c =>
      obtain ⟨r, hr, rfl⟩ : ∃ r ∈ ranges, r.first = c := by
        unfold RangeSet.getConcreteValue at hconcrete
        split at hconcrete
        · next r =>
          split_ifs at hconcrete
          exact ⟨r, List.mem_cons_self, Option.some.inj hconcrete⟩
        · cases hconcrete
      rw [(getConcreteValue_iff hproper (hproper.typed r hr).1).mp hconcrete]
      have hbits : r.first.bits = 0 ↔ r.first.value = 0 := not_iff_not.mp APSInt.bits_ne_zero_iff
      simp only [Option.some.injEq, Set.mem_singleton_iff, forall_eq, ← hbits]
      cases b <;> simp
    | none =>
      have hspec := RangeSet.intersect_spec hproper (.refl hpos) (APSIntType.type_getZeroValue _)
        (APSIntType.type_getZeroValue _)
      have hzero : (0 : ℤ) ∈ sym.getType.getAPSIntType.window :=
        APSIntType.value_getZeroValue _ ▸ sym.getType.getAPSIntType.getZeroValue.value_mem
      have harc : ∀ x, x ∈ Intervals.arc sym.getType.getAPSIntType.getZeroValue.value
          sym.getType.getAPSIntType.getZeroValue.value ↔ x = 0 := fun x => by
        rw [Intervals.mem_arc_of_le le_rfl, APSIntType.value_getZeroValue]
        omega
      have hmem : ranges.intersect sym.getType.getAPSIntType.getZeroValue
          sym.getType.getAPSIntType.getZeroValue = [] ↔ 0 ∉ ranges.points := by
        rw [← RangeSet.points_eq_empty hspec.proper, Set.eq_empty_iff_forall_notMem]
        constructor
        · intro hempty hx
          refine hempty 0 (hspec.keeps 0 hx ?_)
          rw [harc, Window.wrap_of_mem hzero]
        · intro hnot x hx
          have hx' := hspec.sub x hx
          have hwindow := RangeSet.mem_window_of_mem_points hproper hx'
          have hzero' := hspec.exact (fun hout => hout.2 (APSIntType.within_of_mem hpos (APSInt.value_mem _))) x hx
          rw [harc, Window.wrap_of_mem hwindow] at hzero'
          exact hnot (hzero' ▸ hx')
      obtain ⟨x, hx⟩ := hnonempty
      by_cases hempty : 0 ∈ ranges.points
      · rw [if_neg (fun h => hmem.mp h hempty)]
        refine iff_of_false (fun h => by cases h) fun hall => ?_
        -- zero would be the only value
        have hb : b = true := (hall 0 hempty).mp rfl
        have honly : ranges.points = {sym.getType.getAPSIntType.getZeroValue.value} := by
          rw [APSIntType.value_getZeroValue]
          ext y
          exact ⟨fun hy => (hall y hy).mpr hb, fun hy => hy ▸ hempty⟩
        rw [(getConcreteValue_iff hproper (APSIntType.type_getZeroValue _)).mpr honly] at hconcrete
        cases hconcrete
      · rw [if_pos (hmem.mpr hempty)]
        have hne : ∀ y ∈ ranges.points, y ≠ 0 := fun y hy h => hempty (h ▸ hy)
        cases b with
        | false => exact iff_of_true rfl fun y hy => iff_of_false (hne y hy) (by decide)
        | true => exact iff_of_false (fun h => by cases h) fun hall => hne x hx ((hall x hx).mpr rfl)

/-- `x` is zero. -/
def zeroX : ProgramState := ProgramState.initial.setRange paramX [⟨intValue 0, intValue 0⟩] (by decide)

theorem checkNull_iff_zeroX : checkNull zeroX paramX = some true ↔
    zeroX.constraintRange paramX ≠ none ∧ ∀ x ∈ zeroX.values paramX, (x = 0 ↔ true = true) := by
  have hranges : RangeSet.Proper paramX.getType.getAPSIntType [⟨intValue 0, intValue 0⟩] := by
    refine ⟨fun r hr => ?_, Intervals.Ordered.singleton le_rfl⟩
    rw [List.mem_singleton.mp hr]
    exact ⟨rfl, rfl⟩
  exact checkNull_iff (ProgramState.good_setRange good_initial hranges) (by decide)

/-! ### Branches -/

/-- `BranchNodeBuilder`: the branches that are infeasible. -/
structure BranchNodeBuilder where
  inFeasibleTrue : Bool
  inFeasibleFalse : Bool
  deriving DecidableEq, Repr

namespace BranchNodeBuilder

def isFeasible (builder : BranchNodeBuilder) (branch : Bool) : Bool :=
  if branch then !builder.inFeasibleTrue else !builder.inFeasibleFalse

def markInfeasible (builder : BranchNodeBuilder) (branch : Bool) : BranchNodeBuilder :=
  if branch then { builder with inFeasibleTrue := true } else { builder with inFeasibleFalse := true }

def generateNode (builder : BranchNodeBuilder) (state : ProgramState) (branch : Bool) : List (Bool × ProgramState) :=
  if builder.isFeasible branch then [(branch, state)] else []

/-- Process one branch: a node for the state, or the branch is infeasible from
here on. -/
def process (builder : BranchNodeBuilder) (branch : Bool) (state : Option ProgramState) :
    List (Bool × ProgramState) × BranchNodeBuilder :=
  if builder.isFeasible branch then
    match state with
    | some state => (builder.generateNode state branch, builder)
    | none => ([], builder.markInfeasible branch)
  else ([], builder)

end BranchNodeBuilder

/-- The loop of `processBranch` over the nodes that the checkers leave: their
states, and the condition in each. -/
def branchNodes (ptrDiffTy : QualType) :
    BranchNodeBuilder → List (ProgramState × ConditionSVal) → List (Bool × ProgramState)
  | _, [] => []
  | builder, (prevState, x) :: preds =>
    match x with
    | .nonLoc v =>
      let states := assumeDual ptrDiffTy prevState v
      let (nodesTrue, builder) := builder.process true states.1
      let (nodesFalse, builder) := builder.process false states.2
      nodesTrue ++ nodesFalse ++ branchNodes ptrDiffTy builder preds
    | _ => builder.generateNode prevState true ++ builder.generateNode prevState false ++
        branchNodes ptrDiffTy builder preds

/-- `processBranch`, on the blocks that there are for the branches. Without a
condition the true branch is taken, with the state of the one node. -/
def processBranch (ptrDiffTy : QualType) (dstT dstF : Bool) :
    Option (List (ProgramState × ConditionSVal)) → ProgramState → List (Bool × ProgramState)
  | none, state => ((BranchNodeBuilder.mk (!dstT) (!dstF)).markInfeasible false).generateNode state true
  | some preds, _ => branchNodes ptrDiffTy ⟨!dstT, !dstF⟩ preds

/-- The state after one way of a condition. -/
def successor (ptrDiffTy : QualType) (branch : Bool) (pred : ProgramState × ConditionSVal) : Option ProgramState :=
  match pred.2 with
  | .nonLoc v => side (assumeDual ptrDiffTy pred.1 v) branch
  | _ => some pred.1

namespace BranchNodeBuilder

variable {builder : BranchNodeBuilder} {branch : Bool}

@[simp] theorem isFeasible_markInfeasible (b : Bool) : (builder.markInfeasible b).isFeasible branch =
    (builder.isFeasible branch && (branch != b)) := by
  cases b <;> cases branch <;> simp [isFeasible, markInfeasible]

theorem mem_generateNode {b : Bool} {s : ProgramState} :
    (branch, s) ∈ builder.generateNode state b ↔ builder.isFeasible b = true ∧ branch = b ∧ s = state := by
  unfold generateNode
  split_ifs with h <;> simp [h]

/-- A branch stays feasible as long as there is a state for it. -/
theorem isFeasible_process {b : Bool} {s : Option ProgramState} :
    (builder.process b s).2.isFeasible branch = (builder.isFeasible branch && (branch != b || s.isSome)) := by
  unfold process
  split_ifs with h
  · cases s with
    | some s => simp
    | none => simp
  · by_cases hb : branch = b
    · subst hb
      simp [h]
    · simp [hb]

theorem mem_process {b : Bool} {s : Option ProgramState} :
    (branch, state) ∈ (builder.process b s).1 ↔ builder.isFeasible b = true ∧ branch = b ∧ s = some state := by
  unfold process
  split_ifs with h
  · cases s with
    | some s => simp [mem_generateNode, h, eq_comm]
    | none => simp
  · simp [h]

end BranchNodeBuilder

/-- An element with a property after elements with another one. -/
def Reaches {α : Type*} (passes : α → Prop) (stops : α → Prop) (xs : List α) : Prop :=
  ∃ before x after, xs = before ++ x :: after ∧ (∀ y ∈ before, passes y) ∧ stops x

theorem reaches_cons {α : Type*} {passes stops : α → Prop} {x : α} {xs : List α} :
    Reaches passes stops (x :: xs) ↔ stops x ∨ (passes x ∧ Reaches passes stops xs) := by
  constructor
  · rintro ⟨before, y, after, heq, hbefore, hy⟩
    cases before with
    | nil =>
      obtain ⟨rfl, -⟩ := List.cons.inj heq
      exact .inl hy
    | cons b before =>
      obtain ⟨rfl, rfl⟩ := List.cons.inj heq
      rw [List.forall_mem_cons] at hbefore
      exact .inr ⟨hbefore.1, before, y, after, rfl, hbefore.2, hy⟩
  · rintro (hx | ⟨hx, before, y, after, rfl, hbefore, hy⟩)
    · exact ⟨[], x, xs, rfl, fun y hy => (List.not_mem_nil hy).elim, hx⟩
    · exact ⟨x :: before, y, after, rfl, List.forall_mem_cons.mpr ⟨hx, hbefore⟩, hy⟩

/-- **The nodes of a branch.** A branch that is infeasible in one node is not
taken from the nodes after it. -/
theorem branchNodes_spec {builder : BranchNodeBuilder} {preds : List (ProgramState × ConditionSVal)}
    {branch : Bool} : (branch, state) ∈ branchNodes ptrDiffTy builder preds ↔
      builder.isFeasible branch = true ∧
        Reaches (fun pred => (successor ptrDiffTy branch pred).isSome)
          (fun pred => successor ptrDiffTy branch pred = some state) preds := by
  induction preds generalizing builder with
  | nil =>
    refine iff_of_false (List.not_mem_nil) fun h => ?_
    obtain ⟨-, before, pred, after, heq, -⟩ := h
    exact List.append_ne_nil_of_right_ne_nil before (List.cons_ne_nil pred after) heq.symm
  | cons p preds ih =>
    obtain ⟨prevState, x⟩ := p
    have hsome : some prevState = some state ↔ state = prevState :=
      ⟨fun h => (Option.some.inj h).symm, fun h => congrArg some h.symm⟩
    rw [reaches_cons]
    unfold branchNodes
    cases x with
    | nonLoc v =>
      simp only [List.mem_append, BranchNodeBuilder.mem_process, ih, BranchNodeBuilder.isFeasible_process]
      show _ ↔ _ ∧ (side (assumeDual ptrDiffTy prevState v) branch = some state ∨
        ((side (assumeDual ptrDiffTy prevState v) branch).isSome ∧ _))
      cases branch with
      | true =>
        show _ ↔ _ ∧ ((assumeDual ptrDiffTy prevState v).1 = some state ∨
          ((assumeDual ptrDiffTy prevState v).1.isSome ∧ _))
        simp
        tauto
      | false =>
        show _ ↔ _ ∧ ((assumeDual ptrDiffTy prevState v).2 = some state ∨
          ((assumeDual ptrDiffTy prevState v).2.isSome ∧ _))
        simp
        tauto
    | unknown =>
      simp only [List.mem_append, BranchNodeBuilder.mem_generateNode, ih]
      show _ ↔ _ ∧ (some prevState = some state ∨ ((some prevState).isSome = true ∧ _))
      rw [hsome]
      cases branch <;> simp <;> tauto
    | undefined =>
      simp only [List.mem_append, BranchNodeBuilder.mem_generateNode, ih]
      show _ ↔ _ ∧ (some prevState = some state ∨ ((some prevState).isSome = true ∧ _))
      rw [hsome]
      cases branch <;> simp <;> tauto

end Ento
end Apisan
