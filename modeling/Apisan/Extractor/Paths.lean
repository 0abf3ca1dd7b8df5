/-
# The paths of the engine

Along a path calls are logged, dead symbols forgotten, conditions assumed, and
branches and switches taken. A path loses no execution that takes it and in which
its conditions are read as they are meant (`Meant`, and `Distinguishes` for the
equalities of a switch): some state at its end has recorded ranges with the symbols'
values, and so have all ranges that were logged on the way (`explore_admits`).

Key definitions: `Step`, `explore`, `Step.Taken`.
Key theorems: `Step.states_admits`, `Step.states_calls`, `explore_admits`.
-/
import Apisan.Extractor.Switches

namespace Apisan
namespace Ento

variable {L : Set SymExpr} {ρ : ℕ → ℤ} {ptrDiffTy conditionTy : QualType} {state : ProgramState} {assumption : Bool}

/-- What happens in a state along a path: a call is logged, dead symbols are
forgotten, a checker assumes something, or a branch or a switch goes one way. -/
inductive Step
  | event (e : SymExecEvent)
  | removeDeadBindings (maybeDead : SymExpr → Bool)
  | assume (cond : NonLoc) (assumption : Bool)
  | branch (cond : Option ConditionSVal) (dstT dstF branch : Bool)
  | switch (cond : ConditionSVal) (defaultBlock allEnumCasesCovered : Bool) (cases : List Case) (choice : Option ℕ)

def ConditionSVal.logged : ConditionSVal → List SymExpr
  | nonLoc val => val.logged
  | _ => []

/-- The symbols whose ranges may be logged in a step. -/
def Step.logged (conditionTy : QualType) : Step → List SymExpr
  | assume cond _ => cond.logged
  | branch (some cond) _ _ _ => cond.logged
  | switch (.nonLoc cond) _ _ cases _ => (caseConstants cases).flatMap fun p => loggedEQ conditionTy cond p.2
  | _ => []

/-- `removeDeadBindings`: the ranges of dead symbols are forgotten. -/
def removeDeadBindings (state : ProgramState) (maybeDead : SymExpr → Bool) : ProgramState where
  constraintRange s := if maybeDead s then none else state.constraintRange s
  eventList := state.eventList
  range_ne_nil s := by
    split_ifs
    · exact fun h => by cases h
    · exact state.range_ne_nil s

/-- The states after a step. -/
def Step.states (ptrDiffTy conditionTy : QualType) (state : ProgramState) : Step → List ProgramState
  | event e => [state.addEvent e]
  | removeDeadBindings maybeDead => [Ento.removeDeadBindings state maybeDead]
  | assume cond assumption => (Ento.assume ptrDiffTy state cond assumption).toList
  | branch cond dstT dstF b =>
    ((processBranch ptrDiffTy dstT dstF (cond.map fun x => [(state, x)]) state).filter (·.1 = b)).map Prod.snd
  | switch cond defaultBlock allEnumCasesCovered cases choice =>
    let nodes := processSwitch ptrDiffTy conditionTy defaultBlock allEnumCasesCovered cases state cond
    match choice with
    | some i => (nodes.1.filter (·.1 = i)).map Prod.snd
    | none => nodes.2.toList

/-- The states at the end of a path. -/
def explore (ptrDiffTy conditionTy : QualType) (steps : List Step) (state : ProgramState) : List ProgramState :=
  Assumption.explore (fun state step => step.states ptrDiffTy conditionTy state) steps state

/-- An execution goes one way at a condition. -/
def Goes (ptrDiffTy : QualType) (ρ : ℕ → ℤ) (branch : Bool) : ConditionSVal → Prop
  | .nonLoc val => val.Meant ptrDiffTy ρ ∧ (val.eval ρ ≠ 0 ↔ branch = true)
  | _ => True

/-- An execution takes a case of a switch, or the default one. -/
def Chooses (ptrDiffTy conditionTy : QualType) (ρ : ℕ → ℤ) (items : List (ℕ × APSInt)) (choice : Option ℕ) :
    ConditionSVal → Prop
  | .nonLoc val => (∀ p ∈ items, Distinguishes ptrDiffTy conditionTy ρ val p.2) ∧ choice = taken ρ val items
  | .unknown => ∀ i ∈ choice, ∃ p ∈ items, p.1 = i
  | .undefined => False

/-- **An execution takes a step**: what is assumed is true of it, and read as it is
meant, and the graph has the blocks on its way. -/
def Step.Taken (ptrDiffTy conditionTy : QualType) (ρ : ℕ → ℤ) : Step → Prop
  | event e => e.kind ≠ .assume
  | removeDeadBindings _ => True
  | assume cond assumption => cond.Meant ptrDiffTy ρ ∧ (cond.eval ρ ≠ 0 ↔ assumption = true)
  | branch cond dstT dstF b =>
    (if b then dstT else dstF) = true ∧ (cond = none → b = true) ∧ ∀ x ∈ cond, Goes ptrDiffTy ρ b x
  | switch cond defaultBlock allEnumCasesCovered cases choice =>
    Chooses ptrDiffTy conditionTy ρ (caseConstants cases) choice cond ∧
      (choice = none → defaultBlock = true ∧ allEnumCasesCovered = false ∧
        (caseConstants cases = [] → cases = []))

theorem Admits.removeDeadBindings (h : Admits L ρ state) (maybeDead : SymExpr → Bool) :
    Admits L ρ (removeDeadBindings state maybeDead) := by
  have hranges : ∀ sym ranges, (Ento.removeDeadBindings state maybeDead).constraintRange sym = some ranges →
      state.constraintRange sym = some ranges := by
    intro sym ranges hget
    have hget' : (if maybeDead sym then none else state.constraintRange sym) = some ranges := hget
    split_ifs at hget'
    exact hget'
  exact ⟨fun sym ranges hget => h.good sym ranges (hranges sym ranges hget),
    fun sym ranges hget => h.ranges sym ranges (hranges sym ranges hget), h.logged⟩

/-- The way that an execution goes has a state. -/
theorem successor_admits {x : ConditionSVal} {branch : Bool} (h : Admits L ρ state) (hgoes : Goes ptrDiffTy ρ branch x)
    (hL : ∀ sym ∈ x.logged, sym ∈ L) :
    ∃ state', successor ptrDiffTy branch (state, x) = some state' ∧ Admits L ρ state' := by
  cases x with
  | nonLoc val => exact assumeDual_admits h hgoes.1 hL hgoes.2
  | unknown => exact ⟨state, rfl, h⟩
  | undefined => exact ⟨state, rfl, h⟩

/-- A step that an execution takes leads to a state that admits it. -/
theorem Step.states_admits {step : Step} (h : Admits L ρ state) (htaken : step.Taken ptrDiffTy conditionTy ρ)
    (hL : ∀ sym ∈ step.logged conditionTy, sym ∈ L) :
    ∃ state' ∈ step.states ptrDiffTy conditionTy state, Admits L ρ state' := by
  cases step with
  | event e => exact ⟨_, List.mem_singleton_self _, h.addEvent fun he => absurd he htaken⟩
  | removeDeadBindings maybeDead => exact ⟨_, List.mem_singleton_self _, h.removeDeadBindings maybeDead⟩
  | assume cond assumption =>
    obtain ⟨state', hassume, hadmits⟩ := assume_admits h htaken.1 hL htaken.2
    exact ⟨state', Option.mem_toList.mpr hassume, hadmits⟩
  | branch cond dstT dstF b =>
    obtain ⟨hblock, hnone, hgoes⟩ := htaken
    have hstates : ∀ state', (b, state') ∈ processBranch ptrDiffTy dstT dstF (cond.map fun x => [(state, x)]) state →
        state' ∈ Step.states ptrDiffTy conditionTy state (.branch cond dstT dstF b) := fun state' hmem =>
      List.mem_map.mpr ⟨_, List.mem_filter.mpr ⟨hmem, decide_eq_true rfl⟩, rfl⟩
    have hfeasible : (BranchNodeBuilder.mk (!dstT) (!dstF)).isFeasible b = true := by
      cases b <;> simpa [BranchNodeBuilder.isFeasible] using hblock
    cases cond with
    | none =>
      obtain rfl := hnone rfl
      refine ⟨state, hstates state ?_, h⟩
      refine BranchNodeBuilder.mem_generateNode.mpr ⟨?_, rfl, rfl⟩
      rw [BranchNodeBuilder.isFeasible_markInfeasible, hfeasible]
      rfl
    | some x =>
      obtain ⟨state', hsucc, hadmits⟩ := successor_admits h (hgoes x rfl) hL
      refine ⟨state', hstates state' (branchNodes_spec.mpr ⟨hfeasible, ?_⟩), hadmits⟩
      exact reaches_cons.mpr (.inl hsucc)
  | switch cond defaultBlock covered cases choice =>
    obtain ⟨hchooses, hdefault⟩ := htaken
    cases cond with
    | undefined => exact hchooses.elim
    | unknown =>
      have hnodes : switchCases ptrDiffTy conditionTy state .unknown (caseConstants cases) (some state)
          cases.isEmpty = _ := switchCases_unknown
      cases choice with
      | none =>
        obtain ⟨hblock, hcovered, hcases⟩ := hdefault rfl
        refine ⟨state, Option.mem_toList.mpr ?_, h⟩
        show (if covered || !defaultBlock then none else _) = some state
        rw [hcovered, hblock, hnodes]
        have hnot : ¬ (caseConstants cases = [] ∧ cases.isEmpty = false) := fun hpruned => by
          rw [hcases hpruned.1] at hpruned
          cases hpruned.2
        exact if_neg hnot
      | some i =>
        obtain ⟨p, hp, rfl⟩ := hchooses i rfl
        refine ⟨state, List.mem_map.mpr ⟨(p.1, state), List.mem_filter.mpr ⟨?_, decide_eq_true rfl⟩, rfl⟩, h⟩
        show (p.1, state) ∈ (switchCases ptrDiffTy conditionTy state .unknown (caseConstants cases) (some state)
          cases.isEmpty).1
        rw [hnodes]
        exact List.mem_map.mpr ⟨p, hp, rfl⟩
    | nonLoc val =>
      obtain ⟨hmeant, rfl⟩ := hchooses
      have hcases : ∀ p ∈ caseConstants cases, ∀ s ∈ loggedEQ conditionTy val p.2, s ∈ L := fun p hp s hs =>
        hL s (List.mem_flatMap.mpr ⟨p, hp, hs⟩)
      obtain ⟨hcase, hrest⟩ := switchCases_admits cases.isEmpty h h hmeant hcases
      cases htaken : taken ρ val (caseConstants cases) with
      | none =>
        obtain ⟨hblock, hcovered, hcases⟩ := hdefault htaken
        obtain ⟨state', hstate', hadmits⟩ := hrest htaken fun hnil => List.isEmpty_iff.mpr (hcases hnil)
        refine ⟨state', Option.mem_toList.mpr ?_, hadmits⟩
        show (if covered || !defaultBlock then none else _) = some state'
        rw [hcovered, hblock]
        exact hstate'
      | some i =>
        obtain ⟨state', hmem, hadmits⟩ := hcase i htaken
        exact ⟨state', List.mem_map.mpr ⟨_, List.mem_filter.mpr ⟨hmem, decide_eq_true rfl⟩, rfl⟩, hadmits⟩

/-- The events of a log that are no conditions. -/
def ProgramState.calls (state : ProgramState) : List SymExecEvent := state.eventList.filter (·.kind ≠ .assume)

/-- The event of a step. -/
def Step.call : Step → List SymExecEvent
  | event e => [e]
  | _ => []

theorem assume_calls {state' : ProgramState} {cond : NonLoc}
    (h : assume ptrDiffTy state cond assumption = some state') : state'.calls = state.calls := by
  obtain ⟨mid, hmid, rfl⟩ := Option.map_eq_some_iff.mp h
  have hevents : mid.eventList = state.eventList := by
    cases cond with
    | concreteInt value =>
      unfold assumeAux at hmid
      simp only at hmid
      split_ifs at hmid
      rw [← Option.some.inj hmid]
    | symbolVal cond =>
      rw [assumeAux_eq] at hmid
      cases hq : asked ptrDiffTy cond assumption with
      | none =>
        rw [hq] at hmid
        rw [← Option.some.inj hmid]
      | some q =>
        rw [hq] at hmid
        obtain rfl | ⟨ranges, hne, rfl⟩ := assumeQuestion_narrows hmid
        · rfl
        · rfl
  have hlogged : (evalAssume mid cond assumption).calls = mid.calls := by
    cases cond with
    | concreteInt value => rfl
    | symbolVal cond =>
      cases cond with
      | symInt lhs op rhs type =>
        rw [evalAssume_symInt]
        cases mid.constraintRange lhs <;> rfl
      | data id type text => rfl
      | intSym lhs op rhs type => rfl
      | symSym lhs op rhs type => rfl
      | cast operand fromTy toTy => rfl
  rw [hlogged, ProgramState.calls, ProgramState.calls, hevents]

theorem successor_calls {state' : ProgramState} {x : ConditionSVal} {branch : Bool}
    (h : successor ptrDiffTy branch (state, x) = some state') : state'.calls = state.calls := by
  have hsame : some state = some state' → state'.calls = state.calls := fun hs => by rw [Option.some.inj hs]
  cases x with
  | unknown => exact hsame h
  | undefined => exact hsame h
  | nonLoc val =>
    have hside : side (assumeDual ptrDiffTy state val) branch = some state' := h
    unfold side assumeDual at hside
    cases htrue : assume ptrDiffTy state val true with
    | none =>
      rw [htrue] at hside
      cases branch with
      | true => cases hside
      | false => rw [Option.some.inj hside]
    | some stTrue =>
      cases hfalse : assume ptrDiffTy state val false with
      | none =>
        rw [htrue, hfalse] at hside
        cases branch with
        | true => rw [Option.some.inj hside]
        | false => cases hside
      | some stFalse =>
        rw [htrue, hfalse] at hside
        cases branch with
        | true => rw [← Option.some.inj hside, assume_calls htrue]
        | false => rw [← Option.some.inj hside, assume_calls hfalse]

theorem conditionSVal_assume_calls {state' : ProgramState} {cond : ConditionSVal}
    (h : cond.assume ptrDiffTy state assumption = some state') : state'.calls = state.calls := by
  cases cond with
  | nonLoc val => exact assume_calls h
  | unknown => rw [Option.some.inj h]
  | undefined => rw [Option.some.inj h]

theorem switchCases_calls {cond : ConditionSVal} {items : List (ℕ × APSInt)} {defaultSt : Option ProgramState}
    {feasible : Bool} (hdefault : ∀ s ∈ defaultSt, s.calls = state.calls) :
    (∀ p ∈ (switchCases ptrDiffTy conditionTy state cond items defaultSt feasible).1, p.2.calls = state.calls) ∧
      ∀ s ∈ (switchCases ptrDiffTy conditionTy state cond items defaultSt feasible).2, s.calls = state.calls := by
  induction items generalizing defaultSt feasible with
  | nil =>
    refine ⟨fun p hp => (List.not_mem_nil hp).elim, fun s hs => ?_⟩
    unfold switchCases at hs
    split_ifs at hs
    · exact hdefault s hs
    · cases hs
  | cons p items ih =>
    obtain ⟨i, v⟩ := p
    unfold switchCases
    simp only
    generalize evalEQ conditionTy (defaultSt.getD state) cond v = res
    have hnode : ∀ p ∈ (res.assume ptrDiffTy state true).toList.map fun s => (i, s), p.2.calls = state.calls := by
      intro p hp
      obtain ⟨s, hs, rfl⟩ := List.mem_map.mp hp
      exact conditionSVal_assume_calls (Option.mem_toList.mp hs)
    split_ifs
    · exact ⟨hnode, fun s hs => by cases hs⟩
    all_goals
      have hnew : ∀ s ∈ defaultSt.bind fun defaultSt => res.assume ptrDiffTy defaultSt false,
          s.calls = state.calls := fun s hs => by
        obtain ⟨d, hd, hassume⟩ := Option.bind_eq_some_iff.mp hs
        exact (conditionSVal_assume_calls hassume).trans (hdefault d hd)
      refine ⟨fun p hp => ?_, (ih hnew).2⟩
      rcases List.mem_append.mp hp with hp | hp
      · exact hnode p hp
      · exact (ih hnew).1 p hp

theorem processSwitch_calls {cond : ConditionSVal} {defaultBlock covered : Bool} {cases : List Case} :
    (∀ p ∈ (processSwitch ptrDiffTy conditionTy defaultBlock covered cases state cond).1, p.2.calls = state.calls) ∧
      ∀ s ∈ (processSwitch ptrDiffTy conditionTy defaultBlock covered cases state cond).2, s.calls = state.calls := by
  have hself : ∀ s ∈ some state, s.calls = state.calls := fun s hs => by rw [Option.some.inj hs]
  unfold processSwitch
  cases cond with
  | undefined => exact ⟨fun p hp => (List.not_mem_nil hp).elim, fun s hs => by cases hs⟩
  | unknown | nonLoc =>
    refine ⟨(switchCases_calls hself).1, fun s hs => ?_⟩
    simp only at hs
    split_ifs at hs
    · cases hs
    · exact (switchCases_calls hself).2 s hs

/-- A step logs its call. -/
theorem Step.states_calls {step : Step} (hcall : ∀ e ∈ step.call, e.kind ≠ .assume) {state' : ProgramState}
    (h : state' ∈ step.states ptrDiffTy conditionTy state) : state'.calls = step.call ++ state.calls := by
  cases step with
  | event e =>
    obtain rfl := List.mem_singleton.mp h
    exact List.filter_cons_of_pos (by simpa using hcall e (List.mem_singleton_self _))
  | removeDeadBindings maybeDead =>
    obtain rfl := List.mem_singleton.mp h
    rfl
  | assume cond assumption => exact assume_calls (Option.mem_toList.mp h)
  | branch cond dstT dstF b =>
    obtain ⟨⟨b', s⟩, hmem, rfl⟩ := List.mem_map.mp h
    have hmem' := (List.mem_filter.mp hmem).1
    cases cond with
    | none =>
      obtain ⟨-, -, rfl⟩ := BranchNodeBuilder.mem_generateNode.mp hmem'
      rfl
    | some x =>
      obtain ⟨-, hreaches⟩ := branchNodes_spec.mp hmem'
      rcases reaches_cons.mp hreaches with hsucc | ⟨-, before, pred, after, heq, -⟩
      · exact successor_calls hsucc
      · exact absurd heq.symm (List.append_ne_nil_of_right_ne_nil before (List.cons_ne_nil pred after))
  | switch cond defaultBlock covered cases choice =>
    cases choice with
    | some i =>
      obtain ⟨p, hmem, rfl⟩ := List.mem_map.mp h
      exact processSwitch_calls.1 p (List.mem_filter.mp hmem).1
    | none => exact processSwitch_calls.2 state' (Option.mem_toList.mp h)

/-- The call that an execution makes is no condition. -/
theorem Step.call_kind {step : Step} (h : step.Taken ptrDiffTy conditionTy ρ) : ∀ e ∈ step.call, e.kind ≠ .assume := by
  cases step with
  | event e => exact fun e' he => List.mem_singleton.mp he ▸ h
  | _ => exact fun e he => (List.not_mem_nil he).elim

/-- A condition on `x`, a call, and a switch on `x` with the cases from 1 to 3. -/
def threeSteps : List Step :=
  [.branch (some (.nonLoc (.symbolVal (.symInt paramX .gt (intValue 0) intType)))) true true true,
    .event (.ofCall .fnCall "a.c:3" "f(x)"),
    .switch (.nonLoc (.symbolVal paramX)) true false [⟨true, intValue 1, intValue 3⟩] (some 0)]

/-- A comparison of `x` is read as it is meant. -/
theorem meant_paramX {op : Opcode} (hop : op.isComparisonOp = true) {n : ℤ} :
    Meant (.integer 64 false) ρ (.symInt paramX op (intValue n) intType) where
  width := (by decide : 0 < intType.getAPSIntType.bitWidth)
  converts lhs op' rhs type h _ := by
    cases h
    exact ⟨⟨by decide, .inl rfl⟩, ⟨by decide, .inl rfl⟩⟩
  subtracts lhs op' rhs type h := by cases h
  refers q hq href := by
    rw [question, if_pos hop] at hq
    obtain rfl := Option.some.inj hq
    cases href

end Ento
end Apisan
