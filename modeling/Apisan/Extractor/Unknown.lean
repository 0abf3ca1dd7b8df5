/-
# Where a binary operation has no value

Without taint, `evalBinOpNN` gives up where the right side is not known, and
either the left side is not known, or it is known and the operation can neither
be swapped nor keeps it, as a shift of zero does (`evalBinOpNN_unknown_iff`).
Else it gives a value.

Key definition: `Opcode.Keeps`.
Key theorems: `BinOp.run_ne_unknown`, `BinOp.run_constant_iff`, `evalBinOpNN_unknown_iff`.
-/
import Apisan.Extractor.Outcomes

namespace Apisan
namespace Ento

variable {builder : SValBuilder} {isTainted : NonLoc → Bool} {state : ProgramState}
variable {resultTy lhsTy rhsTy type : QualType} {op : Opcode} {lhs rhs v : NonLoc} {sym : SymExpr} {c : APSInt}

/-- A shift that leaves its left operand as it is, whatever the amount. -/
def Opcode.Keeps (op : Opcode) (c : APSInt) : Prop :=
  op.isShiftOp = true ∧ (c.value = 0 ∨ (op = .shr ∧ c.isAllOnesValue = true ∧ c.isUnsigned = false))

theorem evalCastFromNonLoc_ne_unknown (htype : type.IsInteger) (hv : ∀ sym, v = .symbolVal sym → sym.getType.IsInteger) :
    evalCastFromNonLoc builder v type ≠ .unknown := by
  intro h
  unfold evalCastFromNonLoc at h
  cases v with
  | symbolVal sym =>
    have hsame : haveSameType sym.getType type = true := by
      rw [haveSameType, (hv sym rfl).1, htype.1, Bool.and_true, Bool.or_true]
    simp only [hsame, if_true] at h
    cases h
  | concreteInt c =>
    simp only [htype.1, Bool.not_true, Bool.false_eq_true, if_false] at h
    split_ifs at h

theorem makeSymIntVal_ne_unknown (htype : resultTy.IsInteger) (hsym : sym.getType.IsInteger) :
    makeSymIntVal builder resultTy sym op c ≠ .unknown := by
  have hcast : evalCastFromNonLoc builder (.symbolVal sym) resultTy ≠ .unknown :=
    evalCastFromNonLoc_ne_unknown htype fun s hs => NonLoc.symbolVal.inj hs ▸ hsym
  intro h
  unfold makeSymIntVal at h
  cases op <;> dsimp only at h <;> first | (split_ifs at h <;> exact hcast h) | cases h

theorem evalConstants_ne_unknown {d : APSInt} : evalConstants builder resultTy op c d ≠ .unknown := by
  intro h
  unfold evalConstants at h
  dsimp only at h
  split at h <;> cases h

namespace BinOp

variable {input s t : BinOp} {res : ConditionSVal}

/-- A right side that is known stays known. -/
theorem Turn.known (h : Turn state resultTy s t) (hs : getKnownValue state s.rhs ≠ none) :
    getKnownValue state t.rhs ≠ none := by
  cases h with
  | swap hlhs hrhs hop => exact absurd hrhs hs
  | constant hlhs hc => exact hs
  | fold hlhs hrhs hop hlop => exact Option.some_ne_none _

/-- Where the right side is known, there is a value. -/
theorem Ends.ne_unknown (hs : s.Typed builder resultTy) (hknown : getKnownValue state s.rhs ≠ none)
    (h : Ends builder isTainted state resultTy input s res) : res ≠ .unknown := by
  obtain ⟨lhsTy, rhsTy, htakes, hlhs, hrhs⟩ := hs
  cases h with
  | constants hconstant hd => exact evalConstants_ne_unknown
  | shifted hconstant hshift hc =>
    refine evalCastFromNonLoc_ne_unknown htakes.result fun sym hsym => ?_
    rw [hconstant] at hsym
    cases hsym
  | negated hsym heq hzero hlop => exact fun h => by cases h
  | symInt hsym hc =>
    rw [hsym] at hlhs
    exact makeSymIntVal_ne_unknown htakes.result (hlhs.1 ▸ htakes.left)
  | giveUp hunknown => exact absurd hunknown hknown

theorem run_ne_unknown (hgood : state.Good) (hs : s.Typed builder resultTy)
    (hknown : getKnownValue state s.rhs ≠ none) {n : ℕ}
    (h : Machine.run (step builder isTainted state resultTy input) n s = some res) : res ≠ .unknown := by
  obtain ⟨t, hreach, hends⟩ := Machine.exists_reach_of_run h
  have hinvariant : t.Typed builder resultTy ∧ getKnownValue state t.rhs ≠ none := by
    refine hreach.invariant (I := fun s => s.Typed builder resultTy ∧ getKnownValue state s.rhs ≠ none)
      (fun s t hs hnext => ?_) ⟨hs, hknown⟩
    have hturn := turn_of_step hnext
    exact ⟨hturn.typed hgood hs.1, hturn.known hs.2⟩
  exact (ends_of_step hends).ne_unknown hinvariant.1 hinvariant.2

/-- A constant on the left, and an unknown right side: the operands are swapped,
the constant is shifted, or the engine gives up. -/
theorem stepConstant_eq (builder : SValBuilder) (isTainted : NonLoc → Bool) (resultTy : QualType) (input : BinOp)
    (v : APSInt) (h : s.op.swaps = false) :
    ((¬ s.op.Keeps v) → stepConstant builder isTainted resultTy input s v =
        .inr (makeSymExprValNN isTainted resultTy s.op input.lhs input.rhs)) ∧
      (s.op.Keeps v → stepConstant builder isTainted resultTy input s v =
        .inr (evalCastFromNonLoc builder s.lhs resultTy)) := by
  obtain ⟨op, lhs, rhs⟩ := s
  unfold stepConstant Opcode.Keeps
  cases op
  case lt | gt | le | ge | eq | ne | add | mul | and | xor | or => cases h
  case shl =>
    refine ⟨fun hk => if_neg fun hz => hk ⟨rfl, .inl hz⟩, fun hk => if_pos (hk.2.resolve_right fun h => ?_)⟩
    cases h.1
  case shr =>
    have hiff : ((v.isAllOnesValue && !v.isUnsigned) || decide (v.value = 0)) = true ↔
        Opcode.shr.Keeps v := by
      simp only [Opcode.Keeps, Opcode.isShiftOp, Bool.or_eq_true, Bool.and_eq_true, Bool.not_eq_true',
        decide_eq_true_eq, true_and]
      exact or_comm
    exact ⟨fun hk => if_neg fun h => hk (hiff.mp h), fun hk => if_pos (hiff.mpr hk)⟩
  all_goals exact ⟨fun _ => rfl, fun hk => by cases hk.1⟩

/-- A symbol on the left, and an unknown right side. -/
theorem step_symbol (hlhs : s.lhs = .symbolVal sym) (hrhs : getKnownValue state s.rhs = none) :
    step builder isTainted state resultTy input s = stepSymbol builder isTainted state resultTy input s sym := by
  have hzero : ¬ s.rhs.isZeroConstant = true := by
    intro hzero
    cases hs : s.rhs with
    | concreteInt d =>
      rw [hs] at hrhs
      cases hrhs
    | symbolVal sym =>
      rw [hs] at hzero
      cases hzero
  unfold step
  rw [hlhs]
  cases sym with
  | symInt l lop d type => exact (if_neg fun h => hzero h.2.1).trans (by rw [hrhs])
  | _ => rfl

/-- Where the left side is a constant, the engine gives up on the operations
that are neither swapped nor keep it. -/
theorem run_constant_iff (hgood : state.Good) (hs : s.Typed builder resultTy) (hlhs : s.lhs = .concreteInt c)
    (hrhs : getKnownValue state s.rhs = none) {n : ℕ}
    (h : Machine.run (step builder (fun _ => false) state resultTy input) (n + 1) s = some res) :
    res = .unknown ↔ s.op.swaps = false ∧ ¬ s.op.Keeps c := by
  have hstep : step builder (fun _ => false) state resultTy input s =
      stepConstant builder (fun _ => false) resultTy input s c := by
    unfold step
    rw [hlhs]
    dsimp only
    rw [hrhs]
  cases hswap : s.op.swaps with
  | true =>
    have hnext : Machine.Next (step builder (fun _ => false) state resultTy input) s
        ⟨s.op.reverseComparisonOp, s.rhs, s.lhs⟩ := by
      refine hstep.trans ?_
      unfold stepConstant
      cases hop : s.op <;> rw [hop] at hswap <;> first | rfl | cases hswap
    rw [Machine.run_next hnext] at h
    have hturn : Turn state resultTy s ⟨s.op.reverseComparisonOp, s.rhs, s.lhs⟩ := .swap hlhs hrhs hswap
    have htyped := hturn.typed hgood hs
    have hknown : getKnownValue state s.lhs ≠ none := by
      rw [hlhs]
      exact Option.some_ne_none c
    exact iff_of_false (run_ne_unknown hgood htyped hknown h) fun h => by cases h.1
  | false =>
    obtain ⟨hgive, hkeep⟩ := stepConstant_eq builder (fun _ => false) resultTy input c hswap
    refine Iff.trans ?_ (and_iff_right rfl).symm
    by_cases hk : s.op.Keeps c
    · rw [Machine.run_halt (hstep.trans (hkeep hk))] at h
      obtain ⟨lhsTy, rhsTy, htakes, -⟩ := hs
      refine iff_of_false (Option.some.inj h ▸ evalCastFromNonLoc_ne_unknown htakes.result fun sym hsym => ?_)
        (not_not_intro hk)
      rw [hlhs] at hsym
      cases hsym
    · rw [Machine.run_halt (hstep.trans (hgive hk))] at h
      exact iff_of_true (Option.some.inj h).symm hk

end BinOp

/-- **Where there is no value.** Without taint, an operation on two sides that
differ is unknown exactly if the right side is not known and either the left side
is not known, or it is and the operation can neither be swapped nor leaves it as
it is. -/
theorem evalBinOpNN_unknown_iff (hgood : state.Good) (h : op.Takes builder resultTy lhsTy rhsTy)
    (hlhs : lhs.HasType lhsTy) (hrhs : rhs.HasType rhsTy) (hne : lhs ≠ rhs) :
    evalBinOpNN builder (fun _ => false) state op lhs rhs resultTy = .unknown ↔
      getKnownValue state rhs = none ∧
        ∀ c, getKnownValue state lhs = some c → op.swaps = false ∧ ¬ op.Keeps c := by
  have hloop := (Option.some_get (BinOp.halts builder (fun _ => false) state resultTy ⟨op, lhs, rhs⟩ ⟨op, lhs, rhs⟩)).symm
  have htyped : BinOp.Typed builder resultTy ⟨op, lhs, rhs⟩ := ⟨lhsTy, rhsTy, h, hlhs, hrhs⟩
  rw [evalBinOpNN_of_run hne hloop]
  generalize (Machine.run _ _ _).get _ = res at hloop
  by_cases hknown : getKnownValue state rhs = none
  swap
  · exact iff_of_false (BinOp.run_ne_unknown hgood htyped hknown hloop) fun h => hknown h.1
  refine Iff.trans ?_ (and_iff_right hknown).symm
  cases hval : getKnownValue state lhs with
  | none =>
    -- the left side is a symbol, and the engine gives up at once
    obtain ⟨sym, rfl⟩ : ∃ sym, lhs = .symbolVal sym := by
      cases lhs with
      | symbolVal sym => exact ⟨sym, rfl⟩
      | concreteInt c => cases hval
    have hstep : BinOp.step builder (fun _ => false) state resultTy ⟨op, .symbolVal sym, rhs⟩
          ⟨op, .symbolVal sym, rhs⟩ =
        BinOp.stepSymbol builder (fun _ => false) state resultTy ⟨op, .symbolVal sym, rhs⟩
          ⟨op, .symbolVal sym, rhs⟩ sym := BinOp.step_symbol rfl hknown
    have hgive : BinOp.stepSymbol builder (fun _ => false) state resultTy ⟨op, .symbolVal sym, rhs⟩
        ⟨op, .symbolVal sym, rhs⟩ sym = .inr .unknown := by
      unfold BinOp.stepSymbol
      rw [show getSymVal state sym = none from hval]
      dsimp only
      rw [hknown]
      rfl
    rw [Machine.run_halt (hstep.trans hgive)] at hloop
    exact iff_of_true (Option.some.inj hloop).symm fun c hc => by cases hc
  | some c =>
    have hiff : res = .unknown ↔ op.swaps = false ∧ ¬ op.Keeps c := by
      cases lhs with
      | concreteInt d =>
        obtain rfl := Option.some.inj hval
        exact BinOp.run_constant_iff hgood htyped rfl hknown hloop
      | symbolVal sym =>
        -- the symbol is taken for its only value first
        have hnext : Machine.Next (BinOp.step builder (fun _ => false) state resultTy ⟨op, .symbolVal sym, rhs⟩)
            ⟨op, .symbolVal sym, rhs⟩ ⟨op, .concreteInt c, rhs⟩ := by
          refine (BinOp.step_symbol rfl hknown).trans ?_
          unfold BinOp.stepSymbol
          rw [show getSymVal state sym = some c from hval]
        have hturn := BinOp.turn_of_step hnext
        have hmeasure := hturn.measure_lt
        obtain ⟨n, hn⟩ : ∃ n, BinOp.measure state ⟨op, .symbolVal sym, rhs⟩ = n + 1 :=
          ⟨_, (Nat.sub_add_cancel (by omega)).symm⟩
        rw [Machine.run_next hnext, hn] at hloop
        exact BinOp.run_constant_iff hgood (hturn.typed hgood htyped) rfl hknown hloop
    rw [hiff]
    exact ⟨fun h d hd => Option.some.inj hd ▸ h, fun h => h c rfl⟩

/-- The language is C, where conditions are of type `int`. -/
def cBuilder : SValBuilder := ⟨intType, intType, fun _ => false⟩

/-- `5 / x` is not known, and `5 * x` is. -/
theorem evalBinOpNN_unknown_iff_paramX :
    evalBinOpNN cBuilder (fun _ => false) .initial .div (.concreteInt (intValue 5)) (.symbolVal paramX) intType =
        .unknown ∧
      evalBinOpNN cBuilder (fun _ => false) .initial .mul (.concreteInt (intValue 5)) (.symbolVal paramX) intType ≠
        .unknown := by
  have hiff : ∀ op : Opcode, op.Takes cBuilder intType intType intType →
      (evalBinOpNN cBuilder (fun _ => false) .initial op (.concreteInt (intValue 5)) (.symbolVal paramX) intType =
        .unknown ↔ getKnownValue .initial (.symbolVal paramX) = none ∧
          ∀ c, getKnownValue .initial (.concreteInt (intValue 5)) = some c → op.swaps = false ∧ ¬ op.Keeps c) :=
    fun op hop => evalBinOpNN_unknown_iff good_initial hop rfl ⟨rfl, trivial⟩ (by decide)
  refine ⟨(hiff .div (by decide)).mpr ⟨rfl, fun c hc => ⟨rfl, fun hk => by cases hk.1⟩⟩, fun h => ?_⟩
  exact absurd (((hiff .mul (by decide)).mp h).2 _ rfl).1 (by decide)

end Ento
end Apisan
