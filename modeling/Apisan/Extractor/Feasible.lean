/-
# The values that an assumption leaves

The range constraint manager keeps a range set for a symbol. An assumption that
the symbol, plus an adjustment, compares in some way with a constant restricts
the set to the values that do: none of these is lost, and if the state is given
up there are none (`assumeSym_restricts`). The set has no other values either,
unless the bounds are a single integer outside of the symbol's type.

The comparison is made in the type of the adjustment, which must keep the
symbol's values (`APSIntType.Into`), and the constant must not be read as a
residue (`Fits`). `assumeSymRel` compares an expression with a constant in the
larger of their types (`comparisonType`).

Key definitions: `Opcode.Holds`, `ProgramState.Good`, `ProgramState.values`,
`Restricts`, `bounds`.
Key theorems: `assumeWithin_restricts`, `assumeSym_restricts`, `assumeSymRel_eq`,
`compares_iff`.
-/
import Apisan.Extractor.RangeSets
import Apisan.Extractor.Assume

namespace Apisan
namespace Ento

open Intervals

/-! ### Comparisons -/

/-- What a comparison says of two integers. -/
def Opcode.Holds (op : Opcode) (a b : ℤ) : Prop :=
  match op with
  | lt => a < b
  | gt => a > b
  | le => a ≤ b
  | ge => a ≥ b
  | eq => a = b
  | ne => a ≠ b
  | _ => False

instance (op : Opcode) (a b : ℤ) : Decidable (op.Holds a b) := by
  cases op <;> unfold Opcode.Holds <;> infer_instance

namespace Opcode

variable {op : Opcode} {a b : ℤ}

theorem negate_holds (h : op.isComparisonOp = true) : op.negateComparisonOp.Holds a b ↔ ¬ op.Holds a b := by
  cases op <;> first | (dsimp only [negateComparisonOp, Holds]; omega) | cases h

theorem reverse_holds : op.reverseComparisonOp.Holds a b ↔ op.Holds b a := by
  cases op <;> first | exact Iff.rfl | (dsimp only [reverseComparisonOp, Holds]; omega)

theorem isComparisonOp_negate : op.negateComparisonOp.isComparisonOp = op.isComparisonOp := by
  cases op <;> rfl

theorem isComparisonOp_reverse (h : op.isComparisonOp = true) :
    op.reverseComparisonOp.isComparisonOp = true := by
  cases op <;> first | rfl | cases h

end Opcode

/-! ### States -/

namespace ProgramState

/-- The range sets are of the types of their symbols, and in order. -/
def Good (state : ProgramState) : Prop :=
  ∀ sym ranges, state.constraintRange sym = some ranges → ranges.Proper sym.getType.getAPSIntType

/-- The values that a symbol may have. -/
def values (state : ProgramState) (sym : SymExpr) : Set ℤ := (getRange state sym).points

variable {state : ProgramState} {sym : SymExpr}

theorem good_setRange {ranges : RangeSet} {h : ranges ≠ []} (hstate : state.Good)
    (hranges : ranges.Proper sym.getType.getAPSIntType) : (state.setRange sym ranges h).Good := by
  intro sym' ranges' hget
  by_cases hsym : sym' = sym
  · subst hsym
    have hself : (state.setRange sym' ranges h).constraintRange sym' = some ranges := Function.update_self _ _ _
    rw [hself] at hget
    exact Option.some.inj hget ▸ hranges
  · have hother : (state.setRange sym ranges h).constraintRange sym' = state.constraintRange sym' :=
      Function.update_of_ne hsym _ _
    exact hstate sym' ranges' (hother ▸ hget)

theorem values_setRange {ranges : RangeSet} {h : ranges ≠ []} :
    (state.setRange sym ranges h).values sym = ranges.points := by
  have hself : (state.setRange sym ranges h).constraintRange sym = some ranges := Function.update_self _ _ _
  rw [values, getRange, hself]

theorem values_setRange_of_ne {ranges : RangeSet} {h : ranges ≠ []} {sym' : SymExpr} (hne : sym' ≠ sym) :
    (state.setRange sym ranges h).values sym' = state.values sym' := by
  have hother : (state.setRange sym ranges h).constraintRange sym' = state.constraintRange sym' :=
    Function.update_of_ne hne _ _
  rw [values, values, getRange, getRange, hother]

end ProgramState

/-- All values of a type. -/
theorem full_spec {t : APSIntType} (ht : 0 < t.bitWidth) :
    RangeSet.Proper t [⟨t.getMinValue, t.getMaxValue⟩] ∧
      ∀ x, x ∈ RangeSet.points [⟨t.getMinValue, t.getMaxValue⟩] ↔ x ∈ t.window := by
  have hpos := t.window.size_pos
  have hmin := APSIntType.value_getMinValue t
  have hmax := APSIntType.value_getMaxValue t ht
  refine ⟨⟨fun r hr => ?_, Ordered.singleton ?_⟩, fun x => ?_⟩
  · rw [List.mem_singleton.mp hr]
    exact ⟨rfl, rfl⟩
  · show t.getMinValue.value ≤ t.getMaxValue.value
    omega
  · show x ∈ Intervals.points [(t.getMinValue.value, t.getMaxValue.value)] ↔ _
    rw [mem_points_cons, points_nil, Window.mem_iff]
    simp only [Set.mem_empty_iff_false, or_false]
    omega

theorem one_lt_size {t : APSIntType} (ht : 0 < t.bitWidth) : 1 < t.window.size := by
  show (1 : ℤ) < 2 ^ t.bitWidth
  exact one_lt_pow₀ (by decide) ht.ne'

/-- The arc from just above zero to just below it. -/
theorem nonzero_arc {t : APSIntType} (ht : 0 < t.bitWidth) (x : ℤ) (hx : x ∈ t.window) :
    t.window.wrap x ∈ arc t.getZeroValue.succ.value t.getZeroValue.pred.value ↔ x ≠ 0 := by
  have hzero : (0 : ℤ) ∈ t.window := t.value_getZeroValue ▸ t.getZeroValue.value_mem
  have h := Window.wrap_mem_arc_ne hzero (one_lt_size ht) x 0
  rw [sub_zero, sub_zero, add_zero, Window.wrap_of_mem hx] at h
  rw [Window.wrap_of_mem hx, APSInt.value_succ, APSInt.value_pred, APSIntType.value_getZeroValue]
  exact h

/-- What is known of a symbol without a record. -/
def Initial (sym : SymExpr) (x : ℤ) : Prop :=
  x ∈ sym.getType.getAPSIntType.window ∧ (sym.getType.isReferenceType = true → x ≠ 0)

/-- **The ranges of a symbol** are in order; without a record they have all
values of its type, but zero for a reference. -/
theorem getRange_spec {state : ProgramState} {sym : SymExpr} (hstate : state.Good)
    (hpos : 0 < sym.getType.getAPSIntType.bitWidth) :
    (getRange state sym).Proper sym.getType.getAPSIntType ∧
      (state.constraintRange sym = none → ∀ x, x ∈ state.values sym ↔ Initial sym x) := by
  unfold ProgramState.values
  cases hranges : state.constraintRange sym with
  | some ranges =>
    have hget : getRange state sym = ranges := by rw [getRange, hranges]
    rw [hget]
    exact ⟨hstate sym ranges hranges, fun h => by cases h⟩
  | none =>
    obtain ⟨hproper, hfull⟩ := full_spec hpos
    by_cases href : sym.getType.isReferenceType = true
    · have hget : getRange state sym = RangeSet.intersect
          [⟨sym.getType.getAPSIntType.getMinValue, sym.getType.getAPSIntType.getMaxValue⟩]
          sym.getType.getAPSIntType.getZeroValue.succ sym.getType.getAPSIntType.getZeroValue.pred := by
        rw [getRange, hranges]
        exact if_pos href
      rw [hget]
      unfold Initial
      generalize sym.getType.getAPSIntType = t at *
      have hspec : RangeSet.Intersects t t _ t.getZeroValue.succ t.getZeroValue.pred _ :=
        RangeSet.intersect_spec hproper (.refl hpos) rfl rfl
      have harc := nonzero_arc hpos
      refine ⟨hspec.proper, fun _ x => ?_⟩
      rw [← hfull]
      constructor
      · intro hx
        have hmem := hspec.sub x hx
        have hwindow := (hfull x).mp hmem
        refine ⟨hmem, fun _ => (harc x hwindow).mp (hspec.exact (fun hout => hout.2 ?_) x hx)⟩
        exact APSIntType.within_of_mem hpos t.getZeroValue.succ.value_mem
      · rintro ⟨hmem, hne⟩
        exact hspec.keeps x hmem ((harc x ((hfull x).mp hmem)).mpr (hne href))
    · have hget : getRange state sym =
          [⟨sym.getType.getAPSIntType.getMinValue, sym.getType.getAPSIntType.getMaxValue⟩] := by
        rw [getRange, hranges]
        exact if_neg href
      rw [hget]
      refine ⟨hproper, fun _ x => ?_⟩
      rw [hfull, Initial]
      exact (and_iff_left fun h => absurd h href).symm

/-! ### Restricting a symbol -/

/-- The values of a symbol are restricted to those with a property, if the
result is exact; at any rate none of these is lost. -/
structure Restricts (state : ProgramState) (sym : SymExpr) (P : ℤ → Prop) (exact : Prop)
    (result : Option ProgramState) : Prop where
  infeasible : result = none → ∀ x ∈ state.values sym, ¬ P x
  narrows : ∀ state', result = some state' → Narrows state sym state'
  good : ∀ state', result = some state' → state'.Good
  sub : ∀ state', result = some state' → ∀ x ∈ state'.values sym, x ∈ state.values sym
  keeps : ∀ state', result = some state' → ∀ x ∈ state.values sym, P x → x ∈ state'.values sym
  exact : exact → ∀ state', result = some state' → ∀ x ∈ state'.values sym, P x

namespace Restricts

variable {state : ProgramState} {sym : SymExpr} {P Q : ℤ → Prop} {exact exact' : Prop}
  {result : Option ProgramState}

/-- All values have the property. -/
theorem unchanged (hstate : state.Good) (h : ∀ x ∈ state.values sym, P x) :
    Restricts state sym P exact (some state) := by
  refine ⟨fun hnone => (Option.some_ne_none _ hnone).elim, fun state' h' => ?_, fun state' h' => ?_,
    fun state' h' => ?_, fun state' h' => ?_, fun _ state' h' => ?_⟩ <;>
    obtain rfl := Option.some.inj h'
  · exact .inl rfl
  · exact hstate
  · exact fun x hx => hx
  · exact fun x hx _ => hx
  · exact h

/-- No value has the property. -/
theorem none (h : ∀ x ∈ state.values sym, ¬ P x) : Restricts state sym P exact none := by
  have hno : ∀ state', Option.none ≠ some (state' : ProgramState) := fun state' h' => by cases h'
  exact ⟨fun _ => h, fun state' h' => (hno state' h').elim, fun state' h' => (hno state' h').elim,
    fun state' h' => (hno state' h').elim, fun state' h' => (hno state' h').elim,
    fun _ state' h' => (hno state' h').elim⟩

theorem congr (h : Restricts state sym P exact result) (hiff : ∀ x ∈ state.values sym, P x ↔ Q x)
    (hexact : exact' → exact) : Restricts state sym Q exact' result where
  infeasible hnone x hx hQ := h.infeasible hnone x hx ((hiff x hx).mpr hQ)
  narrows := h.narrows
  good := h.good
  sub := h.sub
  keeps state' h' x hx hQ := h.keeps state' h' x hx ((hiff x hx).mpr hQ)
  exact he state' h' x hx := (hiff x (h.sub state' h' x hx)).mp (h.exact (hexact he) state' h' x hx)

end Restricts

section

variable {state : ProgramState} {sym : SymExpr} {u : APSIntType} {lower upper int adjustment : APSInt}

/-- **Keeping what lies within bounds.** -/
theorem assumeWithin_restricts (hstate : state.Good) (hinto : sym.getType.getAPSIntType.Into u)
    (hlower : lower.type = u) (hupper : upper.type = u) :
    Restricts state sym (fun x => u.window.wrap x ∈ arc lower.value upper.value)
      (¬ RangeSet.Outside sym.getType.getAPSIntType lower upper) (assumeWithin state sym lower upper) := by
  obtain ⟨hproper, -⟩ := getRange_spec hstate hinto.pos
  have hspec := RangeSet.intersect_spec hproper hinto hlower hupper
  unfold assumeWithin
  simp only
  by_cases hnil : (getRange state sym).intersect lower upper = []
  · rw [dif_pos hnil]
    refine .none fun x hx harc => ?_
    have hmem := hspec.keeps x hx harc
    rw [hnil] at hmem
    obtain ⟨p, hp, -⟩ := hmem
    exact List.not_mem_nil hp
  · rw [dif_neg hnil]
    refine ⟨fun h => (Option.some_ne_none _ h).elim, fun state' h' => ?_, fun state' h' => ?_,
      fun state' h' => ?_, fun state' h' => ?_, fun hexact state' h' => ?_⟩ <;>
      obtain rfl := Option.some.inj h'
    · exact .inr ⟨_, hnil, rfl⟩
    · exact ProgramState.good_setRange hstate hspec.proper
    · rw [ProgramState.values_setRange]
      exact hspec.sub
    · rw [ProgramState.values_setRange]
      exact hspec.keeps
    · rw [ProgramState.values_setRange]
      exact hspec.exact hexact

/-- The assumption about a symbol, by the operator. -/
def assumeSym (op : Opcode) (state : ProgramState) (sym : SymExpr) (int adjustment : APSInt) :
    Option ProgramState :=
  match op with
  | .eq => assumeSymEQ state sym int adjustment
  | .ne => assumeSymNE state sym int adjustment
  | .gt => assumeSymGT state sym int adjustment
  | .ge => assumeSymGE state sym int adjustment
  | .lt => assumeSymLT state sym int adjustment
  | .le => assumeSymLE state sym int adjustment
  | _ => none

/-- The bounds of the symbol for which the sum with the adjustment compares with
the constant. -/
def bounds (op : Opcode) (int adjustment : APSInt) : APSInt × APSInt :=
  let val := (adjustment.type.convert int).sub adjustment
  let min := adjustment.type.getMinValue.sub adjustment
  let max := adjustment.type.getMaxValue.sub adjustment
  match op with
  | .ne => (val.succ, val.pred)
  | .gt => (val.succ, max)
  | .ge => (val, max)
  | .lt => (min, val.pred)
  | .le => (min, val)
  | _ => (val, val)

/-- A constant that is within the type is a value of it. -/
def Fits (int adjustment : APSInt) : Prop :=
  adjustment.type.testInRange int = .within → int.value ∈ adjustment.type.window

instance (int adjustment : APSInt) : Decidable (Fits int adjustment) :=
  inferInstanceAs (Decidable (_ → _))

/-- The sum of a symbol's value and the adjustment compares with the constant. -/
def Compares (op : Opcode) (int adjustment : APSInt) (x : ℤ) : Prop :=
  op.Holds (adjustment.type.window.wrap (x + adjustment.value)) int.value

theorem bounds_type (op : Opcode) : (bounds op int adjustment).1.type = adjustment.type ∧
    (bounds op int adjustment).2.type = adjustment.type := by
  cases op <;> exact ⟨rfl, rfl⟩

/-- **The bounds of a comparison.** The symbol's value is in their arc exactly
if the sum compares, unless it does for no value or for all. -/
theorem mem_bounds {op : Opcode} (hop : op.isComparisonOp = true) (hpos : 0 < adjustment.type.bitWidth)
    (hint : int.value ∈ adjustment.type.window)
    (hmin : op = .lt → int.value ≠ adjustment.type.window.low)
    (hmax : op = .gt → int.value ≠ adjustment.type.window.low + adjustment.type.window.size - 1) (x : ℤ) :
    adjustment.type.window.wrap x ∈ arc (bounds op int adjustment).1.value (bounds op int adjustment).2.value ↔
      Compares op int adjustment x := by
  have hlow := APSIntType.value_getMinValue adjustment.type
  have hhigh := APSIntType.value_getMaxValue adjustment.type hpos
  have hsize := one_lt_size hpos
  have hval : ((adjustment.type.convert int).sub adjustment).value =
      adjustment.type.window.wrap (int.value - adjustment.value) := by
    rw [APSInt.value_sub_of_type (APSIntType.type_convert _ _), APSIntType.value_convert, Window.wrap_of_mem hint]
  have hminval : (adjustment.type.getMinValue.sub adjustment).value =
      adjustment.type.window.wrap (adjustment.type.window.low - adjustment.value) := by
    rw [APSInt.value_sub_of_type (APSIntType.type_getMinValue _), hlow]
  have hmaxval : (adjustment.type.getMaxValue.sub adjustment).value = adjustment.type.window.wrap
      (adjustment.type.window.low + adjustment.type.window.size - 1 - adjustment.value) := by
    rw [APSInt.value_sub_of_type (APSIntType.type_getMaxValue _), hhigh]
  have hsucc : ((adjustment.type.convert int).sub adjustment).succ.value =
      adjustment.type.window.wrap (int.value + 1 - adjustment.value) := by
    rw [APSInt.value_succ, hval]
    show adjustment.type.window.wrap _ = _
    rw [Window.wrap_add, sub_add_eq_add_sub]
  have hpred : ((adjustment.type.convert int).sub adjustment).pred.value =
      adjustment.type.window.wrap (int.value - 1 - adjustment.value) := by
    rw [APSInt.value_pred, hval, sub_eq_add_neg]
    show adjustment.type.window.wrap _ = _
    rw [Window.wrap_add, ← sub_eq_add_neg, sub_right_comm]
  have hy := Window.wrap_mem adjustment.type.window (x + adjustment.value)
  have harc : ∀ {a b : ℤ}, a ∈ adjustment.type.window → b ∈ adjustment.type.window → a ≤ b →
      (adjustment.type.window.wrap x ∈ arc (adjustment.type.window.wrap (a - adjustment.value))
        (adjustment.type.window.wrap (b - adjustment.value)) ↔
      a ≤ adjustment.type.window.wrap (x + adjustment.value) ∧
        adjustment.type.window.wrap (x + adjustment.value) ≤ b) := fun ha hb hab =>
    Window.wrap_mem_arc ha hb hab x adjustment.value
  have hne := Window.wrap_mem_arc_ne hint hsize x adjustment.value
  unfold Compares
  simp only [Window.mem_iff] at hint hy harc
  cases op <;> first | cases hop; done | skip
  all_goals dsimp only [bounds, Opcode.Holds]
  · have hlt := hmin rfl
    rw [hminval, hpred, harc (by omega) (by omega) (by omega)]
    omega
  · have hgt := hmax rfl
    rw [hsucc, hmaxval, harc (by omega) (by omega) (by omega)]
    omega
  · rw [hminval, hval, harc (by omega) (by omega) (by omega)]
    omega
  · rw [hval, hmaxval, harc (by omega) (by omega) (by omega)]
    omega
  · rw [hval, harc hint hint le_rfl]
    omega
  · rw [hsucc, hpred, hne]

/-- The outcomes of an inequality. -/
theorem assumeInequality_restricts {P : ℤ → Prop} {exact : Prop} {below above atExtreme : Option ProgramState}
    {extreme : APSInt} {bounds : APSInt → APSInt × APSInt}
    (hbelow : int.value < adjustment.type.window.low → Restricts state sym P exact below)
    (habove : adjustment.type.window.low + adjustment.type.window.size ≤ int.value →
      Restricts state sym P exact above)
    (hextreme : int.value = extreme.value → Restricts state sym P exact atExtreme)
    (hwithin : adjustment.type.testInRange int = .within → int.value ≠ extreme.value →
      Restricts state sym P exact (assumeWithin state sym (bounds (adjustment.type.convert int)).1
        (bounds (adjustment.type.convert int)).2))
    (hpos : 0 < adjustment.type.bitWidth) (hfits : Fits int adjustment) (htype : extreme.type = adjustment.type) :
    Restricts state sym P exact (assumeInequality state sym int adjustment below above extreme atExtreme bounds) := by
  unfold assumeInequality
  rcases APSIntType.testInRange_cases (i := int) hpos with h | ⟨h, hv⟩ | ⟨h, hv⟩ <;> simp only [h]
  · have hvalue : (adjustment.type.convert int).value = int.value := by
      rw [APSIntType.value_convert, Window.wrap_of_mem (hfits h)]
    by_cases he : adjustment.type.convert int = extreme
    · rw [if_pos he]
      exact hextreme (by rw [← hvalue, he])
    · rw [if_neg he]
      refine hwithin h fun heq => he (APSInt.eq_of_value htype.symm ?_)
      rw [hvalue, heq]
  · exact hbelow hv
  · exact habove hv

/-- **An assumption restricts the symbol to the values for which the sum
compares.** -/
theorem assumeSym_restricts {op : Opcode} (hop : op.isComparisonOp = true) (hstate : state.Good)
    (hinto : sym.getType.getAPSIntType.Into adjustment.type) (hfits : Fits int adjustment) :
    Restricts state sym (Compares op int adjustment)
      (¬ RangeSet.Outside sym.getType.getAPSIntType (bounds op int adjustment).1 (bounds op int adjustment).2)
      (assumeSym op state sym int adjustment) := by
  have hpos : 0 < adjustment.type.bitWidth := by
    rcases hinto.keeps with hsame | ⟨hlt, -⟩
    · exact hsame ▸ hinto.pos
    · exact lt_trans hinto.pos hlt
  generalize hexact : (¬ RangeSet.Outside sym.getType.getAPSIntType (bounds op int adjustment).1
    (bounds op int adjustment).2) = exact
  -- a comparison with the same answer for all sums, or with an arc of them
  have hall : (∀ x, Compares op int adjustment x) →
      Restricts state sym (Compares op int adjustment) exact (some state) := fun h =>
    .unchanged hstate fun x _ => h x
  have hnone : (∀ x, ¬ Compares op int adjustment x) →
      Restricts state sym (Compares op int adjustment) exact none := fun h => .none fun x _ => h x
  have hwithin : adjustment.type.testInRange int = .within →
      (op = .lt → int.value ≠ adjustment.type.window.low) →
      (op = .gt → int.value ≠ adjustment.type.window.low + adjustment.type.window.size - 1) →
      Restricts state sym (Compares op int adjustment) exact
        (assumeWithin state sym (bounds op int adjustment).1 (bounds op int adjustment).2) := fun h hmin hmax =>
    hexact ▸ (assumeWithin_restricts hstate hinto (bounds_type op).1 (bounds_type op).2).congr
      (fun x _ => mem_bounds hop hpos (hfits h) hmin hmax x) id
  have hlow := APSIntType.value_getMinValue adjustment.type
  have hhigh := APSIntType.value_getMaxValue adjustment.type hpos
  have hcases := APSIntType.testInRange_cases (i := int) hpos
  have hy := fun x => Window.wrap_mem adjustment.type.window (x + adjustment.value)
  unfold Compares at hall hnone hwithin ⊢
  simp only [Window.mem_iff] at hy
  cases op <;> first | cases hop; done | skip
  all_goals dsimp only [Opcode.Holds, assumeSym] at hall hnone hwithin ⊢
  · unfold assumeSymLT
    refine assumeInequality_restricts (fun h => hnone fun x => ?_) (fun h => hall fun x => ?_)
      (fun h => hnone fun x => ?_) (fun h hne => hwithin h (fun _ => hlow ▸ hne) fun h => by cases h) hpos hfits rfl
    all_goals
      have := hy x
      omega
  · unfold assumeSymGT
    refine assumeInequality_restricts (fun h => hall fun x => ?_) (fun h => hnone fun x => ?_)
      (fun h => hnone fun x => ?_) (fun h hne => hwithin h (fun h => by cases h) fun _ => hhigh ▸ hne) hpos hfits rfl
    all_goals
      have := hy x
      omega
  · unfold assumeSymLE
    refine assumeInequality_restricts (fun h => hnone fun x => ?_) (fun h => hall fun x => ?_)
      (fun h => hall fun x => ?_) (fun h _ => hwithin h (fun h => by cases h) fun h => by cases h) hpos hfits rfl
    all_goals
      have := hy x
      omega
  · unfold assumeSymGE
    refine assumeInequality_restricts (fun h => hall fun x => ?_) (fun h => hnone fun x => ?_)
      (fun h => hall fun x => ?_) (fun h _ => hwithin h (fun h => by cases h) fun h => by cases h) hpos hfits rfl
    all_goals
      have := hy x
      omega
  · unfold assumeSymEQ
    rcases hcases with h | ⟨h, hv⟩ | ⟨h, hv⟩
    · rw [if_neg (not_not.mpr h)]
      exact hwithin h (fun h => by cases h) fun h => by cases h
    · rw [if_pos (by rw [h]; decide)]
      exact hnone fun x => by have := hy x; omega
    · rw [if_pos (by rw [h]; decide)]
      exact hnone fun x => by have := hy x; omega
  · unfold assumeSymNE
    rcases hcases with h | ⟨h, hv⟩ | ⟨h, hv⟩
    · rw [if_neg (not_not.mpr h)]
      exact hwithin h (fun h => by cases h) fun h => by cases h
    · rw [if_pos (by rw [h]; decide)]
      exact hall fun x => by have := hy x; omega
    · rw [if_pos (by rw [h]; decide)]
      exact hall fun x => by have := hy x; omega

end

/-! ### Comparisons of expressions -/

/-- The symbol that an expression adds a constant to. -/
def base (lhs : SymExpr) : SymExpr := (computeAdjustment lhs lhs.getType.getAPSIntType.getZeroValue).1

/-- The constant that an expression adds to a symbol, of its own type. -/
def added (lhs : SymExpr) : APSInt := (computeAdjustment lhs lhs.getType.getAPSIntType.getZeroValue).2

/-- The type of a comparison. -/
def comparisonType (lhs : SymExpr) (int : APSInt) : APSIntType := lhs.getType.getAPSIntType.max int.type

/-- The constant that is added, unsigned if the comparison is. -/
def adjustment (lhs : SymExpr) (int : APSInt) : APSInt :=
  if (comparisonType lhs int).bitWidth = lhs.getType.getAPSIntType.bitWidth ∧
      (comparisonType lhs int).isUnsigned ∧ ¬ lhs.getType.getAPSIntType.isUnsigned then
    { added lhs with isUnsigned := true }
  else added lhs

/-- The comparison of an expression, for a value of its symbol: the sum wraps
around in its own type, and both sides are converted. -/
def ComparesIn (op : Opcode) (lhs : SymExpr) (int : APSInt) (x : ℤ) : Prop :=
  op.Holds
    ((comparisonType lhs int).window.wrap (lhs.getType.getAPSIntType.window.wrap (x + (added lhs).value)))
    ((comparisonType lhs int).window.wrap int.value)

/-- The conversions of a comparison keep the values of the expression and of
its symbol. -/
structure Converts (lhs : SymExpr) (int : APSInt) : Prop where
  expression : lhs.getType.getAPSIntType.Into (comparisonType lhs int)
  symbol : (base lhs).getType.getAPSIntType.Into (adjustment lhs int).type

/-- The comparison holds for one sum only, and the symbol's type does not have
what it asks for. -/
def Missed (op : Opcode) (lhs : SymExpr) (int : APSInt) : Prop :=
  RangeSet.Outside (base lhs).getType.getAPSIntType
    (bounds op ((comparisonType lhs int).convert int) (adjustment lhs int)).1
    (bounds op ((comparisonType lhs int).convert int) (adjustment lhs int)).2

instance (op : Opcode) (lhs : SymExpr) (int : APSInt) : Decidable (Missed op lhs int) :=
  inferInstanceAs (Decidable (RangeSet.Outside _ _ _))

section

variable {state : ProgramState} {lhs : SymExpr} {int : APSInt} {op : Opcode}

theorem assumeSymRel_eq : assumeSymRel state lhs op int =
    assumeSym op state (base lhs) ((comparisonType lhs int).convert int) (adjustment lhs int) := by
  cases op <;> rfl

theorem type_added (lhs : SymExpr) : (added lhs).type = lhs.getType.getAPSIntType := by
  unfold added computeAdjustment
  split <;> rfl

/-- The adjustment has the comparison's type, unless that is wider. -/
theorem type_adjustment (lhs : SymExpr) (int : APSInt) : (adjustment lhs int).type =
    if lhs.getType.getAPSIntType.bitWidth = (comparisonType lhs int).bitWidth then comparisonType lhs int
    else lhs.getType.getAPSIntType := by
  have hadded := type_added lhs
  unfold adjustment comparisonType
  generalize lhs.getType.getAPSIntType = w at *
  obtain ⟨width, u⟩ := w
  unfold APSIntType.max
  by_cases hlt : APSIntType.lt ⟨width, u⟩ int.type = true
  · rw [if_pos hlt]
    unfold APSIntType.lt at hlt
    simp only [Bool.or_eq_true, decide_eq_true_eq, Bool.and_eq_true, beq_iff_eq, Bool.not_eq_true'] at hlt
    rcases hlt with hlt | ⟨⟨hsame, hsigned⟩, hunsigned⟩
    · have hne : ¬ width = int.type.bitWidth := by omega
      rw [if_neg hne, if_neg fun h => hne h.1.symm]
      exact hadded
    · rw [if_pos hsame, if_pos ⟨hsame.symm, hunsigned, by simp [hsigned]⟩]
      show (⟨(added lhs).bitWidth, true⟩ : APSIntType) = int.type
      rw [← hunsigned, show (added lhs).bitWidth = int.type.bitWidth from
        (congrArg APSIntType.bitWidth hadded).trans hsame]
  · rw [if_neg hlt, if_pos rfl]
    have hnot : ¬ (width = width ∧ u = true ∧ ¬ u = true) := fun h => h.2.2 h.2.1
    rw [if_neg hnot]
    exact hadded

theorem value_adjustment (lhs : SymExpr) (int : APSInt) :
    (adjustment lhs int).value ≡ (added lhs).value [ZMOD lhs.getType.getAPSIntType.window.size] := by
  have hadded := (added lhs).value_modEq
  rw [type_added] at hadded
  unfold adjustment
  split_ifs
  · have hflip := APSInt.value_modEq { added lhs with isUnsigned := true }
    have hsize : (APSInt.type { added lhs with isUnsigned := true }).window.size =
        lhs.getType.getAPSIntType.window.size := by
      rw [← type_added lhs]
      rfl
    rw [hsize] at hflip
    exact hflip.trans hadded.symm
  · exact Int.ModEq.refl _

/-- The comparison with the adjustment is the one of the expression. -/
theorem compares_iff (h : lhs.getType.getAPSIntType.Into (comparisonType lhs int)) (x : ℤ) :
    Compares op ((comparisonType lhs int).convert int) (adjustment lhs int) x ↔ ComparesIn op lhs int x := by
  unfold Compares ComparesIn
  have hadjust := value_adjustment lhs int
  rw [APSIntType.value_convert, type_adjustment]
  by_cases hsame : lhs.getType.getAPSIntType.bitWidth = (comparisonType lhs int).bitWidth
  · have hsize := APSIntType.size_eq hsame
    rw [if_pos hsame, Window.wrap_wrap hsize.symm]
    have hwrap : (comparisonType lhs int).window.wrap (x + (adjustment lhs int).value) =
        (comparisonType lhs int).window.wrap (x + (added lhs).value) :=
      Window.wrap_eq_iff.mpr (hsize ▸ hadjust.add_left x)
    rw [hwrap]
  · have hlt := (h.keeps.resolve_left hsame)
    have hwrap : lhs.getType.getAPSIntType.window.wrap (x + (adjustment lhs int).value) =
        lhs.getType.getAPSIntType.window.wrap (x + (added lhs).value) :=
      Window.wrap_eq_iff.mpr (hadjust.add_left x)
    rw [if_neg hsame, hwrap, Window.wrap_of_mem (APSIntType.Into.mem hlt.1 hlt.2 (Window.wrap_mem _ _))]

/-- A constant of the comparison's type fits. -/
theorem fits_convert (h : lhs.getType.getAPSIntType.Into (comparisonType lhs int)) :
    Fits ((comparisonType lhs int).convert int) (adjustment lhs int) := by
  unfold Fits
  rw [type_adjustment]
  by_cases hsame : lhs.getType.getAPSIntType.bitWidth = (comparisonType lhs int).bitWidth
  · rw [if_pos hsame]
    exact fun _ => APSInt.value_mem ((comparisonType lhs int).convert int)
  · rw [if_neg hsame]
    obtain ⟨hlt, hsign⟩ := h.keeps.resolve_left hsame
    exact APSIntType.mem_of_within hlt hsign

end

end Ento
end Apisan
