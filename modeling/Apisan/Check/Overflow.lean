/-
# What the overflow checker says of an argument

`check_integer_overflow` peels sums and products with constants off an argument
(`decompose`) and takes each constant off the limits. What is left of the limits
for the symbol inside are the bounds of an affine function's preimage
(`Nest.push_eq`), with their order kept if the product of the multipliers is
positive. With a negative product the check fails whatever the interval, so
`Correct` can be trusted (`correct_sound`) and `Wrong` cannot: it is right exactly
if the product is positive or a value is out of range (`wrong_iff`).

Key definitions: `Nest`, `Nest.value`, `Nest.slope`, `decompose`.
Key theorems: `Nest.push_eq`, `check_decompose`, `correct_sound`, `wrong_iff`.
-/
import Mathlib.Tactic.FieldSimp
import Mathlib.Tactic.Ring
import Mathlib.Tactic.Linarith
import Mathlib.Algebra.Order.Field.Basic
import Mathlib.Algebra.Order.Field.Rat
import Apisan.Check.Checkers

namespace Apisan
namespace IntOvflChecker

open Python

/-! ### Sums and products with constants -/

/-- Sums and products with constants, around one place. -/
inductive Nest
  | hole
  | addLeft (c : ℤ) (n : Nest)
  | addRight (n : Nest) (c : ℤ)
  | mulLeft (c : ℤ) (n : Nest)
  | mulRight (n : Nest) (c : ℤ)
  deriving DecidableEq, Repr

namespace Nest

/-- The expression with a symbol in the place. -/
def plug : Nest → Symbol → Symbol
  | hole, s => s
  | addLeft c n, s => .binaryOperator (.concreteInt c) .plus (n.plug s)
  | addRight n c, s => .binaryOperator (n.plug s) .plus (.concreteInt c)
  | mulLeft c n, s => .binaryOperator (.concreteInt c) .times (n.plug s)
  | mulRight n c, s => .binaryOperator (n.plug s) .times (.concreteInt c)

/-- The exact value, with `v` in the place. -/
def value : Nest → ℤ → ℤ
  | hole, v => v
  | addLeft c n, v => c + n.value v
  | addRight n c, v => n.value v + c
  | mulLeft c n, v => c * n.value v
  | mulRight n c, v => n.value v * c

/-- No multiplier is zero. -/
def NonZero : Nest → Prop
  | hole => True
  | addLeft _ n | addRight n _ => n.NonZero
  | mulLeft c n | mulRight n c => c ≠ 0 ∧ n.NonZero

/-- The product of the multipliers. -/
def slope : Nest → ℤ
  | hole => 1
  | addLeft _ n | addRight n _ => n.slope
  | mulLeft c n | mulRight n c => c * n.slope

/-- What is left of the limits for the place. -/
def push : Nest → ℚ × ℚ → ℚ × ℚ
  | hole, limit => limit
  | addLeft c n, limit | addRight n c, limit => n.push (limit.1 - c, limit.2 - c)
  | mulLeft c n, limit | mulRight n c, limit => n.push (limit.1 / c, limit.2 / c)

theorem value_eq (v : ℤ) : ∀ n : Nest, n.value v = n.slope * v + n.value 0
  | hole => by simp [value, slope]
  | addLeft c n => by
    rw [value, value_eq v n, slope, value]
    ring
  | addRight n c => by
    rw [value, value_eq v n, slope, value]
    ring
  | mulLeft c n => by
    rw [value, value_eq v n, slope, value]
    ring
  | mulRight n c => by
    rw [value, value_eq v n, slope, value]
    ring

theorem slope_ne_zero : ∀ {n : Nest}, n.NonZero → n.slope ≠ 0
  | hole, _ => one_ne_zero
  | addLeft _ n, h | addRight n _, h => slope_ne_zero (n := n) h
  | mulLeft _ _, h | mulRight _ _, h => mul_ne_zero h.1 (slope_ne_zero h.2)

/-- A limit for the whole, as a limit for the place. -/
def pull (n : Nest) (q : ℚ) : ℚ := (q - n.value 0) / n.slope

/-- **What is left of the limits** are their preimages. -/
theorem push_eq : ∀ {n : Nest}, n.NonZero → ∀ limit, n.push limit = (n.pull limit.1, n.pull limit.2)
  | hole, _, limit => by simp [push, pull, value, slope]
  | addLeft c n, h, limit => by
    have hpull : ∀ q : ℚ, n.pull (q - c) = (addLeft c n).pull q := fun q => by
      simp only [pull, value, slope]
      push_cast
      ring
    rw [push, push_eq (n := n) h, hpull, hpull]
  | addRight n c, h, limit => by
    have hpull : ∀ q : ℚ, n.pull (q - c) = (addRight n c).pull q := fun q => by
      simp only [pull, value, slope]
      push_cast
      ring
    rw [push, push_eq (n := n) h, hpull, hpull]
  | mulLeft c n, ⟨hc, hn⟩, limit => by
    have hc' : (c : ℚ) ≠ 0 := Int.cast_ne_zero.mpr hc
    have hs : (n.slope : ℚ) ≠ 0 := Int.cast_ne_zero.mpr (slope_ne_zero hn)
    have hpull : ∀ q : ℚ, n.pull (q / c) = (mulLeft c n).pull q := fun q => by
      simp only [pull, value, slope]
      push_cast
      field_simp
    rw [push, push_eq hn, hpull, hpull]
  | mulRight n c, ⟨hc, hn⟩, limit => by
    have hc' : (c : ℚ) ≠ 0 := Int.cast_ne_zero.mpr hc
    have hs : (n.slope : ℚ) ≠ 0 := Int.cast_ne_zero.mpr (slope_ne_zero hn)
    have hpull : ∀ q : ℚ, n.pull (q / c) = (mulRight n c).pull q := fun q => by
      simp only [pull, value, slope]
      push_cast
      field_simp
    rw [push, push_eq hn, hpull, hpull]

/-- With a positive slope a limit holds of the place exactly if it does of the
whole. -/
theorem pull_le_iff {n : Nest} (h : 0 < n.slope) (q v : ℤ) :
    (n.pull q ≤ v ↔ q ≤ n.value v) ∧ ((v : ℚ) ≤ n.pull q ↔ n.value v ≤ q) := by
  have hs : (0 : ℚ) < n.slope := Int.cast_pos.mpr h
  have hv : ((n.value v : ℤ) : ℚ) = n.slope * v + n.value 0 := by
    rw [value_eq]
    push_cast
    ring
  constructor
  · rw [pull, div_le_iff₀ hs, ← Int.cast_le (R := ℚ), hv]
    constructor <;> intro hle <;> linarith
  · rw [pull, le_div_iff₀ hs, ← Int.cast_le (R := ℚ), hv]
    constructor <;> intro hle <;> linarith

/-- With a negative slope it is the other way round. -/
theorem pull_le_iff_of_neg {n : Nest} (h : n.slope < 0) (q v : ℤ) :
    (n.pull q ≤ v ↔ n.value v ≤ q) ∧ ((v : ℚ) ≤ n.pull q ↔ q ≤ n.value v) := by
  have hs : (n.slope : ℚ) < 0 := Int.cast_lt_zero.mpr h
  have hv : ((n.value v : ℤ) : ℚ) = n.slope * v + n.value 0 := by
    rw [value_eq]
    push_cast
    ring
  constructor
  · rw [pull, div_le_iff_of_neg hs, ← Int.cast_le (R := ℚ), hv]
    constructor <;> intro hle <;> linarith
  · rw [pull, le_div_iff_of_neg hs, ← Int.cast_le (R := ℚ), hv]
    constructor <;> intro hle <;> linarith

end Nest

/-! ### What the checker peels off -/

/-- A binary operator at the root. -/
def isBinary : Symbol → Bool
  | .binaryOperator _ _ _ => true
  | _ => false

/-- The sum or product with a constant, around what is below it. -/
def peel (op : BinaryOp) (c : ℤ) (sum product : Nest → Nest) (below : Nest × Symbol) :
    Option (Nest × Symbol) :=
  if op = .plus then some (sum below.1, below.2)
  else if op = .times ∧ c ≠ 0 then some (product below.1, below.2)
  else none

/-- The value of a constant. -/
def constant? : Symbol → Option ℤ
  | .concreteInt c => some c
  | _ => none

/-- The sums and products with constants that the checker peels off an argument,
the constant on the right first, and what it then asks for its constraints. -/
def decompose : Symbol → Nest × Symbol
  | .binaryOperator lhs op rhs =>
    let whole := (.hole, .binaryOperator lhs op rhs)
    match constant? rhs, constant? lhs with
    | some c, _ => (peel op c (.addRight · c) (.mulRight · c) (decompose lhs)).getD whole
    | none, some c => (peel op c (.addLeft c ·) (.mulLeft c ·) (decompose rhs)).getD whole
    | none, none => whole
  | arg => (.hole, arg)

theorem constant?_eq_some {s : Symbol} {c : ℤ} : constant? s = some c ↔ s = .concreteInt c := by
  cases s <;> simp [constant?]

theorem peel_cases (op : BinaryOp) (c : ℤ) (sum product : Nest → Nest) (below : Nest × Symbol) :
    (op = .plus ∧ peel op c sum product below = some (sum below.1, below.2)) ∨
    (op = .times ∧ c ≠ 0 ∧ peel op c sum product below = some (product below.1, below.2)) ∨
    (∀ limit, shiftLimit op c limit = none) ∧ peel op c sum product below = none := by
  by_cases hp : op = .plus
  · exact .inl ⟨hp, if_pos hp⟩
  by_cases ht : op = .times ∧ c ≠ 0
  · exact .inr (.inl ⟨ht.1, ht.2, by rw [peel, if_neg hp, if_pos ht]⟩)
  · exact .inr (.inr ⟨fun limit => by rw [shiftLimit, if_neg hp, if_neg ht],
      by rw [peel, if_neg hp, if_neg ht]⟩)

/-- The argument is what was peeled off, with what is left in the place. -/
theorem decompose_spec : ∀ arg : Symbol,
    arg = (decompose arg).1.plug (decompose arg).2 ∧ (decompose arg).1.NonZero
  | .binaryOperator lhs op rhs => by
    obtain ⟨hl, hlzero⟩ := decompose_spec lhs
    obtain ⟨hr, hrzero⟩ := decompose_spec rhs
    rw [decompose]
    cases hrc : constant? rhs with
    | some c =>
      obtain rfl := constant?_eq_some.mp hrc
      rcases peel_cases op c (.addRight · c) (.mulRight · c) (decompose lhs) with
        ⟨rfl, hpeel⟩ | ⟨rfl, hc, hpeel⟩ | ⟨-, hpeel⟩
      · simp only [hpeel, Option.getD_some]
        exact ⟨by rw [Nest.plug, ← hl], hlzero⟩
      · simp only [hpeel, Option.getD_some]
        exact ⟨by rw [Nest.plug, ← hl], hc, hlzero⟩
      · simp only [hpeel, Option.getD_none]
        exact ⟨rfl, trivial⟩
    | none =>
      cases hlc : constant? lhs with
      | some c =>
        obtain rfl := constant?_eq_some.mp hlc
        rcases peel_cases op c (.addLeft c ·) (.mulLeft c ·) (decompose rhs) with
          ⟨rfl, hpeel⟩ | ⟨rfl, hc, hpeel⟩ | ⟨-, hpeel⟩
        · simp only [hpeel, Option.getD_some]
          exact ⟨by rw [Nest.plug, ← hr], hrzero⟩
        · simp only [hpeel, Option.getD_some]
          exact ⟨by rw [Nest.plug, ← hr], hc, hrzero⟩
        · simp only [hpeel, Option.getD_none]
          exact ⟨rfl, trivial⟩
      | none => exact ⟨rfl, trivial⟩
  | .concreteInt _ | .call _ _ | .stringLiteral _ | .field _ _ | .array _ _ | .constraint _ _ | .id _ =>
    ⟨rfl, trivial⟩

section

variable [StrHash] (cmgr : Option ConstraintMgr)

/-- One round of the checker on an operator. -/
theorem check_binary (lhs : Symbol) (op : BinaryOp) (rhs : Symbol) (limit : ℚ × ℚ) :
    checkIntegerOverflow cmgr (.binaryOperator lhs op rhs) limit =
      match constant? rhs, constant? lhs with
      | some c, _ =>
        match shiftLimit op c limit with
        | some limit => checkIntegerOverflow cmgr lhs limit
        | none => .ok .undefined
      | none, some c =>
        match shiftLimit op c limit with
        | some limit => checkIntegerOverflow cmgr rhs limit
        | none => .ok .undefined
      | none, none => .ok .missing := by
  cases rhs <;> cases lhs <;> rfl

/-- What the checker says of what it was given, once it was decomposed. -/
def Says (r : Except Error IntOvflChkType) (d : Nest × Symbol) (limit : ℚ × ℚ) : Prop :=
  if isBinary d.2 then r = .ok .undefined ∨ r = .ok .missing
  else r = checkIntegerOverflow cmgr d.2 (d.1.push limit)

/-- Peeling a constant off keeps what the checker says. -/
theorem Says.peel {op : BinaryOp} {c : ℤ} {sum product : Nest → Nest} {below whole : Symbol}
    (hsum : ∀ n limit, (sum n).push limit = n.push (limit.1 - c, limit.2 - c))
    (hproduct : ∀ n limit, (product n).push limit = n.push (limit.1 / c, limit.2 / c))
    (hwhole : isBinary whole = true)
    (ih : ∀ limit, Says cmgr (checkIntegerOverflow cmgr below limit) (decompose below) limit)
    (limit : ℚ × ℚ) :
    Says cmgr (match shiftLimit op c limit with
      | some limit => checkIntegerOverflow cmgr below limit
      | none => .ok .undefined)
      ((IntOvflChecker.peel op c sum product (decompose below)).getD (.hole, whole)) limit := by
  rcases peel_cases op c sum product (decompose below) with
    ⟨rfl, hpeel⟩ | ⟨rfl, hc, hpeel⟩ | ⟨hnone, hpeel⟩
  · rw [hpeel, shiftLimit, if_pos rfl, Says, Option.getD_some, hsum]
    exact ih _
  · have hlimit : shiftLimit .times c limit = some (limit.1 / c, limit.2 / c) := by
      rw [shiftLimit, if_neg (by decide), if_pos ⟨rfl, hc⟩]
    rw [hpeel, hlimit, Says, Option.getD_some, hproduct]
    exact ih _
  · rw [hpeel, hnone, Says, Option.getD_none, if_pos hwhole]
    exact .inl rfl

/-- **The checker asks for the constraints of the symbol inside**, with what is
left of the limits, or has no verdict. -/
theorem check_decompose : ∀ (arg : Symbol) (limit : ℚ × ℚ),
    Says cmgr (checkIntegerOverflow cmgr arg limit) (decompose arg) limit
  | .binaryOperator lhs op rhs, limit => by
    have hl := check_decompose lhs
    have hr := check_decompose rhs
    rw [check_binary, decompose]
    cases hrc : constant? rhs with
    | some c => exact Says.peel cmgr (fun _ _ => rfl) (fun _ _ => rfl) rfl hl limit
    | none =>
      cases hlc : constant? lhs with
      | some c => exact Says.peel cmgr (fun _ _ => rfl) (fun _ _ => rfl) rfl hr limit
      | none => exact .inr rfl
  | .concreteInt _, _ | .call _ _, _ | .stringLiteral _, _ | .field _ _, _ | .array _ _, _
  | .constraint _ _, _ | .id _, _ => rfl

/-! ### The verdicts -/

variable {m : ConstraintMgr}

/-- The symbol inside has one interval. -/
def Interval (m : ConstraintMgr) (arg : Symbol) (lo hi : ℤ) : Prop :=
  isBinary (decompose arg).2 = false ∧ m.get (decompose arg).2 = some [(lo, hi)]

/-- The interval passes the check. -/
def Passes (n : Nest) (limit : ℚ × ℚ) (lo hi : ℤ) : Prop := n.pull limit.1 ≤ lo ∧ hi ≤ n.pull limit.2

/-- What the checker says of the constraints it finds. -/
def asked (limit : ℚ × ℚ) : Option (List (ℤ × ℤ)) → IntOvflChkType
  | some [(lower, upper)] => if limit.1 ≤ lower ∧ upper ≤ limit.2 then .correct else .wrong
  | some (_ :: _ :: _) => .undefined
  | some [] | none => if limit = intLimit then .undefined else .missing

theorem check_symbol {s : Symbol} (hs : isBinary s = false) (limit : ℚ × ℚ) :
    checkIntegerOverflow (some m) s limit = .ok (asked limit (m.get s)) := by
  have hget : getConstraint (some m) s = .ok (m.get s) := rfl
  have hcheck : ∀ constraints, m.get s = constraints →
      checkIntegerOverflow (some m) s limit = .ok (asked limit constraints) := by
    rintro constraints hconstraints
    rw [hconstraints] at hget
    cases s with
    | binaryOperator _ _ _ => cases hs
    | _ =>
      rw [checkIntegerOverflow, hget, ok_bind]
      · rcases constraints with _ | _ | ⟨⟨lower, upper⟩, _ | _⟩
        · exact (apply_ite Except.ok _ _ _).symm
        · exact (apply_ite Except.ok _ _ _).symm
        · exact (apply_ite Except.ok _ _ _).symm
        · rfl
      · rintro lhs op rhs h
        cases h
  exact hcheck _ rfl

omit [StrHash] in
theorem asked_iff (limit : ℚ × ℚ) (constraints : Option (List (ℤ × ℤ))) :
    (asked limit constraints = .correct ↔
      ∃ lo hi : ℤ, constraints = some [(lo, hi)] ∧ limit.1 ≤ lo ∧ hi ≤ limit.2) ∧
    (asked limit constraints = .wrong ↔
      ∃ lo hi : ℤ, constraints = some [(lo, hi)] ∧ ¬ (limit.1 ≤ lo ∧ hi ≤ limit.2)) := by
  rcases constraints with _ | _ | ⟨⟨lower, upper⟩, _ | _⟩
  · by_cases h : limit = intLimit <;> simp [asked, h]
  · by_cases h : limit = intLimit <;> simp [asked, h]
  · by_cases h : limit.1 ≤ lower ∧ upper ≤ limit.2
    · simp [asked, h]
    · rw [asked, if_neg h]
      simpa using h
  · simp [asked]

/-- **The two verdicts** are about the one interval of the symbol inside. -/
theorem verdict (arg : Symbol) (limit : ℚ × ℚ) :
    (checkIntegerOverflow (some m) arg limit = .ok .correct ↔
      ∃ lo hi, Interval m arg lo hi ∧ Passes (decompose arg).1 limit lo hi) ∧
    (checkIntegerOverflow (some m) arg limit = .ok .wrong ↔
      ∃ lo hi, Interval m arg lo hi ∧ ¬ Passes (decompose arg).1 limit lo hi) := by
  have hverdict := check_decompose (some m) arg limit
  rw [Says] at hverdict
  cases hb : isBinary (decompose arg).2 with
  | true =>
    rw [hb, if_pos rfl] at hverdict
    have hnone : ∀ lo hi, ¬ Interval m arg lo hi := fun lo hi h => by
      rw [Interval, hb] at h
      cases h.1
    rcases hverdict with hr | hr <;> rw [hr] <;> simp [hnone]
  | false =>
    rw [hb, if_neg Bool.false_ne_true, check_symbol hb, Nest.push_eq (decompose_spec arg).2] at hverdict
    have hinterval : ∀ lo hi, Interval m arg lo hi ↔ m.get (decompose arg).2 = some [(lo, hi)] :=
      fun lo hi => and_iff_right hb
    rw [hverdict, Except.ok.injEq, Except.ok.injEq]
    simp only [hinterval, Passes]
    exact asked_iff _ _

/-- The intervals of the manager are not empty. -/
def Proper (m : ConstraintMgr) : Prop :=
  ∀ key constraints, m.get? key = some constraints → ∀ p ∈ constraints, p.1 ≤ p.2

theorem Interval.le (hm : Proper m) {arg : Symbol} {lo hi : ℤ} (h : Interval m arg lo hi) : lo ≤ hi :=
  hm _ _ h.2 (lo, hi) (List.mem_singleton_self _)

omit [StrHash] in
/-- The limits of an unsigned integer, as integers. -/
theorem intLimit_eq : intLimit = (((0 : ℤ) : ℚ), ((2 ^ 32 - 1 : ℤ) : ℚ)) := by
  rw [intLimit]
  norm_num

/-- The value is one of an unsigned integer of 32 bits. -/
def InRange (v : ℤ) : Prop := 0 ≤ v ∧ v ≤ 2 ^ 32 - 1

instance (v : ℤ) : Decidable (InRange v) := inferInstanceAs (Decidable (_ ∧ _))

omit [StrHash] in
/-- Between two values that are in range, all are. -/
theorem InRange.between {n : Nest} {lo hi v : ℤ} (hlo : InRange (n.value lo)) (hhi : InRange (n.value hi))
    (hv : lo ≤ v) (hv' : v ≤ hi) : InRange (n.value v) := by
  obtain ⟨h1, h2⟩ := hlo
  obtain ⟨h3, h4⟩ := hhi
  rw [Nest.value_eq] at h1 h2 h3 h4
  rw [InRange, Nest.value_eq]
  rcases le_total 0 n.slope with hs | hs
  · have hl := mul_le_mul_of_nonneg_left hv hs
    have hr := mul_le_mul_of_nonneg_left hv' hs
    exact ⟨by omega, by omega⟩
  · have hl := mul_le_mul_of_nonpos_left hv hs
    have hr := mul_le_mul_of_nonpos_left hv' hs
    exact ⟨by omega, by omega⟩

omit [StrHash] in
/-- An interval only passes where the slope is positive. -/
theorem passes_iff {n : Nest} (hn : n.NonZero) {lo hi : ℤ} (hle : lo ≤ hi) :
    Passes n intLimit lo hi ↔ 0 < n.slope ∧ ∀ v, lo ≤ v → v ≤ hi → InRange (n.value v) := by
  rw [Passes, intLimit_eq]
  rcases lt_or_gt_of_ne (Nest.slope_ne_zero hn) with hneg | hpos
  · rw [(Nest.pull_le_iff_of_neg hneg 0 lo).1, (Nest.pull_le_iff_of_neg hneg _ hi).2]
    have hmono : n.value hi ≤ n.value lo := by
      rw [Nest.value_eq hi, Nest.value_eq lo]
      have := mul_le_mul_of_nonpos_left hle (Int.le_of_lt hneg)
      omega
    constructor
    · rintro ⟨hlo, hhi⟩
      omega
    · rintro ⟨hslope, -⟩
      omega
  · rw [(Nest.pull_le_iff hpos 0 lo).1, (Nest.pull_le_iff hpos _ hi).2]
    have hmono : ∀ u v, u ≤ v → n.value u ≤ n.value v := fun u v huv => by
      rw [Nest.value_eq u, Nest.value_eq v]
      have := mul_le_mul_of_nonneg_left huv (Int.le_of_lt hpos)
      omega
    constructor
    · rintro ⟨hlo, hhi⟩
      refine ⟨hpos, fun v hv hv' => ?_⟩
      have h1 := hmono lo v hv
      have h2 := hmono v hi hv'
      exact ⟨by omega, by omega⟩
    · rintro ⟨-, hall⟩
      exact ⟨(hall lo le_rfl hle).1, (hall hi hle le_rfl).2⟩

/-- **`Correct` can be trusted.** The argument is a nest of sums and products with
constants around a symbol with one interval, and in range for all its values. -/
theorem correct_sound (hm : Proper m) {arg : Symbol}
    (h : checkIntegerOverflow (some m) arg intLimit = .ok .correct) :
    ∃ (n : Nest) (s : Symbol) (lo hi : ℤ), arg = n.plug s ∧ n.NonZero ∧ isBinary s = false ∧
      m.get s = some [(lo, hi)] ∧ ∀ v, lo ≤ v → v ≤ hi → InRange (n.value v) := by
  obtain ⟨lo, hi, hinterval, hpasses⟩ := (verdict arg intLimit).1.mp h
  obtain ⟨hplug, hzero⟩ := decompose_spec arg
  obtain ⟨-, hall⟩ := (passes_iff hzero (hinterval.le hm)).mp hpasses
  exact ⟨_, _, lo, hi, hplug, hzero, hinterval.1, hinterval.2, hall⟩

/-- **When `Wrong` has a witness.** Unless the product of the multipliers is
negative and the values at both ends of the interval are in range. -/
theorem wrong_iff (hm : Proper m) (arg : Symbol) :
    (checkIntegerOverflow (some m) arg intLimit = .ok .wrong → ∃ lo hi v, Interval m arg lo hi ∧
      lo ≤ v ∧ v ≤ hi ∧ ¬ InRange ((decompose arg).1.value v)) ↔
    ∀ lo hi, Interval m arg lo hi → 0 < (decompose arg).1.slope ∨
      ¬ (InRange ((decompose arg).1.value lo) ∧ InRange ((decompose arg).1.value hi)) := by
  have hzero := (decompose_spec arg).2
  constructor
  · intro h lo hi hinterval
    by_contra hnot
    rw [not_or, not_not] at hnot
    obtain ⟨hslope, hlo, hhi⟩ := hnot
    have hfail : ¬ Passes (decompose arg).1 intLimit lo hi := fun hp =>
      hslope ((passes_iff hzero (hinterval.le hm)).mp hp).1
    obtain ⟨lo', hi', v, hinterval', hv, hv', hout⟩ := h ((verdict arg intLimit).2.mpr ⟨lo, hi, hinterval, hfail⟩)
    obtain ⟨rfl, rfl⟩ : lo = lo' ∧ hi = hi' := by simpa [hinterval.2] using hinterval'.2
    exact hout (InRange.between hlo hhi hv hv')
  · intro h hwrong
    obtain ⟨lo, hi, hinterval, hfail⟩ := (verdict arg intLimit).2.mp hwrong
    have hle := hinterval.le hm
    rcases h lo hi hinterval with hslope | hends
    · by_contra hnone
      refine hfail ((passes_iff hzero hle).mpr ⟨hslope, fun v hv hv' => ?_⟩)
      by_contra hout
      exact hnone ⟨lo, hi, v, hinterval, hv, hv', hout⟩
    · rcases not_and_or.mp hends with hlo | hhi
      · exact ⟨lo, hi, lo, hinterval, le_rfl, hle, hlo⟩
      · exact ⟨lo, hi, hi, hinterval, hle, le_rfl, hhi⟩

/-- A manager with one interval for a symbol. -/
def knows (s : Symbol) (lo hi : ℤ) : ConstraintMgr := .set .empty s.key [(lo, hi)]

theorem proper_knows (s : Symbol) {lo hi : ℤ} (h : lo ≤ hi) : Proper (knows s lo hi) := by
  intro key constraints hget p hp
  rw [knows, Dict.get?_set] at hget
  split_ifs at hget with hk
  · cases hget
    rw [List.mem_singleton.mp hp]
    exact h
  · cases hget

end

/-- The argument `n * 4` for at most ten elements. -/
theorem correct_sound_size :
    let _ : StrHash := ⟨fun s => s.length⟩
    let size : Symbol := .binaryOperator (.id "n") .times (.concreteInt 4)
    ∃ (n : Nest) (s : Symbol) (lo hi : ℤ), size = n.plug s ∧ n.NonZero ∧ isBinary s = false ∧
      (knows (.id "n") 0 10).get s = some [(lo, hi)] ∧ ∀ v, lo ≤ v → v ≤ hi → InRange (n.value v) := by
  intro _ size
  have hcorrect : checkIntegerOverflow (some (knows (.id "n") 0 10)) size intLimit = .ok .correct := by
    decide +kernel
  exact correct_sound (proper_knows _ (by decide)) hcorrect

/-- The argument `n * -1 + 10`. -/
def tenMinus : Symbol :=
  .binaryOperator (.binaryOperator (.id "n") .times (.concreteInt (-1))) .plus (.concreteInt 10)

/-- For `n` from 1 to 5 the values are 9 to 5, and the check says `Wrong`. -/
theorem wrong_unfounded :
    let _ : StrHash := ⟨fun s => s.length⟩
    checkIntegerOverflow (some (knows (.id "n") 1 5)) tenMinus intLimit = .ok .wrong ∧
      tenMinus = (decompose tenMinus).1.plug (.id "n") ∧
      ¬ ∃ v, 1 ≤ v ∧ v ≤ 5 ∧ ¬ InRange ((decompose tenMinus).1.value v) := by
  refine ⟨by decide +kernel, rfl, ?_⟩
  rintro ⟨v, hv, hv', hout⟩
  have hvalue : (decompose tenMinus).1.value v = v * -1 + 10 := rfl
  rw [hvalue, InRange] at hout
  omega

/-- For `n` of at least 20 there is a witness. -/
theorem wrong_iff_large :
    let _ : StrHash := ⟨fun s => s.length⟩
    ∃ lo hi v, Interval (knows (.id "n") 20 30) tenMinus lo hi ∧
      lo ≤ v ∧ v ≤ hi ∧ ¬ InRange ((decompose tenMinus).1.value v) := by
  intro _
  refine (wrong_iff (proper_knows _ (by decide)) tenMinus).mpr (fun lo hi h => ?_) (by decide +kernel)
  obtain ⟨rfl, rfl⟩ : 20 = lo ∧ 30 = hi := by
    have hget := h.2
    simpa [knows, decompose, ConstraintMgr.get, Dict.get?_set, tenMinus, peel, constant?] using hget
  exact .inr (by decide)

end IntOvflChecker
end Apisan
