/-
# The ranges of a symbol

The machine integers of the constraint manager and its range sets: a set of
closed ranges of one integer type, in order, which an assumption intersects
with an interval that may wrap around (`RangeSet.intersect`).

Key definitions: `APSInt`, `APSIntType.testInRange`, `RangeSet.pin`,
`RangeSet.intersect`, `QualType`.
-/
import Apisan.Extractor.Conditions

namespace Apisan
namespace Ento

/-! ### Machine integers -/

/-- A width, and whether values are read as unsigned. -/
structure APSIntType where
  bitWidth : ℕ
  isUnsigned : Bool
  deriving DecidableEq, Repr

/-- `llvm::APSInt`. -/
structure APSInt where
  bitWidth : ℕ
  isUnsigned : Bool
  bits : BitVec bitWidth
  deriving DecidableEq, Repr

namespace APSInt

def type (i : APSInt) : APSIntType := ⟨i.bitWidth, i.isUnsigned⟩

/-- The value that comparisons and `toString` see. -/
def value (i : APSInt) : ℤ := if i.isUnsigned then i.bits.toNat else i.bits.toInt

def isNegative (i : APSInt) : Bool := i.bits.msb

/-- `getZExtValue`: the low 64 bits. -/
def getZExtValue (i : APSInt) : ℕ := i.bits.toNat % 2 ^ 64

def countLeadingZeros (i : APSInt) : ℕ := i.bits.clz.toNat

def countLeadingOnes (i : APSInt) : ℕ := (~~~i.bits).clz.toNat

def getActiveBits (i : APSInt) : ℕ := i.bitWidth - i.countLeadingZeros

/-- The bits that keep the value as a signed one. -/
def getMinSignedBits (i : APSInt) : ℕ :=
  if i.isNegative then i.bitWidth - i.countLeadingOnes + 1 else i.getActiveBits + 1

/-- `operator++`. -/
def succ (i : APSInt) : APSInt := { i with bits := i.bits + 1 }

/-- `operator--`. -/
def pred (i : APSInt) : APSInt := { i with bits := i.bits - 1 }

/-- `operator-`, of two integers of a type. -/
def sub (i j : APSInt) : APSInt := { i with bits := i.bits - j.bits.setWidth i.bitWidth }

/-- `operator-`, of one integer. -/
def neg (i : APSInt) : APSInt := { i with bits := -i.bits }

end APSInt

/-- `RangeTestResultKind`. -/
inductive RangeTestResult
  | below
  | within
  | above
  deriving DecidableEq, Repr

namespace APSIntType

/-- `apply` and `convert`, a C cast: the sign is extended before the type
changes. -/
def convert (t : APSIntType) (i : APSInt) : APSInt where
  bitWidth := t.bitWidth
  isUnsigned := t.isUnsigned
  bits := if i.isUnsigned then i.bits.setWidth t.bitWidth else i.bits.signExtend t.bitWidth

def getZeroValue (t : APSIntType) : APSInt := ⟨t.bitWidth, t.isUnsigned, 0⟩

def getMinValue (t : APSIntType) : APSInt :=
  ⟨t.bitWidth, t.isUnsigned, if t.isUnsigned then 0 else BitVec.intMin t.bitWidth⟩

def getMaxValue (t : APSIntType) : APSInt :=
  ⟨t.bitWidth, t.isUnsigned, if t.isUnsigned then BitVec.allOnes t.bitWidth else BitVec.intMax t.bitWidth⟩

/-- `testInRange`, with sign conversions allowed. -/
def testInRange (t : APSIntType) (i : APSInt) : RangeTestResult :=
  let minBits := if !i.isUnsigned && !t.isUnsigned then i.getMinSignedBits else i.getActiveBits
  if minBits ≤ t.bitWidth then .within
  else if !i.isUnsigned && i.isNegative then .below
  else .above

/-- `operator<`. -/
def lt (t u : APSIntType) : Bool :=
  decide (t.bitWidth < u.bitWidth) || (t.bitWidth == u.bitWidth && !t.isUnsigned && u.isUnsigned)

/-- `std::max`. -/
def max (t u : APSIntType) : APSIntType := if t.lt u then u else t

end APSIntType

/-! ### Range sets -/

/-- A closed range. -/
structure Range where
  first : APSInt
  second : APSInt
  deriving DecidableEq, Repr

namespace Range

def includes (r : Range) (v : APSInt) : Bool :=
  decide (r.first.value ≤ v.value) && decide (v.value ≤ r.second.value)

/-- `isLess`. -/
def isLess (r s : Range) : Bool :=
  decide (r.first.value < s.first.value) ||
    (!decide (s.first.value < r.first.value) && decide (r.second.value < s.second.value))

end Range

/-- The ranges of a set, in order. -/
abbrev RangeSet := List Range

namespace RangeSet

/-- `Factory::add`. -/
def add (r : Range) : RangeSet → RangeSet
  | [] => [r]
  | s :: ss => if r = s then r :: ss else if r.isLess s then r :: s :: ss else s :: add r ss

/-- `IntersectInRange`: the new ranges, and where the iteration stops. -/
def intersectInRange (lower upper : APSInt) : RangeSet → List Range → RangeSet × List Range
  | new, [] => (new, [])
  | new, i :: rest =>
    if i.second.value < lower.value then intersectInRange lower upper new rest
    else if i.first.value > upper.value then (new, i :: rest)
    else if i.includes lower then
      if i.includes upper then (add ⟨lower, upper⟩ new, i :: rest)
      else intersectInRange lower upper (add ⟨lower, i.second⟩ new) rest
    else if i.includes upper then (add ⟨i.first, upper⟩ new, i :: rest)
    else intersectInRange lower upper (add i new) rest

/-- `pin`, to the type of the set's minimum: none if no value of the type is
between the bounds. -/
def pin (type : APSIntType) (lower upper : APSInt) : Option (APSInt × APSInt) :=
  match type.testInRange lower, type.testInRange upper with
  | .below, .below | .above, .above =>
    if lower.value < upper.value then none else some (type.getMinValue, type.getMaxValue)
  | .below, .within | .above, .within => some (type.getMinValue, type.convert upper)
  | .below, .above => some (type.getMinValue, type.getMaxValue)
  | .within, .below | .within, .above => some (type.convert lower, type.getMaxValue)
  | .within, .within => some (type.convert lower, type.convert upper)
  | .above, .below => none

/-- `Intersect`. A lower bound above the upper one wraps around: the low part
comes first, since the iteration goes on where it stopped. -/
def intersect (ranges : RangeSet) (lower upper : APSInt) : RangeSet :=
  match ranges with
  | [] => []
  | r :: _ =>
    match pin r.first.type lower upper with
    | none => []
    | some (lower, upper) =>
      if lower.value ≤ upper.value then (intersectInRange lower upper [] ranges).1
      else
        let (new, rest) := intersectInRange upper.type.getMinValue upper [] ranges
        (intersectInRange lower lower.type.getMaxValue new rest).1

/-- The bounds that `print` writes. -/
def values (ranges : RangeSet) : Apisan.RangeSet := ranges.map fun r => (r.first.value, r.second.value)

end RangeSet

/-! ### Types -/

/-- A type of the program, as far as the constraint manager looks at it. -/
inductive QualType
  | integer (bitWidth : ℕ) (isUnsigned : Bool)
  | pointer (bitWidth : ℕ)
  | reference (bitWidth : ℕ)
  | other (bitWidth : ℕ)
  deriving DecidableEq, Repr

namespace QualType

def isIntegralOrEnumerationType : QualType → Bool
  | integer _ _ => true
  | _ => false

def isReferenceType : QualType → Bool
  | reference _ => true
  | _ => false

/-- `Loc::isLocType`. -/
def isLocType : QualType → Bool
  | pointer _ | reference _ => true
  | _ => false

/-- `BasicValueFactory::getAPSIntType`. -/
def getAPSIntType : QualType → APSIntType
  | integer w u => ⟨w, u⟩
  | pointer w | reference w | other w => ⟨w, true⟩

end QualType
end Ento
end Apisan
