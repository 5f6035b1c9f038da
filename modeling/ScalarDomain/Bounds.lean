import ScalarDomain.Binary

/-!
# Closed ranges

`Bounds α` is the closed range between two values. The operations that any ordered family
shares take the strict order as an argument; ranges of integers have their own. A range of
values of a signed type that crosses zero is not contiguous as a range of bit patterns, and the
other way round, so `IntType.bitRanges` and `IntType.valueRanges` give at most two ranges.
-/

namespace ScalarDomain

/-- The closed range between two values. -/
structure Bounds (α : Type) where
  /-- The lower end. -/
  lo : α
  /-- The upper end. -/
  hi : α
deriving DecidableEq

/-- A closed range of integers. -/
abbrev Range := Bounds Int

/-! ### Ranges under a given order -/

/-- The smaller of two values; the first wins a tie. -/
def least {α : Type} (less : α → α → Bool) (a b : α) : α :=
  if less b a then b else a

/-- The larger of two values; the first wins a tie. -/
def greatest {α : Type} (less : α → α → Bool) (a b : α) : α :=
  if less a b then b else a

/-- The strict order of the integers. -/
def intLess (a b : Int) : Bool :=
  decide (a < b)

/-- The strict order of the doubles; NaN is below and above nothing. -/
def floatLess (a b : Float) : Bool :=
  decide (a < b)

namespace Bounds

variable {α : Type} (less : α → α → Bool)

/-- Whether no value lies between the ends. -/
def isEmptyBy (x : Bounds α) : Bool :=
  less x.hi x.lo

/-- The common part of two ranges. -/
def meetBy (x y : Bounds α) : Bounds α :=
  ⟨greatest less x.lo y.lo, least less x.hi y.hi⟩

end Bounds

/-! ### Ranges of integers -/

namespace Bounds

/-- The range of one integer. -/
def point (v : Int) : Range :=
  ⟨v, v⟩

/-- Whether an integer lies in the range. -/
def contains (r : Range) (v : Int) : Bool :=
  decide (r.lo ≤ v) && decide (v ≤ r.hi)

/-- The common part of two ranges, when there is one. -/
def meet? (r s : Range) : Option Range :=
  if max r.lo s.lo ≤ min r.hi s.hi then some ⟨max r.lo s.lo, min r.hi s.hi⟩ else none

/-- The smallest range that covers all given ranges. -/
def hull? : List Range → Option Range
  | [] => none
  | r :: rs => some (rs.foldl (fun s t => ⟨min s.lo t.lo, max s.hi t.hi⟩) r)

/-- The smallest range that holds all given integers. -/
def span? (vs : List Int) : Option Range :=
  hull? (vs.map point)

/-- The integers of the range in increasing order, at most `limit` of them. -/
def values (r : Range) (limit : Nat) : List Int :=
  (List.range (min limit (r.hi - r.lo + 1).toNat)).map fun (i : Nat) => r.lo + i

end Bounds

/-- The quotient rounded toward negative infinity. -/
def floorDiv (a b : Int) : Int :=
  a.fdiv b

/-- The quotient rounded toward positive infinity. -/
def ceilDiv (a b : Int) : Int :=
  -(-a).fdiv b

/-! ### Shift and rotation amounts -/

/-- The amount of a shift, when it is below the width. -/
def shiftAmount? (amount : Int) (width : Nat) : Option Nat :=
  if 0 ≤ amount ∧ amount < width then some amount.toNat else none

/-- The amount of a rotation, reduced modulo the width. -/
def rotateAmount (amount : Int) (width : Nat) : Nat :=
  (amount % (width : Int)).toNat

namespace IntType

/-- The range of all values of the type. -/
def full (t : IntType) : Range :=
  ⟨t.minValue, t.maxValue⟩

/-- The pattern of a value rotated to the left by `k` places, at most the width: the bits shifted
out on the left come back on the right. -/
def rotateLeft (t : IntType) (v : Int) (k : Nat) : Int :=
  if k = 0 then v
  else
    let bits := (t.toBits v).toNat
    t.ofBits ((((bits <<< k) ||| (bits >>> (t.width - k))) % twoPow t.width : Nat) : Int)

/-- The ranges of bit patterns of a range of values. -/
def bitRanges (t : IntType) (r : Range) : List Range :=
  if r.hi < r.lo then []
  else if 0 ≤ r.lo ∨ r.hi < 0 then [⟨t.toBits r.lo, t.toBits r.hi⟩]
  else [⟨0, t.toBits r.hi⟩, ⟨t.toBits r.lo, t.modulus - 1⟩]

/-- The ranges of values of a range of bit patterns. -/
def valueRanges (t : IntType) (r : Range) : List Range :=
  let half := pow2 (t.width - 1)
  if r.hi < r.lo then []
  else if !t.signed then [r]
  else if r.hi < half ∨ half ≤ r.lo then [⟨t.ofBits r.lo, t.ofBits r.hi⟩]
  else [⟨t.ofBits half, t.ofBits r.hi⟩, ⟨t.ofBits r.lo, t.ofBits (half - 1)⟩]

end IntType

end ScalarDomain
