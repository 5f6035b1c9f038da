import ScalarDomain.Type

/-!
# Binary floating point formats

The magnitudes of a format are numbered in increasing order: zero has index `0`, the smallest
subnormal index `1`, and infinity comes after the largest finite magnitude. `Format.scaled`
reads an index as `m * 2 ^ e`, and `Format.nearest` is the index closest to such a value, a tie
going to the even index. Rounding, neighbours, integer conversions and the remainder are all
exact integer arithmetic on these two functions; values of both types are held as doubles.

A double may also be written as the sixteen hexadecimal digits of its bits, which keeps the sign of
zero. All NaN are written as one word.
-/

namespace ScalarDomain

/-! ### Formats -/

/-- A binary floating point format. -/
structure Format where
  /-- Bits of a mantissa. -/
  precision : Nat
  /-- The exponent of the smallest subnormal. -/
  minExponent : Int
  /-- The index of infinity. -/
  infinite : Nat

namespace Format

/-- The number of indices in one binade. -/
def binade (f : Format) : Nat :=
  twoPow (f.precision - 1)

/-- The mantissa and exponent of an index: the magnitude is `m * 2 ^ e`. -/
def scaled (f : Format) (index : Nat) : Nat × Int :=
  if index < f.binade then (index, f.minExponent)
  else (index % f.binade + f.binade, f.minExponent + (index / f.binade : Nat) - 1)

/-- Quotient of `m` by `2 ^ n`, rounded to nearest, ties to even. -/
def shiftNearest (m n : Nat) : Nat :=
  let q := m / twoPow n
  let r := m % twoPow n
  if twoPow n < 2 * r || (2 * r == twoPow n && q % 2 == 1) then q + 1 else q

/-- The index of the magnitude closest to `m * 2 ^ e`, ties to even, saturated at infinity. The
index of `m * 2 ^ q` is `(q - minExponent) * binade + m`, also when rounding carried `m` into
the next binade. -/
def nearest (f : Format) (m : Nat) (e : Int) : Nat :=
  if m = 0 then 0
  else
    let q := max (e + (m.log2 : Int) + 1 - f.precision) f.minExponent
    let rounded := if q ≤ e then m * twoPow (e - q).toNat else shiftNearest m (q - e).toNat
    min ((q - f.minExponent).toNat * f.binade + rounded) f.infinite

end Format

/-- The format of a floating point type. -/
def FloatType.format : FloatType → Format
  | single => ⟨24, -149, 255 * twoPow 23⟩
  | double => ⟨53, -1074, 2047 * twoPow 52⟩

/-! ### Doubles -/

namespace Double

/-- Whether the sign bit is set. -/
def isNegative (x : Float) : Bool :=
  decide (twoPow 63 ≤ x.toBits.toNat)

/-- The index of the magnitude among the doubles. -/
def index (x : Float) : Nat :=
  x.toBits.toNat % twoPow 63

/-- The double of a sign and an index. -/
def ofIndex (negative : Bool) (index : Nat) : Float :=
  Float.ofBits (UInt64.ofNat ((if negative then twoPow 63 else 0) + index))

/-- Positive infinity. -/
def infinity : Float :=
  ofIndex false FloatType.double.format.infinite

/-- Not a number. -/
def nan : Float :=
  ofIndex false (FloatType.double.format.infinite + twoPow 51)

/-- The double closest to `± m * 2 ^ e`. -/
def ofScaled (negative : Bool) (m : Nat) (e : Int) : Float :=
  ofIndex negative (FloatType.double.format.nearest m e)

/-- The double closest to an integer, infinite beyond the range. -/
def ofInt (v : Int) : Float :=
  ofScaled (decide (v < 0)) v.natAbs 0

/-- Sign, mantissa and exponent of a finite double. -/
def scaled? (x : Float) : Option (Bool × Nat × Int) :=
  if index x < FloatType.double.format.infinite then
    some (isNegative x, FloatType.double.format.scaled (index x))
  else none

/-- The magnitude `m * 2 ^ e` rounded up to a natural number. -/
def ceilMagnitude (m : Nat) (e : Int) : Nat :=
  if 0 ≤ e then m * twoPow e.toNat else (m + twoPow (-e).toNat - 1) / twoPow (-e).toNat

/-- The magnitude `m * 2 ^ e` rounded down to a natural number. -/
def floorMagnitude (m : Nat) (e : Int) : Nat :=
  if 0 ≤ e then m * twoPow e.toNat else m / twoPow (-e).toNat

/-- The integer part of a finite double. -/
def truncate? (x : Float) : Option Int :=
  (scaled? x).map fun (negative, m, e) =>
    if negative then -(floorMagnitude m e : Int) else floorMagnitude m e

/-- The largest integer not above a finite double. -/
def floor? (x : Float) : Option Int :=
  (scaled? x).map fun (negative, m, e) =>
    if negative then -(ceilMagnitude m e : Int) else floorMagnitude m e

/-- The smallest integer not below a finite double. -/
def ceil? (x : Float) : Option Int :=
  (scaled? x).map fun (negative, m, e) =>
    if negative then -(floorMagnitude m e : Int) else ceilMagnitude m e

/-- The remainder of the truncated quotient, exact and with the sign of `x`. -/
def remainder (x y : Float) : Float :=
  match scaled? x, scaled? y with
  | some (negative, m, e), some (_, n, d) =>
    if n = 0 then nan
    else
      let q := min e d
      ofScaled negative ((m * twoPow (e - q).toNat) % (n * twoPow (d - q).toNat)) q
  | some _, none => if y.isNaN then nan else x
  | none, _ => nan

/-- The smaller of two doubles; NaN loses, and the second wins a tie. -/
def min (x y : Float) : Float :=
  if x.isNaN then y else if y.isNaN then x else if x < y then x else y

/-- The larger of two doubles; NaN loses, and the second wins a tie. -/
def max (x y : Float) : Float :=
  if x.isNaN then y else if y.isNaN then x else if y < x then x else y

/-- Whether two doubles have the same bit pattern. -/
def sameBits (x y : Float) : Bool :=
  x.toBits == y.toBits

/-! #### Doubles by their bits -/

/-- The number that a hexadecimal digit stands for. -/
def hexDigit? (c : Char) : Option Nat :=
  if '0' ≤ c ∧ c ≤ '9' then some (c.toNat - '0'.toNat)
  else if 'a' ≤ c ∧ c ≤ 'f' then some (c.toNat - 'a'.toNat + 10)
  else none

/-- The digits of a double, or `nan`. -/
def hex (x : Float) : String :=
  if x.isNaN then "nan"
  else
    let digits := Nat.toDigits 16 x.toBits.toNat
    String.ofList (List.replicate (16 - digits.length) '0' ++ digits)

/-- The double with the given digits. -/
def ofHex? (s : String) : Option Float :=
  if s = "nan" then some nan
  else if s.length = 16 then
    (s.toList.foldlM (fun n c => (hexDigit? c).map (16 * n + ·)) 0).map fun n =>
      Float.ofBits n.toUInt64
  else none

end Double

/-! ### Values of a type -/

namespace FloatType

open Double

/-- The index, in the format of the type, of the magnitude closest to that of a double. -/
def indexOf (t : FloatType) (x : Float) : Nat :=
  match scaled? x with
  | some (_, m, e) => t.format.nearest m e
  | none => t.format.infinite

/-- The double of a sign and an index in the format of the type. -/
def ofIndexOf (t : FloatType) (negative : Bool) (index : Nat) : Float :=
  if t.format.infinite ≤ index then ofIndex negative FloatType.double.format.infinite
  else ofScaled negative (t.format.scaled index).1 (t.format.scaled index).2

/-- The value of the type closest to a double. -/
def round (t : FloatType) (x : Float) : Float :=
  match t with
  | double => x
  | single => if x.isNaN then x else ofIndexOf single (isNegative x) (single.indexOf x)

/-- The largest finite value. -/
def maxFinite (t : FloatType) : Float :=
  t.ofIndexOf false (t.format.infinite - 1)

/-- The smallest positive normal value. -/
def minPositive (t : FloatType) : Float :=
  t.ofIndexOf false t.format.binade

/-- The smallest value of the type strictly greater than `x` (rounded to the type); NaN and
positive infinity are left alone. -/
def nextUp (t : FloatType) (x : Float) : Float :=
  let v := t.round x
  if v.isNaN || v == infinity then v
  else if t.indexOf v = 0 then t.ofIndexOf false 1
  else if isNegative v then t.ofIndexOf true (t.indexOf v - 1)
  else t.ofIndexOf false (t.indexOf v + 1)

/-- The largest value of the type strictly less than `x`. -/
def nextDown (t : FloatType) (x : Float) : Float :=
  -t.nextUp (-x)

end FloatType

end ScalarDomain
