import ScalarDomain.Binary

/-!
# Shortest decimals

The decimal of fewest significant digits that reads back as a given double; of two such
decimals with the same number of digits the closer one, and the larger one of a tie. The reals
that read back as `m * 2 ^ e` are those between the midpoints to its two neighbours, the
midpoints included when `m` is even, so all tests are comparisons of integers: a decimal
`d * 10 ^ p` is compared with `b * 2 ^ q` after clearing the negative powers.
-/

namespace ScalarDomain.Decimal

/-- A positive decimal `digits * 10 ^ exponent`. -/
structure Scientific where
  /-- The significant digits, as a number. -/
  digits : Nat
  /-- The power of ten. -/
  exponent : Int
deriving DecidableEq

/-- The power `10 ^ n`. -/
def tenPow (n : Nat) : Nat :=
  Nat.pow 10 n

/-- The order of `d * 10 ^ p` and `b * 2 ^ q`. -/
def compareBinary (d : Nat) (p : Int) (b : Nat) (q : Int) : Ordering :=
  compare (d * tenPow p.toNat * twoPow (-q).toNat) (b * twoPow q.toNat * tenPow (-p).toNat)

/-- The reals that read back as one double, in units of `2 ^ exponent`. -/
structure Neighbourhood where
  /-- The lower midpoint. -/
  lower : Nat
  /-- The value itself. -/
  centre : Nat
  /-- The upper midpoint. -/
  upper : Nat
  /-- The power of two. -/
  exponent : Int
  /-- Whether the midpoints belong to it. -/
  closed : Bool

namespace Neighbourhood

/-- The neighbourhood of the double `m * 2 ^ e`. Below the first double of a binade the gap is
half as wide. -/
def ofScaled (m : Nat) (e : Int) : Neighbourhood :=
  let narrow :=
    m == FloatType.double.format.binade && decide (FloatType.double.format.minExponent < e)
  { lower := if narrow then 4 * m - 1 else 4 * m - 2
    centre := 4 * m
    upper := 4 * m + 2
    exponent := e - 2
    closed := m % 2 == 0 }

/-- Whether a decimal lies in the neighbourhood. -/
def contains (n : Neighbourhood) (d : Scientific) : Bool :=
  let low := compareBinary d.digits d.exponent n.lower n.exponent
  let high := compareBinary d.digits d.exponent n.upper n.exponent
  (low == .gt || (low == .eq && n.closed)) && (high == .lt || (high == .eq && n.closed))

/-- The largest `d` with `d * 10 ^ p` at most the centre. -/
def floorAt (n : Neighbourhood) (p : Int) : Nat :=
  (n.centre * twoPow n.exponent.toNat * tenPow (-p).toNat) /
    (twoPow (-n.exponent).toNat * tenPow p.toNat)

/-- The decimal of the grid `10 ^ p` in the neighbourhood that is closest to the centre, if the
grid meets the neighbourhood; the larger one of a tie. -/
def onGrid? (n : Neighbourhood) (p : Int) : Option Scientific :=
  let below : Scientific := ⟨n.floorAt p, p⟩
  let above : Scientific := ⟨n.floorAt p + 1, p⟩
  match n.contains below, n.contains above with
  | false, false => none
  | true, false => some below
  | false, true => some above
  | true, true =>
    -- the middle of the two is `(2 * below + 1) / 2`
    match compareBinary (2 * below.digits + 1) p (2 * n.centre) n.exponent with
    | .gt => some below
    | _ => some above

/-- An exponent `k` with `10 ^ (k - 1) ≤ centre < 10 ^ k`, found upward from a lower bound. -/
def magnitudeFrom (n : Neighbourhood) : Nat → Int → Int
  | 0, k => k
  | fuel + 1, k =>
    if compareBinary 1 k n.centre n.exponent == .gt then k else magnitudeFrom n fuel (k + 1)

/-- The number of digits before the decimal point, negative for small values. The logarithm
base two bounds it from below up to rounding. -/
def magnitude (n : Neighbourhood) : Int :=
  let bits := (n.centre.log2 : Int) + n.exponent
  n.magnitudeFrom 4 (bits * 30103 / 100000 - 1)

/-- The first decimal found on grids of increasing fineness. -/
def search (n : Neighbourhood) (magnitude : Int) : Nat → Nat → Scientific
  | 0, count => ⟨n.floorAt (magnitude - count), magnitude - count⟩
  | fuel + 1, count =>
    match n.onGrid? (magnitude - count) with
    | some d => d
    | none => search n magnitude fuel (count + 1)

end Neighbourhood

/-- The decimal without trailing zeros. -/
def Scientific.strip : Nat → Scientific → Scientific
  | 0, d => d
  | fuel + 1, d =>
    if d.digits % 10 = 0 ∧ d.digits ≠ 0 then strip fuel ⟨d.digits / 10, d.exponent + 1⟩ else d

/-- The shortest decimal that reads back as the double `m * 2 ^ e`, for `m ≠ 0`. Seventeen
digits always suffice. -/
def shortest (m : Nat) (e : Int) : Scientific :=
  let n := Neighbourhood.ofScaled m e
  (n.search n.magnitude 17 1).strip 20

end ScalarDomain.Decimal
