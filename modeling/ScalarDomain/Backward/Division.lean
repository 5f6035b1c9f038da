import ScalarDomain.Backward.Frame

/-!
# Operands of divisions

The operands of a truncated quotient and of a remainder. Dividend and divisor are bounded case
by case: the divisor by its sign, the quotient by its sign or zero. For a quotient `t` the
magnitudes satisfy `|t| * |y| ≤ |x| < (|t| + 1) * |y|`.
-/

namespace ScalarDomain.Narrowing

/-- The smallest and the largest magnitude in a range. -/
def magnitudes (r : Range) : Int × Int :=
  let lo : Int := r.lo.natAbs
  let hi : Int := r.hi.natAbs
  (if r.contains 0 then 0 else min lo hi, max lo hi)

/-- The negative, positive and zero parts of a range. -/
def signParts (r : Range) : List Range :=
  Step.nonzeroParts r ++ (if r.contains 0 then [.point 0] else [])

/-- The dividends whose quotient by the positive divisors `d` lies in a range `t` of one sign. -/
def dividendsByPositive (t d : Range) : Range :=
  if 0 < t.lo then ⟨t.lo * d.lo, t.hi * d.hi + d.hi - 1⟩
  else if t.hi < 0 then ⟨t.lo * d.hi - (d.hi - 1), t.hi * d.lo⟩
  else ⟨1 - d.hi, d.hi - 1⟩

/-- The dividends whose quotient by divisors of one sign lies in `t`: the quotient by `-y` is the
opposite of the quotient by `y`. -/
def dividends? (t part : Range) : Option Range :=
  let opposite := fun (r : Range) => (⟨-r.hi, -r.lo⟩ : Range)
  let d := if part.lo < 0 then opposite part else part
  let q := if part.lo < 0 then opposite t else t
  Bounds.hull? ((signParts q).map fun piece => dividendsByPositive piece d)

/-- The divisors of one sign that bring some dividend of `x` to some quotient of `t`. -/
def divisors? (x t part : Range) : Option Range :=
  let least := floorDiv (magnitudes x).1 ((magnitudes t).2 + 1) + 1
  let most :=
    if (magnitudes t).1 = 0 then (magnitudes part).2
    else floorDiv (magnitudes x).2 (magnitudes t).1
  Bounds.meet? (if part.lo < 0 then ⟨-most, -least⟩ else ⟨least, most⟩) part

/-- The operands of a quotient. A divisor that may be zero says nothing unless executions stop on
it; otherwise the smallest value divided by minus one wraps around to itself. -/
def divide (stops : Bool) (f : Frame) : Narrowing :=
  let x := f.x
  let y := f.second
  let t := f.z.range
  if y.hasZero && !stops then unknown
  else
    let pairs := (Step.nonzeroParts y.range).filterMap fun part =>
      match (dividends? t part).bind (Bounds.meet? · x.range) with
      | none => none
      | some xs => (divisors? xs t part).map fun ys => (xs, ys)
    let least := x.type.minValue
    let wrapped :=
      if x.type.signed && !stops && t.contains least && x.range.contains least &&
          y.range.contains (-1) then
        [(Bounds.point least, Bounds.point (-1))]
      else []
    ofPairs (pairs ++ wrapped) false

/-- The operands of a remainder. Only a result without zero says something: it has the sign of
the dividend and bounds both magnitudes from below. -/
def modulo (stops : Bool) (f : Frame) : Narrowing :=
  let x := f.x
  let y := f.second
  let z := f.z
  if z.hasZero || (y.hasZero && !stops) then unknown
  else
    let first :=
      if 0 < z.lo then Bounds.meet? ⟨z.lo, x.hi⟩ x.range else Bounds.meet? ⟨x.lo, z.hi⟩ x.range
    let bound := (magnitudes z.range).1 + 1
    let seconds := (Step.nonzeroParts y.range).filterMap fun part =>
      Bounds.meet? (if part.lo < 0 then ⟨part.lo, -bound⟩ else ⟨bound, part.hi⟩) part
    both? first (Bounds.hull? seconds) false

end ScalarDomain.Narrowing
