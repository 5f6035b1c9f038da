import ScalarDomain.Backward.Frame

/-!
# Operands of arithmetic

The operands of steps, sums, differences and products. The mathematical results that land in a
range once they wrap around are pieces of the line, one for each multiple of the modulus; each
piece is inverted on its own.
-/

namespace ScalarDomain.Narrowing

/-- With more wrap-arounds than this the targets are taken as one range. -/
def maxPieces : Nat := 4

/-- The mathematical results in `span` that land in `z` once stored in `t`. When executions stop
on an error, only those that do not wrap around. -/
def wrappedTargets (stops : Bool) (z : Range) (t : IntType) (span : Range) : List Range :=
  if stops then (Bounds.meet? span z).toList
  else
    let first := ceilDiv (span.lo - z.hi) t.modulus
    let last := floorDiv (span.hi - z.lo) t.modulus
    if last < first then []
    else if (maxPieces : Int) ≤ last - first then
      (Bounds.meet? span ⟨z.lo + first * t.modulus, z.hi + last * t.modulus⟩).toList
    else
      (Bounds.values ⟨first, last⟩ maxPieces).filterMap fun (k : Int) =>
        Bounds.meet? span ⟨z.lo + k * t.modulus, z.hi + k * t.modulus⟩

/-- The operand of a predecessor. -/
def prev (stops : Bool) (f : Frame) : Narrowing :=
  let targets := wrappedTargets stops f.z.range f.x.type ⟨f.x.lo - 1, f.x.hi - 1⟩
  ofPieces (targets.map fun r => ⟨r.lo + 1, r.hi + 1⟩) true

/-- The operand of a successor. -/
def next (stops : Bool) (f : Frame) : Narrowing :=
  let targets := wrappedTargets stops f.z.range f.x.type ⟨f.x.lo + 1, f.x.hi + 1⟩
  ofPieces (targets.map fun r => ⟨r.lo - 1, r.hi - 1⟩) true

/-- The operand of an opposite. -/
def opposite (stops : Bool) (f : Frame) : Narrowing :=
  let targets := wrappedTargets stops f.z.range f.x.type ⟨-f.x.hi, -f.x.lo⟩
  ofPieces (targets.map fun r => ⟨-r.hi, -r.lo⟩) true

/-- The operands of a sum. -/
def plus (stops : Bool) (f : Frame) : Narrowing :=
  let x := f.x
  let y := f.second
  let targets := wrappedTargets stops f.z.range x.type ⟨x.lo + y.lo, x.hi + y.hi⟩
  ofPairs (targets.map fun r =>
    (⟨r.lo - y.hi, r.hi - y.lo⟩, ⟨r.lo - x.hi, r.hi - x.lo⟩)) true

/-- The operands of a difference. -/
def minus (stops : Bool) (f : Frame) : Narrowing :=
  let x := f.x
  let y := f.second
  let targets := wrappedTargets stops f.z.range x.type ⟨x.lo - y.hi, x.hi - y.lo⟩
  ofPairs (targets.map fun r =>
    (⟨r.lo + y.lo, r.hi + y.hi⟩, ⟨x.lo - r.hi, x.hi - r.lo⟩)) true

/-- The values of one factor, given the range `t` of the product and the other factor. A zero in
the other factor leaves this one free when the product may be zero. -/
def cofactors (t : Range) (own other : Span) : List Range :=
  if other.hasZero && t.contains 0 then [own.range]
  else
    (Step.nonzeroParts other.range).filterMap fun part =>
      let lo := min (min (ceilDiv t.lo part.lo) (ceilDiv t.lo part.hi))
        (min (ceilDiv t.hi part.lo) (ceilDiv t.hi part.hi))
      let hi := max (max (floorDiv t.lo part.lo) (floorDiv t.lo part.hi))
        (max (floorDiv t.hi part.lo) (floorDiv t.hi part.hi))
      Bounds.meet? ⟨lo, hi⟩ own.range

/-- The operands of a product. A product that may wrap around says nothing unless executions
stop on it. -/
def times (stops : Bool) (f : Frame) : Narrowing :=
  let x := f.x
  let y := f.second
  match Bounds.span? [x.lo * y.lo, x.lo * y.hi, x.hi * y.lo, x.hi * y.hi] with
  | none => unknown
  | some span =>
    let wraps := !x.type.contains span.lo || !x.type.contains span.hi
    if wraps && !stops then unknown
    else
      match Bounds.meet? span f.z.range with
      | none => impossible
      | some t => both? (Bounds.hull? (cofactors t x y)) (Bounds.hull? (cofactors t y x)) false

end ScalarDomain.Narrowing
