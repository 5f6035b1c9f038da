import ScalarDomain.Backward.Comparison
import ScalarDomain.Backward.Logic

/-!
# Operands of float operations

Rounding rules out an exact inverse, so operands are bounded through the neighbours of the ends
of the result, and NaN is removed wherever it would have reached the result. A refined range that
ends in zero holds both zeros.
-/

namespace ScalarDomain

namespace Element

/-- The set of floats of an element that must be a float. -/
def floatSet (e : Element) : Except Fault FloatSet :=
  match e with
  | float _ s => .ok s.toSet
  | word _ _ => .error (.floatRefinement e)

/-- The type of an element that must be a float. -/
def floatType (e : Element) : Except Fault FloatType :=
  match e with
  | float f _ => .ok f
  | word _ _ => .error (.floatRefinement e)

end Element

namespace FloatSet

/-- Whether two sets hold the same floats. -/
def sameAs (s t : FloatSet) : Bool :=
  s.nan == t.nan && match s.range, t.range with
    | some a, some b => a.lo == b.lo && a.hi == b.hi
    | none, none => true
    | _, _ => false

/-- The set with both zeros wherever an end is zero. -/
def withBothZeros (s : FloatSet) : FloatSet :=
  { s with range := s.range.map fun r =>
      ⟨if r.lo == 0.0 then -0.0 else r.lo, if r.hi == 0.0 then 0.0 else r.hi⟩ }

/-- The set of the ordinary floats of a range, empty when the ends are not in order. -/
def ofRange (r : Option (Bounds Float)) (nan : Bool) : FloatSet :=
  match r with
  | some r => if r.lo ≤ r.hi then ⟨some r, nan⟩ else ⟨none, nan⟩
  | none => ⟨none, nan⟩

end FloatSet

namespace Element

/-- What is left of a float within a set, and whether anything is: `some none` when the float does
not change. -/
def refineFloat (e : Element) (bound : FloatSet) : Except Fault (Option (Option Element)) := do
  let set ← e.floatSet
  let met := set.meet bound
  if met.isEmpty then return none
  else if met.sameAs set then return some none
  else
    let f ← e.floatType
    return (FloatShape.ofSet? met.withBothZeros).map fun shape => some (.float f shape)

end Element

namespace Finding

/-- The float operands met with a set each, where there is one; the second only if the first is
left. -/
def settle (first : Element) (second : Option Element) (boundFirst boundSecond : Option FloatSet)
    (exact : Bool) : Except Fault Finding := do
  let x ← match boundFirst with
    | some bound => first.refineFloat bound
    | none => pure (some none)
  match x with
  | none => return dead
  | some x =>
    let y ← match second, boundSecond with
      | some second, some bound => second.refineFloat bound
      | _, _ => pure (some none)
    match y with
    | none => return { first := x, exactness := none }
    | some y => return { first := x, second := y, exactness := some exact }

/-- The ranges where an ordered comparison holds. -/
def relateFloats (t : FloatType) (c : Comparison) (x y : Bounds Float) :
    Bounds Float × Bounds Float :=
  match c with
  | .less => (⟨x.lo, t.nextDown y.hi⟩, ⟨t.nextUp x.lo, y.hi⟩)
  | .lessOrEqual => (⟨x.lo, y.hi⟩, ⟨x.lo, y.hi⟩)
  | .greater => (⟨t.nextUp y.lo, x.hi⟩, ⟨y.lo, t.nextDown x.hi⟩)
  | .greaterOrEqual => (⟨y.lo, x.hi⟩, ⟨y.lo, x.hi⟩)
  | _ =>
    let common : Bounds Float := ⟨Double.max x.lo y.lo, Double.min x.hi y.hi⟩
    (common, common)

/-- The comparison of ordered values that an outcome amounts to; `none` when NaN explains it. -/
def orderedComparison? (c : Comparison) (outcome mayBeNaN : Bool) : Option Comparison :=
  match c, outcome with
  | .different, false => some .equal
  | .different, true => none
  | c, true => some c
  | c, false => if mayBeNaN then none else some c.negate

/-- The operands of a comparison. NaN makes every ordered comparison false. -/
def compareFloats (c : Comparison) (first second result : Element) : Except Fault Finding := do
  match result.knownBit? with
  | none => return keep true
  | some outcome =>
    let t ← first.floatType
    let a ← first.floatSet
    let b ← second.floatSet
    match orderedComparison? c outcome (a.nan || b.nan) with
    | none => return keep (a.nan && b.nan)
    | some c =>
      match a.range, b.range with
      | some x, some y =>
        let (xs, ys) := relateFloats t c x y
        settle first second (some (.ofRange (some xs) false)) (some (.ofRange (some ys) false)) true
      | _, _ => settle first second (some .empty) (some .empty) true

/-- A range widened by one step of the type; an end that is NaN is no bound. -/
def widen (t : FloatType) (lo hi : Float) : Bounds Float :=
  ⟨if lo.isNaN then -Double.infinity else t.nextDown lo,
    if hi.isNaN then Double.infinity else t.nextUp hi⟩

/-- The operands of a sum or difference. The unrounded result lies strictly between the
neighbours of the ends of the result. -/
def additiveFloats (op : Operation) (first second result : Element) : Except Fault Finding := do
  let t ← first.floatType
  let z ← result.floatSet
  if z.nan then return keep false
  else
    let a ← first.floatSet
    let b ← second.floatSet
    match a.range, b.range, z.range with
    | some x, some y, some r =>
      let s := widen t r.lo r.hi
      let (xs, ys) := match op with
        | .plus => (widen t (s.lo - y.hi) (s.hi - y.lo), widen t (s.lo - x.hi) (s.hi - x.lo))
        | _ => (widen t (s.lo + y.lo) (s.hi + y.hi), widen t (x.lo - s.hi) (x.hi - s.lo))
      settle first second (some (.ofRange (some xs) false)) (some (.ofRange (some ys) false)) false
    | _, _, _ => settle first second (some .empty) none true

/-- The operands of a minimum or maximum without NaN. -/
def extremumFloats (e : Extremum) (first second result : Element) : Except Fault Finding := do
  let a ← first.floatSet
  let b ← second.floatSet
  let c ← result.floatSet
  match a.range, b.range, c.range with
  | some x, some y, some z =>
    if a.nan || b.nan then return keep false
    else
      let narrowed := e.refine? floatLess x y z
      settle first second (some (.ofRange (narrowed.map (·.1)) false))
        (some (.ofRange (narrowed.map (·.2)) false)) false
  | _, _, _ => return keep false

/-- The operand of an opposite. -/
def oppositeFloat (first result : Element) : Except Fault Finding := do
  let z ← result.floatSet
  settle first none (some (.ofRange (z.range.map fun r => ⟨-r.hi, -r.lo⟩) z.nan)) none true

/-- The operand of a step to a neighbour. -/
def stepFloat (up : Bool) (first result : Element) : Except Fault Finding := do
  let t ← first.floatType
  let z ← result.floatSet
  let range := z.range.map fun r =>
    if up then (⟨t.nextDown r.lo, r.hi⟩ : Bounds Float) else ⟨r.lo, t.nextUp r.hi⟩
  settle first none (some (.ofRange range z.nan)) none false

/-- The operand of a conversion between floating point types. -/
def castFloats (first result : Element) : Except Fault Finding := do
  let source ← first.floatType
  let target ← result.floatType
  let z ← result.floatSet
  let widening := decide (source.width ≤ target.width)
  let range := z.range.map fun r =>
    if widening then r else (⟨target.nextDown r.lo, target.nextUp r.hi⟩ : Bounds Float)
  settle first none (some (.ofRange range z.nan)) none widening

/-- An integer as a float of a type, and whether it was not rounded. -/
def converted (t : FloatType) (v : Int) : Float × Bool :=
  let x := t.round (Double.ofInt v)
  (x, Double.truncate? x == some v)

/-- The floats of a type whose integer part lies in a range. -/
def truncationRange (t : FloatType) (r : Range) : Bounds Float :=
  { lo :=
      if 0 < r.lo then t.round (Double.ofInt r.lo)
      else
        let below := converted t (r.lo - 1)
        if below.2 then t.nextUp below.1 else below.1
    hi :=
      if r.hi < 0 then t.round (Double.ofInt r.hi)
      else
        let above := converted t (r.hi + 1)
        if above.2 then t.nextDown above.1 else above.1 }

/-- The operand of a truncation into an integer type. Only stopping on errors rules out NaN and
the values outside the type. -/
def truncateFloat (stops : Bool) (first result : Element) : Except Fault Finding := do
  if !stops then return keep false
  else
    let t ← first.floatType
    match result.intBounds? with
    | some (_, r) =>
      settle first none (some (.ofRange (some (truncationRange t r)) false)) none false
    | none => return keep false

/-- The operands of a product, quotient or remainder: only NaN can be ruled out. -/
def dropNaN (first second result : Element) : Except Fault Finding := do
  let z ← result.floatSet
  if z.nan then return keep false
  else
    let ordinary : FloatSet := .between (-Double.infinity) Double.infinity
    settle first second (some ordinary) (some ordinary) false

/-- The operands of an operation on floats. -/
def ofFloats (limit : Nat) (stops : Bool) (op : Operation) (first : Element)
    (second : Option Element) (result : Element) : Except Fault Finding :=
  let binary := fun (solve : Element → Except Fault Finding) =>
    match second with
    | some second => solve second
    | none => .error (.missingOperand op)
  match op with
  | .logicalNegate => .ok (zeroTest limit true first result)
  | .castBit => .ok (zeroTest limit false first result)
  | .connective c => .ok (connective limit c first second result)
  | .opposite => oppositeFloat first result
  | .prev => stepFloat false first result
  | .next => stepFloat true first result
  | .castFloat _ => castFloats first result
  | .castInt _ => truncateFloat stops first result
  | .compare c => binary fun second => compareFloats c first second result
  | .plus | .minus => binary fun second => additiveFloats op first second result
  | .extremum e => binary fun second => extremumFloats e first second result
  | .times | .divide | .modulo => binary fun second => dropNaN first second result
  | _ => .error (.floatOperation op)

end Finding

end ScalarDomain
