import ScalarDomain.Operation.Typing

/-!
# Building elements

The checked constructors of elements. Equal ends make a constant, values are sorted and listed
once, floats are rounded to their type, and what is not a value of the type is refused.
-/

namespace ScalarDomain.Element

/-- The constant of an integer type. -/
def int (t : IntType) (v : Int) : Except Error Element :=
  if t.contains v then .ok (.word (.int t) (.constant v)) else .error (.outOfRange v t)

/-- The constant of a floating point type, rounded to it. -/
def floatConstant (t : FloatType) (x : Float) : Element :=
  .float t (.constant (t.round x))

/-- The integers of a range. -/
def intRange (t : IntType) (r : Range) : Except Error Element :=
  if r.lo ≤ r.hi ∧ t.contains r.lo ∧ t.contains r.hi then
    .ok (.word (.int t) ((WordType.int t).rangeShape r))
  else .error (.intRange r t)

/-- The ordinary floats of a range. -/
def floatRange (t : FloatType) (r : Bounds Float) : Except Error Element :=
  if r.lo.isNaN || r.hi.isNaN || decide (r.hi < r.lo) then .error (.floatRange r t)
  else
    let set := FloatSet.between (t.round r.lo) (t.round r.hi)
    .ok (.float t ((FloatShape.ofSet? set).getD .top))

/-- Listed integers, at most `limit` of them. -/
def disjunction (limit : Nat) (t : IntType) (vs : List Int) : Except Error Element :=
  let sorted := WordType.normalize vs
  if sorted.isEmpty || decide (limit < sorted.length) then
    .error (.disjunctionSize limit sorted.length)
  else
    match sorted.find? (!t.contains ·) with
    | some v => .error (.outOfRange v t)
    | none => .ok (.word (.int t) ((WordType.int t).valuesShape limit sorted))

/-- The constant of a value of the given type. -/
def constant (t : ScalarType) (v : Value) : Except Error Element :=
  match t, v with
  | .word .bit, .bit b => .ok (bit b)
  | .word (.int t), .int v => int t v
  | .float f, .float x => .ok (floatConstant f x)
  | t, v => .error (.valueType v t)

/-- A word of a shape whose values belong to its type. -/
def checkedWord (w : WordType) (s : Shape) : Except Fault Element :=
  match w, s with
  | .int t, .constant v =>
    if t.contains v then .ok (.word w s) else .error (.outOfRange v t)
  | .int t, .interval r =>
    if r.lo ≤ r.hi ∧ t.contains r.lo ∧ t.contains r.hi then .ok (.word w s)
    else .error (.malformedInterval r t)
  | _, _ => .ok (.word w s)

end ScalarDomain.Element
