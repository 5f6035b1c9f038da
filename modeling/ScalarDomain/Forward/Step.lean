import ScalarDomain.Evaluation

/-!
# Transfer steps

What one step of a forward transfer finds is data: the errors that executions may run into and
the set of results. `Evaluation.perform` is the one place where a step becomes the result of an
evaluation, in the most precise shape that the creation bound allows.
-/

namespace ScalarDomain

/-- A set of results. -/
inductive Delivery where
  /-- No value flows out. -/
  | nothing
  /-- A range of words; an empty range is no value. -/
  | words (ty : WordType) (r : Range) (exact : Bool)
  /-- A set of floats; an empty set is no value. -/
  | floats (ty : FloatType) (s : FloatSet) (exact : Bool)

/-- The errors and results of a step. An error is certain when every execution runs into it. -/
structure Step where
  /-- The errors, with whether they are certain. -/
  errors : List (ErrorKind × Bool) := []
  /-- The results. -/
  delivery : Delivery

namespace Step

/-- A step that only has a range of words. -/
def words (ty : WordType) (r : Range) (exact : Bool) : Step :=
  { delivery := .words ty r exact }

/-- A step that only has a set of floats. -/
def floats (ty : FloatType) (s : FloatSet) (exact : Bool) : Step :=
  { delivery := .floats ty s exact }

/-- A step whose result may be any value of the type. -/
def anyWord (ty : WordType) : Step :=
  words ty ty.view.full false

/-- A step with the truth values that may come out. -/
def truth (mayBeTrue mayBeFalse : Bool) : Step :=
  words .bit ⟨if mayBeFalse then 0 else 1, if mayBeTrue then 1 else 0⟩ true

/-- A step with one truth value. -/
def ofBool (b : Bool) : Step :=
  truth b (!b)

/-- The step after more errors. -/
def withErrors (s : Step) (errors : List (ErrorKind × Bool)) : Step :=
  { s with errors := errors ++ s.errors }

/-- An execution that ran into an error: it ends, or goes on with any value. -/
def failure (stops : Bool) (kind : ErrorKind) (ty : WordType) : Step :=
  { errors := [(kind, true)]
    delivery := if stops then .nothing else (anyWord ty).delivery }

/-- The mathematical results of an operation into a type. Results outside the type are errors:
they end the execution, or they wrap around and the range is no longer exact. -/
def overflowing (stops : Bool) (ty : WordType) (r : Range) (exact : Bool) : Step :=
  let t := ty.view
  let above := decide (t.maxValue < r.hi)
  let below := decide (r.lo < t.minValue)
  if !above && !below then words ty r exact
  else
    { errors :=
        (if above then [(.positiveOverflow, decide (t.maxValue < r.lo))] else []) ++
        (if below then [(.negativeOverflow, decide (r.hi < t.minValue))] else [])
      delivery :=
        if stops then .words ty ⟨max r.lo t.minValue, min r.hi t.maxValue⟩ exact
        else if t.modulus ≤ r.hi - r.lo + 1 then .words ty t.full false
        else if t.wrap r.lo ≤ t.wrap r.hi then .words ty ⟨t.wrap r.lo, t.wrap r.hi⟩ false
        else .words ty t.full false }

/-- A range of floats computed from finite operands, with the errors of having left the finite
values; these executions end if asked. -/
def checkOverflow (stops : Bool) (ty : FloatType) (finiteOperands : Bool) (r : Bounds Float) :
    List (ErrorKind × Bool) × Option (Bounds Float) :=
  if !finiteOperands then ([], some r)
  else
    let above := r.hi == Double.infinity
    let below := r.lo == -Double.infinity
    let hi := if above && stops then ty.maxFinite else r.hi
    let lo := if below && stops then -ty.maxFinite else r.lo
    ((if above then [(.positiveOverflow, r.lo == Double.infinity)] else []) ++
      (if below then [(.negativeOverflow, hi == -Double.infinity)] else []),
      if hi < lo then none else some ⟨lo, hi⟩)

/-- The conversion of a range of integers into a floating point type. -/
def fromInts (stops : Bool) (ty : FloatType) (r : Range) (exact : Bool) : Step :=
  let image : Bounds Float := ⟨ty.round (Double.ofInt r.lo), ty.round (Double.ofInt r.hi)⟩
  match checkOverflow stops ty true image with
  | (errors, none) => { errors, delivery := .nothing }
  | (errors, some range) =>
    { errors, delivery := .floats ty ⟨some range, false⟩ (exact && r.lo == r.hi) }

/-- The integer part of a float that is not NaN; infinities lie just outside the type. -/
def truncated (t : IntType) (x : Float) : Int :=
  match Double.truncate? x with
  | some v => v
  | none => if 0.0 < x then t.maxValue + 1 else t.minValue - 1

/-- The truncation of a set of floats into an integer type. -/
def truncation (stops : Bool) (t : IntType) (s : FloatSet) (exact : Bool) : Step :=
  let errors := if s.nan then [(ErrorKind.nan, s.range.isNone)] else []
  if s.nan && !stops then (anyWord (.int t)).withErrors errors
  else
    match s.range with
    | none => { errors, delivery := .nothing }
    | some r =>
      let range : Range := ⟨truncated t r.lo, truncated t r.hi⟩
      (overflowing stops (.int t) range (exact && range.lo == range.hi)).withErrors errors

end Step

/-! ### Performing a step -/

/-- The shape of a range of words under a creation bound; `none` when the bound forbids it. -/
def Creation.shape? (bound : Creation) (limit : Nat) (ty : WordType) (r : Range) : Option Shape :=
  match ty with
  | .bit => some (ty.rangeShape r)
  | .int t =>
    if r.lo = r.hi then some (ty.rangeShape r)
    else if r = t.full ∧ bound.allows .shareTop then some .top
    else if bound.allows .interval then some (.interval r)
    else if bound.allows .disjunction ∧ r.hi - r.lo + 1 ≤ limit then
      some (.disjunction (r.values limit))
    else none

namespace Evaluation

/-- The evaluation with the results of a step. A set that the creation bound forbids leaves the
evaluation without result: the operation is not performed. -/
def deliver (limit : Nat) (e : Evaluation) : Delivery → Traced Evaluation
  | .nothing => pure (e.withEmpty.conclude true)
  | .words ty r exact =>
    if r.hi < r.lo then pure (e.withEmpty.conclude true)
    else
      match e.params.creationBound.shape? limit ty r with
      | some s => do
        let x ← (Element.checkedWord ty s : Except Fault Element)
        return (e.withResult x).conclude exact
      | none => do
        Traced.record (.forbiddenCount e.params.creationBound (r.hi - r.lo + 1))
        return e
  | .floats ty s exact =>
    match FloatShape.ofSet? s with
    | none => pure (e.withEmpty.conclude true)
    | some shape =>
      let x := Element.float ty shape
      if !x.isConstant && !e.params.creationBound.allows .interval then do
        Traced.record (.forbidden x)
        return e
      else
        pure ((e.withResult x).conclude (exact && (!x.isTop || s.isFull)))

/-- The evaluation after a step. -/
def perform (limit : Nat) (e : Evaluation) (s : Step) : Traced Evaluation :=
  (s.errors.foldl (fun e error => e.flag error.1 error.2) e).deliver limit s.delivery

end Evaluation

end ScalarDomain
