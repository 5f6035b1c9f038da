import ScalarDomain.Backward.Frame

/-!
# Operands of logical operations

A truth value that is known restricts an operand to its zero values or to the others. A
conjunction that holds makes both operands nonzero, a disjunction that fails makes both zero;
the other outcomes only restrict one operand once the other is known.
-/

namespace ScalarDomain

namespace Element

/-- The zero values of an element, if it has any. A range of floats that holds zero holds both
signs of it. -/
def zeroPart? : Element → Option Element
  | word w s => if s.contains w.view 0 then some (wordConstant w 0) else none
  | float f (.constant x) =>
    if (FloatShape.constant x).summary f |>.isZero then some (.float f (.constant x)) else none
  | float f s =>
    if s.toSet.contains 0.0 then
      (FloatShape.ofSet? (.between (-0.0) 0.0)).map (.float f)
    else none

/-- The range of a word without a zero at its ends; `none` when nothing is left. -/
def cutZero? (r : Range) : Option Range :=
  let s : Range :=
    if r.lo = 0 then ⟨r.lo + 1, r.hi⟩ else if r.hi = 0 then ⟨r.lo, r.hi - 1⟩ else r
  if s.hi < s.lo then none else some s

/-- The nonzero values of an element, and whether zero is really gone; `none` when it has none.
A zero inside a range cannot be taken out. -/
def nonzeroPart? (limit : Nat) (e : Element) : Option (Element × Bool) :=
  if e.summary.isNonzero then some (e, true)
  else
    match e with
    | float f s =>
      let set := s.toSet
      let range := set.range.bind fun r =>
        let lo := if r.lo == 0.0 then f.nextUp 0.0 else r.lo
        let hi := if r.hi == 0.0 then f.nextDown 0.0 else r.hi
        if lo ≤ hi then some (⟨lo, hi⟩ : Bounds Float) else none
      let exact := match range with
        | some r => !(decide (r.lo < 0.0) && decide (0.0 < r.hi))
        | none => true
      (FloatShape.ofSet? ⟨range, set.nan⟩).map fun shape => (.float f shape, exact)
    | word w s =>
      match (word w s).intValues? with
      | some vs =>
        (Shape.ofKept w limit (vs.filter (· != 0))).map fun shape => (.word w shape, true)
      | none =>
        (cutZero? (s.bounds w.view)).map fun r =>
          (.word w (w.rangeShape r), !(decide (r.lo < 0) && decide (0 < r.hi)))

/-- The zero or nonzero values of an element: the element they make if it is another one, and
whether they are exact; `none` when there are none. -/
def restrict? (limit : Nat) (e : Element) (zero : Bool) : Option (Option Element × Bool) :=
  let part := if zero then e.zeroPart?.map fun part => (part, true) else e.nonzeroPart? limit
  part.map fun (part, exact) => (if part == e then none else some part, exact)

/-- The truth value of a known bit. -/
def knownBit? : Element → Option Bool
  | word .bit (.constant v) => some (v != 0)
  | _ => none

end Element

namespace Finding

/-- The operand of a zero test: `zeroIsTrue` tells whether the test holds of zero. -/
def zeroTest (limit : Nat) (zeroIsTrue : Bool) (first result : Element) : Finding :=
  match result.knownBit? with
  | none => keep true
  | some truth =>
    match first.restrict? limit (zeroIsTrue == truth) with
    | some (part, exact) => { first := part, exactness := some exact }
    | none => dead

/-- Both operands restricted to their zero values, or both to the others. -/
def restrictBoth (limit : Nat) (zero : Bool) (first second : Element) : Finding :=
  match first.restrict? limit zero with
  | none => dead
  | some (part, exact) =>
    match second.restrict? limit zero with
    | some (part', exact') =>
      { first := part, second := part', exactness := some (exact && exact') }
    | none => { first := part, exactness := none }

/-- The operands of a connective whose outcome needs one operand that is zero, or one that is
not. -/
def restrictOne (limit : Nat) (zero : Bool) (first second : Element) : Finding :=
  let always := fun (e : Element) => if zero then e.summary.isZero else e.summary.isNonzero
  let never := fun (e : Element) => if zero then e.summary.isNonzero else e.summary.isZero
  if always first || always second then keep true
  else if never first then
    match second.restrict? limit zero with
    | some (part, exact) => { second := part, exactness := some exact }
    | none => dead
  else if never second then
    match first.restrict? limit zero with
    | some (part, exact) => { first := part, exactness := some exact }
    | none => dead
  else keep false

/-- The operands of a connective. -/
def connective (limit : Nat) (c : Connective) (first : Element) (second : Option Element)
    (result : Element) : Finding :=
  match result.knownBit?, second with
  | some truth, some second =>
    match c, truth with
    | .and, true => restrictBoth limit false first second
    | .or, false => restrictBoth limit true first second
    | .and, false => restrictOne limit true first second
    | .or, true => restrictOne limit false first second
  | _, _ => keep true

end Finding

end ScalarDomain
