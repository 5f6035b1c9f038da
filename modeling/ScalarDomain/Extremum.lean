import ScalarDomain.Bounds
import ScalarDomain.Operation

/-!
# Operands of a minimum or maximum

Refinement of the operands of `min(a, b) = c` or `max(a, b) = c`, for ranges under any strict
order. A minimum in `c` forces both operands above the lower end of `c`, and an operand that is
certainly above `c` leaves the other as the only source of the result; for a maximum, above and
below change places.
-/

namespace ScalarDomain

namespace Extremum

variable {α : Type} (less : α → α → Bool)

/-- An operand cut at the end of `c` that no operand may cross. -/
def cut (e : Extremum) (c x : Bounds α) : Bounds α :=
  match e with
  | min => ⟨greatest less x.lo c.lo, x.hi⟩
  | max => ⟨x.lo, least less x.hi c.hi⟩

/-- Whether an operand can never be the result. -/
def isOutOfReach (e : Extremum) (c x : Bounds α) : Bool :=
  match e with
  | min => less c.hi x.lo
  | max => less x.hi c.lo

/-- The results that two ranges of operands reach. -/
def reachable (e : Extremum) (a b : Bounds α) : Bounds α :=
  match e with
  | min => ⟨least less a.lo b.lo, least less a.hi b.hi⟩
  | max => ⟨greatest less a.lo b.lo, greatest less a.hi b.hi⟩

/-- The ranges of the operands that may give a result in `c`; `none` when no pair does. -/
def refine? (e : Extremum) (a b c : Bounds α) : Option (Bounds α × Bounds α) :=
  let lhs := e.cut less c a
  let rhs := e.cut less c b
  if lhs.isEmptyBy less || rhs.isEmptyBy less then none
  else
    let rhs := if e.isOutOfReach less c lhs then rhs.meetBy less c else rhs
    let lhs := if e.isOutOfReach less c rhs then lhs.meetBy less c else lhs
    if lhs.isEmptyBy less || rhs.isEmptyBy less then none
    else if ((e.reachable less lhs rhs).meetBy less c).isEmptyBy less then none
    else some (lhs, rhs)

end Extremum

end ScalarDomain
