import ScalarDomain.Backward.Frame
import ScalarDomain.Extremum

/-!
# Operands of comparisons

A comparison with a known outcome restricts both operands. A difference can only cut a constant
off the end of a range.
-/

namespace ScalarDomain.Narrowing

/-- A range with a constant cut off its end, and whether the constant is not left inside. -/
def trim (own : Range) (v : Int) : Range × Bool :=
  let r : Range :=
    if own.lo = v then ⟨own.lo + 1, own.hi⟩
    else if own.hi = v then ⟨own.lo, own.hi - 1⟩
    else own
  (r, !(decide (r.lo < v) && decide (v < r.hi)))

/-- The operands for which a comparison holds. -/
def relate (c : Comparison) (x y : Span) : Narrowing :=
  match c with
  | .less => both ⟨x.lo, y.hi - 1⟩ ⟨x.lo + 1, y.hi⟩ true
  | .lessOrEqual => both ⟨x.lo, y.hi⟩ ⟨x.lo, y.hi⟩ true
  | .greater => both ⟨y.lo + 1, x.hi⟩ ⟨y.lo, x.hi - 1⟩ true
  | .greaterOrEqual => both ⟨y.lo, x.hi⟩ ⟨y.lo, x.hi⟩ true
  | .equal =>
    let common : Range := ⟨max x.lo y.lo, min x.hi y.hi⟩
    both common common true
  | .different =>
    match x.value?, y.value? with
    | some a, some b => if a = b then impossible else first (trim x.range b).1 (trim x.range b).2
    | none, some b => first (trim x.range b).1 (trim x.range b).2
    | some a, none => (first (trim y.range a).1 (trim y.range a).2).swap
    | none, none => unchanged

/-- The operands of a comparison. -/
def compare (c : Comparison) (f : Frame) : Narrowing :=
  match f.z.value? with
  | none => unchanged
  | some 0 => relate c.negate f.x f.second
  | some _ => relate c f.x f.second

/-- The operands of a minimum or maximum. -/
def extremum (e : Extremum) (f : Frame) : Narrowing :=
  match e.refine? intLess f.x.range f.second.range f.z.range with
  | some (r, s) => both r s false
  | none => impossible

end ScalarDomain.Narrowing
