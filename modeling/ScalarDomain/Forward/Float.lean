import ScalarDomain.Forward.Interval

/-!
# Operations on sets of floats

The forward transfer of a range of floats, possibly with NaN. Arithmetic takes the corners of
the two ranges; a pair of operands without an ordinary result makes NaN possible, and leaving
the finite values or vanishing to zero are errors.
-/

namespace ScalarDomain

namespace FloatSet

/-- Whether a range holds zero. -/
def hasZero (r : Bounds Float) : Bool :=
  decide (r.lo ≤ 0.0) && decide (0.0 ≤ r.hi)

/-- Whether an end of a range is infinite. -/
def hasInfinity (r : Bounds Float) : Bool :=
  r.lo == -Double.infinity || r.hi == Double.infinity

/-- The largest magnitude in a range. -/
def greatestMagnitude (r : Bounds Float) : Float :=
  Double.max r.lo.abs r.hi.abs

/-- The smallest magnitude in a range that is not zero. -/
def leastMagnitude (t : FloatType) (r : Bounds Float) : Float :=
  if hasZero r then t.nextUp 0.0 else Double.min r.lo.abs r.hi.abs

/-- The parts of a range without zero. -/
def divisorParts (t : FloatType) (r : Bounds Float) : List (Bounds Float) :=
  let tiny := t.nextUp 0.0
  (if r.lo < 0.0 then [⟨r.lo, Double.min r.hi (-tiny)⟩] else []) ++
  (if 0.0 < r.hi then [⟨Double.max r.lo tiny, r.hi⟩] else [])

/-- The smallest range around the ordinary values of a list. -/
def hull? (xs : List Float) : Option (Bounds Float) :=
  xs.foldl (fun acc x =>
    if x.isNaN then acc
    else match acc with
      | none => some ⟨x, x⟩
      | some r => some ⟨Double.min r.lo x, Double.max r.hi x⟩) none

end FloatSet

namespace Step

open FloatSet

/-- Whether some pair of values of two ranges has no ordinary result. -/
def mayBeInvalid (op : Operation) (a b : Bounds Float) : Bool :=
  let inf := Double.infinity
  match op with
  | .plus => (a.hi == inf && b.lo == -inf) || (a.lo == -inf && b.hi == inf)
  | .minus => (a.hi == inf && b.hi == inf) || (a.lo == -inf && b.lo == -inf)
  | .times => (hasZero a && hasInfinity b) || (hasZero b && hasInfinity a)
  | .divide => hasInfinity a && hasInfinity b
  | .modulo => hasInfinity a
  | _ => false

/-- The results at the corners of a range and the parts of the second operand. -/
def floatCorners (ty : FloatType) (op : Operation) (a : Bounds Float)
    (parts : List (Bounds Float)) : List Float :=
  parts.flatMap fun b =>
    match op with
    | .modulo =>
      let m := greatestMagnitude b
      [if a.lo < 0.0 then Double.max a.lo (-m) else 0.0,
        if 0.0 < a.hi then Double.min a.hi m else 0.0]
    | op =>
      [ty.round (arithmetic op a.lo b.lo), ty.round (arithmetic op a.lo b.hi),
        ty.round (arithmetic op a.hi b.lo), ty.round (arithmetic op a.hi b.hi)]

/-- Whether a product or quotient of finite operands may lie below the normal values. -/
def mayVanish (ty : FloatType) (op : Operation) (a b : Bounds Float) : Bool :=
  let smallest? := match op with
    | .times => some (leastMagnitude ty a * leastMagnitude ty b)
    | .divide => some (leastMagnitude ty a / greatestMagnitude b)
    | _ => none
  match smallest? with
  | some smallest => decide (smallest < ty.minPositive) && !(a.lo == 0.0 && a.hi == 0.0)
  | none => false

/-- Arithmetic on two sets of floats: the errors some pair of values may run into, and the
results. -/
def arithmeticSets (stops : Bool) (ty : FloatType) (op : Operation) (a b : FloatSet) :
    List (ErrorKind × Bool) × FloatSet :=
  let nan := a.nan || b.nan
  match a.range, b.range with
  | some ra, some rb =>
    let finite := !hasInfinity ra && !hasInfinity rb
    let byZero := (op = .divide ∨ op = .modulo) && hasZero rb
    let zeroErrors :=
      if byZero then [(ErrorKind.divisionByZero, rb.lo == 0.0 && rb.hi == 0.0)] else []
    if byZero && !stops then
      -- a quotient by zero is infinite or NaN, a remainder by zero is NaN
      (zeroErrors, if op = .divide then .full
        else ⟨some ⟨Double.min ra.lo 0.0, Double.max ra.hi 0.0⟩, true⟩)
    else
      let invalid := mayBeInvalid op ra rb ||
        (byZero && op = .divide && hasZero ra && ra.lo != ra.hi)
      let range := hull? (floatCorners ty op ra (if byZero then divisorParts ty rb else [rb]))
      let nanErrors := if invalid then [(ErrorKind.nan, range.isNone)] else []
      let vanishErrors :=
        if finite && mayVanish ty op ra rb then [(ErrorKind.underflow, false)] else []
      let checked := match range with
        | some r => checkOverflow stops ty finite r
        | none => ([], none)
      (zeroErrors ++ nanErrors ++ vanishErrors ++ checked.1,
        ⟨checked.2, nan || (invalid && !stops)⟩)
  | _, _ => ([], ⟨none, nan⟩)

/-- The smaller or larger of two sets of floats; NaN loses against any number. -/
def extremumSets (e : Extremum) (a b : FloatSet) : FloatSet :=
  let both : FloatSet := match a.range, b.range with
    | some ra, some rb =>
      match e with
      | .min => .between (Double.min ra.lo rb.lo) (Double.min ra.hi rb.hi)
      | .max => .between (Double.max ra.lo rb.lo) (Double.max ra.hi rb.hi)
    | _, _ => .empty
  let withB := if a.nan then both.union ⟨b.range, false⟩ else both
  let withA := if b.nan then withB.union ⟨a.range, false⟩ else withB
  { withA with nan := a.nan && b.nan }

/-- A comparison of two sets of floats; a comparison with NaN only makes a difference. -/
def compareSets (c : Comparison) (a b : FloatSet) : Step :=
  let unordered := (a.nan && !b.isEmpty) || (b.nan && !a.isEmpty)
  let ordered := match a.range, b.range with
    | some ra, some rb =>
      match c.decide? ra rb with
      | some outcome => (outcome, !outcome)
      | none => (true, true)
    | _, _ => (false, false)
  truth (ordered.1 || (unordered && c = .different)) (ordered.2 || (unordered && c ≠ .different))

/-- The neighbours of a set of floats. -/
def stepSet (stops : Bool) (ty : FloatType) (neighbour : Float → Float) (a : FloatSet) : Step :=
  match a.mapRange neighbour, a.range with
  | some image, some r =>
    let checked := checkOverflow stops ty (!hasInfinity r) image
    { errors := checked.1, delivery := .floats ty ⟨checked.2, a.nan⟩ false }
  | _, _ => floats ty ⟨none, a.nan⟩ false

/-- A set of floats in another floating point type. Only a narrower type rounds. -/
def castSet (stops : Bool) (ty dest : FloatType) (a : FloatSet) : Step :=
  let narrowing := decide (dest.width < ty.width)
  match a.mapRange dest.round, a.range with
  | some image, some r =>
    if narrowing then
      let threshold := dest.nextUp 0.0 / 2.0
      let errors :=
        if r.lo < threshold && r.hi > -threshold && !(r.lo == 0.0 && r.hi == 0.0) then
          [(ErrorKind.underflow, false)]
        else []
      let checked := checkOverflow stops dest (!hasInfinity r) image
      { errors := errors ++ checked.1, delivery := .floats dest ⟨checked.2, a.nan⟩ false }
    else floats dest ⟨some image, a.nan⟩ true
  | _, _ => floats dest ⟨none, a.nan⟩ (!narrowing)

/-- An operation on sets of floats; `receiver` and `argument` are the landmarks of the operands
as elements. -/
def ofSets (stops : Bool) (op : Operation) (ty : FloatType) (a b : FloatSet)
    (receiver argument : Summary) : Step :=
  match op with
  | .prev => stepSet stops ty ty.nextDown a
  | .next => stepSet stops ty ty.nextUp a
  | .opposite => floats ty ⟨a.mapRange (-·), a.nan⟩ true
  | .logicalNegate => truth (a.summary ty).mayBeZero (a.summary ty).mayBeNonzero
  | .castBit => truth (a.summary ty).mayBeNonzero (a.summary ty).mayBeZero
  | .castInt dest => truncation stops dest a false
  | .castFloat dest => castSet stops ty dest a
  | .connective c => connective c receiver argument
  | .compare c => compareSets c a b
  | .extremum e => floats ty (extremumSets e a b) false
  | op =>
    let outcome := arithmeticSets stops ty op a b
    { errors := outcome.1, delivery := .floats ty outcome.2 false }

end Step

end ScalarDomain
