import ScalarDomain.Forward.Fold

/-!
# Operations on intervals of words

The forward transfer of a range of integers. Monotone operations map the ends; operations on bit
patterns split the range where it is not contiguous as patterns; what has no better bound may be
any value of the result type. A range of results is exact when every value of it is the result
of some pair of operands; a second operand with gaps makes additive results inexact.
-/

namespace ScalarDomain

/-- The second operand of a transfer, as far as a range of words needs it. -/
structure WordOperand where
  /-- The integer type. -/
  type : IntType
  /-- The smallest range around the values. -/
  range : Range
  /-- The value of a constant. -/
  constant : Option Int
  /-- Whether every integer of the range is a value. -/
  convex : Bool
  /-- The landmarks of the values. -/
  summary : Summary

/-- The word seen as a second operand. -/
def Element.operand? : Element → Option WordOperand
  | word w s =>
    some
      { type := w.view
        range := s.bounds w.view
        constant := (word w s).intConstant?
        convex := s.precision != .disjunction
        summary := s.summary w.view }
  | float _ _ => none

/-- Truth of a comparison that is the same for all pairs of values of two ranges. -/
def Comparison.decide? {α : Type} [LT α] [LE α] [BEq α] [DecidableLT α] [DecidableLE α]
    (c : Comparison) (a b : Bounds α) : Option Bool :=
  match c with
  | less => if a.hi < b.lo then some true else if b.hi ≤ a.lo then some false else none
  | lessOrEqual => if a.hi ≤ b.lo then some true else if b.hi < a.lo then some false else none
  | equal => equality a b
  | different => (equality a b).map (!·)
  | greaterOrEqual => if b.hi ≤ a.lo then some true else if a.hi < b.lo then some false else none
  | greater => if b.hi < a.lo then some true else if a.hi ≤ b.lo then some false else none
where
  /-- Truth of an equality that is the same for all pairs. -/
  equality (a b : Bounds α) : Option Bool :=
    if a.lo == a.hi && b.lo == b.hi && a.lo == b.lo then some true
    else if a.hi < b.lo ∨ b.hi < a.lo then some false
    else none

namespace Step

/-- A truth value known through the landmarks of a set; `negated` flips it. -/
def zeroTest (s : Summary) (negated : Bool) : Step :=
  if s.isBottom then truth false false
  else if s.isZero then ofBool negated
  else if s.isNonzero then ofBool (!negated)
  else truth true true

/-- A connective of two truth values known through landmarks. -/
def connective (c : Connective) (a b : Summary) : Step :=
  match c with
  | .and =>
    if a.isZero || b.isZero then ofBool false
    else if a.isNonzero && b.isNonzero then ofBool true
    else truth true true
  | .or =>
    if a.isNonzero || b.isNonzero then ofBool true
    else if a.isZero && b.isZero then ofBool false
    else truth true true

/-- The smallest range around some images. -/
def hullStep (ty : WordType) (images : List Range) (exact : Bool) : Step :=
  match Bounds.hull? images with
  | some r => words ty r exact
  | none => { delivery := .nothing }

/-- The complements of a range. Flipping every bit is decreasing on patterns. -/
def complementRange (ty : WordType) (r : Range) : Step :=
  let t := ty.view
  let images := (t.bitRanges r).map fun piece =>
    (⟨t.complement (t.ofBits piece.hi), t.complement (t.ofBits piece.lo)⟩ : Range)
  hullStep ty images (images.length == 1)

/-- The extensions of a range, one image for each half of the type. -/
def extendRange (t : IntType) (fill : Extension) (out : WordType) (r : Range) : Step :=
  let images := (t.extensionSegments fill out.view).filterMap fun (segment, offset) =>
    (Bounds.meet? segment r).map fun s => (⟨s.lo + offset, s.hi + offset⟩ : Range)
  hullStep out images (images.length == 1)

/-- The bits `[low, high)` of a range. -/
def reduceRange (t : IntType) (low high : Nat) (out : WordType) (r : Range) : Step :=
  let modulus := pow2 (high - low)
  let images := (t.bitRanges r).map fun piece =>
    let lo := floorDiv piece.lo (pow2 low)
    let hi := floorDiv piece.hi (pow2 low)
    if modulus ≤ hi - lo + 1 ∨ hi % modulus < lo % modulus then
      ((⟨0, modulus - 1⟩ : Range), false)
    else ((⟨lo % modulus, hi % modulus⟩ : Range), true)
  hullStep out (images.map (·.1)) (images.all (·.2) && images.length == 1)

/-- The products of two ranges; a factor zero or one is exact. -/
def timesRange (stops : Bool) (ty : WordType) (r : Range) (y : WordOperand) : Step :=
  if y.constant = some 0 then words ty (.point 0) true
  else if y.constant = some 1 then words ty r true
  else
    let corners := [r.lo * y.range.lo, r.lo * y.range.hi, r.hi * y.range.lo, r.hi * y.range.hi]
    match Bounds.span? corners with
    | some s => overflowing stops ty s false
    | none => { delivery := .nothing }

/-- The parts of a range without zero. -/
def nonzeroParts (r : Range) : List Range :=
  (if r.lo < 0 then [⟨r.lo, min r.hi (-1)⟩] else []) ++
  (if 0 < r.hi then [⟨max r.lo 1, r.hi⟩] else [])

/-- A division by a range: the parts of the divisor without zero go to `divide`, and a divisor
that may be zero is an error. -/
def division (stops : Bool) (ty : WordType) (divisor : Range) (divide : List Range → Step) : Step :=
  let mayBeZero := divisor.contains 0
  let errors :=
    if mayBeZero then [(ErrorKind.divisionByZero, divisor.lo == 0 && divisor.hi == 0)] else []
  let parts := nonzeroParts divisor
  if mayBeZero && !stops then (anyWord ty).withErrors errors
  else if parts.isEmpty then { errors, delivery := .nothing }
  else (divide parts).withErrors errors

/-- The quotients of a range by the parts of a divisor, all between the corners. -/
def divideRange (stops : Bool) (ty : WordType) (r : Range) (parts : List Range) : Step :=
  let corners := parts.flatMap fun part =>
    [r.lo.tdiv part.lo, r.lo.tdiv part.hi, r.hi.tdiv part.lo, r.hi.tdiv part.hi]
  match Bounds.span? corners with
  | some s => overflowing stops ty s false
  | none => { delivery := .nothing }

/-- The largest magnitude in some ranges, at least one. -/
def magnitude (parts : List Range) : Int :=
  parts.foldl (fun m part => max m (max part.lo.natAbs part.hi.natAbs : Int)) 1

/-- The remainders of a range by the parts of a divisor. With one divisor and one quotient they
are contiguous. -/
def moduloRange (ty : WordType) (r : Range) (parts : List Range) : Step :=
  let general :=
    let m := magnitude parts
    words ty ⟨if r.lo < 0 then max r.lo (1 - m) else 0, if 0 < r.hi then min r.hi (m - 1) else 0⟩
      false
  match parts with
  | [part] =>
    let sameSign := decide (0 ≤ r.lo) || decide (r.hi ≤ 0)
    if part.lo == part.hi && sameSign && r.lo.tdiv part.lo == r.hi.tdiv part.lo then
      words ty ⟨r.lo.tmod part.lo, r.hi.tmod part.lo⟩ true
    else general
  | _ => general

/-- The number of bits of a magnitude. -/
def bitLength (v : Int) : Nat :=
  if v = 0 then 0 else v.natAbs.log2 + 1

/-- The bitwise connectives of two ranges. The patterns zero and all ones are exact; otherwise
signs and magnitudes bound the result. -/
def bitwiseRange (b : Bitwise) (ty : WordType) (r : Range) (y : WordOperand) : Step :=
  let ones := ty.view.allOnes
  let exactly := fun (s : Range) => words ty s true
  let within := fun (lo hi : Int) => words ty ⟨lo, hi⟩ false
  let natural := decide (0 ≤ r.lo)
  let otherNatural := decide (0 ≤ y.range.lo)
  let span := lowMask (max (bitLength r.hi) (bitLength y.range.hi))
  match b with
  | .and =>
    if y.constant = some 0 then exactly (.point 0)
    else if y.constant = some ones then exactly r
    else if natural && otherNatural then within 0 (min r.hi y.range.hi)
    else if natural then within 0 r.hi
    else if otherNatural then within 0 y.range.hi
    else anyWord ty
  | .or =>
    if y.constant = some 0 then exactly r
    else if y.constant = some ones then exactly (.point ones)
    else if natural && otherNatural then within (max r.lo y.range.lo) span
    else if r.hi < 0 ∧ y.range.hi < 0 then within (max r.lo y.range.lo) (-1)
    else if r.hi < 0 then within r.lo (-1)
    else if y.range.hi < 0 then within y.range.lo (-1)
    else anyWord ty
  | .xor => if natural && otherNatural then within 0 span else anyWord ty

/-- The shifts of a range. An amount outside the width is an error. -/
def shiftRange (stops : Bool) (d : Direction) (ty : WordType) (r : Range) (amounts : Range) :
    Step :=
  let t := ty.view
  let least := max amounts.lo 0
  let most := min amounts.hi (t.width - 1)
  let invalid := decide (amounts.lo < 0) || decide ((t.width : Int) ≤ amounts.hi)
  let errors := if invalid then [(ErrorKind.positiveOverflow, decide (most < least))] else []
  if invalid && !stops then (anyWord ty).withErrors errors
  else if most < least then { errors, delivery := .nothing }
  else
    let step : Step := match d with
      | .right =>
        let corners := [floorDiv r.lo (pow2 least.toNat), floorDiv r.hi (pow2 least.toNat),
          floorDiv r.lo (pow2 most.toNat), floorDiv r.hi (pow2 most.toNat)]
        match Bounds.span? corners with
        | some s => words ty s (least == most)
        | none => { delivery := .nothing }
      | .left =>
        let images := (Bounds.values ⟨least, most⟩ t.width).map fun (k : Int) =>
          (⟨r.lo * pow2 k.toNat, r.hi * pow2 k.toNat⟩ : Range)
        if images.all fun s => t.contains s.lo && t.contains s.hi then hullStep ty images false
        else anyWord ty
    step.withErrors errors

/-- The rotations of a range; only a rotation by nothing keeps it. -/
def rotateRange (ty : WordType) (r : Range) (y : WordOperand) : Step :=
  match y.constant with
  | some amount => if rotateAmount amount ty.view.width = 0 then words ty r true else anyWord ty
  | none => anyWord ty

/-- The concatenations of two ranges of patterns. -/
def concatRange (t : IntType) (out : WordType) (r : Range) (y : WordOperand) : Step :=
  let scale := pow2 y.type.width
  let images := (t.bitRanges r).flatMap fun high =>
    (y.type.bitRanges y.range).map fun low =>
      (⟨high.lo * scale + low.lo, high.hi * scale + low.hi⟩ : Range)
  hullStep out images (r.lo == r.hi && images.length == 1)

/-- One value with the bits `[low, high)` overwritten by a range of patterns. -/
def bitSetRange (ty : WordType) (low high : Nat) (r : Range) (y : WordOperand) : Step :=
  let t := ty.view
  if r.lo ≠ r.hi then anyWord ty
  else
    let base : Int := t.cleared r.lo low high
    let images := (y.type.bitRanges y.range).flatMap fun patch =>
      t.valueRanges ⟨base + patch.lo * pow2 low, base + patch.hi * pow2 low⟩
    hullStep ty images false

/-- An operation on a range of integers of type `ty`, with results of type `result`. -/
def ofRange (stops : Bool) (op : Operation) (ty : WordType) (result : ScalarType) (r : Range)
    (argument : Option WordOperand) : Step :=
  let out := match result with
    | .word w => w
    | .float _ => ty
  let y : WordOperand := argument.getD ⟨ty.view, .point 0, some 0, true, .bottom⟩
  match op with
  | .prev => overflowing stops ty ⟨r.lo - 1, r.hi - 1⟩ true
  | .next => overflowing stops ty ⟨r.lo + 1, r.hi + 1⟩ true
  | .opposite => overflowing stops ty ⟨-r.hi, -r.lo⟩ true
  | .bitNegate => complementRange ty r
  | .logicalNegate => zeroTest (Summary.ofRange ty.view r) true
  | .castBit => zeroTest (Summary.ofRange ty.view r) false
  | .castInt _ => overflowing stops out r true
  | .castFloat dest => fromInts stops dest r false
  | .extend fill _ => extendRange ty.view fill out r
  | .reduce low high => reduceRange ty.view low high out r
  | .compare c =>
    match c.decide? r y.range with
    | some outcome => ofBool outcome
    | none => words .bit ⟨0, 1⟩ y.convex
  | .plus => overflowing stops ty ⟨r.lo + y.range.lo, r.hi + y.range.hi⟩ y.convex
  | .minus => overflowing stops ty ⟨r.lo - y.range.hi, r.hi - y.range.lo⟩ y.convex
  | .times => timesRange stops ty r y
  | .divide => division stops ty y.range (divideRange stops ty r)
  | .modulo => division stops ty y.range (moduloRange ty r)
  | .extremum .min => words ty ⟨min r.lo y.range.lo, min r.hi y.range.hi⟩ y.convex
  | .extremum .max => words ty ⟨max r.lo y.range.lo, max r.hi y.range.hi⟩ y.convex
  | .bitwise b => bitwiseRange b ty r y
  | .shift d => shiftRange stops d ty r y.range
  | .rotate _ => rotateRange ty r y
  | .connective c => connective c (Summary.ofRange ty.view r) y.summary
  | .concat => concatRange ty.view out r y
  | .bitSet low high => bitSetRange ty low high r y

end Step

end ScalarDomain
