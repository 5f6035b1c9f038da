import ScalarDomain.Backward.Arithmetic

/-!
# Operands of conversions and bit fields

The operands of casts, extensions, reductions, concatenations and overwritten bit fields. Fields
are solved on ranges of bit patterns: the field of `count` bits at `low` repeats with period
`2 ^ (low + count)`.
-/

namespace ScalarDomain.Narrowing

/-- The smallest range of values around some ranges of patterns. -/
def valuesOf? (t : IntType) (pieces : List Range) : Option Range :=
  Bounds.hull? (pieces.flatMap t.valueRanges)

/-- The operand of a conversion between integer types. -/
def castInt (stops : Bool) (f : Frame) : Narrowing :=
  ofPieces (wrappedTargets stops f.z.range f.z.type f.x.range) true

/-- The operand of an extension. -/
def extend (fill : Extension) (f : Frame) : Narrowing :=
  let pieces := (f.x.type.extensionSegments fill f.z.type).filterMap fun (segment, offset) =>
    match Bounds.meet? ⟨segment.lo + offset, segment.hi + offset⟩ f.z.range with
    | none => none
    | some r => Bounds.meet? ⟨r.lo - offset, r.hi - offset⟩ f.x.range
  ofPieces pieces true

/-- The smallest range around the patterns of `patterns` whose field of `count` bits at `low`
lies in `field`; `none` when there is none. -/
def fieldPreimage? (patterns : Range) (low count : Nat) (field : Range) : Option Range :=
  let unit := pow2 low
  let period := pow2 (low + count)
  let base := fun (p : Int) => floorDiv p period * period
  let fieldAt := fun (p : Int) => floorDiv (p - base p) unit
  let first :=
    let p := patterns.lo
    if field.contains (fieldAt p) then p
    else if fieldAt p < field.lo then base p + field.lo * unit
    else base p + period + field.lo * unit
  let last :=
    let p := patterns.hi
    if field.contains (fieldAt p) then p
    else if field.hi < fieldAt p then base p + (field.hi + 1) * unit - 1
    else base p - period + (field.hi + 1) * unit - 1
  if first ≤ last then some ⟨first, last⟩ else none

/-- The field of `count` bits at `low` over a range of patterns. -/
def fieldImage (patterns : Range) (low count : Nat) : Range :=
  let modulus := pow2 count
  let lo := floorDiv patterns.lo (pow2 low)
  let hi := floorDiv patterns.hi (pow2 low)
  if modulus ≤ hi - lo + 1 ∨ hi % modulus < lo % modulus then ⟨0, modulus - 1⟩
  else ⟨lo % modulus, hi % modulus⟩

/-- The operand of the bits `[low, high)`. -/
def reduce (low high : Nat) (f : Frame) : Narrowing :=
  let pieces := (f.x.type.bitRanges f.x.range).filterMap fun piece =>
    fieldPreimage? piece low (high - low) f.z.range
  match valuesOf? f.x.type pieces with
  | some r => first r false
  | none => impossible

/-- The operands of a concatenation: the high bits of the result, and its low bits when all
results have the same high bits. -/
def concat (f : Frame) : Narrowing :=
  let x := f.x
  let y := f.second
  let scale := pow2 y.type.width
  let high : Range := ⟨floorDiv f.z.lo scale, floorDiv f.z.hi scale⟩
  let same := high.lo == high.hi
  let second :=
    if same then valuesOf? y.type [⟨f.z.lo % scale, f.z.hi % scale⟩] else some y.range
  match valuesOf? x.type [high], second with
  | some r, some s => both r s (same && (r.lo == r.hi || !x.type.signed))
  | _, _ => impossible

/-- The operands of an overwritten bit field: the bits of the result above the field, and the
field itself. -/
def bitSet (low high : Nat) (f : Frame) : Narrowing :=
  let top := pow2 high
  let pieces := f.x.type.bitRanges f.z.range
  let kept := pieces.map fun piece =>
    (⟨floorDiv piece.lo top * top, floorDiv piece.hi top * top + top - 1⟩ : Range)
  let fields := pieces.map fun piece => fieldImage piece low (high - low)
  both? (valuesOf? f.x.type kept) (valuesOf? f.second.type fields) false

/-- The integers of `own` whose rounding may lie in a range of floats. Rounding is monotone, so an
integer beyond the neighbours of the ends cannot reach them. -/
def castFloat (dest : FloatType) (own : Range) (target : Bounds Float) : Range :=
  { lo := match Double.floor? (dest.nextDown target.lo) with
      | some v => max own.lo (v + 1)
      | none => own.lo
    hi := match Double.ceil? (dest.nextUp target.hi) with
      | some v => min own.hi (v - 1)
      | none => own.hi }

end ScalarDomain.Narrowing
