import ScalarDomain.Backward.Frame

/-!
# Operands of bitwise operations

The operands of complements, bitwise connectives, shifts and rotations. A connective with a
constant operand and a constant result is solved on patterns: some bits are forced, the others
are free.
-/

namespace ScalarDomain.Narrowing

/-- The operand of a complement, which is its own inverse. -/
def bitNegate (f : Frame) : Narrowing :=
  let t := f.x.type
  ofPieces ((t.bitRanges f.z.range).map fun piece =>
    ⟨t.complement (t.ofBits piece.hi), t.complement (t.ofBits piece.lo)⟩) true

/-- The patterns `x` of a width with `x ⋄ c = r`, as the least and the greatest one; `none` when
there is none. -/
def solvePattern? (b : Bitwise) (width c r : Nat) : Option (Nat × Nat) :=
  let flip := fun (bits : Nat) => (twoPow width - 1) ^^^ bits
  match b with
  | .and => if r &&& flip c = 0 then some (r, r ||| flip c) else none
  | .or => if c &&& flip r = 0 then some (r &&& flip c, r) else none
  | .xor => some (c ^^^ r, c ^^^ r)

/-- The range of one operand, for a constant other operand and a constant result. -/
def solveConstant (b : Bitwise) (own : Span) (other r : Int) : Narrowing :=
  let t := own.type
  match solvePattern? b t.width (t.pattern other) (t.pattern r) with
  | none => impossible
  | some (lo, hi) => ofPieces (t.valueRanges ⟨lo, hi⟩) (lo == hi)

/-- The operands of a bitwise connective. On natural numbers a conjunction is below both operands
and a disjunction above both. -/
def bitwise (b : Bitwise) (f : Frame) : Narrowing :=
  let x := f.x
  let y := f.second
  let z := f.z
  let onNaturals :=
    if x.isNatural && y.isNatural && z.isNatural then
      match b with
      | .and => both ⟨z.lo, x.hi⟩ ⟨z.lo, y.hi⟩ false
      | .or => both ⟨x.lo, z.hi⟩ ⟨y.lo, z.hi⟩ false
      | .xor => unknown
    else unknown
  match z.value?, x.value?, y.value? with
  | some r, _, some c => solveConstant b x c r
  | some r, some c, none => (solveConstant b y c r).swap
  | _, _, _ => onNaturals

/-- The amounts of a shift below the width. -/
def validAmounts (width : Nat) (amounts : Range) : Range :=
  ⟨max amounts.lo 0, min amounts.hi (width - 1)⟩

/-- The operands of a shift. An invalid amount says nothing unless executions stop on it. -/
def shift (stops : Bool) (d : Direction) (f : Frame) : Narrowing :=
  let x := f.x
  let y := f.second
  let z := f.z
  let width := x.type.width
  let valid := validAmounts width y.range
  let invalid := decide (y.lo < 0) || decide ((width : Int) ≤ y.hi)
  if invalid && !stops then unknown
  else if valid.hi < valid.lo then impossible
  else
    let single := valid.lo == valid.hi
    match d with
    | .right =>
      let pieces := [valid.lo, valid.hi].map fun (k : Int) =>
        (⟨z.lo * pow2 k.toNat, (z.hi + 1) * pow2 k.toNat - 1⟩ : Range)
      both? (Bounds.hull? pieces) (some valid) single
    | .left =>
      let amounts := valid.values width
      let fits := amounts.all fun (k : Int) =>
        x.type.contains (x.lo * pow2 k.toNat) && x.type.contains (x.hi * pow2 k.toNat)
      if !fits then within none (some valid) false
      else
        let pieces := amounts.map fun (k : Int) =>
          (⟨ceilDiv z.lo (pow2 k.toNat), floorDiv z.hi (pow2 k.toNat)⟩ : Range)
        both? (Bounds.hull? (pieces.filter fun r => decide (r.lo ≤ r.hi))) (some valid) single

/-- The operand of a rotation, which is undone once the amount and the result are known. -/
def rotate (d : Direction) (f : Frame) : Narrowing :=
  let x := f.x
  let width := x.type.width
  match f.second.value?.map (rotateAmount · width), f.z.value? with
  | none, _ => unknown
  | some 0, _ => first f.z.range true
  | some _, none => unknown
  | some amount, some r =>
    let back := match d with
      | .left => width - amount
      | .right => amount
    first (.point (x.type.rotateLeft r back)) true

end ScalarDomain.Narrowing
