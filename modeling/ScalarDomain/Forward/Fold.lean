import ScalarDomain.Forward.Step

/-!
# Operations on concrete values

Evaluation of an operation on constants. Words are computed through their integer view: exact
integer arithmetic whose results may leave the type, or arithmetic on bit patterns, which never
does. Floats are computed as doubles and rounded to their type.
-/

namespace ScalarDomain

/-! ### Bit patterns -/

/-- A bitwise connective of two natural numbers. -/
def Bitwise.combine : Bitwise → Nat → Nat → Nat
  | or => (· ||| ·)
  | and => (· &&& ·)
  | xor => (· ^^^ ·)

/-- A connective of two truth values. -/
def Connective.combine : Connective → Bool → Bool → Bool
  | and => (· && ·)
  | or => (· || ·)

namespace IntType

/-- The bit pattern of a value, as a natural number. -/
def pattern (t : IntType) (v : Int) : Nat :=
  (t.toBits v).toNat

/-- The value of a bit pattern. -/
def ofPattern (t : IntType) (bits : Nat) : Int :=
  t.ofBits (bits : Int)

/-- The value with every bit flipped. -/
def complement (t : IntType) (v : Int) : Int :=
  t.ofPattern ((twoPow t.width - 1) ^^^ t.pattern v)

/-- The value with the bits `[low, high)` cleared, as a bit pattern. -/
def cleared (t : IntType) (v : Int) (low high : Nat) : Nat :=
  t.pattern v &&& ((twoPow t.width - 1) ^^^ ((twoPow (high - low) - 1) <<< low))

/-- The parts of a type on which an extension into another type adds a constant offset: the
patterns with the sign bit clear and those with the sign bit set. -/
def extensionSegments (t : IntType) (fill : Extension) (wide : IntType) : List (Range × Int) :=
  let half := pow2 (t.width - 1)
  let segment := fun (lo hi extended : Int) =>
    ((⟨t.ofBits lo, t.ofBits hi⟩ : Range), wide.ofBits extended - t.ofBits lo)
  let high := match fill with
    | .sign => half + wide.modulus - t.modulus
    | .zero => half
  [segment 0 (half - 1) 0, segment half (t.modulus - 1) high]

end IntType

/-! ### Words -/

namespace Step

/-- An operation on constant words. `x` has type `ty`, the second operand `y` has type `arg`, and
the result has type `result`. -/
def foldWord (stops : Bool) (op : Operation) (ty arg : WordType) (result : ScalarType)
    (x y : Int) : Step :=
  let t := ty.view
  let out := match result with
    | .word w => w
    | .float _ => ty
  let single := fun (v : Int) => words out (.point v) true
  let wrapping := fun (v : Int) => overflowing stops out (.point v) true
  match op with
  | .prev => wrapping (x - 1)
  | .next => wrapping (x + 1)
  | .opposite => wrapping (-x)
  | .bitNegate => single (t.complement x)
  | .logicalNegate => ofBool (x == 0)
  | .castBit => ofBool (x != 0)
  | .castInt _ => wrapping x
  | .castFloat dest => fromInts stops dest (.point x) true
  | .extend .zero _ => single (t.toBits x)
  | .extend .sign _ => single (out.view.wrap ((t.withSigned true).ofBits (t.toBits x)))
  | .reduce low high => single (floorDiv (t.toBits x) (pow2 low) % pow2 (high - low))
  | .compare c => ofBool (c.holds x y)
  | .plus => wrapping (x + y)
  | .minus => wrapping (x - y)
  | .times => wrapping (x * y)
  | .divide => if y = 0 then failure stops .divisionByZero out else wrapping (x.tdiv y)
  | .modulo => if y = 0 then failure stops .divisionByZero out else single (x.tmod y)
  | .extremum .min => single (min x y)
  | .extremum .max => single (max x y)
  | .bitwise b => single (t.ofPattern (b.combine (t.pattern x) (t.pattern y)))
  | .shift d =>
    match shiftAmount? y t.width, d with
    | none, _ => failure stops .positiveOverflow out
    | some k, .left => single (t.wrap (x * pow2 k))
    | some k, .right => single (floorDiv x (pow2 k))
  | .rotate .left => single (t.rotateLeft x (rotateAmount y t.width))
  | .rotate .right =>
    single (t.rotateLeft x ((t.width - rotateAmount y t.width) % t.width))
  | .connective c => ofBool (c.combine (x != 0) (y != 0))
  | .concat => single (t.toBits x * pow2 arg.view.width + arg.view.toBits y)
  | .bitSet low high =>
    single (t.ofPattern (t.cleared x low high ||| (arg.view.pattern y <<< low)))

/-! ### Floats -/

/-- The error of an overflow to an infinity. -/
def infiniteError (x : Float) : ErrorKind :=
  if 0.0 < x then .positiveOverflow else .negativeOverflow

/-- The arithmetic of doubles. -/
def arithmetic (op : Operation) (x y : Float) : Float :=
  match op with
  | .plus => x + y
  | .minus => x - y
  | .times => x * y
  | .divide => x / y
  | .modulo => Double.remainder x y
  | .extremum .min => Double.min x y
  | .extremum .max => Double.max x y
  | _ => Double.nan

/-- The error that one arithmetic step on doubles runs into, if any. -/
def arithmeticError? (op : Operation) (x y result : Float) : Option ErrorKind :=
  let byZero := (op = .divide ∨ op = .modulo) && y == 0.0
  let vanished := match op with
    | .times => x != 0.0 && y != 0.0
    | .divide => x != 0.0 && y.isFinite
    | _ => false
  if x.isNaN || y.isNaN then none
  else if byZero then some .divisionByZero
  else if result.isNaN then some .nan
  else if result.isInf && x.isFinite && y.isFinite then some (infiniteError result)
  else if result == 0.0 && vanished then some .underflow
  else none

/-- One float computed from another, with the error of having left the finite values. -/
def floatStep (stops : Bool) (ty : FloatType) (x result : Float) : Step :=
  if result.isInf && x.isFinite then
    { errors := [(infiniteError result, true)]
      delivery := if stops then .nothing else .floats ty (.constant result) false }
  else floats ty (.constant result) true

/-- An operation on constant floats. -/
def foldFloat (stops : Bool) (op : Operation) (ty : FloatType) (x y : Float) : Step :=
  match op with
  | .prev => floatStep stops ty x (ty.nextDown x)
  | .next => floatStep stops ty x (ty.nextUp x)
  | .opposite => floats ty (.constant (-x)) true
  | .logicalNegate => ofBool (x == 0.0)
  | .castBit => ofBool (x != 0.0)
  | .castInt dest => truncation stops dest (.constant x) true
  | .castFloat dest =>
    let result := dest.round x
    let errors := if result == 0.0 && x != 0.0 then [(ErrorKind.underflow, false)] else []
    (floatStep stops dest x result).withErrors errors
  | .connective c => ofBool (c.combine (x != 0.0) (y != 0.0))
  | .compare c => ofBool (c.holds x y)
  | op =>
    let result := ty.round (arithmetic op x y)
    match arithmeticError? op x y result with
    | none => floats ty (.constant result) true
    | some .underflow => (floats ty (.constant result) true).withErrors [(.underflow, true)]
    | some kind =>
      { errors := [(kind, true)]
        delivery := if stops then .nothing else .floats ty (.constant result) false }

end Step

end ScalarDomain
