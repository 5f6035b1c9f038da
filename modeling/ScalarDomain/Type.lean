/-!
# Machine scalar types

A scalar is a bit, a two's-complement integer of one to 128 bits, or a binary floating point
number. Bits and integers are **words**: a bit is read as an unsigned integer of width one, so
`WordType.view` gives every word its integer type.

An integer type fixes two views of a word. `toBits` is the unsigned bit pattern of a value,
`ofBits` reads a pattern back as a value, and `wrap` is the composition of the two: the
two's-complement wrap-around of an arbitrary integer.
-/

namespace ScalarDomain

/-! ### Powers of two -/

/-- The power `2 ^ n`. -/
def twoPow (n : Nat) : Nat :=
  Nat.pow 2 n

/-- The power `2 ^ n`, as an integer. -/
def pow2 (n : Nat) : Int :=
  (twoPow n : Int)

/-- The mask of `n` low bits. -/
def lowMask (n : Nat) : Int :=
  pow2 n - 1

/-! ### Integer types -/

/-- The widest integer a scalar may hold. -/
def maxIntWidth : Nat := 128

/-- A fixed-width two's-complement integer type. The width is bounded by construction, so no
later definition has to ask for it. -/
structure IntType where
  /-- Number of bits. -/
  width : Nat
  /-- Whether the top bit counts negatively. -/
  signed : Bool
  /-- There is at least one bit. -/
  one_le_width : 1 ≤ width
  /-- There are at most `maxIntWidth` bits. -/
  width_le_max : width ≤ maxIntWidth
deriving DecidableEq

namespace IntType

/-- The integer type of a given width, when there is one. -/
def ofWidth? (width : Nat) (signed : Bool) : Option IntType :=
  if h : 1 ≤ width ∧ width ≤ maxIntWidth then some ⟨width, signed, h.1, h.2⟩ else none

/-- A bit seen as an unsigned integer of width one. -/
def bitView : IntType :=
  ⟨1, false, by decide, by decide⟩

/-- The same width with the given reading of the sign bit. -/
def withSigned (t : IntType) (signed : Bool) : IntType :=
  { t with signed := signed }

/-- The number of values of the type. -/
def modulus (t : IntType) : Int :=
  pow2 t.width

/-- The smallest value. -/
def minValue (t : IntType) : Int :=
  if t.signed then -pow2 (t.width - 1) else 0

/-- The largest value. -/
def maxValue (t : IntType) : Int :=
  if t.signed then pow2 (t.width - 1) - 1 else pow2 t.width - 1

/-- The value whose bit pattern is all ones. -/
def allOnes (t : IntType) : Int :=
  if t.signed then -1 else t.maxValue

/-- Whether an integer is a value of the type. -/
def contains (t : IntType) (v : Int) : Bool :=
  decide (t.minValue ≤ v) && decide (v ≤ t.maxValue)

/-- The unsigned bit pattern of a value, in `[0, 2 ^ width)`. -/
def toBits (t : IntType) (v : Int) : Int :=
  v % t.modulus

/-- The value of a bit pattern in `[0, 2 ^ width)`. -/
def ofBits (t : IntType) (bits : Int) : Int :=
  if t.signed && decide (pow2 (t.width - 1) ≤ bits) then bits - t.modulus else bits

/-- Two's-complement wrap-around of an arbitrary integer. -/
def wrap (t : IntType) (v : Int) : Int :=
  t.ofBits (t.toBits v)

/-- The name of the type: a letter for the sign, then the width. -/
def name (t : IntType) : String :=
  (if t.signed then "i" else "u") ++ toString t.width

end IntType

/-! ### Floating point types -/

/-- A binary floating point type. -/
inductive FloatType where
  /-- 32 bits. -/
  | single
  /-- 64 bits. -/
  | double
deriving DecidableEq

namespace FloatType

/-- Number of bits. -/
def width : FloatType → Nat
  | single => 32
  | double => 64

/-- The floating point type of a given width, when there is one. -/
def ofWidth? (width : Nat) : Option FloatType :=
  if width = 32 then some single else if width = 64 then some double else none

/-- The name of the type. -/
def name (f : FloatType) : String :=
  "f" ++ toString f.width

end FloatType

/-! ### Words and scalars -/

/-- The type of a word: a bit or an integer. -/
inductive WordType where
  /-- A truth value. -/
  | bit
  /-- An integer. -/
  | int (t : IntType)
deriving DecidableEq

namespace WordType

/-- The integer type a word is read in; a bit is an unsigned integer of width one. -/
def view : WordType → IntType
  | bit => .bitView
  | int t => t

/-- The name of the type. -/
def name : WordType → String
  | bit => "bit"
  | int t => t.name

end WordType

/-- The type of a machine scalar. -/
inductive ScalarType where
  /-- A bit or an integer. -/
  | word (w : WordType)
  /-- A floating point number. -/
  | float (f : FloatType)
deriving DecidableEq

/-- How the bits of a scalar are read. -/
inductive Representation where
  /-- As an integer. -/
  | int
  /-- As a floating point number. -/
  | float
deriving DecidableEq

namespace Representation

/-- All representations. -/
def all : List Representation :=
  [int, float]

/-- The name of a representation. -/
def name : Representation → String
  | int => "int"
  | float => "float"

/-- The name of a representation in descriptions. -/
def label : Representation → String
  | int => "Int"
  | float => "Float"

end Representation

namespace ScalarType

/-- The type of truth values. -/
abbrev bit : ScalarType := .word .bit

/-- The scalar type of an integer type. -/
abbrev int (t : IntType) : ScalarType := .word (.int t)

/-- Number of bits. -/
def width : ScalarType → Nat
  | word w => w.view.width
  | float f => f.width

/-- How the bits are read. -/
def representation : ScalarType → Representation
  | word _ => .int
  | float _ => .float

/-- The integer type of a proper integer (a bit is none). -/
def asInt? : ScalarType → Option IntType
  | word (.int t) => some t
  | _ => none

/-- The floating point type of a float. -/
def asFloat? : ScalarType → Option FloatType
  | float f => some f
  | word _ => none

/-- The integer type a word is read in; floats have none. -/
def view? : ScalarType → Option IntType
  | word w => some w.view
  | float _ => none

/-- The name of the type. -/
def name : ScalarType → String
  | word w => w.name
  | float f => f.name

end ScalarType

/-- The native family of operations of a scalar type. -/
inductive Family where
  /-- Truth values. -/
  | bit
  /-- Signed integers. -/
  | signed
  /-- Unsigned integers. -/
  | unsigned
  /-- Floating point numbers. -/
  | float
deriving DecidableEq

namespace Family

/-- All families. -/
def all : List Family :=
  [bit, signed, unsigned, float]

/-- The family of a scalar type. -/
def ofType : ScalarType → Family
  | .word .bit => bit
  | .word (.int t) => if t.signed then signed else unsigned
  | .float _ => float

/-- The name of a family. -/
def name : Family → String
  | bit => "bit"
  | signed => "signed"
  | unsigned => "unsigned"
  | float => "float"

/-- The name of a family in descriptions. -/
def label : Family → String
  | bit => "Bit"
  | signed => "Signed"
  | unsigned => "Unsigned"
  | float => "Float"

end Family

end ScalarDomain
