import ScalarDomain.Type

/-!
# Operations

An operation is a description of what to compute, with its parameters. Operations that share
their algorithms are one constructor with a parameter: the six comparisons, minimum and
maximum, the three bitwise connectives, the two shifts and rotations, the two logical
connectives and the two extensions. `OperationKind` forgets the parameters; it is the flat
list of kinds that tables and names are indexed by.
-/

namespace ScalarDomain

/-! ### Families of operations -/

/-- An order comparison. -/
inductive Comparison where
  | less
  | lessOrEqual
  | equal
  | different
  | greaterOrEqual
  | greater
deriving DecidableEq

namespace Comparison

/-- The comparison with its operands swapped: `a < b` iff `b > a`. -/
def swapped : Comparison → Comparison
  | less => greater
  | lessOrEqual => greaterOrEqual
  | equal => equal
  | different => different
  | greaterOrEqual => lessOrEqual
  | greater => less

/-- The comparison that holds exactly when this one does not, on ordered values. -/
def negate : Comparison → Comparison
  | less => greaterOrEqual
  | lessOrEqual => greater
  | equal => different
  | different => equal
  | greaterOrEqual => less
  | greater => lessOrEqual

/-- Truth of the comparison between two values. Unordered values satisfy only `different`. -/
def holds {α : Type} [LT α] [LE α] [BEq α] [DecidableLT α] [DecidableLE α]
    (c : Comparison) (a b : α) : Bool :=
  match c with
  | less => decide (a < b)
  | lessOrEqual => decide (a ≤ b)
  | equal => a == b
  | different => !(a == b)
  | greaterOrEqual => decide (b ≤ a)
  | greater => decide (b < a)

end Comparison

/-- Minimum or maximum. -/
inductive Extremum where
  | min
  | max
deriving DecidableEq

/-- A bitwise connective. -/
inductive Bitwise where
  | or
  | and
  | xor
deriving DecidableEq

/-- The direction of a shift or a rotation. -/
inductive Direction where
  | left
  | right
deriving DecidableEq

/-- A logical connective. -/
inductive Connective where
  | and
  | or
deriving DecidableEq

/-- What fills the new high bits of an extension. -/
inductive Extension where
  /-- Zeros. -/
  | zero
  /-- Copies of the sign bit. -/
  | sign
deriving DecidableEq

/-! ### Kinds -/

/-- An operation without its parameters. -/
inductive OperationKind where
  | prev
  | next
  | opposite
  | bitNegate
  | logicalNegate
  | castBit
  | castInt
  | castFloat
  | extendWithZero
  | extendWithSign
  | reduce
  | compareLess
  | compareLessOrEqual
  | compareEqual
  | compareDifferent
  | compareGreaterOrEqual
  | compareGreater
  | plus
  | minus
  | times
  | divide
  | modulo
  | min
  | max
  | bitOr
  | bitAnd
  | bitXor
  | leftShift
  | rightShift
  | leftRotate
  | rightRotate
  | logicalAnd
  | logicalOr
  | concat
  | bitSet
deriving DecidableEq

/-- The arity class of an operation. -/
inductive Section where
  /-- One operand. -/
  | unary
  /-- Two operands and a truth value as result. -/
  | compare
  /-- Two operands. -/
  | binary
deriving DecidableEq

/-- The name of an arity class. -/
def Section.name : Section → String
  | unary => "unary"
  | compare => "compare"
  | binary => "binary"

namespace OperationKind

/-- All kinds, in their order: unary operations, comparisons, binary operations. -/
def all : List OperationKind :=
  [prev, next, opposite, bitNegate, logicalNegate, castBit, castInt, castFloat,
    extendWithZero, extendWithSign, reduce,
    compareLess, compareLessOrEqual, compareEqual, compareDifferent, compareGreaterOrEqual,
    compareGreater,
    plus, minus, times, divide, modulo, min, max, bitOr, bitAnd, bitXor, leftShift, rightShift,
    leftRotate, rightRotate, logicalAnd, logicalOr, concat, bitSet]

/-- The number of kinds before the comparisons. -/
def compareStart : Nat := 11

/-- The number of kinds before the binary operations. -/
def binaryStart : Nat := 17

/-- The number of kinds. -/
def count : Nat := 35

/-- The position of a kind in the list of all kinds. -/
def index : OperationKind → Nat
  | prev => 0
  | next => 1
  | opposite => 2
  | bitNegate => 3
  | logicalNegate => 4
  | castBit => 5
  | castInt => 6
  | castFloat => 7
  | extendWithZero => 8
  | extendWithSign => 9
  | reduce => 10
  | compareLess => 11
  | compareLessOrEqual => 12
  | compareEqual => 13
  | compareDifferent => 14
  | compareGreaterOrEqual => 15
  | compareGreater => 16
  | plus => 17
  | minus => 18
  | times => 19
  | divide => 20
  | modulo => 21
  | min => 22
  | max => 23
  | bitOr => 24
  | bitAnd => 25
  | bitXor => 26
  | leftShift => 27
  | rightShift => 28
  | leftRotate => 29
  | rightRotate => 30
  | logicalAnd => 31
  | logicalOr => 32
  | concat => 33
  | bitSet => 34

/-- The arity class of a kind with its position in that class. -/
def position (k : OperationKind) : Section × Nat :=
  if k.index < compareStart then (.unary, k.index)
  else if k.index < binaryStart then (.compare, k.index - compareStart)
  else (.binary, k.index - binaryStart)

/-- Whether the operation is a comparison. -/
def isCompare (k : OperationKind) : Bool :=
  k.position.1 == .compare

/-- Whether the operation has one operand. -/
def isUnary (k : OperationKind) : Bool :=
  k.position.1 == .unary

/-- Whether swapping the operands never changes the result. -/
def isCommutative : OperationKind → Bool
  | plus | times | min | max | bitOr | bitAnd | bitXor | logicalAnd | logicalOr
  | compareEqual | compareDifferent => true
  | _ => false

/-- Whether floats have the operation. -/
def isFloatOperation : OperationKind → Bool
  | bitNegate | extendWithZero | extendWithSign | reduce | bitOr | bitAnd | bitXor
  | leftShift | rightShift | leftRotate | rightRotate | concat | bitSet => false
  | _ => true

/-- The comparison a kind stands for. -/
def comparison? : OperationKind → Option Comparison
  | compareLess => some .less
  | compareLessOrEqual => some .lessOrEqual
  | compareEqual => some .equal
  | compareDifferent => some .different
  | compareGreaterOrEqual => some .greaterOrEqual
  | compareGreater => some .greater
  | _ => none

/-- The kind of a comparison. -/
def ofComparison : Comparison → OperationKind
  | .less => compareLess
  | .lessOrEqual => compareLessOrEqual
  | .equal => compareEqual
  | .different => compareDifferent
  | .greaterOrEqual => compareGreaterOrEqual
  | .greater => compareGreater

/-- The comparison with its operands swapped; other kinds are left alone. -/
def swapped (k : OperationKind) : OperationKind :=
  match k.comparison? with
  | some c => ofComparison c.swapped
  | none => k

/-- The opposite comparison; other kinds are left alone. -/
def negate (k : OperationKind) : OperationKind :=
  match k.comparison? with
  | some c => ofComparison c.negate
  | none => k

/-- The name of a kind. -/
def name : OperationKind → String
  | prev => "Prev"
  | next => "Next"
  | opposite => "Opposite"
  | bitNegate => "BitNegate"
  | logicalNegate => "LogicalNegate"
  | castBit => "CastBit"
  | castInt => "CastInt"
  | castFloat => "CastFloat"
  | extendWithZero => "ExtendWithZero"
  | extendWithSign => "ExtendWithSign"
  | reduce => "Reduce"
  | compareLess => "CompareLess"
  | compareLessOrEqual => "CompareLessOrEqual"
  | compareEqual => "CompareEqual"
  | compareDifferent => "CompareDifferent"
  | compareGreaterOrEqual => "CompareGreaterOrEqual"
  | compareGreater => "CompareGreater"
  | plus => "Plus"
  | minus => "Minus"
  | times => "Times"
  | divide => "Divide"
  | modulo => "Modulo"
  | min => "Min"
  | max => "Max"
  | bitOr => "BitOr"
  | bitAnd => "BitAnd"
  | bitXor => "BitXor"
  | leftShift => "LeftShift"
  | rightShift => "RightShift"
  | leftRotate => "LeftRotate"
  | rightRotate => "RightRotate"
  | logicalAnd => "LogicalAnd"
  | logicalOr => "LogicalOr"
  | concat => "Concat"
  | bitSet => "BitSet"

end OperationKind

/-! ### Operations -/

/-- An operation with its parameters. Bit ranges are half open: `[low, high)`. -/
inductive Operation where
  /-- The predecessor. -/
  | prev
  /-- The successor. -/
  | next
  /-- The additive opposite. -/
  | opposite
  /-- Every bit flipped. -/
  | bitNegate
  /-- Whether the operand is zero. -/
  | logicalNegate
  /-- Whether the operand is nonzero. -/
  | castBit
  /-- The value in another integer type. -/
  | castInt (dest : IntType)
  /-- The value rounded to a floating point type. -/
  | castFloat (dest : FloatType)
  /-- The bit pattern with new high bits. -/
  | extend (fill : Extension) (extension : Nat)
  /-- The bits `[low, high)`. -/
  | reduce (low high : Nat)
  /-- A comparison. -/
  | compare (c : Comparison)
  /-- The sum. -/
  | plus
  /-- The difference. -/
  | minus
  /-- The product. -/
  | times
  /-- The quotient, truncated toward zero. -/
  | divide
  /-- The remainder of the truncated quotient. -/
  | modulo
  /-- The smaller or the larger operand. -/
  | extremum (e : Extremum)
  /-- A bitwise connective of the two patterns. -/
  | bitwise (b : Bitwise)
  /-- A shift by the second operand. -/
  | shift (d : Direction)
  /-- A rotation by the second operand. -/
  | rotate (d : Direction)
  /-- A connective of the two truth values. -/
  | connective (c : Connective)
  /-- The bits of the first operand above those of the second. -/
  | concat
  /-- The first operand with the bits `[low, high)` overwritten by the second. -/
  | bitSet (low high : Nat)
deriving DecidableEq

namespace Operation

/-- The kind of an operation. -/
def kind : Operation → OperationKind
  | prev => .prev
  | next => .next
  | opposite => .opposite
  | bitNegate => .bitNegate
  | logicalNegate => .logicalNegate
  | castBit => .castBit
  | castInt _ => .castInt
  | castFloat _ => .castFloat
  | extend .zero _ => .extendWithZero
  | extend .sign _ => .extendWithSign
  | reduce _ _ => .reduce
  | compare c => .ofComparison c
  | plus => .plus
  | minus => .minus
  | times => .times
  | divide => .divide
  | modulo => .modulo
  | extremum .min => .min
  | extremum .max => .max
  | bitwise .or => .bitOr
  | bitwise .and => .bitAnd
  | bitwise .xor => .bitXor
  | shift .left => .leftShift
  | shift .right => .rightShift
  | rotate .left => .leftRotate
  | rotate .right => .rightRotate
  | connective .and => .logicalAnd
  | connective .or => .logicalOr
  | concat => .concat
  | bitSet _ _ => .bitSet

/-- The operation of a kind without parameters. -/
def ofKind? : OperationKind → Option Operation
  | .prev => some prev
  | .next => some next
  | .opposite => some opposite
  | .bitNegate => some bitNegate
  | .logicalNegate => some logicalNegate
  | .castBit => some castBit
  | .castInt | .castFloat | .extendWithZero | .extendWithSign | .reduce | .bitSet => none
  | .compareLess => some (compare .less)
  | .compareLessOrEqual => some (compare .lessOrEqual)
  | .compareEqual => some (compare .equal)
  | .compareDifferent => some (compare .different)
  | .compareGreaterOrEqual => some (compare .greaterOrEqual)
  | .compareGreater => some (compare .greater)
  | .plus => some plus
  | .minus => some minus
  | .times => some times
  | .divide => some divide
  | .modulo => some modulo
  | .min => some (extremum .min)
  | .max => some (extremum .max)
  | .bitOr => some (bitwise .or)
  | .bitAnd => some (bitwise .and)
  | .bitXor => some (bitwise .xor)
  | .leftShift => some (shift .left)
  | .rightShift => some (shift .right)
  | .leftRotate => some (rotate .left)
  | .rightRotate => some (rotate .right)
  | .logicalAnd => some (connective .and)
  | .logicalOr => some (connective .or)
  | .concat => some concat

/-- The number of operands besides the first. -/
def arity : Operation → Nat
  | prev | next | opposite | bitNegate | logicalNegate | castBit | castInt _ | castFloat _
  | extend _ _ | reduce _ _ => 0
  | _ => 1

/-- Whether the operation makes a fresh value, so that its precision says nothing about the
stability of the first operand. -/
def isFresh : Operation → Bool
  | compare _ | castBit | castInt _ | castFloat _ | extend _ _ | reduce _ _ | concat => true
  | _ => false

/-- The bit range of the operations that have one. -/
def bitRange? : Operation → Option (Nat × Nat)
  | reduce low high | bitSet low high => some (low, high)
  | _ => none

/-- The text of an operation: its kind, with the parameters in angle brackets. -/
def text : Operation → String
  | castInt dest => "CastInt<" ++ dest.name ++ ">"
  | castFloat dest => "CastFloat<" ++ dest.name ++ ">"
  | extend .zero n => s!"ExtendWithZero<{n}>"
  | extend .sign n => s!"ExtendWithSign<{n}>"
  | reduce low high => s!"Reduce<{low}..{high}>"
  | bitSet low high => s!"BitSet<{low}..{high}>"
  | op => op.kind.name

end Operation

end ScalarDomain
