import ScalarDomain.Backward.Refinement
import ScalarDomain.Datum
import ScalarDomain.Operation.Typing

/-!
# Descriptors

Types, operations and parameters as data, and back. A description is checked when it is read: an
integer type has a width between one and 128, a floating point type one of 32 or 64, and in a
policy the bound for trusted operands is not the coarser one. The bit ranges and extensions of
operations are taken as they are.
-/

namespace ScalarDomain

/-! ### Types -/

namespace IntType

/-- The parts of an integer type. -/
def fields (t : IntType) : List (String × Datum) :=
  [("width", .count t.width), ("signed", .bool t.signed)]

/-- The description of an integer type. -/
def toDatum (t : IntType) : Datum :=
  .record t.fields

/-- The integer type of a description. -/
def ofDatum : Reader IntType := fun d => do
  let (width, signed) ← Datum.toPair "width" Datum.toWord "signed" Datum.toBool d
  checkRead (ofWidth width signed)

end IntType

namespace FloatType

/-- The parts of a floating point type. -/
def fields (t : FloatType) : List (String × Datum) :=
  [("width", .count t.width)]

/-- The description of a floating point type. -/
def toDatum (t : FloatType) : Datum :=
  .record t.fields

/-- The floating point type of a description. -/
def ofDatum : Reader FloatType := fun d => do
  let width ← Datum.toOne "width" Datum.toWord d
  checkRead (ofWidth width)

end FloatType

namespace ScalarType

/-- The description of a scalar type. -/
def toDatum : ScalarType → Datum
  | word .bit => .record [("type", .text "bit")]
  | word (.int t) => .record (("type", .text "int") :: t.fields)
  | float t => .record (("type", .text "float") :: t.fields)

/-- The scalar type of a description. -/
def ofDatum : Reader ScalarType := fun d => do
  let (tag, rest) ← Datum.toTagged "type" d
  if tag = "bit" then do
    Datum.toUnit rest
    return .bit
  else if tag = "int" then return .int (← IntType.ofDatum rest)
  else if tag = "float" then return .float (← FloatType.ofDatum rest)
  else .error .malformed

end ScalarType

/-! ### Operations -/

/-- The tag of a kind of operation. -/
def OperationKind.tag : OperationKind → String
  | prev => "prev"
  | next => "next"
  | opposite => "opposite"
  | bitNegate => "bit_negate"
  | logicalNegate => "logical_negate"
  | castBit => "cast_bit"
  | castInt => "cast_int"
  | castFloat => "cast_float"
  | extendWithZero => "extend_with_zero"
  | extendWithSign => "extend_with_sign"
  | reduce => "reduce"
  | compareLess => "compare_less"
  | compareLessOrEqual => "compare_less_or_equal"
  | compareEqual => "compare_equal"
  | compareDifferent => "compare_different"
  | compareGreaterOrEqual => "compare_greater_or_equal"
  | compareGreater => "compare_greater"
  | plus => "plus"
  | minus => "minus"
  | times => "times"
  | divide => "divide"
  | modulo => "modulo"
  | min => "min"
  | max => "max"
  | bitOr => "bit_or"
  | bitAnd => "bit_and"
  | bitXor => "bit_xor"
  | leftShift => "left_shift"
  | rightShift => "right_shift"
  | leftRotate => "left_rotate"
  | rightRotate => "right_rotate"
  | logicalAnd => "logical_and"
  | logicalOr => "logical_or"
  | concat => "concat"
  | bitSet => "bit_set"

namespace Operation

/-- The parameters of an operation as fields. -/
def fields : Operation → List (String × Datum)
  | castInt dest => [("to", dest.toDatum)]
  | castFloat dest => [("to", dest.toDatum)]
  | extend _ n => [("extension", .count n)]
  | reduce low high | bitSet low high => [("low", .count low), ("high", .count high)]
  | _ => []

/-- The description of an operation. -/
def toDatum (op : Operation) : Datum :=
  .record (("op", .text op.kind.tag) :: op.fields)

/-- The operation of a kind whose parameters are described. -/
def ofParameters (k : OperationKind) (d : Datum) : Except ReadError Operation :=
  match k with
  | .castInt => (Datum.toOne "to" IntType.ofDatum d).map castInt
  | .castFloat => (Datum.toOne "to" FloatType.ofDatum d).map castFloat
  | .extendWithZero => (Datum.toOne "extension" Datum.toWord d).map (extend .zero)
  | .extendWithSign => (Datum.toOne "extension" Datum.toWord d).map (extend .sign)
  | .reduce => do
    let (low, high) ← Datum.toPair "low" Datum.toWord "high" Datum.toWord d
    return reduce low high
  | .bitSet => do
    let (low, high) ← Datum.toPair "low" Datum.toWord "high" Datum.toWord d
    return bitSet low high
  | k => do
    Datum.toUnit d
    Datum.required (ofKind? k)

/-- The operation of a description. -/
def ofDatum : Reader Operation := fun d => do
  let (tag, rest) ← Datum.toTagged "op" d
  let k ← Datum.named OperationKind.all OperationKind.tag tag
  ofParameters k rest

end Operation

/-! ### Parameters -/

namespace LatticePolicy

/-- The description of a policy. -/
def toDatum (p : LatticePolicy) : Datum :=
  .record [("sure", .text p.sure.name), ("may", .text p.may.name)]

/-- The policy of a description. -/
def ofDatum : Reader LatticePolicy := fun d => do
  let bound : Reader Creation := Datum.toMember Creation.all Creation.name
  let (sure, may) ← Datum.toPair "sure" bound "may" bound d
  checkRead (ofBounds sure may)

end LatticePolicy

namespace Params

/-- The description of the parameters of an evaluation. -/
def toDatum (p : Params) : Datum :=
  .record [("information", .text p.information.name), ("errors", .text p.errors.name),
    ("policy", p.policy.toDatum), ("max_depth", .count p.maxDepth)]

/-- The parameters of a description. -/
def ofDatum : Reader Params := fun d => do
  let readInformation : Reader Information := Datum.toMember Information.all Information.name
  let readErrors : Reader ErrorPolicy := Datum.toMember ErrorPolicy.all ErrorPolicy.name
  match d with
  | .record fields => do
    let errors ← Datum.field? fields "errors" readErrors
    let information ← Datum.field? fields "information" readInformation
    let maxDepth ← Datum.field? fields "max_depth" Datum.toWord
    let policy ← Datum.field? fields "policy" LatticePolicy.ofDatum
    return {
      information := ← Datum.required information
      errors := ← Datum.required errors
      policy := ← Datum.required policy
      maxDepth := ← Datum.required maxDepth }
  | .list items => do
    let (information, rest) ← Datum.next readInformation items
    let (errors, rest) ← Datum.next readErrors rest
    let (policy, rest) ← Datum.next LatticePolicy.ofDatum rest
    let (maxDepth, rest) ← Datum.next Datum.toWord rest
    Datum.done rest
    return { information, errors, policy, maxDepth }
  | _ => .error .malformed

end Params

/-! ### Summaries -/

namespace Summary

/-- The description of a summary. -/
def toDatum (s : Summary) : Datum :=
  .record [("may", .count s.may.toNat), ("sure", .count s.sure.toNat)]

/-- The summary of a description. -/
def ofDatum : Reader Summary := fun d => do
  let (may, sure) ← Datum.toPair "may" (Datum.toCount 256) "sure" (Datum.toCount 256) d
  return ⟨BitVec.ofNat 8 may, BitVec.ofNat 8 sure⟩

end Summary

end ScalarDomain
