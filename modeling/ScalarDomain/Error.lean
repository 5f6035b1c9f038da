import ScalarDomain.Element
import ScalarDomain.Operation
import ScalarDomain.Policy
import ScalarDomain.Question

/-!
# Errors and faults

An `Error` is the cause for which a request is refused; it has a class and a message. A `Fault`
is a broken precondition: going on after it would make the answers unsound, so it ends the
evaluation.
-/

namespace ScalarDomain

/-! ### Errors -/

/-- The class of an error. -/
inductive ErrorClass where
  /-- A scalar type that does not exist. -/
  | invalidType
  /-- An operation or an element that cannot be built. -/
  | invalidOperation
  /-- A question without an answer. -/
  | notSupportedYet
deriving DecidableEq

namespace ErrorClass

/-- The name of a class. -/
def name : ErrorClass → String
  | invalidType => "InvalidType"
  | invalidOperation => "InvalidOperation"
  | notSupportedYet => "NotSupportedYet"

/-- The tag that opens the messages of a class. -/
def tag : ErrorClass → String
  | invalidType => "[scalar::type] "
  | invalidOperation => "[scalar::operation] "
  | notSupportedYet => "[scalar::unsupported] "

end ErrorClass

/-- Why a request is refused. -/
inductive Error where
  /-- No integer type has this width. -/
  | intWidth (width : Nat)
  /-- No floating point type has this width. -/
  | floatWidth (width : Nat)
  /-- No extension adds this many bits. -/
  | extension (bits : Nat)
  /-- The bit range is empty or too high. -/
  | bitRange (low high : Nat)
  /-- The operation does not take operands of these types. -/
  | notApplicable (op : Operation) (receiver : ScalarType) (argument : Option ScalarType)
  /-- The integer is not a value of the type. -/
  | outOfRange (v : Int) (ty : IntType)
  /-- The integers are not the ends of a range of the type. -/
  | intRange (r : Range) (ty : IntType)
  /-- The floats are not the ends of a range of the type. -/
  | floatRange (r : Bounds Float) (ty : FloatType)
  /-- A list of values is empty or too long. -/
  | disjunctionSize (limit count : Nat)
  /-- The value is not of the type. -/
  | valueType (v : Value) (ty : ScalarType)
  /-- The values of the question do not build a value of the type. -/
  | construction (q : Question) (ty : ScalarType)
  /-- The bound for trusted operands is the coarser one. -/
  | policyOrder (sure may : Creation)
  /-- Elements of this kind do not answer the question. -/
  | question (q : QuestionKind) (kind : ElementKind)
  /-- Only a constant has a value. -/
  | notConstant

namespace Error

/-- The class of an error. -/
def errorClass : Error → ErrorClass
  | intWidth _ | floatWidth _ => .invalidType
  | question _ _ | notConstant => .notSupportedYet
  | _ => .invalidOperation

/-- The message of an error without its tag. -/
def detail : Error → String
  | intWidth w => s!"integer width {w} out of range [1, {maxIntWidth}]"
  | floatWidth w => s!"unsupported float width {w}"
  | extension n => s!"invalid extension by {n} bits"
  | bitRange low high => s!"invalid bit range [{low}, {high})"
  | notApplicable op receiver argument =>
    op.text ++ " not applicable to " ++ receiver.name ++
      (match argument with | some ty => " and " ++ ty.name | none => "")
  | outOfRange v ty => s!"constant {v} out of range for " ++ ty.name
  | intRange r ty => s!"invalid range [{r.lo}, {r.hi}] for " ++ ty.name
  | floatRange r ty =>
    "invalid range [" ++ Decimal.Layout.plain.write r.lo ++ ", " ++
      Decimal.Layout.plain.write r.hi ++ "] for " ++ ty.name
  | disjunctionSize limit n => s!"a disjunction holds 1 to {limit} values, got {n}"
  | valueType v ty => "value " ++ v.text ++ " is not of type " ++ ty.name
  | construction q ty => q.text ++ " does not build a value of " ++ ty.name
  | policyOrder sure may =>
    "lattice policy with sure bound " ++ sure.name ++ " above may bound " ++ may.name
  | question q kind =>
    "query " ++ q.topic.name ++ "::" ++ q.name ++ " on " ++ kind.name ++ " element"
  | notConstant => "concrete value of a non-constant element"

/-- The message of an error. -/
def message (e : Error) : String :=
  e.errorClass.tag ++ e.detail

end Error

/-! ### Faults -/

/-- An operation of the lattice that needs two elements of one type. -/
inductive LatticeOperation where
  | join
  | meet
  | containment
deriving DecidableEq

/-- The name of a lattice operation. -/
def LatticeOperation.name : LatticeOperation → String
  | join => "join"
  | meet => "meet"
  | containment => "containment"

/-- A broken precondition. -/
inductive Fault where
  /-- A binary operation has no second operand. -/
  | missingOperand (op : Operation)
  /-- The operands have the wrong types. -/
  | refused (e : Error)
  /-- The result to refine from has the wrong type. -/
  | resultType (op : Operation) (produced required : ScalarType)
  /-- A lattice operation on elements of two types. -/
  | typeMismatch (operation : LatticeOperation) (a b : ScalarType)
  /-- An operation that must be supported is not. -/
  | notWired (op : Operation) (kind : ElementKind)
  /-- A refinement that must be supported is not. -/
  | refinementNotWired (op : Operation) (kind : ElementKind)
  /-- Kinds of different bands have no precision order. -/
  | incomparable (a b : Precision)
  /-- A float refinement reached an element that is not a float. -/
  | floatRefinement (e : Element)
  /-- A float refinement of an operation that floats do not have. -/
  | floatOperation (op : Operation)
  /-- An interval with an end outside its type. -/
  | malformedInterval (r : Range) (ty : IntType)
  /-- A constant outside its type. -/
  | outOfRange (v : Int) (ty : IntType)
  /-- A division of integers by zero. -/
  | divisionByZero
  /-- A number of bits that cannot be held. -/
  | bitCount

namespace Fault

/-- The message of a fault, without its tag. Plain integer arithmetic has none. -/
def detail? : Fault → Option String
  | missingOperand op => some (op.text ++ " applied without its operand")
  | refused e => some e.message
  | resultType op produced required =>
    some (op.text ++ " produces " ++ produced.name ++ ", constrained to " ++ required.name)
  | typeMismatch operation a b =>
    some (operation.name ++ " between " ++ a.name ++ " and " ++ b.name)
  | notWired op kind => some (op.text ++ " is not wired for " ++ kind.name)
  | refinementNotWired op kind =>
    some ("constraint " ++ op.text ++ " is not wired for " ++ kind.name)
  | incomparable a b =>
    some ("precision kinds " ++ a.text ++ " and " ++ b.text ++ " are not comparable")
  | floatRefinement e => some ("float refinement of " ++ e.text)
  | floatOperation op => some (op.text ++ " refined on a float")
  | malformedInterval r ty => some (s!"malformed interval [{r.lo}, {r.hi}] of " ++ ty.name)
  | outOfRange v ty => some (s!"constant {v} out of range for " ++ ty.name)
  | divisionByZero | bitCount => none

/-- The message of a fault. -/
def message? (f : Fault) : Option String :=
  f.detail?.map ("[scalar::invariant] " ++ ·)

end Fault

/-! ### Checked arithmetic and order -/

/-- The quotient rounded toward negative infinity, for a divisor that is not zero. -/
def checkedFloorDiv (a b : Int) : Except Fault Int :=
  if b = 0 then .error .divisionByZero else .ok (floorDiv a b)

/-- The quotient rounded toward positive infinity, for a divisor that is not zero. -/
def checkedCeilDiv (a b : Int) : Except Fault Int :=
  if b = 0 then .error .divisionByZero else .ok (ceilDiv a b)

/-- The amount of a rotation reduced modulo the width, for a width that is not zero. -/
def checkedRotateAmount (amount : Int) (width : Nat) : Except Fault Nat :=
  if width = 0 then .error .divisionByZero else .ok (rotateAmount amount width)

/-- The pattern of a value rotated to the left, for an amount up to the width: beyond it, the
number of bits that stay would be negative. -/
def IntType.checkedRotateLeft (t : IntType) (v : Int) (k : Nat) : Except Fault Int :=
  if k ≤ t.width then .ok (t.rotateLeft v k) else .error .bitCount

/-- The precision order of kinds that have one. -/
def Precision.checkedCompare (a b : Precision) : Except Fault Ordering :=
  match a.compare? b with
  | some o => .ok o
  | none => .error (.incomparable a b)

end ScalarDomain
