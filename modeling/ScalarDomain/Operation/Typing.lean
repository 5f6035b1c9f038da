import ScalarDomain.Error

/-!
# Types of operations

The types that exist for given widths, the operations that may be built, and the type of the
value an operation produces from operands of given types.
-/

namespace ScalarDomain

/-- The integer type of a width, or the reason why there is none. -/
def IntType.ofWidth (width : Nat) (signed : Bool) : Except Error IntType :=
  match IntType.ofWidth? width signed with
  | some t => .ok t
  | none => .error (.intWidth width)

/-- The floating point type of a width, or the reason why there is none. -/
def FloatType.ofWidth (width : Nat) : Except Error FloatType :=
  match FloatType.ofWidth? width with
  | some t => .ok t
  | none => .error (.floatWidth width)

/-- The policy of two bounds, or the reason why there is none. -/
def LatticePolicy.ofBounds (sure may : Creation) : Except Error LatticePolicy :=
  match LatticePolicy.ofBounds? sure may with
  | some p => .ok p
  | none => .error (.policyOrder sure may)

/-- Bit counts are held in 32 bits. -/
def bitCountLimit : Nat := twoPow 32

namespace Operation

/-- An extension by at least one bit and less than the largest width. -/
def checkedExtend (fill : Extension) (bits : Nat) : Except Error Operation :=
  if bits = 0 ∨ maxIntWidth ≤ bits then .error (.extension bits) else .ok (extend fill bits)

/-- Whether a bit range is not empty and lies below the largest width. -/
def isBitRange (low high : Nat) : Bool :=
  decide (low < high) && decide (high ≤ maxIntWidth)

/-- The bits of a proper bit range. -/
def checkedReduce (low high : Nat) : Except Error Operation :=
  if isBitRange low high then .ok (reduce low high) else .error (.bitRange low high)

/-- The bits of a proper bit range overwritten. -/
def checkedBitSet (low high : Nat) : Except Error Operation :=
  if isBitRange low high then .ok (bitSet low high) else .error (.bitRange low high)

/-- The type of the value that the operation produces from operands of the given types. -/
def resultType (op : Operation) (receiver : ScalarType) (argument : Option ScalarType) :
    Except Error ScalarType :=
  let refused : Except Error ScalarType := .error (.notApplicable op receiver argument)
  let view := receiver.view?
  let argumentView := argument.bind ScalarType.view?
  match op with
  | prev | next | opposite => .ok receiver
  | bitNegate => if view.isSome then .ok receiver else refused
  | logicalNegate | castBit => .ok .bit
  | castInt dest => .ok (.int dest)
  | castFloat dest => .ok (.float dest)
  | extend _ bits =>
    match view with
    | some t => (IntType.ofWidth (t.width + bits) t.signed).map .int
    | none => refused
  | reduce low high =>
    match view with
    | some t =>
      if low < high ∧ high ≤ t.width then (IntType.ofWidth (high - low) false).map .int
      else refused
    | none => refused
  | compare _ | connective _ => if argument = some receiver then .ok .bit else refused
  | plus | minus | times | divide | modulo | extremum _ =>
    if argument = some receiver then .ok receiver else refused
  | bitwise _ => if argument = some receiver ∧ view.isSome then .ok receiver else refused
  | shift _ | rotate _ => if view.isSome ∧ argumentView.isSome then .ok receiver else refused
  | concat =>
    match view, argumentView with
    | some high, some low => (IntType.ofWidth (high.width + low.width) false).map .int
    | _, _ => refused
  | bitSet low high =>
    match view, argumentView with
    | some t, some patch =>
      if low < high ∧ high ≤ t.width ∧ patch.width = high - low then .ok receiver else refused
    | _, _ => refused

/-- The type of the value that the operation produces, or the reason why there is none. The number
of bits of an extension is a 32-bit sum with an overflow check: a sum that 32 bits cannot hold is a
fault, with neither a type nor a reason, and does not wrap around. -/
def checkedResultType (op : Operation) (receiver : ScalarType) (argument : Option ScalarType) :
    Except Fault (Except Error ScalarType) :=
  match op, receiver.view? with
  | extend _ bits, some t =>
    if t.width + bits < bitCountLimit then .ok (op.resultType receiver argument)
    else .error .bitCount
  | _, _ => .ok (op.resultType receiver argument)

end Operation

end ScalarDomain
