import ScalarDomain.Datum
import ScalarDomain.Element.Build

/-!
# Elements as data

Elements, values and sets of floats as data, and back. Integers are decimal texts, because they
may have 128 bits; floats are written by their bits; a type is written by its name. What is read
is built by the checked constructors.
-/

namespace ScalarDomain

namespace Datum

/-- An integer. -/
def ofInt (v : Int) : Datum :=
  .text (toString v)

/-- A float. -/
def ofFloat (x : Float) : Datum :=
  .text (Double.hex x)

/-- The text of a datum. -/
def toText : Reader String
  | text s => .ok s
  | _ => .error .malformed

/-- The integer of a datum. -/
def toInt : Reader Int := fun d => do
  required (Decimal.integer? (← toText d).toList)

/-- The float of a datum. -/
def toFloat : Reader Float := fun d => do
  required (Double.ofHex? (← toText d))

/-- All items of a list. -/
def toList {α : Type} (read : Reader α) : Reader (List α)
  | list items => items.mapM read
  | _ => .error .malformed

/-- A field that must be there. -/
def get {α : Type} (d : Datum) (name : String) (read : Reader α) : Except ReadError α :=
  match d with
  | record fields => do required (← field? fields name read)
  | _ => .error .malformed

end Datum

/-! ### Types by name -/

namespace ScalarType

/-- The type with a name: `bit`, or a letter and a width. -/
def ofName (name : String) : Except ReadError ScalarType :=
  if name = "bit" then .ok .bit
  else
    match name.toList with
    | letter :: digits => do
      let width ← Datum.required (Decimal.natural? digits)
      if letter = 'i' then checkRead ((IntType.ofWidth width true).map .int)
      else if letter = 'u' then checkRead ((IntType.ofWidth width false).map .int)
      else if letter = 'f' then checkRead ((FloatType.ofWidth width).map .float)
      else .error .malformed
    | [] => .error .malformed

/-- The named type. -/
def named : Reader ScalarType := fun d => do
  ofName (← Datum.toText d)

end ScalarType

/-- The named integer type; a bit is read as one. -/
def IntType.named : Reader IntType := fun d => do
  Datum.required (← ScalarType.named d).view?

/-- The named floating point type. -/
def FloatType.named : Reader FloatType := fun d => do
  Datum.required (← ScalarType.named d).asFloat?

/-! ### Values and sets -/

/-- A value as a datum. -/
def Value.toDatum : Value → Datum
  | bit b => .record [("bit", .bool b)]
  | int v => .record [("int", .ofInt v)]
  | float x => .record [("float", .ofFloat x)]

/-- The value of a datum. -/
def Value.ofDatum : Reader Value
  | .record [("bit", d)] => (Datum.toBool d).map bit
  | .record [("int", d)] => (Datum.toInt d).map int
  | .record [("float", d)] => (Datum.toFloat d).map float
  | _ => .error .malformed

/-- A set of floats as a datum. -/
def FloatSet.toDatum (s : FloatSet) : Datum :=
  .record
    [("range", match s.range with
      | some r => .list [.ofFloat r.lo, .ofFloat r.hi]
      | none => .null),
      ("nan", .bool s.nan)]

/-! ### Elements -/

namespace Element

/-- An element as a datum. -/
def toDatum : Element → Datum
  | word .bit (.constant v) => .record [("kind", .text "bit"), ("value", .bool (v != 0))]
  | word w (.constant v) =>
    .record [("kind", .text "int"), ("ty", .text w.name), ("value", .ofInt v)]
  | word w (.interval r) =>
    .record [("kind", .text "int_range"), ("ty", .text w.name), ("lo", .ofInt r.lo),
      ("hi", .ofInt r.hi)]
  | word w (.disjunction vs) =>
    .record [("kind", .text "disjunction"), ("ty", .text w.name),
      ("values", .list (vs.map .ofInt))]
  | word w .top => .record [("kind", .text "top"), ("ty", .text w.name)]
  | float f (.constant x) =>
    .record [("kind", .text "float"), ("ty", .text f.name), ("value", .ofFloat x)]
  | float f (.interval r) =>
    .record [("kind", .text "float_range"), ("ty", .text f.name), ("lo", .ofFloat r.lo),
      ("hi", .ofFloat r.hi)]
  | float f .top => .record [("kind", .text "top"), ("ty", .text f.name)]

/-- The element of a datum, with at most `limit` listed values. -/
def ofDatum (limit : Nat) : Reader Element := fun d => do
  match ← d.get "kind" Datum.toText with
  | "bit" => return .bit (← d.get "value" Datum.toBool)
  | "int" => do
    let t ← d.get "ty" IntType.named
    checkRead (int t (← d.get "value" Datum.toInt))
  | "int_range" => do
    let t ← d.get "ty" IntType.named
    let lo ← d.get "lo" Datum.toInt
    checkRead (intRange t ⟨lo, ← d.get "hi" Datum.toInt⟩)
  | "disjunction" => do
    let t ← d.get "ty" IntType.named
    checkRead (disjunction limit t (← d.get "values" (Datum.toList Datum.toInt)))
  | "float" => do
    let t ← d.get "ty" FloatType.named
    return floatConstant t (← d.get "value" Datum.toFloat)
  | "float_range" => do
    let t ← d.get "ty" FloatType.named
    let lo ← d.get "lo" Datum.toFloat
    checkRead (floatRange t ⟨lo, ← d.get "hi" Datum.toFloat⟩)
  | "top" => return .top (← d.get "ty" ScalarType.named)
  | _ => .error .malformed

end Element

end ScalarDomain
