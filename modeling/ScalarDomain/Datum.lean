import ScalarDomain.Error

/-!
# Data

The structured data in which types, operations and parameters are described, and how parts of it
are read. A value with several parts is a record with a field for each, or a list of the parts
in order. In a record, fields that are not asked for are left aside, and the fields that are
there are read before a missing one is found out. Reading ends with the first failure: the
datum is malformed, or it describes a value that is refused.
-/

namespace ScalarDomain

/-- Structured data. -/
inductive Datum where
  /-- Nothing. -/
  | null
  /-- A truth value. -/
  | bool (b : Bool)
  /-- The decimal number `mantissa * 10 ^ (-scale)`. -/
  | number (mantissa : Int) (scale : Nat)
  /-- A text. -/
  | text (s : String)
  /-- A list. -/
  | list (items : List Datum)
  /-- Named fields. -/
  | record (fields : List (String × Datum))
deriving Inhabited

/-- Why a datum cannot be read. -/
inductive ReadError where
  /-- It does not have the right form. -/
  | malformed
  /-- It describes a value that is refused. -/
  | refused (e : Error)

/-- A reader of data. -/
abbrev Reader (α : Type) := Datum → Except ReadError α

/-- A value that was read, unless it is refused. -/
def checkRead {α : Type} : Except Error α → Except ReadError α
  | .ok a => .ok a
  | .error e => .error (.refused e)

namespace Datum

/-- A whole number. -/
def count (n : Nat) : Datum :=
  .number n 0

/-- A whole number below a bound. -/
def toCount (bound : Nat) : Reader Nat
  | number m 0 => if 0 ≤ m ∧ m < bound then .ok m.toNat else .error .malformed
  | _ => .error .malformed

/-- A number of 32 bits. -/
def toWord : Reader Nat :=
  toCount (twoPow 32)

/-- A truth value. -/
def toBool : Reader Bool
  | bool b => .ok b
  | _ => .error .malformed

/-- The member of a list with a name. -/
def named {α : Type} (all : List α) (name : α → String) (s : String) : Except ReadError α :=
  match all.find? (name · == s) with
  | some a => .ok a
  | none => .error .malformed

/-- A member of a list, given by its name, or by its name as the only field of a record. -/
def toMember {α : Type} (all : List α) (name : α → String) : Reader α
  | text s => named all name s
  | record [(s, null)] => named all name s
  | _ => .error .malformed

/-- The field of a record, if it is there. -/
def field? {α : Type} (fields : List (String × Datum)) (name : String) (read : Reader α) :
    Except ReadError (Option α) :=
  match fields.lookup name with
  | some d => (read d).map some
  | none => .ok none

/-- A part that must be there. -/
def required {α : Type} : Option α → Except ReadError α
  | some a => .ok a
  | none => .error .malformed

/-- The next part of a list. -/
def next {α : Type} (read : Reader α) : List Datum → Except ReadError (α × List Datum)
  | d :: rest => (read d).map (·, rest)
  | [] => .error .malformed

/-- The end of a list. -/
def done : List Datum → Except ReadError Unit
  | [] => .ok ()
  | _ => .error .malformed

/-- A value with one part. -/
def toOne {α : Type} (name : String) (read : Reader α) : Reader α
  | record fields => do required (← field? fields name read)
  | list items => do
    let (a, rest) ← next read items
    done rest
    return a
  | _ => .error .malformed

/-- A value with two parts, given in order. In a record the field whose name comes first in the
alphabet is read first. -/
def toPair {α β : Type} (first : String) (readFirst : Reader α) (second : String)
    (readSecond : Reader β) : Reader (α × β)
  | record fields =>
    if first ≤ second then do
      let a ← field? fields first readFirst
      let b ← field? fields second readSecond
      return (← required a, ← required b)
    else do
      let b ← field? fields second readSecond
      let a ← field? fields first readFirst
      return (← required a, ← required b)
  | list items => do
    let (a, rest) ← next readFirst items
    let (b, rest) ← next readSecond rest
    done rest
    return (a, b)
  | _ => .error .malformed

/-- A tagged value: the tag is the named field of a record or the first item of a list. What is
left has the parts of the value. -/
def toTagged (name : String) : Datum → Except ReadError (String × Datum)
  | record fields =>
    match fields.lookup name with
    | some (text tag) => .ok (tag, .record fields)
    | _ => .error .malformed
  | list (text tag :: rest) => .ok (tag, .list rest)
  | _ => .error .malformed

/-- A value without parts. -/
def toUnit : Reader Unit
  | record _ => .ok ()
  | list items => done items
  | _ => .error .malformed

end Datum

end ScalarDomain
