import ScalarDomain.Bounds

/-!
# Landmarks

Where a set of values sits relative to a few landmarks: zero, the signs, one, minus one and the
ends of the type. A `Summary` records which landmarks **some** value of the set hits and which
ones **every** value hits. The empty set hits nothing and satisfies everything, so it is the
bottom of the order; the union of two sets is summarised by `Summary.join`.
-/

namespace ScalarDomain

/-- A landmark that a value may hit. -/
inductive Landmark where
  | negative
  | zero
  | positive
  | minusOne
  | one
  /-- The smallest value of the type. -/
  | min
  /-- The largest value of the type. -/
  | max
deriving DecidableEq

namespace Landmark

/-- All landmarks. -/
def all : List Landmark :=
  [negative, zero, positive, minusOne, one, min, max]

/-- The position of a landmark. -/
def index : Landmark → Nat
  | negative => 0
  | zero => 1
  | positive => 2
  | minusOne => 3
  | one => 4
  | min => 5
  | max => 6

/-- The name of a landmark. -/
def name : Landmark → String
  | negative => "Negative"
  | zero => "Zero"
  | positive => "Positive"
  | minusOne => "MinusOne"
  | one => "One"
  | min => "Min"
  | max => "Max"

/-- The landmarks an integer of the type hits. -/
def hitBy (t : IntType) (v : Int) : Landmark → Bool
  | negative => decide (v < 0)
  | zero => decide (v = 0)
  | positive => decide (0 < v)
  | minusOne => decide (v = -1)
  | one => decide (v = 1)
  | min => decide (v = t.minValue)
  | max => decide (v = t.maxValue)

end Landmark

/-- A set of landmarks, one bit each. -/
abbrev LandmarkSet := BitVec 8

namespace LandmarkSet

/-- The set of the landmarks with a property. -/
def of (p : Landmark → Bool) : LandmarkSet :=
  Landmark.all.foldl (fun s l => if p l then s ||| BitVec.twoPow 8 l.index else s) 0#8

/-- All landmarks. -/
def full : LandmarkSet := 127#8

/-- Whether a landmark belongs to the set. -/
def has (s : LandmarkSet) (l : Landmark) : Bool :=
  s.getLsbD l.index

end LandmarkSet

/-- What is known of the landmarks of a set of values. -/
structure Summary where
  /-- The landmarks that some value may hit. -/
  may : LandmarkSet
  /-- The landmarks that every value hits. -/
  sure : LandmarkSet
deriving DecidableEq

namespace Summary

/-- The empty set of values. -/
def bottom : Summary :=
  ⟨0#8, .full⟩

/-- Nothing is known. -/
def unknown : Summary :=
  ⟨.full, 0#8⟩

/-- The summary of a single value. -/
def singleton (hits : Landmark → Bool) : Summary :=
  ⟨.of hits, .of hits⟩

/-- The summary of an integer of a type. -/
def ofValue (t : IntType) (v : Int) : Summary :=
  singleton (Landmark.hitBy t v)

/-- The summary of a bit. -/
def ofBit (b : Bool) : Summary :=
  ofValue .bitView (if b then 1 else 0)

/-- The summary of a range of integers of a type. Two or more values can only agree on their
sign. -/
def ofRange (t : IntType) (r : Range) : Summary :=
  if r.hi < r.lo then bottom
  else if r.lo = r.hi then ofValue t r.lo
  else
    { may := .of fun
        | .negative => decide (r.lo < 0)
        | .zero => r.contains 0
        | .positive => decide (0 < r.hi)
        | .minusOne => r.contains (-1)
        | .one => r.contains 1
        | .min => r.contains t.minValue
        | .max => r.contains t.maxValue
      sure := .of fun
        | .negative => decide (r.hi < 0)
        | .positive => decide (0 < r.lo)
        | _ => false }

/-- The summary of a range of floats, NaN excluded. The ends of the type are its largest finite
values and everything beyond. -/
def ofFloatRange (t : FloatType) (r : Bounds Float) : Summary :=
  let holds := fun (v : Float) => decide (r.lo ≤ v) && decide (v ≤ r.hi)
  if r.hi < r.lo then bottom
  else
    let may : Landmark → Bool := fun
      | .negative => decide (r.lo < 0.0)
      | .zero => holds 0.0
      | .positive => decide (0.0 < r.hi)
      | .minusOne => holds (-1.0)
      | .one => holds 1.0
      | .min => decide (r.lo ≤ -t.maxFinite)
      | .max => decide (t.maxFinite ≤ r.hi)
    if r.lo == r.hi then singleton may
    else
      { may := .of may
        sure := .of fun
          | .negative => decide (r.hi < 0.0)
          | .positive => decide (0.0 < r.lo)
          | _ => false }

/-- The summary of a float; NaN hits no landmark. -/
def ofFloat (t : FloatType) (x : Float) : Summary :=
  if x.isNaN then singleton fun _ => false else ofFloatRange t ⟨x, x⟩

/-- Whether some value may hit the landmark. -/
def mayHit (s : Summary) (l : Landmark) : Bool :=
  s.may.has l

/-- Whether every value hits the landmark. -/
def alwaysHits (s : Summary) (l : Landmark) : Bool :=
  s.sure.has l

/-- Whether the summary is that of the empty set. -/
def isBottom (s : Summary) : Bool :=
  s == bottom

/-- Whether some value may be zero. -/
def mayBeZero (s : Summary) : Bool :=
  s.mayHit .zero

/-- Whether every value is zero. -/
def isZero (s : Summary) : Bool :=
  s.alwaysHits .zero

/-- Whether no value is zero. -/
def isNonzero (s : Summary) : Bool :=
  !s.mayBeZero

/-- Whether some value may differ from zero. -/
def mayBeNonzero (s : Summary) : Bool :=
  !s.isZero

/-- The summary of the union of two sets. -/
def join (s t : Summary) : Summary :=
  ⟨s.may ||| t.may, s.sure &&& t.sure⟩

/-- What two summaries tell of the values of both sets. -/
def meet (s t : Summary) : Summary :=
  ⟨s.may &&& t.may, s.sure ||| t.sure⟩

/-- The text of a summary: the landmarks hit, with `!` when every value hits it and `?` when
some value may. -/
def text (s : Summary) : String :=
  let marks := Landmark.all.filterMap fun l =>
    if s.alwaysHits l then some (l.name ++ "!")
    else if s.mayHit l then some (l.name ++ "?")
    else none
  "[" ++ ", ".intercalate marks ++ "]"

end Summary

end ScalarDomain
