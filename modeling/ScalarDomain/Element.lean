import ScalarDomain.Decimal.Layout
import ScalarDomain.FloatSet
import ScalarDomain.Precision

/-!
# Abstract scalars

A `Value` is a concrete scalar. An `Element` stands for a set of values of one scalar type. A word
is a constant, an interval, a small sorted list of values or every value of its type; a bit is a
word whose only shapes are a constant `0` or `1` and the top. A float is a constant, an interval of
ordinary values, or every value of its type.
-/

namespace ScalarDomain

/-! ### Concrete values -/

/-- A concrete scalar. -/
inductive Value where
  /-- A truth value. -/
  | bit (b : Bool)
  /-- An integer. -/
  | int (v : Int)
  /-- A floating point number. -/
  | float (x : Float)

/-- The text of a value in a message. -/
def Value.text : Value → String
  | bit b => "Bit(" ++ toString b ++ ")"
  | int v => "Int(" ++ toString v ++ ")"
  | float x => "Float(" ++ Decimal.Layout.detailed.write x ++ ")"

/-! ### Sets of values -/

/-- A set of integers. -/
inductive Shape where
  /-- One integer. -/
  | constant (v : Int)
  /-- All integers between two ends. -/
  | interval (r : Range)
  /-- Listed integers, in increasing order. -/
  | disjunction (vs : List Int)
  /-- Every value of the type. -/
  | top
deriving DecidableEq

/-- A set of floats. -/
inductive FloatShape where
  /-- One float, possibly NaN or a signed zero. -/
  | constant (x : Float)
  /-- All ordinary floats between two ends. -/
  | interval (r : Bounds Float)
  /-- Every float. -/
  | top

/-- A set of values of one scalar type. -/
inductive Element where
  /-- A set of words. -/
  | word (ty : WordType) (s : Shape)
  /-- A set of floats. -/
  | float (ty : FloatType) (s : FloatShape)

/-- The kinds of elements. -/
inductive ElementKind where
  | bitConstant
  | intConstant
  | floatConstant
  | intInterval
  | floatInterval
  | disjunction
  | top
deriving DecidableEq

namespace ElementKind

/-- All kinds of elements. -/
def all : List ElementKind :=
  [bitConstant, intConstant, floatConstant, intInterval, floatInterval, disjunction, top]

/-- The name of a kind. -/
def name : ElementKind → String
  | bitConstant => "bit-constant"
  | intConstant => "int-constant"
  | floatConstant => "float-constant"
  | intInterval => "int-interval"
  | floatInterval => "float-interval"
  | disjunction => "disjunction"
  | top => "top"

end ElementKind

/-- What is known of the truth of a scalar. -/
inductive Truthiness where
  | true
  | false
  | undecided
deriving DecidableEq

/-- The name of a truth state. -/
def Truthiness.name : Truthiness → String
  | .true => "True"
  | .false => "False"
  | .undecided => "Undecided"

/-! ### Shapes -/

namespace Shape

/-- The precision of a set of integers. -/
def precision : Shape → Precision
  | constant _ => .constant
  | interval _ => .interval
  | disjunction _ => .disjunction
  | top => .top

/-- The smallest range around the set, for values of a type. -/
def bounds (t : IntType) : Shape → Range
  | constant v => .point v
  | interval r => r
  | disjunction vs => ⟨vs.head?.getD 0, vs.getLast?.getD 0⟩
  | top => t.full

/-- Whether an integer belongs to the set, for values of a type. -/
def contains (t : IntType) (s : Shape) (v : Int) : Bool :=
  match s with
  | disjunction vs => vs.contains v
  | s => (s.bounds t).contains v

/-- The landmarks of the set, for values of a type. -/
def summary (t : IntType) : Shape → Summary
  | constant v => .ofValue t v
  | disjunction vs => vs.foldl (fun s v => s.join (.ofValue t v)) .bottom
  | s => .ofRange t (s.bounds t)

end Shape

namespace FloatShape

/-- The precision of a set of floats. -/
def precision : FloatShape → Precision
  | constant _ => .constant
  | interval _ => .interval
  | top => .top

/-- The set of floats. -/
def toSet : FloatShape → FloatSet
  | constant x => .constant x
  | interval r => .between r.lo r.hi
  | top => .full

/-- The landmarks of the ordinary floats of the set. -/
def summary (t : FloatType) : FloatShape → Summary
  | constant x => .ofFloat t x
  | interval r => .ofFloatRange t r
  | top => .ofFloatRange t ⟨-Double.infinity, Double.infinity⟩

/-- Whether two shapes are the same: constants by their bits (all NaN are one), interval ends by
their values. -/
def same : FloatShape → FloatShape → Bool
  | constant x, constant y => Double.sameBits x y || (x.isNaN && y.isNaN)
  | interval r, interval s => r.lo == s.lo && r.hi == s.hi
  | top, top => true
  | _, _ => false

/-- The shape of a set that is not empty: NaN alone is a constant, a range with NaN only fits in
the top, and a range of one bit pattern is a constant. -/
def ofSet? (s : FloatSet) : Option FloatShape :=
  match s.range, s.nan with
  | none, false => none
  | none, true => some (constant Double.nan)
  | some _, true => some top
  | some r, false => some (if Double.sameBits r.lo r.hi then constant r.lo else interval r)

end FloatShape

/-! ### Shapes of a word type -/

namespace WordType

/-- The shape of a range of values of the type. -/
def rangeShape (w : WordType) (r : Range) : Shape :=
  if r.lo = r.hi then
    match w with
    | bit => .constant (if r.lo = 0 then 0 else 1)
    | int _ => .constant r.lo
  else
    match w with
    | bit => .top
    | int _ => .interval r

/-- The integers of a list in increasing order, each once. -/
def normalize (vs : List Int) : List Int :=
  (vs.mergeSort).foldr (fun v acc => if acc.head? = some v then acc else v :: acc) []

/-- The shape of a set of values of the type that is not empty: listed when there are at most
`limit`, else the range around them. -/
def valuesShape (w : WordType) (limit : Nat) (vs : List Int) : Shape :=
  let sorted := normalize vs
  match w with
  | int _ =>
    if 1 < sorted.length ∧ sorted.length ≤ limit then .disjunction sorted
    else w.rangeShape ⟨sorted.head?.getD 0, sorted.getLast?.getD 0⟩
  | bit => w.rangeShape ⟨sorted.head?.getD 0, sorted.getLast?.getD 0⟩

end WordType

/-! ### Elements -/

namespace Element

/-- A known bit. -/
def bit (b : Bool) : Element :=
  .word .bit (.constant (if b then 1 else 0))

/-- Every value of a type. -/
def top : ScalarType → Element
  | .word w => .word w .top
  | .float f => .float f .top

/-- The constant of a word type. -/
def wordConstant (w : WordType) (v : Int) : Element :=
  .word w (w.rangeShape (.point v))

/-- The scalar type of the values. -/
def type : Element → ScalarType
  | word w _ => .word w
  | float f _ => .float f

/-- The precision of the shape. -/
def precision : Element → Precision
  | word _ s => s.precision
  | float _ s => s.precision

/-- Whether the element is one value. -/
def isConstant (e : Element) : Bool :=
  e.precision == .constant

/-- Whether the element is every value of its type. -/
def isTop (e : Element) : Bool :=
  e.precision == .top

/-- Whether two elements are the same. -/
def same : Element → Element → Bool
  | word w s, word w' s' => decide (w = w' ∧ s = s')
  | float f s, float f' s' => decide (f = f') && s.same s'
  | _, _ => false

instance : BEq Element := ⟨same⟩

/-- The kind of an element. -/
def kind : Element → ElementKind
  | word .bit (.constant _) => .bitConstant
  | word _ (.constant _) => .intConstant
  | float _ (.constant _) => .floatConstant
  | word _ (.interval _) => .intInterval
  | float _ (.interval _) => .floatInterval
  | word _ (.disjunction _) => .disjunction
  | word _ .top | float _ .top => .top

/-- The value of a constant. -/
def value? : Element → Option Value
  | word .bit (.constant v) => some (.bit (v != 0))
  | word (.int _) (.constant v) => some (.int v)
  | float _ (.constant x) => some (.float x)
  | _ => none

/-- The value of a word constant, as an integer. -/
def intConstant? : Element → Option Int
  | word _ (.constant v) => some v
  | _ => none

/-- The integer type and the smallest range around a word. -/
def intBounds? : Element → Option (IntType × Range)
  | word w s => some (w.view, s.bounds w.view)
  | float _ _ => none

/-- The values of a word, when they are listed. -/
def intValues? : Element → Option (List Int)
  | word _ (.disjunction vs) => some vs
  | word .bit .top => some [0, 1]
  | word _ (.constant v) => some [v]
  | _ => none

/-- The constants of an element, when they can be listed. -/
def members? : Element → Option (List Element)
  | word w s => (intValues? (word w s)).map (·.map (wordConstant w))
  | float f (.constant x) => some [.float f (.constant x)]
  | float _ _ => none

/-- The set of floats of a float. -/
def floatSet? : Element → Option FloatSet
  | word _ _ => none
  | float _ s => some s.toSet

/-- Whether an integer is a value of a word. -/
def containsInt (e : Element) (v : Int) : Bool :=
  match e with
  | word w s => s.contains w.view v
  | float _ _ => false

/-- The number of values of a word. -/
def cardinality? : Element → Option Int
  | word _ (.disjunction vs) => some vs.length
  | word w s => some ((s.bounds w.view).hi - (s.bounds w.view).lo + 1)
  | float _ _ => none

/-- The landmarks of the values. -/
def summary : Element → Summary
  | word w s => s.summary w.view
  | float f s => s.summary f

/-- What is known of the truth of the element: zero is false, all else is true. -/
def truthiness (e : Element) : Truthiness :=
  if e.summary.isZero then .false
  else if e.summary.isNonzero then .true
  else .undecided

/-- The text of an element. -/
def text : Element → String
  | word .bit (.constant v) => if v = 0 then "false" else "true"
  | word w (.constant v) => toString v ++ ":" ++ w.name
  | word w (.interval r) =>
    "[" ++ toString r.lo ++ ", " ++ toString r.hi ++ "]:" ++ w.name
  | word w (.disjunction vs) =>
    "\x7b" ++ ", ".intercalate (vs.map toString) ++ "\x7d:" ++ w.name
  | float f (.constant x) => Decimal.Layout.plain.write x ++ ":" ++ f.name
  | float f (.interval r) =>
    "[" ++ Decimal.Layout.plain.write r.lo ++ ", " ++ Decimal.Layout.plain.write r.hi ++ "]:" ++
      f.name
  | word w .top => "T:" ++ w.name
  | float f .top => "T:" ++ f.name

end Element

end ScalarDomain
