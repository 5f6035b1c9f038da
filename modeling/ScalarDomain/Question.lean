import ScalarDomain.Element
import ScalarDomain.Operation

/-!
# Questions

The read-only questions that can be asked of an abstract scalar. They are grouped in families,
and each has a position in its family.

Every kind of word, and a top of any type, takes all operations and answers all questions.
Constants and intervals of floats have the float operations only, and floats are never listed.
-/

namespace ScalarDomain

/-- A family of questions. -/
inductive Topic where
  /-- Landmarks and simplification. -/
  | special
  /-- Building an element of the same type. -/
  | construct
  /-- Copies. -/
  | duplicate
  /-- The native family of operations. -/
  | family
  /-- Concrete information. -/
  | extract
deriving DecidableEq

namespace Topic

/-- The number of questions of the family. -/
def count : Topic → Nat
  | special => 2
  | construct => 4
  | duplicate => 2
  | family => 1
  | extract => 3

/-- The name of the family. -/
def name : Topic → String
  | special => "special"
  | construct => "construct"
  | duplicate => "duplicate"
  | family => "family"
  | extract => "extern"

end Topic

/-- A question without its parameters. -/
inductive QuestionKind where
  | landmarks
  | simplification
  | constant
  | interval
  | disjunction
  | top
  | copy
  | specialize
  | nativeFamily
  | bounds
  | constantValue
  | truthiness
deriving DecidableEq

namespace QuestionKind

/-- All kinds of questions. -/
def all : List QuestionKind :=
  [landmarks, simplification, constant, interval, disjunction, top, copy, specialize,
    nativeFamily, bounds, constantValue, truthiness]

/-- The family of a question. -/
def topic : QuestionKind → Topic
  | landmarks | simplification => .special
  | constant | interval | disjunction | top => .construct
  | copy | specialize => .duplicate
  | nativeFamily => .family
  | bounds | constantValue | truthiness => .extract

/-- The position of a question in its family. -/
def index : QuestionKind → Nat
  | landmarks | constant | copy | nativeFamily | bounds => 0
  | simplification | interval | specialize | constantValue => 1
  | disjunction | truthiness => 2
  | top => 3

/-- The name of a question. -/
def name : QuestionKind → String
  | landmarks => "compare-special"
  | simplification => "simplification"
  | constant => "constant"
  | interval => "interval"
  | disjunction => "disjunction"
  | top => "top"
  | copy => "clone"
  | specialize => "specialize"
  | nativeFamily => "native"
  | bounds => "bounds"
  | constantValue => "constant-value"
  | truthiness => "truthiness"

end QuestionKind

/-- A question with its parameters. -/
inductive Question where
  /-- Which landmarks do the values hit? -/
  | landmarks
  /-- What is the finest shape of the same values? -/
  | simplification
  /-- Build a constant. -/
  | constant (v : Value)
  /-- Build an interval. -/
  | interval (lo hi : Value)
  /-- Build a set of listed values. -/
  | disjunction (vs : List Value)
  /-- Build the set of all values. -/
  | top
  /-- The element itself. -/
  | copy
  /-- The finest shape, with an integer top as an interval. -/
  | specialize
  /-- Which family of operations is native? -/
  | nativeFamily
  /-- What are the smallest and the largest value? -/
  | bounds
  /-- What is the value of the constant? -/
  | constantValue
  /-- Is it true? -/
  | truthiness

namespace Question

/-- The kind of a question. -/
def kind : Question → QuestionKind
  | landmarks => .landmarks
  | simplification => .simplification
  | constant _ => .constant
  | interval _ _ => .interval
  | disjunction _ => .disjunction
  | top => .top
  | copy => .copy
  | specialize => .specialize
  | nativeFamily => .nativeFamily
  | bounds => .bounds
  | constantValue => .constantValue
  | truthiness => .truthiness

/-- The text of a question in a message. -/
def text : Question → String
  | landmarks => "CompareSpecial"
  | simplification => "Simplification"
  | constant v => "ConstructConstant(" ++ v.text ++ ")"
  | interval lo hi => "ConstructInterval \x7b lo: " ++ lo.text ++ ", hi: " ++ hi.text ++ " \x7d"
  | disjunction vs => "ConstructDisjunction([" ++ ", ".intercalate (vs.map Value.text) ++ "])"
  | top => "ConstructTop"
  | copy => "Clone"
  | specialize => "Specialize"
  | nativeFamily => "NativeFamily"
  | bounds => "Bounds"
  | constantValue => "ConstantValue"
  | truthiness => "Truthiness"

end Question

/-! ### What the kinds of elements support -/

namespace ElementKind

/-- Whether elements of the kind carry an operation out, forward and backward. -/
def supports (k : ElementKind) (op : OperationKind) : Bool :=
  match k with
  | floatConstant | floatInterval => op.isFloatOperation
  | _ => true

/-- Whether elements of the kind answer a question. -/
def answers (k : ElementKind) (q : QuestionKind) : Bool :=
  match k with
  | floatConstant | floatInterval => q != .disjunction
  | _ => true

/-- The operations of a kind of elements, in their order. -/
def operations (k : ElementKind) : List OperationKind :=
  OperationKind.all.filter k.supports

/-- The questions that a kind of elements answers, in their order. -/
def questions (k : ElementKind) : List QuestionKind :=
  QuestionKind.all.filter k.answers

end ElementKind

end ScalarDomain
