import ScalarDomain.Element.Build
import ScalarDomain.Journal

/-!
# Answers

What an element answers to a question. Questions that build an element use the type of the
element asked, and refuse values of another type.
-/

namespace ScalarDomain

/-- The answer to a question. -/
inductive Answer where
  /-- The landmarks of the values. -/
  | landmarks (s : Summary)
  /-- An element. -/
  | element (e : Element)
  /-- A family of operations. -/
  | family (f : Family)
  /-- The smallest and the largest integer. -/
  | range (r : Range)
  /-- The set of floats. -/
  | floats (s : FloatSet)
  /-- A concrete value. -/
  | value (v : Value)
  /-- What is known of the truth. -/
  | truthiness (t : Truthiness)

/-- Whether a sorted list of integers has no gap. -/
def isContiguous (vs : List Int) : Bool :=
  match Bounds.span? vs with
  | some r => decide (r.hi - r.lo + 1 = vs.length)
  | none => false

/-- The listed integers that values of a bit or an integer type stand for; `none` for a value of
another type. -/
def WordType.integers? (w : WordType) (vs : List Value) : Option (List Int) :=
  vs.mapM fun v =>
    match w, v with
    | .bit, .bit b => some (if b then 1 else 0)
    | .int _, .int v => some v
    | _, _ => none

namespace Element

/-- The same values in the finest shape. -/
def simplify : Element → Element
  | word w (.disjunction vs) =>
    if isContiguous vs then .word w (w.rangeShape ((Shape.disjunction vs).bounds w.view))
    else .word w (.disjunction vs)
  | word w (.interval r) => .word w (w.rangeShape r)
  | e => e

/-- The same values in the finest shape, with an integer top as the interval of all values. -/
def specialize : Element → Element
  | word (.int t) .top => .word (.int t) (.interval t.full)
  | e => e.simplify

/-- The interval between two values of the type of the element. -/
def buildInterval (e : Element) (lo hi : Value) : Except Error Element :=
  let refused : Except Error Element := .error (.construction (.interval lo hi) e.type)
  match e.type, lo, hi with
  | .word .bit, .bit false, .bit true => .ok (.word .bit .top)
  | .word .bit, .bit a, .bit b => if a = b then .ok (bit a) else refused
  | .word (.int t), .int a, .int b => intRange t ⟨a, b⟩
  | .float f, .float a, .float b => floatRange f ⟨a, b⟩
  | _, _, _ => refused

/-- The listed values of the type of the element. An empty list has no type of its own, so a
float top takes it as a list of words. -/
def buildDisjunction (limit : Nat) (e : Element) (vs : List Value) : Except Error Element :=
  let refused : Except Error Element := .error (.construction (.disjunction vs) e.type)
  match e.type with
  | .float _ => if vs.isEmpty then refused else .error (.question .disjunction e.kind)
  | .word w =>
    match w, w.integers? vs with
    | .int t, some ints => disjunction limit t ints
    | .bit, some ints =>
      if ints.isEmpty then refused else .ok (.word .bit (w.valuesShape limit ints))
    | _, none => refused

/-- The answer to a question. -/
def answer (limit : Nat) (e : Element) (q : Question) : Except Error Answer :=
  if !e.kind.answers q.kind then .error (.question q.kind e.kind)
  else
    match q with
    | .landmarks => .ok (.landmarks e.summary)
    | .simplification => .ok (.element e.simplify)
    | .constant v => (constant e.type v).map .element
    | .interval lo hi => (e.buildInterval lo hi).map .element
    | .disjunction vs => (e.buildDisjunction limit vs).map .element
    | .top => .ok (.element (top e.type))
    | .copy => .ok (.element e)
    | .specialize => .ok (.element e.specialize)
    | .nativeFamily => .ok (.family (.ofType e.type))
    | .bounds =>
      match e with
      | word w s => .ok (.range (s.bounds w.view))
      | float _ s => .ok (.floats s.toSet)
    | .constantValue =>
      match e.value? with
      | some v => .ok (.value v)
      | none => .error .notConstant
    | .truthiness => .ok (.truthiness e.truthiness)

/-- The answer to a question, with a line in the journal when the kind of element has none. -/
def ask (limit : Nat) (e : Element) (q : Question) : Traced (Except Error Answer) := do
  if !e.kind.answers q.kind then Traced.record (.unanswered q.kind e.kind)
  return e.answer limit q

end Element

end ScalarDomain
