import ScalarDomain.Element.Build

/-!
# The lattice of elements

Joins, meets and containment. Each shape knows how to combine with shapes whose rank is not
above its own, and declines the others; a lattice operation is therefore carried out by the
operand of higher rank. Elements of one type always find such an operand, so `join`, `meet` and
`contains` only fail on elements of two types.

The one-sided operations `merge?`, `intersect?`, `contain?` and `containTo?` also accept integers
of two types: the values are compared as integers, and what they build has the type of the first
element unless it is the second element itself.
-/

namespace ScalarDomain

/-! ### Shapes of words -/

namespace Shape

/-- The union of a shape with one of no higher rank; `none` when it declines. -/
def merge? (w : WordType) (limit : Nat) : Shape → Shape → Option Shape
  | constant a, constant b =>
    some (if a = b then constant b else w.valuesShape limit [a, b])
  | interval r, constant v => some (w.rangeShape ⟨min v r.lo, max v r.hi⟩)
  | interval r, interval q => some (w.rangeShape ⟨min q.lo r.lo, max q.hi r.hi⟩)
  | interval r, disjunction vs =>
    let q := (disjunction vs).bounds w.view
    some (w.rangeShape ⟨min q.lo r.lo, max q.hi r.hi⟩)
  | disjunction vs, constant v => some (w.valuesShape limit (vs ++ [v]))
  | disjunction vs, disjunction us => some (w.valuesShape limit (vs ++ us))
  | disjunction vs, interval q =>
    let r := (disjunction vs).bounds w.view
    some (w.rangeShape ⟨min q.lo r.lo, max q.hi r.hi⟩)
  | top, _ => some top
  | _, _ => none

/-- The shape of the values of a list that is not empty; `none` for no value. -/
def ofKept (w : WordType) (limit : Nat) (vs : List Int) : Option Shape :=
  if vs.isEmpty then none else some (w.valuesShape limit vs)

/-- The common values of a shape and one of no higher rank: `none` when it declines, `some none`
when there is no common value. -/
def intersect? (w : WordType) (limit : Nat) : Shape → Shape → Option (Option Shape)
  | constant a, constant b => some (if a = b then some (constant b) else none)
  | interval r, constant v => some (if r.contains v then some (constant v) else none)
  | interval r, interval q => some ((Bounds.meet? r q).map w.rangeShape)
  | interval r, disjunction vs => some (ofKept w limit (vs.filter r.contains))
  | interval r, top => some (some (w.rangeShape r))
  | disjunction vs, constant v => some (ofKept w limit (vs.filter (· == v)))
  | disjunction vs, interval q => some (ofKept w limit (vs.filter q.contains))
  | disjunction vs, disjunction us => some (ofKept w limit (vs.filter us.contains))
  | top, s => some (some s)
  | _, _ => none

/-- Whether every value of the second shape, of no higher rank, is one of the first; `none` when
it declines. -/
def contain? (t : IntType) : Shape → Shape → Option Bool
  | constant a, constant b => some (a == b)
  | interval _, top => none
  | interval r, s => some (decide (r.lo ≤ (s.bounds t).lo) && decide ((s.bounds t).hi ≤ r.hi))
  | disjunction vs, constant v => some (vs.contains v)
  | disjunction vs, disjunction us => some (us.all vs.contains)
  | disjunction vs, interval q =>
    some (((vs.filter q.contains).length : Int) == q.hi - q.lo + 1)
  | top, _ => some true
  | _, _ => none

/-- Whether every value of the first shape is one of the second, of no higher rank; `none` when
it declines. -/
def containTo? : Shape → Shape → Option Bool
  | constant a, constant b => some (a == b)
  | interval r, constant v => some (r.lo == r.hi && r.lo == v)
  | interval r, interval q => some (decide (q.lo ≤ r.lo) && decide (r.hi ≤ q.hi))
  | disjunction _, constant _ => some false
  | disjunction vs, interval q => some (vs.all q.contains)
  | _, _ => none

/-- Whether the shape, for values of a type, holds every value of it. -/
def isExhaustive (t : IntType) : Shape → Bool
  | constant _ => false
  | interval r => r.lo == t.minValue && r.hi == t.maxValue
  | disjunction vs => (vs.length : Int) == t.modulus
  | top => true

/-- Whether the first shape carries out an operation on two shapes. -/
def drives (a b : Shape) : Bool :=
  decide (b.precision.rank ≤ a.precision.rank)

/-- The join of two shapes of one type. -/
def join (w : WordType) (limit : Nat) (a b : Shape) : Shape :=
  (if a.drives b then a.merge? w limit b else b.merge? w limit a).getD top

/-- The meet of two shapes of one type; `none` when there is no common value. -/
def meet (w : WordType) (limit : Nat) (a b : Shape) : Option Shape :=
  (if a.drives b then a.intersect? w limit b else b.intersect? w limit a).getD (some top)

/-- Whether every value of the second shape of one type is one of the first. -/
def covers (w : WordType) (a b : Shape) : Bool :=
  if a.drives b then (a.contain? w.view b).getD false
  else
    match b with
    | top => a.isExhaustive w.view
    | b => (b.containTo? a).getD false

end Shape

/-! ### Shapes of floats -/

namespace FloatShape

/-- The union of a shape with one of no higher rank; `none` when it declines. -/
def merge? : FloatShape → FloatShape → Option FloatShape
  | top, _ => some top
  | constant x, constant y => ofSet? ((FloatSet.constant x).union (.constant y))
  | constant _, _ => none
  | interval _, top => none
  | interval r, s => ofSet? ((interval r).toSet.union s.toSet)

/-- The common values of a shape and one of no higher rank: `none` when it declines, `some none`
when there is no common value. A signed zero stays itself inside a range that holds zero. -/
def intersect? (sameType : Bool) : FloatShape → FloatShape → Option (Option FloatShape)
  | top, s => some (some s)
  | constant x, constant y =>
    some (if sameType && (constant x).same (constant y) then some (constant y) else none)
  | constant _, _ => none
  | interval r, constant y =>
    some (if (interval r).toSet.contains y then some (constant y) else none)
  | interval r, interval q => some (ofSet? ((interval r).toSet.meet (interval q).toSet))
  | interval _, top => none

/-- Whether every value of the second shape, of no higher rank, is one of the first; `none` when
it declines. -/
def contain? (sameType : Bool) : FloatShape → FloatShape → Option Bool
  | top, _ => some true
  | constant x, constant y => some (sameType && (constant x).same (constant y))
  | constant _, _ => none
  | interval _, top => none
  | interval r, s => some ((interval r).toSet.includes s.toSet)

/-- Whether every value of the first shape is one of the second, of no higher rank; `none` when
it declines. -/
def containTo? (sameType : Bool) : FloatShape → FloatShape → Option Bool
  | top, s => some (match s with | top => true | _ => false)
  | constant x, constant y => some (sameType && (constant x).same (constant y))
  | constant _, _ => none
  | interval _, top => none
  | interval r, s => some (s.toSet.includes (interval r).toSet)

/-- Whether the first shape carries out an operation on two shapes. -/
def drives (a b : FloatShape) : Bool :=
  decide (b.precision.rank ≤ a.precision.rank)

/-- The join of two shapes of one type. -/
def join (a b : FloatShape) : FloatShape :=
  (if a.drives b then a.merge? b else b.merge? a).getD top

/-- The meet of two shapes of one type; `none` when there is no common value. -/
def meet (a b : FloatShape) : Option FloatShape :=
  (if a.drives b then a.intersect? true b else b.intersect? true a).getD (some top)

/-- Whether every value of the second shape of one type is one of the first. -/
def covers (a b : FloatShape) : Bool :=
  ((if a.drives b then a.contain? true b else b.containTo? true a)).getD false

end FloatShape

/-! ### One-sided operations of elements -/

/-- Whether two word types are both bits or both integers. -/
def WordType.comparable : WordType → WordType → Bool
  | bit, bit | int _, int _ => true
  | _, _ => false

namespace Element

/-- The union with an element of no higher rank; `none` when the element declines. -/
def merge? (limit : Nat) (a b : Element) : Except Fault (Option Element) :=
  match a, b with
  | word w .top, _ => .ok (some (.word w .top))
  | float f .top, _ => .ok (some (.float f .top))
  | word w s, word w' s' =>
    if !w.comparable w' then .ok none
    else if s = s' ∧ s.precision = .constant then .ok (some b)
    else
      match s.merge? w limit s' with
      | none => .ok none
      | some r => (checkedWord w r).map some
  | float f s, float _ s' => .ok ((s.merge? s').map (.float f))
  | _, _ => .ok none

/-- The common values with an element of no higher rank: `none` when the element declines,
`some none` when there is no common value. -/
def intersect? (limit : Nat) (a b : Element) : Except Fault (Option (Option Element)) :=
  match a, b with
  | word _ .top, _ | float _ .top, _ => .ok (some (some b))
  -- an interval stays itself against a top of any type
  | word w (.interval r), float _ .top | word w (.interval r), word _ .top =>
    .ok (some (some (.word w (w.rangeShape r))))
  | word w s, word w' s' =>
    if !w.comparable w' then .ok none
    else
      match s.intersect? w limit s', s' with
      | none, _ => .ok none
      | some none, _ => .ok (some none)
      | some (some (.constant v)), .constant _ =>
        -- the common value is the second element itself, unless it was picked from a list
        match s with
        | .disjunction _ => (checkedWord w (.constant v)).map (some <| some ·)
        | _ => .ok (some (some b))
      | some (some r), _ => (checkedWord w r).map (some <| some ·)
  | float f s, float f' s' =>
    match s.intersect? (f == f') s', s' with
    | none, _ => .ok none
    | some none, _ => .ok (some none)
    | some (some _), .constant _ => .ok (some (some b))
    | some (some r), _ => .ok (some (some (.float f r)))
  | _, _ => .ok none

/-- Whether the element holds every value of its type. -/
def isExhaustive : Element → Bool
  | word w s => s.isExhaustive w.view
  | float _ .top => true
  | float _ _ => false

/-- Whether every value of `b`, of no higher rank, is one of `a`; `none` when `a` declines. -/
def contain? (a b : Element) : Option Bool :=
  match a, b with
  | word _ .top, _ | float _ .top, _ => some true
  | word w (.interval r), float _ .top | word w (.interval r), word _ .top =>
    some ((Shape.interval r).isExhaustive w.view)
  | word w s, word w' s' => if w.comparable w' then s.contain? w'.view s' else none
  | float f s, float f' s' => s.contain? (f == f') s'
  | _, _ => none

/-- Whether every value of `a` is one of `b`, of no higher rank; `none` when `a` declines. -/
def containTo? (a b : Element) : Option Bool :=
  match a, b with
  | word _ .top, _ | float _ .top, _ => some b.isExhaustive
  | word w s, word w' s' => if w.comparable w' then s.containTo? s' else none
  | float f s, float f' s' => s.containTo? (f == f') s'
  | _, _ => none

/-! ### Lattice operations -/

/-- The join of two elements of one type. -/
def join (limit : Nat) (a b : Element) : Except Fault Element :=
  match a, b with
  | word w s, word w' s' =>
    if w = w' then .ok (.word w (s.join w limit s'))
    else .error (.typeMismatch .join a.type b.type)
  | float f s, float f' s' =>
    if f = f' then .ok (.float f (s.join s')) else .error (.typeMismatch .join a.type b.type)
  | _, _ => .error (.typeMismatch .join a.type b.type)

/-- The meet of two elements of one type; `none` when there is no common value. -/
def meet (limit : Nat) (a b : Element) : Except Fault (Option Element) :=
  match a, b with
  | word w s, word w' s' =>
    if w = w' then .ok ((s.meet w limit s').map (.word w))
    else .error (.typeMismatch .meet a.type b.type)
  | float f s, float f' s' =>
    if f = f' then .ok ((s.meet s').map (.float f))
    else .error (.typeMismatch .meet a.type b.type)
  | _, _ => .error (.typeMismatch .meet a.type b.type)

/-- Whether every value of `b` is one of `a`, for elements of one type. -/
def contains (a b : Element) : Except Fault Bool :=
  match a, b with
  | word w s, word w' s' =>
    if w = w' then .ok (s.covers w s') else .error (.typeMismatch .containment a.type b.type)
  | float f s, float f' s' =>
    if f = f' then .ok (s.covers s') else .error (.typeMismatch .containment a.type b.type)
  | _, _ => .error (.typeMismatch .containment a.type b.type)

/-- The number of common values of two words of one type. -/
def commonCount (limit : Nat) (a b : Element) : Int :=
  match a.meet limit b with
  | .ok (some e) => e.cardinality?.getD 0
  | _ => 0

/-- Whether the join of two elements holds no value that neither of them has. Numbers of values
decide for words; floats leave no gap when they touch. -/
def isExactJoin (limit : Nat) (a b joined : Element) : Bool :=
  joined == a || joined == b ||
    match a.cardinality?, b.cardinality?, joined.cardinality? with
    | some m, some n, some total => total == m + n - commonCount limit a b
    | _, _, _ =>
      match a.floatSet?, b.floatSet? with
      | some s, some t => s.touches t && !joined.isTop
      | _, _ => false

end Element

end ScalarDomain
