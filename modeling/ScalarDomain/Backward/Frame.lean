import ScalarDomain.Forward.Apply

/-!
# Frames of a refinement

A backward refinement of words sees ranges: those of the two operands and of the result, each
in its own type. What a solver finds out is a `Narrowing`, a range for each operand it can say
something about. A `Finding` is what becomes of it: the operands met with these ranges, as far
as they changed, and whether any value is left.
-/

namespace ScalarDomain

/-- A range of integers of a type. -/
structure Span where
  /-- The type. -/
  type : IntType
  /-- The range. -/
  range : Range

namespace Span

/-- The smallest range around a word. -/
def of? (e : Element) : Option Span :=
  e.intBounds?.map fun (t, r) => ⟨t, r⟩

/-- The lower end. -/
def lo (s : Span) : Int := s.range.lo

/-- The upper end. -/
def hi (s : Span) : Int := s.range.hi

/-- The value of a range of one integer. -/
def value? (s : Span) : Option Int :=
  if s.lo = s.hi then some s.lo else none

/-- Whether the range holds zero. -/
def hasZero (s : Span) : Bool :=
  s.range.contains 0

/-- Whether no value is negative. -/
def isNatural (s : Span) : Bool :=
  decide (0 ≤ s.lo)

end Span

/-- What a solver found out about the operands. -/
inductive Narrowing where
  /-- No pair of operands gives the result. -/
  | impossible
  /-- Ranges that hold all operands that do; they are exact when every value left does. -/
  | within (first second : Option Range) (exact : Bool)

namespace Narrowing

/-- Nothing could be decided. -/
def unknown : Narrowing :=
  within none none false

/-- Every operand gives the result. -/
def unchanged : Narrowing :=
  within none none true

/-- A range for the first operand. -/
def first (r : Range) (exact : Bool) : Narrowing :=
  within (some r) none exact

/-- A range for each operand. -/
def both (r s : Range) (exact : Bool) : Narrowing :=
  within (some r) (some s) exact

/-- A range for each operand, when there are any. -/
def both? (r s : Option Range) (exact : Bool) : Narrowing :=
  match r, s with
  | some r, some s => both r s exact
  | _, _ => impossible

/-- The cases of the first operand taken together; no case at all is impossible. -/
def ofPieces (pieces : List Range) (exact : Bool) : Narrowing :=
  match Bounds.hull? pieces with
  | some r => first r (exact && pieces.length == 1)
  | none => impossible

/-- The paired cases of both operands taken together. -/
def ofPairs (pairs : List (Range × Range)) (exact : Bool) : Narrowing :=
  both? (Bounds.hull? (pairs.map (·.1))) (Bounds.hull? (pairs.map (·.2)))
    (exact && pairs.length == 1)

/-- What was found out with the operands swapped. -/
def swap : Narrowing → Narrowing
  | impossible => impossible
  | within r s exact => within s r exact

end Narrowing

/-- The ranges of a refinement. -/
structure Frame where
  /-- The first operand. -/
  x : Span
  /-- The second operand. -/
  y : Option Span
  /-- The result. -/
  z : Span
  /-- Whether every integer of the range of the result is one of its values. -/
  convex : Bool

namespace Frame

/-- Whether every integer between the ends of an element is one of its values. -/
def isConvex (e : Element) : Bool :=
  e.precision != .disjunction

/-- The frame of a refinement; `none` unless the operands are words without gaps. -/
def of? (first : Element) (second : Option Element) (result : Element) : Option Frame :=
  if !isConvex first || !(second.all isConvex) then none
  else
    match Span.of? first, second.map Span.of?, Span.of? result with
    | some x, none, some z => some ⟨x, none, z, isConvex result⟩
    | some x, some (some y), some z => some ⟨x, some y, z, isConvex result⟩
    | _, _, _ => none

/-- The second operand of a binary operation. -/
def second (f : Frame) : Span :=
  f.y.getD f.x

end Frame

/-! ### Findings -/

/-- What a refinement found: the operands that changed, and the verdict; `none` when no value is
left. -/
structure Finding where
  /-- The refined first operand. -/
  first : Option Element := none
  /-- The refined second operand. -/
  second : Option Element := none
  /-- Whether the refinement is exact; `none` when no value is left. -/
  exactness : Option Bool

namespace Finding

/-- Nothing changed. -/
def keep (exact : Bool) : Finding :=
  { exactness := some exact }

/-- No value is left. -/
def dead : Finding :=
  { exactness := none }

end Finding

namespace Element

/-- What is left of an element within a bound, and whether anything is: `some none` when the
element does not change. -/
def refineWith (limit : Nat) (e bound : Element) : Except Fault (Option (Option Element)) := do
  match ← e.meet limit bound with
  | none => return none
  | some refined => return some (if refined == e then none else some refined)

/-- What is left of a word within a range. -/
def narrow (limit : Nat) (e : Element) (r : Range) : Except Fault (Option (Option Element)) :=
  match e with
  | word w _ =>
    let lo := max r.lo w.view.minValue
    let hi := min r.hi w.view.maxValue
    if hi < lo then .ok none
    else e.refineWith limit (.word w (w.rangeShape ⟨lo, hi⟩))
  | float _ _ => .ok none

/-- What is left of an operand within a range, if there is one. -/
def narrowIf (limit : Nat) (e : Option Element) (r : Option Range) :
    Except Fault (Option (Option Element)) :=
  match e, r with
  | some e, some r => e.narrow limit r
  | _, _ => .ok (some none)

end Element

namespace Narrowing

/-- The operands met with the ranges of a narrowing. -/
def finding (limit : Nat) (convex : Bool) (x : Element) (y : Option Element) :
    Narrowing → Except Fault Finding
  | impossible => .ok .dead
  | within r s exact => do
    let first ← Element.narrowIf limit (some x) r
    let second ← Element.narrowIf limit y s
    return {
      first := first.getD none
      second := second.getD none
      exactness := if first.isSome && second.isSome then some (exact && convex) else none }

end Narrowing

end ScalarDomain
