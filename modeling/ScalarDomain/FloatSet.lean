import ScalarDomain.Landmark

/-!
# Sets of floats

A set of floats is a closed range of ordinary values, possibly with NaN. A range that holds
zero holds both signed zeros.
-/

namespace ScalarDomain

/-- A closed range of floats, possibly with NaN. -/
structure FloatSet where
  /-- The ordinary values, if there are any. -/
  range : Option (Bounds Float)
  /-- Whether NaN belongs to the set. -/
  nan : Bool

namespace FloatSet

/-- No value. -/
def empty : FloatSet :=
  ⟨none, false⟩

/-- NaN alone. -/
def onlyNaN : FloatSet :=
  ⟨none, true⟩

/-- The ordinary values between two floats. -/
def between (lo hi : Float) : FloatSet :=
  ⟨some ⟨lo, hi⟩, false⟩

/-- One float. -/
def constant (x : Float) : FloatSet :=
  if x.isNaN then onlyNaN else between x x

/-- Every float. -/
def full : FloatSet :=
  ⟨some ⟨-Double.infinity, Double.infinity⟩, true⟩

/-- Whether there is no value at all. -/
def isEmpty (s : FloatSet) : Bool :=
  s.range.isNone && !s.nan

/-- Whether the set holds every float. -/
def isFull (s : FloatSet) : Bool :=
  s.nan && match s.range with
    | some r => r.lo == -Double.infinity && r.hi == Double.infinity
    | none => false

/-- Whether a float belongs to the set. -/
def contains (s : FloatSet) (x : Float) : Bool :=
  if x.isNaN then s.nan
  else match s.range with
    | some r => decide (r.lo ≤ x) && decide (x ≤ r.hi)
    | none => false

/-- The smallest set that holds both. -/
def union (s t : FloatSet) : FloatSet :=
  { range := match s.range, t.range with
      | some a, some b => some ⟨Double.min a.lo b.lo, Double.max a.hi b.hi⟩
      | some a, none => some a
      | none, r => r
    nan := s.nan || t.nan }

/-- The common values. -/
def meet (s t : FloatSet) : FloatSet :=
  { range := match s.range, t.range with
      | some a, some b =>
        let lo := Double.max a.lo b.lo
        let hi := Double.min a.hi b.hi
        if lo ≤ hi then some ⟨lo, hi⟩ else none
      | _, _ => none
    nan := s.nan && t.nan }

/-- Whether every value of `t` belongs to `s`. -/
def includes (s t : FloatSet) : Bool :=
  (!t.nan || s.nan) && match s.range, t.range with
    | _, none => true
    | none, some _ => false
    | some a, some b => decide (a.lo ≤ b.lo) && decide (b.hi ≤ a.hi)

/-- Whether the union of the two sets leaves no gap between them. -/
def touches (s t : FloatSet) : Bool :=
  match s.range, t.range with
  | some a, some b => decide (a.lo ≤ b.hi) && decide (b.lo ≤ a.hi)
  | _, _ => true

/-- The landmarks of the set. -/
def summary (s : FloatSet) (t : FloatType) : Summary :=
  let ordinary := match s.range with
    | some r => Summary.ofFloatRange t r
    | none => .bottom
  if s.nan then ordinary.join (.ofFloat t Double.nan) else ordinary

/-- The image of the range under a monotone or antitone function. -/
def mapRange (s : FloatSet) (f : Float → Float) : Option (Bounds Float) :=
  s.range.map fun r => ⟨Double.min (f r.lo) (f r.hi), Double.max (f r.lo) (f r.hi)⟩

end FloatSet

end ScalarDomain
