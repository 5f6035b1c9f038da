/-!
# Precision kinds

The shape of an abstract value. The order of declaration is the **rank**: of two operands of a
lattice operation, the one of higher rank carries the operation out. Precision itself is only a
partial order: kinds that stand for one value and kinds that are sets of values are compared
only within their own band, or with a universal kind.
-/

namespace ScalarDomain

/-- The shape of an abstract value. -/
inductive Precision where
  | constant
  | compileTimeConstant
  | freeVariable
  | formalOperation
  | guard
  | pointer
  | unprecise
  | interval
  | conjunction
  | disjunction
  | top
  | unknown
deriving DecidableEq

namespace Precision

/-- Groups of kinds that the precision order compares with each other. -/
inductive Band where
  /-- One value. -/
  | atomic
  /-- A set of values with a structure. -/
  | shape
  /-- Comparable with everything. -/
  | universal
deriving DecidableEq

/-- All kinds, by rank. -/
def all : List Precision :=
  [constant, compileTimeConstant, freeVariable, formalOperation, guard, pointer, unprecise,
    interval, conjunction, disjunction, top, unknown]

/-- The rank of a kind. -/
def rank : Precision → Nat
  | constant => 0
  | compileTimeConstant => 1
  | freeVariable => 2
  | formalOperation => 3
  | guard => 4
  | pointer => 5
  | unprecise => 6
  | interval => 7
  | conjunction => 8
  | disjunction => 9
  | top => 10
  | unknown => 11

/-- The band of a kind. -/
def band : Precision → Band
  | constant | compileTimeConstant | freeVariable | formalOperation | guard | pointer => .atomic
  | interval | conjunction | disjunction => .shape
  | unprecise | top | unknown => .universal

/-- The total order that picks the operand to carry out a lattice operation. -/
def compareRank (a b : Precision) : Ordering :=
  compare a.rank b.rank

/-- The precision order; `none` for kinds of different bands. -/
def compare? (a b : Precision) : Option Ordering :=
  if a.band = b.band ∨ a.band = .universal ∨ b.band = .universal then some (a.compareRank b)
  else none

/-- Whether the kind stands for exactly one value. -/
def isAtomic (a : Precision) : Bool :=
  a.band == .atomic

/-- The text of a kind. -/
def text : Precision → String
  | constant => "constant"
  | compileTimeConstant => "compile-time-constant"
  | freeVariable => "variable"
  | formalOperation => "formal-operation"
  | guard => "guard"
  | pointer => "pointer"
  | unprecise => "unprecise"
  | interval => "interval"
  | conjunction => "conjunction"
  | disjunction => "disjunction"
  | top => "top"
  | unknown => "unknown"

/-- The name of a kind. -/
def name : Precision → String
  | constant => "Constant"
  | compileTimeConstant => "CompileTimeConstant"
  | freeVariable => "Variable"
  | formalOperation => "FormalOperation"
  | guard => "Guard"
  | pointer => "Pointer"
  | unprecise => "Unprecise"
  | interval => "Interval"
  | conjunction => "Conjunction"
  | disjunction => "Disjunction"
  | top => "Top"
  | unknown => "Unknown"

end Precision

end ScalarDomain
