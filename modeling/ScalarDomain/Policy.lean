/-!
# Evaluation parameters

What an evaluation is told: how far its operands can be trusted, how coarse a result it may
make, what becomes of executions that run into an error, and how deep it may nest. A lattice
policy holds two creation bounds, and the bound for trusted operands is never the coarser one;
this is part of the type.
-/

namespace ScalarDomain

/-- The outcome of an operation; merging two outcomes takes the later one. -/
inductive Verdict where
  | notPerformed
  | exact
  | degraded
deriving DecidableEq

namespace Verdict

/-- All outcomes. -/
def all : List Verdict :=
  [notPerformed, exact, degraded]

/-- The position of an outcome. -/
def rank : Verdict → Nat
  | notPerformed => 0
  | exact => 1
  | degraded => 2

/-- The later of two outcomes. -/
def merge (a b : Verdict) : Verdict :=
  if a.rank ≤ b.rank then b else a

/-- The outcome of a result that is exact or not. -/
def ofExact (exact : Bool) : Verdict :=
  if exact then .exact else .degraded

/-- The name of an outcome. -/
def name : Verdict → String
  | notPerformed => "NotPerformed"
  | exact => "Exact"
  | degraded => "Degraded"

end Verdict

/-- What the operands tell of the reachable values. -/
inductive Information where
  /-- They are exactly the reachable values. -/
  | exact
  /-- They hold all reachable values. -/
  | sure
  /-- They may be only part of the reachable values. -/
  | may
deriving DecidableEq

namespace Information

/-- All kinds of information. -/
def all : List Information :=
  [exact, sure, may]

/-- The name of a kind of information. -/
def name : Information → String
  | exact => "Exact"
  | sure => "Sure"
  | may => "May"

end Information

/-- How coarse a result may be when the exact one has no shape. -/
inductive Creation where
  | formal
  | disjunction
  | interval
  | shareTop
  | top
deriving DecidableEq

namespace Creation

/-- All creation bounds, from the finest to the coarsest. -/
def all : List Creation :=
  [formal, disjunction, interval, shareTop, top]

/-- The position of a creation bound; coarser bounds come later. -/
def rank : Creation → Nat
  | formal => 0
  | disjunction => 1
  | interval => 2
  | shareTop => 3
  | top => 4

/-- The finer of two bounds. -/
def finer (a b : Creation) : Creation :=
  if a.rank ≤ b.rank then a else b

/-- The coarser of two bounds. -/
def coarser (a b : Creation) : Creation :=
  if a.rank ≤ b.rank then b else a

/-- Whether shapes that need `needed` may be made. -/
def allows (bound needed : Creation) : Bool :=
  decide (needed.rank ≤ bound.rank)

/-- The name of a creation bound. -/
def name : Creation → String
  | formal => "Formal"
  | disjunction => "Disjunction"
  | interval => "Interval"
  | shareTop => "ShareTop"
  | top => "Top"

end Creation

/-- The creation bounds for trusted operands and for partial ones. -/
structure LatticePolicy where
  /-- The bound when the operands hold all reachable values. -/
  sure : Creation
  /-- The bound when they may not. -/
  may : Creation
  /-- Trusted operands are never allowed the coarser results. -/
  sure_le_may : sure.rank ≤ may.rank
deriving DecidableEq

namespace LatticePolicy

/-- The policy of two bounds, when they are in order. -/
def ofBounds? (sure may : Creation) : Option LatticePolicy :=
  if h : sure.rank ≤ may.rank then some ⟨sure, may, h⟩ else none

/-- Both bounds lowered to at most `bound`. -/
def intersect (p : LatticePolicy) (bound : Creation) : LatticePolicy where
  sure := p.sure.finer bound
  may := p.may.finer bound
  sure_le_may := by
    have h := p.sure_le_may
    simp only [Creation.finer]
    split <;> split <;> omega

/-- The bound for partial operands raised to at least `bound`. -/
def authorize (p : LatticePolicy) (bound : Creation) : LatticePolicy where
  sure := p.sure
  may := p.may.coarser bound
  sure_le_may := by
    have h := p.sure_le_may
    simp only [Creation.coarser]
    split <;> omega

end LatticePolicy

/-! ### Arithmetic errors -/

/-- An error that an arithmetic operation can run into. -/
inductive ErrorKind where
  | positiveOverflow
  | negativeOverflow
  | underflow
  | divisionByZero
  | nan
deriving DecidableEq

namespace ErrorKind

/-- All kinds of error. -/
def all : List ErrorKind :=
  [positiveOverflow, negativeOverflow, underflow, divisionByZero, nan]

/-- The position of a kind of error. -/
def index : ErrorKind → Nat
  | positiveOverflow => 0
  | negativeOverflow => 1
  | underflow => 2
  | divisionByZero => 3
  | nan => 4

/-- The name of a kind of error. -/
def name : ErrorKind → String
  | positiveOverflow => "PositiveOverflow"
  | negativeOverflow => "NegativeOverflow"
  | underflow => "Underflow"
  | divisionByZero => "DivisionByZero"
  | nan => "NaN"

end ErrorKind

/-- The errors that some execution may run into, and those that every execution does. -/
structure ErrorFlags where
  /-- One bit for each kind that is possible. -/
  possible : BitVec 5
  /-- One bit for each kind that is certain. -/
  certain : BitVec 5
deriving DecidableEq

namespace ErrorFlags

/-- No error. -/
def none : ErrorFlags :=
  ⟨0#5, 0#5⟩

/-- An error marked as possible, and as certain if asked. -/
def mark (f : ErrorFlags) (kind : ErrorKind) (certain : Bool) : ErrorFlags where
  possible := f.possible ||| BitVec.twoPow 5 kind.index
  certain := if certain then f.certain ||| BitVec.twoPow 5 kind.index else f.certain

/-- Whether an error is possible. -/
def isPossible (f : ErrorFlags) (kind : ErrorKind) : Bool :=
  f.possible.getLsbD kind.index

/-- Whether an error is certain. -/
def isCertain (f : ErrorFlags) (kind : ErrorKind) : Bool :=
  f.certain.getLsbD kind.index

/-- Whether any error is possible. -/
def anyPossible (f : ErrorFlags) : Bool :=
  f.possible != 0#5

/-- The errors of two steps of the same executions. -/
def merge (f g : ErrorFlags) : ErrorFlags :=
  ⟨f.possible ||| g.possible, f.certain ||| g.certain⟩

/-- The errors of alternative executions: certain only if certain in both. -/
def mergeBranch (f g : ErrorFlags) : ErrorFlags :=
  ⟨f.possible ||| g.possible, f.certain &&& g.certain⟩

/-- The possible errors in order. -/
def possibleKinds (f : ErrorFlags) : List ErrorKind :=
  ErrorKind.all.filter f.isPossible

/-- The certain errors in order. -/
def certainKinds (f : ErrorFlags) : List ErrorKind :=
  ErrorKind.all.filter f.isCertain

end ErrorFlags

/-- What becomes of executions that run into an error. -/
inductive ErrorPolicy where
  /-- They end: their results are unreachable. -/
  | stop
  /-- They go on with the machine result. -/
  | propagate
deriving DecidableEq

namespace ErrorPolicy

/-- All error policies. -/
def all : List ErrorPolicy :=
  [stop, propagate]

/-- The name of an error policy. -/
def name : ErrorPolicy → String
  | stop => "Stop"
  | propagate => "Propagate"

end ErrorPolicy

/-! ### Parameters -/

/-- The parameters of an evaluation. -/
structure Params where
  /-- What the operands tell of the reachable values. -/
  information : Information
  /-- What becomes of erroneous executions. -/
  errors : ErrorPolicy
  /-- How coarse results may be. -/
  policy : LatticePolicy
  /-- How deep evaluations may nest. -/
  maxDepth : Nat
deriving DecidableEq

namespace Params

/-- The usual parameters: results may always become intervals, and only partial operands may
give a top. -/
def preset (maxDepth : Nat) (information : Information) (errors : ErrorPolicy) : Params :=
  { information, errors, policy := ⟨.interval, .top, by decide⟩, maxDepth }

/-- The coarsest shape results may take. -/
def creationBound (p : Params) : Creation :=
  match p.information with
  | .may => p.policy.may
  | .exact | .sure => p.policy.sure

/-- Whether erroneous executions end. -/
def stops (p : Params) : Bool :=
  p.errors == .stop

end Params

end ScalarDomain
