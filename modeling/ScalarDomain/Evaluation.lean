import ScalarDomain.Journal

/-!
# Evaluations

The state of an evaluation: its parameters and second operand, and what it found so far. An
evaluation opens nested ones, each one level deeper, and joins their results: errors are
possible if some branch has them and certain if all do, a pruned branch contributes nothing,
and a branch that could not be performed makes the whole join not performed.
-/

namespace ScalarDomain

/-- The state of an evaluation. -/
structure Evaluation where
  /-- The parameters. -/
  params : Params
  /-- The second operand. -/
  argument : Option Element
  /-- The result, once there is one. -/
  result : Option Element
  /-- How the evaluation went so far. -/
  verdict : Verdict
  /-- The errors of the executions. -/
  errors : ErrorFlags
  /-- Whether the result has another precision than the first operand. -/
  unstable : Bool
  /-- Whether no value flows out. -/
  empty : Bool
  /-- Whether a joined branch could not be performed. -/
  incomplete : Bool
  /-- The errors of the branches joined so far. -/
  branches : Option ErrorFlags
  /-- The number of evaluations around this one. -/
  depth : Nat

namespace Evaluation

/-- A fresh evaluation. -/
def start (params : Params) (argument : Option Element) : Evaluation :=
  { params, argument, result := none, verdict := .notPerformed, errors := .none,
    unstable := false, empty := false, incomplete := false, branches := none, depth := 0 }

/-- How many levels of nesting are left. -/
def budget (e : Evaluation) : Nat :=
  e.params.maxDepth - e.depth

/-- Whether no level of nesting is left. -/
def isExhausted (e : Evaluation) : Bool :=
  decide (e.params.maxDepth ≤ e.depth)

/-- The evaluation with a result. -/
def withResult (e : Evaluation) (x : Element) : Evaluation :=
  { e with result := some x }

/-- The evaluation without a result. -/
def withoutResult (e : Evaluation) : Evaluation :=
  { e with result := none }

/-- The evaluation after a step that was exact or not. -/
def conclude (e : Evaluation) (exact : Bool) : Evaluation :=
  { e with verdict := e.verdict.merge (.ofExact exact) }

/-- The evaluation with an error that is possible, and certain if asked. -/
def mark (e : Evaluation) (kind : ErrorKind) (certain : Bool) : Evaluation :=
  { e with errors := e.errors.mark kind certain }

/-- The evaluation with an error that every execution runs into, or only some. Partial operands
make nothing certain. -/
def flag (e : Evaluation) (kind : ErrorKind) (certain : Bool) : Evaluation :=
  e.mark kind (certain && e.params.information != .may)

/-- The evaluation with an error, certain unless the given information is partial. -/
def flagWith (e : Evaluation) (kind : ErrorKind) (information : Information) : Evaluation :=
  e.mark kind (information != .may)

/-- The evaluation whose result has another precision. -/
def withUnstable (e : Evaluation) : Evaluation :=
  { e with unstable := true }

/-- The evaluation out of which no value flows. -/
def withEmpty (e : Evaluation) : Evaluation :=
  { e with empty := true, result := none }

/-- The evaluation with other parameters of the lattice. -/
def mapPolicy (e : Evaluation) (f : LatticePolicy → LatticePolicy) : Evaluation :=
  { e with params := { e.params with policy := f e.params.policy } }

/-- The evaluation with all outcomes forgotten. -/
def clear (e : Evaluation) : Evaluation :=
  { start e.params e.argument with depth := e.depth }

/-! ### Nested evaluations -/

/-- A nested evaluation with its own second operand. -/
def spawn (e : Evaluation) (argument : Option Element) : Evaluation :=
  { start e.params argument with depth := e.depth + 1 }

/-- The flags of an alternative branch. -/
def absorbBranch (e child : Evaluation) : Evaluation :=
  { e with
    unstable := e.unstable || child.unstable
    verdict := e.verdict.merge child.verdict
    branches := some (match e.branches with
      | none => child.errors
      | some flags => flags.mergeBranch child.errors) }

/-- The flags of a nested evaluation on the same operands. -/
def absorbFlags (e child : Evaluation) : Evaluation :=
  { e with
    errors := e.errors.merge child.errors
    unstable := e.unstable || child.unstable
    verdict := e.verdict.merge child.verdict }

/-- A nested evaluation joined into this one. -/
def finish (limit : Nat) (e child : Evaluation) : Except Fault Evaluation :=
  let e := e.absorbBranch child
  if child.empty then .ok e
  else
    match child.result, e.result with
    | none, _ => .ok { e with incomplete := true }
    | some x, none => .ok (e.withResult x)
    | some x, some previous => do
      let joined ← previous.join limit x
      let e := if previous.isExactJoin limit x joined then e else e.conclude false
      return e.withResult joined

/-- The errors of the joined branches, recorded as those of the evaluation. -/
def sealBranches (e : Evaluation) : Evaluation :=
  match e.branches with
  | some flags => { e with errors := e.errors.merge flags, branches := none }
  | none => e

/-- The end of a series of joined branches. -/
def sealJoin (e : Evaluation) : Evaluation :=
  let e := e.sealBranches
  if e.incomplete then
    { e with result := none, verdict := .notPerformed, incomplete := false }
  else if e.result.isNone && !e.empty then e.withEmpty.conclude true
  else e

/-! ### Lattice steps -/

/-- The join of two elements as the result; `changed` is the element whose precision counts. -/
def concludeJoin (limit : Nat) (e : Evaluation) (changed a b : Element) :
    Except Fault Evaluation := do
  let joined ← a.join limit b
  let e := e.conclude (a.isExactJoin limit b joined)
  let e := if joined.precision = changed.precision then e else e.withUnstable
  return e.withResult joined

/-- The join of `a` with `b` as the result. -/
def mergeWith (limit : Nat) (e : Evaluation) (a b : Element) : Except Fault Evaluation :=
  e.concludeJoin limit a a b

/-- The join of `a` with a finer `source` as the result, seen from the source. -/
def mergeWithTo (limit : Nat) (e : Evaluation) (a source : Element) : Except Fault Evaluation :=
  e.concludeJoin limit source a source

/-- The meet of `a` with `b` as the result. -/
def intersectWith (limit : Nat) (e : Evaluation) (a b : Element) : Except Fault Evaluation := do
  match ← a.meet limit b with
  | none => return e.withEmpty.conclude true
  | some x => return (e.withResult x).conclude true

/-- The meet of `a` with a finer `source` as the result. -/
def intersectWithTo (limit : Nat) (e : Evaluation) (a source : Element) :
    Except Fault Evaluation :=
  e.intersectWith limit source a

/-- Whether every value of `b` is one of `a`. -/
def contain (e : Evaluation) (a b : Element) : Except Fault (Bool × Evaluation) := do
  let answer ← a.contains b
  return (answer, e.conclude true)

/-- Whether every value of `a` is one of a finer `source`. -/
def containTo (e : Evaluation) (a source : Element) : Except Fault (Bool × Evaluation) :=
  e.contain source a

/-- The branch selected by the truth of `x`; an absent branch is unreachable. -/
def guard (limit : Nat) (e : Evaluation) (x : Element) (thenBranch elseBranch : Option Element) :
    Except Fault Evaluation :=
  let reachable := match x.truthiness with
    | .true => [thenBranch]
    | .false => [elseBranch]
    | .undecided => [thenBranch, elseBranch]
  match reachable.filterMap id with
  | [] => .ok (e.withEmpty.conclude true)
  | [a] => .ok ((e.withResult a).conclude true)
  | a :: b :: _ => do
    let joined ← a.join limit b
    return (e.conclude (a.isExactJoin limit b joined)).withResult joined

end Evaluation

end ScalarDomain
