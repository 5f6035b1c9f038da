import ScalarDomain.Forward.Apply

/-!
# The state of a refinement

A refinement is an evaluation that also collects refined operands. The selector tells which
operand the element that carries it out plays; the second operand of the evaluation is the other
one.
-/

namespace ScalarDomain

/-- The role of a value in an operation. -/
inductive Slot where
  | result
  | first
  | second
deriving DecidableEq

namespace Slot

/-- All roles. -/
def all : List Slot :=
  [result, first, second]

/-- The other operand. -/
def inverse : Slot → Slot
  | result => result
  | first => second
  | second => first

/-- The name of a role. -/
def name : Slot → String
  | result => "Result"
  | first => "First"
  | second => "Second"

end Slot

/-- The state of a refinement. -/
structure Refinement where
  /-- The evaluation. -/
  eval : Evaluation
  /-- The operand that the element in charge plays. -/
  selector : Slot
  /-- The refined first operand, if it changed. -/
  first : Option Element
  /-- The refined second operand, if it changed. -/
  second : Option Element

namespace Refinement

/-- A fresh refinement. -/
def start (params : Params) (argument : Option Element) : Refinement :=
  ⟨.start params argument, .first, none, none⟩

/-- The refinement with a step on its evaluation. -/
def mapEval (r : Refinement) (f : Evaluation → Evaluation) : Refinement :=
  { r with eval := f r.eval }

/-- The operands in order, for the element in charge. -/
def operands (r : Refinement) (x : Element) : Element × Option Element :=
  match r.selector, r.eval.argument with
  | .second, some source => (source, some x)
  | _, argument => (x, argument)

/-- The refinement with a refined value in a role. -/
def refine (r : Refinement) (slot : Slot) (x : Element) : Refinement :=
  match slot with
  | .result => r.mapEval (·.withResult x)
  | .first => { r with first := some x }
  | .second => { r with second := some x }

/-- The refinement with the operand in charge refined. -/
def refineReceiver (r : Refinement) (x : Element) : Refinement :=
  r.refine r.selector x

/-- The refinement with the other operand refined. -/
def refineSource (r : Refinement) (x : Element) : Refinement :=
  r.refine r.selector.inverse x

/-- The refined value in a role. -/
def refined? (r : Refinement) : Slot → Option Element
  | .result => r.eval.result
  | .first => r.first
  | .second => r.second

/-- The refined value in a role, or the given one if it did not change. -/
def refinedOr (r : Refinement) (slot : Slot) (x : Element) : Element :=
  (r.refined? slot).getD x

/-- A nested refinement. -/
def fork (r : Refinement) (argument : Option Element) (selector : Slot) : Refinement :=
  ⟨r.eval.spawn argument, selector, none, none⟩

/-- The refinement with the flags of a nested one on the same operands. -/
def absorbFlags (r child : Refinement) : Refinement :=
  r.mapEval (·.absorbFlags child.eval)

/-- The refinement with the flags of a nested one on an alternative of the operands. -/
def absorbBranch (r child : Refinement) : Refinement :=
  r.mapEval (·.absorbBranch child.eval)

/-- The refinement with everything that a nested one on the same operands found. -/
def absorb (r child : Refinement) : Refinement :=
  let r := r.absorbFlags child
  if child.eval.empty then r.mapEval (·.withEmpty)
  else { r with first := child.first <|> r.first, second := child.second <|> r.second }

end Refinement

end ScalarDomain
