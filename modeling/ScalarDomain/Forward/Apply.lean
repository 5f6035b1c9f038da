import ScalarDomain.Forward.Float

/-!
# Forward transfer

`Element.apply` gives the abstract result of an operation. Each kind of element has a **plan** for
an operation: one transfer step, a run over its members, a run over the values of the second
operand, or none. A kind without a plan hands over to a coarser shape of the same values. Runs
and hand-overs are nested evaluations, so the recursion is on the nesting that is left; with
none left the result is a top.
-/

namespace ScalarDomain

/-- How an element carries out an operation. -/
inductive Plan where
  /-- By one step. -/
  | step (s : Step)
  /-- By a run over first operands. -/
  | members (xs : List Element)
  /-- By a run over second operands, with or without a note in the journal. -/
  | arguments (ys : List Element) (noted : Bool)
  /-- Not at all. -/
  | declined

namespace Plan

/-- The second operand of a fold: absent, or a constant word. `none` when it is something else. -/
def foldOperand? : Option Element → Option (Option (WordType × Int))
  | none => some none
  | some (.word w (.constant v)) => some (some (w, v))
  | some _ => none

/-- The fold of a constant word with a constant second operand. -/
def fold? (stops : Bool) (op : Operation) (w : WordType) (result : ScalarType) (v : Int)
    (argument : Option Element) : Option Plan :=
  (foldOperand? argument).map fun operand =>
    match operand with
    | some (arg, y) => .step (.foldWord stops op w arg result v y)
    | none => .step (.foldWord stops op w w result v 0)

/-- The plan of a known bit. Second operands with few values are enumerated; too many values
leave any result, and any amount of a shift may be too large. -/
def ofBit (limit : Nat) (stops : Bool) (op : Operation) (result : ScalarType) (v : Int)
    (argument : Option Element) : Plan :=
  match fold? stops op .bit result v argument with
  | some plan => plan
  | none =>
    if op.arity = 0 then declined
    else
      match argument with
      | some (.word w s) =>
        let r := s.bounds w.view
        let listed := match (Element.word w s).intValues? with
          | some vs => some vs
          | none => if r.hi - r.lo < limit then some (r.values limit) else none
        match listed, result with
        | some vs, _ => arguments (vs.map (Element.wordConstant w)) false
        | none, .word out =>
          let errors := match op with
            | .shift _ => [(ErrorKind.positiveOverflow, false)]
            | _ => []
          step ((Step.anyWord out).withErrors errors)
        | none, .float _ => declined
      | _ => declined

/-- The plan of a constant integer: a fold, or a run over the values of the second operand. -/
def ofConstant (stops : Bool) (op : Operation) (t : IntType) (result : ScalarType) (v : Int)
    (argument : Option Element) : Plan :=
  match fold? stops op (.int t) result v argument with
  | some plan => plan
  | none =>
    if op.arity = 0 then declined
    else
      match argument.bind Element.members? with
      | some ys => arguments ys true
      | none => declined

/-- The transfer of whole sets of floats. -/
def ofSets (stops : Bool) (op : Operation) (f : FloatType) (s : FloatShape)
    (argument : Option Element) : Plan :=
  let b := (argument.bind Element.floatSet?).getD .empty
  let argumentSummary := (argument.map Element.summary).getD .bottom
  step (.ofSets stops op f s.toSet b (s.summary f) argumentSummary)

/-- The plan of a constant float: a fold, or the transfer of sets. -/
def ofFloatConstant (stops : Bool) (op : Operation) (f : FloatType) (x : Float)
    (argument : Option Element) : Plan :=
  match argument with
  | none => step (.foldFloat stops op f x 0.0)
  | some (.float _ (.constant y)) => step (.foldFloat stops op f x y)
  | some _ => if op.arity = 0 then declined else ofSets stops op f (.constant x) argument

/-- The plan of an element for an operation with the given second operand. -/
def of (limit : Nat) (stops : Bool) (op : Operation) (result : ScalarType) (x : Element)
    (argument : Option Element) : Plan :=
  match x with
  | .word .bit (.constant v) => ofBit limit stops op result v argument
  | .word .bit .top => members [.bit false, .bit true]
  | .word (.int t) (.constant v) => ofConstant stops op t result v argument
  | .word w (.interval r) =>
    step (.ofRange stops op w result r (argument.bind Element.operand?))
  | .word w (.disjunction vs) => members (vs.map (Element.wordConstant w))
  | .word (.int _) .top => declined
  | .float f (.constant v) => ofFloatConstant stops op f v argument
  | .float f s => ofSets stops op f s argument

end Plan

namespace Element

/-- The interval of all values of an integer type. -/
def fullInterval (t : IntType) : Element :=
  .word (.int t) (.interval t.full)

/-- The next coarser shape of the same values, for kinds that may have no plan. -/
def promote? : Element → Option Element
  | word (.int t) (.constant v) => some (.word (.int t) (.interval (.point v)))
  | word (.int t) .top => some (fullInterval t)
  | float f (.constant x) =>
    some (.float f (if x.isNaN then .top else .interval ⟨x, x⟩))
  | float f (.interval _) => some (.float f .top)
  | _ => none

/-- The type of the result of an operation on these operands. -/
def resultType (op : Operation) (x : Element) (argument : Option Element) :
    Except Fault ScalarType :=
  if op.arity = 1 ∧ argument.isNone then .error (.missingOperand op)
  else
    match op.checkedResultType x.type (argument.map type) with
    | .ok (.ok ty) => .ok ty
    | .ok (.error e) => .error (.refused e)
    | .error fault => .error fault

end Element

/-- A forward transfer: from the state of an evaluation to whether the operation is supported and
the state after it. -/
abbrev Transfer := Element → Evaluation → Traced (Bool × Evaluation)

namespace Evaluation

/-- A nested forward transfer, joined into the evaluation. -/
def nested (limit : Nat) (transfer : Transfer) (e : Evaluation) (x : Element)
    (argument : Option Element) : Traced (Bool × Evaluation) := do
  let (handled, child) ← transfer x (e.spawn argument)
  let e ← (e.finish limit child : Except Fault Evaluation)
  return (handled, e)

/-- Nested transfers of pairs of operands one after the other, up to the first that is not
supported. -/
def runAll (limit : Nat) (transfer : Transfer) :
    List (Element × Option Element) → Evaluation → Traced (Bool × Evaluation)
  | [], e => pure (true, e.sealJoin)
  | (x, argument) :: rest, e => do
    let (handled, e) ← e.nested limit transfer x argument
    if handled then runAll limit transfer rest e else return (false, e.sealJoin)

/-- The transfer of an operation by the plan of the element. -/
def runPlan (limit : Nat) (transfer : Transfer) (op : Operation) (x : Element) (e : Evaluation)
    (plan : Plan) : Traced (Bool × Evaluation) :=
  match plan with
  | .step s => do
    let e ← e.perform limit s
    return (true, e)
  | .members xs => runAll limit transfer (xs.map fun x => (x, e.argument)) e
  | .arguments ys noted => do
    if noted then Traced.record (.spread op ys.length)
    runAll limit transfer (ys.map fun y => (x, some y)) e
  | .declined => pure (false, e)

/-- The transfer of an operation by a coarser shape of the element, if there is one. -/
def runPromoted (limit : Nat) (transfer : Transfer) (op : Operation) (x : Element)
    (e : Evaluation) : Traced (Bool × Evaluation) :=
  match x.promote? with
  | none => pure (false, e)
  | some promoted => do
    Traced.record (.promoted op x.kind promoted.kind)
    let (handled, e) ← e.nested limit transfer promoted e.argument
    return (handled, e.sealJoin)

end Evaluation

namespace Element

/-- The forward transfer with a given number of nesting levels left. -/
def applyWithin (limit : Nat) (op : Operation) : Nat → Transfer
  | budget, x, e => do
    let result ← (resultType op x e.argument : Except Fault ScalarType)
    Traced.session (.transfer op x) <|
      match budget with
      | 0 => do
        Traced.record (.coarsened e.depth op)
        return (true, (e.withResult (top result)).conclude false)
      | budget + 1 => do
        let transfer := applyWithin limit op budget
        let plan := Plan.of limit e.params.stops op result x e.argument
        let (planned, e) ← e.runPlan limit transfer op x plan
        let (handled, e) ←
          if planned then pure (true, e) else e.runPromoted limit transfer op x
        let e := match e.result with
          | some r =>
            if handled && !op.isFresh && r.precision != x.precision then e.withUnstable else e
          | none => e
        Traced.record (.conclude e.verdict e.result e.empty)
        return (handled, e)

/-- Forward transfer: the abstract result of `op` on `x` and the second operand of the evaluation.
The answer tells whether some shape of `x` supports the operation. -/
def apply (limit : Nat) (op : Operation) (x : Element) (e : Evaluation) :
    Traced (Bool × Evaluation) :=
  applyWithin limit op e.budget x e

/-- Forward transfer of an operation that must be supported. -/
def requireApply (limit : Nat) (op : Operation) (x : Element) (e : Evaluation) :
    Traced Evaluation := do
  let (handled, e) ← apply limit op x e
  if handled then return e else Traced.fault (.notWired op x.kind)

end Element

end ScalarDomain
