import ScalarDomain.Backward.BitField
import ScalarDomain.Backward.Bitwise
import ScalarDomain.Backward.Division
import ScalarDomain.Backward.Float
import ScalarDomain.Backward.Refinement

/-!
# Backward refinement

`Element.constrain` refines the operands of an operation from its result. Each kind of element has
its own way: integers and floats solve for the operands, bits try all pairs of operands, listed
values are refined one by one and joined back, and an integer top goes through the interval of
all values. An element that declines hands over to the other operand. Runs over listed values
and hand-overs are nested refinements, so the recursion is on the nesting that is left; with
none left the operands stay as they are.
-/

namespace ScalarDomain

/-- A backward refinement carried out by an element: whether it is supported, and the state after
it. -/
abbrev Refiner := Element → Refinement → Traced (Bool × Refinement)

namespace Refinement

/-- The refinement after a finding. -/
def settle (r : Refinement) (f : Finding) : Refinement :=
  let r := { r with first := f.first <|> r.first, second := f.second <|> r.second }
  match f.exactness with
  | some exact => r.mapEval (·.conclude exact)
  | none => r.mapEval (·.withEmpty.conclude true)

end Refinement

/-! ### Integers -/

namespace Narrowing

/-- The solver of an operation on words that works on ranges. -/
def solve (stops : Bool) (op : Operation) (f : Frame) : Narrowing :=
  match op with
  | .prev => prev stops f
  | .next => next stops f
  | .opposite => opposite stops f
  | .bitNegate => bitNegate f
  | .castInt _ => castInt stops f
  | .extend fill _ => extend fill f
  | .reduce low high => reduce low high f
  | .compare c => compare c f
  | .plus => plus stops f
  | .minus => minus stops f
  | .times => times stops f
  | .divide => divide stops f
  | .modulo => modulo stops f
  | .extremum e => extremum e f
  | .bitwise b => bitwise b f
  | .shift d => shift stops d f
  | .rotate d => rotate d f
  | .concat => concat f
  | .bitSet low high => bitSet low high f
  | .logicalNegate | .castBit | .castFloat _ | .connective _ => unknown

end Narrowing

namespace Finding

/-- The operand of a conversion to a float. Integers never round to NaN. -/
def castFloat? (limit : Nat) (dest : FloatType) (first result : Element) :
    Except Fault (Option Finding) :=
  match result.floatSet?, first.intBounds? with
  | some set, some (_, own) =>
    match set.range with
    | none => .ok (some dead)
    | some target => do
      match ← first.narrow limit (Narrowing.castFloat dest own target) with
      | some x => return some { first := x, exactness := some false }
      | none => return some dead
  | _, _ => .ok none

/-- What integers find out about the operands; `none` when an operand is not a word without
gaps. -/
def ofWords? (limit : Nat) (stops : Bool) (op : Operation) (first : Element)
    (second : Option Element) (result : Element) : Except Fault (Option Finding) :=
  match op with
  | .logicalNegate => .ok (some (zeroTest limit true first result))
  | .castBit => .ok (some (zeroTest limit false first result))
  | .connective c => .ok (some (connective limit c first second result))
  | .castFloat dest => castFloat? limit dest first result
  | op =>
    match Frame.of? first second result with
    | none => .ok none
    | some f => ((Narrowing.solve stops op f).finding limit f.convex first second).map some

end Finding

/-! ### Trial of all pairs -/

/-- The join of some elements and whether it is exact; `none` for no element. -/
def Element.joinAll (limit : Nat) : List Element → Except Fault (Option (Element × Bool))
  | [] => .ok none
  | x :: xs => do
    let joined ← xs.foldlM (fun (acc : Element × Bool) y => do
      let next ← acc.1.join limit y
      return (next, acc.2 && acc.1.isExactJoin limit y next)) (x, true)
    return some joined

/-- The values of an element, when there are at most `limit`. -/
def Element.enumerate? (limit : Nat) (e : Element) : Option (List Element) :=
  match e.members? with
  | some xs => some xs
  | none =>
    match e with
    | .word w s =>
      let r := s.bounds w.view
      if r.hi - r.lo < limit then some ((r.values limit).map (wordConstant w)) else none
    | .float _ _ => none

/-- The list with an element at its end, unless it is there already. -/
def Element.addNew (xs : List Element) (x : Element) : List Element :=
  if xs.any (· == x) then xs else xs ++ [x]

namespace Refinement

/-- Whether the operation may give the result for one pair of operands. An outcome that could not
be computed keeps the pair. -/
def isFeasible (limit : Nat) (r : Refinement) (op : Operation) (result x : Element)
    (y : Option Element) : Traced Bool := do
  let (handled, trial) ← x.apply limit op (r.eval.spawn y)
  if !handled then return true
  else
    match trial.result with
    | some outcome => do
      let met ← (outcome.meet limit result : Except Fault (Option Element))
      return met.isSome
    | none => return !trial.empty

/-- The feasible pairs of a list, as the first and second operands that occur in them. -/
def feasible (limit : Nat) (r : Refinement) (op : Operation) (result : Element) :
    List (Element × Option Element) → List Element × List Element →
      Traced (List Element × List Element)
  | [], kept => pure kept
  | (x, y) :: rest, (xs, ys) => do
    if ← r.isFeasible limit op result x y then
      feasible limit r op result rest
        (Element.addNew xs x, match y with | some y => Element.addNew ys y | none => ys)
    else feasible limit r op result rest (xs, ys)

/-- What is left of the operands after a trial, for the values that survived it. -/
def survivors (limit : Nat) (first : Element) (second : Option Element) (xs ys : List Element) :
    Except Fault Finding := do
  match ← Element.joinAll limit xs with
  | none => return .dead
  | some (joined, exact) =>
    let x ← first.refineWith limit joined
    let found ← Element.joinAll limit ys
    match second, found with
    | some second, some (joined', exact') => do
      let y ← second.refineWith limit joined'
      return {
        first := x.getD none
        second := y.getD none
        exactness := if x.isSome && y.isSome then some (exact && exact') else none }
    | _, _ => return { first := x.getD none, exactness := x.map fun _ => exact }

/-- Refinement by running the operation on every pair of values of the operands. -/
def byTrial (limit : Nat) (op : Operation) (result x : Element) (r : Refinement) :
    Traced (Bool × Refinement) :=
  let (first, second) := r.operands x
  let seconds : Option (List (Option Element)) := match second with
    | none => some [none]
    | some second => (second.enumerate? limit).map fun (ys : List Element) => ys.map some
  match first.enumerate? limit, seconds with
  | some firsts, some seconds => do
    let pairs := firsts.flatMap fun x => seconds.map fun y => (x, y)
    let (xs, ys) ← r.feasible limit op result pairs ([], [])
    Traced.record (.survivors xs.length firsts.length op)
    let finding ← (survivors limit first second xs ys : Except Fault Finding)
    return (true, r.settle finding)
  | _, _ => pure (true, r.mapEval (·.conclude false))

end Refinement

/-! ### Bits -/

namespace Element

/-- The values of a bit. -/
def bitValues? : Element → Option (List Bool)
  | word .bit (.constant v) => some [v != 0]
  | word .bit .top => some [false, true]
  | _ => none

/-- An unknown bit pinned to the value that all surviving pairs agree on. -/
def pinned? (e : Element) (values : List Bool) : Option Element :=
  match values with
  | b :: rest => if e.isTop && rest.all (· == b) then some (bit b) else none
  | [] => none

end Element

/-- The outcome of a comparison or connective of two bits. -/
def Operation.onBits? : Operation → Option (Bool → Bool → Bool)
  | compare c => some fun a b => c.holds (if a then (1 : Int) else 0) (if b then 1 else 0)
  | connective c => some c.combine
  | _ => none

namespace Refinement

/-- Refinement by a truth table, when both operands are bits; other operands are tried pair by
pair. -/
def byTable (limit : Nat) (op : Operation) (outcome : Bool → Bool → Bool) (result x : Element)
    (r : Refinement) : Traced (Bool × Refinement) :=
  let (first, second) := r.operands x
  match result.knownBit? with
  | none => pure (true, r.mapEval (·.conclude true))
  | some wanted =>
    match second, first.bitValues?, second.bind Element.bitValues? with
    | some second, some xs, some ys =>
      let pairs := (xs.flatMap fun x => ys.map fun y => (x, y)).filter fun pair =>
        outcome pair.1 pair.2 == wanted
      let finding : Finding :=
        if pairs.isEmpty then .dead
        else
          { first := first.pinned? (pairs.map (·.1))
            second := second.pinned? (pairs.map (·.2))
            exactness := some true }
      pure (true, r.settle finding)
    | _, _, _ => r.byTrial limit op result x

/-! ### Listed values -/

/-- An element joined into what was found so far, and whether the join is exact. -/
def joinInto (limit : Nat) (found : Option Element) (x : Element) :
    Except Fault (Element × Bool) :=
  match found with
  | none => .ok (x, true)
  | some previous => do
    let joined ← previous.join limit x
    return (joined, previous.isExactJoin limit x joined)

/-- What a run over listed values found so far. -/
structure Gathered where
  /-- The values that may give the result. -/
  kept : Option Element := none
  /-- The other operands that go with them. -/
  sources : Option Element := none
  /-- Whether all joins were exact. -/
  exact : Bool := true

/-- One refined alternative added to what was found so far. -/
def Gathered.add (limit : Nat) (g : Gathered) (child : Refinement) (selector : Slot)
    (member : Element) (source : Option Element) : Except Fault Gathered := do
  let (kept, exact) ← joinInto limit g.kept (child.refinedOr selector member)
  match source with
  | none => return { g with kept := some kept, exact := g.exact && exact }
  | some source => do
    let (sources, exact') ←
      joinInto limit g.sources (child.refinedOr selector.inverse source)
    return { kept := some kept, sources := some sources, exact := g.exact && exact && exact' }

/-- The refinement after a run over listed values. -/
def gather (r : Refinement) (g : Gathered) : Refinement :=
  let r := r.mapEval (·.sealBranches)
  let r := match g.kept, g.sources with
    | none, _ => r.mapEval (·.withEmpty)
    | some kept, none => r.refineReceiver kept
    | some kept, some sources => (r.refineReceiver kept).refineSource sources
  r.mapEval (·.conclude g.exact)

/-- Refinement of each listed value on its own. Values that cannot give the result disappear. -/
def byMembers (limit : Nat) (refiner : Refiner) :
    List Element → Gathered → Refinement → Traced (Bool × Refinement)
  | [], g, r => pure (true, r.gather g)
  | x :: rest, g, r => do
    let source := r.eval.argument
    let (handled, child) ← refiner x (r.fork source r.selector)
    if !handled then return (false, r.mapEval (·.sealBranches))
    else
      let r' := r.absorbBranch child
      if child.eval.empty then byMembers limit refiner rest g r'
      else do
        let g ← (g.add limit child r.selector x source : Except Fault Gathered)
        byMembers limit refiner rest g r'

end Refinement

/-! ### Dispatch -/

namespace Refinement

/-- Refinement of floats. -/
def byFloats (limit : Nat) (op : Operation) (result x : Element) (r : Refinement) :
    Traced (Bool × Refinement) := do
  let (first, second) := r.operands x
  Traced.record (.floatRefinement first op)
  let finding ← (Finding.ofFloats limit r.eval.params.stops op first second result :
    Except Fault Finding)
  return (true, r.settle finding)

/-- Refinement of words by solving on ranges. -/
def byRanges (limit : Nat) (op : Operation) (result x : Element) (r : Refinement) :
    Traced (Bool × Refinement) := do
  let (first, second) := r.operands x
  match ← (Finding.ofWords? limit r.eval.params.stops op first second result :
    Except Fault (Option Finding)) with
  | some finding => return (true, r.settle finding)
  | none => return (false, r)

/-- The refinement that the kind of an element carries out; `refiner` is run on listed values. An
integer top has none of its own. -/
def byKind (limit : Nat) (op : Operation) (result : Element) (refiner : Refiner) : Refiner
  | x, r =>
    match x with
    | .word .bit (.constant _) =>
      match op.onBits? with
      | some outcome => r.byTable limit op outcome result x
      | none => r.byTrial limit op result x
    | .word .bit .top => r.byTrial limit op result x
    | .word w (.disjunction vs) =>
      r.byMembers limit refiner (vs.map (Element.wordConstant w)) {}
    | .word _ _ => r.byRanges limit op result x
    | .float _ _ =>
      if x.kind.supports op.kind then r.byFloats limit op result x else pure (false, r)

end Refinement

namespace Element

/-- The interval that an integer top goes through. -/
def throughInterval? : Element → Option Element
  | word (.int t) .top => some (fullInterval t)
  | _ => none

/-- A refinement in a session of its own; `attempt` is absent when no nesting is left. -/
def enter (op : Operation) (result : Element) (attempt : Option Refiner) : Refiner
  | x, r =>
    Traced.session (.refinement op x result) <|
      match attempt with
      | none => do
        Traced.record (.unconstrained r.eval.depth op)
        return (true, r.mapEval (·.conclude false))
      | some attempt =>
        match x.throughInterval? with
        | some full => Traced.session (.refinement op full result) (attempt full r)
        | none => attempt x r

/-- A refinement by the element in charge, or by the other operand when it declines. `deeper` and
`deepest` refine one and two levels further down. -/
def attemptWith (limit : Nat) (op : Operation) (result : Element)
    (deeper deepest : Option Refiner) : Refiner
  | x, r => do
    let (handled, r) ← Refinement.byKind limit op result (enter op result deeper) x r
    match handled, r.eval.argument with
    | true, _ => return (true, r)
    | false, none => return (false, r)
    | false, some other => do
      let child := r.fork (some x) r.selector.inverse
      let (handled, child) ← match other.throughInterval? with
        | some full => enter op result deeper full child
        | none => Refinement.byKind limit op result (enter op result deepest) other child
      if handled then do
        Traced.record (.redirected op other.kind)
        return (true, r.absorb child)
      else return (false, r)

/-- The refinement with a given number of nesting levels left below this one. -/
def attempt (limit : Nat) (op : Operation) (result : Element) : Nat → Refiner
  | 0 => attemptWith limit op result none none
  | 1 => attemptWith limit op result (some (attempt limit op result 0)) none
  | n + 2 =>
    attemptWith limit op result (some (attempt limit op result (n + 1)))
      (some (attempt limit op result n))

/-- The refinement with a given number of nesting levels left. -/
def constrainWithin (limit : Nat) (op : Operation) (result : Element) : Nat → Refiner
  | 0 => enter op result none
  | n + 1 => enter op result (some (attempt limit op result n))

/-- The types of a refinement agree. -/
def checkTypes (op : Operation) (x result : Element) (r : Refinement) : Except Fault Unit := do
  let (first, second) := r.operands x
  let ty ← resultType op first second
  if ty = result.type then return () else .error (.resultType op ty result.type)

/-- Refinement in the role that the selector gives. -/
def constrainAs (limit : Nat) (op : Operation) (x result : Element) (r : Refinement) :
    Traced (Bool × Refinement) := do
  (checkTypes op x result r : Except Fault Unit)
  constrainWithin limit op result r.eval.budget x r

/-- Backward refinement with `x` as the first operand; the evaluation holds the second one. -/
def constrain (limit : Nat) (op : Operation) (x result : Element) (r : Refinement) :
    Traced (Bool × Refinement) :=
  constrainAs limit op x result { r with selector := .first }

/-- Backward refinement with `x` as the second operand and `source` as the first one. -/
def constrainTo (limit : Nat) (op : Operation) (x source result : Element) (r : Refinement) :
    Traced (Bool × Refinement) :=
  constrainAs limit op x result
    { r with selector := .second, eval := { r.eval with argument := some source } }

/-- Backward refinement of an operation that must be supported. -/
def requireConstrain (limit : Nat) (op : Operation) (x result : Element) (r : Refinement) :
    Traced Refinement := do
  let (handled, r) ← constrain limit op x result r
  if handled then return r else Traced.fault (.refinementNotWired op x.kind)

end Element

end ScalarDomain
