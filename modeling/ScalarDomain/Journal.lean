import ScalarDomain.Lattice

/-!
# Journals

An evaluation records what it does in a journal and may end in a fault. `Traced α` is a value or
a fault together with the events up to that point: the journal survives a fault, and a session
that a fault ends is still closed in it. The lines of a journal are written by `Journal.lines`,
which indents sessions by the number of sessions open around them.
-/

namespace ScalarDomain

/-! ### Events -/

/-- An evaluation that a session of the journal records. -/
inductive Activity where
  /-- A forward transfer. -/
  | transfer (op : Operation) (x : Element)
  /-- A backward refinement. -/
  | refinement (op : Operation) (x result : Element)

/-- The title of a session. -/
def Activity.title : Activity → String
  | transfer op x => "apply " ++ op.text ++ " on " ++ x.text
  | refinement op x result =>
    "constraint " ++ op.text ++ " on " ++ x.text ++ " to " ++ result.text

/-- Something that happened during an evaluation. -/
inductive Event where
  /-- A session opens. -/
  | enter (a : Activity)
  /-- What the current session found. -/
  | conclude (verdict : Verdict) (result : Option Element) (empty : Bool)
  /-- A session closes. -/
  | leave (a : Activity)
  /-- The nesting bound was reached, and the result became a top. -/
  | coarsened (depth : Nat) (op : Operation)
  /-- The nesting bound was reached, and the operands were left alone. -/
  | unconstrained (depth : Nat) (op : Operation)
  /-- A set of words has no shape under the creation bound. -/
  | forbiddenCount (bound : Creation) (count : Int)
  /-- A set of floats has no shape under the creation bound. -/
  | forbidden (e : Element)
  /-- A question has no answer. -/
  | unanswered (q : QuestionKind) (kind : ElementKind)
  /-- A coarser shape takes over. -/
  | promoted (op : Operation) (kind promotedKind : ElementKind)
  /-- The operation is run against each value of the second operand. -/
  | spread (op : Operation) (count : Nat)
  /-- The other operand takes over a refinement. -/
  | redirected (op : Operation) (kind : ElementKind)
  /-- Some of the first operands may produce the result. -/
  | survivors (kept count : Nat) (op : Operation)
  /-- A refinement of floats. -/
  | floatRefinement (first : Element) (op : Operation)

/-- A list of events in order. -/
abbrev Journal := List Event

/-- How detailed a line of a journal is. -/
inductive Level where
  | debug
  | trace
deriving DecidableEq

/-- The name of a level. -/
def Level.name : Level → String
  | debug => "DEBUG"
  | trace => "TRACE"

namespace Event

/-- The level of an event. -/
def level : Event → Level
  | coarsened .. | unconstrained .. | forbiddenCount .. | forbidden .. | unanswered .. => .debug
  | _ => .trace

/-- The text of an event, without indentation. -/
def text : Event → String
  | enter a => "-> " ++ a.title
  | conclude verdict (some e) _ => "   " ++ verdict.name ++ " " ++ e.text
  | conclude _ none true => "   empty"
  | conclude verdict none false => "   " ++ verdict.name
  | leave a => "<- " ++ a.title
  | coarsened depth op => s!"depth {depth} exhausted, " ++ op.text ++ " coarsened to top"
  | unconstrained depth op => s!"depth {depth} exhausted, " ++ op.text ++ " left unconstrained"
  | forbiddenCount bound count =>
    "creation bound " ++ bound.name ++ s!" forbids {count} values, not performed"
  | forbidden e => "creation bound forbids " ++ e.text ++ ", not performed"
  | unanswered q kind => "unsupported query " ++ q.name ++ " on " ++ kind.name
  | promoted op kind promotedKind =>
    "re-dispatch " ++ op.text ++ " from " ++ kind.name ++ " to " ++ promotedKind.name
  | spread op count => op.text ++ s!" spread over {count} operands"
  | redirected op kind => "re-dispatch constraint " ++ op.text ++ " to " ++ kind.name
  | survivors kept count op => s!"{kept} of {count} first operands survive " ++ op.text
  | floatRefinement first op => "float refinement of " ++ first.text ++ " through " ++ op.text

/-- Whether an event belongs to the bookkeeping of a session. -/
def isSession : Event → Bool
  | enter _ | conclude .. | leave _ => true
  | _ => false

end Event

namespace Journal

/-- The indentation of an event of a session with a number of sessions around it. -/
def indent (level : Nat) : String :=
  String.ofList (List.replicate (2 * level) ' ')

/-- The lines of a journal below `level` open sessions. -/
def linesFrom (level : Nat) : Journal → List String
  | [] => []
  | e :: rest =>
    match e with
    | .enter _ => line level e :: linesFrom (level + 1) rest
    | .conclude .. => line (level - 1) e :: linesFrom level rest
    | .leave _ => line (level - 1) e :: linesFrom (level - 1) rest
    | _ => line 0 e :: linesFrom level rest
where
  /-- One line: its level, indentation and text. -/
  line (level : Nat) (e : Event) : String :=
    e.level.name ++ " " ++ indent level ++ e.text

/-- The lines of a journal. Sessions of analyses that run at once cannot be told apart, so they
are left out. -/
def lines (parallel : Bool) (j : Journal) : List String :=
  linesFrom 0 (if parallel then j.filter (!·.isSession) else j)

end Journal

/-! ### Evaluations with a journal -/

/-- A value or a fault, with the events up to it. -/
structure Traced (α : Type) where
  /-- The outcome. -/
  value : Except Fault α
  /-- The events up to it. -/
  journal : Journal

namespace Traced

/-- A value without events. -/
def ofValue {α : Type} (a : α) : Traced α :=
  ⟨.ok a, []⟩

/-- One evaluation after another; a fault ends it. -/
def andThen {α β : Type} (x : Traced α) (f : α → Traced β) : Traced β :=
  match x.value with
  | .ok a => ⟨(f a).value, x.journal ++ (f a).journal⟩
  | .error e => ⟨.error e, x.journal⟩

instance : Monad Traced where
  pure := ofValue
  bind := andThen

/-- An outcome without events. -/
def ofExcept {α : Type} (x : Except Fault α) : Traced α :=
  ⟨x, []⟩

instance : MonadLift (Except Fault) Traced := ⟨ofExcept⟩

/-- The end in a fault. -/
def fault {α : Type} (f : Fault) : Traced α :=
  ⟨.error f, []⟩

/-- One event. -/
def record (e : Event) : Traced Unit :=
  ⟨.ok (), [e]⟩

/-- An evaluation in a session of its own, closed also after a fault. -/
def session {α : Type} (a : Activity) (body : Traced α) : Traced α :=
  ⟨body.value, .enter a :: body.journal ++ [.leave a]⟩

end Traced

end ScalarDomain
