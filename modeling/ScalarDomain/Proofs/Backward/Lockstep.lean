import ScalarDomain.Backward.Constrain
import ScalarDomain.Proofs.Forward.Lockstep

/-!
# Refinements in lockstep

Two refinements that are run side by side keep the same refined operands, and their evaluations
stay in a relation that transfers keep (`Refinement.Alike`). A refinement looks at its evaluation
only through the transfers that try pairs of operands, so each way to refine keeps the relation if
these transfers do, and a run over listed values does if the refinements of the values do.
-/

namespace ScalarDomain

namespace Refinement

open Evaluation (Lockstep)

variable {limit : ℕ} {op : Operation} {R : Evaluation → Evaluation → Prop} {z x : Element}
  {y : Option Element} {r r' child child' : Refinement} {refiner refiner' : Refiner} {slot : Slot}
  {depth : ℕ} {P : Bool → Prop}

/-- Two refinements with the same refined operands and related evaluations. -/
structure Alike (R : Evaluation → Evaluation → Prop) (r r' : Refinement) : Prop where
  /-- The evaluations. -/
  eval : R r.eval r'.eval
  /-- The element in charge plays the same operand. -/
  selector : r'.selector = r.selector
  /-- The refined first operand is the same. -/
  first : r'.first = r.first
  /-- The refined second operand is the same. -/
  second : r'.second = r.second

namespace Alike

theorem mono {R Q : Evaluation → Evaluation → Prop} (h : Alike R r r')
    (hRQ : ∀ e e', R e e' → Q e e') : Alike Q r r' :=
  ⟨hRQ _ _ h.eval, h.selector, h.first, h.second⟩

theorem symm {R Q : Evaluation → Evaluation → Prop} (h : Alike R r r')
    (hRQ : ∀ e e', R e e' → Q e' e) : Alike Q r' r :=
  ⟨hRQ _ _ h.eval, h.selector.symm, h.first.symm, h.second.symm⟩

theorem mapEval (h : Alike R r r') (f : Evaluation → Evaluation) (hf : R (f r.eval) (f r'.eval)) :
    Alike R (r.mapEval f) (r'.mapEval f) :=
  ⟨hf, h.selector, h.first, h.second⟩

section

variable (hR : Lockstep R) (h : Alike R r r')

include hR h

theorem operands (x : Element) : r'.operands x = r.operands x := by
  rw [Refinement.operands, Refinement.operands, h.selector, hR.argument h.eval]

/-- The refined operands are the same in both roles. -/
theorem refined? (slot : Slot) : r'.refined? slot = r.refined? slot := by
  cases slot with
  | result => exact hR.result h.eval
  | first => exact h.first
  | second => exact h.second

theorem add (g : Gathered) (slot : Slot) (x : Element) (source : Option Element) :
    g.add limit r' slot x source = g.add limit r slot x source := by
  simp only [Gathered.add, refinedOr, h.refined? hR]

theorem conclude (exact : Bool) :
    Alike R (r.mapEval (·.conclude exact)) (r'.mapEval (·.conclude exact)) :=
  h.mapEval _ (hR.conclude h.eval exact)

theorem refine (slot : Slot) (x : Element) : Alike R (r.refine slot x) (r'.refine slot x) := by
  cases slot with
  | result => exact h.mapEval (·.withResult x) (hR.withResult h.eval x)
  | first => exact ⟨h.eval, h.selector, rfl, h.second⟩
  | second => exact ⟨h.eval, h.selector, h.first, rfl⟩

theorem fork (y : Option Element) (slot : Slot) : Alike R (r.fork y slot) (r'.fork y slot) :=
  ⟨hR.spawn h.eval y, rfl, rfl, rfl⟩

theorem absorbBranch (hchild : Alike R child child') :
    Alike R (r.absorbBranch child) (r'.absorbBranch child') :=
  ⟨hR.absorbBranch h.eval hchild.eval, h.selector, h.first, h.second⟩

theorem absorb (hchild : Alike R child child') :
    Alike R (r.absorb child) (r'.absorb child') := by
  have hflags : Alike R (r.absorbFlags child) (r'.absorbFlags child') :=
    ⟨hR.absorbFlags h.eval hchild.eval, h.selector, h.first, h.second⟩
  rw [Refinement.absorb, Refinement.absorb, hR.empty hchild.eval, hchild.first, hchild.second]
  split
  · exact hflags.mapEval _ (hR.withEmpty hflags.eval)
  · exact ⟨hflags.eval, hflags.selector, congrArg (child.first <|> ·) h.first,
      congrArg (child.second <|> ·) h.second⟩

/-- A finding settles both refinements in the same way. -/
theorem settle (f : Finding) : Alike R (r.settle f) (r'.settle f) := by
  rw [Refinement.settle, Refinement.settle, h.first, h.second]
  have hset : Alike R { r with first := f.first <|> r.first, second := f.second <|> r.second }
      { r' with first := f.first <|> r.first, second := f.second <|> r.second } :=
    ⟨h.eval, h.selector, rfl, rfl⟩
  cases f.exactness with
  | some exact => exact hset.conclude hR exact
  | none => exact hset.mapEval _ (hR.conclude (hR.withEmpty h.eval) true)

/-- What a run over listed values gathered goes into both refinements. -/
theorem gather (g : Gathered) : Alike R (r.gather g) (r'.gather g) := by
  have hs := h.mapEval _ (hR.sealBranches h.eval)
  refine Alike.conclude hR ?_ g.exact
  cases g.kept with
  | none => exact hs.mapEval _ (hR.withEmpty hs.eval)
  | some kept =>
    have hkept : Alike R ((r.mapEval (·.sealBranches)).refineReceiver kept)
        ((r'.mapEval (·.sealBranches)).refineReceiver kept) := by
      rw [refineReceiver, refineReceiver, hs.selector]
      exact hs.refine hR _ kept
    cases g.sources with
    | none => exact hkept
    | some sources =>
      change Alike R (Refinement.refineSource _ sources) (Refinement.refineSource _ sources)
      rw [refineSource, refineSource, hkept.selector]
      exact hkept.refine hR _ sources

end

end Alike

/-! ### Trial of pairs -/

/-- Two transfers of a pair of operands at some depth, run side by side from related evaluations. -/
def TrialsAlike (limit : ℕ) (op : Operation) (R : Evaluation → Evaluation → Prop) (depth : ℕ)
    (x : Element) (y : Option Element) : Prop :=
  ∀ e e', R e e' → e.depth = depth → e.argument = y →
    (x.apply limit op e).Relates (SameAnswer R) (x.apply limit op e')

/-- A pair of values that is tried: one of the first operand and one of the second operand, if
there is one. -/
def IsTried (limit : ℕ) (first : Element) (second : Option Element) (x : Element)
    (y : Option Element) : Prop :=
  (∃ xs, first.enumerate? limit = some xs ∧ x ∈ xs) ∧
    match second with
    | none => y = none
    | some second => ∃ ys, second.enumerate? limit = some ys ∧ ∃ o ∈ ys, y = some o

/-- Two outcomes with the same answer, of which something is known, and related states. -/
structure AnswersAlike (P : Bool → Prop) (R : Evaluation → Evaluation → Prop)
    (a b : Bool × Refinement) : Prop where
  /-- The answers. -/
  answer : a.1 = b.1
  /-- What is known of them. -/
  known : P a.1
  /-- The states. -/
  alike : Alike R a.2 b.2

theorem AnswersAlike.same {a b : Bool × Refinement} (h : AnswersAlike P R a b) :
    SameAnswer (Alike R) a b :=
  ⟨h.answer, h.alike⟩

namespace Alike

/-- The same pairs of operands may give the result. -/
theorem isFeasible (hR : Lockstep R) (h : Alike R r r')
    (ht : TrialsAlike limit op R (r.eval.depth + 1) x y) :
    (r.isFeasible limit op z x y).Relates (· = ·) (r'.isFeasible limit op z x y) := by
  refine (ht _ _ (hR.spawn h.eval y) rfl rfl).bind ?_
  rintro ⟨handled, e⟩ ⟨_, e'⟩ ⟨rfl, (he : R e e')⟩
  dsimp only
  rw [hR.result he, hR.empty he]
  exact Traced.relates_refl _

/-- The pairs that are tried run side by side, and the same ones are kept. -/
theorem feasible (hR : Lockstep R) (h : Alike R r r') (pairs : List (Element × Option Element))
    (ht : ∀ c ∈ pairs, TrialsAlike limit op R (r.eval.depth + 1) c.1 c.2)
    (kept : List Element × List Element) :
    (r.feasible limit op z pairs kept).Relates (· = ·) (r'.feasible limit op z pairs kept) := by
  induction pairs generalizing kept with
  | nil => exact Traced.relates_refl _
  | cons c pairs ih =>
    have htail := fun c hc => ht c (List.mem_cons_of_mem _ hc)
    obtain ⟨x, y⟩ := c
    obtain ⟨xs, ys⟩ := kept
    refine (h.isFeasible hR (ht _ List.mem_cons_self)).bind ?_
    rintro feasible _ rfl
    cases feasible with
    | true => exact ih htail _
    | false => exact ih htail _

/-- A trial runs the transfers of all pairs of values side by side. -/
theorem byTrial (hR : Lockstep R) (h : Alike R r r')
    (ht : ∀ x' y', IsTried limit (r.operands x).1 (r.operands x).2 x' y' →
      TrialsAlike limit op R (r.eval.depth + 1) x' y') :
    (r.byTrial limit op z x).Relates (AnswersAlike (· = true) R) (r'.byTrial limit op z x) := by
  rw [Refinement.byTrial, Refinement.byTrial, h.operands hR]
  generalize r.operands x = pair at ht ⊢
  obtain ⟨first, second⟩ := pair
  dsimp only
  split
  · next firsts seconds hfirsts hseconds =>
    refine (h.feasible hR _ (fun c hc => ?_) _).bind ?_
    · obtain ⟨x', hx', hc⟩ := List.mem_flatMap.mp hc
      obtain ⟨y', hy', rfl⟩ := List.mem_map.mp hc
      refine ht x' y' ⟨⟨firsts, hfirsts, hx'⟩, ?_⟩
      cases second with
      | none =>
        cases hseconds
        exact List.mem_singleton.mp hy'
      | some second =>
        obtain ⟨ys, hys, rfl⟩ := Option.map_eq_some_iff.mp hseconds
        obtain ⟨o, ho, rfl⟩ := List.mem_map.mp hy'
        exact ⟨ys, hys, o, ho, rfl⟩
    · rintro ⟨xs, ys⟩ _ rfl
      refine (Traced.relates_refl _).bind fun _ _ _ => Traced.relates_lift_bind fun finding _ => ?_
      exact Traced.relates_pure ⟨rfl, rfl, h.settle hR finding⟩
  · exact Traced.relates_pure ⟨rfl, rfl, h.conclude hR false⟩

/-- A truth table settles both refinements alike, or both fall back on trials. -/
theorem byTable (hR : Lockstep R) (h : Alike R r r')
    (ht : ∀ x' y', IsTried limit (r.operands x).1 (r.operands x).2 x' y' →
      TrialsAlike limit op R (r.eval.depth + 1) x' y') (outcome : Bool → Bool → Bool) :
    (r.byTable limit op outcome z x).Relates (AnswersAlike (· = true) R)
      (r'.byTable limit op outcome z x) := by
  rw [Refinement.byTable, Refinement.byTable, h.operands hR]
  dsimp only
  split
  · exact Traced.relates_pure ⟨rfl, rfl, h.conclude hR true⟩
  split
  · exact Traced.relates_pure ⟨rfl, rfl, h.settle hR _⟩
  · exact h.byTrial hR ht

/-- A bit in charge reads off a truth table or tries all pairs. -/
theorem byKind_bit (hR : Lockstep R) (h : Alike R r r')
    (ht : ∀ x' y', IsTried limit (r.operands x).1 (r.operands x).2 x' y' →
      TrialsAlike limit op R (r.eval.depth + 1) x' y')
    (hx : (∃ v, x = .word .bit (.constant v)) ∨ x = .word .bit .top) :
    (byKind limit op z refiner x r).Relates (AnswersAlike (· = true) R)
      (byKind limit op z refiner' x r') := by
  rcases hx with ⟨v, rfl⟩ | rfl
  · rw [byKind, byKind]
    split
    · exact h.byTable hR ht _
    · exact h.byTrial hR ht
  · exact h.byTrial hR ht

/-! ### Solving and listed values -/

/-- A refinement of doubles reads the operands and what becomes of errors, and nothing else. -/
theorem byFloats (hR : Lockstep R) (h : Alike R r r') :
    (r.byFloats limit op z x).Relates (AnswersAlike (· = true) R) (r'.byFloats limit op z x) := by
  rw [Refinement.byFloats, Refinement.byFloats, h.operands hR, hR.stops h.eval]
  refine (Traced.relates_refl _).bind fun _ _ _ => Traced.relates_lift_bind fun finding _ => ?_
  exact Traced.relates_pure ⟨rfl, rfl, h.settle hR finding⟩

/-- Words in charge solve on ranges, or they decline at once because the ranges say nothing. -/
theorem byRanges (hR : Lockstep R) (h : Alike R r r') :
    (r.byRanges limit op z x).Relates
      (fun a b => AnswersAlike (· = true) R a b ∨ (a = (false, r) ∧ b = (false, r') ∧
        Finding.ofWords? limit r.eval.params.stops op (r.operands x).1 (r.operands x).2 z =
          .ok none))
      (r'.byRanges limit op z x) := by
  rw [Refinement.byRanges, Refinement.byRanges, h.operands hR, hR.stops h.eval]
  refine Traced.relates_lift_bind fun found hfound => ?_
  cases found with
  | some finding => exact Traced.relates_pure (.inl ⟨rfl, rfl, h.settle hR finding⟩)
  | none => exact Traced.relates_pure (.inr ⟨rfl, rfl, hfound⟩)

end Alike

/-- The refinement stands at a depth, with an operand in charge and another one beside it. -/
structure At (depth : ℕ) (slot : Slot) (y : Option Element) (r : Refinement) : Prop where
  /-- The number of evaluations around it. -/
  depth : r.eval.depth = depth
  /-- The operand that the element in charge plays. -/
  selector : r.selector = slot
  /-- The other operand. -/
  argument : r.eval.argument = y

/-- Two refiners of the same operands, run side by side from related refinements. -/
def RefinersAlike (R : Evaluation → Evaluation → Prop) (P : Bool → Prop)
    (refiner refiner' : Refiner) (depth : ℕ) (slot : Slot) (x : Element) (y : Option Element) :
    Prop :=
  ∀ r r', Alike R r r' → r.At depth slot y →
    (refiner x r).Relates (AnswersAlike P R) (refiner' x r')

/-- The same values are kept, with the same other operands. -/
theorem Alike.byMembers (hR : Lockstep R) (hP : P true) (xs : List Element)
    (hmembers : ∀ x ∈ xs, RefinersAlike R P refiner refiner' (depth + 1) slot x y) (g : Gathered)
    (h : Alike R r r') (hr : r.At depth slot y) :
    (byMembers limit refiner xs g r).Relates (AnswersAlike P R)
      (Refinement.byMembers limit refiner' xs g r') := by
  induction xs generalizing g r r' with
  | nil => exact Traced.relates_pure ⟨rfl, hP, h.gather hR g⟩
  | cons x xs ih =>
    have htail := fun x hx => hmembers x (List.mem_cons_of_mem _ hx)
    rw [Refinement.byMembers, Refinement.byMembers, hR.argument h.eval, h.selector]
    refine (hmembers x List.mem_cons_self _ _ (h.fork hR _ _)
      ⟨congrArg (· + 1) hr.depth, hr.selector, hr.argument⟩).bind ?_
    rintro ⟨handled, child⟩ ⟨_, child'⟩ ⟨rfl, hknown, (hchild : Alike R child child')⟩
    cases handled with
    | false => exact Traced.relates_pure ⟨rfl, hknown, h.mapEval _ (hR.sealBranches h.eval)⟩
    | true =>
      have hnext := h.absorbBranch hR hchild
      have hr' : (r.absorbBranch child).At depth slot y := ⟨hr.depth, hr.selector, hr.argument⟩
      simp only [Bool.not_true, Bool.false_eq_true, if_false, hR.empty hchild.eval, hchild.add hR]
      split
      · exact ih htail g hnext hr'
      · exact Traced.relates_lift_bind fun g' _ => ih htail g' hnext hr'

end Refinement

end ScalarDomain
