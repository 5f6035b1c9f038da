import ScalarDomain.Proofs.Backward.Soundness

/-!
# Backward refinements never widen

A refinement of accepted operands always returns, whichever of them is in charge, and what it finds
of an operand is a well-formed word of the same type without a new value. This is not clear of a
list in charge: the other operand is refined once for each listed value, and a join of the results
has values that none of them has. But each of them is below the operand in the order of words, and
the join is their least upper bound, so it is below the operand as well.
-/

namespace ScalarDomain

variable {limit : ℕ} {op : Operation} {w u out : WordType} {arg : Option WordType}
  {x z o : Element} {y : Option Element}

namespace Refinement

/-- Operands that were refined are well-formed words of the type of the operand, and have no value
that it lacks. -/
structure Shrinks (limit : ℕ) (w : WordType) (arg : Option WordType) (x : Element)
    (y : Option Element) (r : Refinement) : Prop where
  /-- The first operand is. -/
  first : ∀ q ∈ r.first, q.IsWord limit w ∧ q.type = x.type ∧ q.values ⊆ x.values
  /-- The second one is, and it is there. -/
  second : ∀ q ∈ r.second, ∃ u ∈ arg, ∃ o ∈ y, q.IsWord limit u ∧ q.type = o.type ∧
    q.values ⊆ o.values

/-- Solutions shrink the operands. -/
theorem shrinks_of_solves {S : ℤ → ℤ → Prop} {P : Prop} {r : Refinement}
    (h : (r.found .first).Solves limit w arg S P x y) (hlive : r.eval.empty = false) :
    r.Shrinks limit w arg x y := by
  obtain ⟨hfirst, hsecond⟩ := h.below (by simp [found, hlive])
  constructor
  · intro q hq
    have hword := h.first
    rw [Finding.firstOf, show (r.found .first).first = some q from hq] at hword
    have hbelow := hfirst q hq
    exact ⟨hword, hbelow.type_eq, hbelow.subset⟩
  · intro q hq
    obtain ⟨o, ho, hbelow⟩ := hsecond q hq
    have hword := h.second
    rw [Finding.secondOf, Option.mem_def.mp ho,
      show (r.found .first).second = some q from hq] at hword
    cases arg with
    | none => exact hword.elim
    | some u => exact ⟨u, rfl, o, ho, hword, hbelow.type_eq, hbelow.subset⟩

end Refinement

namespace Element

open Refinement

/-- A fresh refinement with the second operand in charge solves the pairs that reach the result. -/
theorem constrainTo_solves (params : Params) (argument : Option Element)
    (h : op.Accepts w (some u) out) (hx : x.IsWord limit w) (ho : o.IsWord limit u)
    (hz : z.IsWord limit out) :
    (o.constrainTo limit op x z (.start params argument)).Returns
      (Solved limit u (some w) (flip (op.Reaches params.stops w.view u.view out.view z.values))
        False .second o (some x)) := by
  have htypes : checkTypes op o z { Refinement.start params argument with
      selector := .second
      eval := { Evaluation.start params argument with argument := some x } } = .ok () :=
    checkTypes_eq_ok h hx (show IsOperand limit (some u) (some o) from ho) hz rfl
  refine (Traced.returns_lift (P := fun _ => True) htypes trivial).bind fun _ _ => ?_
  have hfresh : Refinement.Fresh { Refinement.start params argument with
      selector := .second
      eval := { Evaluation.start params argument with argument := some x } } :=
    ⟨⟨rfl, rfl, rfl, rfl⟩, rfl, rfl⟩
  cases u with
  | bit =>
    have hoperand : IsOperand limit (some .bit) (some o) := ho
    refine (constrainWithin_bit_solves h hz ho hx hoperand (.inr rfl) hfresh rfl _).mono
      fun q hq => ?_
    exact (hq.weaken False.elim).swap
  | int t =>
    refine constrainWithin_solves _ (by simp) ho (show IsOperand limit (some w) (some x) from hx)
      (fun o' x' ho' hx' => ?_) _ hfresh rfl rfl rfl
    -- both the operand in charge and the other one may be cut into single values
    have hword := isOperand_piece (show IsOperand limit (some w) (some x) from hx) hx'
    cases x' with
    | none => exact hword.elim
    | some x' =>
      exact eitherRangesOn_second
        (Finding.handles_of_accepts h False.elim hword (isWord_piece ho ho') hz False.elim)

/-- A backward refinement of accepted operands returns and is supported, with either operand in
charge, under any parameters. If it is not empty it shrinks the operands. -/
theorem refinements_shrink (params : Params) (h : op.Accepts w arg out) (hx : x.IsWord limit w)
    (hy : IsOperand limit arg y) (hz : z.IsWord limit out) :
    (∃ r, (x.constrain limit op z (.start params y)).value = .ok (true, r) ∧
      (r.eval.empty = false → r.Shrinks limit w arg x y)) ∧
    ∀ o ∈ y, ∀ argument,
      ∃ r, (o.constrainTo limit op x z (.start params argument)).value = .ok (true, r) ∧
        (r.eval.empty = false → r.Shrinks limit w arg x y) := by
  constructor
  · obtain ⟨⟨handled, r⟩, hr, rfl, hsolves, -⟩ := constrain_solves params h hx hy hz
    exact ⟨r, hr, shrinks_of_solves hsolves⟩
  · rintro o ho argument
    obtain rfl := Option.mem_def.mp ho
    cases arg with
    | none => exact hy.elim
    | some u =>
      obtain ⟨⟨handled, r⟩, hr, rfl, hsolves, -⟩ := constrainTo_solves params argument h hx hy hz
      exact ⟨r, hr, shrinks_of_solves hsolves.swap⟩

/-- Sums of a list and an interval: the interval is refined once for each listed value. -/
theorem refinements_shrink_plus :
    let t : IntType := ⟨4, true, by decide, by decide⟩
    let x : Element := .word (.int t) (.disjunction [-8, -1, 7])
    let y : Element := .word (.int t) (.interval ⟨-3, 6⟩)
    let z : Element := .word (.int t) (.disjunction [-7, 2])
    let params : Params := .preset 4 .sure .propagate
    Operation.plus.Accepts (.int t) (some (.int t)) (.int t) ∧ x.IsWord 8 (.int t) ∧
      IsOperand 8 (some (.int t)) (some y) ∧ z.IsWord 8 (.int t) ∧
      (∃ r, (x.constrain 8 .plus z (.start params (some y))).value = .ok (true, r) ∧
        (r.eval.empty = false → r.Shrinks 8 (.int t) (some (.int t)) x (some y))) ∧
      ∃ r, (y.constrainTo 8 .plus x z (.start params none)).value = .ok (true, r) ∧
        (r.eval.empty = false → r.Shrinks 8 (.int t) (some (.int t)) x (some y)) := by
  intro t x y z params
  have h : Operation.plus.Accepts (.int t) (some (.int t)) (.int t) := ⟨trivial, by decide, rfl⟩
  have hx : x.IsWord 8 (.int t) := by decide
  have hy : IsOperand 8 (some (.int t)) (some y) := by decide
  have hz : z.IsWord 8 (.int t) := by decide
  obtain ⟨hfirst, hsecond⟩ := refinements_shrink params h hx hy hz
  exact ⟨h, hx, hy, hz, hfirst, hsecond y rfl none⟩

end Element

end ScalarDomain
