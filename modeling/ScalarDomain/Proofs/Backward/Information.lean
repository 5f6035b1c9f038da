import ScalarDomain.Proofs.Backward.Lockstep
import ScalarDomain.Proofs.Forward.Information

/-!
# What information changes about a refinement

A refinement reads the information of its parameters only through the transfers that try pairs of
operands, and of those it takes the result and whether there is one. So it refines the operands in
the same way under all kinds of information that give the same creation bound, and under partial
information it forgets what is certain, as a transfer does. Transfers and refinements under two
kinds of information are set side by side in `Element.RunsAlike`.
-/

namespace ScalarDomain

namespace Refinement

variable {limit : ℕ} {op : Operation} {p : Params} {i : Information} {z x : Element}
  {r r' : Refinement} {refiner : Refiner}

/-- Two refinements, of which the second is the first under other information. -/
abbrev Gated (p : Params) (i : Information) : Refinement → Refinement → Prop :=
  Alike (Evaluation.Gated p i)

theorem gated_start (y : Option Element) :
    Gated p i (.start p y) (.start (p.withInformation i) y) :=
  ⟨Evaluation.gated_start y, rfl, rfl, rfl⟩

/-- A refiner under each of two kinds of information, started on related refinements. -/
def GatedRefiner (p : Params) (i : Information) (refiner : Refiner) : Prop :=
  ∀ (x : Element) (r r' : Refinement), Gated p i r r' →
    (refiner x r).Relates (SameAnswer (Gated p i)) (refiner x r')

/-- The refinement that a kind of element carries out, by cases on the kind. -/
theorem Gated.byKind (hi : p.Lowers i) (hr : GatedRefiner p i refiner) :
    GatedRefiner p i (byKind limit op z refiner) := by
  intro x r r' h
  have hR := Evaluation.lockstep_gated hi
  have htrial : ∀ x' y', IsTried limit (r.operands x).1 (r.operands x).2 x' y' →
      TrialsAlike limit op (Evaluation.Gated p i) (r.eval.depth + 1) x' y' :=
    fun _ _ _ _ _ he _ _ => Element.apply_gated hi he
  unfold Refinement.byKind
  dsimp only
  split
  · split
    · exact (h.byTable hR htrial _).mono fun _ _ => AnswersAlike.same
    · exact (h.byTrial hR htrial).mono fun _ _ => AnswersAlike.same
  · exact (h.byTrial hR htrial).mono fun _ _ => AnswersAlike.same
  · refine (Alike.byMembers (P := fun _ => True) hR trivial _ (fun x _ r r' h _ => ?_) _ h
      ⟨rfl, rfl, rfl⟩).mono fun _ _ => AnswersAlike.same
    exact (hr x r r' h).mono fun _ _ hab => ⟨hab.1, trivial, hab.2⟩
  · refine (h.byRanges hR).mono ?_
    rintro a b (hab | ⟨rfl, rfl, -⟩)
    · exact hab.same
    · exact ⟨rfl, h⟩
  · split
    · exact (h.byFloats hR).mono fun _ _ => AnswersAlike.same
    · exact Traced.relates_pure ⟨rfl, h⟩

end Refinement

/-! ### Nested refinements -/

namespace Element

open Refinement

variable {limit : ℕ} {op : Operation} {p : Params} {i : Information} {z : Element}
  {deeper deepest : Option Refiner}

/-- A session around a refinement leaves it related. -/
theorem enter_gated (hi : p.Lowers i) (h : ∀ attempt ∈ deeper, GatedRefiner p i attempt) :
    GatedRefiner p i (enter op z deeper) := by
  intro x r r' hr
  have hR := Evaluation.lockstep_gated hi
  unfold enter
  dsimp only
  refine Traced.Relates.session ?_
  cases deeper with
  | none =>
    rw [hR.depth hr.eval]
    exact (Traced.relates_refl _).bind fun _ _ _ => Traced.relates_pure ⟨rfl, hr.conclude hR false⟩
  | some attempt =>
    have hattempt := h attempt rfl
    cases x.throughInterval? with
    | some full => exact (hattempt full r r' hr).session
    | none => exact hattempt x r r' hr

/-- The element in charge and, where it declines, the other operand. -/
theorem attemptWith_gated (hi : p.Lowers i) (h : ∀ attempt ∈ deeper, GatedRefiner p i attempt)
    (h' : ∀ attempt ∈ deepest, GatedRefiner p i attempt) :
    GatedRefiner p i (attemptWith limit op z deeper deepest) := by
  intro x r r' hr
  have hR := Evaluation.lockstep_gated hi
  refine (Gated.byKind hi (enter_gated hi h) x r r' hr).bind ?_
  rintro ⟨handled, u⟩ ⟨_, u'⟩ ⟨rfl, (hu : Gated p i u u')⟩
  dsimp only
  rw [hR.argument hu.eval, hu.selector]
  cases handled with
  | true => exact Traced.relates_pure ⟨rfl, hu⟩
  | false =>
    cases u.eval.argument with
    | none => exact Traced.relates_pure ⟨rfl, hu⟩
    | some other =>
      have hfork := hu.fork hR (some x) u.selector.inverse
      -- what follows the other operand's refinement looks only at its answer
      have hnext : ∀ a b, SameAnswer (Gated p i) a b → Traced.Relates (SameAnswer (Gated p i))
          (if a.1 then do
            Traced.record (.redirected op other.kind)
            return (true, u.absorb a.2)
          else return (false, u))
          (if b.1 then do
            Traced.record (.redirected op other.kind)
            return (true, u'.absorb b.2)
          else return (false, u')) := by
        rintro ⟨handled, child⟩ ⟨_, child'⟩ ⟨rfl, (hchild : Gated p i child child')⟩
        cases handled with
        | false => exact Traced.relates_pure ⟨rfl, hu⟩
        | true =>
          exact (Traced.relates_refl _).bind fun _ _ _ =>
            Traced.relates_pure ⟨rfl, hu.absorb hR hchild⟩
      dsimp only
      cases other.throughInterval? with
      | some full => exact (enter_gated hi h full _ _ hfork).bind hnext
      | none => exact (Gated.byKind hi (enter_gated hi h') other _ _ hfork).bind hnext

/-- By induction on the number of nesting levels left; each level refines on the two below it. -/
theorem attempt_gated (hi : p.Lowers i) (n : ℕ) : GatedRefiner p i (attempt limit op z n) := by
  fun_induction attempt limit op z n with
  | case1 => exact attemptWith_gated hi (by simp) (by simp)
  | case2 ih => exact attemptWith_gated hi (by simpa using ih) (by simp)
  | case3 n ih ih' => exact attemptWith_gated hi (by simpa using ih) (by simpa using ih')

theorem constrainWithin_gated (hi : p.Lowers i) (n : ℕ) :
    GatedRefiner p i (constrainWithin limit op z n) := by
  cases n with
  | zero =>
    rw [constrainWithin]
    exact enter_gated hi (by simp)
  | succ n =>
    rw [constrainWithin]
    exact enter_gated hi (by simpa using attempt_gated hi n)

/-- The types are checked alike, since the operands are the same. -/
theorem constrainAs_gated (hi : p.Lowers i) {x : Element} {r r' : Refinement}
    (h : Gated p i r r') :
    (x.constrainAs limit op z r).Relates (SameAnswer (Gated p i))
      (x.constrainAs limit op z r') := by
  have hbudget : r'.eval.budget = r.eval.budget := by rw [h.eval.eq, Evaluation.under_budget]
  rw [constrainAs, constrainAs, checkTypes, checkTypes,
    h.operands (Evaluation.lockstep_gated hi), hbudget]
  exact (Traced.relates_refl _).bind fun _ _ _ => constrainWithin_gated hi _ x r r' h

/-! ### Transfers and refinements under all kinds of information -/

/-- The transfer and both refinements under two kinds of information: they record the same events,
and end in the same fault or with the same answer, the same refined operands and related
evaluations. -/
structure RunsAlike (limit : ℕ) (op : Operation) (params : Params) (x z : Element)
    (y : Option Element) (i j : Information) (R : Evaluation → Evaluation → Prop) : Prop where
  /-- Forward transfer. -/
  apply : (x.apply limit op (.start (params.withInformation i) y)).Relates (SameAnswer R)
    (x.apply limit op (.start (params.withInformation j) y))
  /-- Backward refinement of the first operand. -/
  constrain : (x.constrain limit op z (.start (params.withInformation i) y)).Relates
    (SameAnswer (Alike R)) (x.constrain limit op z (.start (params.withInformation j) y))
  /-- Backward refinement of the second operand. -/
  constrainTo : ∀ source : Element,
    (x.constrainTo limit op source z (.start (params.withInformation i) y)).Relates
      (SameAnswer (Alike R))
      (x.constrainTo limit op source z (.start (params.withInformation j) y))

namespace RunsAlike

variable {params : Params} {x : Element} {y : Option Element} {j : Information}
  {R Q : Evaluation → Evaluation → Prop}

theorem mono (h : RunsAlike limit op params x z y i j R) (hRQ : ∀ e e', R e e' → Q e e') :
    RunsAlike limit op params x z y i j Q where
  apply := h.apply.mono fun _ _ h => ⟨h.1, hRQ _ _ h.2⟩
  constrain := h.constrain.mono fun _ _ h => ⟨h.1, h.2.mono hRQ⟩
  constrainTo source := (h.constrainTo source).mono fun _ _ h => ⟨h.1, h.2.mono hRQ⟩

theorem symm (h : RunsAlike limit op params x z y i j R) (hRQ : ∀ e e', R e e' → Q e' e) :
    RunsAlike limit op params x z y j i Q where
  apply := h.apply.symm fun _ _ h => ⟨h.1.symm, hRQ _ _ h.2⟩
  constrain := h.constrain.symm fun _ _ h => ⟨h.1.symm, h.2.symm hRQ⟩
  constrainTo source := (h.constrainTo source).symm fun _ _ h => ⟨h.1.symm, h.2.symm hRQ⟩

end RunsAlike

/-- Runs under two kinds of information with the same creation bound, the second no more certain
than the first. -/
theorem runsAlike_gated {params : Params} {j : Information}
    (h : (params.withInformation i).Lowers j) (x : Element) (y : Option Element) :
    RunsAlike limit op params x z y i j (Evaluation.Gated (params.withInformation i) j) where
  apply := apply_gated h (Evaluation.gated_start y)
  constrain := constrainAs_gated h (gated_start y)
  constrainTo source := constrainAs_gated h
    ⟨⟨rfl, congrArg (fun e : Evaluation => { e with argument := some source })
      (Evaluation.gated_start y).eq⟩, rfl, rfl, rfl⟩

/-- Information decides only which errors are certain, and which shapes results may take. If all
kinds of information give the same creation bound, runs under any two of them agree in all but the
certain errors. Under any policy, operands that are exactly the reachable values and operands that
hold all of them give the same runs, and partial operands make no error certain. -/
theorem information_gates (limit : ℕ) (op : Operation) (params : Params) (x z : Element)
    (y : Option Element) :
    (params.policy.sure = params.policy.may →
      ∀ i j, RunsAlike limit op params x z y i j Evaluation.Agrees) ∧
    RunsAlike limit op params x z y .exact .sure (fun e e' => e' = e.withInformation .sure) ∧
    (x.apply limit op (.start (params.withInformation .may) y)).Ensures (·.2.IsUncertain) ∧
    (x.constrain limit op z (.start (params.withInformation .may) y)).Ensures
      (·.2.eval.IsUncertain) ∧
    ∀ source, (x.constrainTo limit op source z (.start (params.withInformation .may) y)).Ensures
      (·.2.eval.IsUncertain) := by
  have hmay : RunsAlike limit op params x z y .may .may
      (Evaluation.Gated (params.withInformation .may) .may) :=
    runsAlike_gated ⟨fun _ => rfl, rfl⟩ x y
  refine ⟨fun hpolicy i j => ?_, ?_, ?_, ?_, fun source => ?_⟩
  · have hbound : ∀ i j, (params.withInformation i).creationBound =
        (params.withInformation j).creationBound := by
      intro i j
      cases i <;> cases j <;> simp [Params.creationBound, Params.withInformation, hpolicy]
    -- of the two, the one that is no more certain is a view of the other
    by_cases hij : i = .may → j = .may
    · exact (runsAlike_gated ⟨hij, hbound j i⟩ x y).mono fun _ _ h => h.agrees
    · obtain ⟨rfl, -⟩ := Classical.not_imp.mp hij
      have hlow : (params.withInformation j).Lowers .may := ⟨fun _ => rfl, hbound .may j⟩
      exact (runsAlike_gated hlow x y).symm fun _ _ h => h.agrees.symm
  · have hlow : (params.withInformation .exact).Lowers .sure := ⟨by rintro ⟨⟩, rfl⟩
    exact (runsAlike_gated hlow x y).mono fun _ _ h => h.eq_withInformation (by decide)
  · exact hmay.apply.ensures.mono fun _ h => h.2.isUncertain
  · exact hmay.constrain.ensures.mono fun _ h => h.2.eval.isUncertain
  · exact (hmay.constrainTo source).ensures.mono fun _ h => h.2.eval.isUncertain

/-- A division by zero is certain under full information and only possible under partial
information. -/
theorem information_gates_divide :
    let t : IntType := ⟨8, true, by decide, by decide⟩
    let x : Element := .word (.int t) (.constant 6)
    let y : Element := .word (.int t) (.constant 0)
    let z : Element := .word (.int t) (.interval ⟨1, 9⟩)
    let params : Params := ⟨.exact, .stop, ⟨.interval, .interval, le_rfl⟩, 4⟩
    params.policy.sure = params.policy.may ∧
      RunsAlike 8 .divide params x z (some y) .sure .may Evaluation.Agrees ∧
      (x.apply 8 .divide (.start (params.withInformation .sure) (some y))).Returns
        (fun a => a.2.errors.possibleKinds = [.divisionByZero] ∧
          a.2.errors.certainKinds = [.divisionByZero]) ∧
      (x.apply 8 .divide (.start (params.withInformation .may) (some y))).Returns
        fun a => a.2.errors.possibleKinds = [.divisionByZero] ∧ a.2.errors.certainKinds = [] := by
  intro t x y z params
  have hpolicy : params.policy.sure = params.policy.may := rfl
  refine ⟨hpolicy, (information_gates 8 .divide params x z (some y)).1 hpolicy .sure .may, ?_, ?_⟩
  · exact ⟨_, rfl, by decide, by decide⟩
  · exact ⟨_, rfl, by decide, by decide⟩

end Element

end ScalarDomain
