import ScalarDomain.Proofs.Forward.Flags

/-!
# Certain errors are certain, and possible errors are seen, up to one division

The two statements about the errors that `Element.apply` flags on words. An error that is flagged as
certain is raised by every pair of values, and an error that some pair raises is flagged as possible
once three levels of nesting are allowed. Both have one exception, the overflow of the smallest
value of a signed type divided by minus one, when the divisor is a range that reaches zero: where
errors end the execution the overflow is called certain although zero raises another error, and
where they do not it is overlooked next to the division by zero.
-/

namespace ScalarDomain

variable {limit : ℕ} {op : Operation} {w out : WordType} {arg : Option WordType}
  {x : Element} {y : Option Element}

namespace Element

/-- A transfer in a fresh evaluation returns, and flags the errors of all executions. -/
private theorem apply_diagnoses (params : Params) (h : op.Accepts w arg out)
    (hx : x.IsWord limit w) (hy : IsOperand limit arg y) :
    ∃ e, (x.apply limit op (.start params y)).value = .ok (true, e) ∧
      e.errors.Diagnoses (op.errorsOn w.view out.view x.values (operandValues y))
        (¬op.OverstatesOverflow params.stops x y) (3 ≤ params.maxDepth)
        (op.OverlooksOverflow params.stops x y) := by
  obtain ⟨s, rfl, hs⟩ := hx
  obtain ⟨⟨handled, e⟩, he, -, rfl, hd⟩ :=
    (applyWithin_reports h params _ hs.proper hy _ (Evaluation.fresh_start params y) rfl
      rfl).and_ensures (applyWithin_diagnoses _ h hs hy _ (Evaluation.clean_start params y) rfl rfl)
  exact ⟨e, he, hd⟩

/-! ### Certain errors -/

/-- An overstated overflow is not raised by the divisor zero. -/
private theorem not_raised_of_overstates {stops : Bool} {k : ErrorKind} {t o : IntType}
    (hover : op.OverstatesOverflow stops x y) (hy : IsOperand limit arg y) :
    ¬∀ a ∈ x.values, ∀ b ∈ operandValues y, op.raised t o a b = some k := by
  obtain ⟨-, rfl, t', q, -, rfl, rfl, -, hbounds⟩ := hover
  intro hall
  cases arg with
  | none => exact hy.elim
  | some u =>
    obtain ⟨q', hq', hq⟩ := hy
    cases hq'
    have hlo : -1 ∈ operandValues (some (word (.int t') q)) := by
      have := hq.proper.contains_lo
      rwa [show (q.bounds (WordType.int t').view).lo = -1 from congrArg Bounds.lo hbounds] at this
    have hhi : 0 ∈ operandValues (some (word (.int t') q)) := by
      have := hq.proper.contains_hi
      rwa [show (q.bounds (WordType.int t').view).hi = 0 from congrArg Bounds.hi hbounds] at this
    have hmin : t'.minValue ∈ (word (.int t') (.constant t'.minValue)).values :=
      Shape.contains_constant.mpr rfl
    have hzero := hall _ hmin 0 hhi
    have hone := hall _ hmin (-1) hlo
    rw [Operation.raised, if_pos rfl] at hzero
    rw [Operation.raised, if_neg (by omega), ← hzero, IntType.overflow?_eq_some] at hone
    simp at hone

/-- A forward transfer returns, and an error that it calls certain is raised by every pair of values
if and only if the overflow of a division is not overstated. -/
theorem raised_iff_of_certain (params : Params) (h : op.Accepts w arg out)
    (hx : x.IsWord limit w) (hy : IsOperand limit arg y) :
    ∃ e, (x.apply limit op (.start params y)).value = .ok (true, e) ∧
      ∀ k, e.errors.isCertain k = true →
        ((∀ a ∈ x.values, ∀ b ∈ operandValues y, op.raised w.view out.view a b = some k) ↔
          ¬op.OverstatesOverflow params.stops x y) := by
  obtain ⟨e, he, hd⟩ := apply_diagnoses params h hx hy
  refine ⟨e, he, fun k hk => ⟨fun hall hover => ?_, fun hover a ha b hb => ?_⟩⟩
  · exact not_raised_of_overstates hover hy hall
  · exact hd.certain hover k hk _ ⟨a, ha, b, hb, rfl⟩

/-- A range of four-bit integers added to a list, where every sum is too large. -/
theorem raised_iff_of_certain_plus :
    let t : IntType := ⟨4, true, by decide, by decide⟩
    let x : Element := .word (.int t) (.interval ⟨5, 7⟩)
    let y : Element := .word (.int t) (.disjunction [3, 4, 7])
    let params : Params := .preset 4 .sure .stop
    Operation.plus.Accepts (.int t) (some (.int t)) (.int t) ∧ x.IsWord 8 (.int t) ∧
      IsOperand 8 (some (.int t)) (some y) ∧
      ∃ e, (x.apply 8 .plus (.start params (some y))).value = .ok (true, e) ∧
        ∀ k, e.errors.isCertain k = true →
          ((∀ a ∈ x.values, ∀ b ∈ operandValues (some y),
            Operation.plus.raised t t a b = some k) ↔
              ¬Operation.plus.OverstatesOverflow params.stops x y) := by
  intro t x y params
  have h : Operation.plus.Accepts (.int t) (some (.int t)) (.int t) :=
    ⟨trivial, by decide, rfl⟩
  have hx : x.IsWord 8 (.int t) := by decide
  have hy : IsOperand 8 (some (.int t)) (some y) := by decide
  exact ⟨h, hx, hy, raised_iff_of_certain params h hx hy⟩

/-- The smallest certain error that is not: the overflow is certain, and a divisor zero raises
another error. -/
theorem certain_overflow_beside_zero :
    let t : IntType := ⟨4, true, by decide, by decide⟩
    let x : Element := .word (.int t) (.constant (-8))
    let y : Element := .word (.int t) (.interval ⟨-1, 0⟩)
    ((x.apply 8 .divide (.start (.preset 4 .sure .stop) (some y))).value.toOption.map
        fun r => (r.1, r.2.errors.certainKinds)) = some (true, [.positiveOverflow]) ∧
      -8 ∈ x.values ∧ 0 ∈ y.values ∧ Operation.divide.raised t t (-8) 0 = some .divisionByZero := by
  exact ⟨by rfl, Shape.contains_constant.mpr rfl, Shape.contains_interval.mpr (by simp), rfl⟩

/-! ### Possible errors -/

/-- A forward transfer with three levels of nesting returns, and an error that some pair of values
raises is flagged as possible if and only if it is not an overlooked overflow. -/
theorem possible_iff_of_raised (params : Params) (hdepth : 3 ≤ params.maxDepth)
    (h : op.Accepts w arg out) (hx : x.IsWord limit w) (hy : IsOperand limit arg y) :
    ∃ e, (x.apply limit op (.start params y)).value = .ok (true, e) ∧
      ∀ k, (∃ a ∈ x.values, ∃ b ∈ operandValues y, op.raised w.view out.view a b = some k) →
        (e.errors.isPossible k = true ↔
          ¬(op.OverlooksOverflow params.stops x y ∧ k = .positiveOverflow)) := by
  obtain ⟨e, he, hd⟩ := apply_diagnoses params h hx hy
  refine ⟨e, he, fun k hk => ⟨?_, fun hlook => ?_⟩⟩
  · rintro hpossible ⟨hlook, rfl⟩
    simp [hd.silent hlook] at hpossible
  · exact (hd.possible hdepth k hk).resolve_right hlook

/-- All four-bit integers divided by a list around zero. -/
theorem possible_iff_of_raised_top :
    let t : IntType := ⟨4, true, by decide, by decide⟩
    let x : Element := .word (.int t) .top
    let y : Element := .word (.int t) (.disjunction [-1, 0, 3])
    let params : Params := .preset 3 .sure .stop
    3 ≤ params.maxDepth ∧ Operation.divide.Accepts (.int t) (some (.int t)) (.int t) ∧
      x.IsWord 8 (.int t) ∧ IsOperand 8 (some (.int t)) (some y) ∧
      ∃ e, (x.apply 8 .divide (.start params (some y))).value = .ok (true, e) ∧
        ∀ k, (∃ a ∈ x.values, ∃ b ∈ operandValues (some y),
            Operation.divide.raised t t a b = some k) →
          (e.errors.isPossible k = true ↔
            ¬(Operation.divide.OverlooksOverflow params.stops x y ∧ k = .positiveOverflow)) := by
  intro t x y params
  have hdepth : 3 ≤ params.maxDepth := by decide
  have h : Operation.divide.Accepts (.int t) (some (.int t)) (.int t) :=
    ⟨trivial, by decide, rfl⟩
  have hx : x.IsWord 8 (.int t) := by decide
  have hy : IsOperand 8 (some (.int t)) (some y) := by decide
  exact ⟨hdepth, h, hx, hy, possible_iff_of_raised params hdepth h hx hy⟩

/-- The smallest error that is missed: the overflow of the division by minus one is not possible,
but that by zero is. -/
theorem overlooked_overflow_beside_zero :
    let t : IntType := ⟨4, true, by decide, by decide⟩
    let x : Element := .word (.int t) (.constant (-8))
    let y : Element := .word (.int t) (.interval ⟨-1, 0⟩)
    ((x.apply 8 .divide (.start (.preset 4 .sure .propagate) (some y))).value.toOption.map
        fun r => (r.1, r.2.errors.possibleKinds)) = some (true, [.divisionByZero]) ∧
      -8 ∈ x.values ∧ -1 ∈ y.values ∧
        Operation.divide.raised t t (-8) (-1) = some .positiveOverflow := by
  exact ⟨by rfl, Shape.contains_constant.mpr rfl, Shape.contains_interval.mpr (by simp), by decide⟩

end Element

end ScalarDomain
