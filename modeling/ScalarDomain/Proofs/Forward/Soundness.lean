import ScalarDomain.Proofs.Forward.Transfer

/-!
# Forward transfers are sound, and exact verdicts true up to one gap

The two statements about `Element.apply` on words. It returns in every fresh evaluation, and no
execution that is not pruned ends with a value that its result lacks. An exact verdict means that
the result has nothing but such values, with one exception: a shift of one-bit integers to the right
by listed amounts on both sides of zero. Zero is the one valid amount between the ends of the list,
so the result is that of a shift by zero, but when zero is not listed every execution is pruned.
-/

namespace ScalarDomain

variable {limit : ℕ} {op : Operation} {w out : WordType} {arg : Option WordType}
  {x : Element} {y : Option Element}

/-- The values that an evaluation lets flow out. -/
def Evaluation.outcomes (e : Evaluation) : Set ℤ :=
  {v | e.empty = false ∧ ∃ r, e.result = some r ∧ v ∈ r.values}

namespace Element

/-! ### Soundness -/

/-- A transfer in a fresh evaluation reports the results of all executions. -/
theorem apply_reports (params : Params) (h : op.Accepts w arg out)
    (hx : x.IsWord limit w) (hy : IsOperand limit arg y) :
    (x.apply limit op (.start params y)).Returns (Answers limit out
      (op.results params.stops w.view (arg.getD w).view out.view x.values (operandValues y))
      (op.Trusted params.stops x y)) := by
  obtain ⟨s, rfl, hs⟩ := hx
  exact applyWithin_reports h params _ hs.proper hy _ (Evaluation.fresh_start params y) rfl rfl

/-- A forward transfer returns, and covers all executions: if one ends with a value, the evaluation
is not empty, and its result has the value. Without a result the verdict says so. -/
theorem apply_covers_executions (params : Params) (h : op.Accepts w arg out)
    (hx : x.IsWord limit w) (hy : IsOperand limit arg y) :
    ∃ e, (x.apply limit op (.start params y)).value = .ok (true, e) ∧
      ∀ a ∈ x.values, ∀ b ∈ operandValues y,
        ∀ v ∈ (op.execute params.stops w.view (arg.getD w).view out.view a b).values out.view,
          e.empty = false ∧ (∀ r, e.result = some r → v ∈ r.values) ∧
            (e.result = none → e.verdict = .notPerformed) := by
  obtain ⟨⟨handled, e⟩, he, rfl, hr⟩ := apply_reports params h hx hy
  refine ⟨e, he, fun a ha b hb v hv => ?_⟩
  have hv : v ∈ op.results params.stops w.view (arg.getD w).view out.view x.values
      (operandValues y) := ⟨a, ha, b, hb, hv⟩
  have hempty := hr.empty_eq_false hv
  exact ⟨hempty, fun r hres => hr.covers r hres hv, fun hres => hr.unperformed hres hempty⟩

/-- A range of four-bit integers divided by a list with zero, errors going on with any value. -/
theorem apply_covers_executions_divide :
    let t : IntType := ⟨4, true, by decide, by decide⟩
    let x : Element := .word (.int t) (.interval ⟨-5, 6⟩)
    let y : Element := .word (.int t) (.disjunction [-3, 0, 2])
    let params : Params := .preset 4 .sure .propagate
    Operation.divide.Accepts (.int t) (some (.int t)) (.int t) ∧ x.IsWord 8 (.int t) ∧
      IsOperand 8 (some (.int t)) (some y) ∧
      ∃ e, (x.apply 8 .divide (.start params (some y))).value = .ok (true, e) ∧
        ∀ a ∈ x.values, ∀ b ∈ operandValues (some y),
          ∀ v ∈ (Operation.divide.execute params.stops t t t a b).values t,
            e.empty = false ∧ (∀ r, e.result = some r → v ∈ r.values) ∧
              (e.result = none → e.verdict = .notPerformed) := by
  intro t x y params
  have h : Operation.divide.Accepts (.int t) (some (.int t)) (.int t) :=
    ⟨trivial, by decide, rfl⟩
  have hx : x.IsWord 8 (.int t) := by decide
  have hy : IsOperand 8 (some (.int t)) (some y) := by decide
  exact ⟨h, hx, hy, apply_covers_executions params h hx hy⟩

/-! ### Exact verdicts -/

/-- A well-formed word and its second operand can be trusted unless they shift across a gap. -/
private theorem trusted_of_isWord {stops : Bool} (hx : x.IsWord limit w)
    (h : ¬op.ShiftsAcrossGap stops x y) : op.Trusted stops x y where
  shift := h
  concat _ w' r hr heq := by
    obtain ⟨s, rfl, hs⟩ := hx
    cases hr
    exact absurd heq (hs.2 r rfl).ne

/-- Across a gap every execution is pruned. -/
private theorem results_eq_empty_of_shiftsAcrossGap {stops : Bool} {u : IntType}
    (h : op.ShiftsAcrossGap stops x y) (hx : x.IsWord limit w) :
    op.results stops w.view u out.view x.values (operandValues y) = ∅ := by
  obtain ⟨hstops, rfl, ⟨t, s, rfl, hwidth, -⟩, u', vs, rfl, -, -, h0⟩ := h
  obtain ⟨s', hs', -⟩ := hx
  cases hs'
  refine Set.eq_empty_of_forall_notMem ?_
  rintro v ⟨a, ha, b, hb, hv⟩
  rw [operandValues, mem_values_word, Shape.contains_disjunction] at hb
  have hinvalid : ¬(0 ≤ b ∧ b < ((WordType.int t).view.width : ℤ)) := by
    rintro ⟨h1, h2⟩
    have h2 : b < (t.width : ℤ) := h2
    have : b = 0 := by omega
    exact h0 (this ▸ hb)
  rw [Step.mem_values_shift_invalid hinvalid] at hv
  simp [hstops] at hv

/-- Across a gap some value flows out all the same: the first operand shifted by zero. -/
private theorem exists_outcome_of_shiftsAcrossGap {params : Params} {e : Evaluation}
    (hgap : op.ShiftsAcrossGap params.stops x y) (h : op.Accepts w arg out)
    (hx : x.IsWord limit w) (hy : IsOperand limit arg y)
    (he : (x.apply limit op (.start params y)).value = .ok (true, e)) (hv : e.verdict = .exact) :
    e.outcomes.Nonempty := by
  obtain ⟨-, rfl, ⟨t, s, rfl, hwidth, hprec⟩, u, vs, rfl, ⟨b, hb, hneg⟩, ⟨c, hc, hpos⟩, -⟩ := hgap
  obtain ⟨s', hs', hs⟩ := hx
  cases hs'
  obtain ⟨harg, rfl⟩ := h.fits
  obtain ⟨u', rfl⟩ := Option.isSome_iff_exists.mp harg
  obtain ⟨q, hq', hq⟩ := hy
  cases hq'
  obtain ⟨⟨handled, e'⟩, he', -, hr⟩ :=
    applyWithin_shift_right_between h params _ hs.proper hprec hq _
      (Evaluation.fresh_start params _) rfl rfl
  cases he.symm.trans he'
  -- zero lies between the ends of the list
  have hzero : (0 : ℤ) ∈ ((Shape.disjunction vs).bounds u.view).toSet := by
    have h1 := hq.proper.mem_bounds (Shape.contains_disjunction.mpr hb)
    have h2 := hq.proper.mem_bounds (Shape.contains_disjunction.mpr hc)
    exact ⟨h1.1.trans hneg.le, hpos.le.trans h2.2⟩
  have hlo := hs.proper.contains_lo
  have hmem : (s.bounds t).lo / pow2 (0 : ℤ).toNat ∈ (Operation.shift .right).results params.stops
      t u.view t (word (.int t) s).values ((Shape.disjunction vs).bounds u.view).toSet :=
    ⟨_, hlo, 0, hzero, (Step.mem_values_shift_right (hs.proper.contains hlo)
      ⟨le_rfl, by exact_mod_cast t.one_le_width⟩).mpr rfl⟩
  have hempty := hr.empty_eq_false hmem
  obtain ⟨z, hz⟩ := hr.exists_result (by simp [hv]) hempty
  exact ⟨_, hempty, z, hz, hr.covers z hz hmem⟩

/-- An exact verdict comes with a result or with emptiness, and the values that flow out are exactly
those of the executions that are not pruned, if and only if the operation does not shift across a
gap. -/
theorem outcomes_eq_results_iff_of_exact (params : Params) (h : op.Accepts w arg out)
    (hx : x.IsWord limit w) (hy : IsOperand limit arg y) :
    ∃ e, (x.apply limit op (.start params y)).value = .ok (true, e) ∧
      (e.verdict = .exact → (e.empty = true ∨ e.result.isSome = true) ∧
        (e.outcomes = op.results params.stops w.view (arg.getD w).view out.view x.values
          (operandValues y) ↔ ¬op.ShiftsAcrossGap params.stops x y)) := by
  obtain ⟨⟨handled, e⟩, he, rfl, hr⟩ := apply_reports params h hx hy
  refine ⟨e, he, fun hv => ?_⟩
  have hpresent := hr.exists_result (by simp [hv])
  refine ⟨?_, fun heq hgap => ?_, fun hgap => Set.Subset.antisymm ?_ fun v hmem => ?_⟩
  · cases hempty : e.empty with
    | true => exact .inl rfl
    | false =>
      obtain ⟨r, hres⟩ := hpresent hempty
      exact .inr (by rw [hres]; rfl)
  · have hne := exists_outcome_of_shiftsAcrossGap hgap h hx hy he hv
    rw [heq, results_eq_empty_of_shiftsAcrossGap hgap hx] at hne
    exact Set.not_nonempty_empty hne
  · rintro v ⟨-, r, hres, hmem⟩
    exact hr.tight (trusted_of_isWord hx hgap) hv r hres hmem
  · have hempty := hr.empty_eq_false hmem
    obtain ⟨r, hres⟩ := hpresent hempty
    exact ⟨hempty, r, hres, hr.covers r hres hmem⟩

/-- A shift of one-bit integers across a gap. -/
theorem outcomes_eq_results_iff_of_exact_shift :
    let t : IntType := ⟨1, false, by decide, by decide⟩
    let u : IntType := ⟨5, true, by decide, by decide⟩
    let x : Element := .word (.int t) (.interval ⟨0, 1⟩)
    let y : Element := .word (.int u) (.disjunction [-13, -4, -3, 3, 7])
    let params : Params := .preset 4 .sure .stop
    (Operation.shift .right).Accepts (.int t) (some (.int u)) (.int t) ∧ x.IsWord 8 (.int t) ∧
      IsOperand 8 (some (.int u)) (some y) ∧
      ∃ e, (x.apply 8 (.shift .right) (.start params (some y))).value = .ok (true, e) ∧
        (e.verdict = .exact → (e.empty = true ∨ e.result.isSome = true) ∧
          (e.outcomes = (Operation.shift .right).results params.stops t u t x.values
            (operandValues (some y)) ↔
              ¬(Operation.shift .right).ShiftsAcrossGap params.stops x y)) := by
  intro t u x y params
  have h : (Operation.shift .right).Accepts (.int t) (some (.int u)) (.int t) :=
    ⟨trivial, by decide, rfl⟩
  have hx : x.IsWord 8 (.int t) := by decide
  have hy : IsOperand 8 (some (.int u)) (some y) := by decide
  exact ⟨h, hx, hy, outcomes_eq_results_iff_of_exact params h hx hy⟩

/-- The smallest exact verdict that is not true: both values flow out, and no execution ends. -/
theorem exact_shift_across_gap :
    let t : IntType := ⟨1, false, by decide, by decide⟩
    let u : IntType := ⟨5, true, by decide, by decide⟩
    let x : Element := .word (.int t) (.interval ⟨0, 1⟩)
    let y : Element := .word (.int u) (.disjunction [-13, -4, -3, 3, 7])
    ((x.apply 8 (.shift .right) (.start (.preset 4 .sure .stop) (some y))).value.toOption.map
        fun r => (r.1, r.2.verdict, r.2.empty, r.2.result)) = some (true, .exact, false, some x) ∧
      ∀ a ∈ x.values, ∀ b ∈ y.values,
        (Operation.shift .right).execute true t u t a b = .pruned := by
  refine ⟨by rfl, fun a _ b hb => ?_⟩
  rw [mem_values_word, Shape.contains_disjunction] at hb
  refine if_neg ?_
  rintro ⟨h1, h2⟩
  have h2 : b < 1 := h2
  have : b = 0 := by omega
  subst this
  simp at hb

end Element

end ScalarDomain
