import ScalarDomain.Proofs.Backward.Narrowing
import ScalarDomain.Proofs.Forward.Monotone

/-!
# Errors that end executions only prune

What becomes of an erroneous execution is the only difference between the two error policies: it
ends, or it goes on with some value. So every step of a transfer whose errors end the execution lies
within the same step of the transfer whose errors do not (`Step.ofRange_prunes`,
`Step.foldWord_prunes`), and what the one transfer ends with is below what the other one does. Where
errors do not end the execution, some value always flows out.
-/

namespace ScalarDomain

variable {limit : ℕ} {op : Operation} {w out : WordType} {arg : Option WordType} {s : Shape}
  {x : Element} {y : Option Element}

/-! ### Executions -/

namespace Operation

variable {t u o : IntType} {a b : ℤ} {Z : Set ℤ}

/-- An execution that errors do not end may end with at least the same values. -/
theorem execute_prunes :
    (op.execute true t u o a b).values o ⊆ (op.execute false t u o a b).values o := by
  have hstored : ∀ m, (Outcome.stored true o m).values o ⊆ (Outcome.stored false o m).values o := by
    intro m v hv
    obtain ⟨hm, rfl⟩ := Outcome.mem_values_stored_true.mp hv
    exact Outcome.mem_values_stored_false.mpr (IntType.wrap_eq_self hm).symm
  have hfailed : (Outcome.failed true).values o ⊆ (Outcome.failed false).values o :=
    fun v hv => absurd (Outcome.mem_values_failed.mp hv).1 (by decide)
  cases op with
  | prev | next | opposite | castInt _ | plus | minus | times => exact hstored _
  | divide =>
    simp only [execute]
    split_ifs
    exacts [hfailed, hstored _]
  | modulo =>
    simp only [execute]
    split_ifs
    exacts [hfailed, subset_rfl]
  | shift d =>
    by_cases hvalid : 0 ≤ b ∧ b < t.width
    · simp only [execute, if_pos hvalid]
      exact subset_rfl
    · simp only [execute, if_neg hvalid]
      exact hfailed
  | extend fill bits => cases fill <;> exact subset_rfl
  | extremum e => cases e <;> exact subset_rfl
  | rotate d => cases d <;> exact subset_rfl
  | _ => exact subset_rfl

theorem Reaches.propagate (h : op.Reaches true t u o Z a b) : op.Reaches false t u o Z a b := by
  obtain ⟨v, hZ, hv⟩ := h
  exact ⟨v, hZ, execute_prunes hv⟩

/-- An execution that errors do not end ends with some value. -/
theorem nonempty_execute (hop : ∀ dest, op ≠ .castFloat dest) :
    ((op.execute false t u o a b).values o).Nonempty := by
  have hstored : ∀ m, ((Outcome.stored false o m).values o).Nonempty := fun m =>
    ⟨_, Outcome.mem_values_stored_false.mpr rfl⟩
  have hfailed : ((Outcome.failed false).values o).Nonempty :=
    ⟨o.minValue, Outcome.mem_values_failed.mpr ⟨rfl, (Bounds.Proper.full o).lo_mem⟩⟩
  have hvalue : ∀ v, ((Outcome.value v).values o).Nonempty := fun v => ⟨v, rfl⟩
  cases op with
  | castFloat dest => exact absurd rfl (hop dest)
  | prev | next | opposite | castInt _ | plus | minus | times => exact hstored _
  | divide =>
    simp only [execute]
    split_ifs
    exacts [hfailed, hstored _]
  | modulo =>
    simp only [execute]
    split_ifs
    exacts [hfailed, hvalue _]
  | shift d =>
    by_cases hvalid : 0 ≤ b ∧ b < t.width
    · simp only [execute, if_pos hvalid]
      cases d <;> exact hvalue _
    · simp only [execute, if_neg hvalid]
      exact hfailed
  | extend fill bits => cases fill <;> exact hvalue _
  | extremum e => cases e <;> exact hvalue _
  | rotate d => cases d <;> exact hvalue _
  | _ => exact hvalue _

end Operation

/-! ### Steps -/

namespace Step

variable {r : Range} {exact exact' : Bool} {argument : Option WordOperand} {Y : Set ℤ}

/-- Where errors end executions a range is cut at the ends of the type, and the values that are left
stay where they are when it wraps around. -/
theorem overflowing_prunes (hle : r.lo ≤ r.hi) :
    (overflowing true w r exact).delivery.values ⊆
      (overflowing false w r exact').delivery.values := by
  intro v hv
  obtain ⟨hr, hv⟩ := mem_values_overflowing_true.mp hv
  rw [values_overflowing_false hle]
  split
  · -- the range is translated, and by nothing, since a value that fits stays where it is
    next hshort =>
    obtain ⟨k, hk⟩ := exists_wrap_translation hle hshort.1 hshort.2
    have h1 := hk v hr
    have h2 := hk r.lo ⟨le_rfl, hle⟩
    have h3 := hk r.hi ⟨hle, le_rfl⟩
    rw [IntType.wrap_eq_self hv] at h1
    obtain ⟨hlo, hhi⟩ := hr
    simp only [Bounds.mem_toSet, Bounds.mem_mk]
    omega
  · exact Bounds.mem_full.mpr hv

/-- The results between some corners. -/
theorem overflowing_prunes_of_span {cs : List ℤ} (hs : Bounds.span? cs = some r) :
    (overflowing true w r exact).delivery.values ⊆
      (overflowing false w r exact').delivery.values :=
  overflowing_prunes (Bounds.le_of_span?_eq_some hs (Bounds.ends_mem_of_span?_eq_some hs).1).2

/-- A value that is stored where errors end executions is stored where they do not. -/
theorem foldWord_prunes {a b : ℤ} (h : op.Accepts w arg out) (ha : w.view.contains a = true)
    (hb : ∀ u, arg = some u → u.view.contains b = true) :
    (foldWord true op w (arg.getD w) (.word out) a b).delivery.values ⊆
      (foldWord false op w (arg.getD w) (.word out) a b).delivery.values :=
  (foldWord_equals true h ha hb).values_subset.trans
    (Operation.execute_prunes.trans (foldWord_equals false h ha hb).covers.subset_values)

/-- A division by a range that may be zero gives any value, and otherwise errors are up to the
division proper. -/
theorem division_prunes {q : Range} {divide divide' : List Range → Step}
    (hany : ∀ v ∈ (division true w q divide).delivery.values, w.view.contains v = true)
    (hdivide : ∀ parts, (divide parts).delivery.values ⊆ (divide' parts).delivery.values) :
    (division true w q divide).delivery.values ⊆ (division false w q divide').delivery.values := by
  by_cases h0 : q.contains 0 = true
  · have hfull : (division false w q divide').delivery.values = w.view.full.toSet := by
      simp only [division, h0, Bool.not_false, Bool.and_self, if_true, delivery_withErrors,
        values_anyWord]
    rw [hfull]
    exact fun v hv => Bounds.mem_full.mpr (hany v hv)
  · simp only [division, h0, Bool.false_and, Bool.false_eq_true, if_false]
    split_ifs
    · exact subset_rfl
    · exact hdivide _

/-- Products. -/
theorem timesRange_prunes {o : WordOperand} :
    (timesRange true w r o).delivery.values ⊆ (timesRange false w r o).delivery.values := by
  rw [timesRange, timesRange]
  split_ifs
  · exact subset_rfl
  · exact subset_rfl
  · simp only
    split
    · next hs => exact overflowing_prunes_of_span hs
    · exact subset_rfl

/-- Quotients by the parts of the divisor that are not zero. -/
theorem divideRange_prunes (parts : List Range) :
    (divideRange true w r parts).delivery.values ⊆
      (divideRange false w r parts).delivery.values := by
  simp only [divideRange]
  split
  · next hs => exact overflowing_prunes_of_span hs
  · exact subset_rfl

/-- A shift by an amount that may be invalid gives any value, and otherwise there is no error. -/
theorem shiftRange_prunes {d : Direction} {q : Range}
    (hany : ∀ v ∈ (shiftRange true d w r q).delivery.values, w.view.contains v = true) :
    (shiftRange true d w r q).delivery.values ⊆ (shiftRange false d w r q).delivery.values := by
  cases hinvalid : decide (q.lo < 0) || decide ((w.view.width : ℤ) ≤ q.hi) with
  | true =>
    have hfull : (shiftRange false d w r q).delivery.values = w.view.full.toSet := by
      simp only [shiftRange, hinvalid, Bool.not_false, Bool.and_self, if_true, delivery_withErrors,
        values_anyWord]
    rw [hfull]
    exact fun v hv => Bounds.mem_full.mpr (hany v hv)
  | false =>
    simp only [shiftRange, hinvalid, Bool.false_and]
    exact subset_rfl

/-- The operations on ranges, each by what becomes of its errors. -/
theorem ofRange_prunes (h : op.Accepts w arg out) (hr : r.Proper w.view)
    (hy : WordOperand.Represents arg argument Y) :
    (ofRange true op w (.word out) r argument).delivery.values ⊆
      (ofRange false op w (.word out) r argument).delivery.values := by
  have hcov := (ofRange_describes true h hr hy).1
  have hany : ∀ v ∈ (ofRange true op w (.word out) r argument).delivery.values,
      out.view.contains v = true := fun v hv => hcov.contains hv
  have hle := hr.le
  have hf := h.fits
  cases op with
  | castFloat dest => exact hf.elim
  | prev | next | opposite => exact overflowing_prunes (by simp; omega)
  | castInt dest => exact overflowing_prunes hle
  | plus | minus =>
    obtain ⟨rfl, rfl⟩ := hf
    cases argument with
    | none => exact hy.elim
    | some o =>
      have := hy.proper.le
      exact overflowing_prunes (by simp; omega)
  | times => exact timesRange_prunes
  | divide =>
    obtain ⟨rfl, rfl⟩ := hf
    exact division_prunes hany divideRange_prunes
  | modulo =>
    obtain ⟨rfl, rfl⟩ := hf
    exact division_prunes hany fun _ => subset_rfl
  | shift d =>
    obtain ⟨-, rfl⟩ := hf
    exact shiftRange_prunes hany
  | extremum e => cases e <;> exact subset_rfl
  | _ => exact subset_rfl

end Step

/-! ### Transfers -/

namespace Element

/-- Each step of a transfer whose errors end executions is within a step of the transfer whose
errors do not. -/
def Prunes (limit : ℕ) (op : Operation) (out : WordType) (x : Element) (y : Option Element) :
    Prop :=
  ∀ d ∈ deliveries limit true op out x y,
    ∃ d' ∈ deliveries limit false op out x y, d.values ⊆ d'.values

/-- Both plans are steps. -/
theorem prunes_of_step {step step' : Step}
    (hplan : Plan.of limit true op (.word out) x y = .step step)
    (hplan' : Plan.of limit false op (.word out) x y = .step step')
    (hvalues : step.delivery.values ⊆ step'.delivery.values) : Prunes limit op out x y := by
  rw [Prunes, deliveries_of_step hplan, deliveries_of_step hplan']
  rintro _ rfl
  exact ⟨_, rfl, hvalues⟩

/-- Both plans run the same nested transfers. -/
theorem prunes_of_run {cases : List (Element × Option Element)}
    (hrun : ∀ stops, deliveries limit stops op out x y =
      {d | ∃ c ∈ cases, d ∈ deliveries limit stops op out c.1 c.2})
    (hcases : ∀ c ∈ cases, Prunes limit op out c.1 c.2) : Prunes limit op out x y := by
  rw [Prunes, hrun, hrun]
  rintro d ⟨c, hc, hd⟩
  obtain ⟨d', hd', hvalues⟩ := hcases c hc d hd
  exact ⟨d', ⟨c, hc, hd'⟩, hvalues⟩

/-- Both plans decline, and the same promoted operand takes over. -/
theorem prunes_of_declined {promoted : Element}
    (hplan : ∀ stops, Plan.of limit stops op (.word out) x y = .declined)
    (hpromote : x.promote? = some promoted) (hx : Prunes limit op out promoted y) :
    Prunes limit op out x y := by
  rw [Prunes, deliveries_of_declined (hplan true) hpromote,
    deliveries_of_declined (hplan false) hpromote]
  exact hx

section

variable (h : op.Accepts w arg out)

include h

theorem prunes_interval {r : Range} (hy : IsOperand limit arg y)
    (hs : (Shape.interval r).Proper limit w) : Prunes limit op out (.word w (.interval r)) y := by
  have hstep := Step.ofRange_prunes h hs.2 (Operation.represents_operand hy)
  cases w <;> exact prunes_of_step rfl rfl hstep

theorem prunes_fold {v b : ℤ} (hv : w.view.contains v = true)
    (hb : ∀ u, arg = some u → u.view.contains b = true)
    (hfold : ∀ stops, Plan.fold? stops op w (.word out) v y =
      some (.step (.foldWord stops op w (arg.getD w) (.word out) v b))) :
    Prunes limit op out (.word w (.constant v)) y :=
  prunes_of_step (plan_fold (hfold true)) (plan_fold (hfold false)) (Step.foldWord_prunes h hv hb)

theorem prunes_constant {v : ℤ} (hy : IsOperand limit arg y) (hv : w.view.contains v = true) :
    Prunes limit op out (.word w (.constant v)) y := by
  rcases fold?_uniform op w out v hy with ⟨b, -, hb, hfold⟩ | ⟨u, t, rfl, rfl, ht, hfold⟩
  · exact prunes_fold h hv hb hfold
  have hplans : ∀ stops, Plan.of limit stops op (.word out) (.word w (.constant v))
      (some (.word u t)) =
        Plan.of limit true op (.word out) (.word w (.constant v)) (some (.word u t)) := by
    intro stops
    cases w <;> simp only [Plan.of, Plan.ofBit, Plan.ofConstant, hfold]
  rcases plan_unfolded limit h (hfold true) with
    ⟨vs, noted, hplan, hvs, -⟩ | ⟨-, ⟨-, -, errors, hplan⟩ | ⟨ty, rfl, hplan⟩⟩
  · refine prunes_of_run (fun stops => deliveries_of_arguments ((hplans stops).trans hplan))
      fun c hc => ?_
    obtain ⟨y', hy', rfl⟩ := List.mem_map.mp hc
    obtain ⟨n, hn, rfl⟩ := List.mem_map.mp hy'
    have hmem := ht.proper.contains ((hvs n).mp hn)
    rw [wordConstant_eq hmem]
    exact prunes_fold h hv (fun _ hu => Option.some.inj hu ▸ hmem) fun _ => rfl
  · exact prunes_of_step hplan ((hplans false).trans hplan) subset_rfl
  · exact prunes_of_declined (fun stops => (hplans stops).trans hplan) rfl
      (prunes_interval h hy ⟨by simp, .point hv⟩)

/-- Every word prunes, by the shape of the first operand. -/
theorem prunes (hy : IsOperand limit arg y) (hs : s.Proper limit w) :
    Prunes limit op out (.word w s) y := by
  have hrun : ∀ vs : List ℤ, (∀ v ∈ vs, w.view.contains v = true) →
      (∀ stops, Plan.of limit stops op (.word out) (.word w s) y =
        .members (vs.map (wordConstant w))) → Prunes limit op out (.word w s) y := by
    intro vs hvs hplan
    refine prunes_of_run (fun stops => deliveries_of_members (hplan stops)) fun c hc => ?_
    obtain ⟨x', hx', rfl⟩ := List.mem_map.mp hc
    obtain ⟨v, hv, rfl⟩ := List.mem_map.mp hx'
    rw [wordConstant_eq (hvs v hv)]
    exact prunes_constant h hy (hvs v hv)
  cases s with
  | constant v => exact prunes_constant h hy hs
  | interval r => exact prunes_interval h hy hs
  | disjunction vs => exact hrun vs hs.2.2.1 (fun _ => by cases w <;> rfl)
  | top =>
    cases w with
    | bit => exact hrun [0, 1] (by decide) fun _ => rfl
    | int t => exact prunes_of_declined (fun _ => rfl) rfl (prunes_interval h hy ⟨by simp, .full t⟩)

/-- Where errors do not end executions, some value flows out. -/
theorem nonempty_results (hx : x.IsWord limit w) (hy : IsOperand limit arg y) :
    (op.results false w.view (arg.getD w).view out.view x.values (operandValues y)).Nonempty := by
  obtain ⟨a, ha⟩ := hx.nonempty
  obtain ⟨b, hb⟩ := IsOperand.nonempty hy
  have hfloat : ∀ dest, op ≠ .castFloat dest := by
    rintro dest rfl
    exact h.fits.elim
  obtain ⟨v, hv⟩ := Operation.nonempty_execute hfloat
  exact ⟨v, a, ha, b, hb, hv⟩

/-- Forward transfer with at least three levels of nesting, under the two error policies: errors
that do not end executions leave a result, and it has all values of the other one. -/
theorem apply_prunes {depth : ℕ} (hdepth : 3 ≤ depth) (information : Information)
    (hx : x.IsWord limit w) (hy : IsOperand limit arg y) :
    ∃ e e',
      (x.apply limit op (.start (.preset depth information .stop) y)).value = .ok (true, e) ∧
      (x.apply limit op (.start (.preset depth information .propagate) y)).value = .ok (true, e') ∧
      (e.result = none ↔ e.empty = true) ∧ e'.empty = false ∧
      ∃ s', e'.result = some s' ∧ ∀ s, e.result = some s → s.values ⊆ s'.values := by
  have hbound :
      (Params.preset depth information .stop).creationBound.allows .interval = true := by
    cases information <;> rfl
  obtain ⟨s, rfl, hs⟩ := hx
  have hx : (word w s).IsWord limit w := isWord_word hs
  have hstop : Resolves limit op out (.preset depth information .stop) 3 (word w s) y _ :=
    resolves h hy hs.proper
  have hpropagate : Resolves limit op out (.preset depth information .propagate) 3 (word w s) y _ :=
    resolves h hy hs.proper
  obtain ⟨o, o', hle, htop, hends⟩ :=
    hstop.mono hpropagate rfl hbound (prunes h hy hs.proper)
  obtain ⟨hend, hend'⟩ := hends depth hdepth
  obtain ⟨⟨_, e⟩, he, rfl, ho⟩ := hend _ (Evaluation.fresh_start _ y) rfl rfl
  obtain ⟨⟨_, e'⟩, he', rfl, ho'⟩ := hend' _ (Evaluation.fresh_start _ y) rfl rfl
  -- some execution ends with a value, so there is a result
  obtain ⟨⟨_, e''⟩, he'', rfl, hr⟩ :=
    apply_reports (.preset depth information .propagate) h hx hy
  cases he'.symm.trans he''
  obtain ⟨v, hv⟩ := nonempty_results h hx hy
  have hempty : e'.empty = false := hr.empty_eq_false hv
  have hnone := ho.result_eq_none_iff (ne_top_of_le_ne_top htop hle)
  have hnone' := ho'.result_eq_none_iff htop
  refine ⟨e, e', he, he', hnone, hempty, ?_⟩
  cases hs' : e'.result with
  | none => exact absurd (hnone'.mp hs') (by simp [hempty])
  | some s' =>
    refine ⟨s', rfl, fun s hs v hv => ?_⟩
    have hlive : e.empty = false := by
      rw [← Bool.not_eq_true, ← hnone, hs]
      simp
    obtain ⟨-, s'', hs'', hv'⟩ := ho.outcomes_subset ho' hle htop ⟨hlive, s, hs, hv⟩
    cases hs'.symm.trans hs''
    exact hv'

end

end Element

end ScalarDomain
