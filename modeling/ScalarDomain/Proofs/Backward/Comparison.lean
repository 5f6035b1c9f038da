import ScalarDomain.Proofs.Backward.Narrowing
import ScalarDomain.Proofs.Execution
import ScalarDomain.Proofs.Extremum
import ScalarDomain.Backward.Comparison

/-!
# Operands of comparisons, minima and maxima

A comparison with a known outcome restricts both operands to ranges in which each value still finds
a partner; only a difference may have to leave a value inside a range. The operands of an extremum
are cut at the ends of the result.
-/

namespace ScalarDomain

theorem Comparison.holds_negate (c : Comparison) (a b : ℤ) : c.negate.holds a b = !c.holds a b := by
  cases c <;> simp only [negate, holds, Bool.not_not] <;> grind

theorem Comparison.different_holds {a b : ℤ} : different.holds a b = true ↔ a ≠ b := by
  simp [holds]

namespace Narrowing

variable {stops c : Bool} {t u : IntType} {x y z : Range}

/-! ### Comparisons -/

/-- What is left of a range once a value is cut off its end. -/
private theorem mem_trim {own : Range} {v a : ℤ} (ha : a ∈ own) :
    (a ≠ v → a ∈ (trim own v).1) ∧ ((trim own v).2 = true → a ∈ (trim own v).1 → a ≠ v) := by
  obtain ⟨h1, h2⟩ := ha
  rw [trim]
  split_ifs <;> simp only [Bounds.mem_def, Bool.not_eq_true', Bool.and_eq_false_iff,
    decide_eq_false_iff_not] <;> omega

/-- A first operand that must differ from the only second one. -/
private theorem trim_inverts {b : ℤ} (hy : ∀ b' ∈ y, b' = b) :
    (first (trim x b).1 (trim x b).2).Inverts (fun a b => Comparison.different.holds a b = true)
      x.toSet y.toSet := by
  refine ⟨keeps_first fun a ha b' hb' h => ?_, isTight_first fun he a ha har b' hb' => ?_⟩
  · obtain rfl := hy b' hb'
    exact (mem_trim ha).1 (Comparison.different_holds.mp h)
  · obtain rfl := hy b' hb'
    exact Comparison.different_holds.mpr ((mem_trim ha).2 he har)

/-- The solver of a comparison that must hold. -/
theorem relate_inverts (cmp : Comparison) (hx : x.lo ≤ x.hi) (hy : y.lo ≤ y.hi) :
    (relate cmp ⟨t, x⟩ ⟨t, y⟩).Inverts (fun a b => cmp.holds a b = true) x.toSet y.toSet := by
  cases cmp with
  | less | lessOrEqual =>
    refine ⟨keeps_both fun a ha b hb h => ?_, isTight_both fun _ a ha har b hb hbs => ?_⟩
    · have ha : x.lo ≤ a ∧ a ≤ x.hi := ha
      have hb : y.lo ≤ b ∧ b ≤ y.hi := hb
      have h := of_decide_eq_true h
      simp only [Span.lo, Span.hi, Bounds.mem_mk]
      omega
    · -- the largest second and the smallest first operand are partners for every value
      simp only [Span.lo, Span.hi, Bounds.mem_mk] at har hbs
      exact ⟨⟨y.hi, ⟨hy, le_rfl⟩, decide_eq_true (by omega)⟩,
        x.lo, ⟨le_rfl, hx⟩, decide_eq_true (by omega)⟩
  | greater | greaterOrEqual =>
    refine ⟨keeps_both fun a ha b hb h => ?_, isTight_both fun _ a ha har b hb hbs => ?_⟩
    · have ha : x.lo ≤ a ∧ a ≤ x.hi := ha
      have hb : y.lo ≤ b ∧ b ≤ y.hi := hb
      have h := of_decide_eq_true h
      simp only [Span.lo, Span.hi, Bounds.mem_mk]
      omega
    · simp only [Span.lo, Span.hi, Bounds.mem_mk] at har hbs
      exact ⟨⟨y.lo, ⟨le_rfl, hy⟩, decide_eq_true (by omega)⟩,
        x.hi, ⟨hx, le_rfl⟩, decide_eq_true (by omega)⟩
  | equal =>
    refine ⟨keeps_both fun a ha b hb h => ?_, isTight_both fun _ a ha har b hb hbs => ?_⟩
    · have ha : x.lo ≤ a ∧ a ≤ x.hi := ha
      have hb : y.lo ≤ b ∧ b ≤ y.hi := hb
      have h : a = b := by simpa [Comparison.holds] using h
      simp only [Span.lo, Span.hi, Bounds.mem_mk]
      omega
    · simp only [Span.lo, Span.hi, Bounds.mem_mk] at har hbs
      refine ⟨⟨a, ⟨?_, ?_⟩, by simp [Comparison.holds]⟩,
        b, ⟨?_, ?_⟩, by simp [Comparison.holds]⟩ <;> omega
  | different =>
    rw [relate]
    cases hxv : (⟨t, x⟩ : Span).value? with
    | some v =>
      have hvx : ∀ a ∈ x, a = v := fun a ha => Span.eq_of_value?_eq_some hxv ha
      cases hyv : (⟨t, y⟩ : Span).value? with
      | some v' =>
        have hvy : ∀ b ∈ y, b = v' := fun b hb => Span.eq_of_value?_eq_some hyv hb
        by_cases heq : v = v'
        · simp only [if_pos heq]
          refine ⟨fun a ha b hb h => ?_, trivial⟩
          rw [hvx a ha, hvy b hb, heq] at h
          simp [Comparison.holds] at h
        · simp only [if_neg heq]
          exact trim_inverts hvy
      | none =>
        have h := trim_inverts (x := y) hvx
        have hflip : flip (fun a b : ℤ => Comparison.different.holds a b = true) =
            fun a b => Comparison.different.holds a b = true := by
          funext a b
          rw [flip, Comparison.different_holds, Comparison.different_holds, ne_comm]
        rw [← hflip]
        exact ⟨h.keeps.swap, h.tight.swap⟩
    | none =>
      cases hyv : (⟨t, y⟩ : Span).value? with
      | some v' => exact trim_inverts fun b hb => Span.eq_of_value?_eq_some hyv hb
      | none =>
        -- both ranges have two values, so that every value has a partner
        have hother : ∀ r : Range, r.lo ≤ r.hi → r.lo ≠ r.hi → ∀ v : ℤ, ∃ v' ∈ r, v ≠ v' := by
          intro r hr hne v
          by_cases hv : v = r.lo
          · exact ⟨r.hi, ⟨hr, le_rfl⟩, by omega⟩
          · exact ⟨r.lo, ⟨le_rfl, hr⟩, hv⟩
        refine ⟨fun a _ b _ _ => by simp, fun _ a _ _ b _ _ => ?_⟩
        obtain ⟨b', hb', hne⟩ := hother y hy (Span.value?_eq_none.mp hyv) a
        obtain ⟨a', ha', hne'⟩ := hother x hx (Span.value?_eq_none.mp hxv) b
        exact ⟨⟨b', hb', Comparison.different_holds.mpr hne⟩,
          a', ha', Comparison.different_holds.mpr hne'.symm⟩

/-- An outcome that is known is a comparison that must hold, and one that is not says nothing. -/
theorem compare_inverts (cmp : Comparison) {o : IntType} (hx : x.lo ≤ x.hi) (hy : y.lo ≤ y.hi)
    (hz : z.lo ≤ z.hi) (h0 : 0 ≤ z.lo) (h1 : z.hi ≤ 1) :
    (compare cmp ⟨⟨t, x⟩, some ⟨t, y⟩, ⟨o, z⟩, c⟩).Inverts
      ((Operation.compare cmp).Reaches stops t u o z.toSet) x.toSet y.toSet := by
  have hR : ∀ a b, (Operation.compare cmp).Reaches stops t u o z.toSet a b ↔
      (if cmp.holds a b = true then 1 else 0) ∈ z := by
    intro a b
    exact ⟨fun ⟨v, hv, h⟩ => (Outcome.mem_values_truth.mp h) ▸ hv, fun h => ⟨_, h, rfl⟩⟩
  rw [compare]
  cases hv : (⟨o, z⟩ : Span).value? with
  | none =>
    have hne : z.lo ≠ z.hi := Span.value?_eq_none.mp hv
    have hall : ∀ a b, (Operation.compare cmp).Reaches stops t u o z.toSet a b := by
      intro a b
      rw [hR, Bounds.mem_def]
      split <;> omega
    exact ⟨fun a _ b _ _ => by simp, fun _ a ha _ b hb _ => ⟨⟨b, hb, hall a b⟩, a, ha, hall a b⟩⟩
  | some v =>
    obtain ⟨hlo, hhi⟩ : z.lo = v ∧ z.hi = v := Span.value?_eq_some.mp hv
    rcases (show v = 0 ∨ v = 1 by omega) with rfl | rfl
    · have heq : (Operation.compare cmp).Reaches stops t u o z.toSet =
          fun a b => cmp.negate.holds a b = true := by
        funext a b
        rw [hR, Comparison.holds_negate, Bounds.mem_def, hlo, hhi]
        cases cmp.holds a b <;> simp
      rw [heq]
      exact relate_inverts cmp.negate hx hy
    · have heq : (Operation.compare cmp).Reaches stops t u o z.toSet =
          fun a b => cmp.holds a b = true := by
        funext a b
        rw [hR, Bounds.mem_def, hlo, hhi]
        cases cmp.holds a b <;> simp
      rw [heq]
      exact relate_inverts cmp hx hy

/-! ### Minima and maxima -/

private theorem refine?_spec (e : Extremum) {a b : ℤ} (ha : a ∈ x) (hb : b ∈ y)
    (h : (Operation.extremum e).Reaches stops t u t z.toSet a b) :
    ∃ p ∈ e.refine? intLess x y z, a ∈ p.1 ∧ b ∈ p.2 := by
  obtain ⟨v, hv, hR⟩ := h
  have hsel : v = e.select a b := by cases e <;> exact hR
  exact Extremum.exists_refine? (fun _ _ => decide_eq_true_iff) ⟨ha, hb, hsel ▸ hv⟩

/-- An extremum is one of its operands, and the other one is no more extreme. -/
theorem extremum_inverts (e : Extremum) :
    (extremum e ⟨⟨t, x⟩, some ⟨t, y⟩, ⟨t, z⟩, c⟩).Inverts
      ((Operation.extremum e).Reaches stops t u t z.toSet) x.toSet y.toSet := by
  rw [extremum]
  split
  · next r s hp =>
    refine ⟨keeps_both fun a ha b hb hR => ?_, isTight_both fun h => absurd h Bool.false_ne_true⟩
    obtain ⟨p, hp', hab⟩ := refine?_spec e ha hb hR
    cases hp.symm.trans hp'
    exact hab
  · next hn =>
    refine ⟨fun a ha b hb hR => ?_, trivial⟩
    obtain ⟨p, hp, -⟩ := refine?_spec e ha hb hR
    cases hn.symm.trans hp

end Narrowing

end ScalarDomain
