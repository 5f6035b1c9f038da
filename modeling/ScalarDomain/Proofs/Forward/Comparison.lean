import ScalarDomain.Proofs.Forward.Arithmetic

/-!
# Comparisons, extrema and truth values on ranges

A comparison of two ranges is decided when it has one truth value on all pairs, and otherwise has
both: the ends of the ranges make it true and false, only an equality needs a common value. The
same holds of tests for zero and of connectives, which look at the landmarks of the operands.
-/

namespace ScalarDomain

/-! ### Comparisons -/

namespace Comparison

variable {c : Comparison} {r q : Range} {a b : ℤ}

/-- A decided comparison has the same truth on all pairs. -/
theorem holds_of_decide?_eq_some {v : Bool} (h : c.decide? r q = some v) (ha : a ∈ r)
    (hb : b ∈ q) : c.holds a b = v := by
  obtain ⟨ha1, ha2⟩ := ha
  obtain ⟨hb1, hb2⟩ := hb
  have heq : ∀ v, decide?.equality r q = some v → (a == b) = v := by
    intro v hv
    rw [decide?.equality] at hv
    split at hv
    · next hall =>
      simp only [Bool.and_eq_true, beq_iff_eq] at hall
      cases hv
      exact beq_iff_eq.mpr (by omega)
    · split at hv
      · cases hv
        exact beq_eq_false_iff_ne.mpr (by omega)
      · cases hv
  cases c with
  | equal => exact heq v h
  | different =>
    rw [decide?] at h
    obtain ⟨u, hu, rfl⟩ := Option.map_eq_some_iff.mp h
    rw [holds, heq u hu]
  | less | lessOrEqual | greaterOrEqual | greater =>
    rw [decide?] at h
    split at h
    · cases h
      exact decide_eq_true (by omega)
    · split at h
      · cases h
        exact decide_eq_false (by omega)
      · cases h

/-- An undecided comparison is true on one pair and false on another one. A common value of the two
ranges makes an equality true; the ends make all else. -/
theorem exists_of_decide?_eq_none {Y : Set ℤ} (hr : r.lo ≤ r.hi) (hlo : q.lo ∈ Y) (hhi : q.hi ∈ Y)
    (hle : q.lo ≤ q.hi) (hall : ∀ b ∈ q, b ∈ Y) (h : c.decide? r q = none) (v : Bool) :
    ∃ a ∈ r, ∃ b ∈ Y, c.holds a b = v := by
  have hrlo : r.lo ∈ r := ⟨le_rfl, hr⟩
  have hrhi : r.hi ∈ r := ⟨hr, le_rfl⟩
  have heq : decide?.equality r q = none → ∀ v, ∃ a ∈ r, ∃ b ∈ Y, (a == b) = v := by
    intro hn v
    rw [decide?.equality] at hn
    split at hn
    · cases hn
    split at hn
    · cases hn
    next hne hmeet =>
    simp only [Bool.and_eq_true, beq_iff_eq] at hne
    cases v with
    | true =>
      have hm : max r.lo q.lo ∈ q := ⟨le_max_right _ _, by omega⟩
      exact ⟨max r.lo q.lo, ⟨le_max_left _ _, by omega⟩, _, hall _ hm, beq_self_eq_true _⟩
    | false =>
      have hpair : r.lo ≠ q.hi ∨ r.hi ≠ q.lo := by omega
      rcases hpair with hp | hp
      · exact ⟨_, hrlo, _, hhi, beq_eq_false_iff_ne.mpr hp⟩
      · exact ⟨_, hrhi, _, hlo, beq_eq_false_iff_ne.mpr hp⟩
  cases c with
  | equal => exact heq h v
  | different =>
    rw [decide?, Option.map_eq_none_iff] at h
    obtain ⟨a, ha, b, hb, hv⟩ := heq h (!v)
    exact ⟨a, ha, b, hb, by rw [holds, hv, Bool.not_not]⟩
  | less | lessOrEqual =>
    rw [decide?] at h
    split at h
    · cases h
    split at h
    · cases h
    cases v with
    | true => exact ⟨_, hrlo, _, hhi, decide_eq_true (by omega)⟩
    | false => exact ⟨_, hrhi, _, hlo, decide_eq_false (by omega)⟩
  | greaterOrEqual | greater =>
    rw [decide?] at h
    split at h
    · cases h
    split at h
    · cases h
    cases v with
    | true => exact ⟨_, hrhi, _, hlo, decide_eq_true (by omega)⟩
    | false => exact ⟨_, hrlo, _, hhi, decide_eq_false (by omega)⟩

end Comparison

namespace Step

open Outcome

variable {stops : Bool} {w : WordType} {r : Range} {o : WordOperand} {Y : Set ℤ}

/-! ### Tests -/

section

variable {α : Type} {A : Set α} {f : α → Bool} {S : Set ℤ}

/-- A test with one truth value on a whole set. -/
private theorem ofBool_describes_of_forall {v : Bool}
    (hS : ∀ n, n ∈ S ↔ ∃ p ∈ A, n = if f p then 1 else 0) (hA : A.Nonempty)
    (hall : ∀ p ∈ A, f p = v) : (ofBool v).delivery.Describes .bit S := by
  obtain ⟨p, hp⟩ := hA
  refine ofBool_describes fun n => (hS n).trans ⟨?_, fun hn => ⟨p, hp, ?_⟩⟩
  · rintro ⟨q, hq, rfl⟩
    rw [hall q hq]
  · rwa [hall p hp]

/-- A test with both truth values. -/
private theorem truth_describes_of_exists
    (hS : ∀ n, n ∈ S ↔ ∃ p ∈ A, n = if f p then 1 else 0) (htrue : ∃ p ∈ A, f p = true)
    (hfalse : ∃ p ∈ A, f p = false) : (truth true true).delivery.Describes .bit S := by
  obtain ⟨p, hp, hfp⟩ := htrue
  obtain ⟨q, hq, hfq⟩ := hfalse
  refine truth_describes (fun n hn => ?_) (fun _ => (hS 1).mpr ⟨p, hp, by simp [hfp]⟩)
    fun _ => (hS 0).mpr ⟨q, hq, by simp [hfq]⟩
  obtain ⟨a, -, rfl⟩ := (hS n).mp hn
  split <;> simp

end

/-- The results of an operation that tests pairs of values. -/
private theorem mem_results_of_truth {op : Operation} {t u out : IntType} {X : Set ℤ}
    {f : ℤ × ℤ → Bool} (hop : ∀ a b, op.execute stops t u out a b = .truth (f (a, b))) (n : ℤ) :
    n ∈ op.results stops t u out X Y ↔ ∃ p ∈ X ×ˢ Y, n = if f p then 1 else 0 := by
  constructor
  · rintro ⟨a, ha, b, hb, hn⟩
    rw [hop, mem_values_truth] at hn
    exact ⟨(a, b), ⟨ha, hb⟩, hn⟩
  · rintro ⟨⟨a, b⟩, ⟨ha, hb⟩, hn⟩
    exact ⟨a, ha, b, hb, by rwa [hop, mem_values_truth]⟩

/-- A comparison has the truth value that the ends decide, or both. -/
theorem compare_describes {c : Comparison} (hr : r.lo ≤ r.hi) (hy : o.Abstracts w.view Y) :
    (match c.decide? r o.range with
      | some outcome => ofBool outcome
      | none => words .bit ⟨0, 1⟩ o.convex).delivery.Describes .bit
      ((Operation.compare c).results stops w.view w.view (WordType.bit).view r.toSet Y) := by
  have hS : ∀ n, n ∈ (Operation.compare c).results stops w.view w.view (WordType.bit).view r.toSet
      Y ↔ ∃ p ∈ r.toSet ×ˢ Y, n = if c.holds p.1 p.2 then 1 else 0 :=
    mem_results_of_truth fun _ _ => rfl
  split
  · next v hv =>
    exact ofBool_describes_of_forall hS ⟨(r.lo, _), ⟨le_rfl, hr⟩, hy.lo_mem⟩ fun p hp =>
      Comparison.holds_of_decide?_eq_some hv hp.1 (hy.mem _ hp.2)
  · next hn =>
    refine words_describes (fun _ => .full .bitView) (fun n hmem => ?_) fun hc n hmem => ?_
    · obtain ⟨p, -, rfl⟩ := (hS n).mp hmem
      rw [Bounds.mem_mk]
      split <;> simp
    · obtain ⟨v, rfl⟩ : ∃ v : Bool, n = if v then 1 else 0 := by
        rcases WordType.contains_view_bit.mp (IntType.contains_iff.mpr hmem) with rfl | rfl
        · exact ⟨false, rfl⟩
        · exact ⟨true, rfl⟩
      obtain ⟨a, ha, b, hb, hab⟩ := Comparison.exists_of_decide?_eq_none hr hy.lo_mem hy.hi_mem
        hy.proper.le (hy.convex hc) hn v
      exact (hS _).mpr ⟨(a, b), ⟨ha, hb⟩, by rw [hab]⟩

/-! ### Extrema -/

/-- The smaller values of two ranges: the ends are the smaller ends. -/
theorem min_describes (hr : r.Proper w.view) (hy : o.Abstracts w.view Y) :
    (words w ⟨min r.lo o.range.lo, min r.hi o.range.hi⟩ o.convex).delivery.Describes w
      ((Operation.extremum .min).results stops w.view w.view w.view r.toSet Y) := by
  have hb1 := hr.bounds
  have hb2 := hy.proper.bounds
  refine words_describes (fun hle => .of_bounds (by simp only; omega) hle (by simp only; omega))
    ?_ fun hc v hv => ?_
  · rintro v ⟨a, ha, b, hb, hv⟩
    rw [Operation.execute, mem_values_value] at hv
    have hb := hy.mem b hb
    exact hv ▸ ⟨min_le_min ha.1 hb.1, min_le_min ha.2 hb.2⟩
  · simp only [Bounds.mem_mk, le_min_iff, min_le_iff] at hv
    obtain ⟨hlo, hv1, hv2⟩ := hv
    -- the value comes from one operand, and the other one is at its largest
    rcases hlo with hlo | hlo
    · exact ⟨v, ⟨hlo, hv1⟩, _, hy.hi_mem, (min_eq_left hv2).symm⟩
    · exact ⟨r.hi, hr.hi_mem_self, v, hy.convex hc v ⟨hlo, hv2⟩, (min_eq_right hv1).symm⟩

/-- The larger values of two ranges: the ends are the larger ends. -/
theorem max_describes (hr : r.Proper w.view) (hy : o.Abstracts w.view Y) :
    (words w ⟨max r.lo o.range.lo, max r.hi o.range.hi⟩ o.convex).delivery.Describes w
      ((Operation.extremum .max).results stops w.view w.view w.view r.toSet Y) := by
  have hb1 := hr.bounds
  have hb2 := hy.proper.bounds
  refine words_describes (fun hle => .of_bounds (by simp only; omega) hle (by simp only; omega))
    ?_ fun hc v hv => ?_
  · rintro v ⟨a, ha, b, hb, hv⟩
    rw [Operation.execute, mem_values_value] at hv
    have hb := hy.mem b hb
    exact hv ▸ ⟨max_le_max ha.1 hb.1, max_le_max ha.2 hb.2⟩
  · simp only [Bounds.mem_mk, max_le_iff, le_max_iff] at hv
    obtain ⟨⟨hv1, hv2⟩, hhi⟩ := hv
    rcases hhi with hhi | hhi
    · exact ⟨v, ⟨hv1, hhi⟩, _, hy.lo_mem, (max_eq_left hv2).symm⟩
    · exact ⟨r.lo, hr.lo_mem_self, v, hy.convex hc v ⟨hv2, hhi⟩, (max_eq_right hv1).symm⟩

/-! ### Truth -/

/-- A test for zero known through the landmarks of a set. -/
theorem zeroTest_describes {s : Summary} {negated : Bool} {t : IntType} {S X : Set ℤ}
    (h : s.IsOf t X) (hX : X.Nonempty)
    (hS : ∀ v, v ∈ S ↔ ∃ a ∈ X, v = if (decide (a = 0) == negated) then 1 else 0) :
    (zeroTest s negated).delivery.Describes .bit S := by
  rw [zeroTest, if_neg (by simp [h.isBottom_eq_false hX])]
  split
  · next hz =>
    rw [h.isZero_iff] at hz
    exact ofBool_describes_of_forall hS hX fun a ha => by simp [hz a ha]
  next hz =>
  split
  · next hnz =>
    rw [h.isNonzero_iff] at hnz
    exact ofBool_describes_of_forall hS hX fun a ha => by simp [hnz a ha]
  · next hnz =>
    rw [h.isZero_iff] at hz
    rw [h.isNonzero_iff] at hnz
    push Not at hz hnz
    obtain ⟨a, ha, ha0⟩ := hz
    obtain ⟨b, hb, hb0⟩ := hnz
    cases negated with
    | false =>
      exact truth_describes_of_exists hS ⟨a, ha, by simp [ha0]⟩ ⟨b, hb, by simp [hb0]⟩
    | true =>
      exact truth_describes_of_exists hS ⟨b, hb, by simp [hb0]⟩ ⟨a, ha, by simp [ha0]⟩

/-- A connective of the truth of two sets, known through their landmarks. -/
theorem connective_describes {c : Connective} {s s' : Summary} {t u : IntType} {X : Set ℤ}
    (hs : s.IsOf t X) (hs' : s'.IsOf u Y) (hX : X.Nonempty) (hY : Y.Nonempty) :
    (connective c s s').delivery.Describes .bit
      ((Operation.connective c).results stops t u (WordType.bit).view X Y) := by
  have hS : ∀ n, n ∈ (Operation.connective c).results stops t u (WordType.bit).view X Y ↔
      ∃ p ∈ X ×ˢ Y, n = if c.combine (decide (p.1 ≠ 0)) (decide (p.2 ≠ 0)) then 1 else 0 :=
    mem_results_of_truth fun _ _ => rfl
  have hpairs : (X ×ˢ Y).Nonempty := hX.prod hY
  cases c with
  | and =>
    simp only [connective]
    split
    · next hz =>
      rw [Bool.or_eq_true, hs.isZero_iff, hs'.isZero_iff] at hz
      refine ofBool_describes_of_forall hS hpairs fun p hp => ?_
      rcases hz with hz | hz
      · simp [Connective.combine, hz _ hp.1]
      · simp [Connective.combine, hz _ hp.2]
    next hz =>
    split
    · next hn =>
      rw [Bool.and_eq_true, hs.isNonzero_iff, hs'.isNonzero_iff] at hn
      refine ofBool_describes_of_forall hS hpairs fun p hp => ?_
      simp [Connective.combine, hn.1 _ hp.1, hn.2 _ hp.2]
    · next hn =>
      rw [Bool.or_eq_true, hs.isZero_iff, hs'.isZero_iff] at hz
      rw [Bool.and_eq_true, hs.isNonzero_iff, hs'.isNonzero_iff, not_and_or] at hn
      push Not at hz hn
      obtain ⟨⟨a, ha, ha0⟩, b, hb, hb0⟩ := hz
      refine truth_describes_of_exists hS
        ⟨(a, b), ⟨ha, hb⟩, by simp [Connective.combine, ha0, hb0]⟩ ?_
      rcases hn with ⟨a', ha', h0⟩ | ⟨b', hb', h0⟩
      · exact ⟨(a', b), ⟨ha', hb⟩, by simp [Connective.combine, h0]⟩
      · exact ⟨(a, b'), ⟨ha, hb'⟩, by simp [Connective.combine, h0]⟩
  | or =>
    simp only [connective]
    split
    · next hn =>
      rw [Bool.or_eq_true, hs.isNonzero_iff, hs'.isNonzero_iff] at hn
      refine ofBool_describes_of_forall hS hpairs fun p hp => ?_
      rcases hn with hn | hn
      · simp [Connective.combine, hn _ hp.1]
      · simp [Connective.combine, hn _ hp.2]
    next hn =>
    split
    · next hz =>
      rw [Bool.and_eq_true, hs.isZero_iff, hs'.isZero_iff] at hz
      refine ofBool_describes_of_forall hS hpairs fun p hp => ?_
      simp [Connective.combine, hz.1 _ hp.1, hz.2 _ hp.2]
    · next hz =>
      rw [Bool.or_eq_true, hs.isNonzero_iff, hs'.isNonzero_iff] at hn
      rw [Bool.and_eq_true, hs.isZero_iff, hs'.isZero_iff, not_and_or] at hz
      push Not at hz hn
      obtain ⟨⟨a, ha, ha0⟩, b, hb, hb0⟩ := hn
      refine truth_describes_of_exists hS ?_
        ⟨(a, b), ⟨ha, hb⟩, by simp [Connective.combine, ha0, hb0]⟩
      rcases hz with ⟨a', ha', h0⟩ | ⟨b', hb', h0⟩
      · exact ⟨(a', b), ⟨ha', hb⟩, by simp [Connective.combine, h0]⟩
      · exact ⟨(a, b'), ⟨ha, hb'⟩, by simp [Connective.combine, h0]⟩

end Step

end ScalarDomain
