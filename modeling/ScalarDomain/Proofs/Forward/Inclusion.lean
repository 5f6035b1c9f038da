import ScalarDomain.Proofs.Forward.Interval

/-!
# Larger operands deliver more

The transfer of a range is monotone: if a range and a second operand without gaps lie within others,
the delivered range lies within the other one (`Step.ofRange_mono`).
-/

namespace ScalarDomain

/-! ### Delivered values -/

namespace Delivery

variable {out : WordType} {S S' : Set ℤ} {d d' : Delivery}

/-- The words that are delivered. -/
def values : Delivery → Set ℤ
  | words _ r _ => r.toSet
  | _ => ∅

/-- The ends of what is delivered belong to a set. -/
def IsSpanned (S : Set ℤ) : Delivery → Prop
  | words _ r _ => r.lo ≤ r.hi → r.lo ∈ S ∧ r.hi ∈ S
  | _ => True

/-- What is delivered is called exact. -/
def IsExact : Delivery → Prop
  | words _ _ exact => exact = true
  | _ => True

/-- An exact and tight delivery has its ends in the set. -/
theorem IsTight.isSpanned (h : d.IsTight S) (hd : d.IsExact) : d.IsSpanned S := by
  cases d with
  | words ty r exact => exact fun hle => ⟨h hd _ ⟨le_rfl, hle⟩, h hd _ ⟨hle, le_rfl⟩⟩
  | _ => trivial

/-- What is delivered are values of the result type. -/
theorem Covers.contains {v : ℤ} (h : d.Covers out S) (hv : v ∈ d.values) :
    out.view.contains v = true := by
  cases d with
  | words ty r exact =>
    have hv : v ∈ r := hv
    exact (h.2.1 (hv.1.trans hv.2)).contains hv
  | _ => exact absurd hv (Set.notMem_empty v)

/-- A set that is covered is delivered. -/
theorem Covers.subset_values (h : d.Covers out S) : S ⊆ d.values := by
  cases d with
  | nothing => exact h.subset
  | words ty r exact => exact h.2.2
  | floats => exact h.elim

theorem Equals.values_subset (h : d.Equals out S) : d.values ⊆ S := by
  cases d with
  | words ty r exact => exact h.within
  | _ => exact Set.empty_subset _

/-- A delivery whose ends are covered lies within the other one, which is a range. -/
theorem IsSpanned.values_subset (h : d.IsSpanned S) (hS : S ⊆ S') (hd' : d'.Covers out S') :
    d.values ⊆ d'.values := by
  intro v hv
  cases d with
  | words ty r exact =>
    obtain ⟨h1, h2⟩ := hv
    obtain ⟨hlo, hhi⟩ := h (h1.trans h2)
    cases d' with
    | nothing => exact absurd (hS hlo) (hd' ▸ Set.notMem_empty _)
    | floats => exact hd'.elim
    | words ty' r' exact' =>
      exact ⟨(hd'.2.2 _ (hS hlo)).1.trans h1, h2.trans (hd'.2.2 _ (hS hhi)).2⟩
  | _ => exact absurd hv (Set.notMem_empty v)

end Delivery

namespace Bounds

variable {r r' : Range}

/-- One range lies within another one. -/
def Within (r r' : Range) : Prop :=
  r'.lo ≤ r.lo ∧ r.hi ≤ r'.hi

theorem Within.mem {v : ℤ} (h : r.Within r') (hv : v ∈ r) : v ∈ r' :=
  ⟨h.1.trans hv.1, hv.2.trans h.2⟩

theorem Within.toSet_subset (h : r.Within r') : r.toSet ⊆ r'.toSet := fun _ => h.mem

end Bounds

/-- More operands have more results. -/
theorem Operation.results_mono {stops : Bool} {op : Operation} {t u out : IntType}
    {X X' Y Y' : Set ℤ} (hX : X ⊆ X') (hY : Y ⊆ Y') :
    op.results stops t u out X Y ⊆ op.results stops t u out X' Y' := by
  rintro v ⟨a, ha, b, hb, hv⟩
  exact ⟨a, hX ha, b, hY hb, hv⟩

/-! ### Operands within each other -/

namespace WordOperand

/-- Both second operands have all integers of their ranges as values, one range lies within the
other one, and it has one value if the other one is a constant. -/
structure Refines (u : IntType) (o o' : WordOperand) : Prop where
  /-- The first operand has no gaps. -/
  abstracts : o.Abstracts u o.range.toSet
  /-- The second operand has no gaps. -/
  abstracts' : o'.Abstracts u o'.range.toSet
  /-- The first operand is known to have no gaps. -/
  convex : o.convex = true
  /-- The first range lies within the second. -/
  within : o.range.Within o'.range
  /-- A constant has nothing but itself within. -/
  constant : ∀ c, o'.constant = some c → o.constant = some c

/-- Second operands of an operation, of which both or none are present. -/
inductive RefinesAll : Option WordType → Option WordOperand → Option WordOperand → Prop
  | absent : RefinesAll none none none
  | present {u : WordType} {o o' : WordOperand} (h : o.Refines u.view o') :
      RefinesAll (some u) (some o) (some o')

/-- The values of a second operand without gaps; a missing one is the dummy `0`. -/
def span (argument : Option WordOperand) : Set ℤ :=
  argument.elim {0} (·.range.toSet)

/-- Both second operands represent their ranges. -/
theorem RefinesAll.represents {arg : Option WordType} {argument argument' : Option WordOperand}
    (h : RefinesAll arg argument argument') :
    Represents arg argument (span argument) ∧ Represents arg argument' (span argument') ∧
      span argument ⊆ span argument' := by
  cases h with
  | absent => exact ⟨rfl, rfl, subset_rfl⟩
  | present h => exact ⟨h.abstracts, h.abstracts', h.within.toSet_subset⟩

end WordOperand

namespace Step

open Outcome

variable {stops exact exact' : Bool} {w out : WordType} {r r' s s' : Range} {o o' : WordOperand}
  {S : Set ℤ}

@[simp] theorem values_words (ty : WordType) (r : Range) (exact : Bool) :
    (words ty r exact).delivery.values = r.toSet := rfl

@[simp] theorem values_anyWord (ty : WordType) :
    (anyWord ty).delivery.values = ty.view.full.toSet := rfl

/-! ### Results that may overflow -/

/-- Where errors end the execution, the values of a span that fit are delivered. -/
theorem mem_values_overflowing_true {v : ℤ} :
    v ∈ (overflowing true w r exact).delivery.values ↔ v ∈ r ∧ w.view.contains v = true := by
  rw [overflowing, IntType.contains_iff]
  split
  · next h =>
    simp only [Bool.and_eq_true, Bool.not_eq_true', decide_eq_false_iff_not, not_lt] at h
    rw [values_words, Bounds.mem_toSet, Bounds.mem_def]
    omega
  · simp only [if_true, Delivery.values, Bounds.mem_toSet, Bounds.mem_def]
    omega

/-- Where they do not, a span is delivered wrapped around, if it stays in order and is shorter than
the type, and else every value. -/
theorem values_overflowing_false (hle : r.lo ≤ r.hi) :
    (overflowing false w r exact).delivery.values =
      if r.hi - r.lo + 1 < w.view.modulus ∧ w.view.wrap r.lo ≤ w.view.wrap r.hi then
        (⟨w.view.wrap r.lo, w.view.wrap r.hi⟩ : Range).toSet
      else w.view.full.toSet := by
  have hmod := w.view.modulus_eq
  rw [overflowing]
  split
  · next h =>
    -- without an overflow nothing is wrapped, and the longest range is that of all values
    simp only [Bool.and_eq_true, Bool.not_eq_true', decide_eq_false_iff_not, not_lt] at h
    have hlo : w.view.wrap r.lo = r.lo :=
      IntType.wrap_eq_self (IntType.contains_iff.mpr ⟨by omega, by omega⟩)
    have hhi : w.view.wrap r.hi = r.hi :=
      IntType.wrap_eq_self (IntType.contains_iff.mpr ⟨by omega, by omega⟩)
    rw [values_words, hlo, hhi]
    split
    · rfl
    · ext v
      simp only [Bounds.mem_toSet, Bounds.mem_def, IntType.full]
      omega
  · simp only [Bool.false_eq_true, if_false]
    split
    · next hlong => rw [if_neg (by omega)]; rfl
    · next hshort =>
      split
      · next hwrap => rw [if_pos ⟨by omega, hwrap⟩]; rfl
      · next hwrap => rw [if_neg (fun h => hwrap h.2)]; rfl

/-- More mathematical results store more. -/
theorem overflowing_mono (hle : r.lo ≤ r.hi) (h : r.Within r') :
    (overflowing stops w r exact).delivery.values ⊆
      (overflowing stops w r' exact').delivery.values := by
  obtain ⟨hlo, hhi⟩ := h
  have hle' : r'.lo ≤ r'.hi := by omega
  cases stops with
  | true =>
    intro v hv
    rw [mem_values_overflowing_true] at hv ⊢
    exact ⟨⟨hlo.trans hv.1.1, hv.1.2.trans hhi⟩, hv.2⟩
  | false =>
    rw [values_overflowing_false hle, values_overflowing_false hle']
    by_cases hshort' :
        r'.hi - r'.lo + 1 < w.view.modulus ∧ w.view.wrap r'.lo ≤ w.view.wrap r'.hi
    · -- the larger range is translated, and so is the smaller one
      obtain ⟨k, hk⟩ := exists_wrap_translation hle' hshort'.1 hshort'.2
      have h1 := hk r.lo ⟨hlo, by omega⟩
      have h2 := hk r.hi ⟨by omega, hhi⟩
      have h3 := hk r'.lo ⟨le_rfl, hle'⟩
      have h4 := hk r'.hi ⟨hle', le_rfl⟩
      rw [if_pos hshort', if_pos ⟨by omega, by omega⟩]
      intro v hv
      simp only [Bounds.mem_toSet, Bounds.mem_mk] at hv ⊢
      omega
    · intro v hv
      rw [if_neg hshort', Bounds.mem_toSet, Bounds.mem_full]
      split at hv
      · exact IntType.contains_of_between (IntType.contains_wrap _ _) (IntType.contains_wrap _ _)
          hv.1 hv.2
      · exact Bounds.mem_full.mp hv

/-- The results between some corners. -/
theorem overflowing_mono_of_span {cs : List ℤ} (hs : Bounds.span? cs = some s)
    (h : ∀ c ∈ cs, c ∈ r') :
    (overflowing stops w s exact).delivery.values ⊆
      (overflowing stops w r' exact').delivery.values := by
  obtain ⟨hlo, hhi⟩ := Bounds.ends_mem_of_span?_eq_some hs
  exact overflowing_mono (Bounds.le_of_span?_eq_some hs hlo).2 ⟨(h _ hlo).1, (h _ hhi).2⟩

/-! ### Hulls -/

/-- A hull lies within whatever range holds the ends of all its parts. -/
theorem hullStep_mono {images : List Range} {d : Delivery}
    (h : ∀ i ∈ images, i.lo ∈ d.values ∧ i.hi ∈ d.values) :
    (hullStep w images exact).delivery.values ⊆ d.values := by
  rw [hullStep]
  split
  · next hull hh =>
    obtain ⟨⟨i, hi, hlo⟩, j, hj, hhi⟩ := Bounds.exists_ends_of_hull?_eq_some hh
    have h1 := (h i hi).1
    have h2 := (h j hj).2
    intro v hv
    cases d with
    | words ty r exact =>
      exact ⟨(hlo ▸ h1.1).trans hv.1, hv.2.trans (hhi ▸ h2.2)⟩
    | _ => exact absurd h1 (Set.notMem_empty _)
  · exact Set.empty_subset _

/-- A hull delivers all values of its images. -/
theorem mem_values_hullStep {images : List Range} {i : Range} {v : ℤ} (hi : i ∈ images)
    (hv : v ∈ i) : v ∈ (hullStep w images exact).delivery.values := by
  obtain ⟨hull, hh⟩ := Bounds.exists_hull? hi
  rw [hullStep, hh]
  exact Bounds.mem_of_hull?_eq_some hh hi hv

/-- A hull has its ends in a set if the images do. -/
theorem hullStep_isSpanned {images : List Range}
    (h : ∀ i ∈ images, i.lo ∈ S ∧ i.hi ∈ S) :
    (hullStep w images exact).delivery.IsSpanned S := by
  rw [hullStep]
  split
  · next hull hh =>
    obtain ⟨⟨i, hi, hlo⟩, j, hj, hhi⟩ := Bounds.exists_ends_of_hull?_eq_some hh
    exact fun _ => ⟨hlo ▸ (h i hi).1, hhi ▸ (h j hj).2⟩
  · trivial

/-! ### Products and quotients -/

/-- Products grow with the operands. -/
theorem timesRange_mono (hr : r.Proper w.view) (hr' : r'.Proper w.view) (h : r.Within r')
    (hy : o.Refines w.view o') :
    (timesRange stops w r o).delivery.values ⊆ (timesRange stops w r' o').delivery.values := by
  by_cases hc : o.constant = some 0 ∨ o.constant = some 1
  · -- a factor zero or one is exact
    have hexact : (timesRange stops w r o).delivery.IsExact := by
      rw [timesRange]
      rcases hc with hc | hc <;> simp [hc, Delivery.IsExact, words]
    exact ((times_describes hr hy.abstracts).tight.isSpanned hexact).values_subset
      (Operation.results_mono h.toSet_subset hy.within.toSet_subset)
      (times_describes hr' hy.abstracts').covers
  · obtain ⟨h0, h1⟩ := not_or.mp hc
    rw [timesRange, timesRange, if_neg h0, if_neg h1, if_neg fun h => h0 (hy.constant _ h),
      if_neg fun h => h1 (hy.constant _ h)]
    have hproducts : ∀ p q : Range,
        ∃ s, Bounds.span? [p.lo * q.lo, p.lo * q.hi, p.hi * q.lo, p.hi * q.hi] = some s :=
      fun p q => Bounds.exists_span? List.mem_cons_self
    obtain ⟨s, hs⟩ := hproducts r o.range
    obtain ⟨s', hs'⟩ := hproducts r' o'.range
    simp only [hs, hs']
    have hcorner : ∀ c ∈ [r.lo * o.range.lo, r.lo * o.range.hi, r.hi * o.range.lo,
        r.hi * o.range.hi], c ∈ s' := by
      have hlo := h.mem hr.lo_mem_self
      have hhi := h.mem hr.hi_mem_self
      have hqlo := hy.within.mem hy.abstracts.proper.lo_mem_self
      have hqhi := hy.within.mem hy.abstracts.proper.hi_mem_self
      simp only [List.mem_cons, List.not_mem_nil, or_false, forall_eq_or_imp, forall_eq]
      exact ⟨mul_mem_span hlo hqlo hs', mul_mem_span hlo hqhi hs', mul_mem_span hhi hqlo hs',
        mul_mem_span hhi hqhi hs'⟩
    exact overflowing_mono_of_span hs hcorner

/-- Divisors other than zero are left to the division proper. -/
theorem delivery_division {divide : List Range → Step} {q : Range}
    (h : ¬(q.contains 0 && !stops) = true) (hparts : nonzeroParts q ≠ []) :
    (division stops w q divide).delivery = (divide (nonzeroParts q)).delivery := by
  simp only [division, if_neg h, if_neg (mt List.isEmpty_iff.mp hparts), delivery_withErrors]

/-- A division grows with the operands if its quotients do. -/
theorem division_mono {divide divide' : List Range → Step} {q q' : Range} (hle : q.lo ≤ q.hi)
    (hq : q.Within q')
    (hany : ∀ v ∈ (division stops w q divide).delivery.values, w.view.contains v = true)
    (hdivide : ¬(q.contains 0 && !stops) = true → nonzeroParts q ≠ [] →
      (divide (nonzeroParts q)).delivery.values ⊆ (divide' (nonzeroParts q')).delivery.values) :
    (division stops w q divide).delivery.values ⊆
      (division stops w q' divide').delivery.values := by
  by_cases h' : (q'.contains 0 && !stops) = true
  · have hfull : (division stops w q' divide').delivery.values = w.view.full.toSet := by
      simp only [division, h', if_true, delivery_withErrors, values_anyWord]
    rw [hfull]
    exact fun v hv => Bounds.mem_full.mpr (hany v hv)
  · have h : ¬(q.contains 0 && !stops) = true := by
      rw [Bool.and_eq_true, Bounds.contains_iff] at h' ⊢
      exact fun h => h' ⟨hq.mem h.1, h.2⟩
    by_cases hparts : nonzeroParts q = []
    · simp only [division, if_neg h, hparts, List.isEmpty_nil, if_true, Delivery.values]
      exact Set.empty_subset _
    · -- a divisor other than zero remains one
      obtain ⟨p, hp⟩ := List.exists_mem_of_ne_nil _ hparts
      obtain ⟨⟨hlo, h0⟩, -⟩ := ends_of_mem_nonzeroParts hle hp
      obtain ⟨p', hp', -⟩ := mem_nonzeroParts.mpr ⟨hq.mem hlo, h0⟩
      rw [delivery_division h hparts, delivery_division h' (List.ne_nil_of_mem hp')]
      exact hdivide h hparts

/-- Quotients grow with the operands: a part of the smaller divisor lies within one of the
larger. -/
theorem divideRange_mono {q q' : Range} (hr : r.lo ≤ r.hi) (h : r.Within r') (hle : q.lo ≤ q.hi)
    (hq : q.Within q') :
    (divideRange stops w r (nonzeroParts q)).delivery.values ⊆
      (divideRange stops w r' (nonzeroParts q')).delivery.values := by
  have hlo : r.lo ∈ r' := h.mem ⟨le_rfl, hr⟩
  have hhi : r.hi ∈ r' := h.mem ⟨hr, le_rfl⟩
  simp only [divideRange]
  split
  · next s hs =>
    obtain ⟨c, hc, -⟩ := List.mem_flatMap.mp (Bounds.ends_mem_of_span?_eq_some hs).1
    obtain ⟨⟨hb, h0⟩, -⟩ := ends_of_mem_nonzeroParts hle hc
    obtain ⟨s', hs'⟩ := exists_tdiv_span r' (hq.mem hb) h0
    rw [hs']
    refine overflowing_mono_of_span hs fun c hc => ?_
    obtain ⟨p, hp, hc⟩ := List.mem_flatMap.mp hc
    obtain ⟨⟨hb, h0⟩, hb', h0'⟩ := ends_of_mem_nonzeroParts hle hp
    have hb := hq.mem hb
    have hb' := hq.mem hb'
    simp only [List.mem_cons, List.not_mem_nil, or_false] at hc
    rcases hc with rfl | rfl | rfl | rfl
    exacts [tdiv_mem_span hlo hb h0 hs', tdiv_mem_span hlo hb' h0' hs',
      tdiv_mem_span hhi hb h0 hs', tdiv_mem_span hhi hb' h0' hs']
  · exact Set.empty_subset _

/-- There is one divisor, and all dividends have one sign and one quotient. -/
def HasOneQuotient (r : Range) (parts : List Range) : Prop :=
  ∃ p, parts = [p] ∧ p.lo = p.hi ∧ (0 ≤ r.lo ∨ r.hi ≤ 0) ∧ r.lo.tdiv p.lo = r.hi.tdiv p.lo

/-- Remainders are exact with one quotient, and otherwise bounded by dividends and divisors. -/
theorem moduloRange_cases (w : WordType) (r : Range) (parts : List Range) :
    HasOneQuotient r parts ∧ (moduloRange w r parts).delivery.IsExact ∨
      ¬HasOneQuotient r parts ∧ moduloRange w r parts =
        words w ⟨if r.lo < 0 then max r.lo (1 - magnitude parts) else 0,
          if 0 < r.hi then min r.hi (magnitude parts - 1) else 0⟩ false := by
  rcases parts with _ | ⟨p, _ | ⟨p', rest⟩⟩
  · refine .inr ⟨?_, rfl⟩
    rintro ⟨p, hp, -⟩
    cases hp
  · by_cases h : (p.lo == p.hi && (decide (0 ≤ r.lo) || decide (r.hi ≤ 0)) &&
        r.lo.tdiv p.lo == r.hi.tdiv p.lo) = true
    · refine .inl ⟨?_, by simp only [moduloRange, if_pos h]; rfl⟩
      simp only [Bool.and_eq_true, Bool.or_eq_true, beq_iff_eq, decide_eq_true_eq] at h
      exact ⟨p, rfl, h.1.1, h.1.2, h.2⟩
    · refine .inr ⟨?_, by simp only [moduloRange, if_neg h]⟩
      simp only [Bool.and_eq_true, Bool.or_eq_true, beq_iff_eq, decide_eq_true_eq] at h
      rintro ⟨_, ⟨⟩, h1, h2, h3⟩
      exact h ⟨⟨h1, h2⟩, h3⟩
  · refine .inr ⟨?_, rfl⟩
    rintro ⟨q, hq, -⟩
    cases hq

/-- A range within one that leaves one divisor, and not only zero, leaves the same divisor. -/
private theorem nonzeroParts_eq_singleton {q q' p : Range} (hle : q.lo ≤ q.hi) (hq : q.Within q')
    (hp : nonzeroParts q' = [p]) (hpoint : p.lo = p.hi) (hne : nonzeroParts q ≠ []) :
    nonzeroParts q = [p] := by
  have honly : ∀ b ∈ q, b ≠ 0 → b = p.lo := fun b hb h0 => by
    obtain ⟨p', hp', hb'⟩ := mem_nonzeroParts.mpr ⟨hq.mem hb, h0⟩
    rw [hp, List.mem_singleton] at hp'
    subst hp'
    exact le_antisymm (hpoint ▸ hb'.2) hb'.1
  have hends : ∀ p' ∈ nonzeroParts q, p' = p := fun p' hp' => by
    obtain ⟨⟨hlo, h0⟩, hhi, h0'⟩ := ends_of_mem_nonzeroParts hle hp'
    have h1 := honly _ hlo h0
    have h2 := honly _ hhi h0'
    cases p'
    cases p
    simp_all
  simp only [nonzeroParts] at hends hne ⊢
  split_ifs at hends hne ⊢ with hneg hpos hpos
  · -- the two parts differ in their signs
    have h := (hends _ List.mem_cons_self).trans (hends ⟨max q.lo 1, q.hi⟩ (by simp)).symm
    have := congrArg Bounds.lo h
    simp only at this
    omega
  · exact congrArg (· :: []) (hends _ List.mem_cons_self)
  · exact congrArg (· :: []) (hends _ List.mem_cons_self)
  · exact absurd rfl hne

/-- If the larger ranges have one quotient, so do the smaller ones. -/
theorem HasOneQuotient.mono {q q' : Range} (hr : r.lo ≤ r.hi) (h : r.Within r') (hle : q.lo ≤ q.hi)
    (hq : q.Within q') (hne : nonzeroParts q ≠ []) (hone : HasOneQuotient r' (nonzeroParts q')) :
    HasOneQuotient r (nonzeroParts q) := by
  obtain ⟨p, hp, hpoint, hsign, hquot⟩ := hone
  have hparts := nonzeroParts_eq_singleton hle hq hp hpoint hne
  have h0 := (ends_of_mem_nonzeroParts hle (hparts ▸ List.mem_singleton_self p)).1.2
  obtain ⟨hlo, hhi⟩ := h
  refine ⟨p, hparts, hpoint, by omega, ?_⟩
  have h1 := tdiv_between_left (l := r'.lo) (h := r'.hi) (a := r.lo) hlo (by omega) h0
  have h2 := tdiv_between_left (l := r'.lo) (h := r'.hi) (a := r.hi) (by omega) hhi h0
  omega

/-- Remainders grow with the operands, also when the smaller ranges have one quotient and the larger
ones do not. -/
theorem modulo_mono (hr : r.Proper w.view) (h : r.Within r')
    (hy : o.Refines w.view o')
    (hcov : (division stops w o.range (moduloRange w r)).delivery.Describes w
      (Operation.modulo.results stops w.view w.view w.view r.toSet o.range.toSet))
    (hcov' : (division stops w o'.range (moduloRange w r')).delivery.Covers w
      (Operation.modulo.results stops w.view w.view w.view r'.toSet o'.range.toSet)) :
    (division stops w o.range (moduloRange w r)).delivery.values ⊆
      (division stops w o'.range (moduloRange w r')).delivery.values := by
  have hle := hy.abstracts.proper.le
  by_cases hexact : (division stops w o.range (moduloRange w r)).delivery.IsExact
  · exact (hcov.tight.isSpanned hexact).values_subset
      (Operation.results_mono h.toSet_subset hy.within.toSet_subset) hcov'
  refine division_mono hle hy.within (fun v hv => hcov.covers.contains hv) fun hs hne => ?_
  rw [delivery_division hs hne] at hexact
  rcases moduloRange_cases w r (nonzeroParts o.range) with ⟨-, hd⟩ | ⟨hmany, hd⟩
  · exact absurd hd hexact
  rcases moduloRange_cases w r' (nonzeroParts o'.range) with ⟨hone, -⟩ | ⟨-, hd'⟩
  · exact absurd (hone.mono hr.le h hle hy.within hne) hmany
  rw [hd, hd', values_words, values_words]
  refine Bounds.Within.toSet_subset ?_
  have hm : magnitude (nonzeroParts o.range) ≤ magnitude (nonzeroParts o'.range) := by
    refine magnitude_le_iff.mpr ⟨(magnitude_le_iff.mp le_rfl).1, fun p hp => ?_⟩
    obtain ⟨⟨hlo, h0⟩, hhi, h0'⟩ := ends_of_mem_nonzeroParts hle hp
    obtain ⟨p₁, hp₁, hb₁⟩ := mem_nonzeroParts.mpr ⟨hy.within.mem hlo, h0⟩
    obtain ⟨p₂, hp₂, hb₂⟩ := mem_nonzeroParts.mpr ⟨hy.within.mem hhi, h0'⟩
    exact ⟨natAbs_le_magnitude hp₁ hb₁, natAbs_le_magnitude hp₂ hb₂⟩
  have h1 := (magnitude_le_iff.mp (le_refl (magnitude (nonzeroParts o.range)))).1
  obtain ⟨hlo, hhi⟩ := h
  constructor <;> simp only <;> split <;> split <;> omega

/-! ### Bitwise connectives -/

/-- Larger numbers have no fewer bits. -/
private theorem bitLength_mono {a b : ℤ} (h0 : 0 ≤ a) (h : a ≤ b) : bitLength a ≤ bitLength b := by
  rw [bitLength, bitLength]
  split_ifs with ha hb
  · exact le_rfl
  · exact Nat.zero_le _
  · omega
  · rw [Nat.log2_eq_log_two, Nat.log2_eq_log_two]
    exact Nat.succ_le_succ (Nat.log_mono_right (by omega))

/-- The span of the bit lengths of two natural operands grows with them. -/
private theorem span_mono {q q' : Range} (hr : r.lo ≤ r.hi) (h : r.Within r') (h0 : 0 ≤ r'.lo)
    (hle : q.lo ≤ q.hi) (hq : q.Within q') (h0' : 0 ≤ q'.lo) :
    lowMask (max (bitLength r.hi) (bitLength q.hi)) ≤
      lowMask (max (bitLength r'.hi) (bitLength q'.hi)) := by
  obtain ⟨h1, h2⟩ := h
  obtain ⟨h3, h4⟩ := hq
  rw [lowMask, lowMask]
  refine sub_le_sub_right (pow2_mono (max_le_max ?_ ?_)) 1
  · exact bitLength_mono (by omega) h2
  · exact bitLength_mono (by omega) h4

/-- Connectives grow with the operands, although their cases depend on signs and constants. -/
theorem bitwiseRange_mono (c : Bitwise) (hr : r.Proper w.view) (h : r.Within r')
    (hy : o.Refines w.view o')
    (hd : (bitwiseRange c w r o).delivery.Describes w
      ((Operation.bitwise c).results stops w.view w.view w.view r.toSet o.range.toSet))
    (hd' : (bitwiseRange c w r' o').delivery.Covers w
      ((Operation.bitwise c).results stops w.view w.view w.view r'.toSet o'.range.toSet)) :
    (bitwiseRange c w r o).delivery.values ⊆ (bitwiseRange c w r' o').delivery.values := by
  by_cases hexact : (bitwiseRange c w r o).delivery.IsExact
  · exact (hd.tight.isSpanned hexact).values_subset
      (Operation.results_mono h.toSet_subset hy.within.toSet_subset) hd'
  have hany := fun v hv => hd.covers.contains (v := v) hv
  have hle := hr.le
  have hle' := hy.abstracts.proper.le
  have hspan := fun h0 h0' => span_mono hle h h0 hle' hy.within h0'
  obtain ⟨h1, h2⟩ := h
  obtain ⟨h3, h4⟩ := hy.within
  -- a constant that makes the result exact would have done so before
  have hconstant : ∀ c, o.constant ≠ some c → o'.constant ≠ some c := fun c hc hc' =>
    hc (hy.constant c hc')
  cases c with
  | and | or =>
    have h0 : o.constant ≠ some 0 := fun hc =>
      hexact (by simp [bitwiseRange, hc, Delivery.IsExact, words])
    have hones : o.constant ≠ some w.view.allOnes := fun hc =>
      hexact (by simp only [bitwiseRange, hc, if_true]; split <;> rfl)
    intro v hv
    have hv' := IntType.contains_iff.mp (hany v hv)
    simp only [bitwiseRange, if_neg h0, if_neg hones, if_neg (hconstant _ h0),
      if_neg (hconstant _ hones), Bool.and_eq_true, decide_eq_true_eq] at hv ⊢
    split_ifs at hv ⊢ <;>
      simp only [values_words, values_anyWord, Bounds.mem_toSet, Bounds.mem_def, IntType.full]
        at hv ⊢ <;> omega
  | xor =>
    intro v hv
    have hv' := IntType.contains_iff.mp (hany v hv)
    simp only [bitwiseRange, Bool.and_eq_true, decide_eq_true_eq] at hv ⊢
    split_ifs at hv ⊢ <;>
      simp only [values_words, values_anyWord, Bounds.mem_toSet, Bounds.mem_def, IntType.full]
        at hv ⊢ <;> omega

/-! ### Shifts and rotations -/

/-- The valid amounts of a shift to the right, between the quotients at the corners. -/
private theorem shift_right_mono {least least' most most' : ℤ} (hr : r.lo ≤ r.hi) (h : r.Within r')
    (hleast : least' ≤ least) (hle : least ≤ most) (hmost : most ≤ most')
    (hs : Bounds.span? [floorDiv r.lo (pow2 least.toNat), floorDiv r.hi (pow2 least.toNat),
      floorDiv r.lo (pow2 most.toNat), floorDiv r.hi (pow2 most.toNat)] = some s)
    (hs' : Bounds.span? [floorDiv r'.lo (pow2 least'.toNat), floorDiv r'.hi (pow2 least'.toNat),
      floorDiv r'.lo (pow2 most'.toNat), floorDiv r'.hi (pow2 most'.toNat)] = some s') :
    s.Within s' := by
  have hcorner : ∀ a ∈ r, ∀ k, least ≤ k → k ≤ most → floorDiv a (pow2 k.toNat) ∈ s' := by
    intro a ha k h1 h2
    rw [floorDiv_eq_ediv (pow2_pos _)]
    exact shift_right_corners (h.mem ha) (Int.toNat_le_toNat (hleast.trans h1))
      (Int.toNat_le_toNat (h2.trans hmost)) hs'
  have hall : ∀ c ∈ [floorDiv r.lo (pow2 least.toNat), floorDiv r.hi (pow2 least.toNat),
      floorDiv r.lo (pow2 most.toNat), floorDiv r.hi (pow2 most.toNat)], c ∈ s' := by
    have hlo : r.lo ∈ r := ⟨le_rfl, hr⟩
    have hhi : r.hi ∈ r := ⟨hr, le_rfl⟩
    simp only [List.mem_cons, List.not_mem_nil, or_false, forall_eq_or_imp, forall_eq]
    exact ⟨hcorner _ hlo _ le_rfl hle, hcorner _ hhi _ le_rfl hle, hcorner _ hlo _ hle le_rfl,
      hcorner _ hhi _ hle le_rfl⟩
  obtain ⟨hlo, hhi⟩ := Bounds.ends_mem_of_span?_eq_some hs
  exact ⟨(hall _ hlo).1, (hall _ hhi).2⟩

/-- The shifts of a range to the left by some amounts. -/
private def leftShifts (w : WordType) (r : Range) (ks : List ℤ) : Step :=
  let images := ks.map fun k => (⟨r.lo * pow2 k.toNat, r.hi * pow2 k.toNat⟩ : Range)
  if images.all fun s => w.view.contains s.lo && w.view.contains s.hi then hullStep w images false
  else anyWord w

/-- Shifts to the left by more amounts have more results. -/
private theorem leftShifts_mono {ks ks' : List ℤ} (hr : r.lo ≤ r.hi) (h : r.Within r')
    (hks : ∀ k ∈ ks, k ∈ ks')
    (hfull : ∀ v ∈ (leftShifts w r ks).delivery.values, v ∈ w.view.full.toSet) :
    (leftShifts w r ks).delivery.values ⊆ (leftShifts w r' ks').delivery.values := by
  have hmul : ∀ k : ℤ, ∀ a ∈ r,
      a * pow2 k.toNat ∈ (⟨r'.lo * pow2 k.toNat, r'.hi * pow2 k.toNat⟩ : Range) := fun k a ha =>
    ⟨mul_le_mul_of_nonneg_right (h.mem ha).1 (pow2_pos _).le,
      mul_le_mul_of_nonneg_right (h.mem ha).2 (pow2_pos _).le⟩
  have hlo : r.lo ∈ r := ⟨le_rfl, hr⟩
  have hhi : r.hi ∈ r := ⟨hr, le_rfl⟩
  simp only [leftShifts] at hfull ⊢
  by_cases hall' : ((ks'.map fun k => (⟨r'.lo * pow2 k.toNat, r'.hi * pow2 k.toNat⟩ : Range)).all
      fun s => w.view.contains s.lo && w.view.contains s.hi) = true
  · -- images of the smaller range lie between those of the larger one, so they fit as well
    rw [if_pos hall', if_pos]
    · refine hullStep_mono fun i hi => ?_
      obtain ⟨k, hk, rfl⟩ := List.mem_map.mp hi
      have hi' := List.mem_map_of_mem
        (f := fun k : ℤ => (⟨r'.lo * pow2 k.toNat, r'.hi * pow2 k.toNat⟩ : Range)) (hks k hk)
      exact ⟨mem_values_hullStep hi' (hmul k _ hlo), mem_values_hullStep hi' (hmul k _ hhi)⟩
    · simp only [List.all_eq_true, List.mem_map, Bool.and_eq_true, forall_exists_index, and_imp,
        forall_apply_eq_imp_iff₂] at hall' ⊢
      intro k hk
      obtain ⟨h1, h2⟩ := hall' k (hks k hk)
      have hin : ∀ a ∈ r, w.view.contains (a * pow2 k.toNat) = true := fun a ha =>
        IntType.contains_of_between h1 h2 (hmul k a ha).1 (hmul k a ha).2
      exact ⟨hin _ hlo, hin _ hhi⟩
  · rw [if_neg hall']
    exact hfull

/-- Shifts grow with the range and with the amounts. -/
theorem shiftRange_mono (d : Direction) {q q' : Range} (hr : r.lo ≤ r.hi) (h : r.Within r')
    (hq : q.Within q')
    (hany : ∀ v ∈ (shiftRange stops d w r q).delivery.values, w.view.contains v = true) :
    (shiftRange stops d w r q).delivery.values ⊆ (shiftRange stops d w r' q').delivery.values := by
  have hfull : ∀ v ∈ (shiftRange stops d w r q).delivery.values, v ∈ w.view.full.toSet :=
    fun v hv => Bounds.mem_full.mpr (hany v hv)
  by_cases hs' : ((decide (q'.lo < 0) || decide ((w.view.width : ℤ) ≤ q'.hi)) && !stops) = true
  · have hany' : (shiftRange stops d w r' q').delivery.values = w.view.full.toSet := by
      simp only [shiftRange, hs', if_true, delivery_withErrors, values_anyWord]
    rw [hany']
    exact hfull
  obtain ⟨h1, h2⟩ := hq
  have hs : ¬((decide (q.lo < 0) || decide ((w.view.width : ℤ) ≤ q.hi)) && !stops) = true := by
    simp only [Bool.and_eq_true, Bool.or_eq_true, decide_eq_true_eq] at hs' ⊢
    exact fun hs => hs' ⟨by omega, hs.2⟩
  by_cases hle : min q.hi (w.view.width - 1) < max q.lo 0
  · simp only [shiftRange, if_neg hs, if_pos hle, Delivery.values]
    exact Set.empty_subset _
  have hle' : ¬min q'.hi (w.view.width - 1) < max q'.lo 0 := by omega
  simp only [shiftRange, if_neg hs, if_neg hs', if_neg hle, if_neg hle', delivery_withErrors]
    at hfull ⊢
  cases d with
  | right =>
    have hcorners : ∀ (p : Range) (least most : ℤ),
        ∃ s, Bounds.span? [floorDiv p.lo (pow2 least.toNat), floorDiv p.hi (pow2 least.toNat),
          floorDiv p.lo (pow2 most.toNat), floorDiv p.hi (pow2 most.toNat)] = some s :=
      fun p least most => Bounds.exists_span? List.mem_cons_self
    obtain ⟨s, hspan⟩ := hcorners r (max q.lo 0) (min q.hi (w.view.width - 1))
    obtain ⟨s', hspan'⟩ := hcorners r' (max q'.lo 0) (min q'.hi (w.view.width - 1))
    simp only [hspan, hspan', values_words]
    exact (shift_right_mono hr h (by omega) (by omega) (by omega) hspan hspan').toSet_subset
  | left =>
    refine leftShifts_mono hr h (fun k hk => ?_) hfull
    rw [Bounds.mem_values, Bounds.mem_mk] at hk ⊢
    simp only at hk ⊢
    omega

/-- Rotations grow with the operands. -/
theorem rotateRange_mono (h : r.Within r') {u : IntType} (hy : o.Refines u o')
    (hany : ∀ v ∈ (rotateRange w r o).delivery.values, w.view.contains v = true) :
    (rotateRange w r o).delivery.values ⊆ (rotateRange w r' o').delivery.values := by
  have hfull : ∀ v ∈ (rotateRange w r o).delivery.values, v ∈ w.view.full.toSet :=
    fun v hv => Bounds.mem_full.mpr (hany v hv)
  cases hc' : o'.constant with
  | none =>
    simp only [rotateRange, hc']
    exact hfull
  | some c =>
    simp only [rotateRange, hc', hy.constant c hc']
    split
    · exact h.toSet_subset
    · exact subset_rfl

/-! ### Patterns -/

/-- The ends of the complements are complements. -/
theorem complementRange_isSpanned (hr : r.Proper w.view) :
    (complementRange w r).delivery.IsSpanned
      (Operation.bitNegate.results stops w.view w.view w.view r.toSet {0}) := by
  refine hullStep_isSpanned fun i hi => ?_
  obtain ⟨p, hp, rfl⟩ := List.mem_map.mp hi
  have hle := (IntType.bitRanges_bounds hr hp).2.1
  have hend : ∀ n ∈ p, w.view.complement (w.view.ofBits n) ∈
      Operation.bitNegate.results stops w.view w.view w.view r.toSet {0} := by
    intro n hn
    obtain ⟨a, ha, rfl⟩ := (IntType.mem_bitRanges hr).mp ⟨p, hp, hn⟩
    refine ⟨a, ha, 0, rfl, ?_⟩
    rw [Operation.execute, mem_values_value, IntType.read_not,
      IntType.ofBits_toBits (hr.contains ha)]
  exact ⟨hend _ ⟨hle, le_rfl⟩, hend _ ⟨le_rfl, hle⟩⟩

/-- The ends of the extensions are extensions. -/
theorem extendRange_isSpanned {fill : Extension} {bits : ℕ} {wide : IntType}
    (hw : w.view.width < wide.width) (hs : wide.signed = w.view.signed) :
    (extendRange w.view fill (.int wide) r).delivery.IsSpanned
      ((Operation.extend fill bits).results stops w.view w.view wide r.toSet {0}) := by
  refine hullStep_isSpanned fun i hi => ?_
  obtain ⟨hle, himage⟩ := exists_extended_of_mem_image hw hs hi
  have hend : ∀ v ∈ i,
      v ∈ (Operation.extend fill bits).results stops w.view w.view wide r.toSet {0} := by
    intro v hv
    obtain ⟨a, ha, hav⟩ := himage v hv
    exact ⟨a, ha, 0, rfl, (mem_values_extend hw).mpr hav.symm⟩
  exact ⟨hend _ ⟨le_rfl, hle⟩, hend _ ⟨hle, le_rfl⟩⟩

/-- A range that is long, or whose ends are out of order as residues, has the first and the last
residue. -/
private theorem exists_emod_ends {lo hi m : ℤ} (hm : 0 < m) (hle : lo ≤ hi)
    (h : m ≤ hi - lo + 1 ∨ hi % m < lo % m) :
    (∃ k, lo ≤ k ∧ k ≤ hi ∧ k % m = 0) ∧ ∃ k, lo ≤ k ∧ k ≤ hi ∧ k % m = m - 1 := by
  by_cases hlong : m ≤ hi - lo + 1
  · have hall : ∀ n, 0 ≤ n → n < m → ∃ k, lo ≤ k ∧ k ≤ hi ∧ k % m = n := by
      intro n h0 h1
      have h2 := Int.emod_nonneg (n - lo) hm.ne'
      have h3 := Int.emod_lt_of_pos (n - lo) hm
      refine ⟨lo + (n - lo) % m, by omega, by omega, ?_⟩
      rw [Int.add_emod_emod, add_sub_cancel, Int.emod_eq_of_lt h0 h1]
    exact ⟨hall 0 le_rfl hm, hall (m - 1) (by omega) (by omega)⟩
  · -- a multiple of the modulus lies between the ends, and its predecessor as well
    have hord := h.resolve_left hlong
    have h1 := Int.mul_ediv_add_emod lo m
    have h2 := Int.mul_ediv_add_emod hi m
    have h3 := Int.emod_lt_of_pos lo hm
    have h4 := Int.emod_nonneg hi hm.ne'
    have hquot : lo / m + 1 ≤ hi / m :=
      lt_of_le_of_ne (Int.ediv_le_ediv hm hle) fun heq => by rw [heq] at h1; omega
    have hmul := mul_le_mul_of_nonneg_left hquot hm.le
    rw [mul_add, mul_one] at hmul
    refine ⟨⟨m * (hi / m), by omega, by omega, Int.mul_emod_right m _⟩,
      m * (hi / m) - 1, by omega, by omega, ?_⟩
    rw [show m * (hi / m) - 1 = m - 1 + m * (hi / m - 1) by ring, Int.add_mul_emod_self_left,
      Int.emod_eq_of_lt (by omega) (by omega)]

/-- Both ends of a field are fields of patterns of the range. -/
theorem fieldImage_ends (low high : ℕ) {q : Range} (hq : q.lo ≤ q.hi) :
    (∃ p ∈ q, p / pow2 low % pow2 (high - low) = (fieldImage low high q).1.lo) ∧
      ∃ p ∈ q, p / pow2 low % pow2 (high - low) = (fieldImage low high q).1.hi := by
  have hlow := pow2_pos low
  have hspec := fieldImage_spec low high hq
  by_cases hexact : (fieldImage low high q).2 = true
  · exact ⟨hspec.2.2 hexact _ ⟨le_rfl, hspec.1.2.1⟩, hspec.2.2 hexact _ ⟨hspec.1.2.1, le_rfl⟩⟩
  · simp only [fieldImage, floorDiv_eq_ediv hlow] at hexact ⊢
    split at hexact
    · next hlong =>
      have hback : ∀ n, (∃ k, q.lo / pow2 low ≤ k ∧ k ≤ q.hi / pow2 low ∧
          k % pow2 (high - low) = n) → ∃ p ∈ q, p / pow2 low % pow2 (high - low) = n := by
        rintro n ⟨k, h1, h2, rfl⟩
        obtain ⟨p, hp1, hp2, rfl⟩ := (ediv_mem_iff hq hlow).mpr ⟨h1, h2⟩
        exact ⟨p, ⟨hp1, hp2⟩, rfl⟩
      have hends := exists_emod_ends (pow2_pos (high - low)) (Int.ediv_le_ediv hlow hq) hlong
      rw [if_pos hlong]
      exact ⟨hback _ hends.1, hback _ hends.2⟩
    · exact absurd rfl hexact

/-- The ends of the fields are fields of values. -/
theorem reduceRange_isSpanned {low high : ℕ} {field : IntType} (hr : r.Proper w.view) :
    (reduceRange w.view low high (.int field) r).delivery.IsSpanned
      ((Operation.reduce low high).results stops w.view w.view field r.toSet {0}) := by
  refine hullStep_isSpanned fun i hi => ?_
  obtain ⟨p, hp, rfl⟩ := List.mem_map.mp hi
  obtain ⟨q, hq, rfl⟩ := List.mem_map.mp hp
  have hend : ∀ n, (∃ p ∈ q, p / pow2 low % pow2 (high - low) = n) →
      n ∈ (Operation.reduce low high).results stops w.view w.view field r.toSet {0} := by
    rintro n ⟨p, hp, rfl⟩
    obtain ⟨a, ha, rfl⟩ := (IntType.mem_bitRanges hr).mp ⟨q, hq, hp⟩
    refine ⟨a, ha, 0, rfl, ?_⟩
    rw [Operation.execute, mem_values_value, IntType.toNat_extract]
  obtain ⟨hlo, hhi⟩ := fieldImage_ends low high (IntType.bitRanges_bounds hr hq).2.1
  exact ⟨hend _ hlo, hend _ hhi⟩

/-- The ends of the concatenations are concatenations. -/
theorem concatRange_isSpanned {u : WordType} {wide : IntType} (hr : r.Proper w.view)
    (hy : o.Abstracts u.view o.range.toSet) :
    (concatRange w.view (.int wide) r o).delivery.IsSpanned
      (Operation.concat.results stops w.view u.view wide r.toSet o.range.toSet) := by
  refine hullStep_isSpanned fun i hi => ?_
  obtain ⟨p, hp, q, hq, rfl⟩ := mem_concat_images.mp hi
  rw [hy.type] at hq ⊢
  have hend : ∀ m ∈ p, ∀ n ∈ q, m * pow2 u.view.width + n ∈
      Operation.concat.results stops w.view u.view wide r.toSet o.range.toSet := by
    intro m hm n hn
    obtain ⟨a, ha, rfl⟩ := (IntType.mem_bitRanges hr).mp ⟨p, hp, hm⟩
    obtain ⟨b, hb, rfl⟩ := (IntType.mem_bitRanges hy.proper).mp ⟨q, hq, hn⟩
    refine ⟨a, ha, b, hb, ?_⟩
    rw [Operation.execute, mem_values_value, IntType.toNat_append]
  have hple := (IntType.bitRanges_bounds hr hp).2.1
  have hqle := (IntType.bitRanges_bounds hy.proper hq).2.1
  exact ⟨hend _ ⟨le_rfl, hple⟩ _ ⟨le_rfl, hqle⟩, hend _ ⟨hple, le_rfl⟩ _ ⟨hqle, le_rfl⟩⟩

/-- Ranges of patterns lie within each other as the values do. -/
private theorem exists_bitRange_within {t : IntType} {q : Range} (hr : r.Proper t)
    (hr' : r'.Proper t) (h : r.Within r') (hq : q ∈ t.bitRanges r) :
    ∃ q' ∈ t.bitRanges r', q.Within q' := by
  obtain ⟨hlo, hhi⟩ := h
  have hb := hr.bounds
  have hb' := hr'.bounds
  have hm := t.modulus_eq
  have h1 := IntType.toBits_cases hr.lo_mem
  have h2 := IntType.toBits_cases hr.hi_mem
  have h3 := IntType.toBits_cases hr'.lo_mem
  have h4 := IntType.toBits_cases hr'.hi_mem
  rcases IntType.bitRanges_cases hr with ⟨hs, he⟩ | ⟨hs1, hs2, he⟩ <;>
    rcases IntType.bitRanges_cases hr' with ⟨hs', he'⟩ | ⟨hs1', hs2', he'⟩ <;>
    simp only [he, he', List.mem_cons, List.not_mem_nil, or_false, exists_eq_or_imp,
      exists_eq_left, Bounds.Within] at hq ⊢
  · subst hq
    simp only
    omega
  · subst hq
    simp only
    omega
  · omega
  · rcases hq with rfl | rfl <;> simp only <;> omega

/-- Overwritten values grow with the operands. -/
theorem bitSetRange_mono {low high : ℕ} {u : WordType} (hr : r.lo ≤ r.hi) (h : r.Within r')
    (hy : o.Refines u.view o') (hl : low < high) (hh : high ≤ w.view.width)
    (hu : u.view.width = high - low)
    (hany : ∀ v ∈ (bitSetRange w low high r o).delivery.values, w.view.contains v = true) :
    (bitSetRange w low high r o).delivery.values ⊆
      (bitSetRange w low high r' o').delivery.values := by
  have hfull : ∀ v ∈ (bitSetRange w low high r o).delivery.values, v ∈ w.view.full.toSet :=
    fun v hv => Bounds.mem_full.mpr (hany v hv)
  by_cases hpoint' : r'.lo ≠ r'.hi
  · have hany' : (bitSetRange w low high r' o').delivery.values = w.view.full.toSet := by
      simp only [bitSetRange, if_pos hpoint', values_anyWord]
    rw [hany']
    exact hfull
  obtain ⟨h1, h2⟩ := h
  have hpoint : ¬r.lo ≠ r.hi := by omega
  have hlo : r.lo = r'.lo := by omega
  simp only [bitSetRange, if_neg hpoint, if_neg hpoint', hy.abstracts.type, hy.abstracts'.type]
  rw [hlo]
  refine hullStep_mono fun i hi => ?_
  obtain ⟨q, hq, hi⟩ := List.mem_flatMap.mp hi
  have hbounds := IntType.bitRanges_bounds hy.abstracts.proper hq
  obtain ⟨q', hq', hwithin⟩ := exists_bitRange_within hy.abstracts.proper hy.abstracts'.proper
    hy.within hq
  have hbounds' := IntType.bitRanges_bounds hy.abstracts'.proper hq'
  have hpow := (pow2_pos low).le
  -- what the patterns of the smaller range give is given by a piece of the larger one
  have hmem : ∀ v ∈ i, v ∈ (hullStep w ((u.view.bitRanges o'.range).flatMap fun patch =>
      w.view.valueRanges ⟨(w.view.cleared r'.lo low high : ℤ) + patch.lo * pow2 low,
        (w.view.cleared r'.lo low high : ℤ) + patch.hi * pow2 low⟩) false).delivery.values := by
    intro v hv
    obtain ⟨p, hp, rfl⟩ := (IntType.mem_valueRanges w.view (add_le_add_right
      (mul_le_mul_of_nonneg_right hbounds.2.1 hpow) _)).mp ⟨i, hi, hv⟩
    obtain ⟨j, hj, hvj⟩ := (IntType.mem_valueRanges w.view (v := w.view.ofBits p)
      (r := ⟨(w.view.cleared r'.lo low high : ℤ) + q'.lo * pow2 low,
        (w.view.cleared r'.lo low high : ℤ) + q'.hi * pow2 low⟩)
      (add_le_add_right (mul_le_mul_of_nonneg_right hbounds'.2.1 hpow) _)).mpr
      ⟨p, ⟨(add_le_add_right (mul_le_mul_of_nonneg_right hwithin.1 hpow) _).trans hp.1,
        hp.2.trans (add_le_add_right (mul_le_mul_of_nonneg_right hwithin.2 hpow) _)⟩, rfl⟩
    exact mem_values_hullStep (List.mem_flatMap.mpr ⟨q', hq', hj⟩) hvj
  have hle := (proper_of_mem_bitSet_images hl hh hu hbounds hi).le
  exact ⟨hmem _ ⟨le_rfl, hle⟩, hmem _ ⟨hle, le_rfl⟩⟩

/-! ### All operations -/

private theorem zeroTest_isExact (a : Summary) (negated : Bool) :
    (zeroTest a negated).delivery.IsExact := by
  rw [zeroTest]
  split_ifs <;> rfl

private theorem connective_isExact (c : Connective) (a b : Summary) :
    (connective c a b).delivery.IsExact := by
  cases c <;> rw [connective] <;> split_ifs <;> rfl

/-- The transfer of a range is monotone in both operands, if the second one has no gaps. -/
theorem ofRange_mono {op : Operation} {arg : Option WordType}
    {argument argument' : Option WordOperand} (stops : Bool) (h : op.Accepts w arg out)
    (hr : r.Proper w.view) (hr' : r'.Proper w.view) (hw : r.Within r')
    (hy : WordOperand.RefinesAll arg argument argument') :
    (ofRange stops op w (.word out) r argument).delivery.values ⊆
      (ofRange stops op w (.word out) r' argument').delivery.values := by
  obtain ⟨hrep, hrep', hspan⟩ := hy.represents
  have hd := ofRange_describes stops h hr hrep
  have hd' := (ofRange_describes stops h hr' hrep').1
  have hsub : op.results stops w.view (arg.getD w).view out.view r.toSet
        (WordOperand.span argument) ⊆
      op.results stops w.view (arg.getD w).view out.view r'.toSet (WordOperand.span argument') :=
    Operation.results_mono hw.toSet_subset hspan
  have hany : ∀ v ∈ (ofRange stops op w (.word out) r argument).delivery.values,
      out.view.contains v = true := fun v hv => hd.1.contains hv
  have hspanned : (ofRange stops op w (.word out) r argument).delivery.IsSpanned
      (op.results stops w.view (arg.getD w).view out.view r.toSet (WordOperand.span argument)) →
      (ofRange stops op w (.word out) r argument).delivery.values ⊆
        (ofRange stops op w (.word out) r' argument').delivery.values := fun hs =>
    hs.values_subset hsub hd'
  have hgapless : Gapless stops op w r argument (WordOperand.span argument) := by
    refine ⟨?_, ?_⟩
    · rintro - o rfl - - hneg hpos
      exact ⟨hneg.le, hpos.le⟩
    · rintro rfl o rfl -
      obtain ⟨u, t, rfl, -⟩ := h.fits
      obtain _ | hy := hy
      exact hy.convex
  have hexact : (ofRange stops op w (.word out) r argument).delivery.IsExact →
      (ofRange stops op w (.word out) r argument).delivery.values ⊆
        (ofRange stops op w (.word out) r' argument').delivery.values := fun he =>
    hspanned ((hd.2 hgapless).isSpanned he)
  have hf := h.fits
  have hle := hr.le
  obtain ⟨hlo, hhi⟩ := id hw
  cases op with
  | prev | next | opposite =>
    obtain ⟨rfl, rfl⟩ := hf
    cases hy
    exact overflowing_mono (by simp only; omega) ⟨by simp only; omega, by simp only; omega⟩
  | castInt dest =>
    obtain ⟨rfl, rfl⟩ := hf
    cases hy
    exact overflowing_mono hle hw
  | bitNegate =>
    obtain ⟨rfl, rfl⟩ := hf
    cases hy
    exact hspanned (complementRange_isSpanned hr)
  | logicalNegate | castBit => exact hexact (zeroTest_isExact _ _)
  | castFloat dest => exact hf.elim
  | extend fill bits =>
    obtain ⟨rfl, hpos, t, rfl, ht, hs⟩ := hf
    cases hy
    have hwide : w.view.width < t.width := by omega
    exact hspanned (extendRange_isSpanned hwide hs)
  | reduce low high =>
    obtain ⟨rfl, -, -, t, rfl, ht, hs⟩ := hf
    cases hy
    exact hspanned (reduceRange_isSpanned hr)
  | compare c =>
    obtain ⟨rfl, rfl⟩ := hf
    obtain _ | hy := hy
    refine hexact ?_
    simp only [ofRange, Option.getD_some]
    split
    · rfl
    · exact hy.convex
  | plus =>
    obtain ⟨rfl, rfl⟩ := hf
    obtain _ | hy := hy
    have hle' := hy.abstracts.proper.le
    obtain ⟨h1, h2⟩ := hy.within
    exact overflowing_mono (add_le_add hle hle') ⟨add_le_add hlo h1, add_le_add hhi h2⟩
  | minus =>
    obtain ⟨rfl, rfl⟩ := hf
    obtain _ | hy := hy
    have hle' := hy.abstracts.proper.le
    obtain ⟨h1, h2⟩ := hy.within
    exact overflowing_mono (sub_le_sub hle hle') ⟨sub_le_sub hlo h2, sub_le_sub hhi h1⟩
  | times =>
    obtain ⟨rfl, rfl⟩ := hf
    obtain _ | hy := hy
    exact timesRange_mono hr hr' hw hy
  | divide =>
    obtain ⟨rfl, rfl⟩ := hf
    obtain _ | hy := hy
    exact division_mono hy.abstracts.proper.le hy.within hany fun _ _ =>
      divideRange_mono hle hw hy.abstracts.proper.le hy.within
  | modulo =>
    obtain ⟨rfl, rfl⟩ := hf
    obtain _ | hy := hy
    exact modulo_mono hr hw hy ⟨hd.1, hd.2 hgapless⟩ hd'
  | extremum e =>
    obtain ⟨rfl, rfl⟩ := hf
    obtain _ | hy := hy
    cases e with
    | min | max => exact hexact hy.convex
  | bitwise c =>
    obtain ⟨rfl, rfl⟩ := hf
    obtain _ | hy := hy
    exact bitwiseRange_mono c hr hw hy ⟨hd.1, hd.2 hgapless⟩ hd'
  | shift d =>
    obtain ⟨hsome, rfl⟩ := hf
    obtain ⟨u, rfl⟩ := Option.isSome_iff_exists.mp hsome
    obtain _ | hy := hy
    exact shiftRange_mono d hle hw hy.within hany
  | rotate d =>
    obtain ⟨hsome, rfl⟩ := hf
    obtain ⟨u, rfl⟩ := Option.isSome_iff_exists.mp hsome
    obtain _ | hy := hy
    exact rotateRange_mono hw hy hany
  | connective c => exact hexact (connective_isExact _ _ _)
  | concat =>
    obtain ⟨u, t, rfl, rfl, ht, hs⟩ := hf
    obtain _ | hy := hy
    exact hspanned (concatRange_isSpanned hr hy.abstracts)
  | bitSet low high =>
    obtain ⟨u, rfl, rfl, hl, hh, hu⟩ := hf
    obtain _ | hy := hy
    exact bitSetRange_mono hle hw hy hl hh hu hany

end Step

end ScalarDomain
