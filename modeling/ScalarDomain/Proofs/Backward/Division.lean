import ScalarDomain.Proofs.Backward.Arithmetic
import ScalarDomain.Proofs.Forward.Arithmetic
import ScalarDomain.Backward.Division

/-!
# Operands of products, quotients and remainders

The solvers bound the magnitudes of the operands case by case. None of them is called exact, so all
that is said of them is that no admitted pair is left out. Truncated division enters through one
fact: the quotient `q` of `a` by a positive `b` satisfies `q * b ≤ a < q * b + b` for natural `a`,
and the mirror image for negative `a`.

These inequalities determine the quotient (`tdiv_eq_of_pos`). So the dividends are found as tightly
as a range can tell: both ends of the range for divisors of one sign are dividends themselves
(`Narrowing.dividends?_exact`).
-/

namespace ScalarDomain

/-- Truncated division by a positive number. -/
theorem tdiv_of_pos {a b : ℤ} (hb : 0 < b) :
    (0 ≤ a ∧ 0 ≤ a.tdiv b ∧ a.tdiv b * b ≤ a ∧ a < a.tdiv b * b + b) ∨
      (a < 0 ∧ a.tdiv b ≤ 0 ∧ a ≤ a.tdiv b * b ∧ a.tdiv b * b - b < a) := by
  rcases le_or_gt 0 a with ha | ha
  · left
    rw [Int.tdiv_eq_ediv_of_nonneg ha]
    have h1 := Int.ediv_mul_le a hb.ne'
    have h2 := Int.lt_ediv_add_one_mul_self a hb
    exact ⟨ha, Int.ediv_nonneg ha hb.le, h1, by linarith⟩
  · right
    obtain ⟨c, rfl⟩ : ∃ c, a = -c := ⟨-a, by ring⟩
    rw [Int.neg_tdiv, Int.tdiv_eq_ediv_of_nonneg (by omega)]
    have h1 := Int.ediv_mul_le c hb.ne'
    have h2 := Int.lt_ediv_add_one_mul_self c hb
    have h3 := Int.ediv_nonneg (show 0 ≤ c by omega) hb.le
    exact ⟨ha, by omega, by linarith, by linarith⟩

/-- The inequalities of a quotient by a positive number determine it. -/
theorem tdiv_eq_of_pos {a b q : ℤ} (hb : 0 < b)
    (h : (0 ≤ q ∧ q * b ≤ a ∧ a < q * b + b) ∨ (q ≤ 0 ∧ a ≤ q * b ∧ q * b - b < a)) :
    a.tdiv b = q := by
  have key : ∀ {a q : ℤ}, 0 ≤ q → q * b ≤ a → a < q * b + b → a.tdiv b = q := by
    intro a q hq h1 h2
    rw [Int.tdiv_eq_ediv_of_nonneg ((mul_nonneg hq hb.le).trans h1)]
    refine le_antisymm (Int.lt_add_one_iff.mp ?_) ((Int.le_ediv_iff_mul_le hb).mpr h1)
    exact (Int.ediv_lt_iff_lt_mul hb).mpr (by linarith)
  rcases h with ⟨hq, h1, h2⟩ | ⟨hq, h1, h2⟩
  · exact key hq h1 h2
  · have := key (a := -a) (q := -q) (by omega) (by linarith) (by linarith)
    rw [Int.neg_tdiv] at this
    omega

namespace Narrowing

variable {stops c : Bool} {t u : IntType} {x y z : Range} {a b m : ℤ}

/-- Results that fit, or that must fit, land where they are. -/
theorem mem_of_lands (hz : z.Proper t) (h : Outcome.Lands stops t z m)
    (hm : stops = true ∨ t.contains m = true) : m ∈ z := by
  rcases hm with rfl | hm
  · exact (lands_true_iff hz).mp h
  · obtain ⟨v, hv, hmv⟩ := h
    rw [Outcome.mem_values_stored_of_contains hm] at hmv
    exact hmv ▸ hv

/-! ### Products -/

/-- A factor is one of the cofactors of the product. -/
theorem exists_mem_cofactors (own other : Span) {r : Range} (ha : a ∈ own.range)
    (hb : b ∈ other.range) (hm : a * b ∈ r) : ∃ p ∈ cofactors r own other, a ∈ p := by
  rw [cofactors]
  split
  · exact ⟨own.range, List.mem_singleton_self _, ha⟩
  · next hzero =>
    have hb0 : b ≠ 0 := by
      rintro rfl
      rw [mul_zero] at hm
      refine hzero ?_
      rw [Span.hasZero, Bool.and_eq_true, Bounds.contains_iff, Bounds.contains_iff]
      exact ⟨hb, hm⟩
    obtain ⟨part, hpart, hbp⟩ := Step.mem_nonzeroParts.mpr ⟨hb, hb0⟩
    obtain ⟨h1, h2⟩ := hbp
    obtain ⟨h3, h4⟩ := hm
    -- the factor is bounded by the corners of the part, whatever its own sign is
    have hbounds : (ceilDiv r.lo part.lo ≤ a ∨ ceilDiv r.lo part.hi ≤ a ∨
          ceilDiv r.hi part.lo ≤ a ∨ ceilDiv r.hi part.hi ≤ a) ∧
        (a ≤ floorDiv r.lo part.lo ∨ a ≤ floorDiv r.lo part.hi ∨
          a ≤ floorDiv r.hi part.lo ∨ a ≤ floorDiv r.hi part.hi) := by
      rcases Step.nonzeroParts_cases hpart with ⟨hneg, -⟩ | ⟨hpos, -⟩
      · have hlo : part.lo < 0 := by omega
        simp only [ceilDiv_le_iff_of_neg hlo, ceilDiv_le_iff_of_neg hneg,
          le_floorDiv_iff_of_neg hlo, le_floorDiv_iff_of_neg hneg]
        rcases le_or_gt 0 a with ha0 | ha0
        · have := mul_le_mul_of_nonneg_left h1 ha0
          have := mul_le_mul_of_nonneg_left h2 ha0
          exact ⟨.inr (.inr (.inl (by linarith))), .inr (.inl (by linarith))⟩
        · have := mul_le_mul_of_nonpos_left h1 ha0.le
          have := mul_le_mul_of_nonpos_left h2 ha0.le
          exact ⟨.inr (.inr (.inr (by linarith))), .inl (by linarith)⟩
      · have hhi : 0 < part.hi := by omega
        simp only [ceilDiv_le_iff hpos, ceilDiv_le_iff hhi, le_floorDiv_iff hpos,
          le_floorDiv_iff hhi]
        rcases le_or_gt 0 a with ha0 | ha0
        · have := mul_le_mul_of_nonneg_left h1 ha0
          have := mul_le_mul_of_nonneg_left h2 ha0
          exact ⟨.inr (.inl (by linarith)), .inr (.inr (.inl (by linarith)))⟩
        · have := mul_le_mul_of_nonpos_left h1 ha0.le
          have := mul_le_mul_of_nonpos_left h2 ha0.le
          exact ⟨.inl (by linarith), .inr (.inr (.inr (by linarith)))⟩
    have hmem : a ∈ (⟨min (min (ceilDiv r.lo part.lo) (ceilDiv r.lo part.hi))
          (min (ceilDiv r.hi part.lo) (ceilDiv r.hi part.hi)),
        max (max (floorDiv r.lo part.lo) (floorDiv r.lo part.hi))
          (max (floorDiv r.hi part.lo) (floorDiv r.hi part.hi))⟩ : Range) := by
      rw [Bounds.mem_mk]
      omega
    obtain ⟨q, hq, haq⟩ := Bounds.exists_meet? hmem ha
    exact ⟨q, List.mem_filterMap.mpr ⟨part, hpart, hq⟩, haq⟩

theorem times_inverts (hz : z.Proper t) :
    (times stops ⟨⟨t, x⟩, some ⟨t, y⟩, ⟨t, z⟩, c⟩).Inverts
      (Operation.times.Reaches stops t u t z.toSet) x.toSet y.toSet := by
  simp only [times, Frame.second, Option.getD_some, Span.lo, Span.hi]
  split
  · exact ⟨keeps_unknown, isTight_of_not_exact⟩
  next span hspan =>
  split
  · exact ⟨keeps_unknown, isTight_of_not_exact⟩
  next hwraps =>
  have hmem : ∀ a ∈ x.toSet, ∀ b ∈ y.toSet, Operation.times.Reaches stops t u t z.toSet a b →
      a * b ∈ span ∧ a * b ∈ z := by
    intro a ha b hb hR
    have hin := Step.mul_mem_span ha hb hspan
    refine ⟨hin, mem_of_lands hz hR ?_⟩
    -- either no product wraps around, or executions stop on those that would
    cases stops with
    | true => exact .inl rfl
    | false =>
      simp only [Bool.not_false, Bool.and_true, Bool.or_eq_true, Bool.not_eq_true', not_or,
        Bool.not_eq_false] at hwraps
      exact .inr (IntType.contains_of_between hwraps.1 hwraps.2 hin.1 hin.2)
  split
  · next hnone =>
    refine ⟨fun a ha b hb hR => ?_, trivial⟩
    obtain ⟨h1, h2⟩ := hmem a ha b hb hR
    exact Bounds.not_mem_of_meet?_eq_none hnone h1 h2
  · next r hr =>
    refine ⟨keeps_both? fun a ha b hb hR => ?_, isTight_both? fun h => absurd h Bool.false_ne_true⟩
    have hab := (Bounds.mem_of_meet?_eq_some hr).mpr (hmem a ha b hb hR)
    obtain ⟨p, hp, hap⟩ := exists_mem_cofactors ⟨t, x⟩ ⟨t, y⟩ ha hb hab
    obtain ⟨p', hp', hbp⟩ := exists_mem_cofactors ⟨t, y⟩ ⟨t, x⟩ hb ha (mul_comm a b ▸ hab)
    obtain ⟨q, hq⟩ := Bounds.exists_hull? hp
    obtain ⟨q', hq'⟩ := Bounds.exists_hull? hp'
    exact ⟨⟨q, hq, Bounds.mem_of_hull?_eq_some hq hp hap⟩,
      q', hq', Bounds.mem_of_hull?_eq_some hq' hp' hbp⟩

/-! ### Magnitudes -/

theorem magnitudes_nonneg (r : Range) : 0 ≤ (magnitudes r).1 := by
  simp only [magnitudes]
  split <;> omega

/-- The magnitudes of a range enclose those of its values. -/
theorem magnitudes_spec {r : Range} {v : ℤ} (hv : v ∈ r) :
    (magnitudes r).1 ≤ |v| ∧ |v| ≤ (magnitudes r).2 := by
  obtain ⟨h1, h2⟩ := hv
  simp only [magnitudes, Int.natCast_natAbs]
  constructor
  · split
    · exact abs_nonneg v
    · next h0 =>
      rw [Bounds.contains_iff, Bounds.mem_def] at h0
      rcases le_or_gt 0 v with hv | hv
      · rw [abs_of_nonneg hv, abs_of_nonneg (show 0 ≤ r.lo by omega)]
        omega
      · rw [abs_of_neg hv, abs_of_neg (show r.hi < 0 by omega)]
        omega
  · exact abs_le_max_abs_abs h1 h2

/-! ### Dividends -/

theorem mem_signParts {r : Range} {v : ℤ} : (∃ p ∈ signParts r, v ∈ p) ↔ v ∈ r := by
  simp only [signParts, List.mem_append, or_and_right, exists_or, Step.mem_nonzeroParts]
  by_cases h0 : (0 : ℤ) ∈ r
  · rw [if_pos (Bounds.contains_iff.mpr h0)]
    simp only [List.mem_singleton, exists_eq_left, Bounds.mem_point]
    constructor
    · rintro (⟨hv, -⟩ | rfl) <;> assumption
    · exact fun hv => (ne_or_eq v 0).imp_left fun hne => ⟨hv, hne⟩
  · rw [if_neg (mt Bounds.contains_iff.mp h0)]
    simp only [List.not_mem_nil, false_and, exists_false, or_false, and_iff_left_iff_imp]
    rintro hv rfl
    exact h0 hv

/-- The parts of a range that is not empty are not empty, and they have one sign or are zero. -/
theorem signParts_cases {p r : Range} (hr : r.lo ≤ r.hi) (hp : p ∈ signParts r) :
    p.lo ≤ p.hi ∧ (0 < p.lo ∨ p.hi < 0 ∨ p = .point 0) := by
  rw [signParts, List.mem_append] at hp
  rcases hp with hp | hp
  · obtain ⟨⟨hlo, -⟩, hhi, -⟩ := Step.ends_of_mem_nonzeroParts hr hp
    rcases Step.nonzeroParts_cases hp with ⟨hneg, heq⟩ | ⟨hpos, heq⟩
    · exact ⟨heq ▸ hhi.1, .inr (.inl hneg)⟩
    · exact ⟨heq ▸ hlo.2, .inl hpos⟩
  · split at hp
    · obtain rfl := List.mem_singleton.mp hp
      exact ⟨le_rfl, .inr (.inr rfl)⟩
    · cases hp

/-- The dividends whose quotient by some divisor of `d` lies in `t`. -/
def dividendSet (t d : Range) : Set ℤ :=
  {a | ∃ b ∈ d, a.tdiv b ∈ t}

/-- The quotients may be told apart by their sign. -/
theorem dividendSet_signParts (t d : Range) :
    {a | ∃ p ∈ signParts t, a ∈ dividendSet p d} = dividendSet t d := by
  ext a
  constructor
  · rintro ⟨p, hp, b, hb, hq⟩
    exact ⟨b, hb, mem_signParts.mp ⟨p, hp, hq⟩⟩
  · rintro ⟨b, hb, hq⟩
    obtain ⟨p, hp, hq⟩ := mem_signParts.mpr hq
    exact ⟨p, hp, b, hb, hq⟩

/-- Opposite divisors have opposite quotients, and the same dividends. -/
theorem dividendSet_neg (t d : Range) :
    dividendSet ⟨-t.hi, -t.lo⟩ ⟨-d.hi, -d.lo⟩ = dividendSet t d := by
  ext a
  constructor
  · rintro ⟨b, ⟨h1, h2⟩, h3, h4⟩
    refine ⟨-b, ⟨by linarith, by linarith⟩, ?_⟩
    rw [Int.tdiv_neg]
    exact ⟨by linarith, by linarith⟩
  · rintro ⟨b, ⟨h1, h2⟩, h3, h4⟩
    refine ⟨-b, ⟨neg_le_neg h2, neg_le_neg h1⟩, ?_⟩
    rw [Int.tdiv_neg]
    exact ⟨neg_le_neg h4, neg_le_neg h3⟩

/-- The solver makes divisors of one sign positive. -/
private theorem dividends?_eq {r part : Range} (hle : part.lo ≤ part.hi)
    (hpart : part.hi < 0 ∨ 0 < part.lo) :
    ∃ q d : Range, 0 < d.lo ∧ dividendSet q d = dividendSet r part ∧
      dividends? r part = Bounds.hull? ((signParts q).map (dividendsByPositive · d)) := by
  rcases hpart with hneg | hpos
  · refine ⟨⟨-r.hi, -r.lo⟩, ⟨-part.hi, -part.lo⟩, neg_pos.mpr hneg, dividendSet_neg r part, ?_⟩
    simp only [dividends?, if_pos (show part.lo < 0 by omega)]
  · refine ⟨r, part, hpos, rfl, ?_⟩
    simp only [dividends?, if_neg (show ¬part.lo < 0 by omega)]

/-- The dividend of a quotient by a positive divisor. -/
private theorem mem_dividendsByPositive {piece d : Range} (hd : 0 < d.lo) (hb : b ∈ d)
    (hq : a.tdiv b ∈ piece) (hpiece : 0 < piece.lo ∨ piece.hi < 0 ∨ piece = .point 0) :
    a ∈ dividendsByPositive piece d := by
  have hb0 : 0 < b := lt_of_lt_of_le hd hb.1
  obtain ⟨h1, h2⟩ := hb
  obtain ⟨h3, h4⟩ := hq
  rw [dividendsByPositive]
  split_ifs with hpos hneg
  · -- natural quotients
    rcases tdiv_of_pos (a := a) hb0 with ⟨h5, h6, h7, h8⟩ | ⟨-, h6, -, -⟩
    · have hlo := mul_le_mul h3 h1 hd.le h6
      have hhi := mul_le_mul h4 h2 hb0.le (h6.trans h4)
      constructor <;> simp only <;> linarith
    · omega
  · -- negative quotients
    rcases tdiv_of_pos (a := a) hb0 with ⟨-, h6, -, -⟩ | ⟨h5, h6, h7, h8⟩
    · omega
    · have hlo : piece.lo * d.hi ≤ a.tdiv b * b := by nlinarith
      have hhi : a.tdiv b * b ≤ piece.hi * d.lo := by nlinarith
      constructor <;> simp only <;> linarith
  · -- the quotient zero
    obtain rfl : piece = .point 0 := (hpiece.resolve_left hpos).resolve_left hneg
    have hzero : a.tdiv b = 0 := le_antisymm h4 h3
    rcases tdiv_of_pos (a := a) hb0 with ⟨h5, -, h7, h8⟩ | ⟨h5, -, h7, h8⟩ <;>
      rw [hzero] at h7 h8 <;> constructor <;> simp only <;> linarith

/-- The ends of the range found for positive divisors are dividends. -/
private theorem dividendsByPositive_ends {piece d : Range} (hd : 0 < d.lo) (hdle : d.lo ≤ d.hi)
    (hple : piece.lo ≤ piece.hi) (hpiece : 0 < piece.lo ∨ piece.hi < 0 ∨ piece = .point 0) :
    (dividendsByPositive piece d).lo ∈ dividendSet piece d ∧
      (dividendsByPositive piece d).hi ∈ dividendSet piece d := by
  have hdhi : 0 < d.hi := hd.trans_le hdle
  have hplo : piece.lo ∈ piece := ⟨le_rfl, hple⟩
  have hphi : piece.hi ∈ piece := ⟨hple, le_rfl⟩
  have hmem : ∀ {a b q : ℤ}, b ∈ d → q ∈ piece → (0 ≤ q ∧ q * b ≤ a ∧ a < q * b + b) ∨
      (q ≤ 0 ∧ a ≤ q * b ∧ q * b - b < a) → a ∈ dividendSet piece d := by
    intro a b q hb hq h
    exact ⟨b, hb, (tdiv_eq_of_pos (hd.trans_le hb.1) h).symm ▸ hq⟩
  have hnear : d.lo ∈ d := ⟨le_rfl, hdle⟩
  have hfar : d.hi ∈ d := ⟨hdle, le_rfl⟩
  -- the end next to zero belongs to the smallest divisor, the other one to the largest
  rw [dividendsByPositive]
  split_ifs with hpos hneg
  · exact ⟨hmem hnear hplo (.inl ⟨hpos.le, le_rfl, by simp only; linarith⟩),
      hmem hfar hphi (.inl ⟨by omega, by simp only; linarith, by simp only; linarith⟩)⟩
  · exact ⟨hmem hfar hplo (.inr ⟨by omega, by simp only; linarith, by simp only; linarith⟩),
      hmem hnear hphi (.inr ⟨hneg.le, le_rfl, by simp only; linarith⟩)⟩
  · obtain rfl : piece = .point 0 := (hpiece.resolve_left hpos).resolve_left hneg
    have hzero : (0 : ℤ) ∈ Bounds.point 0 := Bounds.mem_point.mpr rfl
    exact ⟨hmem hfar hzero (.inr ⟨le_rfl, by simp only; linarith, by simp only; linarith⟩),
      hmem hfar hzero (.inl ⟨le_rfl, by simp only; linarith, by simp only; linarith⟩)⟩

/-- The range found for divisors of one sign is the smallest one around the dividends. -/
theorem exists_isHull_dividends {r part : Range} (hpart : part.hi < 0 ∨ 0 < part.lo)
    (hne : (dividendSet r part).Nonempty) :
    ∃ d, dividends? r part = some d ∧ d.IsHull (dividendSet r part) := by
  have hle : part.lo ≤ part.hi := by
    obtain ⟨a, b, hb, -⟩ := hne
    exact hb.1.trans hb.2
  obtain ⟨q, d, hd, hset, heq⟩ := dividends?_eq (r := r) hle hpart
  rw [← hset] at hne ⊢
  obtain ⟨a, b, hb, hq⟩ := hne
  have hdle : d.lo ≤ d.hi := hb.1.trans hb.2
  have hqle : q.lo ≤ q.hi := hq.1.trans hq.2
  have hpieces : ∀ p ∈ signParts q, (dividendsByPositive p d).IsHull (dividendSet p d) := by
    intro p hp
    obtain ⟨hple, hcases⟩ := signParts_cases hqle hp
    obtain ⟨hlo, hhi⟩ := dividendsByPositive_ends hd hdle hple hcases
    refine ⟨⟨hlo, ?_⟩, hhi, ?_⟩ <;> rintro v ⟨b, hb, hv⟩
    · exact (mem_dividendsByPositive hd hb hv hcases).1
    · exact (mem_dividendsByPositive hd hb hv hcases).2
  obtain ⟨p, hp, -⟩ := mem_signParts.mpr hq
  obtain ⟨h, hh⟩ := Bounds.exists_hull? (List.mem_map_of_mem (f := (dividendsByPositive · d)) hp)
  have hhull := Bounds.isHull_of_hull?_eq_some hpieces hh
  rw [dividendSet_signParts] at hhull
  exact ⟨h, heq.trans hh, hhull⟩

/-- For a range of quotients and a range of divisors of one sign, the solver finds the smallest
range around the dividends: its ends are the least and the greatest integer whose truncated quotient
by some divisor lies among the quotients. -/
theorem dividends?_exact (t part : Range) (ht : t.lo ≤ t.hi) (hle : part.lo ≤ part.hi)
    (hpart : part.hi < 0 ∨ 0 < part.lo) :
    ∃ d, dividends? t part = some d ∧ IsLeast {x | ∃ y ∈ part, x.tdiv y ∈ t} d.lo ∧
      IsGreatest {x | ∃ y ∈ part, x.tdiv y ∈ t} d.hi := by
  have hne : (dividendSet t part).Nonempty := by
    refine ⟨t.lo * part.lo, part.lo, ⟨le_rfl, hle⟩, ?_⟩
    rw [Int.mul_tdiv_cancel _ (by omega)]
    exact ⟨le_rfl, ht⟩
  obtain ⟨d, hd, hhull⟩ := exists_isHull_dividends hpart hne
  exact ⟨d, hd, hhull.isLeast_lo, hhull.isGreatest_hi⟩

/-- Quotients of either sign and negative divisors. -/
theorem dividends?_exact_negative :
    (-1 : ℤ) ≤ 4 ∧ (-3 : ℤ) ≤ -2 ∧ (-2 : ℤ) < 0 ∧
      dividends? ⟨-1, 4⟩ ⟨-3, -2⟩ = some ⟨-14, 5⟩ ∧
      IsLeast {x : ℤ | ∃ y ∈ (⟨-3, -2⟩ : Range), x.tdiv y ∈ (⟨-1, 4⟩ : Range)} (-14) ∧
      IsGreatest {x : ℤ | ∃ y ∈ (⟨-3, -2⟩ : Range), x.tdiv y ∈ (⟨-1, 4⟩ : Range)} 5 := by
  have hfound : dividends? ⟨-1, 4⟩ ⟨-3, -2⟩ = some ⟨-14, 5⟩ := by decide
  obtain ⟨d, hd, hlo, hhi⟩ :=
    dividends?_exact ⟨-1, 4⟩ ⟨-3, -2⟩ (by decide) (by decide) (.inl (by decide))
  cases hd.symm.trans hfound
  exact ⟨by decide, by decide, by decide, hfound, hlo, hhi⟩

/-! ### Quotients -/

/-- The dividend of a quotient is one of those found for the sign of the divisor. -/
theorem exists_mem_dividends {r part : Range} (hpart : part.hi < 0 ∨ 0 < part.lo) (hb : b ∈ part)
    (hq : a.tdiv b ∈ r) : ∃ d ∈ dividends? r part, a ∈ d := by
  have ha : a ∈ dividendSet r part := ⟨b, hb, hq⟩
  obtain ⟨d, hd, hhull⟩ := exists_isHull_dividends hpart ⟨a, ha⟩
  exact ⟨d, hd, hhull.isLeast_lo.2 ha, hhull.isGreatest_hi.2 ha⟩

/-- The quotient and the divisor bound the magnitude of the dividend from both sides. -/
private theorem abs_tdiv_mul_le (hb : b ≠ 0) :
    |a.tdiv b| * |b| ≤ |a| ∧ |a| < (|a.tdiv b| + 1) * |b| := by
  have hpos : ∀ b : ℤ, 0 < b → |a.tdiv b| * b ≤ |a| ∧ |a| < (|a.tdiv b| + 1) * b := by
    intro b hb
    rcases tdiv_of_pos (a := a) hb with ⟨h1, h2, h3, h4⟩ | ⟨h1, h2, h3, h4⟩
    · rw [abs_of_nonneg h1, abs_of_nonneg h2]
      constructor <;> linarith
    · rw [abs_of_neg h1, abs_of_nonpos h2]
      constructor <;> linarith
  rcases lt_or_gt_of_ne hb with h | h
  · have := hpos (-b) (by omega)
    rwa [Int.tdiv_neg, abs_neg, ← abs_of_neg h] at this
  · rw [abs_of_pos h]
    exact hpos b h

/-- The divisor of a quotient is one of those found for its sign. -/
theorem exists_mem_divisors {xs r part : Range} (hpart : part.hi < 0 ∨ 0 < part.lo) (ha : a ∈ xs)
    (hb : b ∈ part) (hq : a.tdiv b ∈ r) : ∃ d ∈ divisors? xs r part, b ∈ d := by
  have hb0 : b ≠ 0 := by
    rintro rfl
    have := hb.1
    have := hb.2
    omega
  obtain ⟨h1, h2⟩ := abs_tdiv_mul_le (a := a) hb0
  obtain ⟨hx1, hx2⟩ := magnitudes_spec ha
  obtain ⟨hq1, hq2⟩ := magnitudes_spec hq
  have hbpos : 0 < |b| := abs_pos.mpr hb0
  have hq0 := magnitudes_nonneg r
  have hleast : floorDiv (magnitudes xs).1 ((magnitudes r).2 + 1) + 1 ≤ |b| := by
    have hpos : 0 < (magnitudes r).2 + 1 := by linarith
    refine (floorDiv_lt_iff hpos).mpr ?_
    have := mul_le_mul_of_nonneg_right (show |a.tdiv b| + 1 ≤ (magnitudes r).2 + 1 by linarith)
      hbpos.le
    linarith
  have hmost : |b| ≤ if (magnitudes r).1 = 0 then (magnitudes part).2
      else floorDiv (magnitudes xs).2 (magnitudes r).1 := by
    split
    · exact (magnitudes_spec hb).2
    · next hne =>
      refine (le_floorDiv_iff (lt_of_le_of_ne hq0 (Ne.symm hne))).mpr ?_
      have := mul_le_mul_of_nonneg_right hq1 hbpos.le
      linarith
  obtain ⟨h3, h4⟩ := hb
  simp only [divisors?]
  refine Bounds.exists_meet? ?_ ⟨h3, h4⟩
  rcases hpart with hneg | hpos
  · rw [if_pos (show part.lo < 0 by omega)]
    rw [abs_of_neg (show b < 0 by omega)] at hleast hmost
    exact ⟨by simp only; linarith, by simp only; linarith⟩
  · rw [if_neg (show ¬part.lo < 0 by omega)]
    rw [abs_of_pos (show 0 < b by omega)] at hleast hmost
    exact ⟨hleast, hmost⟩

/-- A quotient that does not fit is that of the least value by minus one. -/
private theorem eq_of_tdiv_overflows (ha : t.contains a = true) (hb : t.contains b = true)
    (hb0 : b ≠ 0) (h : t.contains (a.tdiv b) ≠ true) :
    t.signed = true ∧ a = t.minValue ∧ b = -1 ∧ t.wrap (a.tdiv b) = t.minValue := by
  rw [IntType.contains_iff] at ha hb
  rw [Ne, IntType.contains_iff] at h
  have hmin := t.minValue_nonpos
  have hmax := t.maxValue_nonneg
  rcases lt_or_gt_of_ne hb0 with hneg | hpos
  · -- a negative divisor turns the quotient around, and only the least value has no opposite
    obtain ⟨d, rfl⟩ : ∃ d, b = -d := ⟨-b, by ring⟩
    have hd : 0 < d := by omega
    rw [Int.tdiv_neg] at h ⊢
    rcases t.layout with ⟨hs, hlo, hhi⟩ | ⟨-, hlo, -⟩
    · rcases tdiv_of_pos (a := a) hd with ⟨h1, h2, h3, -⟩ | ⟨h1, h2, h3, -⟩
      · have : a.tdiv d ≤ a := by nlinarith
        omega
      · have hge : a.tdiv d * d ≤ a.tdiv d := by nlinarith
        have hq : a.tdiv d = -t.half := by omega
        have ha : a = -t.half := by omega
        have hd1 : d = 1 := by
          rw [hq] at h3
          nlinarith [t.half_pos]
        refine ⟨hs, by omega, by omega, ?_⟩
        refine IntType.wrap_eq_of_add_mul (k := 1) (IntType.contains_iff.mpr (by omega)) ?_
        have := t.modulus_eq_two_mul
        omega
    · omega
  · rcases tdiv_of_pos (a := a) hpos with ⟨h1, h2, h3, -⟩ | ⟨h1, h2, h3, -⟩
    · have : a.tdiv b ≤ a := by nlinarith
      omega
    · have : a.tdiv b * b ≤ a.tdiv b := by nlinarith
      omega

/-- A zero divisor is pruned or ruled out where the solver goes on. -/
private theorem ne_zero_of_reaches {f : Outcome} {v : ℤ} {y : Span} (hb : b ∈ y.range)
    (hz : ¬(y.hasZero && !stops) = true)
    (hv : v ∈ (if b = 0 then Outcome.failed stops else f).values t) : b ≠ 0 ∧ v ∈ f.values t := by
  split at hv
  · next h0 =>
    subst h0
    obtain ⟨hs, -⟩ := Outcome.mem_values_failed.mp hv
    refine absurd ?_ hz
    rw [hs, Bool.not_false, Bool.and_true, Span.hasZero, Bounds.contains_iff]
    exact hb
  · next h0 => exact ⟨h0, hv⟩

theorem divide_inverts (hx : x.Proper t) (hy : y.Proper t) (hz : z.Proper t) :
    (divide stops ⟨⟨t, x⟩, some ⟨t, y⟩, ⟨t, z⟩, c⟩).Inverts
      (Operation.divide.Reaches stops t u t z.toSet) x.toSet y.toSet := by
  simp only [divide, Frame.second, Option.getD_some]
  split
  · exact ⟨keeps_unknown, isTight_of_not_exact⟩
  next hzero =>
  refine ⟨keeps_ofPairs fun a ha b hb hR => ?_,
    isTight_ofPairs fun h => absurd h Bool.false_ne_true⟩
  obtain ⟨v, hv, hR⟩ := hR
  obtain ⟨hb0, hlands⟩ := ne_zero_of_reaches (y := ⟨t, y⟩) hb hzero hR
  by_cases hfit : a.tdiv b ∈ z
  · obtain ⟨part, hpart, hbp⟩ := Step.mem_nonzeroParts.mpr ⟨hb, hb0⟩
    have hsign : part.hi < 0 ∨ 0 < part.lo :=
      (Step.nonzeroParts_cases hpart).imp And.left And.left
    obtain ⟨d, hd, had⟩ := exists_mem_dividends hsign hbp hfit
    obtain ⟨xs, hxs, hax⟩ := Bounds.exists_meet? had ha
    obtain ⟨ys, hys, hby⟩ := exists_mem_divisors hsign hax hbp hfit
    refine ⟨(xs, ys), List.mem_append_left _ (List.mem_filterMap.mpr ⟨part, hpart, ?_⟩), hax, hby⟩
    rw [Option.mem_def] at hd hys
    simp only [hd, Option.bind_some, hxs, hys, Option.map_some]
  · -- the quotient is in the result only after it wrapped around
    have hover : ¬(stops = true ∨ t.contains (a.tdiv b) = true) := fun h =>
      hfit (mem_of_lands hz ⟨v, hv, hlands⟩ h)
    rw [not_or, Bool.not_eq_true] at hover
    obtain ⟨hs, rfl, rfl, hwrap⟩ :=
      eq_of_tdiv_overflows (hx.contains ha) (hy.contains hb) hb0 hover.2
    rw [hover.1, Outcome.mem_values_stored_false, hwrap] at hlands
    subst hlands
    refine ⟨(.point t.minValue, .point (-1)), List.mem_append_right _ ?_, ?_, ?_⟩
    · have h1 := Bounds.contains_iff.mpr hv
      have h2 := Bounds.contains_iff.mpr ha
      have h3 := Bounds.contains_iff.mpr hb
      simp [hs, hover.1, h1, h2, h3]
    · exact Bounds.mem_point.mpr rfl
    · exact Bounds.mem_point.mpr rfl

/-! ### Remainders -/

/-- A remainder is smaller than the divisor, and has the sign of the dividend but no larger
magnitude. -/
private theorem tmod_spec (hb : b ≠ 0) : |a.tmod b| < |b| ∧
    (0 < a.tmod b → a.tmod b ≤ a) ∧ (a.tmod b < 0 → a ≤ a.tmod b) := by
  have h1 : (a.tmod b).natAbs < b.natAbs := by
    rw [Int.natAbs_tmod]
    exact Nat.mod_lt _ (Int.natAbs_pos.mpr hb)
  have h2 : (a.tmod b).natAbs ≤ a.natAbs := by
    rw [Int.natAbs_tmod]
    exact Nat.mod_le _ _
  rw [Int.abs_eq_natAbs, Int.abs_eq_natAbs]
  refine ⟨by exact_mod_cast h1, ?_⟩
  rcases le_total 0 a with ha | ha
  · have := Int.tmod_nonneg b ha
    omega
  · have := Int.tmod_nonneg b (show 0 ≤ -a by omega)
    rw [Int.neg_tmod] at this
    omega

theorem modulo_inverts :
    (modulo stops ⟨⟨t, x⟩, some ⟨t, y⟩, ⟨t, z⟩, c⟩).Inverts
      (Operation.modulo.Reaches stops t u t z.toSet) x.toSet y.toSet := by
  simp only [modulo, Frame.second, Option.getD_some]
  split
  · exact ⟨keeps_unknown, isTight_of_not_exact⟩
  next hz =>
  rw [Bool.or_eq_true, not_or, Span.hasZero, Bounds.contains_iff] at hz
  obtain ⟨hz0, hzero⟩ := hz
  refine ⟨keeps_both? fun a ha b hb hR => ?_, isTight_both? fun h => absurd h Bool.false_ne_true⟩
  obtain ⟨v, hv, hR⟩ := hR
  obtain ⟨hb0, hv'⟩ := ne_zero_of_reaches (y := ⟨t, y⟩) hb hzero hR
  rw [Outcome.mem_values_value] at hv'
  subst hv'
  obtain ⟨hlt, hpos, hneg⟩ := tmod_spec (a := a) hb0
  have hz0 : ¬(z.lo ≤ 0 ∧ 0 ≤ z.hi) := hz0
  have hv : z.lo ≤ a.tmod b ∧ a.tmod b ≤ z.hi := hv
  have ha' : x.lo ≤ a ∧ a ≤ x.hi := ha
  constructor
  · -- the dividend is at least as far from zero as the remainder
    by_cases hlo : 0 < z.lo
    · obtain ⟨q, hq, haq⟩ := Bounds.exists_meet? (r := ⟨z.lo, x.hi⟩) ⟨by simp only; omega, ha'.2⟩ ha
      exact ⟨q, (if_pos hlo).trans hq, haq⟩
    · obtain ⟨q, hq, haq⟩ := Bounds.exists_meet? (r := ⟨x.lo, z.hi⟩) ⟨ha'.1, by simp only; omega⟩ ha
      exact ⟨q, (if_neg hlo).trans hq, haq⟩
  · obtain ⟨part, hpart, hbp⟩ := Step.mem_nonzeroParts.mpr ⟨hb, hb0⟩
    have hbound : (magnitudes z).1 + 1 ≤ |b| := by
      have := (magnitudes_spec (r := z) hv).1
      omega
    obtain ⟨q, hq, hbq⟩ : ∃ q, Bounds.meet? (if part.lo < 0 then
        ⟨part.lo, -((magnitudes z).1 + 1)⟩ else ⟨(magnitudes z).1 + 1, part.hi⟩) part = some q ∧
          b ∈ q := by
      refine Bounds.exists_meet? ?_ hbp
      obtain ⟨h1, h2⟩ := hbp
      rcases Step.nonzeroParts_cases hpart with h | h
      · rw [if_pos (by omega)]
        rw [abs_of_neg (by omega)] at hbound
        exact ⟨h1, by simp only; omega⟩
      · rw [if_neg (by omega)]
        rw [abs_of_pos (by omega)] at hbound
        exact ⟨hbound, h2⟩
    have hmem : q ∈ (Step.nonzeroParts y).filterMap fun part => Bounds.meet? (if part.lo < 0 then
        ⟨part.lo, -((magnitudes z).1 + 1)⟩ else ⟨(magnitudes z).1 + 1, part.hi⟩) part :=
      List.mem_filterMap.mpr ⟨part, hpart, hq⟩
    obtain ⟨r, hr⟩ := Bounds.exists_hull? hmem
    exact ⟨r, hr, Bounds.mem_of_hull?_eq_some hr hmem hbq⟩

end Narrowing

end ScalarDomain
