import ScalarDomain.Proofs.Word

/-!
# Ranges of integers

Meets, hulls and listed values of ranges, said through membership. The two conversions between
values and patterns are exact: the pieces of `IntType.bitRanges` hold the patterns of the values
of a range and nothing else (`IntType.mem_bitRanges`), and the pieces of `IntType.valueRanges`
hold the values of a range of patterns and nothing else (`IntType.mem_valueRanges`). An extension
into a wider type adds a constant on each half of a type (`IntType.extensionSegments_cases`).

Quotients rounded down and up are described by the inequality they solve, for divisors of either
sign; products and truncated quotients lie between their values at the ends of a range.
-/

namespace ScalarDomain

/-- The two smallest ranges that hold a set of pairs. -/
structure Encloses {α : Type} [LinearOrder α] (lhs rhs : Bounds α) (F : Set (α × α)) : Prop where
  /-- The smallest first value. -/
  first_lo : IsLeast (Prod.fst '' F) lhs.lo
  /-- The largest first value. -/
  first_hi : IsGreatest (Prod.fst '' F) lhs.hi
  /-- The smallest second value. -/
  second_lo : IsLeast (Prod.snd '' F) rhs.lo
  /-- The largest second value. -/
  second_hi : IsGreatest (Prod.snd '' F) rhs.hi

namespace Bounds

variable {r s : Range} {v : ℤ}

/-! ### Membership -/

/-- An integer of a range lies between its ends. -/
instance : Membership ℤ Range :=
  ⟨fun r v => r.lo ≤ v ∧ v ≤ r.hi⟩

theorem mem_def : v ∈ r ↔ r.lo ≤ v ∧ v ≤ r.hi := Iff.rfl

@[simp] theorem mem_mk {lo hi : ℤ} : v ∈ (⟨lo, hi⟩ : Range) ↔ lo ≤ v ∧ v ≤ hi := Iff.rfl

@[simp] theorem mem_point {u : ℤ} : v ∈ point u ↔ v = u := by
  simp only [point, mem_mk]
  omega

@[simp] theorem contains_iff : r.contains v = true ↔ v ∈ r := by
  simp [contains, mem_def]

/-- The integers of a range, as a set. -/
def toSet (r : Range) : Set ℤ := {v | v ∈ r}

@[simp] theorem mem_toSet : v ∈ r.toSet ↔ v ∈ r := Iff.rfl

/-- A range that is not empty and lies in a type. -/
structure Proper (r : Range) (t : IntType) : Prop where
  /-- The range is not empty. -/
  le : r.lo ≤ r.hi
  /-- The lower end is a value of the type. -/
  lo_mem : t.contains r.lo = true
  /-- The upper end is a value of the type. -/
  hi_mem : t.contains r.hi = true

instance decidableProper (r : Range) (t : IntType) : Decidable (r.Proper t) :=
  decidable_of_iff (r.lo ≤ r.hi ∧ t.contains r.lo = true ∧ t.contains r.hi = true)
    ⟨fun ⟨hle, hlo, hhi⟩ => ⟨hle, hlo, hhi⟩, fun h => ⟨h.le, h.lo_mem, h.hi_mem⟩⟩

namespace Proper

variable {t : IntType}

/-- A proper range holds values of its type only. -/
theorem contains (h : r.Proper t) (hv : v ∈ r) : t.contains v = true :=
  IntType.contains_of_between h.lo_mem h.hi_mem hv.1 hv.2

theorem lo_mem_self (h : r.Proper t) : r.lo ∈ r :=
  ⟨le_refl _, h.le⟩

theorem hi_mem_self (h : r.Proper t) : r.hi ∈ r :=
  ⟨h.le, le_refl _⟩

theorem point (h : t.contains v = true) : (Bounds.point v).Proper t :=
  ⟨le_refl _, h, h⟩

/-- The range of all values of a type is proper. -/
theorem full (t : IntType) : t.full.Proper t :=
  ⟨t.minValue_lt_maxValue.le,
    IntType.contains_iff.mpr ⟨le_refl _, t.minValue_lt_maxValue.le⟩,
    IntType.contains_iff.mpr ⟨t.minValue_lt_maxValue.le, le_refl _⟩⟩

/-- The ends of a proper range in order, between those of the type. -/
theorem bounds (h : r.Proper t) : t.minValue ≤ r.lo ∧ r.lo ≤ r.hi ∧ r.hi ≤ t.maxValue :=
  ⟨(IntType.contains_iff.mp h.lo_mem).1, h.le, (IntType.contains_iff.mp h.hi_mem).2⟩

/-- Ends in order between those of the type make a proper range. -/
theorem of_bounds (hlo : t.minValue ≤ r.lo) (hle : r.lo ≤ r.hi) (hhi : r.hi ≤ t.maxValue) :
    r.Proper t :=
  ⟨hle, IntType.contains_iff.mpr ⟨hlo, hle.trans hhi⟩,
    IntType.contains_iff.mpr ⟨hlo.trans hle, hhi⟩⟩

end Proper

/-- The full range of a type is the type. -/
@[simp] theorem mem_full {t : IntType} : v ∈ t.full ↔ t.contains v = true := by
  rw [IntType.contains_iff]
  rfl

/-! ### Meets -/

/-- A meet is the intersection. -/
theorem mem_of_meet?_eq_some {q : Range} (h : meet? r s = some q) : v ∈ q ↔ v ∈ r ∧ v ∈ s := by
  simp only [meet?] at h
  split at h
  · cases h
    simp only [mem_def]
    omega
  · cases h

/-- A meet is not empty. -/
theorem le_of_meet?_eq_some {q : Range} (h : meet? r s = some q) : q.lo ≤ q.hi := by
  simp only [meet?] at h
  split at h
  · cases h
    assumption
  · cases h

/-- Without a meet the ranges are disjoint. -/
theorem not_mem_of_meet?_eq_none (h : meet? r s = none) (hr : v ∈ r) : v ∉ s := by
  simp only [meet?] at h
  split at h
  · cases h
  · simp only [mem_def] at *
    omega

/-- Two ranges with a common integer have a meet. -/
theorem exists_meet? (hr : v ∈ r) (hs : v ∈ s) : ∃ q, meet? r s = some q ∧ v ∈ q := by
  cases h : meet? r s with
  | none => exact absurd hs (not_mem_of_meet?_eq_none h hr)
  | some q => exact ⟨q, rfl, (mem_of_meet?_eq_some h).mpr ⟨hr, hs⟩⟩

/-! ### Hulls -/

/-- The hull of one range and a list of ranges: it holds them all, and its ends are ends of some of
them. -/
private theorem foldl_hull (rs : List Range) (r : Range) :
    let h := rs.foldl (fun s t => (⟨min s.lo t.lo, max s.hi t.hi⟩ : Range)) r
    (∀ q ∈ r :: rs, h.lo ≤ q.lo ∧ q.hi ≤ h.hi) ∧
      (∃ q ∈ r :: rs, q.lo = h.lo) ∧ ∃ q ∈ r :: rs, q.hi = h.hi := by
  induction rs generalizing r with
  | nil => simp
  | cons q rs ih =>
    obtain ⟨h1, ⟨a, ha, hal⟩, b, hb, hbh⟩ := ih ⟨min r.lo q.lo, max r.hi q.hi⟩
    have h0 := h1 _ List.mem_cons_self
    simp only [List.foldl_cons]
    refine ⟨fun p hp => ?_, ?_, ?_⟩
    · rcases List.mem_cons.mp hp with rfl | hp
      · exact ⟨h0.1.trans (min_le_left _ _), (le_max_left _ _).trans h0.2⟩
      rcases List.mem_cons.mp hp with rfl | hp
      · exact ⟨h0.1.trans (min_le_right _ _), (le_max_right _ _).trans h0.2⟩
      · exact h1 p (List.mem_cons_of_mem _ hp)
    · rcases List.mem_cons.mp ha with rfl | ha
      · rcases min_choice r.lo q.lo with hm | hm
        · exact ⟨r, by simp, by rw [← hal]; exact hm.symm⟩
        · exact ⟨q, by simp, by rw [← hal]; exact hm.symm⟩
      · exact ⟨a, by simp [ha], hal⟩
    · rcases List.mem_cons.mp hb with rfl | hb
      · rcases max_choice r.hi q.hi with hm | hm
        · exact ⟨r, by simp, by rw [← hbh]; exact hm.symm⟩
        · exact ⟨q, by simp, by rw [← hbh]; exact hm.symm⟩
      · exact ⟨b, by simp [hb], hbh⟩

/-- Only no range at all has no hull. -/
theorem hull?_eq_none_iff {rs : List Range} : hull? rs = none ↔ rs = [] := by
  cases rs <;> simp [hull?]

/-- The hull of some ranges covers them all. -/
theorem le_of_hull?_eq_some {rs : List Range} {h q : Range} (he : hull? rs = some h) (hq : q ∈ rs) :
    h.lo ≤ q.lo ∧ q.hi ≤ h.hi := by
  cases rs with
  | nil => simp at hq
  | cons r rs =>
    cases he
    exact (foldl_hull rs r).1 q hq

/-- A hull holds all that its pieces hold. -/
theorem mem_of_hull?_eq_some {rs : List Range} {h q : Range} (he : hull? rs = some h) (hq : q ∈ rs)
    (hv : v ∈ q) : v ∈ h := by
  have := le_of_hull?_eq_some he hq
  exact ⟨this.1.trans hv.1, hv.2.trans this.2⟩

/-- The ends of a hull are ends of some of the ranges. -/
theorem exists_ends_of_hull?_eq_some {rs : List Range} {h : Range} (he : hull? rs = some h) :
    (∃ q ∈ rs, q.lo = h.lo) ∧ ∃ q ∈ rs, q.hi = h.hi := by
  cases rs with
  | nil => cases he
  | cons r rs =>
    cases he
    exact (foldl_hull rs r).2

theorem exists_hull? {rs : List Range} {q : Range} (hq : q ∈ rs) : ∃ h, hull? rs = some h := by
  cases h : hull? rs with
  | none => simp [hull?_eq_none_iff.mp h] at hq
  | some hull => exact ⟨hull, rfl⟩

/-- The hull of ranges of a type is one. -/
theorem proper_of_hull?_eq_some {t : IntType} {rs : List Range} {h : Range}
    (he : hull? rs = some h) (hrs : ∀ q ∈ rs, q.Proper t) : h.Proper t := by
  obtain ⟨⟨a, ha, hal⟩, b, hb, hbh⟩ := exists_ends_of_hull?_eq_some he
  refine ⟨?_, hal ▸ (hrs a ha).lo_mem, hbh ▸ (hrs b hb).hi_mem⟩
  have := (le_of_hull?_eq_some he hb).1
  have := (hrs b hb).le
  omega

/-- The smallest range that holds a set of integers. -/
structure IsHull (r : Range) (S : Set ℤ) : Prop where
  /-- The lower end is the least of them. -/
  isLeast_lo : IsLeast S r.lo
  /-- The upper end is the greatest of them. -/
  isGreatest_hi : IsGreatest S r.hi

/-- The hull of smallest ranges is the smallest range around all their integers. -/
theorem isHull_of_hull?_eq_some {α : Type} {l : List α} {f : α → Range} {S : α → Set ℤ} {h : Range}
    (hf : ∀ a ∈ l, (f a).IsHull (S a)) (he : hull? (l.map f) = some h) :
    h.IsHull {v | ∃ a ∈ l, v ∈ S a} := by
  have hle : ∀ a ∈ l, h.lo ≤ (f a).lo ∧ (f a).hi ≤ h.hi := fun a ha =>
    le_of_hull?_eq_some he (List.mem_map_of_mem ha)
  obtain ⟨⟨p, hp, hlo⟩, q, hq, hhi⟩ := exists_ends_of_hull?_eq_some he
  obtain ⟨a, ha, rfl⟩ := List.mem_map.mp hp
  obtain ⟨b, hb, rfl⟩ := List.mem_map.mp hq
  refine ⟨⟨⟨a, ha, hlo ▸ (hf a ha).isLeast_lo.1⟩, ?_⟩, ⟨b, hb, hhi ▸ (hf b hb).isGreatest_hi.1⟩, ?_⟩
  · rintro v ⟨c, hc, hv⟩
    exact (hle c hc).1.trans ((hf c hc).isLeast_lo.2 hv)
  · rintro v ⟨c, hc, hv⟩
    exact ((hf c hc).isGreatest_hi.2 hv).trans (hle c hc).2

/-- The span of some values holds each of them. -/
theorem le_of_span?_eq_some {vs : List ℤ} {h : Range} (he : span? vs = some h) {u : ℤ}
    (hu : u ∈ vs) : u ∈ h :=
  le_of_hull?_eq_some he (List.mem_map_of_mem hu)

theorem exists_span? {vs : List ℤ} {u : ℤ} (hu : u ∈ vs) : ∃ h, span? vs = some h :=
  exists_hull? (List.mem_map_of_mem (f := point) hu)

/-- The ends of a span are values. -/
theorem ends_mem_of_span?_eq_some {vs : List ℤ} {h : Range} (he : span? vs = some h) :
    h.lo ∈ vs ∧ h.hi ∈ vs := by
  obtain ⟨⟨a, ha, hal⟩, b, hb, hbh⟩ := exists_ends_of_hull?_eq_some he
  obtain ⟨u, hu, rfl⟩ := List.mem_map.mp ha
  obtain ⟨w, hw, rfl⟩ := List.mem_map.mp hb
  exact ⟨hal ▸ hu, hbh ▸ hw⟩

/-! ### Listed values -/

/-- The first `n` integers of a range. -/
theorem mem_values {n : ℕ} : v ∈ r.values n ↔ v ∈ r ∧ v < r.lo + n := by
  simp only [values, List.mem_map, List.mem_range, mem_def]
  constructor
  · rintro ⟨i, hi, rfl⟩
    omega
  · rintro ⟨⟨h1, h2⟩, h3⟩
    exact ⟨(v - r.lo).toNat, by omega, by omega⟩

/-- A range with at most `n` values is listed whole. -/
theorem mem_values_iff {n : ℕ} (h : r.hi - r.lo < n) : v ∈ r.values n ↔ v ∈ r := by
  rw [mem_values, and_iff_left_iff_imp]
  intro hv
  have := hv.2
  omega

/-- As many integers as asked for, or all that the range has. -/
theorem length_values (r : Range) (n : ℕ) :
    (r.values n).length = min n (r.hi - r.lo + 1).toNat := by
  simp [values]

theorem pairwise_values (r : Range) (n : ℕ) : (r.values n).Pairwise (· < ·) := by
  refine List.pairwise_map.mpr (List.pairwise_lt_range.imp fun h => ?_)
  omega

end Bounds

/-! ### Rounded quotients -/

/-- For a positive divisor, rounding down is Euclidean division. -/
theorem floorDiv_eq_ediv {a b : ℤ} (hb : 0 < b) : floorDiv a b = a / b :=
  Int.fdiv_eq_ediv_of_nonneg a hb.le

/-- The quotient rounded down is the greatest `q` with `q * b ≤ a`. -/
theorem le_floorDiv_iff {a b q : ℤ} (hb : 0 < b) : q ≤ floorDiv a b ↔ q * b ≤ a := by
  rw [floorDiv_eq_ediv hb, Int.le_ediv_iff_mul_le hb]

theorem floorDiv_lt_iff {a b q : ℤ} (hb : 0 < b) : floorDiv a b < q ↔ a < q * b := by
  rw [floorDiv_eq_ediv hb, Int.ediv_lt_iff_lt_mul hb]

/-- The quotient rounded up is the least `q` with `a ≤ q * b`. -/
theorem ceilDiv_le_iff {a b q : ℤ} (hb : 0 < b) : ceilDiv a b ≤ q ↔ a ≤ q * b := by
  have h := le_floorDiv_iff (a := -a) (q := -q) hb
  simp only [floorDiv] at h
  rw [ceilDiv]
  constructor
  · intro hq
    have := h.mp (by omega)
    linarith
  · intro hq
    have := h.mpr (by linarith)
    omega

private theorem fdiv_neg_right (a b : ℤ) : a.fdiv (-b) = (-a).fdiv b := by
  have h := Int.neg_fdiv_neg (-a) b
  rw [neg_neg] at h
  exact h

/-- A negative divisor turns the inequality around. -/
theorem le_floorDiv_iff_of_neg {a b q : ℤ} (hb : b < 0) : q ≤ floorDiv a b ↔ a ≤ q * b := by
  have h := le_floorDiv_iff (a := -a) (q := q) (b := -b) (by omega)
  rw [floorDiv, fdiv_neg_right, neg_neg] at h
  rw [floorDiv, h]
  constructor <;> intro hq <;> linarith

/-- And so it does for the quotient rounded up. -/
theorem ceilDiv_le_iff_of_neg {a b q : ℤ} (hb : b < 0) : ceilDiv a b ≤ q ↔ q * b ≤ a := by
  have h := ceilDiv_le_iff (a := -a) (q := q) (b := -b) (by omega)
  rw [ceilDiv, fdiv_neg_right, neg_neg] at h
  rw [ceilDiv, h]
  constructor <;> intro hq <;> linarith

/-- The quotients by a positive number of a range are the range of the quotients of its ends. -/
theorem ediv_mem_iff {lo hi d n : ℤ} (hle : lo ≤ hi) (hd : 0 < d) :
    (∃ p, lo ≤ p ∧ p ≤ hi ∧ p / d = n) ↔ lo / d ≤ n ∧ n ≤ hi / d := by
  constructor
  · rintro ⟨p, h1, h2, rfl⟩
    exact ⟨Int.ediv_le_ediv hd h1, Int.ediv_le_ediv hd h2⟩
  · rintro ⟨h1, h2⟩
    rw [Int.le_ediv_iff_mul_le hd] at h2
    refine ⟨max lo (n * d), le_max_left _ _, max_le hle h2, le_antisymm ?_ ?_⟩
    · rw [← Int.lt_add_one_iff, Int.ediv_lt_iff_lt_mul hd]
      rw [← Int.lt_add_one_iff, Int.ediv_lt_iff_lt_mul hd] at h1
      exact max_lt h1 (mul_lt_mul_of_pos_right (by omega) hd)
    · exact (Int.le_ediv_iff_mul_le hd).mpr (le_max_right _ _)

/-- Remainders of a range that does not cross a multiple of the modulus are a range. -/
theorem emod_mem_iff {lo hi m n : ℤ} (hm : 0 < m) (hlohi : lo ≤ hi)
    (hshort : hi - lo + 1 < m) (hle : lo % m ≤ hi % m) :
    (∃ k, lo ≤ k ∧ k ≤ hi ∧ k % m = n) ↔ lo % m ≤ n ∧ n ≤ hi % m := by
  have h1 := Int.mul_ediv_add_emod lo m
  have h2 := Int.mul_ediv_add_emod hi m
  have h3 := Int.emod_nonneg lo hm.ne'
  have h4 := Int.emod_lt_of_pos hi hm
  -- both ends have one quotient
  have hq : lo / m = hi / m := by
    refine le_antisymm (Int.ediv_le_ediv hm hlohi) ?_
    by_contra hne
    have : m * (lo / m + 1) ≤ m * (hi / m) := mul_le_mul_of_nonneg_left (by omega) hm.le
    rw [mul_add] at this
    omega
  constructor
  · rintro ⟨k, hk1, hk2, rfl⟩
    have hk : k / m = lo / m :=
      le_antisymm (hq ▸ Int.ediv_le_ediv hm hk2) (Int.ediv_le_ediv hm hk1)
    have h5 := Int.mul_ediv_add_emod k m
    rw [hk] at h5
    rw [← hq] at h2
    omega
  · rintro ⟨hn1, hn2⟩
    rw [← hq] at h2
    refine ⟨n + m * (lo / m), by omega, by omega, ?_⟩
    rw [Int.add_mul_emod_self_left, Int.emod_eq_of_lt (by omega) (by omega)]

/-- A quotient lies between those by a smaller and by a larger divisor. -/
theorem ediv_between {a l m n : ℤ} (hl : 0 < l) (hlm : l ≤ m) (hmn : m ≤ n) :
    min (a / l) (a / n) ≤ a / m ∧ a / m ≤ max (a / l) (a / n) := by
  have hnonneg : ∀ {i j : ℤ}, 0 < i → i ≤ j → 0 ≤ a → a / j ≤ a / i := fun {i j} hi hij ha => by
    rw [Int.le_ediv_iff_mul_le hi]
    exact (mul_le_mul_of_nonneg_left hij (Int.ediv_nonneg ha (by omega))).trans
      (Int.ediv_mul_le a (by omega))
  have hneg : ∀ {i j : ℤ}, 0 < i → i ≤ j → a < 0 → a / i ≤ a / j := fun {i j} hi hij ha => by
    rw [Int.le_ediv_iff_mul_le (by omega)]
    have hq : a / i ≤ 0 := (Int.ediv_neg_of_neg_of_pos ha hi).le
    exact (mul_le_mul_of_nonpos_left hij hq).trans (Int.ediv_mul_le a (by omega))
  rcases lt_or_ge a 0 with ha | ha
  · exact ⟨min_le_of_left_le (hneg hl hlm ha), le_max_of_le_right (hneg (by omega) hmn ha)⟩
  · exact ⟨min_le_of_right_le (hnonneg (by omega) hmn ha), le_max_of_le_left (hnonneg hl hlm ha)⟩

/-! ### Products and truncated quotients -/

/-- A product lies between its values at the ends of a factor. -/
theorem mul_between {l h a : ℤ} (hl : l ≤ a) (hh : a ≤ h) (c : ℤ) :
    min (l * c) (h * c) ≤ a * c ∧ a * c ≤ max (l * c) (h * c) := by
  rcases le_total 0 c with hc | hc
  · exact ⟨min_le_of_left_le (mul_le_mul_of_nonneg_right hl hc),
      le_max_of_le_right (mul_le_mul_of_nonneg_right hh hc)⟩
  · exact ⟨min_le_of_right_le (mul_le_mul_of_nonpos_right hh hc),
      le_max_of_le_left (mul_le_mul_of_nonpos_right hl hc)⟩

/-- A truncated quotient lies between its values at the ends of the dividend. -/
theorem tdiv_between_left {l h a b : ℤ} (hl : l ≤ a) (hh : a ≤ h) (hb : b ≠ 0) :
    min (l.tdiv b) (h.tdiv b) ≤ a.tdiv b ∧ a.tdiv b ≤ max (l.tdiv b) (h.tdiv b) := by
  rcases lt_or_gt_of_ne hb with hneg | hpos
  · have h1 := Int.tdiv_le_tdiv (c := -b) (by omega) hl
    have h2 := Int.tdiv_le_tdiv (c := -b) (by omega) hh
    rw [Int.tdiv_neg, Int.tdiv_neg] at h1 h2
    omega
  · have h1 := Int.tdiv_le_tdiv hpos hl
    have h2 := Int.tdiv_le_tdiv hpos hh
    omega

/-- A natural number has smaller quotients by larger divisors. -/
private theorem tdiv_antitone_of_nonneg {a b b' : ℤ} (ha : 0 ≤ a) (hb : 0 < b) (h : b ≤ b') :
    a.tdiv b' ≤ a.tdiv b := by
  rw [Int.tdiv_eq_ediv_of_nonneg ha, Int.tdiv_eq_ediv_of_nonneg ha, Int.le_ediv_iff_mul_le hb]
  calc a / b' * b ≤ a / b' * b' :=
        mul_le_mul_of_nonneg_left h (Int.ediv_nonneg ha (by omega))
    _ ≤ a := Int.ediv_mul_le a (by omega)

/-- Quotients by positive divisors lie between those by the ends of the divisors, for either sign of
`a`. -/
private theorem tdiv_between_of_pos {l h b : ℤ} (hl : 0 < l) (h1 : l ≤ b) (h2 : b ≤ h) (a : ℤ) :
    min (a.tdiv l) (a.tdiv h) ≤ a.tdiv b ∧ a.tdiv b ≤ max (a.tdiv l) (a.tdiv h) := by
  rcases le_total 0 a with ha | ha
  · have h3 := tdiv_antitone_of_nonneg ha hl h1
    have h4 := tdiv_antitone_of_nonneg ha (by omega : 0 < b) h2
    omega
  · have h3 := tdiv_antitone_of_nonneg (a := -a) (by omega) hl h1
    have h4 := tdiv_antitone_of_nonneg (a := -a) (by omega) (by omega : 0 < b) h2
    simp only [Int.neg_tdiv] at h3 h4
    omega

/-- A truncated quotient lies between its values at the ends of a divisor of one sign. -/
theorem tdiv_between_right {l h b : ℤ} (hs : 0 < l ∨ h < 0) (h1 : l ≤ b) (h2 : b ≤ h) (a : ℤ) :
    min (a.tdiv l) (a.tdiv h) ≤ a.tdiv b ∧ a.tdiv b ≤ max (a.tdiv l) (a.tdiv h) := by
  rcases hs with hs | hs
  · exact tdiv_between_of_pos hs h1 h2 a
  · have := tdiv_between_of_pos (l := -h) (h := -l) (b := -b) (by omega) (by omega) (by omega) a
    simp only [Int.tdiv_neg] at this
    omega

/-! ### Values and patterns -/

namespace IntType

variable {t : IntType} {r : Range}

/-- A range of values is one range of patterns, or two when it crosses zero. -/
theorem bitRanges_cases (h : r.Proper t) :
    ((0 ≤ r.lo ∨ r.hi < 0) ∧ t.bitRanges r = [⟨t.toBits r.lo, t.toBits r.hi⟩]) ∨
      (r.lo < 0 ∧ 0 ≤ r.hi ∧
        t.bitRanges r = [⟨0, t.toBits r.hi⟩, ⟨t.toBits r.lo, t.modulus - 1⟩]) := by
  have hle := h.le
  rw [bitRanges, if_neg (by omega)]
  split
  · next hs => exact .inl ⟨hs, rfl⟩
  · next hs => exact .inr ⟨by omega, by omega, rfl⟩

/-- The pieces of a range of values hold exactly the patterns of its values. -/
theorem mem_bitRanges (h : r.Proper t) {p : ℤ} :
    (∃ q ∈ t.bitRanges r, p ∈ q) ↔ ∃ v ∈ r, t.toBits v = p := by
  have hlo := toBits_cases h.lo_mem
  have hhi := toBits_cases h.hi_mem
  have hb := h.bounds
  have hm := t.modulus_eq
  have key : ∀ v ∈ r, (0 ≤ v ∧ t.toBits v = v) ∨ (v < 0 ∧ t.toBits v = v + t.modulus) :=
    fun v hv => toBits_cases (h.contains hv)
  rcases bitRanges_cases h with ⟨hs, he⟩ | ⟨h1, h2, he⟩
  · simp only [he, List.mem_singleton, exists_eq_left, Bounds.mem_mk]
    constructor
    · rintro ⟨hp1, hp2⟩
      rcases hs with hs | hs
      · have hv : p ∈ r := ⟨by omega, by omega⟩
        exact ⟨p, hv, by have := key p hv; have := hv.1; omega⟩
      · have hv : p - t.modulus ∈ r := ⟨by omega, by omega⟩
        exact ⟨p - t.modulus, hv, by have := key _ hv; have := hv.2; omega⟩
    · rintro ⟨v, hv, rfl⟩
      have := key v hv
      have := hv.1
      have := hv.2
      omega
  · simp only [he, List.mem_cons, List.not_mem_nil, or_false, exists_eq_or_imp, exists_eq_left,
      Bounds.mem_mk]
    constructor
    · rintro (⟨hp1, hp2⟩ | ⟨hp1, hp2⟩)
      · have hv : p ∈ r := ⟨by omega, by omega⟩
        exact ⟨p, hv, by have := key p hv; omega⟩
      · have hv : p - t.modulus ∈ r := ⟨by omega, by omega⟩
        exact ⟨p - t.modulus, hv, by have := key _ hv; omega⟩
    · rintro ⟨v, hv, rfl⟩
      have := key v hv
      have := hv.1
      have := hv.2
      omega

/-- The pieces of a range of values are not empty and lie among the patterns. -/
theorem bitRanges_bounds (h : r.Proper t) {q : Range} (hq : q ∈ t.bitRanges r) :
    0 ≤ q.lo ∧ q.lo ≤ q.hi ∧ q.hi < t.modulus := by
  have hlo := toBits_cases h.lo_mem
  have hhi := toBits_cases h.hi_mem
  have hb := h.bounds
  have hm := t.modulus_eq
  have hmin := t.minValue_nonpos
  have hmax := t.maxValue_nonneg
  rcases bitRanges_cases h with ⟨hs, he⟩ | ⟨h1, h2, he⟩
  · rw [he, List.mem_singleton] at hq
    subst hq
    simp only
    omega
  · rw [he] at hq
    simp only [List.mem_cons, List.not_mem_nil, or_false] at hq
    rcases hq with rfl | rfl <;> simp only <;> omega

/-- A pattern of a range of values is the pattern of one of them. -/
theorem ofBits_mem_of_mem_bitRanges (h : r.Proper t) {q : Range} {p : ℤ} (hq : q ∈ t.bitRanges r)
    (hp : p ∈ q) : t.ofBits p ∈ r ∧ t.toBits (t.ofBits p) = p := by
  obtain ⟨v, hv, rfl⟩ := (mem_bitRanges h).mp ⟨q, hq, hp⟩
  rw [ofBits_toBits (h.contains hv)]
  exact ⟨hv, rfl⟩

/-- The pieces of a range of values do not reach across the middle of the patterns. -/
theorem bitRanges_same_side (h : r.Proper t) {q : Range} (hq : q ∈ t.bitRanges r) :
    ¬(t.signed = true ∧ q.lo < t.half ∧ t.half ≤ q.hi) := by
  rintro ⟨hs, hlo, hhi⟩
  have hb := h.bounds
  have hm := t.modulus_eq_two_mul
  have hrlo := toBits_cases h.lo_mem
  have hrhi := toBits_cases h.hi_mem
  rcases t.layout with ⟨-, hmin, hmax⟩ | ⟨hu, -, -⟩
  · rcases bitRanges_cases h with ⟨hside, he⟩ | ⟨hneg, hpos, he⟩ <;> rw [he] at hq
    · obtain rfl := List.mem_singleton.mp hq
      simp only at hlo hhi
      omega
    · simp only [List.mem_cons, List.not_mem_nil, or_false] at hq
      rcases hq with rfl | rfl <;> simp only at hlo hhi <;> omega
  · simp [hu] at hs

/-- The values of an unsigned type are its patterns. -/
theorem bounds_of_unsigned (h : r.Proper t) (hs : t.signed = false) :
    0 ≤ r.lo ∧ r.lo ≤ r.hi ∧ r.hi < pow2 t.width := by
  obtain ⟨h1, h2, h3⟩ := h.bounds
  have hm : t.modulus = pow2 t.width := rfl
  have hmod := t.modulus_eq
  rcases t.layout with ⟨hs', -⟩ | ⟨-, hmin, -⟩
  · simp [hs] at hs'
  · omega

/-- A range of patterns is one range of values below the middle of a signed type and above it, and
two ranges across the middle. -/
theorem valueRanges_cases (t : IntType) (hle : r.lo ≤ r.hi) :
    ((∀ p ∈ r, t.ofBits p = p) ∧ t.valueRanges r = [r]) ∨
      ((∀ p ∈ r, t.ofBits p = p - t.modulus) ∧
        t.valueRanges r = [⟨r.lo - t.modulus, r.hi - t.modulus⟩]) ∨
      (t.signed = true ∧ r.lo < t.half ∧ t.half ≤ r.hi ∧
        t.valueRanges r = [⟨t.half - t.modulus, r.hi - t.modulus⟩, ⟨r.lo, t.half - 1⟩]) := by
  rw [valueRanges, if_neg (by omega)]
  change _ ∨ (_ ∧ (if _ then _ else if r.hi < t.half ∨ t.half ≤ r.lo then _ else _) = _) ∨ _
  cases hs : t.signed with
  | false => exact .inl ⟨fun p _ => ofBits_of_unsigned hs, rfl⟩
  | true =>
    simp only [Bool.not_true, Bool.false_eq_true, if_false]
    rcases lt_or_ge r.hi t.half with h1 | h1
    · refine .inl ⟨fun p hp => ofBits_of_lt (lt_of_le_of_lt hp.2 h1), ?_⟩
      rw [if_pos (.inl h1), ofBits_of_lt h1, ofBits_of_lt (by omega)]
    rcases lt_or_ge r.lo t.half with h2 | h2
    · refine .inr (.inr ⟨trivial, h2, h1, ?_⟩)
      rw [if_neg (by rw [half] at *; omega)]
      change [(⟨t.ofBits t.half, _⟩ : Range), ⟨_, t.ofBits (t.half - 1)⟩] = _
      rw [ofBits_of_le hs h1, ofBits_of_le hs le_rfl, ofBits_of_lt h2, ofBits_of_lt (by omega)]
    · refine .inr (.inl ⟨fun p hp => ofBits_of_le hs (h2.trans hp.1), ?_⟩)
      rw [if_pos (.inr h2), ofBits_of_le hs h1, ofBits_of_le hs h2]

/-- Patterns on one side of the middle are in the order of their values. -/
theorem valueRanges_same_side (hle : r.lo ≤ r.hi)
    (hside : ¬(t.signed = true ∧ r.lo < t.half ∧ t.half ≤ r.hi)) :
    t.valueRanges r = [⟨t.ofBits r.lo, t.ofBits r.hi⟩] := by
  rcases t.valueRanges_cases hle with ⟨h, he⟩ | ⟨h, he⟩ | ⟨hs, h2, h3, -⟩
  · rw [he, h _ ⟨le_rfl, hle⟩, h _ ⟨hle, le_rfl⟩]
  · rw [he, h _ ⟨le_rfl, hle⟩, h _ ⟨hle, le_rfl⟩]
  · exact absurd ⟨hs, h2, h3⟩ hside

/-- The pieces of a range of patterns hold exactly the values of its patterns. -/
theorem mem_valueRanges (t : IntType) (hle : r.lo ≤ r.hi) {v : ℤ} :
    (∃ q ∈ t.valueRanges r, v ∈ q) ↔ ∃ p ∈ r, t.ofBits p = v := by
  rcases t.valueRanges_cases hle with ⟨h, he⟩ | ⟨h, he⟩ | ⟨hs, h1, h2, he⟩
  · simp only [he, List.mem_singleton, exists_eq_left]
    exact ⟨fun hv => ⟨v, hv, h v hv⟩, fun ⟨p, hp, hv⟩ => hv ▸ (h p hp).symm ▸ hp⟩
  · simp only [he, List.mem_singleton, exists_eq_left, Bounds.mem_mk]
    constructor
    · intro hv
      have hp : v + t.modulus ∈ r := ⟨by omega, by omega⟩
      exact ⟨_, hp, by rw [h _ hp]; ring⟩
    · rintro ⟨p, hp, rfl⟩
      rw [h p hp]
      exact ⟨by have := hp.1; omega, by have := hp.2; omega⟩
  · simp only [he, List.mem_cons, List.not_mem_nil, or_false, exists_eq_or_imp, exists_eq_left,
      Bounds.mem_mk]
    constructor
    · rintro (⟨hv1, hv2⟩ | ⟨hv1, hv2⟩)
      · exact ⟨v + t.modulus, ⟨by omega, by omega⟩, by rw [ofBits_of_le hs (by omega)]; ring⟩
      · exact ⟨v, ⟨by omega, by omega⟩, ofBits_of_lt (by omega)⟩
    · rintro ⟨p, ⟨hp1, hp2⟩, rfl⟩
      rcases lt_or_ge p t.half with hp | hp
      · rw [ofBits_of_lt hp]
        omega
      · rw [ofBits_of_le hs hp]
        omega

/-- The pieces of a range of patterns are ranges of the type. -/
theorem proper_of_mem_valueRanges (h0 : 0 ≤ r.lo) (hle : r.lo ≤ r.hi) (h1 : r.hi < t.modulus)
    {q : Range} (hq : q ∈ t.valueRanges r) : q.Proper t := by
  have hm := t.modulus_eq_two_mul
  have hpos := t.half_pos
  have hlo : t.contains (t.ofBits r.lo) = true := contains_ofBits h0 (by omega)
  have hhi : t.contains (t.ofBits r.hi) = true := contains_ofBits (by omega) h1
  rcases t.valueRanges_cases hle with ⟨h, he⟩ | ⟨h, he⟩ | ⟨hs, h2, h3, he⟩ <;>
    simp only [he, List.mem_cons, List.not_mem_nil, or_false] at hq
  · rw [h _ ⟨le_rfl, hle⟩] at hlo
    rw [h _ ⟨hle, le_rfl⟩] at hhi
    exact hq ▸ ⟨hle, hlo, hhi⟩
  · rw [h _ ⟨le_rfl, hle⟩] at hlo
    rw [h _ ⟨hle, le_rfl⟩] at hhi
    exact hq ▸ ⟨by simpa using hle, hlo, hhi⟩
  · have hmid : t.contains (t.ofBits t.half) = true := contains_ofBits hpos.le (by omega)
    have hmid' : t.contains (t.ofBits (t.half - 1)) = true :=
      contains_ofBits (by omega) (by omega)
    rw [ofBits_of_lt h2] at hlo
    rw [ofBits_of_le hs h3] at hhi
    rw [ofBits_of_le hs le_rfl] at hmid
    rw [ofBits_of_lt (by omega)] at hmid'
    rcases hq with rfl | rfl
    · exact ⟨by simpa using h3, hmid, hhi⟩
    · exact ⟨by simp only; omega, hlo, hmid'⟩

section

variable {wide : IntType} {fill : Extension} {a : ℤ}

/-! ### Extensions -/

/-- The value of a word extended into a wider type. -/
def extended (t : IntType) (fill : Extension) (wide : IntType) (a : ℤ) : ℤ :=
  match fill with
  | .zero => t.toBits a
  | .sign => wide.wrap ((t.withSigned true).ofBits (t.toBits a))

/-- A wider type has at least twice as many values in each half. -/
private theorem two_mul_half_le (h : t.width < wide.width) : 2 * t.half ≤ wide.half := by
  rw [← modulus_eq_two_mul]
  exact pow2_mono (by omega)

/-- The patterns with the sign bit clear are the values below the middle. -/
private theorem extended_of_lt (h : t.width < wide.width) (h0 : 0 ≤ a) (h1 : a < t.half) :
    t.extended fill wide a = a := by
  have hle := two_mul_half_le h
  have hpos := t.half_pos
  have hc : t.contains a = true := contains_iff.mpr (by have := t.layout; omega)
  have hwide : wide.contains a = true := contains_iff.mpr (by have := wide.layout; omega)
  have hb : t.toBits a = a := toBits_of_nonneg hc h0
  cases fill with
  | zero => exact hb
  | sign =>
    have hs : (t.withSigned true).ofBits a = a := ofBits_of_lt (t := t.withSigned true) h1
    rw [extended, hb, hs, wrap_eq_self hwide]

/-- An extension adds a constant on each of the two halves of a type. -/
theorem extensionSegments_cases (t : IntType) (fill : Extension) (h : t.width < wide.width)
    (hs : wide.signed = t.signed) :
    ∃ s : Range, ∃ offset : ℤ,
      t.extensionSegments fill wide = [(⟨0, t.half - 1⟩, 0), (s, offset)] ∧ s.Proper t ∧
        (∀ a, a ∈ s ↔ t.contains a = true ∧ a ∉ (⟨0, t.half - 1⟩ : Range)) ∧
        ∀ a ∈ s, t.extended fill wide a = a + offset := by
  have hle := two_mul_half_le h
  have hpos := t.half_pos
  have hm := t.modulus_eq_two_mul
  have hwm := wide.modulus_eq_two_mul
  have heq : t.extensionSegments fill wide =
      [(⟨t.ofBits 0, t.ofBits (t.half - 1)⟩, wide.ofBits 0 - t.ofBits 0),
        (⟨t.ofBits t.half, t.ofBits (t.modulus - 1)⟩,
          wide.ofBits (if fill = .sign then t.half + wide.modulus - t.modulus else t.half) -
            t.ofBits t.half)] := by cases fill <;> rfl
  rw [ofBits_of_lt hpos, ofBits_of_lt (t := wide) (by omega), sub_zero,
    ofBits_of_lt (p := t.half - 1) (by omega)] at heq
  refine ⟨_, _, heq, ?_⟩
  rcases t.layout with ⟨ht, hmin, hmax⟩ | ⟨ht, hmin, hmax⟩
  · -- signed: the negative values
    have hlo : t.ofBits t.half = -t.half := by rw [ofBits_of_le ht le_rfl]; omega
    have hhi : t.ofBits (t.modulus - 1) = -1 := by rw [ofBits_of_le ht (by omega)]; omega
    rw [hlo, hhi]
    have hin : ∀ a ∈ (⟨-t.half, -1⟩ : Range), t.contains a = true ∧ t.toBits a = a + t.modulus := by
      intro a ha
      rw [Bounds.mem_mk] at ha
      have hc : t.contains a = true := contains_iff.mpr (by omega)
      exact ⟨hc, toBits_of_neg hc (by omega)⟩
    refine ⟨.of_bounds (by simp only; omega) (by simp only; omega) (by simp only; omega), ?_, ?_⟩
    · intro a
      rw [contains_iff, Bounds.mem_mk, Bounds.mem_mk]
      omega
    · intro a ha
      obtain ⟨hc, hb⟩ := hin a ha
      rw [Bounds.mem_mk] at ha
      cases fill with
      | zero =>
        simp only [extended, reduceCtorEq, if_false]
        rw [hb, ofBits_of_lt (by omega)]
        omega
      | sign =>
        have hwide : wide.contains a = true :=
          contains_iff.mpr (by have := wide.layout; simp_all; omega)
        have hsb : (t.withSigned true).ofBits (t.toBits a) = a := by
          rw [hb, ofBits_of_le (t := t.withSigned true) rfl (show t.half ≤ _ by omega)]
          exact add_sub_cancel_right a t.modulus
        simp only [extended, if_true]
        rw [hsb, wrap_eq_self hwide, ofBits_of_le (hs.trans ht) (by omega)]
        omega
  · -- unsigned: the values from the middle on
    have hu : wide.signed = false := hs.trans ht
    rw [ofBits_of_unsigned ht, ofBits_of_unsigned ht, ofBits_of_unsigned hu]
    refine ⟨.of_bounds (by simp only; omega) (by simp only; omega) (by simp only; omega), ?_, ?_⟩
    · intro a
      rw [contains_iff, Bounds.mem_mk, Bounds.mem_mk]
      omega
    · intro a ha
      rw [Bounds.mem_mk] at ha
      have hb : t.toBits a = a := toBits_of_nonneg (contains_iff.mpr (by omega)) (by omega)
      cases fill with
      | zero =>
        simp only [extended, reduceCtorEq, if_false]
        omega
      | sign =>
        have hsb : (t.withSigned true).ofBits (t.toBits a) = a - t.modulus := by
          rw [hb]
          exact ofBits_of_le (t := t.withSigned true) rfl ha.1
        simp only [extended, if_true]
        rw [hsb]
        refine wrap_eq_of_add_mul (k := -1) (contains_iff.mpr ?_) (by ring)
        have := wide.layout
        simp_all
        omega

/-- Every value lies in a segment. -/
theorem exists_extensionSegment (h : t.width < wide.width) (hs : wide.signed = t.signed)
    (ha : t.contains a = true) : ∃ p ∈ t.extensionSegments fill wide, a ∈ p.1 := by
  obtain ⟨s, offset, he, -, hrest, -⟩ := extensionSegments_cases t fill h hs
  rw [he]
  by_cases h0 : a ∈ (⟨0, t.half - 1⟩ : Range)
  · exact ⟨_, List.mem_cons_self, h0⟩
  · exact ⟨_, List.mem_cons_of_mem _ (List.mem_singleton_self _), (hrest a).mpr ⟨ha, h0⟩⟩

/-- On a segment an extension adds its offset. -/
theorem extended_of_mem_segment (h : t.width < wide.width) (hs : wide.signed = t.signed)
    {p : Range × ℤ} (hp : p ∈ t.extensionSegments fill wide) :
    p.1.Proper t ∧ ∀ a ∈ p.1, t.extended fill wide a = a + p.2 := by
  obtain ⟨s, offset, he, hproper, -, hadd⟩ := extensionSegments_cases t fill h hs
  have hlayout := t.layout
  have hpos := t.half_pos
  rw [he, List.mem_cons, List.mem_singleton] at hp
  rcases hp with rfl | rfl
  · refine ⟨.of_bounds (by simp only; omega) (by simp only; omega) (by simp only; omega), ?_⟩
    intro a ha
    rw [Bounds.mem_mk] at ha
    rw [extended_of_lt h ha.1 (by omega), add_zero]
  · exact ⟨hproper, hadd⟩

end

end IntType

end ScalarDomain
