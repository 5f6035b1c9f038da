import ScalarDomain.Proofs.Backward.Arithmetic
import ScalarDomain.Proofs.Forward.Field

/-!
# Operands of bit fields

Extensions move each half of a type by a fixed amount, so they are inverted half by half. Fields,
concatenations and overwritten fields are inverted on patterns: a pattern is a quotient and a
remainder by a power of two, and the patterns that are left are turned into one range of values.
A range of patterns across the middle of a signed type holds its greatest and its least value, so
this range is the whole type. For a concatenation it is the second operand that may lose its bounds
in this way (`Narrowing.Straddles`).
-/

namespace ScalarDomain.Narrowing

variable {stops c : Bool} {t u out : IntType} {x y z : Range} {Y : Set ℤ} {v : ℤ}

/-! ### Extensions -/

theorem extend_inverts {fill : Extension} {bits : ℕ} (hx : x.Proper t) (hw : t.width < out.width)
    (hs : out.signed = t.signed) :
    (extend fill ⟨⟨t, x⟩, none, ⟨out, z⟩, c⟩).Inverts
      ((Operation.extend fill bits).Reaches stops t u out z.toSet) x.toSet Y := by
  have hreach : ∀ a b, (Operation.extend fill bits).Reaches stops t u out z.toSet a b ↔
      t.extended fill out a ∈ z := by
    intro a b
    simp only [Operation.Reaches, Step.mem_values_extend hw, exists_eq_right, Bounds.mem_toSet]
  constructor
  · refine keeps_ofPieces fun a ha b _ h => ?_
    obtain ⟨⟨segment, offset⟩, hp, hap⟩ : ∃ p ∈ t.extensionSegments fill out, a ∈ p.1 :=
      IntType.exists_extensionSegment hw hs (hx.contains ha)
    have hadd := (IntType.extended_of_mem_segment hw hs hp).2 a hap
    rw [hreach, hadd] at h
    obtain ⟨q, hq, haq⟩ := Bounds.exists_meet?
      (r := ⟨segment.lo + offset, segment.hi + offset⟩)
      ⟨add_le_add_left hap.1 _, add_le_add_left hap.2 _⟩ h
    obtain ⟨r, hr, har⟩ := Bounds.exists_meet? (r := ⟨q.lo - offset, q.hi - offset⟩) (v := a)
      ⟨sub_le_iff_le_add.mpr haq.1, le_sub_iff_add_le.mpr haq.2⟩ ha
    refine ⟨r, List.mem_filterMap.mpr ⟨_, hp, ?_⟩, har⟩
    simp only [hq]
    exact hr
  · refine isTight_ofPieces fun _ p hp a _ hap b _ => ?_
    obtain ⟨⟨segment, offset⟩, hs', hp⟩ := List.mem_filterMap.mp hp
    simp only at hp
    split at hp
    · cases hp
    next q hq =>
    obtain ⟨hqa, -⟩ := (Bounds.mem_of_meet?_eq_some hp).mp hap
    have hmem : a + offset ∈ q := ⟨by linarith [hqa.1], by linarith [hqa.2]⟩
    obtain ⟨hseg, hz⟩ := (Bounds.mem_of_meet?_eq_some hq).mp hmem
    have ha : a ∈ segment := ⟨by linarith [hseg.1], by linarith [hseg.2]⟩
    rw [hreach, (IntType.extended_of_mem_segment hw hs hs').2 a ha]
    exact hz

/-! ### Values of patterns -/

/-- A value whose pattern lies in one of the pieces is in the range of values. -/
theorem exists_mem_valuesOf? {pieces : List Range} (hle : ∀ p ∈ pieces, p.lo ≤ p.hi)
    (hv : t.contains v = true) (h : ∃ p ∈ pieces, t.toBits v ∈ p) :
    ∃ r ∈ valuesOf? t pieces, v ∈ r := by
  obtain ⟨p, hp, hvp⟩ := h
  obtain ⟨q, hq, hvq⟩ := (t.mem_valueRanges (hle p hp)).mpr
    ⟨t.toBits v, hvp, IntType.ofBits_toBits hv⟩
  have hmem : q ∈ pieces.flatMap t.valueRanges := List.mem_flatMap.mpr ⟨p, hp, hq⟩
  obtain ⟨r, hr⟩ := Bounds.exists_hull? hmem
  exact ⟨r, hr, Bounds.mem_of_hull?_eq_some hr hmem hvq⟩

theorem mem_of_valuesOf?_eq_some {p r : Range} (hr : valuesOf? t [p] = some r)
    (hv : t.contains v = true) (h : t.toBits v ∈ p) : v ∈ r := by
  obtain ⟨r', hr', hvr⟩ := exists_mem_valuesOf? (by simpa using h.1.trans h.2) hv
    ⟨p, List.mem_singleton_self p, h⟩
  rw [hr] at hr'
  cases hr'
  exact hvr

theorem exists_valuesOf? {p : Range} (hle : p.lo ≤ p.hi) : ∃ r, valuesOf? t [p] = some r := by
  obtain ⟨q, hq, -⟩ := (t.mem_valueRanges hle).mpr ⟨p.lo, ⟨le_rfl, hle⟩, rfl⟩
  exact Bounds.exists_hull? (List.mem_flatMap.mpr ⟨p, List.mem_singleton_self p, hq⟩)

/-- Patterns on one side of the middle are all that their range of values holds. -/
theorem toBits_mem_of_valuesOf? {p r : Range} (h0 : 0 ≤ p.lo) (hle : p.lo ≤ p.hi)
    (h1 : p.hi < t.modulus) (hside : ¬(t.signed = true ∧ p.lo < t.half ∧ t.half ≤ p.hi))
    (hr : valuesOf? t [p] = some r) (hv : v ∈ r) : t.toBits v ∈ p := by
  have hone := IntType.valueRanges_same_side hle hside
  rw [valuesOf?, List.flatMap_singleton, hone] at hr
  cases hr
  obtain ⟨k, hk, rfl⟩ := (t.mem_valueRanges hle).mp ⟨_, by simp [hone], hv⟩
  rwa [IntType.toBits_ofBits (h0.trans hk.1) (lt_of_le_of_lt hk.2 h1)]

/-- Patterns across the middle leave no bound on their values. -/
theorem mem_of_valuesOf?_across {p r : Range} (hle : p.lo ≤ p.hi) (hs : t.signed = true)
    (h2 : p.lo < t.half) (h3 : t.half ≤ p.hi) (hr : valuesOf? t [p] = some r)
    (hv : t.contains v = true) : v ∈ r := by
  rw [valuesOf?, List.flatMap_singleton] at hr
  have hv := IntType.contains_iff.mp hv
  have hm := t.modulus_eq_two_mul
  rcases t.layout with ⟨-, hmin, hmax⟩ | ⟨hu, -, -⟩
  · have he : t.valueRanges p = [⟨t.half - t.modulus, p.hi - t.modulus⟩, ⟨p.lo, t.half - 1⟩] := by
      rcases t.valueRanges_cases hle with ⟨h, -⟩ | ⟨h, -⟩ | ⟨-, -, -, he⟩
      · have := h p.hi ⟨hle, le_rfl⟩
        rw [IntType.ofBits_of_le hs h3] at this
        have := t.half_pos
        omega
      · have := h p.lo ⟨le_rfl, hle⟩
        rw [IntType.ofBits_of_lt h2] at this
        have := t.half_pos
        omega
      · exact he
    rw [he] at hr
    have h4 := Bounds.le_of_hull?_eq_some hr List.mem_cons_self
    have h5 := Bounds.le_of_hull?_eq_some hr (List.mem_cons_of_mem _ List.mem_cons_self)
    simp only at h4 h5
    exact ⟨by omega, by omega⟩
  · simp [hu] at hs

/-! ### Fields -/

/-- A pattern is made of a part above a field, the field and a part below it. -/
theorem split_field (p : ℤ) (low count : ℕ) :
    p = p / pow2 (low + count) * pow2 (low + count) +
      p / pow2 low % pow2 count * pow2 low + p % pow2 low := by
  have h1 := Int.mul_ediv_add_emod p (pow2 low)
  have h2 := Int.mul_ediv_add_emod (p / pow2 low) (pow2 count)
  rw [Int.ediv_ediv_of_nonneg (pow2_pos low).le, ← pow2_add] at h2
  calc p = pow2 low * (p / pow2 low) + p % pow2 low := h1.symm
    _ = pow2 low * (pow2 count * (p / pow2 (low + count)) + p / pow2 low % pow2 count) +
        p % pow2 low := by rw [h2]
    _ = _ := by rw [pow2_add]; ring

/-- The field of a pattern put together from a part above it, the field and a part below. -/
theorem field_of_parts {low count : ℕ} (above : ℤ) {f below : ℤ} (hf : 0 ≤ f ∧ f < pow2 count)
    (hbelow : 0 ≤ below ∧ below < pow2 low) :
    (above * pow2 (low + count) + f * pow2 low + below) / pow2 low % pow2 count = f := by
  have hparts : above * pow2 (low + count) + f * pow2 low + below =
      (above * pow2 count + f) * pow2 low + below := by
    rw [pow2_add]
    ring
  rw [hparts, Int.mul_add_ediv_right _ _ (pow2_pos low).ne',
    Int.ediv_eq_zero_of_lt hbelow.1 hbelow.2, add_zero, Int.mul_add_emod_self_right,
    Int.emod_eq_of_lt hf.1 hf.2]

/-- The part below a field is smaller than its unit. -/
theorem below_field (p : ℤ) (low : ℕ) : 0 ≤ p % pow2 low ∧ p % pow2 low < pow2 low :=
  ⟨Int.emod_nonneg p (pow2_pos low).ne', Int.emod_lt_of_pos p (pow2_pos low)⟩

/-- The field of a pattern, from the start of its period on. -/
theorem field_of_period (p : ℤ) (low count : ℕ) :
    (p - p / pow2 (low + count) * pow2 (low + count)) / pow2 low = p / pow2 low % pow2 count := by
  have hp : p - p / pow2 (low + count) * pow2 (low + count) =
      p / pow2 low % pow2 count * pow2 low + p % pow2 low := by
    have := split_field p low count
    linarith
  obtain ⟨h0, h1⟩ := below_field p low
  rw [hp, Int.mul_add_ediv_right _ _ (pow2_pos low).ne', Int.ediv_eq_zero_of_lt h0 h1, add_zero]

/-- Within one period the field does not decrease. -/
private theorem field_mono {p q : ℤ} {low count : ℕ} (h : p ≤ q)
    (hperiod : p / pow2 (low + count) = q / pow2 (low + count)) :
    p / pow2 low % pow2 count ≤ q / pow2 low % pow2 count := by
  have h1 := Int.mul_ediv_add_emod (p / pow2 low) (pow2 count)
  have h2 := Int.mul_ediv_add_emod (q / pow2 low) (pow2 count)
  rw [Int.ediv_ediv_of_nonneg (pow2_pos low).le, ← pow2_add] at h1 h2
  rw [hperiod] at h1
  have := Int.ediv_le_ediv (pow2_pos low) h
  linarith

/-- A pattern whose field lies in a range is in its preimage. -/
theorem exists_mem_fieldPreimage? {patterns field : Range} {low count : ℕ} {p : ℤ}
    (hp : p ∈ patterns) (hfield : p / pow2 low % pow2 count ∈ field) :
    ∃ r ∈ fieldPreimage? patterns low count field, p ∈ r := by
  have hlow := pow2_pos low
  have hperiod := pow2_pos (low + count)
  obtain ⟨hp1, hp2⟩ := hp
  obtain ⟨hf1, hf2⟩ := hfield
  have hq1 := Int.ediv_le_ediv hperiod hp1
  have hq2 := Int.ediv_le_ediv hperiod hp2
  have hmul : ∀ {i j : ℤ}, i ≤ j → i * pow2 (low + count) ≤ j * pow2 (low + count) :=
    fun h => mul_le_mul_of_nonneg_right h hperiod.le
  have hlo := mul_le_mul_of_nonneg_right hf1 hlow.le
  have hhi := mul_le_mul_of_nonneg_right (Int.add_le_add_right hf2 1) hlow.le
  have hs := split_field p low count
  have hr := below_field p low
  simp only [fieldPreimage?, floorDiv_eq_ediv hlow, floorDiv_eq_ediv hperiod, field_of_period]
  generalize hfirst : (if field.contains _ = true then patterns.lo else _) = first
  generalize hlast : (if field.contains _ = true then patterns.hi else _) = last
  have h1 : first ≤ p := by
    rw [← hfirst]
    split_ifs with hc hbelow
    · exact hp1
    · have := hmul hq1
      linarith
    · -- the first period has no such field from there on
      have hnext : patterns.lo / pow2 (low + count) + 1 ≤ p / pow2 (low + count) := by
        by_contra hsame
        have := field_mono hp1 (by omega : patterns.lo / pow2 (low + count) = _)
        rw [Bounds.contains_iff, Bounds.mem_def] at hc
        omega
      have := hmul hnext
      linarith
  have h2 : p ≤ last := by
    rw [← hlast]
    split_ifs with hc habove
    · exact hp2
    · have := hmul hq2
      linarith
    · -- nor has the last period up to there
      have hprev : p / pow2 (low + count) + 1 ≤ patterns.hi / pow2 (low + count) := by
        by_contra hsame
        have := field_mono hp2 (by omega : p / pow2 (low + count) = _)
        rw [Bounds.contains_iff, Bounds.mem_def] at hc
        omega
      have := hmul hprev
      linarith
  rw [if_pos (h1.trans h2)]
  exact ⟨_, rfl, h1, h2⟩

theorem le_of_mem_fieldPreimage? {patterns field r : Range} {low count : ℕ}
    (h : r ∈ fieldPreimage? patterns low count field) : r.lo ≤ r.hi := by
  simp only [fieldPreimage?, Option.mem_def, Option.ite_none_right_eq_some, Option.some.injEq] at h
  obtain ⟨hle, rfl⟩ := h
  exact hle

@[simp] theorem secondRange?_reduce {low high : ℕ} {f : Frame} :
    (reduce low high f).secondRange? = none := by
  simp only [reduce]
  split <;> rfl

theorem reduce_inverts {low high : ℕ} (hx : x.Proper t) :
    (reduce low high ⟨⟨t, x⟩, none, ⟨out, z⟩, c⟩).Inverts
      ((Operation.reduce low high).Reaches stops t u out z.toSet) x.toSet Y := by
  have hmem : ∀ a ∈ x.toSet, ∀ b ∈ Y,
      (Operation.reduce low high).Reaches stops t u out z.toSet a b →
        ∃ r ∈ valuesOf? t ((t.bitRanges x).filterMap fun piece =>
          fieldPreimage? piece low (high - low) z), a ∈ r := by
    rintro a ha b - ⟨v, hv, he⟩
    rw [Operation.execute, Outcome.mem_values_value, IntType.toNat_extract] at he
    obtain ⟨q, hq, haq⟩ := (IntType.mem_bitRanges hx).mpr ⟨a, ha, rfl⟩
    obtain ⟨r, hr, har⟩ := exists_mem_fieldPreimage? haq (he ▸ hv)
    refine exists_mem_valuesOf? (fun p hp => ?_) (hx.contains ha)
      ⟨r, List.mem_filterMap.mpr ⟨q, hq, hr⟩, har⟩
    obtain ⟨q', -, hp⟩ := List.mem_filterMap.mp hp
    exact le_of_mem_fieldPreimage? hp
  simp only [reduce]
  split
  · next r hr =>
    refine ⟨keeps_first fun a ha b hb h => ?_, isTight_of_not_exact⟩
    obtain ⟨r', hr', har⟩ := hmem a ha b hb h
    rw [hr] at hr'
    cases hr'
    exact har
  · next hn =>
    refine ⟨fun a ha b hb h => ?_, trivial⟩
    obtain ⟨r', hr', -⟩ := hmem a ha b hb h
    rw [hn] at hr'
    cases hr'

/-! ### Concatenations -/

/-- All results have the same high bits, and their low bits lie on both sides of the middle of the
second operand's type. -/
def Straddles (u : IntType) (z : Range) : Prop :=
  z.lo / pow2 u.width = z.hi / pow2 u.width ∧ u.signed = true ∧
    z.lo % pow2 u.width < u.half ∧ u.half ≤ z.hi % pow2 u.width

private theorem reaches_concat {a b : ℤ} :
    Operation.concat.Reaches stops t u out z.toSet a b ↔
      t.toBits a * pow2 u.width + u.toBits b ∈ z := by
  simp only [Operation.Reaches, Operation.execute, Outcome.mem_values_value, IntType.toNat_append,
    exists_eq_right, Bounds.mem_toSet]

/-- The high bits of a concatenation are those of the first operand, the low bits those of the
second one. -/
private theorem concat_split (a b : ℤ) :
    (t.toBits a * pow2 u.width + u.toBits b) / pow2 u.width = t.toBits a ∧
      (t.toBits a * pow2 u.width + u.toBits b) % pow2 u.width = u.toBits b := by
  have hscale := pow2_pos u.width
  have h0 := u.toBits_nonneg b
  have h1 : u.toBits b < pow2 u.width := u.toBits_lt b
  constructor
  · rw [Int.mul_add_ediv_right _ _ hscale.ne', Int.ediv_eq_zero_of_lt h0 h1, add_zero]
  · rw [Int.mul_add_emod_self_right, Int.emod_eq_of_lt h0 h1]

/-- The low bits of a range with the same high bits. -/
private theorem emod_mem_of_same {m k : ℤ} (hm : 0 < m) (hsame : z.lo / m = z.hi / m) (hk : k ∈ z) :
    k / m = z.lo / m ∧ k % m ∈ (⟨z.lo % m, z.hi % m⟩ : Range) := by
  have h1 := Int.ediv_le_ediv hm hk.1
  have h2 := Int.ediv_le_ediv hm hk.2
  have hq : k / m = z.lo / m := by omega
  have h3 := Int.mul_ediv_add_emod k m
  have h4 := Int.mul_ediv_add_emod z.lo m
  have h5 := Int.mul_ediv_add_emod z.hi m
  rw [hq] at h3
  rw [← hsame] at h5
  obtain ⟨h6, h7⟩ := hk
  exact ⟨hq, ⟨by simp only; omega, by simp only; omega⟩⟩

/-- Operands that reach results with the same high bits: the first one has these, and the second one
has low bits of the result. -/
theorem split_of_reaches_concat {a b : ℤ} (hsame : z.lo / pow2 u.width = z.hi / pow2 u.width)
    (h : Operation.concat.Reaches stops t u out z.toSet a b) :
    t.toBits a = z.lo / pow2 u.width ∧
      u.toBits b ∈ (⟨z.lo % pow2 u.width, z.hi % pow2 u.width⟩ : Range) := by
  rw [reaches_concat] at h
  have hparts := emod_mem_of_same (pow2_pos u.width) hsame h
  obtain ⟨hhigh, hlow⟩ := concat_split (t := t) (u := u) a b
  rwa [hhigh, hlow] at hparts

/-- The ranges of a concatenation: the high bits of the result, and its low bits in case all
results have the same high bits. -/
private theorem concat_cases (hle : z.lo ≤ z.hi) :
    ∃ r s exact, concat ⟨⟨t, x⟩, some ⟨u, y⟩, ⟨out, z⟩, c⟩ = both r s exact ∧
      valuesOf? t [⟨z.lo / pow2 u.width, z.hi / pow2 u.width⟩] = some r ∧
      ((z.lo / pow2 u.width = z.hi / pow2 u.width ∧
          valuesOf? u [⟨z.lo % pow2 u.width, z.hi % pow2 u.width⟩] = some s) ∨
        (z.lo / pow2 u.width ≠ z.hi / pow2 u.width ∧ exact = false ∧ s = y)) := by
  have hscale := pow2_pos u.width
  obtain ⟨r, hr⟩ : ∃ r, valuesOf? t [⟨z.lo / pow2 u.width, z.hi / pow2 u.width⟩] = some r :=
    exists_valuesOf? (Int.ediv_le_ediv hscale hle)
  by_cases hsame : z.lo / pow2 u.width = z.hi / pow2 u.width
  · have hlow := (emod_mem_of_same hscale hsame (k := z.hi) ⟨hle, le_rfl⟩).2
    obtain ⟨s, hs⟩ : ∃ s, valuesOf? u [⟨z.lo % pow2 u.width, z.hi % pow2 u.width⟩] = some s :=
      exists_valuesOf? hlow.1
    have hbeq : (z.lo / pow2 u.width == z.hi / pow2 u.width) = true := beq_iff_eq.mpr hsame
    refine ⟨r, s, true && (r.lo == r.hi || !t.signed), ?_, hr, .inl ⟨hsame, hs⟩⟩
    simp only [concat, Frame.second, Option.getD_some, Span.lo, Span.hi, floorDiv_eq_ediv hscale,
      hbeq, hr, hs, if_true]
  · have hbeq : (z.lo / pow2 u.width == z.hi / pow2 u.width) = false :=
      beq_eq_false_iff_ne.mpr hsame
    refine ⟨r, y, false, ?_, hr, .inr ⟨hsame, rfl, rfl⟩⟩
    simp only [concat, Frame.second, Option.getD_some, Span.lo, Span.hi, floorDiv_eq_ediv hscale,
      hbeq, hr, Bool.false_and, Bool.false_eq_true, if_false]

theorem concat_keeps (hx : x.Proper t) (hy : y.Proper u) (hle : z.lo ≤ z.hi) :
    (concat ⟨⟨t, x⟩, some ⟨u, y⟩, ⟨out, z⟩, c⟩).Keeps
      (Operation.concat.Reaches stops t u out z.toSet) x.toSet y.toSet := by
  have hscale := pow2_pos u.width
  obtain ⟨r, s, exact, he, hr, hs⟩ := concat_cases (c := c) (x := x) (y := y) hle
  rw [he]
  refine keeps_both fun a ha b hb h => ?_
  rw [reaches_concat] at h
  obtain ⟨hhigh, hlow⟩ := concat_split (t := t) (u := u) a b
  constructor
  · have hmem : t.toBits a ∈ (⟨z.lo / pow2 u.width, z.hi / pow2 u.width⟩ : Range) := by
      rw [← hhigh]
      exact ⟨Int.ediv_le_ediv hscale h.1, Int.ediv_le_ediv hscale h.2⟩
    exact mem_of_valuesOf?_eq_some hr (hx.contains ha) hmem
  · rcases hs with ⟨hsame, hs⟩ | ⟨-, -, rfl⟩
    · have hmem := (emod_mem_of_same hscale hsame h).2
      rw [hlow] at hmem
      exact mem_of_valuesOf?_eq_some hs (hy.contains hb) hmem
    · exact hb

/-- The high bits of a first operand that is left, when all results have the same ones. -/
private theorem toBits_eq_of_same {a : ℤ} {r : Range} (hz : z.Proper out)
    (hwidth : out.width = t.width + u.width) (hu : out.signed = false)
    (hsame : z.lo / pow2 u.width = z.hi / pow2 u.width)
    (hr : valuesOf? t [⟨z.lo / pow2 u.width, z.hi / pow2 u.width⟩] = some r) (ha : a ∈ r) :
    t.toBits a = z.lo / pow2 u.width := by
  have hscale := pow2_pos u.width
  obtain ⟨h1, -, h3⟩ := IntType.bounds_of_unsigned hz hu
  have h0 : 0 ≤ z.lo / pow2 u.width := Int.ediv_nonneg h1 hscale.le
  have hlt : z.hi / pow2 u.width < t.modulus := by
    rwa [Int.ediv_lt_iff_lt_mul hscale, IntType.modulus, ← pow2_add, ← hwidth]
  have hside :
      ¬(t.signed = true ∧ z.lo / pow2 u.width < t.half ∧ t.half ≤ z.hi / pow2 u.width) := by
    omega
  have hmem := toBits_mem_of_valuesOf? h0 hsame.le hlt hside hr ha
  exact le_antisymm (hmem.2.trans hsame.ge) hmem.1

/-- The ranges of a concatenation are exact, except that patterns of the second operand across the
middle of its type have to be the only ones. -/
theorem concat_isTight (hz : z.Proper out) (hwidth : out.width = t.width + u.width)
    (hu : out.signed = false) (hcross : Straddles u z → ∀ b ∈ y,
      u.toBits b ∈ (⟨z.lo % pow2 u.width, z.hi % pow2 u.width⟩ : Range)) :
    (concat ⟨⟨t, x⟩, some ⟨u, y⟩, ⟨out, z⟩, c⟩).IsTight
      (Operation.concat.Reaches stops t u out z.toSet) x.toSet y.toSet := by
  have hscale := pow2_pos u.width
  obtain ⟨r, s, exact, he, hr, ⟨hsame, hs⟩ | ⟨-, rfl, -⟩⟩ :=
    concat_cases (t := t) (u := u) (c := c) (x := x) (y := y) hz.le
  · rw [he]
    refine isTight_both fun _ a ha har b hb hbs => ?_
    have hhigh := toBits_eq_of_same hz hwidth hu hsame hr har
    have hlow : u.toBits b ∈ (⟨z.lo % pow2 u.width, z.hi % pow2 u.width⟩ : Range) := by
      by_cases hst : Straddles u z
      · exact hcross hst b hb
      · have hle := (emod_mem_of_same hscale hsame (k := z.hi) ⟨hz.le, le_rfl⟩).2.1
        exact toBits_mem_of_valuesOf? (Int.emod_nonneg _ hscale.ne') hle
          (Int.emod_lt_of_pos _ hscale) (fun h => hst ⟨hsame, h⟩) hs hbs
    -- the two patterns put together lie between the ends of the result
    have hreach : Operation.concat.Reaches stops t u out z.toSet a b := by
      rw [reaches_concat, hhigh]
      have h1 := Int.mul_ediv_add_emod z.lo (pow2 u.width)
      have h2 := Int.mul_ediv_add_emod z.hi (pow2 u.width)
      rw [← hsame] at h2
      rw [mul_comm]
      obtain ⟨h3, h4⟩ := hlow
      exact ⟨by linarith, by linarith⟩
    exact ⟨⟨b, hb, hreach⟩, a, ha, hreach⟩
  · rw [he]
    exact isTight_of_not_exact

/-- Across the middle of its type all of the second operand is kept. -/
theorem concat_keeps_of_straddles (hx : x.Proper t) (hy : y.Proper u) (hle : z.lo ≤ z.hi)
    (hst : Straddles u z) :
    (concat ⟨⟨t, x⟩, some ⟨u, y⟩, ⟨out, z⟩, c⟩).Keeps
      (fun a _ => t.toBits a = z.lo / pow2 u.width) x.toSet y.toSet := by
  obtain ⟨hsame, hsigned, hlo, hhi⟩ := hst
  obtain ⟨r, s, exact, he, hr, ⟨-, hs⟩ | ⟨hne, -⟩⟩ :=
    concat_cases (t := t) (u := u) (c := c) (x := x) (y := y) hle
  · rw [he]
    refine keeps_both fun a ha b hb h => ⟨?_, ?_⟩
    · exact mem_of_valuesOf?_eq_some hr (hx.contains ha) ⟨h.ge, h.le.trans hsame.le⟩
    · exact mem_of_valuesOf?_across (hlo.le.trans hhi) hsigned hlo hhi hs (hy.contains hb)
  · exact absurd hsame hne

/-! ### Overwritten fields -/

/-- The pattern of an overwritten field: the part above the field is kept, and the field is the
second operand. -/
private theorem overwrite_split {low high : ℕ} (hl : low < high) (hh : high ≤ t.width)
    (hu : u.width = high - low) {a b : ℤ}
    (hv : v ∈ ((Operation.bitSet low high).execute stops t u t a b).values t) :
    t.toBits v / pow2 high = t.toBits a / pow2 high ∧
      t.toBits v / pow2 low % pow2 (high - low) = u.toBits b := by
  have hlow := pow2_pos low
  have hhigh := pow2_pos high
  have hfield : u.pattern b < 2 ^ (high - low) := hu ▸ u.pattern_lt b
  rw [Operation.execute, Outcome.mem_values_value, IntType.read_overwrite _ _ _ _ hl hh hu,
    IntType.cleared_or_shiftLeft _ _ hl.le hh hfield, IntType.cleared_eq _ _ hl.le hh] at hv
  -- the three parts as integers
  have hb0 := u.toBits_nonneg b
  have hb1 : u.toBits b < pow2 (high - low) := hu ▸ u.toBits_lt b
  have hr0 := Int.emod_nonneg (t.toBits a) hlow.ne'
  have hr1 := Int.emod_lt_of_pos (t.toBits a) hlow
  have hpow : pow2 high = pow2 low * pow2 (high - low) := by
    rw [← pow2_add, Nat.add_sub_cancel' hl.le]
  have hrest : t.toBits a % pow2 low + u.toBits b * pow2 low < pow2 high := by
    have := mul_le_mul_of_nonneg_right (Int.add_one_le_iff.mpr hb1) hlow.le
    rw [hpow]
    linarith
  have hlt : t.toBits a / pow2 high * pow2 high +
      (t.toBits a % pow2 low + u.toBits b * pow2 low) < t.modulus := by
    have hmod : t.modulus = pow2 (t.width - high) * pow2 high := by
      rw [IntType.modulus, ← pow2_add, Nat.sub_add_cancel hh]
    have hq : t.toBits a / pow2 high < pow2 (t.width - high) := by
      rw [Int.ediv_lt_iff_lt_mul hhigh, ← hmod]
      exact t.toBits_lt a
    have := mul_le_mul_of_nonneg_right (Int.add_one_le_iff.mpr hq) hhigh.le
    rw [hmod]
    linarith
  have hcast : ((t.pattern a / 2 ^ high * 2 ^ high + t.pattern a % 2 ^ low +
      u.pattern b * 2 ^ low : ℕ) : ℤ) = t.toBits a / pow2 high * pow2 high +
        (t.toBits a % pow2 low + u.toBits b * pow2 low) := by
    push_cast
    rw [IntType.pattern_cast, IntType.pattern_cast, pow2_eq, pow2_eq]
    ring
  rw [IntType.ofPattern, hcast] at hv
  have hnonneg : 0 ≤ t.toBits a / pow2 high * pow2 high +
      (t.toBits a % pow2 low + u.toBits b * pow2 low) := by
    have := Int.ediv_nonneg (t.toBits_nonneg a) hhigh.le
    positivity
  have hbits : t.toBits v = _ := hv ▸ IntType.toBits_ofBits hnonneg hlt
  constructor
  · rw [hbits, Int.mul_add_ediv_right _ _ hhigh.ne',
      Int.ediv_eq_zero_of_lt (by positivity) hrest, add_zero]
  · have hparts := field_of_parts (t.toBits a / pow2 high) ⟨hb0, hb1⟩ ⟨hr0, hr1⟩
    rw [Nat.add_sub_cancel' hl.le] at hparts
    rwa [hbits, add_comm (t.toBits a % pow2 low), ← add_assoc]

private theorem fieldImage_eq {p : Range} {low high : ℕ} :
    fieldImage p low (high - low) = (Step.fieldImage low high p).1 := by
  simp only [fieldImage, Step.fieldImage]
  split <;> rfl

theorem bitSet_inverts {low high : ℕ} (hl : low < high) (hh : high ≤ t.width)
    (hu : u.width = high - low) (hx : x.Proper t) (hy : y.Proper u) (hz : z.Proper t) :
    (bitSet low high ⟨⟨t, x⟩, some ⟨u, y⟩, ⟨t, z⟩, c⟩).Inverts
      ((Operation.bitSet low high).Reaches stops t u t z.toSet) x.toSet y.toSet := by
  have htop := pow2_pos high
  refine ⟨keeps_both? fun a ha b hb h => ?_, isTight_both? fun h => absurd h Bool.false_ne_true⟩
  obtain ⟨v, hv, hR⟩ := h
  obtain ⟨habove, hfield⟩ := overwrite_split hl hh hu hR
  obtain ⟨p, hp, hvp⟩ := (IntType.mem_bitRanges hz).mpr ⟨v, hv, rfl⟩
  have hle : ∀ q ∈ t.bitRanges z, q.lo ≤ q.hi := fun q hq =>
    (IntType.bitRanges_bounds hz hq).2.1
  constructor
  · refine exists_mem_valuesOf? (fun q hq => ?_) (hx.contains ha) ⟨_, List.mem_map_of_mem hp, ?_⟩
    · obtain ⟨q', hq', rfl⟩ := List.mem_map.mp hq
      have := mul_le_mul_of_nonneg_right (Int.ediv_le_ediv htop (hle q' hq')) htop.le
      simp only [floorDiv_eq_ediv htop]
      linarith
    · have h1 := mul_le_mul_of_nonneg_right (Int.ediv_le_ediv htop hvp.1) htop.le
      have h2 := mul_le_mul_of_nonneg_right (Int.ediv_le_ediv htop hvp.2) htop.le
      have h3 := Int.mul_ediv_add_emod (t.toBits a) (pow2 high)
      have h4 := Int.emod_nonneg (t.toBits a) htop.ne'
      have h5 := Int.emod_lt_of_pos (t.toBits a) htop
      rw [habove] at h1 h2
      simp only [floorDiv_eq_ediv htop]
      exact ⟨by linarith, by simp only; linarith⟩
  · refine exists_mem_valuesOf? (fun q hq => ?_) (hy.contains hb) ⟨_, List.mem_map_of_mem hp, ?_⟩
    · obtain ⟨q', hq', rfl⟩ := List.mem_map.mp hq
      rw [fieldImage_eq]
      exact (Step.fieldImage_spec low high (hle q' hq')).1.2.1
    · change u.toBits b ∈ _
      rw [fieldImage_eq, ← hfield]
      exact (Step.fieldImage_spec low high (hle p hp)).2.1 _ hvp

end ScalarDomain.Narrowing
