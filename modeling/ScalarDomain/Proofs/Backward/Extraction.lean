import ScalarDomain.Proofs.Backward.Tightness

/-!
# Extracted fields are inverted as tightly as ranges can be

The patterns with a given field repeat with a period. In a range of patterns the first one with a
field in another range is the lower end itself, or the next pattern at which such a field starts, in
the same period or in the following one; the last one is found from the upper end backwards. So the
ends of what is left have their field in the range (`Narrowing.ends_of_mem_fieldPreimage?`). A range
of values is one or two ranges of patterns, each on one side of the middle of the type, where values
and patterns are in the same order; back among the values, the ends are still the ends.
-/

namespace ScalarDomain

namespace Narrowing

variable {stops c : Bool} {t u out : IntType} {x z r patterns field : Range} {low high count : ℕ}
  {Z F : Set ℤ}

/-! ### Patterns -/

/-- The first pattern of a period with a field has no bits below it. -/
private theorem field_at_start (above : ℤ) {f : ℤ} (hf : 0 ≤ f ∧ f < pow2 count) :
    (above * pow2 (low + count) + f * pow2 low) / pow2 low % pow2 count = f := by
  have h := field_of_parts above hf ⟨le_rfl, pow2_pos low⟩
  rwa [add_zero] at h

/-- The last one has all bits below it. -/
private theorem field_at_end (above : ℤ) {f : ℤ} (hf : 0 ≤ f ∧ f < pow2 count) :
    (above * pow2 (low + count) + (f + 1) * pow2 low - 1) / pow2 low % pow2 count = f := by
  have hparts : above * pow2 (low + count) + (f + 1) * pow2 low - 1 =
      above * pow2 (low + count) + f * pow2 low + (pow2 low - 1) := by ring
  have hlow := pow2_pos low
  rw [hparts]
  exact field_of_parts above hf ⟨by omega, by omega⟩

/-- A pattern with a smaller field lies before the start of a field in its period. -/
private theorem lt_of_field_lt {p f : ℤ} (h : p / pow2 low % pow2 count < f) :
    p < p / pow2 (low + count) * pow2 (low + count) + f * pow2 low := by
  have hsplit := split_field p low count
  have hbelow := below_field p low
  have hmul := mul_le_mul_of_nonneg_right (Int.add_one_le_iff.mpr h) (pow2_pos low).le
  linarith

/-- A pattern with a greater field lies after the end of a field in its period. -/
private theorem le_of_lt_field {p f : ℤ} (h : f < p / pow2 low % pow2 count) :
    p / pow2 (low + count) * pow2 (low + count) + (f + 1) * pow2 low ≤ p := by
  have hsplit := split_field p low count
  have hbelow := below_field p low
  have hmul := mul_le_mul_of_nonneg_right (Int.add_one_le_iff.mpr h) (pow2_pos low).le
  linarith

/-- The preimage of a range of fields starts and ends with such a field, and not outside of the
patterns. -/
theorem ends_of_mem_fieldPreimage? (h0 : 0 ≤ field.lo) (hle : field.lo ≤ field.hi)
    (h1 : field.hi < pow2 count) (hr : r ∈ fieldPreimage? patterns low count field) :
    (patterns.lo ≤ r.lo ∧ r.lo / pow2 low % pow2 count ∈ field) ∧
      r.hi ≤ patterns.hi ∧ r.hi / pow2 low % pow2 count ∈ field := by
  have hlow := pow2_pos low
  have hperiod := pow2_pos (low + count)
  have hunits : pow2 count * pow2 low = pow2 (low + count) := by rw [pow2_add, mul_comm]
  simp only [fieldPreimage?, floorDiv_eq_ediv hlow, floorDiv_eq_ediv hperiod, field_of_period,
    Option.mem_def, Option.ite_none_right_eq_some, Option.some.injEq] at hr
  obtain ⟨-, rfl⟩ := hr
  constructor
  · simp only
    split_ifs with hc hlt
    · exact ⟨le_rfl, Bounds.contains_iff.mp hc⟩
    · refine ⟨(lt_of_field_lt hlt).le, ?_⟩
      rw [field_at_start _ ⟨h0, by omega⟩]
      exact ⟨le_rfl, hle⟩
    · -- the field comes back in the next period
      have hend := lt_of_field_lt (Int.emod_lt_of_pos (patterns.lo / pow2 low) (pow2_pos count))
      have hstart := mul_nonneg h0 hlow.le
      have hnext : patterns.lo / pow2 (low + count) * pow2 (low + count) + pow2 (low + count) =
          (patterns.lo / pow2 (low + count) + 1) * pow2 (low + count) := by ring
      refine ⟨by linarith, ?_⟩
      rw [hnext, field_at_start _ ⟨h0, by omega⟩]
      exact ⟨le_rfl, hle⟩
  · simp only
    split_ifs with hc hlt
    · exact ⟨le_rfl, Bounds.contains_iff.mp hc⟩
    · refine ⟨by linarith [le_of_lt_field hlt], ?_⟩
      rw [field_at_end _ ⟨by omega, h1⟩]
      exact ⟨hle, le_rfl⟩
    · -- the field was last there in the period before
      have hend := mul_le_mul_of_nonneg_right (Int.add_one_le_iff.mpr h1) hlow.le
      have hstart := Int.mul_ediv_self_le (x := patterns.hi) hperiod.ne'
      have hprev : patterns.hi / pow2 (low + count) * pow2 (low + count) - pow2 (low + count) =
          (patterns.hi / pow2 (low + count) - 1) * pow2 (low + count) := by ring
      refine ⟨by linarith, ?_⟩
      rw [hprev, field_at_end _ ⟨by omega, h1⟩]
      exact ⟨hle, le_rfl⟩

/-! ### The solver -/

/-- The values around the patterns with a field in a range end at values with such a field. -/
theorem endsIn_of_fields (hx : x.Proper t) (h0 : 0 ≤ z.lo) (hle : z.lo ≤ z.hi)
    (h1 : z.hi < pow2 (high - low))
    (hr : valuesOf? t ((t.bitRanges x).filterMap fun piece =>
      fieldPreimage? piece low (high - low) z) = some r)
    (hF : ∀ a ∈ x, t.toBits a / pow2 low % pow2 (high - low) ∈ z → a ∈ F) : r.EndsIn x F := by
  refine Bounds.endsIn_of_hull?_eq_some (fun s hs => ?_) hr
  obtain ⟨p, hp, hs⟩ := List.mem_flatMap.mp hs
  obtain ⟨q, hq, hp⟩ := List.mem_filterMap.mp hp
  have hple := le_of_mem_fieldPreimage? hp
  obtain ⟨⟨hlo, hlo'⟩, hhi, hhi'⟩ := ends_of_mem_fieldPreimage? h0 hle h1 hp
  -- the patterns that are left lie on the same side as the piece, which gives one range of values
  have hside : ¬(t.signed = true ∧ p.lo < t.half ∧ t.half ≤ p.hi) := fun ⟨hsigned, h2, h3⟩ =>
    IntType.bitRanges_same_side hx hq ⟨hsigned, by omega, by omega⟩
  rw [IntType.valueRanges_same_side hple hside] at hs
  obtain rfl := List.mem_singleton.mp hs
  obtain ⟨hmem, hbits⟩ := IntType.ofBits_mem_of_mem_bitRanges hx hq ⟨hlo, hple.trans hhi⟩
  obtain ⟨hmem', hbits'⟩ := IntType.ofBits_mem_of_mem_bitRanges hx hq ⟨hlo.trans hple, hhi⟩
  exact Bounds.endsIn_of_mem hmem hmem' (hF _ hmem (by rwa [hbits])) (hF _ hmem' (by rwa [hbits']))

theorem reaches_reduce :
    (Operation.reduce low high).Reaches stops t u out Z =
      fun a _ => (((t.bits a).extractLsb' low (high - low)).toNat : ℤ) ∈ Z := by
  funext a b
  simp only [Operation.Reaches, Operation.execute, Outcome.mem_values_value, exists_eq_right]

theorem reduce_isSharp (hx : x.Proper t) (h0 : 0 ≤ z.lo) (hle : z.lo ≤ z.hi)
    (h1 : z.hi < pow2 (high - low)) :
    (reduce low high ⟨⟨t, x⟩, none, ⟨out, z⟩, c⟩).IsSharp
      (admitted ((Operation.reduce low high).Reaches stops t u out z.toSet) x.toSet {0}) x
      (.point 0) := by
  have hadmitted : ∀ a ∈ x, t.toBits a / pow2 low % pow2 (high - low) ∈ z → a ∈ Prod.fst ''
      admitted ((Operation.reduce low high).Reaches stops t u out z.toSet) x.toSet {0} := by
    intro a ha hfield
    rw [← IntType.toNat_extract] at hfield
    rw [reaches_reduce]
    exact ⟨(a, 0), ⟨ha, rfl, hfield⟩, rfl⟩
  simp only [reduce]
  split
  · next r hr =>
    have hends := endsIn_of_fields hx h0 hle h1 hr hadmitted
    exact ⟨hends, endsIn_point _ _ (Set.image_nonempty.mp ⟨_, hends.1⟩)⟩
  · trivial

end Narrowing

/-! ### Refinements -/

section

open Narrowing

variable {limit : ℕ} {t out : IntType} {x z : Element} {low high : ℕ} {r : Refinement}
  {P : ℤ → Prop}

/-- A field of an integer type is an operation. -/
theorem Operation.accepts_reduce (hlow : low < high) (hhigh : high ≤ t.width)
    (hwidth : out.width = high - low) (hsigned : out.signed = false) :
    (Operation.reduce low high).Accepts (.int t) none (.int out) := by
  have hmax := t.width_le_max
  have hrange : isBitRange low high = true := by
    simp only [isBitRange, Bool.and_eq_true, decide_eq_true_eq]
    omega
  have htype : IntType.ofWidth (high - low) false = .ok out := by
    obtain ⟨width, signed, hone, hle⟩ := out
    subst hwidth hsigned
    simp [IntType.ofWidth, IntType.ofWidth?, hone, hle]
  refine ⟨if_pos hrange, by simp [arity], ?_⟩
  exact (if_pos ⟨hlow, hhigh⟩).trans (congrArg (Except.map ScalarType.int) htype)

/-- An integer without gaps finds the smallest range around its values with a field in the
result. -/
theorem Finding.exists_reduce (stops : Bool)
    (h : (Operation.reduce low high).Fits (.int t) none (.int out))
    (hwidth : out.width = high - low) (hsigned : out.signed = false)
    (hx : x.IsWord limit (.int t)) (hz : z.IsWord limit (.int out)) (hxl : ¬x.IsListed)
    (hzl : ¬z.IsListed) :
    ∃ f, ofWords? limit stops (.reduce low high) x none z = .ok (some f) ∧ f.Tightens (admitted
      (fun a _ => (((t.bits a).extractLsb' low (high - low)).toNat : ℤ) ∈ z.values) x.values {0})
      x none := by
  have hranges : OnRanges limit stops (.reduce low high) x none z := onRanges trivial
  obtain ⟨s, rfl, hs⟩ := hx
  obtain ⟨q, rfl, hq⟩ := hz
  obtain ⟨h0, hle, h1⟩ := IntType.bounds_of_unsigned hq.proper.bounds hsigned
  have h1 : (q.bounds out).hi < pow2 (high - low) := hwidth ▸ h1
  obtain ⟨f, hf, htight⟩ := exists_tightens_unary hranges h hs hq hxl hzl
    (reduce_isSharp hs.proper.bounds h0 hle h1)
  rw [reaches_reduce] at htight
  exact ⟨f, hf, htight⟩

/-- A refinement of one operand that is as tight as ranges can be. -/
theorem Refinement.Tightens.unary {X : Set ℤ}
    (h : r.Tightens (admitted (fun a _ => P a) X {0}) x none) :
    (r.eval.empty = true ↔ ∀ a ∈ X, ¬P a) ∧
    (r.eval.empty = false → ∃ lhs : Range, IsLeast {a ∈ X | P a} lhs.lo ∧
      IsGreatest {a ∈ X | P a} lhs.hi ∧ (r.first.getD x).values = lhs.toSet) := by
  have himage : Prod.fst '' admitted (fun a _ => P a) X {0} = {a ∈ X | P a} := by
    ext a
    simp [admitted]
  refine ⟨?_, fun hlive => ?_⟩
  · rw [h.empty, ← Set.image_eq_empty (f := Prod.fst), himage, Set.eq_empty_iff_forall_notMem]
    simp
  · obtain ⟨lhs, rhs, hF, hfirst, -⟩ := h.ranges hlive
    exact ⟨lhs, himage ▸ hF.first_lo, himage ▸ hF.first_hi, hfirst⟩

/-- The extraction of a field from an integer without gaps is refined to the smallest range around
the values whose field is a value of a result without gaps, so that the fields of both ends are. The
refinement ends empty exactly when there is no such value. -/
theorem Element.constrain_reduce_tightens (params : Params) (hdepth : 1 ≤ params.maxDepth)
    (hlow : low < high) (hhigh : high ≤ t.width) (hwidth : out.width = high - low)
    (hsigned : out.signed = false) (hx : x.IsWord limit (.int t)) (hz : z.IsWord limit (.int out))
    (hxl : ¬x.IsListed) (hzl : ¬z.IsListed) :
    ∃ r, (x.constrain limit (.reduce low high) z (.start params none)).value = .ok (true, r) ∧
      (r.eval.empty = true ↔ ∀ a ∈ x.values,
        (((t.bits a).extractLsb' low (high - low)).toNat : ℤ) ∉ z.values) ∧
      (r.eval.empty = false → ∃ lhs : Range,
        IsLeast {a ∈ x.values | (((t.bits a).extractLsb' low (high - low)).toNat : ℤ) ∈ z.values}
          lhs.lo ∧
        IsGreatest {a ∈ x.values | (((t.bits a).extractLsb' low (high - low)).toNat : ℤ) ∈ z.values}
          lhs.hi ∧
        (r.first.getD x).values = lhs.toSet) := by
  have haccepts := Operation.accepts_reduce hlow hhigh hwidth hsigned
  have hword : (x.throughInterval?.getD x).IsWord limit (.int t) := isWord_piece hx (.inl rfl)
  have hnot : ¬(x.throughInterval?.getD x).IsListed := (isListed_throughInterval x).not.mpr hxl
  obtain ⟨f, hf, htight⟩ :=
    Finding.exists_reduce params.stops haccepts.fits hwidth hsigned hword hz hnot hzl
  have hoperand : IsOperand limit none none := trivial
  rw [values_throughInterval] at htight
  refine ⟨_, constrain_settles params hdepth haccepts hx hoperand hz hxl hf, ?_⟩
  exact ((Refinement.tightens_settle (Refinement.fresh_start params none) htight).of_values_eq
    (values_throughInterval x) fun _ => rfl).unary

/-- A field of two bits in a range across zero: the negative values have it in the upper half of the
patterns. -/
theorem Element.constrain_reduce_tightens_across :
    let t : IntType := ⟨4, true, by decide, by decide⟩
    let out : IntType := ⟨2, false, by decide, by decide⟩
    let x : Element := .word (.int t) (.interval ⟨-3, 6⟩)
    let z : Element := .word (.int out) (.constant 2)
    let params : Params := .preset 1 .sure .propagate
    1 ≤ params.maxDepth ∧ 1 < 3 ∧ 3 ≤ t.width ∧ out.width = 3 - 1 ∧ out.signed = false ∧
      x.IsWord 8 (.int t) ∧ z.IsWord 8 (.int out) ∧ ¬x.IsListed ∧ ¬z.IsListed ∧
      ∃ r, (x.constrain 8 (.reduce 1 3) z (.start params none)).value = .ok (true, r) ∧
        r.eval.empty = false ∧ (r.first.getD x).values = Set.Icc (-3) 5 := by
  intro t out x z params
  have hx : x.IsWord 8 (.int t) := by decide
  have hz : z.IsWord 8 (.int out) := by decide
  have hxl : ¬x.IsListed := by rintro ⟨⟩
  have hzl : ¬z.IsListed := by rintro ⟨⟩
  have hxv : ∀ v, v ∈ x.values ↔ -3 ≤ v ∧ v ≤ 6 := fun v => Shape.contains_interval
  have hzv : ∀ v, v ∈ z.values ↔ v = 2 := fun v => Shape.contains_constant
  have hlow : 1 < 3 := by decide
  obtain ⟨r, hr, hempty, hranges⟩ := constrain_reduce_tightens params (by decide) hlow (by decide)
    rfl rfl hx hz hxl hzl
  simp only [hxv, hzv] at hempty hranges
  have hlive : r.eval.empty = false := by
    rw [← Bool.not_eq_true, hempty]
    exact fun h => h 5 (by decide) (by decide)
  obtain ⟨lhs, hlo, hhi, hvalues⟩ := hranges hlive
  have hleast : lhs.lo = -3 := hlo.unique ⟨⟨by decide, by decide⟩, fun a ha => ha.1.1⟩
  have hgreatest : lhs.hi = 5 := by
    refine hhi.unique ⟨⟨by decide, by decide⟩, fun a ha => ?_⟩
    have hne : a ≠ 6 := by
      rintro rfl
      exact absurd ha.2 (by decide)
    have := ha.1.2
    omega
  refine ⟨by decide, hlow, by decide, rfl, rfl, hx, hz, hxl, hzl, r, hr, hlive, ?_⟩
  rw [hvalues]
  ext v
  rw [Bounds.mem_toSet, Bounds.mem_def, hleast, hgreatest, Set.mem_Icc]

end

end ScalarDomain
