import ScalarDomain.Proofs.Forward.Arithmetic

/-!
# Complements, extensions and bit fields of ranges

Operations that cut and paste patterns. A range of values is at most two ranges of patterns, and on
each of them the operation is a translation, a reflection or a quotient; a single image is exact.
Concatenation is called exact after looking at the first operand alone, so that part needs a second
operand without gaps (`Step.concat_tight`).
-/

namespace ScalarDomain

namespace Step

open Outcome

variable {stops : Bool} {w : WordType} {r : Range} {o : WordOperand} {Y : Set ℤ}

/-! ### Complements -/

/-- Complements of a range: exact if its patterns are one piece. -/
theorem bitNegate_describes (hr : r.Proper w.view) :
    (complementRange w r).delivery.Describes w
      (Operation.bitNegate.results stops w.view w.view w.view r.toSet {0}) := by
  have hb := hr.bounds
  have hvalue : ∀ v ∈ Operation.bitNegate.results stops w.view w.view w.view r.toSet {0},
      ∃ a ∈ r, v = w.view.minValue + w.view.maxValue - a := by
    rintro v ⟨a, ha, b, -, hv⟩
    rw [Operation.execute, mem_values_value, IntType.read_not,
      IntType.complement_eq (hr.contains ha)] at hv
    exact ⟨a, ha, hv⟩
  have hc : ∀ u, w.view.contains u = true →
      w.view.complement (w.view.ofBits (w.view.toBits u)) =
        w.view.minValue + w.view.maxValue - u := fun u hu => by
    rw [IntType.ofBits_toBits hu, IntType.complement_eq hu]
  have hlo := hc _ hr.lo_mem
  have hhi := hc _ hr.hi_mem
  rcases IntType.bitRanges_cases hr with ⟨-, he⟩ | ⟨h1, h2, he⟩
  · -- one piece: the complements are a reflection of the range
    simp only [complementRange, he, List.map_cons, List.map_nil, hlo, hhi]
    refine ⟨hullStep_covers ?_ ?_, hullStep_tight (fun _ => rfl) ?_⟩
    · simp only [List.mem_singleton, forall_eq]
      exact .of_bounds (by simp only; omega) (by simp only; omega) (by simp only; omega)
    · intro v hv
      obtain ⟨a, ha, rfl⟩ := hvalue v hv
      exact ⟨_, List.mem_singleton_self _, sub_le_sub_left ha.2 _, sub_le_sub_left ha.1 _⟩
    · rintro - i hi v hv
      cases hi
      have ha : w.view.minValue + w.view.maxValue - v ∈ r :=
        ⟨by linarith [hv.2], by linarith [hv.1]⟩
      refine ⟨_, ha, 0, rfl, ?_⟩
      rw [Operation.execute, mem_values_value, IntType.read_not,
        IntType.complement_eq (hr.contains ha)]
      ring
  · -- two pieces: below zero and from zero on
    have hmod := w.view.modulus_eq
    have hneg : w.view.contains (-1) = true := IntType.contains_iff.mpr ⟨by omega, by omega⟩
    have hz : w.view.toBits 0 = 0 := IntType.toBits_of_nonneg w.view.contains_zero le_rfl
    have hm : w.view.toBits (-1) = w.view.modulus - 1 := by
      rw [IntType.toBits_of_neg hneg (by norm_num)]
      ring
    have h0 := hc _ w.view.contains_zero
    have h3 := hc _ hneg
    rw [hz] at h0
    rw [hm] at h3
    simp only [complementRange, he, List.map_cons, List.map_nil, hlo, hhi, h0, h3]
    refine ⟨hullStep_covers ?_ ?_, hullStep_tight (by simp) (by simp)⟩
    · simp only [List.mem_cons, List.not_mem_nil, or_false, forall_eq_or_imp, forall_eq]
      exact ⟨.of_bounds (by simp only; omega) (by simp only; omega) (by simp only; omega),
        .of_bounds (by simp only; omega) (by simp only; omega) (by simp only; omega)⟩
    · intro v hv
      obtain ⟨a, ha, rfl⟩ := hvalue v hv
      obtain ⟨ha1, ha2⟩ := ha
      simp only [List.mem_cons, List.not_mem_nil, or_false, exists_eq_or_imp, exists_eq_left,
        Bounds.mem_mk]
      omega

/-! ### Extensions -/

/-- An extension ends with the extended value. -/
theorem mem_values_extend {fill : Extension} {bits : ℕ} {t u wide : IntType} {a b v : ℤ}
    (hw : t.width < wide.width) :
    v ∈ ((Operation.extend fill bits).execute stops t u wide a b).values wide ↔
      v = t.extended fill wide a := by
  cases fill with
  | zero => rw [Operation.execute, mem_values_value, IntType.read_setWidth hw, IntType.extended]
  | sign => rw [Operation.execute, mem_values_value, IntType.read_signExtend, IntType.extended]

/-- The images of a range in the segments of an extension. -/
theorem mem_extend_images {fill : Extension} {wide : IntType} {i : Range} :
    i ∈ (w.view.extensionSegments fill wide).filterMap
      (fun p => (Bounds.meet? p.1 r).map fun s => (⟨s.lo + p.2, s.hi + p.2⟩ : Range)) ↔
    ∃ p ∈ w.view.extensionSegments fill wide, ∃ s, Bounds.meet? p.1 r = some s ∧
      i = ⟨s.lo + p.2, s.hi + p.2⟩ := by
  rw [List.mem_filterMap]
  refine exists_congr fun p => and_congr_right fun _ => ?_
  exact Option.map_eq_some_iff.trans (exists_congr fun s => and_congr_right fun _ => eq_comm)

/-- A value of an image comes from the common part of the range and a segment. -/
theorem exists_extended_of_mem_image {fill : Extension} {wide : IntType} {i : Range}
    (hw : w.view.width < wide.width) (hs : wide.signed = w.view.signed)
    (hi : i ∈ (w.view.extensionSegments fill wide).filterMap
      (fun p => (Bounds.meet? p.1 r).map fun s => (⟨s.lo + p.2, s.hi + p.2⟩ : Range))) :
    i.lo ≤ i.hi ∧ ∀ v ∈ i, ∃ a ∈ r, w.view.extended fill wide a = v := by
  obtain ⟨p, hp, s, hm, rfl⟩ := mem_extend_images.mp hi
  refine ⟨add_le_add_left (Bounds.le_of_meet?_eq_some hm) _, fun v hv => ?_⟩
  have hmem : v - p.2 ∈ s := ⟨by linarith [hv.1], by linarith [hv.2]⟩
  rw [Bounds.mem_of_meet?_eq_some hm] at hmem
  refine ⟨v - p.2, hmem.2, ?_⟩
  rw [(IntType.extended_of_mem_segment hw hs hp).2 _ hmem.1]
  ring

/-- Extensions of a range: each segment is shifted, exact if one segment is met. -/
theorem extend_describes {fill : Extension} {bits : ℕ} {wide : IntType} (hr : r.Proper w.view)
    (hw : w.view.width < wide.width) (hs : wide.signed = w.view.signed) :
    (extendRange w.view fill (.int wide) r).delivery.Describes (.int wide)
      ((Operation.extend fill bits).results stops w.view w.view wide r.toSet {0}) := by
  have hcontains : ∀ a, wide.contains (w.view.extended fill wide a) = true := by
    intro a
    cases fill with
    | zero =>
      rw [IntType.extended, ← IntType.read_setWidth hw]
      exact IntType.contains_read _ _
    | sign => exact IntType.contains_wrap _ _
  refine ⟨hullStep_covers ?_ ?_, hullStep_tight of_decide_eq_true ?_⟩
  · intro i hi
    obtain ⟨hle, himage⟩ := exists_extended_of_mem_image hw hs hi
    obtain ⟨a, -, ha⟩ := himage i.lo ⟨le_rfl, hle⟩
    obtain ⟨b, -, hb⟩ := himage i.hi ⟨hle, le_rfl⟩
    exact ⟨hle, ha ▸ hcontains a, hb ▸ hcontains b⟩
  · rintro v ⟨a, ha, b, -, hv⟩
    rw [mem_values_extend hw] at hv
    obtain ⟨p, hp, hap⟩ := IntType.exists_extensionSegment hw hs (hr.contains ha)
    obtain ⟨s, hm, has⟩ := Bounds.exists_meet? hap ha
    refine ⟨_, mem_extend_images.mpr ⟨p, hp, s, hm, rfl⟩, ?_⟩
    rw [hv, (IntType.extended_of_mem_segment hw hs hp).2 a hap]
    exact ⟨add_le_add_left has.1 _, add_le_add_left has.2 _⟩
  · intro _ i hi v hv
    obtain ⟨a, ha, hav⟩ :=
      (exists_extended_of_mem_image hw hs (hi ▸ List.mem_singleton_self i)).2 v hv
    exact ⟨a, ha, 0, rfl, (mem_values_extend hw).mpr hav.symm⟩

/-! ### Fields -/

/-- The field `[low, high)` of a range of patterns, and whether it is exact. -/
def fieldImage (low high : ℕ) (piece : Range) : Range × Bool :=
  if pow2 (high - low) ≤ floorDiv piece.hi (pow2 low) - floorDiv piece.lo (pow2 low) + 1 ∨
      floorDiv piece.hi (pow2 low) % pow2 (high - low) <
        floorDiv piece.lo (pow2 low) % pow2 (high - low) then
    (⟨0, pow2 (high - low) - 1⟩, false)
  else
    (⟨floorDiv piece.lo (pow2 low) % pow2 (high - low),
      floorDiv piece.hi (pow2 low) % pow2 (high - low)⟩, true)

/-- A field of a range of patterns: either the quotients stay within one window of the field, or the
whole field is taken. -/
theorem fieldImage_spec (low high : ℕ) {q : Range} (hq : q.lo ≤ q.hi) :
    (0 ≤ (fieldImage low high q).1.lo ∧
      (fieldImage low high q).1.lo ≤ (fieldImage low high q).1.hi ∧
      (fieldImage low high q).1.hi < pow2 (high - low)) ∧
    (∀ p ∈ q, p / pow2 low % pow2 (high - low) ∈ (fieldImage low high q).1) ∧
    ((fieldImage low high q).2 = true →
      ∀ v ∈ (fieldImage low high q).1, ∃ p ∈ q, p / pow2 low % pow2 (high - low) = v) := by
  have hlow := pow2_pos low
  have hmod := pow2_pos (high - low)
  have hnonneg : ∀ n : ℤ, 0 ≤ n % pow2 (high - low) := fun n => Int.emod_nonneg n hmod.ne'
  have hlt : ∀ n : ℤ, n % pow2 (high - low) < pow2 (high - low) := fun n =>
    Int.emod_lt_of_pos n hmod
  simp only [fieldImage, floorDiv_eq_ediv hlow]
  split
  · refine ⟨⟨le_rfl, by simp only; omega, by simp only; omega⟩, fun p _ => ⟨hnonneg _, ?_⟩, by simp⟩
    have := hlt (p / pow2 low)
    simp only
    omega
  · next h =>
    rw [not_or, not_le, not_lt] at h
    have key (n) :
        (∃ k, q.lo / pow2 low ≤ k ∧ k ≤ q.hi / pow2 low ∧ k % pow2 (high - low) = n) ↔ _ :=
      emod_mem_iff hmod (Int.ediv_le_ediv hlow hq) h.1 h.2
    refine ⟨⟨hnonneg _, h.2, hlt _⟩, fun p hp => ?_, fun _ v hv => ?_⟩
    · exact (key _).mp ⟨p / pow2 low, Int.ediv_le_ediv hlow hp.1, Int.ediv_le_ediv hlow hp.2, rfl⟩
    · obtain ⟨k, hk1, hk2, rfl⟩ := (key v).mpr hv
      obtain ⟨p, hp1, hp2, rfl⟩ := (ediv_mem_iff hq hlow).mpr ⟨hk1, hk2⟩
      exact ⟨p, ⟨hp1, hp2⟩, rfl⟩

/-- Fields of a range, exact if its patterns are one piece with an exact field. -/
theorem reduce_describes {low high : ℕ} {field : IntType} (hr : r.Proper w.view)
    (hw : field.width = high - low) (hs : field.signed = false) :
    (reduceRange w.view low high (.int field) r).delivery.Describes (.int field)
      ((Operation.reduce low high).results stops w.view w.view field r.toSet {0}) := by
  have hstep : reduceRange w.view low high (.int field) r =
      hullStep (.int field) (((w.view.bitRanges r).map (fieldImage low high)).map (·.1))
        (((w.view.bitRanges r).map (fieldImage low high)).all (·.2) &&
          ((w.view.bitRanges r).map (fieldImage low high)).length == 1) := rfl
  have hspec : ∀ q ∈ w.view.bitRanges r, _ := fun q hq =>
    fieldImage_spec low high (IntType.bitRanges_bounds hr hq).2.1
  rw [hstep]
  refine ⟨hullStep_covers ?_ ?_, hullStep_tight ?_ ?_⟩
  · intro i hi
    obtain ⟨p, hp, rfl⟩ := List.mem_map.mp hi
    obtain ⟨q, hq, rfl⟩ := List.mem_map.mp hp
    obtain ⟨h0, hle, h1⟩ := (hspec q hq).1
    exact ⟨hle, IntType.contains_of_unsigned hw hs h0 (by omega),
      IntType.contains_of_unsigned hw hs (by omega) h1⟩
  · rintro v ⟨a, ha, b, -, hv⟩
    obtain ⟨q, hq, hp⟩ := (IntType.mem_bitRanges hr).mpr ⟨a, ha, rfl⟩
    refine ⟨_, List.mem_map_of_mem (List.mem_map_of_mem hq), ?_⟩
    rw [Operation.execute, mem_values_value, IntType.toNat_extract] at hv
    exact hv ▸ (hspec q hq).2.1 _ hp
  · intro he
    rw [Bool.and_eq_true, beq_iff_eq] at he
    rw [List.length_map]
    exact he.2
  · intro he i hi v hv
    rw [Bool.and_eq_true, List.all_eq_true] at he
    obtain ⟨p, hp, rfl⟩ := List.mem_map.mp (hi ▸ List.mem_singleton_self i)
    obtain ⟨q, hq, rfl⟩ := List.mem_map.mp hp
    obtain ⟨n, hn, rfl⟩ := (hspec q hq).2.2 (he.1 _ hp) v hv
    obtain ⟨a, ha, rfl⟩ := (IntType.mem_bitRanges hr).mp ⟨q, hq, hn⟩
    refine ⟨a, ha, 0, rfl, ?_⟩
    rw [Operation.execute, mem_values_value, IntType.toNat_extract]

/-! ### Concatenations -/

section

variable {u : WordType} {wide : IntType}

/-- The images of a concatenation, one for each pair of pieces. -/
theorem mem_concat_images {i : Range} :
    i ∈ (w.view.bitRanges r).flatMap (fun high => (o.type.bitRanges o.range).map fun low =>
      (⟨high.lo * pow2 o.type.width + low.lo, high.hi * pow2 o.type.width + low.hi⟩ : Range)) ↔
    ∃ p ∈ w.view.bitRanges r, ∃ q ∈ o.type.bitRanges o.range,
      (⟨p.lo * pow2 o.type.width + q.lo, p.hi * pow2 o.type.width + q.hi⟩ : Range) = i := by
  simp only [List.mem_flatMap, List.mem_map]

/-- Concatenations lie in the hull of the images. -/
theorem concat_covers (hr : r.Proper w.view) (hy : o.Abstracts u.view Y)
    (hw : wide.width = w.view.width + u.view.width) (hs : wide.signed = false) :
    (concatRange w.view (.int wide) r o).delivery.Covers (.int wide)
      (Operation.concat.results stops w.view u.view wide r.toSet Y) := by
  have hscale := pow2_pos u.view.width
  have hty := hy.type
  refine hullStep_covers ?_ ?_
  · intro i hi
    obtain ⟨p, hp, q, hq, rfl⟩ := mem_concat_images.mp hi
    rw [hty] at hq ⊢
    obtain ⟨hp0, hp1, hp2⟩ := IntType.bitRanges_bounds hr hp
    obtain ⟨hq0, hq1, hq2⟩ := IntType.bitRanges_bounds hy.proper hq
    have h1 : 0 ≤ p.lo * pow2 u.view.width := mul_nonneg hp0 hscale.le
    have h2 : p.lo * pow2 u.view.width ≤ p.hi * pow2 u.view.width :=
      mul_le_mul_of_nonneg_right hp1 hscale.le
    have h3 : (p.hi + 1) * pow2 u.view.width ≤ w.view.modulus * pow2 u.view.width :=
      mul_le_mul_of_nonneg_right (by omega) hscale.le
    have hin : ∀ v, 0 ≤ v → v < w.view.modulus * pow2 u.view.width → wide.contains v = true :=
      fun v h0 h1 => IntType.contains_of_unsigned hw hs h0 (by rwa [pow2_add])
    change q.hi < pow2 u.view.width at hq2
    rw [add_mul, one_mul] at h3
    exact ⟨by simp only; omega, hin _ (by simp only; omega) (by simp only; omega),
      hin _ (by simp only; omega) (by simp only; omega)⟩
  · rintro v ⟨a, ha, b, hb, hv⟩
    obtain ⟨p, hp, hap⟩ := (IntType.mem_bitRanges hr).mpr ⟨a, ha, rfl⟩
    obtain ⟨q, hq, hbq⟩ := (IntType.mem_bitRanges hy.proper).mpr ⟨b, hy.mem b hb, rfl⟩
    refine ⟨_, mem_concat_images.mpr ⟨p, hp, q, hty ▸ hq, rfl⟩, ?_⟩
    rw [Operation.execute, mem_values_value, IntType.toNat_append] at hv
    rw [hv, hty, Bounds.mem_mk]
    exact ⟨add_le_add (mul_le_mul_of_nonneg_right hap.1 hscale.le) hbq.1,
      add_le_add (mul_le_mul_of_nonneg_right hap.2 hscale.le) hbq.2⟩

/-- The concatenations of one value with a range that is contiguous as patterns have no gaps, if
the second operand has none. -/
theorem concat_tight (hr : r.Proper w.view) (hy : o.Abstracts u.view Y)
    (hconvex : r.lo = r.hi → o.convex = true) :
    (concatRange w.view (.int wide) r o).delivery.IsTight
      (Operation.concat.results stops w.view u.view wide r.toSet Y) := by
  have hty := hy.type
  refine hullStep_tight ?_ ?_
  · intro he
    rw [Bool.and_eq_true, beq_iff_eq, beq_iff_eq] at he
    exact he.2
  · intro he i hi v hv
    rw [Bool.and_eq_true, beq_iff_eq] at he
    obtain ⟨p, hp, q, hq, rfl⟩ := mem_concat_images.mp (hi ▸ List.mem_singleton_self i)
    rw [hty] at hq hv
    -- the first pattern is that of the one value
    have hpoint : p.lo = w.view.toBits r.lo ∧ p.hi = w.view.toBits r.lo := by
      rcases IntType.bitRanges_cases hr with ⟨-, hb⟩ | ⟨h1, h2, -⟩
      · rw [hb, List.mem_singleton] at hp
        exact ⟨hp ▸ rfl, by rw [hp, he.1]⟩
      · omega
    rw [hpoint.1, hpoint.2, Bounds.mem_mk] at hv
    have hbits : v - w.view.toBits r.lo * pow2 u.view.width ∈ q := ⟨by linarith [hv.1], by
      linarith [hv.2]⟩
    obtain ⟨b, hb, hbv⟩ := (IntType.mem_bitRanges hy.proper).mp ⟨q, hq, hbits⟩
    refine ⟨r.lo, hr.lo_mem_self, b, hy.convex (hconvex he.1) b hb, ?_⟩
    rw [Operation.execute, mem_values_value, IntType.toNat_append, hbv]
    ring

end

/-! ### Overwritten fields -/

/-- A field put into the cleared bits is added to them and stays below the modulus. -/
theorem cleared_add_bounds {low high : ℕ} {u : WordType} (a : ℤ) (hl : low < high)
    (hh : high ≤ w.view.width) (hu : u.view.width = high - low) {n : ℤ} (h0 : 0 ≤ n)
    (h1 : n < u.view.modulus) :
    0 ≤ (w.view.cleared a low high : ℤ) + n * pow2 low ∧
      (w.view.cleared a low high : ℤ) + n * pow2 low < w.view.modulus := by
  obtain ⟨k, rfl⟩ := Int.eq_ofNat_of_zero_le h0
  have hk : k < 2 ^ (high - low) := by
    rw [IntType.modulus_cast, hu] at h1
    exact_mod_cast h1
  have hshift : k <<< low < 2 ^ w.view.width := by
    rw [Nat.shiftLeft_eq]
    calc k * 2 ^ low < 2 ^ (high - low) * 2 ^ low := Nat.mul_lt_mul_of_pos_right hk (by positivity)
      _ = 2 ^ high := by rw [← pow_add, Nat.sub_add_cancel hl.le]
      _ ≤ 2 ^ w.view.width := Nat.pow_le_pow_right (by norm_num) hh
  have hlt : w.view.cleared a low high ||| k <<< low < 2 ^ w.view.width :=
    Nat.or_lt_two_pow (lt_of_le_of_lt Nat.and_le_left (w.view.pattern_lt _)) hshift
  rw [IntType.cleared_or_shiftLeft _ _ hl.le hh hk] at hlt
  rw [IntType.modulus_cast, pow2_cast]
  exact ⟨by positivity, by exact_mod_cast hlt⟩

/-- The values of a range of patterns put into a field. -/
theorem proper_of_mem_bitSet_images {low high : ℕ} {u : WordType} {a : ℤ} {q i : Range}
    (hl : low < high) (hh : high ≤ w.view.width) (hu : u.view.width = high - low)
    (hq : 0 ≤ q.lo ∧ q.lo ≤ q.hi ∧ q.hi < u.view.modulus)
    (hi : i ∈ w.view.valueRanges ⟨(w.view.cleared a low high : ℤ) + q.lo * pow2 low,
      (w.view.cleared a low high : ℤ) + q.hi * pow2 low⟩) : i.Proper w.view := by
  obtain ⟨h0, hle, h1⟩ := hq
  refine IntType.proper_of_mem_valueRanges (cleared_add_bounds a hl hh hu h0 (by omega)).1 ?_
    (cleared_add_bounds a hl hh hu (by omega) h1).2 hi
  exact add_le_add_right (mul_le_mul_of_nonneg_right hle (pow2_pos low).le) _

/-- Overwriting a field of one value, which is never called exact. -/
theorem bitSet_describes {low high : ℕ} {u : WordType} (hy : o.Abstracts u.view Y)
    (hl : low < high) (hh : high ≤ w.view.width) (hu : u.view.width = high - low)
    (hany : ∀ v ∈ (Operation.bitSet low high).results stops w.view u.view w.view r.toSet Y,
      w.view.contains v = true) :
    (bitSetRange w low high r o).delivery.Describes w
      ((Operation.bitSet low high).results stops w.view u.view w.view r.toSet Y) := by
  simp only [bitSetRange]
  split
  · exact anyWord_describes hany
  next hpoint =>
  have hty := hy.type
  refine ⟨hullStep_covers ?_ ?_, hullStep_tight (by simp) (by simp)⟩
  · intro i hi
    obtain ⟨q, hq, hi⟩ := List.mem_flatMap.mp hi
    rw [hty] at hq
    exact proper_of_mem_bitSet_images hl hh hu (IntType.bitRanges_bounds hy.proper hq) hi
  · rintro v ⟨a, ha, b, hb, hv⟩
    have hau : a = r.lo := by
      rw [Bounds.mem_toSet, Bounds.mem_def] at ha
      omega
    subst hau
    obtain ⟨q, hq, hbq⟩ := (IntType.mem_bitRanges hy.proper).mpr ⟨b, hy.mem b hb, rfl⟩
    have hle := (IntType.bitRanges_bounds hy.proper hq).2.1
    have hpow := (pow2_pos low).le
    have hk : u.view.pattern b < 2 ^ (high - low) := hu ▸ u.view.pattern_lt b
    rw [Operation.execute, mem_values_value, IntType.read_overwrite _ _ _ _ hl hh hu,
      IntType.cleared_or_shiftLeft _ _ hl.le hh hk, IntType.ofPattern] at hv
    push_cast at hv
    rw [IntType.pattern_cast] at hv
    obtain ⟨i, hi, hvi⟩ := (IntType.mem_valueRanges w.view
      (r := ⟨(w.view.cleared r.lo low high : ℤ) + q.lo * pow2 low,
        (w.view.cleared r.lo low high : ℤ) + q.hi * pow2 low⟩)
      (add_le_add_right (mul_le_mul_of_nonneg_right hle hpow) _)).mpr
      ⟨(w.view.cleared r.lo low high : ℤ) + u.view.toBits b * pow2 low,
        ⟨add_le_add_right (mul_le_mul_of_nonneg_right hbq.1 hpow) _,
          add_le_add_right (mul_le_mul_of_nonneg_right hbq.2 hpow) _⟩, rfl⟩
    refine ⟨i, List.mem_flatMap.mpr ⟨q, hty ▸ hq, hi⟩, ?_⟩
    rw [hv, ← pow2_eq]
    exact hvi

end Step

end ScalarDomain
