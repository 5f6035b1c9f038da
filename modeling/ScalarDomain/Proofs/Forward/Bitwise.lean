import ScalarDomain.Proofs.Forward.Arithmetic

/-!
# Bitwise connectives, shifts and rotations of ranges

A connective with the patterns of zero or of all ones is exact; otherwise signs and bit lengths
bound the result. A shift to the right lies between the shifts of the ends by the least and the
largest valid amount. When these two agree it is called exact, which is right unless the one amount
left is a gap of the second operand (`Step.shift_right_tight`).
-/

namespace ScalarDomain

/-! ### Patterns of values -/

namespace IntType

variable {t : IntType} {a b v : ℤ}

/-- A pattern up to the largest value reads as itself. -/
theorem ofPattern_of_le {p : ℕ} (h : (p : ℤ) ≤ t.maxValue) : t.ofPattern p = p := by
  rw [ofPattern]
  rcases t.layout with ⟨-, -, hmax⟩ | ⟨hs, -, -⟩
  · exact ofBits_of_lt (by omega)
  · exact ofBits_of_unsigned hs

/-- A pattern of a negative value or above one reads as a negative value. -/
theorem ofPattern_of_pattern_le {p : ℕ} (h : t.contains a = true) (ha : a < 0)
    (hp : t.pattern a ≤ p) : t.ofPattern p = p - t.modulus := by
  have hpa := pattern_of_neg h ha
  have hm := t.modulus_eq_two_mul
  rw [contains_iff] at h
  rcases t.layout with ⟨hs, hmin, -⟩ | ⟨-, hmin, -⟩
  · exact ofBits_of_le hs (by omega)
  · omega

/-- All ones is the pattern of `allOnes`. -/
theorem pattern_allOnes (t : IntType) : t.pattern t.allOnes = 2 ^ t.width - 1 := by
  have hm := t.modulus_cast
  have hm2 := t.modulus_eq_two_mul
  have hpos := t.half_pos
  have hc : (t.pattern t.allOnes : ℤ) = t.modulus - 1 := by
    rcases t.layout with ⟨hs, hmin, hmax⟩ | ⟨hs, hmin, hmax⟩
    · rw [allOnes, if_pos hs, pattern_of_neg (contains_iff.mpr (by omega)) (by omega)]
      ring
    · rw [allOnes, if_neg (by simp [hs]),
        pattern_of_nonneg (contains_iff.mpr (by omega)) (by omega)]
      omega
  omega

theorem contains_allOnes (t : IntType) : t.contains t.allOnes = true := by
  have hpos := t.half_pos
  rw [contains_iff]
  rcases t.layout with ⟨hs, hmin, hmax⟩ | ⟨hs, hmin, hmax⟩
  · rw [allOnes, if_pos hs]
    omega
  · rw [allOnes, if_neg (by simp [hs])]
    omega

theorem pattern_zero (t : IntType) : t.pattern 0 = 0 := by
  have := pattern_of_nonneg t.contains_zero le_rfl
  omega

/-- Zero makes a conjunction zero. -/
theorem ofPattern_and_zero (t : IntType) (a : ℤ) :
    t.ofPattern (t.pattern a &&& t.pattern 0) = 0 := by
  rw [pattern_zero, Nat.and_zero, ← t.pattern_zero, ofPattern_pattern t.contains_zero]

/-- All ones keep a value in a conjunction. -/
theorem ofPattern_and_allOnes (ha : t.contains a = true) :
    t.ofPattern (t.pattern a &&& t.pattern t.allOnes) = a := by
  rw [pattern_allOnes, Nat.and_two_pow_sub_one_eq_mod, Nat.mod_eq_of_lt (t.pattern_lt a),
    ofPattern_pattern ha]

/-- Zero keeps a value in a disjunction. -/
theorem ofPattern_or_zero (ha : t.contains a = true) :
    t.ofPattern (t.pattern a ||| t.pattern 0) = a := by
  rw [pattern_zero, Nat.or_zero, ofPattern_pattern ha]

/-- All ones make a disjunction all ones. -/
theorem ofPattern_or_allOnes (t : IntType) (a : ℤ) :
    t.ofPattern (t.pattern a ||| t.pattern t.allOnes) = t.allOnes := by
  have hlt := Nat.or_lt_two_pow (t.pattern_lt a) (t.pattern_lt t.allOnes)
  have hge : t.pattern t.allOnes ≤ t.pattern a ||| t.pattern t.allOnes := Nat.right_le_or
  have hones := t.pattern_allOnes
  rw [show t.pattern a ||| t.pattern t.allOnes = t.pattern t.allOnes by omega,
    ofPattern_pattern t.contains_allOnes]

/-- A natural operand makes a conjunction natural and bounds it from above. -/
theorem ofPattern_and_mem (ha : t.contains a = true) (h0 : 0 ≤ a) (b : ℤ) :
    t.ofPattern (t.pattern a &&& t.pattern b) ∈ (⟨0, a⟩ : Range) := by
  have hpa := pattern_of_nonneg ha h0
  have hle : t.pattern a &&& t.pattern b ≤ t.pattern a := Nat.and_le_left
  have hmax := (contains_iff.mp ha).2
  rw [ofPattern_of_le (by omega), Bounds.mem_mk]
  omega

/-- A negative operand makes a disjunction negative and bounds it from below. -/
theorem ofPattern_or_mem (ha : t.contains a = true) (h0 : a < 0) (b : ℤ) :
    t.ofPattern (t.pattern a ||| t.pattern b) ∈ (⟨a, -1⟩ : Range) := by
  have hpa := pattern_of_neg ha h0
  have hle : t.pattern a ≤ t.pattern a ||| t.pattern b := Nat.left_le_or
  have hlt := Nat.or_lt_two_pow (t.pattern_lt a) (t.pattern_lt b)
  have hm := t.modulus_cast
  rw [ofPattern_of_pattern_le ha h0 hle, Bounds.mem_mk]
  omega

end IntType

@[simp] theorem Bitwise.combine_and (m n : ℕ) : Bitwise.and.combine m n = m &&& n := rfl

@[simp] theorem Bitwise.combine_or (m n : ℕ) : Bitwise.or.combine m n = m ||| n := rfl

@[simp] theorem Bitwise.combine_xor (m n : ℕ) : Bitwise.xor.combine m n = m ^^^ n := rfl

namespace Step

open Outcome

variable {stops : Bool} {w : WordType} {r : Range} {o : WordOperand} {Y : Set ℤ}

/-! ### Bitwise connectives -/

/-- A connective is executed on the patterns, and never fails. -/
theorem mem_values_bitwise {c : Bitwise} {t u out : IntType} {a b v : ℤ} :
    v ∈ ((Operation.bitwise c).execute stops t u out a b).values out ↔
      v = t.ofPattern (c.combine (t.pattern a) (t.pattern b)) := by
  rw [Operation.execute, mem_values_value, IntType.read_onBits]

/-- A constant operand makes the results the image of the first operand under some function. -/
private theorem bitwise_constant_describes {c : Bitwise} {d : ℤ} {f : ℤ → ℤ} {s : Range}
    (hY : ∀ b, b ∈ Y ↔ b = d)
    (hf : ∀ a ∈ r, w.view.ofPattern (c.combine (w.view.pattern a) (w.view.pattern d)) = f a)
    (hs : s.Proper w.view) (hmem : ∀ v, v ∈ s ↔ ∃ a ∈ r, f a = v) :
    (words w s true).delivery.Describes w
      ((Operation.bitwise c).results stops w.view w.view w.view r.toSet Y) := by
  refine words_describes (fun _ => hs) ?_ fun _ v hv => ?_
  · rintro v ⟨a, ha, b, hb, hv⟩
    rw [mem_values_bitwise, (hY b).mp hb, hf a ha] at hv
    exact (hmem v).mpr ⟨a, ha, hv.symm⟩
  · obtain ⟨a, ha, rfl⟩ := (hmem v).mp hv
    exact ⟨a, ha, d, (hY d).mpr rfl, mem_values_bitwise.mpr (hf a ha).symm⟩

/-- A second operand that fixes the result. -/
private theorem bitwise_fixes_describes {c : Bitwise} {d e : ℤ} (hr : r.Proper w.view)
    (hY : ∀ b, b ∈ Y ↔ b = d) (he : w.view.contains e = true)
    (hf : ∀ a ∈ r, w.view.ofPattern (c.combine (w.view.pattern a) (w.view.pattern d)) = e) :
    (words w (.point e) true).delivery.Describes w
      ((Operation.bitwise c).results stops w.view w.view w.view r.toSet Y) := by
  refine bitwise_constant_describes hY hf (.point he) fun v => ?_
  rw [Bounds.mem_point]
  exact ⟨fun hv => ⟨r.lo, hr.lo_mem_self, hv.symm⟩, fun ⟨_, _, hv⟩ => hv.symm⟩

/-- A second operand that keeps the first operand. -/
private theorem bitwise_keeps_describes {c : Bitwise} {d : ℤ} (hr : r.Proper w.view)
    (hY : ∀ b, b ∈ Y ↔ b = d)
    (hf : ∀ a ∈ r, w.view.ofPattern (c.combine (w.view.pattern a) (w.view.pattern d)) = a) :
    (words w r true).delivery.Describes w
      ((Operation.bitwise c).results stops w.view w.view w.view r.toSet Y) :=
  bitwise_constant_describes (f := id) hY hf hr fun v => by simp

/-- A bound on the results of all pairs of values. -/
private theorem bitwise_within_describes {c : Bitwise} {lo hi : ℤ} (hr : r.Proper w.view)
    (hy : o.Abstracts w.view Y) (hlo : w.view.minValue ≤ lo) (hhi : hi ≤ w.view.maxValue)
    (h : ∀ a ∈ r, w.view.contains a = true → ∀ b ∈ o.range, w.view.contains b = true →
      lo ≤ w.view.ofPattern (c.combine (w.view.pattern a) (w.view.pattern b)) ∧
        w.view.ofPattern (c.combine (w.view.pattern a) (w.view.pattern b)) ≤ hi) :
    (words w ⟨lo, hi⟩ false).delivery.Describes w
      ((Operation.bitwise c).results stops w.view w.view w.view r.toSet Y) := by
  refine words_describes (fun hle => .of_bounds hlo hle hhi) ?_ (by simp)
  rintro v ⟨a, ha, b, hb, hv⟩
  rw [mem_values_bitwise] at hv
  have hb := hy.mem b hb
  exact hv ▸ h a ha (hr.contains ha) b hb (hy.proper.contains hb)

/-- Conjunctions of a range: natural operands bound them from above. -/
theorem and_describes (hr : r.Proper w.view) (hy : o.Abstracts w.view Y)
    (hany : ∀ v ∈ (Operation.bitwise .and).results stops w.view w.view w.view r.toSet Y,
      w.view.contains v = true) :
    (bitwiseRange .and w r o).delivery.Describes w
      ((Operation.bitwise .and).results stops w.view w.view w.view r.toSet Y) := by
  have hb1 := hr.bounds
  have hb2 := hy.proper.bounds
  have hmin := w.view.minValue_nonpos
  simp only [bitwiseRange]
  split
  · next hc =>
    exact bitwise_fixes_describes hr (hy.constant 0 hc) w.view.contains_zero
      fun a _ => w.view.ofPattern_and_zero a
  split
  · next hc =>
    exact bitwise_keeps_describes hr (hy.constant _ hc)
      fun a ha => IntType.ofPattern_and_allOnes (hr.contains ha)
  split
  · next hn =>
    simp only [Bool.and_eq_true, decide_eq_true_eq] at hn
    refine bitwise_within_describes hr hy hmin (by omega) fun a ha hca b hb hcb => ?_
    have h1 := IntType.ofPattern_and_mem hca (hn.1.trans ha.1) b
    have h2 := IntType.ofPattern_and_mem hcb (hn.2.trans hb.1) a
    rw [Nat.and_comm] at h2
    exact ⟨h1.1, le_min (h1.2.trans ha.2) (h2.2.trans hb.2)⟩
  split
  · next hn =>
    refine bitwise_within_describes hr hy hmin (by omega) fun a ha hca b _ _ => ?_
    have h1 := IntType.ofPattern_and_mem hca ((of_decide_eq_true hn).trans ha.1) b
    exact ⟨h1.1, h1.2.trans ha.2⟩
  split
  · next hn =>
    refine bitwise_within_describes hr hy hmin (by omega) fun a _ _ b hb hcb => ?_
    have h2 := IntType.ofPattern_and_mem hcb ((of_decide_eq_true hn).trans hb.1) a
    rw [Nat.and_comm] at h2
    exact ⟨h2.1, h2.2.trans hb.2⟩
  · exact anyWord_describes hany

/-- A natural number is below the power of two of its bit length. -/
private theorem lt_two_pow_bitLength {n : ℕ} {v : ℤ} (h : (n : ℤ) ≤ v) : n < 2 ^ bitLength v := by
  rw [bitLength]
  split
  · omega
  · have : v.natAbs < 2 ^ (v.natAbs.log2 + 1) := Nat.lt_log2_self
    omega

/-- The numbers below the bit length of a natural value of a type are values of it. -/
private theorem pow2_bitLength_le {t : IntType} {v : ℤ} (h0 : 0 ≤ v) (h : v ≤ t.maxValue) :
    pow2 (bitLength v) - 1 ≤ t.maxValue := by
  obtain ⟨k, hk⟩ : ∃ k : ℕ, t.maxValue = 2 ^ k - 1 := by
    rcases t.layout with ⟨-, -, hmax⟩ | ⟨-, -, hmax⟩
    · exact ⟨t.width - 1, by rw [hmax, IntType.half, pow2_eq]⟩
    · exact ⟨t.width, by rw [hmax, ← t.modulus_eq_two_mul, IntType.modulus, pow2_eq]⟩
  rw [hk, ← pow2_eq]
  have hlt : v < pow2 k := by
    rw [pow2_eq]
    omega
  have hmono : pow2 (bitLength v) ≤ pow2 k := by
    refine pow2_mono ?_
    rw [bitLength]
    split
    · omega
    · next hv =>
      have : v.natAbs < 2 ^ k := by
        rw [pow2_cast] at hlt
        omega
      exact (Nat.log2_lt (by omega)).mpr this
  omega

/-- Two natural operands stay below the span of their bit lengths. -/
private theorem span_bounds (c : Bitwise) {a b : ℤ} (hr : r.Proper w.view)
    (hy : o.Abstracts w.view Y) (h0 : 0 ≤ r.lo) (h0' : 0 ≤ o.range.lo) (ha : a ∈ r)
    (hb : b ∈ o.range)
    (hc : ∀ n p q : ℕ, p < 2 ^ n → q < 2 ^ n → c.combine p q < 2 ^ n) :
    (c.combine (w.view.pattern a) (w.view.pattern b) : ℤ) ≤
        lowMask (max (bitLength r.hi) (bitLength o.range.hi)) ∧
      lowMask (max (bitLength r.hi) (bitLength o.range.hi)) ≤ w.view.maxValue := by
  have hb1 := hr.bounds
  have hb2 := hy.proper.bounds
  have hpa := IntType.pattern_of_nonneg (hr.contains ha) (h0.trans ha.1)
  have hpb := IntType.pattern_of_nonneg (hy.proper.contains hb) (h0'.trans hb.1)
  have h1 : w.view.pattern a < 2 ^ bitLength r.hi := lt_two_pow_bitLength (hpa.trans_le ha.2)
  have h2 : w.view.pattern b < 2 ^ bitLength o.range.hi := lt_two_pow_bitLength (hpb.trans_le hb.2)
  have hlt := hc (max (bitLength r.hi) (bitLength o.range.hi)) _ _
    (lt_of_lt_of_le h1 (Nat.pow_le_pow_right (by norm_num) (le_max_left _ _)))
    (lt_of_lt_of_le h2 (Nat.pow_le_pow_right (by norm_num) (le_max_right _ _)))
  have h3 := pow2_bitLength_le (t := w.view) (by omega : 0 ≤ r.hi) hb1.2.2
  have h4 := pow2_bitLength_le (t := w.view) (by omega : 0 ≤ o.range.hi) hb2.2.2
  rw [lowMask]
  constructor
  · rw [pow2_cast]
    omega
  · rcases max_choice (bitLength r.hi) (bitLength o.range.hi) with h | h <;> rw [h] <;> assumption

/-- Exclusive disjunctions of natural numbers stay below the span of the bit lengths. -/
theorem xor_describes (hr : r.Proper w.view) (hy : o.Abstracts w.view Y)
    (hany : ∀ v ∈ (Operation.bitwise .xor).results stops w.view w.view w.view r.toSet Y,
      w.view.contains v = true) :
    (bitwiseRange .xor w r o).delivery.Describes w
      ((Operation.bitwise .xor).results stops w.view w.view w.view r.toSet Y) := by
  simp only [bitwiseRange]
  split
  · next hn =>
    simp only [Bool.and_eq_true, decide_eq_true_eq] at hn
    have hspan := fun (a : ℤ) (ha : a ∈ r) (b : ℤ) (hb : b ∈ o.range) =>
      span_bounds .xor hr hy hn.1 hn.2 ha hb fun n p q hp hq => Nat.xor_lt_two_pow hp hq
    refine bitwise_within_describes hr hy w.view.minValue_nonpos
      (hspan _ hr.lo_mem_self _ hy.proper.lo_mem_self).2 fun a ha _ b hb _ => ?_
    have h := hspan a ha b hb
    rw [IntType.ofPattern_of_le (h.1.trans h.2)]
    exact ⟨Int.natCast_nonneg _, h.1⟩
  · exact anyWord_describes hany

/-- Disjunctions of a range: natural operands and negative ones bound them from below. -/
theorem or_describes (hr : r.Proper w.view) (hy : o.Abstracts w.view Y)
    (hany : ∀ v ∈ (Operation.bitwise .or).results stops w.view w.view w.view r.toSet Y,
      w.view.contains v = true) :
    (bitwiseRange .or w r o).delivery.Describes w
      ((Operation.bitwise .or).results stops w.view w.view w.view r.toSet Y) := by
  have hb1 := hr.bounds
  have hb2 := hy.proper.bounds
  have hmax := w.view.maxValue_nonneg
  simp only [bitwiseRange]
  split
  · next hc =>
    exact bitwise_keeps_describes hr (hy.constant 0 hc)
      fun a ha => IntType.ofPattern_or_zero (hr.contains ha)
  split
  · next hc =>
    exact bitwise_fixes_describes hr (hy.constant _ hc) w.view.contains_allOnes
      fun a _ => w.view.ofPattern_or_allOnes a
  split
  · next hn =>
    simp only [Bool.and_eq_true, decide_eq_true_eq] at hn
    have hspan := fun (a : ℤ) (ha : a ∈ r) (b : ℤ) (hb : b ∈ o.range) =>
      span_bounds .or hr hy hn.1 hn.2 ha hb fun n p q hp hq => Nat.or_lt_two_pow hp hq
    refine bitwise_within_describes hr hy (by omega)
      (hspan _ hr.lo_mem_self _ hy.proper.lo_mem_self).2 fun a ha hca b hb hcb => ?_
    have h := hspan a ha b hb
    have hpa := IntType.pattern_of_nonneg hca (hn.1.trans ha.1)
    have hpb := IntType.pattern_of_nonneg hcb (hn.2.trans hb.1)
    have h1 : w.view.pattern a ≤ w.view.pattern a ||| w.view.pattern b := Nat.left_le_or
    have h2 : w.view.pattern b ≤ w.view.pattern a ||| w.view.pattern b := Nat.right_le_or
    rw [IntType.ofPattern_of_le (h.1.trans h.2)]
    refine ⟨max_le (ha.1.trans ?_) (hb.1.trans ?_), h.1⟩ <;> rw [Bitwise.combine_or] <;> omega
  split
  · next hn =>
    refine bitwise_within_describes hr hy (by omega) (by omega) fun a ha hca b hb hcb => ?_
    have h1 := IntType.ofPattern_or_mem hca (ha.2.trans_lt hn.1) b
    have h2 := IntType.ofPattern_or_mem hcb (hb.2.trans_lt hn.2) a
    rw [Nat.or_comm] at h2
    exact ⟨max_le (ha.1.trans h1.1) (hb.1.trans h2.1), h1.2⟩
  split
  · next hn =>
    refine bitwise_within_describes hr hy (by omega) (by omega) fun a ha hca b _ _ => ?_
    have h1 := IntType.ofPattern_or_mem hca (ha.2.trans_lt hn) b
    exact ⟨ha.1.trans h1.1, h1.2⟩
  split
  · next hn =>
    refine bitwise_within_describes hr hy (by omega) (by omega) fun a _ _ b hb hcb => ?_
    have h2 := IntType.ofPattern_or_mem hcb (hb.2.trans_lt hn) a
    rw [Nat.or_comm] at h2
    exact ⟨hb.1.trans h2.1, h2.2⟩
  · exact anyWord_describes hany

/-! ### Shifts -/

/-- A shift to the left by a valid amount multiplies and wraps around. -/
theorem mem_values_shift_left {t u out : IntType} {a b v : ℤ} (hb : 0 ≤ b ∧ b < t.width) :
    v ∈ ((Operation.shift .left).execute stops t u out a b).values out ↔
      v = t.wrap (a * pow2 b.toNat) := by
  rw [Operation.execute, if_pos hb, mem_values_value, IntType.read_shiftLeft]

/-- A shift to the right by a valid amount divides and rounds down. -/
theorem mem_values_shift_right {t u out : IntType} {a b v : ℤ} (ha : t.contains a = true)
    (hb : 0 ≤ b ∧ b < t.width) :
    v ∈ ((Operation.shift .right).execute stops t u out a b).values out ↔
      v = a / pow2 b.toNat := by
  rw [Operation.execute, if_pos hb, mem_values_value, IntType.read_shiftRight ha]

/-- A shift by an invalid amount fails. -/
theorem mem_values_shift_invalid {d : Direction} {t u out : IntType} {a b v : ℤ}
    (hb : ¬(0 ≤ b ∧ b < t.width)) :
    v ∈ ((Operation.shift d).execute stops t u out a b).values out ↔
      stops = false ∧ out.contains v = true := by
  cases d <;> rw [Operation.execute, if_neg hb, mem_values_failed]

/-- The corners of the shifts of a range to the right. -/
theorem shift_right_corners {least most : ℕ} {k : ℕ} {a : ℤ} (ha : a ∈ r)
    (h1 : least ≤ k) (h2 : k ≤ most) {s : Range}
    (hs : Bounds.span? [floorDiv r.lo (pow2 least), floorDiv r.hi (pow2 least),
      floorDiv r.lo (pow2 most), floorDiv r.hi (pow2 most)] = some s) : a / pow2 k ∈ s := by
  have hmem := fun c hc => Bounds.le_of_span?_eq_some hs (u := c) hc
  simp only [floorDiv_eq_ediv (pow2_pos _), List.mem_cons, List.not_mem_nil, or_false,
    forall_eq_or_imp, forall_eq, Bounds.mem_def] at hmem
  have hk := ediv_between (a := a) (pow2_pos least) (pow2_mono h1) (pow2_mono h2)
  have h3 := Int.ediv_le_ediv (pow2_pos least) ha.1
  have h4 := Int.ediv_le_ediv (pow2_pos least) ha.2
  have h5 := Int.ediv_le_ediv (pow2_pos most) ha.1
  have h6 := Int.ediv_le_ediv (pow2_pos most) ha.2
  rw [Bounds.mem_def]
  omega

/-- The corners of a shift to the right enclose all its results, also if amounts are missing in the
second operand. -/
theorem shift_right_covers {u : IntType} {q : Range} (hr : r.Proper w.view)
    (hq : ∀ b ∈ Y, b ∈ q)
    (hany : ∀ v ∈ (Operation.shift .right).results stops w.view u w.view r.toSet Y,
      w.view.contains v = true) :
    (shiftRange stops .right w r q).delivery.Covers w
      ((Operation.shift .right).results stops w.view u w.view r.toSet Y) := by
  have hwidth := w.view.one_le_width
  -- a valid amount of the second operand lies between the least and the largest one
  have hvalid : ¬((decide (q.lo < 0) || decide ((w.view.width : ℤ) ≤ q.hi)) && !stops) = true →
      ∀ v ∈ (Operation.shift .right).results stops w.view u w.view r.toSet Y,
      ∃ a ∈ r, ∃ b : ℤ, max q.lo 0 ≤ b ∧ b ≤ min q.hi (w.view.width - 1) ∧
        v = a / pow2 b.toNat := by
    rintro hs v ⟨a, ha, b, hb, hv⟩
    have hb := hq b hb
    by_cases hk : 0 ≤ b ∧ b < w.view.width
    · rw [mem_values_shift_right (hr.contains ha) hk] at hv
      exact ⟨a, ha, b, max_le hb.1 hk.1, le_min hb.2 (by omega), hv⟩
    · rw [mem_values_shift_invalid hk] at hv
      rw [hv.1] at hs
      simp only [Bool.not_false, Bool.and_true, Bool.or_eq_true, decide_eq_true_eq] at hs
      have := hb.1
      have := hb.2
      omega
  simp only [shiftRange]
  split
  · exact (anyWord_describes hany).covers
  next hs =>
  split
  · next hempty =>
    refine (nothing_describes fun v hv => ?_).covers
    obtain ⟨a, -, b, h1, h2, -⟩ := hvalid hs v hv
    omega
  next hle =>
  rw [delivery_withErrors]
  split
  · next s hspan =>
    refine ⟨rfl, fun hle => ?_, fun v hv => ?_⟩
    · have hin : ∀ (a : ℤ), w.view.contains a = true → ∀ k : ℕ,
          w.view.contains (floorDiv a (pow2 k)) = true := fun a ha k => by
        rw [floorDiv_eq_ediv (pow2_pos k), ← IntType.read_shiftRight ha]
        exact IntType.contains_read _ _
      obtain ⟨hlo, hhi⟩ := Bounds.ends_mem_of_span?_eq_some hspan
      have hends : ∀ c ∈ [floorDiv r.lo (pow2 (max q.lo 0).toNat),
          floorDiv r.hi (pow2 (max q.lo 0).toNat),
          floorDiv r.lo (pow2 (min q.hi (w.view.width - 1)).toNat),
          floorDiv r.hi (pow2 (min q.hi (w.view.width - 1)).toNat)],
          w.view.contains c = true := by
        simp only [List.mem_cons, List.not_mem_nil, or_false, forall_eq_or_imp, forall_eq]
        exact ⟨hin _ hr.lo_mem _, hin _ hr.hi_mem _, hin _ hr.lo_mem _, hin _ hr.hi_mem _⟩
      exact ⟨hle, hends _ hlo, hends _ hhi⟩
    · obtain ⟨a, ha, b, h1, h2, rfl⟩ := hvalid hs v hv
      exact shift_right_corners ha (Int.toNat_le_toNat h1) (Int.toNat_le_toNat h2) hspan
  · next hn => simp [Bounds.span?, Bounds.hull?] at hn

/-- A shift to the right is called exact when one amount is left. That amount is a value of the
second operand, unless it is the gap between a negative value and a positive one. -/
theorem shift_right_tight {u : IntType} (hr : r.Proper w.view) (hy : o.Abstracts u Y)
    (hgap : stops = true → w.view.width = 1 → o.range.lo < 0 → 0 < o.range.hi → 0 ∈ Y) :
    (shiftRange stops .right w r o.range).delivery.IsTight
      ((Operation.shift .right).results stops w.view u w.view r.toSet Y) := by
  have hwidth := w.view.one_le_width
  have hqle := hy.proper.le
  simp only [shiftRange]
  split
  · exact fun h => absurd h Bool.false_ne_true
  next hs =>
  split
  · trivial
  next hle =>
  rw [delivery_withErrors]
  split
  · next s hspan =>
    intro hone v hv
    rw [beq_iff_eq] at hone
    have hb : max o.range.lo 0 ∈ Y := by
      rcases lt_or_ge o.range.lo 0 with hneg | hpos
      · rw [max_eq_right hneg.le] at hone ⊢
        rcases eq_or_lt_of_le (show 0 ≤ o.range.hi by omega) with h0 | h0
        · exact h0 ▸ hy.hi_mem
        · refine hgap ?_ (by omega) hneg h0
          simpa [hneg] using hs
      · rw [max_eq_left hpos]
        exact hy.lo_mem
    rw [← hone] at hspan
    have hvalid : 0 ≤ max o.range.lo 0 ∧ max o.range.lo 0 < w.view.width := by omega
    generalize max o.range.lo 0 = k at hb hvalid hspan
    -- the corners are the quotients of the two ends
    have hends := Bounds.ends_mem_of_span?_eq_some hspan
    simp only [floorDiv_eq_ediv (pow2_pos _), List.mem_cons, List.not_mem_nil, or_false] at hends
    have hmono := Int.ediv_le_ediv (pow2_pos k.toNat) hr.le
    obtain ⟨a, ha1, ha2, hav⟩ := (ediv_mem_iff (n := v) hr.le (pow2_pos k.toNat)).mpr
      (by have := hv.1; have := hv.2; omega)
    have ha : a ∈ r := ⟨ha1, ha2⟩
    exact ⟨a, ha, k, hb, (mem_values_shift_right (hr.contains ha) hvalid).mpr hav.symm⟩
  · trivial

/-- A shift to the left is the hull of the images under the valid amounts, or any value if one of
them leaves the type. -/
theorem shift_left_describes {u : IntType} (hr : r.Proper w.view) (hy : o.Abstracts u Y)
    (hany : ∀ v ∈ (Operation.shift .left).results stops w.view u w.view r.toSet Y,
      w.view.contains v = true) :
    (shiftRange stops .left w r o.range).delivery.Describes w
      ((Operation.shift .left).results stops w.view u w.view r.toSet Y) := by
  simp only [shiftRange]
  split
  · exact anyWord_describes hany
  next hs =>
  have hvalid : ∀ v ∈ (Operation.shift .left).results stops w.view u w.view r.toSet Y,
      ∃ a ∈ r, ∃ b : ℤ, 0 ≤ b ∧ max o.range.lo 0 ≤ b ∧ b ≤ min o.range.hi (w.view.width - 1) ∧
        v = w.view.wrap (a * pow2 b.toNat) := by
    rintro v ⟨a, ha, b, hb, hv⟩
    have hb := hy.mem b hb
    by_cases hk : 0 ≤ b ∧ b < w.view.width
    · rw [mem_values_shift_left hk] at hv
      exact ⟨a, ha, b, hk.1, max_le hb.1 hk.1, le_min hb.2 (by omega), hv⟩
    · rw [mem_values_shift_invalid hk] at hv
      rw [hv.1] at hs
      simp only [Bool.not_false, Bool.and_true, Bool.or_eq_true, decide_eq_true_eq] at hs
      have := hb.1
      have := hb.2
      omega
  split
  · next hempty =>
    refine nothing_describes fun v hv => ?_
    obtain ⟨a, -, b, -, h1, h2, -⟩ := hvalid v hv
    omega
  next hle =>
  rw [delivery_withErrors]
  split
  · next hall =>
    have himage : ∀ k ∈ Bounds.values ⟨max o.range.lo 0, min o.range.hi (w.view.width - 1)⟩
        w.view.width, w.view.contains (r.lo * pow2 k.toNat) = true ∧
          w.view.contains (r.hi * pow2 k.toNat) = true := by
      simpa only [List.all_eq_true, List.mem_map, Bool.and_eq_true, forall_exists_index, and_imp,
        forall_apply_eq_imp_iff₂] using hall
    refine ⟨hullStep_covers ?_ ?_, hullStep_tight (by simp) (by simp)⟩
    · intro i hi
      obtain ⟨k, hk, rfl⟩ := List.mem_map.mp hi
      exact ⟨mul_le_mul_of_nonneg_right hr.le (pow2_pos _).le, (himage k hk).1, (himage k hk).2⟩
    · intro v hv
      obtain ⟨a, ha, b, h0, h1, h2, rfl⟩ := hvalid v hv
      have hb : b ∈ Bounds.values ⟨max o.range.lo 0, min o.range.hi (w.view.width - 1)⟩
          w.view.width := Bounds.mem_values.mpr ⟨⟨h1, h2⟩, by simp only; omega⟩
      refine ⟨_, List.mem_map_of_mem hb, ?_⟩
      have hlo := mul_le_mul_of_nonneg_right ha.1 (pow2_pos b.toNat).le
      have hhi := mul_le_mul_of_nonneg_right ha.2 (pow2_pos b.toNat).le
      rw [IntType.wrap_eq_self
        (IntType.contains_of_between (himage b hb).1 (himage b hb).2 hlo hhi)]
      exact ⟨hlo, hhi⟩
  · exact anyWord_describes hany

/-! ### Rotations -/

/-- Only a rotation by nothing is told; all others may give any value. -/
theorem rotate_describes {d : Direction} {u : IntType} (hr : r.Proper w.view)
    (hy : o.Abstracts u Y)
    (hany : ∀ v ∈ (Operation.rotate d).results stops w.view u w.view r.toSet Y,
      w.view.contains v = true) :
    (rotateRange w r o).delivery.Describes w
      ((Operation.rotate d).results stops w.view u w.view r.toSet Y) := by
  rw [rotateRange]
  split
  · next c hc =>
    split
    · next h0 =>
      have hY := hy.constant c hc
      -- a rotation by nothing keeps the value
      have hkeep : ∀ a ∈ r, ∀ v,
          v ∈ ((Operation.rotate d).execute stops w.view u w.view a c).values w.view ↔ v = a := by
        intro a ha v
        have hz : (c % (w.view.width : ℤ)).toNat = 0 := h0
        have hpos : 0 < w.view.width := w.view.one_le_width
        cases d with
        | left =>
          rw [Operation.execute, mem_values_value, hz,
            IntType.read_rotateLeft (hr.contains ha) hpos, IntType.rotateLeft, if_pos rfl]
        | right =>
          rw [Operation.execute, mem_values_value, hz,
            IntType.read_rotateRight (hr.contains ha) hpos, Nat.sub_zero, Nat.mod_self,
            IntType.rotateLeft, if_pos rfl]
      refine words_describes (fun _ => hr) ?_ fun _ v hv => ?_
      · rintro v ⟨a, ha, b, hb, hv⟩
        rw [(hY b).mp hb, hkeep a ha] at hv
        exact hv ▸ ha
      · exact ⟨v, hv, c, (hY c).mpr rfl, (hkeep v hv v).mpr rfl⟩
    · exact anyWord_describes hany
  · exact anyWord_describes hany

end Step

end ScalarDomain
