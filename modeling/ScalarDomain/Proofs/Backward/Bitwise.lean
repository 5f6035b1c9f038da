import ScalarDomain.Proofs.Backward.Narrowing
import ScalarDomain.Proofs.Forward.Bitwise
import ScalarDomain.Proofs.Range.Tiling
import ScalarDomain.Backward.Bitwise

/-!
# Operands of bitwise operations

A complement and a rotation by a known amount are undone. A connective with one known operand and a
known result fixes some bits of the other operand and leaves the others free; it is exact when no
bit is free. A shift is undone when one amount is left.
-/

namespace ScalarDomain

/-- A rotation to the left is undone by one to the right. -/
theorem rotateRight_rotateLeft {n : ℕ} (b : BitVec n) {k : ℕ} (hk : k < n) :
    (b.rotateLeft k).rotateRight k = b := by
  refine BitVec.eq_of_getLsbD_eq fun i hi => ?_
  rw [BitVec.getLsbD_rotateRight_of_lt hk, cond_eq_ite]
  split
  · next h =>
    have h : i < n - k := of_decide_eq_true h
    rw [BitVec.getLsbD_rotateLeft_of_le hk]
    simp [show k + i < n by omega]
  · next h =>
    have h : ¬i < n - k := fun h' => h (decide_eq_true h')
    rw [BitVec.getLsbD_rotateLeft_of_le hk]
    simp [hi, show i - (n - k) < k by omega, show n - k + (i - (n - k)) = i by omega]

theorem rotateLeft_rotateRight {n : ℕ} (b : BitVec n) {k : ℕ} (hk : k < n) :
    (b.rotateRight k).rotateLeft k = b := by
  refine BitVec.eq_of_getLsbD_eq fun i hi => ?_
  rw [BitVec.getLsbD_rotateLeft_of_le hk, cond_eq_ite]
  split
  · next h =>
    have h : i < k := of_decide_eq_true h
    rw [BitVec.getLsbD_rotateRight_of_lt hk]
    simp [show n - k + i < n by omega]
  · next h =>
    have h : ¬i < k := fun h' => h (decide_eq_true h')
    rw [BitVec.getLsbD_rotateRight_of_lt hk]
    simp [hi, show i - k < n - k by omega, show k + (i - k) = i by omega]

namespace Narrowing

variable {stops c : Bool} {t u : IntType} {x y z : Range} {Y : Set ℤ}

/-! ### Complements -/

/-- The pieces of a range of patterns as ranges of values, which make up the range. -/
private theorem exists_values_of_bitRanges (hz : z.Proper t) :
    ∃ qs : List Range,
      (t.bitRanges z).map (fun p => (⟨t.ofBits p.lo, t.ofBits p.hi⟩ : Range)) = qs ∧
      (∀ q ∈ qs, q.Proper t) ∧ ∀ v, (∃ q ∈ qs, v ∈ q) ↔ v ∈ z := by
  refine ⟨_, (IntType.flatMap_valueRanges_bitRanges hz).symm, fun q hq => ?_,
    (IntType.tiles_values_of_bitRanges hz).mem_iff⟩
  obtain ⟨p, hp, hq⟩ := List.mem_flatMap.mp hq
  obtain ⟨h0, hle, h1⟩ := IntType.bitRanges_bounds hz hp
  exact IntType.proper_of_mem_valueRanges h0 hle h1 hq

/-- A complement is its own inverse. -/
theorem bitNegate_inverts (hx : x.Proper t) (hz : z.Proper t) :
    (bitNegate ⟨⟨t, x⟩, none, ⟨t, z⟩, c⟩).Inverts
      (Operation.bitNegate.Reaches stops t u t z.toSet) x.toSet Y := by
  have hR : ∀ a ∈ x, ∀ b, Operation.bitNegate.Reaches stops t u t z.toSet a b ↔
      t.minValue + t.maxValue - a ∈ z := by
    intro a ha b
    have hexec : ∀ v, v ∈ (Operation.bitNegate.execute stops t u t a b).values t ↔
        v = t.minValue + t.maxValue - a := by
      intro v
      rw [Operation.execute, Outcome.mem_values_value, IntType.read_not,
        IntType.complement_eq (hx.contains ha)]
    constructor
    · rintro ⟨v, hv, h⟩
      exact (hexec v).mp h ▸ hv
    · intro h
      exact ⟨_, h, (hexec _).mpr rfl⟩
  obtain ⟨qs, hqs, hproper, hmem⟩ := exists_values_of_bitRanges hz
  have hpieces : (t.bitRanges z).map (fun p =>
      (⟨t.complement (t.ofBits p.hi), t.complement (t.ofBits p.lo)⟩ : Range)) =
        qs.map fun q => ⟨t.complement q.hi, t.complement q.lo⟩ := by
    rw [← hqs, List.map_map]
    rfl
  -- a piece is the mirror image of a range of values
  have hpiece : ∀ q ∈ qs, ∀ a, a ∈ (⟨t.complement q.hi, t.complement q.lo⟩ : Range) ↔
      t.minValue + t.maxValue - a ∈ q := by
    intro q hq a
    rw [IntType.complement_eq (hproper q hq).lo_mem, IntType.complement_eq (hproper q hq).hi_mem,
      Bounds.mem_mk, Bounds.mem_def]
    omega
  rw [bitNegate]
  simp only [hpieces]
  refine ⟨keeps_ofPieces fun a ha b _ h => ?_, isTight_ofPieces fun _ p hp a ha hap b _ => ?_⟩
  · obtain ⟨q, hq, haq⟩ := (hmem _).mpr ((hR a ha b).mp h)
    exact ⟨_, List.mem_map_of_mem hq, (hpiece q hq a).mpr haq⟩
  · obtain ⟨q, hq, rfl⟩ := List.mem_map.mp hp
    exact (hR a ha b).mpr ((hmem _).mp ⟨q, hq, (hpiece q hq a).mp hap⟩)

/-! ### Rotations -/

/-- A bit vector rotated in a direction. -/
private def rotated {n : ℕ} : Direction → BitVec n → ℕ → BitVec n
  | .left => BitVec.rotateLeft
  | .right => BitVec.rotateRight

/-- The places by which the solver rotates back to the left. -/
private def back (width k : ℕ) : Direction → ℕ
  | .left => width - k
  | .right => k

private theorem mem_values_rotate {d : Direction} {o : IntType} {a b v : ℤ} :
    v ∈ ((Operation.rotate d).execute stops t u o a b).values o ↔
      v = t.read (rotated d (t.bits a) (rotateAmount b t.width)) := by
  cases d <;> rfl

/-- A rotation by some places is undone. -/
private theorem read_rotated_eq_iff (d : Direction) {k : ℕ} {a r : ℤ} (ha : t.contains a = true)
    (hr : t.contains r = true) (h0 : 0 < k) (hk : k < t.width) :
    t.read (rotated d (t.bits a) k) = r ↔ a = t.rotateLeft r (back t.width k d) := by
  cases d with
  | left =>
    have hback := IntType.read_rotateRight hr hk
    rw [Nat.mod_eq_of_lt (by omega)] at hback
    rw [rotated, back, ← hback]
    constructor
    · rintro rfl
      rw [IntType.bits_read, rotateRight_rotateLeft _ hk, IntType.read_bits ha]
    · rintro rfl
      rw [IntType.bits_read, rotateLeft_rotateRight _ hk, IntType.read_bits hr]
  | right =>
    rw [rotated, back, ← IntType.read_rotateLeft hr hk]
    constructor
    · rintro rfl
      rw [IntType.bits_read, rotateLeft_rotateRight _ hk, IntType.read_bits ha]
    · rintro rfl
      rw [IntType.bits_read, rotateRight_rotateLeft _ hk, IntType.read_bits hr]

/-- A rotation by no place keeps the value. -/
private theorem read_rotated_zero (d : Direction) {a : ℤ} (ha : t.contains a = true) :
    t.read (rotated d (t.bits a) 0) = a := by
  have hw := t.one_le_width
  cases d with
  | left => rw [rotated, IntType.read_rotateLeft ha (by omega), IntType.rotateLeft, if_pos rfl]
  | right =>
    rw [rotated, IntType.read_rotateRight ha (by omega), Nat.sub_zero, Nat.mod_self,
      IntType.rotateLeft, if_pos rfl]

/-- Rotations are undone by rotations the other way. -/
theorem rotate_inverts (d : Direction) (hx : x.Proper t) (hz : z.Proper t) :
    (rotate d ⟨⟨t, x⟩, some ⟨u, y⟩, ⟨t, z⟩, c⟩).Inverts
      ((Operation.rotate d).Reaches stops t u t z.toSet) x.toSet y.toSet := by
  have hw := t.one_le_width
  have hR : ∀ a b, (Operation.rotate d).Reaches stops t u t z.toSet a b ↔
      t.read (rotated d (t.bits a) (rotateAmount b t.width)) ∈ z := by
    intro a b
    constructor
    · rintro ⟨v, hv, h⟩
      exact mem_values_rotate.mp h ▸ hv
    · intro h
      exact ⟨_, h, mem_values_rotate.mpr rfl⟩
  rw [rotate]
  simp only [Frame.second, Option.getD_some]
  cases hv : (⟨u, y⟩ : Span).value? with
  | none => exact ⟨keeps_unknown, isTight_of_not_exact⟩
  | some amount =>
    have hb : ∀ b ∈ y, b = amount := fun b hb => Span.eq_of_value?_eq_some hv hb
    have hlt : rotateAmount amount t.width < t.width := by
      have := Int.emod_lt_of_pos amount (show (0 : ℤ) < t.width by omega)
      rw [rotateAmount]
      omega
    rw [Option.map_some]
    cases hk : rotateAmount amount t.width with
    | zero =>
      -- every operand is its own result
      have hkeep : ∀ a ∈ x, ∀ b ∈ y,
          ((Operation.rotate d).Reaches stops t u t z.toSet a b ↔ a ∈ z) := by
        intro a ha b hb'
        rw [hR, hb b hb', hk, read_rotated_zero d (hx.contains ha)]
      exact ⟨keeps_first fun a ha b hb h => (hkeep a ha b hb).mp h,
        isTight_first fun _ a ha har b hb => (hkeep a ha b hb).mpr har⟩
    | succ n =>
      cases hr : (⟨t, z⟩ : Span).value? with
      | none => exact ⟨keeps_unknown, isTight_of_not_exact⟩
      | some r =>
        obtain ⟨hlo, hhi⟩ : z.lo = r ∧ z.hi = r := Span.value?_eq_some.mp hr
        have hrt : t.contains r = true := hlo ▸ hz.lo_mem
        have hundo : ∀ a ∈ x, ∀ b ∈ y, ((Operation.rotate d).Reaches stops t u t z.toSet a b ↔
            a = t.rotateLeft r (back t.width (n + 1) d)) := by
          intro a ha b hb'
          rw [hR, hb b hb', hk, Bounds.mem_def, hlo, hhi, ← le_antisymm_iff, eq_comm,
            read_rotated_eq_iff d (hx.contains ha) hrt n.succ_pos (by omega)]
        have hfirst : (first (.point (t.rotateLeft r (back t.width (n + 1) d))) true).Inverts
            ((Operation.rotate d).Reaches stops t u t z.toSet) x.toSet y.toSet :=
          ⟨keeps_first fun a ha b hb h => Bounds.mem_point.mpr ((hundo a ha b hb).mp h),
            isTight_first fun _ a ha har b hb => (hundo a ha b hb).mpr (Bounds.mem_point.mp har)⟩
        cases d <;> exact hfirst

/-! ### Connectives -/

section

variable {bw : Bitwise} {n k r p : ℕ}

/-- Flipping the bits of a pattern, bit by bit. -/
private theorem testBit_flip (n m i : ℕ) :
    ((twoPow n - 1) ^^^ m).testBit i = ((decide (i < n)).xor (m.testBit i)) := by
  rw [Nat.testBit_xor, twoPow_eq, Nat.testBit_two_pow_sub_one]

private theorem flip_lt (hk : k < 2 ^ n) : (twoPow n - 1) ^^^ k < 2 ^ n := by
  rw [twoPow_eq, two_pow_sub_one_xor hk]
  have := Nat.two_pow_pos n
  omega

/-- A pattern below another one bit by bit is smaller. -/
private theorem le_of_testBit {m m' : ℕ} (h : ∀ i, m.testBit i = true → m'.testBit i = true) :
    m ≤ m' := by
  have hand : m &&& m' = m := by
    refine Nat.eq_of_testBit_eq fun i => ?_
    rw [Nat.testBit_and]
    cases hm : m.testBit i with
    | false => rfl
    | true => rw [h i hm, Bool.and_true]
  exact hand ▸ Nat.and_le_right

private theorem lt_of_testBit_eq_true {i : ℕ} (hp : p < 2 ^ n) (h : p.testBit i = true) :
    i < n := by
  by_contra hge
  rw [Nat.testBit_lt_two_pow (lt_of_lt_of_le hp (Nat.pow_le_pow_right two_pos (by omega)))] at h
  cases h

/-- Every solution lies between the least and the greatest one. -/
private theorem exists_solvePattern (hk : k < 2 ^ n) (hp : p < 2 ^ n) (h : bw.combine p k = r) :
    ∃ q ∈ solvePattern? bw n k r, q.1 ≤ p ∧ p ≤ q.2 := by
  subst h
  cases bw with
  | and =>
    have hzero : (p &&& k) &&& ((twoPow n - 1) ^^^ k) = 0 := by
      refine Nat.eq_of_testBit_eq fun i => ?_
      rw [Nat.testBit_and, Nat.testBit_and, testBit_flip, Nat.zero_testBit]
      cases hi : p.testBit i with
      | false => simp
      | true => simp [lt_of_testBit_eq_true hp hi]
    refine ⟨_, if_pos hzero, Nat.and_le_left, le_of_testBit fun i hi => ?_⟩
    rw [Nat.testBit_or, Bitwise.combine_and, Nat.testBit_and, testBit_flip, hi]
    cases k.testBit i <;> simp [lt_of_testBit_eq_true hp hi]
  | or =>
    have hzero : k &&& ((twoPow n - 1) ^^^ (p ||| k)) = 0 := by
      refine Nat.eq_of_testBit_eq fun i => ?_
      rw [Nat.testBit_and, testBit_flip, Nat.testBit_or, Nat.zero_testBit]
      cases hi : k.testBit i with
      | false => simp
      | true => simp [lt_of_testBit_eq_true hk hi]
    refine ⟨_, if_pos hzero, le_of_testBit fun i hi => ?_, Nat.left_le_or⟩
    rw [Nat.testBit_and, Bitwise.combine_or, Nat.testBit_or, testBit_flip] at hi
    cases hi' : k.testBit i with
    | false => simpa [hi'] using (Bool.and_eq_true_iff.mp hi).1
    | true => simp [hi', lt_of_testBit_eq_true hk hi'] at hi
  | xor =>
    refine ⟨_, rfl, ?_⟩
    rw [Bitwise.combine_xor, Nat.xor_comm p, ← Nat.xor_assoc, Nat.xor_self, Nat.zero_xor]
    exact ⟨le_rfl, le_rfl⟩

/-- The solutions of a pattern are patterns, and the least one is a solution. -/
private theorem solvePattern_spec {q : ℕ × ℕ} (hk : k < 2 ^ n) (hr : r < 2 ^ n)
    (h : solvePattern? bw n k r = some q) :
    q.1 ≤ q.2 ∧ q.2 < 2 ^ n ∧ bw.combine q.1 k = r := by
  cases bw with
  | and =>
    simp only [solvePattern?] at h
    split at h
    · next hzero =>
      cases h
      refine ⟨Nat.left_le_or, Nat.or_lt_two_pow hr (flip_lt hk), Nat.eq_of_testBit_eq fun i => ?_⟩
      have hbit := congrArg (fun m => m.testBit i) hzero
      simp only [Nat.testBit_and, testBit_flip, Nat.zero_testBit] at hbit
      rw [Bitwise.combine_and, Nat.testBit_and]
      cases hi : r.testBit i with
      | false => rfl
      | true =>
        rw [hi, Bool.true_and, decide_eq_true (lt_of_testBit_eq_true hr hi)] at hbit
        simpa using hbit
    · cases h
  | or =>
    simp only [solvePattern?] at h
    split at h
    · next hzero =>
      cases h
      refine ⟨Nat.and_le_left, hr, Nat.eq_of_testBit_eq fun i => ?_⟩
      have hbit := congrArg (fun m => m.testBit i) hzero
      simp only [Nat.testBit_and, testBit_flip, Nat.zero_testBit] at hbit
      rw [Bitwise.combine_or, Nat.testBit_or, Nat.testBit_and, testBit_flip]
      cases hi : k.testBit i with
      | false =>
        cases hi' : r.testBit i with
        | false => rfl
        | true => simp [lt_of_testBit_eq_true hr hi']
      | true =>
        rw [hi, Bool.true_and, decide_eq_true (lt_of_testBit_eq_true hk hi)] at hbit
        simpa using hbit
    · cases h
  | xor =>
    cases h
    refine ⟨le_rfl, Nat.xor_lt_two_pow hk hr, ?_⟩
    rw [Bitwise.combine_xor, Nat.xor_comm k, Nat.xor_assoc, Nat.xor_self, Nat.xor_zero]

end

/-- The solver of one operand against a constant. -/
private theorem solveConstant_inverts {bw : Bitwise} {b r : ℤ} {R : ℤ → ℤ → Prop} (hx : x.Proper t)
    (hR : ∀ a ∈ x, ∀ b' ∈ Y, R a b' ↔ bw.combine (t.pattern a) (t.pattern b) = t.pattern r) :
    (solveConstant bw ⟨t, x⟩ b r).Inverts R x.toSet Y := by
  rw [solveConstant]
  split
  · next hn =>
    refine ⟨fun a ha b' hb' h => ?_, trivial⟩
    obtain ⟨q, hq, -⟩ := exists_solvePattern (t.pattern_lt b) (t.pattern_lt a)
      ((hR a ha b' hb').mp h)
    cases hn.symm.trans hq
  · next lo hi hq =>
    obtain ⟨hle, hlt, hsol⟩ := solvePattern_spec (t.pattern_lt b) (t.pattern_lt r) hq
    have hle' : (lo : ℤ) ≤ hi := by exact_mod_cast hle
    refine ⟨keeps_ofPieces fun a ha b' hb' h => ?_,
      isTight_ofPieces fun he p hp a ha hap b' hb' => ?_⟩
    · obtain ⟨q, hq', h1, h2⟩ := exists_solvePattern (t.pattern_lt b) (t.pattern_lt a)
        ((hR a ha b' hb').mp h)
      cases hq.symm.trans hq'
      refine (IntType.mem_valueRanges t hle').mpr ⟨t.pattern a, ?_, ?_⟩
      · exact ⟨Int.ofNat_le.mpr h1, Int.ofNat_le.mpr h2⟩
      · exact IntType.ofPattern_pattern (hx.contains ha)
    · -- a single pattern is that of the solution
      rw [beq_iff_eq] at he
      subst he
      obtain ⟨p', ⟨h1, h2⟩, hv⟩ := (IntType.mem_valueRanges t hle').mp ⟨p, hp, hap⟩
      have hp' : p' = lo := le_antisymm h2 h1
      subst hp'
      rw [hR a ha b' hb', ← hv]
      change bw.combine (t.pattern (t.ofPattern lo)) (t.pattern b) = t.pattern r
      rw [IntType.pattern_ofPattern hlt]
      exact hsol

private theorem combine_lt (bw : Bitwise) (t : IntType) (a b : ℤ) :
    bw.combine (t.pattern a) (t.pattern b) < 2 ^ t.width := by
  cases bw with
  | and => exact Nat.and_lt_two_pow _ (t.pattern_lt b)
  | or => exact Nat.or_lt_two_pow (t.pattern_lt a) (t.pattern_lt b)
  | xor => exact Nat.xor_lt_two_pow (t.pattern_lt a) (t.pattern_lt b)

/-- On natural numbers a result is the number of its pattern. -/
private theorem combine_cast_mem {bw : Bitwise} {a b : ℤ} (hz : z.Proper t) (h0 : 0 ≤ z.lo)
    (h : t.ofPattern (bw.combine (t.pattern a) (t.pattern b)) ∈ z) :
    (bw.combine (t.pattern a) (t.pattern b) : ℤ) ∈ z := by
  have hpat := IntType.pattern_of_nonneg (hz.contains h) (h0.trans h.1)
  rw [IntType.pattern_ofPattern (combine_lt bw t a b)] at hpat
  exact hpat ▸ h

private theorem combine_comm (bw : Bitwise) (m n : ℕ) : bw.combine m n = bw.combine n m := by
  cases bw with
  | and => exact Nat.and_comm m n
  | or => exact Nat.or_comm m n
  | xor => exact Nat.xor_comm m n

private theorem reaches_bitwise_iff {bw : Bitwise} {a b : ℤ} :
    (Operation.bitwise bw).Reaches stops t u t z.toSet a b ↔
      t.ofPattern (bw.combine (t.pattern a) (t.pattern b)) ∈ z := by
  constructor
  · rintro ⟨v, hv, h⟩
    exact Step.mem_values_bitwise.mp h ▸ hv
  · intro h
    exact ⟨_, h, Step.mem_values_bitwise.mpr rfl⟩

/-- A result that is known fixes the combined pattern. -/
private theorem reaches_bitwise_iff_of_value {bw : Bitwise} {r a b : ℤ} (hz : z.Proper t)
    (hr : (⟨t, z⟩ : Span).value? = some r) :
    (Operation.bitwise bw).Reaches stops t u t z.toSet a b ↔
      bw.combine (t.pattern a) (t.pattern b) = t.pattern r := by
  obtain ⟨hlo, hhi⟩ : z.lo = r ∧ z.hi = r := Span.value?_eq_some.mp hr
  have hrt : t.contains r = true := hlo ▸ hz.lo_mem
  rw [reaches_bitwise_iff, Bounds.mem_def, hlo, hhi]
  constructor
  · rintro ⟨h1, h2⟩
    rw [← le_antisymm h2 h1, IntType.pattern_ofPattern (combine_lt bw t a b)]
  · intro h
    rw [h, IntType.ofPattern_pattern hrt]
    exact ⟨le_rfl, le_rfl⟩

theorem bitwise_inverts (bw : Bitwise) (hx : x.Proper t) (hy : y.Proper t) (hz : z.Proper t) :
    (bitwise bw ⟨⟨t, x⟩, some ⟨t, y⟩, ⟨t, z⟩, c⟩).Inverts
      ((Operation.bitwise bw).Reaches stops t u t z.toSet) x.toSet y.toSet := by
  simp only [bitwise.eq_def, Frame.second, Option.getD_some]
  split
  · next r k hr hk =>
    refine solveConstant_inverts hx fun a ha b hb => ?_
    rw [reaches_bitwise_iff_of_value hz hr, Span.eq_of_value?_eq_some hk hb]
  · next r k hr hk hn =>
    have h : (solveConstant bw ⟨t, y⟩ k r).Inverts
        (flip ((Operation.bitwise bw).Reaches stops t u t z.toSet)) y.toSet x.toSet := by
      refine solveConstant_inverts hy fun b hb a ha => ?_
      rw [flip, reaches_bitwise_iff_of_value hz hr, Span.eq_of_value?_eq_some hk ha, combine_comm]
    exact ⟨h.keeps.swap, h.tight.swap⟩
  · by_cases hnat : ((⟨t, x⟩ : Span).isNatural && (⟨t, y⟩ : Span).isNatural &&
        (⟨t, z⟩ : Span).isNatural) = true
    · simp only [hnat, if_true]
      simp only [Bool.and_eq_true, Span.isNatural_iff] at hnat
      obtain ⟨⟨hx0, hy0⟩, hz0⟩ := hnat
      cases bw with
      | and =>
        refine ⟨keeps_both fun a ha b hb h => ?_, isTight_both fun h => absurd h Bool.false_ne_true⟩
        have hlo := (reaches_bitwise_iff.mp h).1
        have hla := IntType.ofPattern_and_mem (hx.contains ha) (hx0.trans ha.1) b
        have hlb := IntType.ofPattern_and_mem (hy.contains hb) (hy0.trans hb.1) a
        rw [Nat.and_comm] at hlb
        exact ⟨⟨hlo.trans hla.2, ha.2⟩, hlo.trans hlb.2, hb.2⟩
      | or =>
        refine ⟨keeps_both fun a ha b hb h => ?_, isTight_both fun h => absurd h Bool.false_ne_true⟩
        obtain ⟨-, hhi⟩ := combine_cast_mem hz hz0 (reaches_bitwise_iff.mp h)
        have hpa := IntType.pattern_of_nonneg (hx.contains ha) (hx0.trans ha.1)
        have hpb := IntType.pattern_of_nonneg (hy.contains hb) (hy0.trans hb.1)
        have hla : t.pattern a ≤ (t.pattern a ||| t.pattern b : ℕ) := Nat.left_le_or
        have hlb : t.pattern b ≤ (t.pattern a ||| t.pattern b : ℕ) := Nat.right_le_or
        rw [Bitwise.combine_or] at hhi
        exact ⟨⟨ha.1, by simp only [Span.hi]; omega⟩, hb.1, by simp only [Span.hi]; omega⟩
      | xor => exact ⟨keeps_unknown, isTight_of_not_exact⟩
    · simp only [hnat]
      exact ⟨keeps_unknown, isTight_of_not_exact⟩

/-! ### Shifts -/

/-- Equal pieces are their own hull. -/
private theorem hull?_of_forall_eq {rs : List Range} {h q : Range} (he : Bounds.hull? rs = some h)
    (hrs : ∀ r ∈ rs, r = q) : h = q := by
  obtain ⟨⟨q1, h1, hlo⟩, q2, h2, hhi⟩ := Bounds.exists_ends_of_hull?_eq_some he
  rw [hrs q1 h1] at hlo
  rw [hrs q2 h2] at hhi
  cases h
  cases q
  simp_all

/-- Where the solver of a shift goes on, the amount of a pair that reaches the result is valid. -/
private theorem valid_of_reaches (d : Direction) {a b : ℤ} (hb : b ∈ y)
    (hgo : ¬((decide (y.lo < 0) || decide ((t.width : ℤ) ≤ y.hi)) && !stops) = true)
    (h : (Operation.shift d).Reaches stops t u t z.toSet a b) :
    (0 ≤ b ∧ b < t.width) ∧ b ∈ validAmounts t.width y := by
  have hb' : y.lo ≤ b ∧ b ≤ y.hi := hb
  have hvalid : 0 ≤ b ∧ b < t.width := by
    by_contra hn
    obtain ⟨v, -, hv⟩ := h
    obtain ⟨hs, -⟩ := (Step.mem_values_shift_invalid hn).mp hv
    simp only [hs, Bool.not_false, Bool.and_true, Bool.or_eq_true, decide_eq_true_eq] at hgo
    omega
  refine ⟨hvalid, ?_⟩
  rw [validAmounts, Bounds.mem_mk]
  omega

/-- The operands of a shift to the right lie between those of the least and the largest amount. -/
private theorem shift_right_inverts (hx : x.Proper t)
    (hvalid : ∀ a ∈ x, ∀ b ∈ y, (Operation.shift .right).Reaches stops t u t z.toSet a b →
      (0 ≤ b ∧ b < t.width) ∧ b ∈ validAmounts t.width y) :
    (both? (Bounds.hull? ([(validAmounts t.width y).lo, (validAmounts t.width y).hi].map fun k =>
        (⟨z.lo * pow2 k.toNat, (z.hi + 1) * pow2 k.toNat - 1⟩ : Range)))
      (some (validAmounts t.width y))
      ((validAmounts t.width y).lo == (validAmounts t.width y).hi)).Inverts
      ((Operation.shift .right).Reaches stops t u t z.toSet) x.toSet y.toSet := by
  have hwidth := t.one_le_width
  have hR : ∀ a ∈ x, ∀ b, 0 ≤ b ∧ b < (t.width : ℤ) →
      ((Operation.shift .right).Reaches stops t u t z.toSet a b ↔
        z.lo * pow2 b.toNat ≤ a ∧ a < (z.hi + 1) * pow2 b.toNat) := by
    intro a ha b hb
    have hpos := pow2_pos b.toNat
    rw [← Int.le_ediv_iff_mul_le hpos, ← Int.ediv_lt_iff_lt_mul hpos, Int.lt_add_one_iff]
    constructor
    · rintro ⟨v, hv, h⟩
      exact (Step.mem_values_shift_right (hx.contains ha) hb).mp h ▸ hv
    · intro h
      exact ⟨_, h, (Step.mem_values_shift_right (hx.contains ha) hb).mpr rfl⟩
  constructor
  · refine keeps_both? fun a ha b hb h => ?_
    obtain ⟨hb0, hbv⟩ := hvalid a ha b hb h
    refine ⟨?_, _, rfl, hbv⟩
    obtain ⟨h1, h2⟩ := (hR a ha b hb0).mp h
    generalize validAmounts t.width y = valid at hbv ⊢
    obtain ⟨h3, h4⟩ := hbv
    obtain ⟨q, hq⟩ : ∃ q, Bounds.hull? ([valid.lo, valid.hi].map fun k =>
        (⟨z.lo * pow2 k.toNat, (z.hi + 1) * pow2 k.toNat - 1⟩ : Range)) = some q :=
      Bounds.exists_hull? List.mem_cons_self
    have hlo := Bounds.le_of_hull?_eq_some hq List.mem_cons_self
    have hhi := Bounds.le_of_hull?_eq_some hq (List.mem_cons_of_mem _ List.mem_cons_self)
    -- a product with the power of the amount lies between those with the powers of the ends
    have hp1 := pow2_mono (Int.toNat_le_toNat h3)
    have hp2 := pow2_mono (Int.toNat_le_toNat h4)
    have hm1 := mul_between hp1 hp2 z.lo
    have hm2 := mul_between hp1 hp2 (z.hi + 1)
    simp only [mul_comm (pow2 _)] at hm1 hm2
    refine ⟨q, hq, ?_, ?_⟩
    · simp only at hlo hhi
      omega
    · simp only at hlo hhi
      omega
  · refine isTight_both? fun he q hq q' hq' a ha haq b hb hbq => ?_
    cases hq'
    rw [beq_iff_eq] at he
    have hbq' : (validAmounts t.width y).lo ≤ b ∧ b ≤ (validAmounts t.width y).hi := hbq
    have hbk : (validAmounts t.width y).lo = b ∧ (validAmounts t.width y).hi = b := by omega
    have hb0 : 0 ≤ b ∧ b < (t.width : ℤ) := by
      have h1 : max y.lo 0 = b := hbk.1
      have h2 : min y.hi (t.width - 1) = b := hbk.2
      omega
    have hqeq := hull?_of_forall_eq (q := ⟨z.lo * pow2 b.toNat, (z.hi + 1) * pow2 b.toNat - 1⟩) hq
      (by simp [hbk.1, hbk.2])
    subst hqeq
    have hab := (hR a ha b hb0).mpr ⟨haq.1, by have := haq.2; simp only at this; omega⟩
    exact ⟨⟨b, hb, hab⟩, a, ha, hab⟩

/-- Shifts to the left that cannot overflow are undone for each amount. -/
private theorem shift_left_inverts
    (hvalid : ∀ a ∈ x, ∀ b ∈ y, (Operation.shift .left).Reaches stops t u t z.toSet a b →
      (0 ≤ b ∧ b < t.width) ∧ b ∈ validAmounts t.width y)
    (hfits : ∀ k ∈ (validAmounts t.width y).values t.width,
      t.contains (x.lo * pow2 k.toNat) = true ∧ t.contains (x.hi * pow2 k.toNat) = true) :
    (both? (Bounds.hull? ((((validAmounts t.width y).values t.width).map fun k =>
        (⟨ceilDiv z.lo (pow2 k.toNat), floorDiv z.hi (pow2 k.toNat)⟩ : Range)).filter
          fun r => decide (r.lo ≤ r.hi)))
      (some (validAmounts t.width y))
      ((validAmounts t.width y).lo == (validAmounts t.width y).hi)).Inverts
      ((Operation.shift .left).Reaches stops t u t z.toSet) x.toSet y.toSet := by
  have hwidth := t.one_le_width
  have hmem : ∀ b, b ∈ (validAmounts t.width y).values t.width ↔ b ∈ validAmounts t.width y := by
    intro b
    refine Bounds.mem_values_iff ?_
    rw [validAmounts]
    simp only
    omega
  have hR : ∀ a ∈ x, ∀ b, 0 ≤ b ∧ b < (t.width : ℤ) → b ∈ validAmounts t.width y →
      ((Operation.shift .left).Reaches stops t u t z.toSet a b ↔
        a ∈ (⟨ceilDiv z.lo (pow2 b.toNat), floorDiv z.hi (pow2 b.toNat)⟩ : Range)) := by
    intro a ha b hb hbv
    have hpos := pow2_pos b.toNat
    obtain ⟨h1, h2⟩ := hfits b ((hmem b).mpr hbv)
    have hin : t.contains (a * pow2 b.toNat) = true :=
      IntType.contains_of_between h1 h2 (mul_le_mul_of_nonneg_right ha.1 hpos.le)
        (mul_le_mul_of_nonneg_right ha.2 hpos.le)
    have hexec : ∀ v, v ∈ ((Operation.shift .left).execute stops t u t a b).values t ↔
        v = a * pow2 b.toNat := by
      intro v
      rw [Step.mem_values_shift_left hb, IntType.wrap_eq_self hin]
    rw [Bounds.mem_mk, ceilDiv_le_iff hpos, le_floorDiv_iff hpos]
    constructor
    · rintro ⟨v, hv, h⟩
      exact (hexec v).mp h ▸ hv
    · intro h
      exact ⟨_, h, (hexec _).mpr rfl⟩
  constructor
  · refine keeps_both? fun a ha b hb h => ?_
    obtain ⟨hb0, hbv⟩ := hvalid a ha b hb h
    have hap := (hR a ha b hb0 hbv).mp h
    have hpiece := (List.mem_filter (p := fun r : Range => decide (r.lo ≤ r.hi))).mpr
      ⟨List.mem_map_of_mem (f := fun k : ℤ =>
        (⟨ceilDiv z.lo (pow2 k.toNat), floorDiv z.hi (pow2 k.toNat)⟩ : Range)) ((hmem b).mpr hbv),
        decide_eq_true (hap.1.trans hap.2)⟩
    obtain ⟨q, hq⟩ := Bounds.exists_hull? hpiece
    exact ⟨⟨q, hq, Bounds.mem_of_hull?_eq_some hq hpiece hap⟩, _, rfl, hbv⟩
  · refine isTight_both? fun he q hq q' hq' a ha haq b hb hbq => ?_
    cases hq'
    rw [beq_iff_eq] at he
    have hb0 : 0 ≤ b ∧ b < (t.width : ℤ) := by
      obtain ⟨h1, h2⟩ := hbq
      simp only [validAmounts] at h1 h2
      omega
    have hqeq := hull?_of_forall_eq
      (q := ⟨ceilDiv z.lo (pow2 b.toNat), floorDiv z.hi (pow2 b.toNat)⟩) hq (by
        intro r hr
        obtain ⟨k, hk, rfl⟩ := List.mem_map.mp (List.mem_filter.mp hr).1
        obtain ⟨h1, h2⟩ := (hmem k).mp hk
        obtain ⟨h3, h4⟩ := hbq
        rw [show k = b by omega])
    subst hqeq
    have hab := (hR a ha b hb0 hbq).mpr haq
    exact ⟨⟨b, hb, hab⟩, a, ha, hab⟩

theorem shift_inverts (d : Direction) (hx : x.Proper t) :
    (shift stops d ⟨⟨t, x⟩, some ⟨u, y⟩, ⟨t, z⟩, c⟩).Inverts
      ((Operation.shift d).Reaches stops t u t z.toSet) x.toSet y.toSet := by
  by_cases hgo : ((decide (y.lo < 0) || decide ((t.width : ℤ) ≤ y.hi)) && !stops) = true
  · have heq : shift stops d ⟨⟨t, x⟩, some ⟨u, y⟩, ⟨t, z⟩, c⟩ = unknown := if_pos hgo
    rw [heq]
    exact ⟨keeps_unknown, isTight_of_not_exact⟩
  have hvalid : ∀ a ∈ x, ∀ b ∈ y, (Operation.shift d).Reaches stops t u t z.toSet a b →
      (0 ≤ b ∧ b < t.width) ∧ b ∈ validAmounts t.width y :=
    fun a _ b hb h => valid_of_reaches d hb hgo h
  by_cases hempty : (validAmounts t.width y).hi < (validAmounts t.width y).lo
  · have heq : shift stops d ⟨⟨t, x⟩, some ⟨u, y⟩, ⟨t, z⟩, c⟩ = impossible :=
      (if_neg hgo).trans (if_pos hempty)
    rw [heq]
    refine ⟨fun a ha b hb h => ?_, trivial⟩
    obtain ⟨-, h1, h2⟩ := hvalid a ha b hb h
    omega
  cases d with
  | right =>
    have heq : shift stops .right ⟨⟨t, x⟩, some ⟨u, y⟩, ⟨t, z⟩, c⟩ =
        both? (Bounds.hull? ([(validAmounts t.width y).lo, (validAmounts t.width y).hi].map fun k =>
          (⟨z.lo * pow2 k.toNat, (z.hi + 1) * pow2 k.toNat - 1⟩ : Range)))
          (some (validAmounts t.width y))
          ((validAmounts t.width y).lo == (validAmounts t.width y).hi) :=
      (if_neg hgo).trans (if_neg hempty)
    rw [heq]
    exact shift_right_inverts hx hvalid
  | left =>
    have heq : shift stops .left ⟨⟨t, x⟩, some ⟨u, y⟩, ⟨t, z⟩, c⟩ =
        if (!((validAmounts t.width y).values t.width).all fun k =>
            t.contains (x.lo * pow2 k.toNat) && t.contains (x.hi * pow2 k.toNat)) = true then
          within none (some (validAmounts t.width y)) false
        else both? (Bounds.hull? ((((validAmounts t.width y).values t.width).map fun k =>
          (⟨ceilDiv z.lo (pow2 k.toNat), floorDiv z.hi (pow2 k.toNat)⟩ : Range)).filter
            fun r => decide (r.lo ≤ r.hi)))
          (some (validAmounts t.width y))
          ((validAmounts t.width y).lo == (validAmounts t.width y).hi) :=
      (if_neg hgo).trans (if_neg hempty)
    rw [heq]
    split
    · refine ⟨fun a ha b hb h => ⟨by simp, ?_⟩, isTight_of_not_exact⟩
      simpa using (hvalid a ha b hb h).2
    · next hfits =>
      simp only [Bool.not_eq_true', Bool.not_eq_false, List.all_eq_true, Bool.and_eq_true] at hfits
      exact shift_left_inverts hvalid hfits

end Narrowing

end ScalarDomain
