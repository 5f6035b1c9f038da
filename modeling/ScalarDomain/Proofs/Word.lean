import Mathlib
import ScalarDomain.Forward.Fold

/-!
# Two's-complement words

The arithmetic of integer types that every later argument rests on. A type is laid out in one
of two ways (`IntType.layout`): with `H` patterns in each half, its values are `[-H, H - 1]` when
it is signed and `[0, 2 * H - 1]` when it is not. Everything about `wrap`, `toBits` and `ofBits`
follows from that and from uniqueness: two values of a type that differ by a multiple of the
modulus are equal (`IntType.eq_of_sub_mul`).

The second view of a word is a bit vector. `IntType.bits` and `IntType.read` go back and forth,
and `read_ofInt` ties them to the wrap-around of integers.
-/

namespace ScalarDomain

/-! ### Powers of two -/

theorem twoPow_eq (n : ℕ) : twoPow n = 2 ^ n := rfl

theorem pow2_eq (n : ℕ) : pow2 n = 2 ^ n := by
  simp [pow2, twoPow_eq]

theorem pow2_pos (n : ℕ) : 0 < pow2 n := by
  rw [pow2_eq]
  positivity

theorem pow2_add (m n : ℕ) : pow2 (m + n) = pow2 m * pow2 n := by
  simp only [pow2_eq, pow_add]

theorem pow2_mono {m n : ℕ} (h : m ≤ n) : pow2 m ≤ pow2 n := by
  simp only [pow2_eq]
  exact pow_le_pow_right₀ (by norm_num) h

theorem pow2_cast (n : ℕ) : pow2 n = ((2 ^ n : ℕ) : ℤ) := rfl

namespace IntType

variable {t : IntType} {v : ℤ}

/-! ### Layout of a type -/

/-- The number of patterns in each half of the type. -/
def half (t : IntType) : ℤ :=
  pow2 (t.width - 1)

theorem half_pos (t : IntType) : 0 < t.half :=
  pow2_pos _

/-- The values split into two halves at the sign bit, whichever way the type reads it. -/
theorem modulus_eq_two_mul (t : IntType) : t.modulus = 2 * t.half := by
  have h := t.one_le_width
  have hw : t.width = t.width - 1 + 1 := by omega
  rw [modulus, half, hw, pow2_add]
  simp only [Nat.add_sub_cancel, pow2_eq]
  ring

/-- A type is laid out in one of two ways, both with `half` patterns on either side. -/
theorem layout (t : IntType) :
    (t.signed = true ∧ t.minValue = -t.half ∧ t.maxValue = t.half - 1) ∨
      (t.signed = false ∧ t.minValue = 0 ∧ t.maxValue = 2 * t.half - 1) := by
  have hm := t.modulus_eq_two_mul
  cases hs : t.signed with
  | true => exact .inl ⟨rfl, by simp [minValue, hs, half], by simp [maxValue, hs, half]⟩
  | false =>
    refine .inr ⟨rfl, by simp [minValue, hs], ?_⟩
    rw [maxValue, if_neg (by simp [hs]), ← hm, modulus]

theorem modulus_pos (t : IntType) : 0 < t.modulus := by
  have := t.half_pos
  rw [modulus_eq_two_mul]
  omega

/-- The modulus counts the values of the type. -/
theorem modulus_eq (t : IntType) : t.modulus = t.maxValue - t.minValue + 1 := by
  have hm := t.modulus_eq_two_mul
  rcases t.layout with ⟨-, h1, h2⟩ | ⟨-, h1, h2⟩ <;> omega

/-- Every type has at least two values. -/
theorem minValue_lt_maxValue (t : IntType) : t.minValue < t.maxValue := by
  have := t.half_pos
  rcases t.layout with ⟨-, h1, h2⟩ | ⟨-, h1, h2⟩ <;> omega

theorem minValue_nonpos (t : IntType) : t.minValue ≤ 0 := by
  have := t.half_pos
  rcases t.layout with ⟨-, h1, h2⟩ | ⟨-, h1, h2⟩ <;> omega

theorem maxValue_nonneg (t : IntType) : 0 ≤ t.maxValue := by
  have := t.half_pos
  rcases t.layout with ⟨-, h1, h2⟩ | ⟨-, h1, h2⟩ <;> omega

/-- Membership in a type, as two inequalities. -/
theorem contains_iff : t.contains v = true ↔ t.minValue ≤ v ∧ v ≤ t.maxValue := by
  simp [contains]

theorem contains_zero (t : IntType) : t.contains 0 = true :=
  contains_iff.mpr ⟨t.minValue_nonpos, t.maxValue_nonneg⟩

/-- The values of a type are convex. -/
theorem contains_of_between {a b : ℤ} (ha : t.contains a = true) (hb : t.contains b = true)
    (hav : a ≤ v) (hvb : v ≤ b) : t.contains v = true := by
  rw [contains_iff] at *
  omega

/-- Two values of a type that differ by a multiple of the modulus are equal. -/
theorem eq_of_sub_mul {a b k : ℤ} (ha : t.contains a = true) (hb : t.contains b = true)
    (h : a = b + k * t.modulus) : a = b := by
  rw [contains_iff] at ha hb
  have hm := t.modulus_eq
  have hpos := t.modulus_pos
  have hk : k = 0 := by
    by_contra hne
    rcases lt_or_gt_of_ne hne with hlt | hgt
    · have : k * t.modulus ≤ -1 * t.modulus := by
        exact mul_le_mul_of_nonneg_right (by omega) hpos.le
      omega
    · have : 1 * t.modulus ≤ k * t.modulus := by
        exact mul_le_mul_of_nonneg_right (by omega) hpos.le
      omega
  rw [h, hk]
  ring

/-! ### Patterns -/

/-- Patterns are natural numbers. -/
theorem toBits_nonneg (t : IntType) (v : ℤ) : 0 ≤ t.toBits v :=
  Int.emod_nonneg _ t.modulus_pos.ne'

/-- Patterns are below the modulus. -/
theorem toBits_lt (t : IntType) (v : ℤ) : t.toBits v < t.modulus :=
  Int.emod_lt_of_pos _ t.modulus_pos

/-- A natural value is its own pattern. -/
theorem toBits_of_nonneg (h : t.contains v = true) (hv : 0 ≤ v) : t.toBits v = v := by
  rw [contains_iff] at h
  have hm := t.modulus_eq
  have hmin := t.minValue_nonpos
  exact Int.emod_eq_of_lt hv (by omega)

/-- The pattern of a negative value lies one modulus above it. -/
theorem toBits_of_neg (h : t.contains v = true) (hv : v < 0) :
    t.toBits v = v + t.modulus := by
  rw [contains_iff] at h
  have hm := t.modulus_eq
  have hmax := t.maxValue_nonneg
  rw [toBits, ← Int.add_emod_right]
  exact Int.emod_eq_of_lt (by omega) (by omega)

/-- The pattern of a value is the value itself, or the value plus the modulus when it is
negative. -/
theorem toBits_cases (h : t.contains v = true) :
    (0 ≤ v ∧ t.toBits v = v) ∨ (v < 0 ∧ t.toBits v = v + t.modulus) := by
  rcases le_or_gt 0 v with hv | hv
  · exact .inl ⟨hv, toBits_of_nonneg h hv⟩
  · exact .inr ⟨hv, toBits_of_neg h hv⟩

/-- The value of a pattern is the pattern itself, or the pattern minus the modulus in the upper
half of a signed type. -/
theorem ofBits_cases (t : IntType) (p : ℤ) :
    ((t.signed = false ∨ p < t.half) ∧ t.ofBits p = p) ∨
      (t.signed = true ∧ t.half ≤ p ∧ t.ofBits p = p - t.modulus) := by
  rw [ofBits]
  split
  · next h =>
    simp only [Bool.and_eq_true, decide_eq_true_eq] at h
    exact .inr ⟨h.1, h.2, rfl⟩
  · next h =>
    simp only [Bool.and_eq_true, decide_eq_true_eq, not_and, not_le] at h
    refine .inl ⟨?_, rfl⟩
    cases hs : t.signed with
    | true => exact .inr (h hs)
    | false => exact .inl rfl

/-- A pattern of the lower half reads as itself. -/
theorem ofBits_of_lt {p : ℤ} (h : p < t.half) : t.ofBits p = p := by
  rcases t.ofBits_cases p with ⟨-, he⟩ | ⟨-, h', -⟩
  · exact he
  · omega

/-- An unsigned type reads every pattern as itself. -/
theorem ofBits_of_unsigned {p : ℤ} (h : t.signed = false) : t.ofBits p = p := by
  simp [ofBits, h]

/-- A signed type reads the patterns of the upper half as negative values. -/
theorem ofBits_of_le {p : ℤ} (hs : t.signed = true) (h : t.half ≤ p) :
    t.ofBits p = p - t.modulus := by
  rcases t.ofBits_cases p with ⟨h' | h', -⟩ | ⟨-, -, he⟩
  · simp [h'] at hs
  · omega
  · exact he

/-- Every pattern reads as a value of the type. -/
theorem contains_ofBits {p : ℤ} (h0 : 0 ≤ p) (h1 : p < t.modulus) :
    t.contains (t.ofBits p) = true := by
  have hm := t.modulus_eq_two_mul
  have := t.half_pos
  rw [contains_iff]
  rcases t.ofBits_cases p with ⟨hc, he⟩ | ⟨hc, hc', he⟩ <;>
    rcases t.layout with ⟨hs, h2, h3⟩ | ⟨hs, h2, h3⟩ <;> simp [hs] at hc <;> omega

/-- Reading a pattern and taking the pattern of the value gives it back. -/
theorem toBits_ofBits {p : ℤ} (h0 : 0 ≤ p) (h1 : p < t.modulus) : t.toBits (t.ofBits p) = p := by
  rcases t.ofBits_cases p with ⟨-, he⟩ | ⟨-, -, he⟩
  · rw [he, toBits, Int.emod_eq_of_lt h0 h1]
  · rw [he, toBits, Int.sub_emod_right, Int.emod_eq_of_lt h0 h1]

/-- A value is read back from its pattern. -/
theorem ofBits_toBits (h : t.contains v = true) : t.ofBits (t.toBits v) = v := by
  have hm := t.modulus_eq_two_mul
  have := t.half_pos
  rw [contains_iff] at h
  have hc := toBits_cases (contains_iff.mpr h)
  rcases t.ofBits_cases (t.toBits v) with ⟨h1, he⟩ | ⟨h1, h2, he⟩ <;>
    rcases t.layout with ⟨hs, h3, h4⟩ | ⟨hs, h3, h4⟩ <;> simp [hs] at h1 <;> omega

/-! ### Wrap-around -/

/-- Wrap-around always ends in the type. -/
theorem contains_wrap (t : IntType) (v : ℤ) : t.contains (t.wrap v) = true :=
  contains_ofBits (t.toBits_nonneg v) (t.toBits_lt v)

/-- The values of a type are left alone by wrap-around. -/
theorem wrap_eq_self (h : t.contains v = true) : t.wrap v = v :=
  ofBits_toBits h

/-- Wrap-around moves an integer by a multiple of the modulus. -/
theorem exists_wrap_eq (t : IntType) (v : ℤ) : ∃ k : ℤ, t.wrap v = v + k * t.modulus := by
  have hdiv := Int.emod_add_mul_ediv v t.modulus
  rcases t.ofBits_cases (t.toBits v) with ⟨-, he⟩ | ⟨-, -, he⟩
  · exact ⟨-(v / t.modulus), by rw [wrap, he, toBits]; linarith⟩
  · exact ⟨-(v / t.modulus) - 1, by rw [wrap, he, toBits]; linarith⟩

/-- Wrap-around is the only value of the type at a multiple of the modulus. -/
theorem wrap_eq_of_add_mul {u k : ℤ} (hu : t.contains u = true) (h : v = u + k * t.modulus) :
    t.wrap v = u := by
  obtain ⟨j, hj⟩ := t.exists_wrap_eq v
  exact eq_of_sub_mul (k := j + k) (t.contains_wrap v) hu (by rw [hj, h]; ring)

/-! ### Bit vectors -/

/-- The bits of a value. -/
def bits (t : IntType) (v : ℤ) : BitVec t.width :=
  BitVec.ofInt t.width v

/-- The value of some bits. -/
def read (t : IntType) (b : BitVec t.width) : ℤ :=
  if t.signed then b.toInt else b.toNat

/-- The bit vector of an integer, as a natural number. -/
theorem toNat_bits (t : IntType) (v : ℤ) : (t.bits v).toNat = t.pattern v := by
  rw [bits, BitVec.toNat_ofInt, pattern, toBits, modulus, pow2_cast]

theorem pattern_cast (t : IntType) (v : ℤ) : (t.pattern v : ℤ) = t.toBits v :=
  Int.toNat_of_nonneg (t.toBits_nonneg v)

theorem pattern_lt (t : IntType) (v : ℤ) : t.pattern v < 2 ^ t.width := by
  rw [← toNat_bits]
  exact (t.bits v).isLt

/-- Both readings of bits agree: that of a bit vector and that of a pattern. -/
theorem read_eq_ofBits (t : IntType) (b : BitVec t.width) : t.read b = t.ofBits b.toNat := by
  have hm := t.modulus_eq_two_mul
  have hb : (b.toNat : ℤ) < t.modulus := by
    rw [modulus, pow2_cast]
    exact_mod_cast b.isLt
  have hmod : ((2 ^ t.width : ℕ) : ℤ) = t.modulus := rfl
  rw [read]
  rcases t.ofBits_cases b.toNat with ⟨hc, he⟩ | ⟨hc, hc', he⟩
  · rw [he]
    split
    · next hs =>
      have hlt : (b.toNat : ℤ) < t.half := by simpa [hs] using hc
      rw [BitVec.toInt_eq_toNat_of_lt]
      have : ((2 * b.toNat : ℕ) : ℤ) < ((2 ^ t.width : ℕ) : ℤ) := by push_cast at hmod ⊢; omega
      exact_mod_cast this
    · rfl
  · rw [he, if_pos hc, BitVec.toInt_eq_toNat_cond, if_neg, hmod]
    intro hlt
    have : ((2 * b.toNat : ℕ) : ℤ) < ((2 ^ t.width : ℕ) : ℤ) := by exact_mod_cast hlt
    push_cast at hmod this
    omega

/-- A value is read back from its bits. -/
theorem read_bits (h : t.contains v = true) : t.read (t.bits v) = v := by
  rw [read_eq_ofBits, toNat_bits, pattern_cast, ofBits_toBits h]

/-- Bits are determined by the value that they read as. -/
theorem bits_read (t : IntType) (x : BitVec t.width) : t.bits (t.read x) = x := by
  rw [bits, read]
  split
  · exact BitVec.ofInt_toInt
  · rw [BitVec.ofInt_natCast, BitVec.ofNat_toNat, BitVec.setWidth_eq]

/-- Storing an integer in a word is its wrap-around. -/
theorem read_ofInt (t : IntType) (v : ℤ) : t.read (BitVec.ofInt t.width v) = t.wrap v := by
  have h := t.toNat_bits v
  rw [bits] at h
  rw [read_eq_ofBits, h, pattern_cast, wrap]

/-- All bits read as values of the type. -/
theorem contains_read (t : IntType) (b : BitVec t.width) : t.contains (t.read b) = true := by
  rw [read_eq_ofBits]
  refine contains_ofBits (Int.natCast_nonneg _) ?_
  rw [modulus, pow2_cast]
  exact_mod_cast b.isLt

end IntType

end ScalarDomain
