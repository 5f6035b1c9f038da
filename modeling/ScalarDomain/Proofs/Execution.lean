import ScalarDomain.Proofs.Word

/-!
# Concrete executions

What a machine does with two words, against which the abstract transfers are measured.
`Operation.execute` is said on bit vectors wherever the operation works on patterns and on
integers wherever it has a mathematical result that may not fit. An execution ends with a value,
is pruned by an error, or goes on after an error with an arbitrary value; `Outcome.values` is the
set of values it may end with.

`Operation.results` collects the values over two sets of operands, and `Operation.Reaches` says
that a pair of operands may land in a set of results: the two sides of a forward transfer and of
a backward refinement.
-/

namespace ScalarDomain

/-! ### Outcomes -/

/-- What one execution of an operation on words comes to. -/
inductive Outcome where
  /-- It ends with a value. -/
  | value (v : ℤ)
  /-- It stops on an error. -/
  | pruned
  /-- It goes on after an error with an arbitrary value. -/
  | anything

namespace Outcome

/-- The values that an execution may end with. -/
def values (out : IntType) : Outcome → Set ℤ
  | value v => {v}
  | pruned => ∅
  | anything => {v | out.contains v = true}

/-- A mathematical result stored in a type. One that does not fit ends the execution, or only its
low bits are kept. -/
def stored (stops : Bool) (out : IntType) (m : ℤ) : Outcome :=
  if out.contains m then value m
  else if stops then pruned
  else value (out.read (BitVec.ofInt out.width m))

/-- An execution without a result. -/
def failed (stops : Bool) : Outcome :=
  if stops then pruned else anything

/-- An execution that ends with a truth value. -/
def truth (b : Bool) : Outcome :=
  value (if b then 1 else 0)

section

variable {stops : Bool} {out : IntType} {m u v : ℤ}

@[simp] theorem mem_values_value : v ∈ (value u).values out ↔ v = u := Iff.rfl

@[simp] theorem not_mem_values_pruned : v ∉ pruned.values out := fun h => h

@[simp] theorem mem_values_anything : v ∈ anything.values out ↔ out.contains v = true := Iff.rfl

@[simp] theorem mem_values_truth {b : Bool} :
    v ∈ (truth b).values out ↔ v = if b then 1 else 0 := Iff.rfl

/-- A failed execution ends with any value of the type if errors do not end it, and else with
none. -/
theorem mem_values_failed :
    v ∈ (failed stops).values out ↔ stops = false ∧ out.contains v = true := by
  cases stops <;> simp [failed]

/-- Stopping executions keep the results that fit. -/
theorem mem_values_stored_true :
    v ∈ (stored true out m).values out ↔ out.contains m = true ∧ v = m := by
  rw [stored]
  split <;> simp_all

/-- The other executions wrap all results around. -/
theorem mem_values_stored_false : v ∈ (stored false out m).values out ↔ v = out.wrap m := by
  rw [stored]
  split
  · next h => rw [mem_values_value, IntType.wrap_eq_self h]
  · rw [if_neg Bool.false_ne_true, mem_values_value, IntType.read_ofInt]

/-- A result that fits is stored as it is. -/
theorem mem_values_stored_of_contains (h : out.contains m = true) :
    v ∈ (stored stops out m).values out ↔ v = m := by
  rw [stored, if_pos h, mem_values_value]

/-- What is stored is a value of the type. -/
theorem contains_of_mem_stored (h : v ∈ (stored stops out m).values out) :
    out.contains v = true := by
  cases stops with
  | true =>
    obtain ⟨h1, rfl⟩ := mem_values_stored_true.mp h
    exact h1
  | false =>
    rw [mem_values_stored_false] at h
    exact h ▸ out.contains_wrap m

end

end Outcome

/-- A bitwise connective of two bit vectors. -/
def Bitwise.onBits {n : ℕ} : Bitwise → BitVec n → BitVec n → BitVec n
  | or => (· ||| ·)
  | and => (· &&& ·)
  | xor => (· ^^^ ·)

/-- A bit vector with the field of another one written over it from bit `low` on. -/
def overwrite {n m : ℕ} (x : BitVec n) (low : ℕ) (field : BitVec m) : BitVec n :=
  (x &&& ~~~((BitVec.allOnes m).setWidth n <<< low)) ||| (field.setWidth n <<< low)

namespace Operation

/-- The execution of an operation on a value `a` of type `t` and a value `b` of type `u`, with a
result of type `out`. Operations with one operand do not look at `b`, and conversions to floats
have no word as result. -/
def execute (stops : Bool) (op : Operation) (t u out : IntType) (a b : ℤ) : Outcome :=
  match op with
  | prev => .stored stops out (a - 1)
  | next => .stored stops out (a + 1)
  | opposite => .stored stops out (-a)
  | bitNegate => .value (t.read (~~~ t.bits a))
  | logicalNegate => .truth (a = 0)
  | castBit => .truth (a ≠ 0)
  | castInt _ => .stored stops out a
  | castFloat _ => .pruned
  | extend .zero _ => .value (out.read ((t.bits a).setWidth out.width))
  | extend .sign _ => .value (out.read ((t.bits a).signExtend out.width))
  | reduce low high => .value ((t.bits a).extractLsb' low (high - low)).toNat
  | compare c => .truth (c.holds a b)
  | plus => .stored stops out (a + b)
  | minus => .stored stops out (a - b)
  | times => .stored stops out (a * b)
  | divide => if b = 0 then .failed stops else .stored stops out (a.tdiv b)
  | modulo => if b = 0 then .failed stops else .value (a.tmod b)
  | extremum .min => .value (min a b)
  | extremum .max => .value (max a b)
  | bitwise c => .value (t.read (c.onBits (t.bits a) (t.bits b)))
  | shift d =>
    if 0 ≤ b ∧ b < t.width then
      match d with
      | .left => .value (t.read (t.bits a <<< b.toNat))
      | .right =>
        .value (t.read (if t.signed then (t.bits a).sshiftRight b.toNat else t.bits a >>> b.toNat))
    else .failed stops
  | rotate .left => .value (t.read ((t.bits a).rotateLeft (b % t.width).toNat))
  | rotate .right => .value (t.read ((t.bits a).rotateRight (b % t.width).toNat))
  | connective c => .truth (c.combine (a ≠ 0) (b ≠ 0))
  | concat => .value ((t.bits a ++ u.bits b).toNat)
  | bitSet low high =>
    .value (t.read (overwrite (t.bits a) low ((u.bits b).setWidth (high - low))))

/-- The values that executions over two sets of operands may end with. -/
def results (stops : Bool) (op : Operation) (t u out : IntType) (X Y : Set ℤ) : Set ℤ :=
  {v | ∃ a ∈ X, ∃ b ∈ Y, v ∈ (op.execute stops t u out a b).values out}

/-- The execution on a pair of operands may end in a set of values. -/
def Reaches (stops : Bool) (op : Operation) (t u out : IntType) (Z : Set ℤ) (a b : ℤ) : Prop :=
  ∃ v ∈ Z, v ∈ (op.execute stops t u out a b).values out

/-- The operation is one that its checked constructor builds. -/
def IsChecked : Operation → Prop
  | extend fill bits => checkedExtend fill bits = .ok (extend fill bits)
  | reduce low high => checkedReduce low high = .ok (reduce low high)
  | bitSet low high => checkedBitSet low high = .ok (bitSet low high)
  | _ => True

/-- A checked operation with as many operands as it needs, of types that it takes; the result is a
word. -/
structure Accepts (op : Operation) (w : WordType) (arg : Option WordType) (out : WordType) :
    Prop where
  /-- The operation is checked. -/
  checked : op.IsChecked
  /-- There is a second operand exactly for binary operations. -/
  operands : arg.isSome = true ↔ op.arity = 1
  /-- The types fit. -/
  typed : op.resultType (.word w) (arg.map .word) = .ok (.word out)

/-- What the types of an accepted operation have in common. -/
def Fits (op : Operation) (w : WordType) (arg : Option WordType) (out : WordType) : Prop :=
  match op with
  | prev | next | opposite | bitNegate => arg = none ∧ out = w
  | logicalNegate | castBit => arg = none ∧ out = .bit
  | castInt dest => arg = none ∧ out = .int dest
  | castFloat _ => False
  | extend _ bits =>
    arg = none ∧ 0 < bits ∧
      ∃ t, out = .int t ∧ t.width = w.view.width + bits ∧ t.signed = w.view.signed
  | reduce low high =>
    arg = none ∧ low < high ∧ high ≤ w.view.width ∧
      ∃ t, out = .int t ∧ t.width = high - low ∧ t.signed = false
  | compare _ | connective _ => arg = some w ∧ out = .bit
  | plus | minus | times | divide | modulo | extremum _ | bitwise _ => arg = some w ∧ out = w
  | shift _ | rotate _ => arg.isSome = true ∧ out = w
  | concat =>
    ∃ u t, arg = some u ∧ out = .int t ∧ t.width = w.view.width + u.view.width ∧ t.signed = false
  | bitSet low high =>
    ∃ u, arg = some u ∧ out = w ∧ low < high ∧ high ≤ w.view.width ∧ u.view.width = high - low

/-- The type of a checked width has the width and the sign asked for. -/
private theorem ofWidth_map_eq {n : ℕ} {b : Bool} {out : WordType}
    (h : (IntType.ofWidth n b).map ScalarType.int = .ok (.word out)) :
    ∃ t, out = .int t ∧ t.width = n ∧ t.signed = b := by
  rw [IntType.ofWidth, IntType.ofWidth?] at h
  split at h
  · next t ht =>
    split at ht
    · cases ht
      cases h
      exact ⟨_, rfl, rfl, rfl⟩
    · cases ht
  · cases h

/-- The types of an accepted operation fit. -/
theorem Accepts.fits {op : Operation} {w : WordType} {arg : Option WordType} {out : WordType}
    (h : op.Accepts w arg out) : op.Fits w arg out := by
  obtain ⟨hc, ho, ht⟩ := h
  have hnone : op.arity ≠ 1 → arg = none := fun hn => by
    cases arg with
    | none => rfl
    | some u => exact absurd (ho.mp rfl) hn
  have hview : ∀ w : WordType, (ScalarType.word w).view? = some w.view := fun w => by
    cases w <;> rfl
  cases op with
  | prev | next | opposite => cases ht; exact ⟨hnone Nat.zero_ne_one, rfl⟩
  | bitNegate =>
    rw [resultType, hview] at ht
    cases ht
    exact ⟨hnone Nat.zero_ne_one, rfl⟩
  | logicalNegate | castBit => cases ht; exact ⟨hnone Nat.zero_ne_one, rfl⟩
  | castInt dest => cases ht; exact ⟨hnone Nat.zero_ne_one, rfl⟩
  | castFloat dest => cases ht
  | extend fill bits =>
    simp only [resultType, hview] at ht
    refine ⟨hnone Nat.zero_ne_one, ?_, ofWidth_map_eq ht⟩
    rcases Nat.eq_zero_or_pos bits with rfl | hpos
    · simp [IsChecked, checkedExtend] at hc
    · exact hpos
  | reduce low high =>
    simp only [resultType, hview] at ht
    split at ht
    · next hle => exact ⟨hnone Nat.zero_ne_one, hle.1, hle.2, ofWidth_map_eq ht⟩
    · cases ht
  | compare c | connective c =>
    simp only [resultType] at ht
    split at ht
    · next harg =>
      cases ht
      refine ⟨?_, rfl⟩
      cases arg <;> simp_all
    · cases ht
  | plus | minus | times | divide | modulo | extremum e =>
    simp only [resultType] at ht
    split at ht
    · next harg =>
      cases ht
      refine ⟨?_, rfl⟩
      cases arg <;> simp_all
    · cases ht
  | bitwise b =>
    simp only [resultType] at ht
    split at ht
    · next harg =>
      cases ht
      refine ⟨?_, rfl⟩
      cases arg <;> simp_all
    · cases ht
  | shift d | rotate d =>
    simp only [resultType] at ht
    split at ht
    · cases ht
      exact ⟨ho.mpr rfl, rfl⟩
    · cases ht
  | concat =>
    obtain ⟨u, rfl⟩ := Option.isSome_iff_exists.mp (ho.mpr rfl)
    simp only [resultType, Option.map_some, Option.bind_some, hview] at ht
    obtain ⟨t, h1, h2, h3⟩ := ofWidth_map_eq ht
    exact ⟨u, t, rfl, h1, h2, h3⟩
  | bitSet low high =>
    obtain ⟨u, rfl⟩ := Option.isSome_iff_exists.mp (ho.mpr rfl)
    simp only [resultType, Option.map_some, Option.bind_some, hview] at ht
    split at ht
    · next hle =>
      cases ht
      exact ⟨u, rfl, rfl, hle⟩
    · cases ht

end Operation

/-! ### Integer forms of the operations on patterns -/

/-- On `n` bits, flipping every bit is the distance from the largest pattern. -/
theorem two_pow_sub_one_xor {n p : ℕ} (h : p < 2 ^ n) : (2 ^ n - 1) ^^^ p = 2 ^ n - 1 - p := by
  have hxor := BitVec.toNat_not (x := BitVec.ofNatLT p h)
  rw [← BitVec.allOnes_xor, BitVec.toNat_xor, BitVec.toNat_allOnes] at hxor
  simpa using hxor

namespace IntType

variable {t u : IntType} {a b v : ℤ}

/-- The pattern of a natural value is the value. -/
theorem pattern_of_nonneg (h : t.contains v = true) (hv : 0 ≤ v) : (t.pattern v : ℤ) = v := by
  rw [pattern_cast, toBits_of_nonneg h hv]

/-- The pattern of a negative value lies one modulus above it. -/
theorem pattern_of_neg (h : t.contains v = true) (hv : v < 0) :
    (t.pattern v : ℤ) = v + t.modulus := by
  rw [pattern_cast, toBits_of_neg h hv]

theorem modulus_cast (t : IntType) : t.modulus = ((2 ^ t.width : ℕ) : ℤ) := rfl

/-- Every pattern below the modulus is the pattern of the value that it reads as. -/
theorem pattern_ofPattern {p : ℕ} (h : p < 2 ^ t.width) : t.pattern (t.ofPattern p) = p := by
  have hp : (p : ℤ) < t.modulus := by
    rw [modulus_cast]
    exact_mod_cast h
  rw [pattern, ofPattern, toBits_ofBits (Int.natCast_nonneg p) hp, Int.toNat_natCast]

/-- A value is read back from its pattern as a natural number. -/
theorem ofPattern_pattern (h : t.contains v = true) : t.ofPattern (t.pattern v) = v := by
  rw [ofPattern, pattern_cast, ofBits_toBits h]

/-! #### Complement -/

/-- Flipping all bits is the complement of the value. -/
theorem read_not (t : IntType) (v : ℤ) : t.read (~~~ t.bits v) = t.complement v := by
  rw [read_eq_ofBits, BitVec.toNat_not, toNat_bits, complement, ofPattern, twoPow_eq,
    two_pow_sub_one_xor (t.pattern_lt v)]

/-- Flipping every bit turns the type around its middle. -/
theorem complement_eq (h : t.contains v = true) :
    t.complement v = t.minValue + t.maxValue - v := by
  have hlt := t.pattern_lt v
  have hp : ((2 ^ t.width - 1 - t.pattern v : ℕ) : ℤ) = t.modulus - 1 - t.pattern v := by
    have := t.modulus_cast
    omega
  have hm := t.modulus_eq_two_mul
  rw [complement, twoPow_eq, two_pow_sub_one_xor hlt, ofPattern, hp, pattern_cast]
  have hc := toBits_cases h
  rw [contains_iff] at h
  rcases t.ofBits_cases (t.modulus - 1 - t.toBits v) with ⟨h1, he⟩ | ⟨h1, h2, he⟩ <;>
    rcases t.layout with ⟨hs, h3, h4⟩ | ⟨hs, h3, h4⟩ <;> simp [hs] at h1 <;> omega

/-! #### Extensions -/

/-- Zero extension into a wider type keeps the unsigned value. -/
theorem read_setWidth {wide : IntType} (h : t.width < wide.width) (v : ℤ) :
    wide.read ((t.bits v).setWidth wide.width) = t.toBits v := by
  have hhalf : t.modulus ≤ wide.half := pow2_mono (by omega)
  have hlt := t.toBits_lt v
  rw [read_eq_ofBits, BitVec.toNat_setWidth_of_le h.le, toNat_bits, pattern_cast]
  rcases wide.ofBits_cases (t.toBits v) with ⟨-, he⟩ | ⟨-, h2, -⟩
  · exact he
  · omega

/-- Sign extension keeps the value that the signed type of the same width reads. -/
theorem read_signExtend (t wide : IntType) (v : ℤ) :
    wide.read ((t.bits v).signExtend wide.width) =
      wide.wrap ((t.withSigned true).ofBits (t.toBits v)) := by
  have h : (t.bits v).toInt = (t.withSigned true).ofBits (t.bits v).toNat :=
    (t.withSigned true).read_eq_ofBits (t.bits v)
  rw [BitVec.signExtend, read_ofInt, h, toNat_bits, pattern_cast]

/-! #### Fields -/

/-- A field of the bits is a quotient and a remainder of the pattern. -/
theorem toNat_extract (t : IntType) (low count : ℕ) (v : ℤ) :
    (((t.bits v).extractLsb' low count).toNat : ℤ) = t.toBits v / pow2 low % pow2 count := by
  rw [BitVec.extractLsb'_toNat, toNat_bits, Nat.shiftRight_eq_div_pow, pow2_cast, pow2_cast,
    ← pattern_cast]
  push_cast
  rfl

/-- Appending bits is a weighted sum of the patterns. -/
theorem toNat_append (t u : IntType) (a b : ℤ) :
    ((t.bits a ++ u.bits b).toNat : ℤ) = t.toBits a * pow2 u.width + u.toBits b := by
  rw [BitVec.toNat_append, toNat_bits, toNat_bits,
    ← Nat.shiftLeft_add_eq_or_of_lt (u.pattern_lt b), Nat.shiftLeft_eq, ← pattern_cast,
    ← pattern_cast, pow2_cast]
  push_cast
  rfl

/-! #### Shifts and rotations -/

/-- A shift to the left multiplies by a power of two and wraps around. -/
theorem read_shiftLeft (t : IntType) (v : ℤ) (k : ℕ) :
    t.read (t.bits v <<< k) = t.wrap (v * pow2 k) := by
  have hp : ((t.pattern v <<< k % 2 ^ t.width : ℕ) : ℤ) = t.toBits (v * pow2 k) := by
    rw [Nat.shiftLeft_eq, toBits, modulus_cast, pow2_cast]
    push_cast
    rw [pattern_cast, toBits, modulus_cast]
    push_cast
    rw [Int.mul_emod, Int.emod_emod, ← Int.mul_emod]
  rw [read_eq_ofBits, BitVec.toNat_shiftLeft, toNat_bits, hp, wrap]

/-- A shift to the right divides by a power of two and rounds down: the sign bit moves in for signed
types, and zeros for unsigned ones. -/
theorem read_shiftRight (h : t.contains v = true) (k : ℕ) :
    t.read (if t.signed then (t.bits v).sshiftRight k else t.bits v >>> k) = v / pow2 k := by
  have hr := read_bits h
  simp only [read] at hr ⊢
  cases hs : t.signed with
  | true =>
    simp only [hs, if_true] at hr ⊢
    rw [BitVec.toInt_sshiftRight, hr, Int.shiftRight_eq_div_pow, pow2_cast]
  | false =>
    simp only [hs, Bool.false_eq_true, if_false] at hr ⊢
    rw [BitVec.toNat_ushiftRight, Nat.shiftRight_eq_div_pow, pow2_cast]
    push_cast
    rw [hr]

/-- A rotation of the bits to the left, by an amount below the width. -/
theorem read_rotateLeft (h : t.contains v = true) {k : ℕ} (hk : k < t.width) :
    t.read ((t.bits v).rotateLeft k) = t.rotateLeft v k := by
  rw [rotateLeft]
  split
  · next h0 =>
    have hlt : t.pattern v >>> t.width = 0 := Nat.shiftRight_eq_zero _ _ (t.pattern_lt v)
    rw [read_eq_ofBits, BitVec.toNat_rotateLeft, toNat_bits, h0, Nat.zero_mod, Nat.shiftLeft_zero,
      Nat.sub_zero, hlt, Nat.or_zero, Nat.mod_eq_of_lt (t.pattern_lt v), pattern_cast,
      ofBits_toBits h]
  · next h0 =>
    have hlt : t.pattern v >>> (t.width - k) < 2 ^ t.width :=
      lt_of_le_of_lt (Nat.shiftRight_le _ _) (t.pattern_lt v)
    change _ = t.ofBits ((t.pattern v <<< k ||| t.pattern v >>> (t.width - k)) % 2 ^ t.width : ℕ)
    rw [read_eq_ofBits, BitVec.toNat_rotateLeft, toNat_bits, Nat.mod_eq_of_lt hk,
      Nat.or_mod_two_pow, Nat.mod_eq_of_lt hlt]

/-- A rotation to the right is one to the left by the rest of the width. -/
theorem read_rotateRight (h : t.contains v = true) {k : ℕ} (hk : k < t.width) :
    t.read ((t.bits v).rotateRight k) = t.rotateLeft v ((t.width - k) % t.width) := by
  rcases Nat.eq_zero_or_pos k with rfl | hpos
  · rw [Nat.sub_zero, Nat.mod_self, ← read_rotateLeft h hk]
    congr 1
    refine BitVec.eq_of_toNat_eq ?_
    rw [BitVec.toNat_rotateLeft, BitVec.toNat_rotateRight, Nat.zero_mod, Nat.or_comm]
    simp [Nat.shiftRight_eq_div_pow, Nat.shiftLeft_eq, Nat.div_eq_of_lt (t.bits v).isLt]
  · have hlt : t.width - k < t.width := by omega
    rw [Nat.mod_eq_of_lt hlt, ← read_rotateLeft h hlt]
    congr 1
    refine BitVec.eq_of_toNat_eq ?_
    rw [BitVec.toNat_rotateLeft, BitVec.toNat_rotateRight, Nat.mod_eq_of_lt hk,
      Nat.mod_eq_of_lt hlt, Nat.or_comm, show t.width - (t.width - k) = k by omega]

/-! #### Connectives -/

/-- A connective of the bits is the connective of the patterns. -/
theorem read_onBits (c : Bitwise) (t : IntType) (a b : ℤ) :
    t.read (c.onBits (t.bits a) (t.bits b)) =
      t.ofPattern (c.combine (t.pattern a) (t.pattern b)) := by
  rw [read_eq_ofBits, ofPattern]
  cases c <;> simp [Bitwise.onBits, Bitwise.combine, toNat_bits]

/-! #### Overwritten fields -/

/-- The bits outside `[low, high)`, as a part above and a part below the field. -/
theorem cleared_eq (t : IntType) (v : ℤ) {low high : ℕ} (hl : low ≤ high) (hh : high ≤ t.width) :
    t.cleared v low high = t.pattern v / 2 ^ high * 2 ^ high + t.pattern v % 2 ^ low := by
  have hlt : t.pattern v % 2 ^ low < 2 ^ high :=
    lt_of_lt_of_le (Nat.mod_lt _ (by positivity)) (Nat.pow_le_pow_right (by norm_num) hl)
  have hp := t.pattern_lt v
  rw [← Nat.shiftLeft_eq, Nat.shiftLeft_add_eq_or_of_lt hlt, cleared, twoPow_eq, twoPow_eq]
  refine Nat.eq_of_testBit_eq fun i => ?_
  simp only [Nat.testBit_and, Nat.testBit_xor, Nat.testBit_or, Nat.testBit_shiftLeft,
    Nat.testBit_mod_two_pow, Nat.testBit_div_two_pow, Nat.testBit_two_pow_sub_one]
  rcases lt_or_ge i low with h1 | h1
  · have h2 : ¬ low ≤ i := by omega
    have h3 : ¬ high ≤ i := by omega
    have h4 : i < t.width := by omega
    simp [h1, h2, h3, h4]
  · rcases lt_or_ge i high with h2 | h2
    · have h3 : ¬ high ≤ i := by omega
      have h4 : ¬ i < low := by omega
      have h5 : i < t.width := by omega
      have h6 : i - low < high - low := by omega
      simp [h1, h3, h4, h5, h6]
    · have h3 : ¬ i < low := by omega
      have h4 : ¬ i - low < high - low := by omega
      rcases lt_or_ge i t.width with h5 | h5
      · simp [h2, h3, h4, h5]
      · have h6 : (t.pattern v).testBit i = false :=
          Nat.testBit_lt_two_pow (lt_of_lt_of_le hp (Nat.pow_le_pow_right (by norm_num) h5))
        simp [h2, h3, h6]

/-- A field put into cleared bits is added to them. -/
theorem cleared_or_shiftLeft (t : IntType) (v : ℤ) {low high q : ℕ} (hl : low ≤ high)
    (hh : high ≤ t.width) (hq : q < 2 ^ (high - low)) :
    t.cleared v low high ||| q <<< low = t.cleared v low high + q * 2 ^ low := by
  have hlow : t.pattern v % 2 ^ low < 2 ^ low := Nat.mod_lt _ (by positivity)
  have hpow : 2 ^ high = 2 ^ (high - low) * 2 ^ low := by rw [← pow_add]; congr 1; omega
  have hlt : q <<< low ||| t.pattern v % 2 ^ low < 2 ^ high := by
    rw [← Nat.shiftLeft_add_eq_or_of_lt hlow, Nat.shiftLeft_eq, hpow]
    calc q * 2 ^ low + t.pattern v % 2 ^ low < q * 2 ^ low + 2 ^ low := by omega
      _ = (q + 1) * 2 ^ low := by ring
      _ ≤ 2 ^ (high - low) * 2 ^ low := Nat.mul_le_mul_right _ (by omega)
  have hlt' : t.pattern v % 2 ^ low < 2 ^ high :=
    lt_of_lt_of_le hlow (Nat.pow_le_pow_right (by norm_num) hl)
  rw [cleared_eq t v hl hh, ← Nat.shiftLeft_eq, Nat.shiftLeft_add_eq_or_of_lt hlt', Nat.or_assoc,
    Nat.or_comm (t.pattern v % 2 ^ low), ← Nat.shiftLeft_add_eq_or_of_lt hlt,
    ← Nat.shiftLeft_add_eq_or_of_lt hlt', ← Nat.shiftLeft_add_eq_or_of_lt hlow,
    Nat.shiftLeft_eq q]
  omega

/-- Overwriting a field of the bits clears it in the pattern and puts the shifted patch there. -/
theorem read_overwrite (t u : IntType) (a b : ℤ) {low high : ℕ} (hl : low < high)
    (hh : high ≤ t.width) (hu : u.width = high - low) :
    t.read (overwrite (t.bits a) low ((u.bits b).setWidth (high - low))) =
      t.ofPattern (t.cleared a low high ||| u.pattern b <<< low) := by
  have hfit : ∀ q : ℕ, q < 2 ^ (high - low) → q < 2 ^ t.width ∧ q <<< low < 2 ^ t.width := by
    intro q hq
    have hpow : 2 ^ (high - low) * 2 ^ low ≤ 2 ^ t.width := by
      rw [← pow_add]
      exact Nat.pow_le_pow_right (by norm_num) (by omega)
    have hle : 2 ^ (high - low) ≤ 2 ^ t.width := Nat.pow_le_pow_right (by norm_num) (by omega)
    refine ⟨lt_of_lt_of_le hq hle, lt_of_lt_of_le ?_ hpow⟩
    rw [Nat.shiftLeft_eq]
    exact Nat.mul_lt_mul_of_pos_right hq (by positivity)
  have hb : u.pattern b < 2 ^ (high - low) := hu ▸ u.pattern_lt b
  obtain ⟨hb1, hb2⟩ := hfit _ hb
  have hone : 2 ^ (high - low) - 1 < 2 ^ (high - low) := by
    have := Nat.two_pow_pos (high - low)
    omega
  obtain ⟨hm1, hm2⟩ := hfit _ hone
  rw [read_eq_ofBits, ofPattern, overwrite, cleared, twoPow_eq, twoPow_eq]
  simp only [BitVec.toNat_or, BitVec.toNat_and, BitVec.toNat_not, BitVec.toNat_shiftLeft,
    BitVec.toNat_setWidth, BitVec.toNat_allOnes, toNat_bits]
  rw [Nat.mod_eq_of_lt hb, Nat.mod_eq_of_lt hb1, Nat.mod_eq_of_lt hb2, Nat.mod_eq_of_lt hm1,
    Nat.mod_eq_of_lt hm2, two_pow_sub_one_xor hm2]

end IntType

end ScalarDomain
