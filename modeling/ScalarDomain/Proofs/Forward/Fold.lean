import ScalarDomain.Proofs.Forward.Delivery

/-!
# Constants are executed

The transfer of two constants is the execution of the operation: `Step.foldWord` delivers exactly
the values that the execution may end with (`Step.foldWord_equals`). Operations on patterns go
through the integer forms of the bit vectors.
-/

namespace ScalarDomain

namespace IntType

variable {t : IntType} {v : ℤ}

/-- The values of an unsigned type of a known width. -/
theorem contains_of_unsigned {n : ℕ} (hw : t.width = n) (hs : t.signed = false) (h0 : 0 ≤ v)
    (h1 : v < pow2 n) : t.contains v = true := by
  subst hw
  exact ofBits_of_unsigned (t := t) (p := v) hs ▸ contains_ofBits h0 h1

/-- A natural number of the width of an unsigned type is a value of it. -/
theorem contains_toNat_of_unsigned {n : ℕ} (hw : t.width = n) (hs : t.signed = false)
    (x : BitVec n) : t.contains (x.toNat : ℤ) = true := by
  refine contains_of_unsigned hw hs (Int.natCast_nonneg _) ?_
  rw [pow2_cast]
  exact_mod_cast x.isLt

/-- A remainder is a value of the type, as it is no larger than the dividend. -/
theorem contains_tmod {a : ℤ} (h : t.contains a = true) (b : ℤ) :
    t.contains (a.tmod b) = true := by
  have hz := t.contains_zero
  have hle : (a.tmod b).natAbs ≤ a.natAbs := by
    rw [Int.natAbs_tmod]
    exact Nat.mod_le _ _
  rcases le_total 0 a with ha | ha
  · exact contains_of_between hz h (Int.tmod_nonneg b ha) (by omega)
  · have h1 := Int.tmod_nonneg b (a := -a) (by omega)
    rw [Int.neg_tmod] at h1
    exact contains_of_between h hz (by omega) (by omega)

end IntType

namespace Step

open Outcome

variable {stops : Bool} {op : Operation} {w out : WordType} {arg : Option WordType} {a b : ℤ}

/-- A stored result, as a step and as an outcome. -/
private theorem wrapping_equals (m : ℤ) :
    (overflowing stops out (.point m) true).delivery.Equals out
      ((stored stops out.view m).values out.view) := by
  have hd : (overflowing stops out (.point m) true).delivery.Describes out
      ((stored stops out.view m).values out.view) := by
    refine overflowing_describes (fun v hv => ⟨m, Bounds.mem_point.mpr rfl, hv⟩)
      fun _ n hn v hv => ?_
    rw [Bounds.mem_point] at hn
    exact hn ▸ hv
  refine ⟨hd.covers, ?_⟩
  have htight := hd.tight
  revert htight
  rw [overflowing]
  split
  · exact fun htight => htight rfl
  cases stops with
  | true => exact fun htight => htight rfl
  | false =>
    intro _
    -- a wrapped result is one value, although the step is not called exact
    have hpos : ¬out.view.modulus ≤ m - m + 1 := by
      have := out.view.modulus_eq_two_mul
      have := out.view.half_pos
      omega
    simp only [Bool.false_eq_true, if_false, Bounds.point, if_neg hpos, le_refl, if_true]
    intro v hv
    exact mem_values_stored_false.mpr (le_antisymm hv.2 hv.1)

private theorem ofBool_equals {c : Bool} {S : Set ℤ} (h : ∀ v, v ∈ S ↔ v = if c then 1 else 0) :
    (ofBool c).delivery.Equals .bit S :=
  ⟨(ofBool_describes h).covers, (ofBool_describes h).tight rfl⟩

/-- A truth value is delivered as it is. -/
private theorem truth_equals (c : Bool) :
    (ofBool c).delivery.Equals .bit ((Outcome.truth c).values (WordType.bit).view) :=
  ofBool_equals fun _ => mem_values_truth

/-- A failure delivers any value if errors do not end the execution, and nothing otherwise. -/
private theorem failure_equals (kind : ErrorKind) :
    (failure stops kind out).delivery.Equals out ((failed stops).values out.view) := by
  cases stops with
  | true => exact ⟨rfl, trivial⟩
  | false =>
    exact ⟨(anyWord_describes fun v hv => hv).covers, fun v hv => Bounds.mem_full.mp hv⟩

/-- A value and the integer form it has. -/
private theorem single_equals {u v : ℤ} (hu : out.view.contains u = true) (h : u = v) :
    (words out (.point v) true).delivery.Equals out ((value u).values out.view) := by
  subst h
  have hd := point_describes (S := (value u).values out.view) hu fun v => mem_values_value
  exact ⟨hd.covers, hd.tight rfl⟩

/-- The transfer of two constants delivers exactly what the execution may end with. -/
theorem foldWord_equals (stops : Bool) (h : op.Accepts w arg out) (ha : w.view.contains a = true)
    (hb : ∀ u, arg = some u → u.view.contains b = true) :
    (foldWord stops op w (arg.getD w) (.word out) a b).delivery.Equals out
      ((op.execute stops w.view (arg.getD w).view out.view a b).values out.view) := by
  have hf := h.fits
  cases op with
  | prev | next | opposite | plus | minus | times => exact wrapping_equals _
  | castInt dest => exact wrapping_equals _
  | bitNegate =>
    obtain ⟨-, rfl⟩ := hf
    exact single_equals (IntType.contains_read _ _) (IntType.read_not _ _)
  | logicalNegate | castBit =>
    obtain ⟨-, rfl⟩ := hf
    refine ofBool_equals fun v => mem_values_truth.trans ?_
    by_cases h0 : a = 0 <;> simp [h0]
  | castFloat dest => exact hf.elim
  | extend fill bits =>
    obtain ⟨-, hpos, t, rfl, ht, -⟩ := hf
    have hlt : w.view.width < t.width := by omega
    cases fill with
    | zero =>
      exact single_equals (IntType.contains_read _ _) (IntType.read_setWidth hlt a)
    | sign => exact single_equals (IntType.contains_read _ _) (IntType.read_signExtend _ _ _)
  | reduce low high =>
    obtain ⟨-, -, -, t, rfl, ht, hs⟩ := hf
    refine single_equals (IntType.contains_toNat_of_unsigned ht hs _) ?_
    rw [IntType.toNat_extract, floorDiv_eq_ediv (pow2_pos low)]
  | compare c =>
    obtain ⟨-, rfl⟩ := hf
    exact truth_equals _
  | divide =>
    simp only [foldWord, Operation.execute]
    split
    · exact failure_equals _
    · exact wrapping_equals _
  | modulo =>
    obtain ⟨-, rfl⟩ := hf
    simp only [foldWord, Operation.execute]
    split
    · exact failure_equals _
    · exact single_equals (IntType.contains_tmod ha b) rfl
  | extremum e =>
    obtain ⟨hu, rfl⟩ := hf
    have hb := hb _ hu
    cases e with
    | min =>
      refine single_equals ?_ rfl
      rcases min_choice a b with hm | hm <;> rwa [hm]
    | max =>
      refine single_equals ?_ rfl
      rcases max_choice a b with hm | hm <;> rwa [hm]
  | bitwise c =>
    obtain ⟨-, rfl⟩ := hf
    exact single_equals (IntType.contains_read _ _) (IntType.read_onBits _ _ _ _)
  | shift d =>
    obtain ⟨-, rfl⟩ := hf
    simp only [foldWord, Operation.execute, shiftAmount?]
    by_cases hk : 0 ≤ b ∧ b < out.view.width
    · rw [if_pos hk, if_pos hk]
      cases d with
      | left => exact single_equals (IntType.contains_read _ _) (IntType.read_shiftLeft _ _ _)
      | right =>
        refine single_equals (IntType.contains_read _ _) ?_
        rw [IntType.read_shiftRight ha, floorDiv_eq_ediv (pow2_pos _)]
    · rw [if_neg hk, if_neg hk]
      exact failure_equals _
  | rotate d =>
    obtain ⟨-, rfl⟩ := hf
    have hpos : 0 < (out.view.width : ℤ) := by exact_mod_cast out.view.one_le_width
    have hk : (b % out.view.width).toNat < out.view.width := by
      have := Int.emod_lt_of_pos b hpos
      have := Int.emod_nonneg b hpos.ne'
      omega
    cases d with
    | left =>
      exact single_equals (IntType.contains_read _ _) (IntType.read_rotateLeft ha hk)
    | right =>
      exact single_equals (IntType.contains_read _ _) (IntType.read_rotateRight ha hk)
  | connective c =>
    obtain ⟨-, rfl⟩ := hf
    have hne : ∀ c : ℤ, (c != 0) = decide (c ≠ 0) := fun c => Bool.eq_iff_iff.mpr (by simp)
    simp only [foldWord, hne]
    exact truth_equals _
  | concat =>
    obtain ⟨u, t, rfl, rfl, ht, hs⟩ := hf
    exact single_equals (IntType.contains_toNat_of_unsigned ht hs _)
      (IntType.toNat_append _ _ _ _)
  | bitSet low high =>
    obtain ⟨u, rfl, rfl, hl, hh, hu⟩ := hf
    exact single_equals (IntType.contains_read _ _) (IntType.read_overwrite _ _ _ _ hl hh hu)

end Step

namespace Operation

variable {stops : Bool} {op : Operation} {w out : WordType} {arg : Option WordType} {a b v : ℤ}

/-- Executions end with values of the result type. -/
theorem contains_of_mem_execute (h : op.Accepts w arg out) (ha : w.view.contains a = true)
    (hb : ∀ u, arg = some u → u.view.contains b = true)
    (hv : v ∈ (op.execute stops w.view (arg.getD w).view out.view a b).values out.view) :
    out.view.contains v = true := by
  have hd := (Step.foldWord_equals stops h ha hb).covers
  cases hs : (Step.foldWord stops op w (arg.getD w) (.word out) a b).delivery with
  | nothing =>
    rw [hs] at hd
    exact absurd hv (hd ▸ Set.notMem_empty v)
  | words ty r exact =>
    rw [hs] at hd
    have hr := hd.2.2 v hv
    exact (hd.2.1 (hr.1.trans hr.2)).contains hr
  | floats ty s exact =>
    rw [hs] at hd
    exact hd.elim

end Operation

end ScalarDomain
