import ScalarDomain.Proofs.Forward.Bitwise
import ScalarDomain.Proofs.Forward.Comparison
import ScalarDomain.Proofs.Forward.Field

/-!
# The transfer of a range

All transfer steps of a range together: `Step.ofRange` covers the results of every accepted
operation, and it is tight where it is called exact. Two of its exactness tests look at the ends of
the second operand only; what they miss is said by `Step.Gapless`.
-/

namespace ScalarDomain

/-- The second operand of a transfer stands for a set of values; a missing one for the dummy `0`. -/
def WordOperand.Represents (arg : Option WordType) (argument : Option WordOperand)
    (Y : Set ℤ) : Prop :=
  match arg, argument with
  | none, none => Y = {0}
  | some u, some o => o.Abstracts u.view Y
  | _, _ => False

namespace Step

variable {stops : Bool} {op : Operation} {w out : WordType} {arg : Option WordType} {r : Range}
  {argument : Option WordOperand} {Y : Set ℤ}

/-- The gaps of the second operand do not matter: a shift to the right by amounts on both sides of
zero has the amount zero among them when no other is valid, and one value is only concatenated with
an operand without gaps. -/
structure Gapless (stops : Bool) (op : Operation) (w : WordType) (r : Range)
    (argument : Option WordOperand) (Y : Set ℤ) : Prop where
  /-- The only valid amount of a shift is an amount. -/
  shift : op = .shift .right → ∀ o, argument = some o → stops = true → w.view.width = 1 →
    o.range.lo < 0 → 0 < o.range.hi → 0 ∈ Y
  /-- One value is concatenated with a convex operand. -/
  concat : op = .concat → ∀ o, argument = some o → r.lo = r.hi → o.convex = true

/-- The transfer of a range covers the results of all executions, and is tight if the gaps of the
second operand do not matter. -/
theorem ofRange_describes (stops : Bool) (h : op.Accepts w arg out) (hr : r.Proper w.view)
    (hy : WordOperand.Represents arg argument Y) :
    (ofRange stops op w (.word out) r argument).delivery.Covers out
      (op.results stops w.view (arg.getD w).view out.view r.toSet Y) ∧
    (Gapless stops op w r argument Y →
      (ofRange stops op w (.word out) r argument).delivery.IsTight
        (op.results stops w.view (arg.getD w).view out.view r.toSet Y)) := by
  have hf := h.fits
  have hb : ∀ b ∈ Y, ∀ u, arg = some u → u.view.contains b = true := by
    rintro b hb u rfl
    cases argument with
    | none => exact hy.elim
    | some o => exact hy.proper.contains (hy.mem b hb)
  have hany : ∀ v ∈ op.results stops w.view (arg.getD w).view out.view r.toSet Y,
      out.view.contains v = true := by
    rintro v ⟨a, ha, b, hbY, hv⟩
    exact Operation.contains_of_mem_execute h (hr.contains ha) (hb b hbY) hv
  have hpair : ∀ {d : Delivery} {S : Set ℤ}, d.Describes out S →
      d.Covers out S ∧ (Gapless stops op w r argument Y → d.IsTight S) :=
    fun hd => ⟨hd.covers, fun _ => hd.tight⟩
  have hunary : arg = none → argument = none ∧ Y = {0} := by
    rintro rfl
    cases argument with
    | none => exact ⟨rfl, hy⟩
    | some o => exact hy.elim
  have hbinary : ∀ u, arg = some u → ∃ o, argument = some o ∧ o.Abstracts u.view Y := by
    rintro u rfl
    cases argument with
    | none => exact hy.elim
    | some o => exact ⟨o, rfl, hy⟩
  cases op with
  | prev =>
    obtain ⟨rfl, rfl⟩ := hf
    obtain ⟨rfl, rfl⟩ := hunary rfl
    exact hpair prev_describes
  | next =>
    obtain ⟨rfl, rfl⟩ := hf
    obtain ⟨rfl, rfl⟩ := hunary rfl
    exact hpair next_describes
  | opposite =>
    obtain ⟨rfl, rfl⟩ := hf
    obtain ⟨rfl, rfl⟩ := hunary rfl
    exact hpair opposite_describes
  | bitNegate =>
    obtain ⟨rfl, rfl⟩ := hf
    obtain ⟨rfl, rfl⟩ := hunary rfl
    exact hpair (bitNegate_describes hr)
  | logicalNegate =>
    obtain ⟨rfl, rfl⟩ := hf
    obtain ⟨rfl, rfl⟩ := hunary rfl
    refine hpair (zeroTest_describes (Summary.isOf_ofRange w.view hr.le) ⟨r.lo, hr.lo_mem_self⟩
      fun v => ⟨?_, ?_⟩)
    · rintro ⟨a, ha, b, -, hv⟩
      exact ⟨a, ha, by simpa [Operation.execute] using hv⟩
    · rintro ⟨a, ha, hv⟩
      exact ⟨a, ha, 0, rfl, by simpa [Operation.execute] using hv⟩
  | castBit =>
    obtain ⟨rfl, rfl⟩ := hf
    obtain ⟨rfl, rfl⟩ := hunary rfl
    refine hpair (zeroTest_describes (Summary.isOf_ofRange w.view hr.le) ⟨r.lo, hr.lo_mem_self⟩
      fun v => ⟨?_, ?_⟩)
    · rintro ⟨a, ha, b, -, hv⟩
      exact ⟨a, ha, by simpa [Operation.execute] using hv⟩
    · rintro ⟨a, ha, hv⟩
      exact ⟨a, ha, 0, rfl, by simpa [Operation.execute] using hv⟩
  | castInt dest =>
    obtain ⟨rfl, rfl⟩ := hf
    obtain ⟨rfl, rfl⟩ := hunary rfl
    exact hpair castInt_describes
  | castFloat dest => exact hf.elim
  | extend fill bits =>
    obtain ⟨rfl, hpos, t, rfl, ht, hs⟩ := hf
    obtain ⟨rfl, rfl⟩ := hunary rfl
    exact hpair (extend_describes hr (by omega) hs)
  | reduce low high =>
    obtain ⟨rfl, -, -, t, rfl, ht, hs⟩ := hf
    obtain ⟨rfl, rfl⟩ := hunary rfl
    exact hpair (reduce_describes hr ht hs)
  | compare c =>
    obtain ⟨rfl, rfl⟩ := hf
    obtain ⟨o, rfl, hy⟩ := hbinary w rfl
    exact hpair (compare_describes hr.le hy)
  | plus =>
    obtain ⟨rfl, rfl⟩ := hf
    obtain ⟨o, rfl, hy⟩ := hbinary _ rfl
    exact hpair (plus_describes hr.le hy)
  | minus =>
    obtain ⟨rfl, rfl⟩ := hf
    obtain ⟨o, rfl, hy⟩ := hbinary _ rfl
    exact hpair (minus_describes hr.le hy)
  | times =>
    obtain ⟨rfl, rfl⟩ := hf
    obtain ⟨o, rfl, hy⟩ := hbinary _ rfl
    exact hpair (times_describes hr hy)
  | divide =>
    obtain ⟨rfl, rfl⟩ := hf
    obtain ⟨o, rfl, hy⟩ := hbinary _ rfl
    exact hpair (divide_describes hy hany)
  | modulo =>
    obtain ⟨rfl, rfl⟩ := hf
    obtain ⟨o, rfl, hy⟩ := hbinary _ rfl
    exact hpair (modulo_describes hr hy hany)
  | extremum e =>
    obtain ⟨rfl, rfl⟩ := hf
    obtain ⟨o, rfl, hy⟩ := hbinary _ rfl
    cases e with
    | min => exact hpair (min_describes hr hy)
    | max => exact hpair (max_describes hr hy)
  | bitwise c =>
    obtain ⟨rfl, rfl⟩ := hf
    obtain ⟨o, rfl, hy⟩ := hbinary _ rfl
    cases c with
    | and => exact hpair (and_describes hr hy hany)
    | or => exact hpair (or_describes hr hy hany)
    | xor => exact hpair (xor_describes hr hy hany)
  | shift d =>
    obtain ⟨hsome, rfl⟩ := hf
    obtain ⟨u, rfl⟩ := Option.isSome_iff_exists.mp hsome
    obtain ⟨o, rfl, hy⟩ := hbinary u rfl
    cases d with
    | left => exact hpair (shift_left_describes hr hy hany)
    | right =>
      exact ⟨shift_right_covers hr hy.mem hany,
        fun hg => shift_right_tight hr hy (hg.shift rfl o rfl)⟩
  | rotate d =>
    obtain ⟨hsome, rfl⟩ := hf
    obtain ⟨u, rfl⟩ := Option.isSome_iff_exists.mp hsome
    obtain ⟨o, rfl, hy⟩ := hbinary u rfl
    exact hpair (rotate_describes hr hy hany)
  | connective c =>
    obtain ⟨rfl, rfl⟩ := hf
    obtain ⟨o, rfl, hy⟩ := hbinary w rfl
    exact hpair (connective_describes (Summary.isOf_ofRange w.view hr.le) hy.summary
      ⟨r.lo, hr.lo_mem_self⟩ ⟨_, hy.lo_mem⟩)
  | concat =>
    obtain ⟨u, t, rfl, rfl, ht, hs⟩ := hf
    obtain ⟨o, rfl, hy⟩ := hbinary u rfl
    exact ⟨concat_covers hr hy ht hs, fun hg => concat_tight hr hy (hg.concat rfl o rfl)⟩
  | bitSet low high =>
    obtain ⟨u, rfl, rfl, hl, hh, hu⟩ := hf
    obtain ⟨o, rfl, hy⟩ := hbinary u rfl
    exact hpair (bitSet_describes hy hl hh hu hany)

end Step

end ScalarDomain
