import ScalarDomain.Proofs.Forward.Flags
import ScalarDomain.Proofs.Lattice.Laws

/-!
# Constants are folded as a machine computes

Two constants are folded into the value whose bits a machine of fixed width computes from theirs.
`Operation.machine?` is that machine: addition, multiplication and negation of bit vectors, signed
or unsigned division, shifts, rotations, fields and extensions, with no integer in sight but the
amount of a shift. Executions are said on integers where an operation has a mathematical result, so
the argument has two halves: the bits of a sum, product, quotient or remainder are those of the
machine (`IntType.bits_add` and the lemmas after it), and the transfer of two constants ends as
their execution does (`Element.apply_constants`).
-/

namespace ScalarDomain

/-! ### Machine operations -/

/-- A comparison of two patterns, as signed or as unsigned numbers. -/
def Comparison.onBits {n : ℕ} (c : Comparison) (signed : Bool) (x y : BitVec n) : Bool :=
  match c with
  | less => if signed then x.slt y else x.ult y
  | lessOrEqual => if signed then x.sle y else x.ule y
  | equal => x == y
  | different => x != y
  | greaterOrEqual => if signed then y.sle x else y.ule x
  | greater => if signed then y.slt x else y.ult x

namespace Operation

/-- What a machine makes of a pattern `x` of type `t` and a pattern `y` of type `u`, for a result of
type `out`. There is nothing for a divisor zero, for a shift by a negative amount or by the whole
width, and for conversions to floats. Where types agree, a change of width changes nothing. -/
def machine? (op : Operation) (t u out : IntType) (x : BitVec t.width) (y : BitVec u.width) :
    Option (BitVec out.width) :=
  let same : BitVec t.width := y.setWidth t.width
  let amount : ℤ := u.read y
  match op with
  | prev => some ((x - 1#_).setWidth _)
  | next => some ((x + 1#_).setWidth _)
  | opposite => some ((-x).setWidth _)
  | bitNegate => some ((~~~x).setWidth _)
  | logicalNegate => some ((BitVec.ofBool (x == 0#_)).setWidth _)
  | castBit => some ((BitVec.ofBool (x != 0#_)).setWidth _)
  | castInt _ => some (if t.signed then x.signExtend _ else x.setWidth _)
  | castFloat _ => none
  | extend .zero _ => some (x.setWidth _)
  | extend .sign _ => some (x.signExtend _)
  | reduce low high => some ((x.extractLsb' low (high - low)).setWidth _)
  | compare c => some ((BitVec.ofBool (c.onBits t.signed x same)).setWidth _)
  | plus => some ((x + same).setWidth _)
  | minus => some ((x - same).setWidth _)
  | times => some ((x * same).setWidth _)
  | divide =>
    if same = 0#_ then none else some ((if t.signed then x.sdiv same else x.udiv same).setWidth _)
  | modulo =>
    if same = 0#_ then none else some ((if t.signed then x.srem same else x.umod same).setWidth _)
  | extremum .min =>
    some ((if Comparison.lessOrEqual.onBits t.signed x same then x else same).setWidth _)
  | extremum .max =>
    some ((if Comparison.lessOrEqual.onBits t.signed x same then same else x).setWidth _)
  | bitwise c => some ((c.onBits x same).setWidth _)
  | shift d =>
    if 0 ≤ amount ∧ amount < t.width then
      match d with
      | .left => some ((x <<< amount.toNat).setWidth _)
      | .right =>
        some ((if t.signed then x.sshiftRight amount.toNat else x >>> amount.toNat).setWidth _)
    else none
  | rotate .left => some ((x.rotateLeft (amount % t.width).toNat).setWidth _)
  | rotate .right => some ((x.rotateRight (amount % t.width).toNat).setWidth _)
  | connective c => some ((BitVec.ofBool (c.combine (x != 0#_) (same != 0#_))).setWidth _)
  | concat => some ((x ++ y).setWidth _)
  | bitSet low high => some ((overwrite x low (y.setWidth (high - low))).setWidth _)

/-- The mathematical result of an operation whose results may not fit. -/
def ideal? (op : Operation) (a b : ℤ) : Option ℤ :=
  match op with
  | prev => some (a - 1)
  | next => some (a + 1)
  | opposite => some (-a)
  | castInt _ => some a
  | plus => some (a + b)
  | minus => some (a - b)
  | times => some (a * b)
  | divide => some (a.tdiv b)
  | _ => none

end Operation

/-! ### Patterns of integer arithmetic -/

namespace IntType

variable {t : IntType} {a b : ℤ}

theorem bits_add (t : IntType) (a b : ℤ) : t.bits (a + b) = t.bits a + t.bits b :=
  BitVec.ofInt_add a b

theorem bits_neg (t : IntType) (a : ℤ) : t.bits (-a) = -t.bits a :=
  BitVec.ofInt_neg

theorem bits_sub (t : IntType) (a b : ℤ) : t.bits (a - b) = t.bits a - t.bits b := by
  rw [Int.sub_eq_add_neg, bits_add, bits_neg, BitVec.sub_eq_add_neg]

theorem bits_mul (t : IntType) (a b : ℤ) : t.bits (a * b) = t.bits a * t.bits b :=
  BitVec.ofInt_mul a b

theorem bits_one (t : IntType) : t.bits 1 = 1#t.width :=
  BitVec.ofInt_ofNat t.width 1

theorem bits_zero (t : IntType) : t.bits 0 = 0#t.width :=
  BitVec.ofInt_ofNat t.width 0

/-- Distinct values have distinct bits. -/
theorem bits_inj (ha : t.contains a = true) (hb : t.contains b = true) :
    t.bits a = t.bits b ↔ a = b := by
  refine ⟨fun h => ?_, fun h => h ▸ rfl⟩
  rw [← read_bits ha, h, read_bits hb]

theorem bits_eq_zero (ha : t.contains a = true) : t.bits a = 0#t.width ↔ a = 0 := by
  rw [← bits_zero, bits_inj ha t.contains_zero]

/-- The bits of a value of a signed type, as a signed number. -/
theorem toInt_bits (hs : t.signed = true) (ha : t.contains a = true) : (t.bits a).toInt = a := by
  have hr := read_bits ha
  rwa [read, if_pos hs] at hr

/-- The bits of a value of an unsigned type, as an unsigned number. -/
theorem natCast_bits (hs : t.signed = false) (ha : t.contains a = true) :
    ((t.bits a).toNat : ℤ) = a := by
  have hr := read_bits ha
  rwa [read, if_neg (by simp [hs])] at hr

theorem bits_toNat (p : BitVec t.width) : t.bits (p.toNat : ℤ) = p := by
  rw [bits, BitVec.ofInt_natCast, BitVec.ofNat_toNat, BitVec.setWidth_eq]

/-- A value in another type: its bits are cut off, or extended according to its sign. -/
theorem bits_cast (out : IntType) (ha : t.contains a = true) :
    out.bits a =
      if t.signed then (t.bits a).signExtend out.width else (t.bits a).setWidth out.width := by
  cases hs : t.signed with
  | true =>
    rw [if_pos rfl, BitVec.signExtend, toInt_bits hs ha, bits]
  | false =>
    have h := congrArg (BitVec.ofInt out.width) (natCast_bits hs ha)
    rw [BitVec.ofInt_natCast, BitVec.ofNat_toNat] at h
    rw [if_neg Bool.false_ne_true, h, bits]

/-- Comparisons of values are comparisons of their bits. -/
theorem holds_eq_onBits (c : Comparison) (ha : t.contains a = true) (hb : t.contains b = true) :
    c.holds a b = c.onBits t.signed (t.bits a) (t.bits b) := by
  have heq : (a == b) = (t.bits a == t.bits b) :=
    Bool.eq_iff_iff.mpr (by simp [bits_inj ha hb])
  cases hs : t.signed with
  | true =>
    cases c <;> simp [Comparison.holds, Comparison.onBits, heq, BitVec.slt_eq_decide,
      BitVec.sle_eq_decide, toInt_bits hs ha, toInt_bits hs hb, bne]
  | false =>
    have hx := natCast_bits hs ha
    have hy := natCast_bits hs hb
    cases c <;> simp [Comparison.holds, Comparison.onBits, heq, BitVec.ult_eq_decide,
      BitVec.ule_eq_decide, bne] <;> omega

/-- The quotient of two values is the quotient of their bits. -/
theorem bits_tdiv (ha : t.contains a = true) (hb : t.contains b = true) :
    t.bits (a.tdiv b) =
      if t.signed then (t.bits a).sdiv (t.bits b) else (t.bits a).udiv (t.bits b) := by
  cases hs : t.signed with
  | true =>
    rw [if_pos rfl, ← BitVec.toInt_inj, BitVec.toInt_sdiv, toInt_bits hs ha, toInt_bits hs hb, bits,
      BitVec.toInt_ofInt]
  | false =>
    have h : a.tdiv b = (((t.bits a).udiv (t.bits b)).toNat : ℤ) := by
      rw [BitVec.udiv_eq, BitVec.toNat_udiv, Int.natCast_div, natCast_bits hs ha,
        natCast_bits hs hb]
      exact Int.tdiv_eq_ediv_of_nonneg (natCast_bits hs ha ▸ Int.natCast_nonneg _)
    rw [if_neg Bool.false_ne_true, h, bits_toNat]

/-- The remainder of two values is the remainder of their bits. -/
theorem bits_tmod (ha : t.contains a = true) (hb : t.contains b = true) :
    t.bits (a.tmod b) =
      if t.signed then (t.bits a).srem (t.bits b) else (t.bits a).umod (t.bits b) := by
  cases hs : t.signed with
  | true =>
    rw [if_pos rfl, ← BitVec.toInt_inj, BitVec.toInt_srem, toInt_bits hs ha, toInt_bits hs hb,
      toInt_bits hs (contains_tmod ha b)]
  | false =>
    have h : a.tmod b = (((t.bits a).umod (t.bits b)).toNat : ℤ) := by
      rw [BitVec.umod_eq, BitVec.toNat_umod, Int.natCast_mod, natCast_bits hs ha,
        natCast_bits hs hb]
      exact Int.tmod_eq_emod_of_nonneg (natCast_bits hs ha ▸ Int.natCast_nonneg _)
    rw [if_neg Bool.false_ne_true, h, bits_toNat]

end IntType

/-! ### Executions on patterns -/

namespace Outcome

/-- Executions that go on keep the low bits of every result. -/
theorem stored_false (out : IntType) (m : ℤ) :
    stored false out m = value (out.read (out.bits m)) := by
  rw [stored]
  split
  · next h => rw [IntType.read_bits h]
  · rfl

theorem truth_eq_value (c : Bool) :
    truth c = value ((WordType.bit).view.read ((BitVec.ofBool c).setWidth _)) := by
  cases c <;> rfl

end Outcome

namespace Operation

variable {stops : Bool} {op : Operation} {w out : WordType} {arg : Option WordType} {a b : ℤ}

/-- An execution that goes on after errors ends with what the machine makes of the patterns. -/
theorem execute_eq_of_machine? {p : BitVec out.view.width} (h : op.Accepts w arg out)
    (ha : w.view.contains a = true) (hb : ∀ u, arg = some u → u.view.contains b = true)
    (hp : op.machine? w.view (arg.getD w).view out.view (w.view.bits a)
      ((arg.getD w).view.bits b) = some p) :
    op.execute false w.view (arg.getD w).view out.view a b = .value (out.view.read p) := by
  have hf := h.fits
  cases op with
  | prev | next =>
    obtain ⟨rfl, rfl⟩ := hf
    cases hp
    simp only [execute, Outcome.stored_false, BitVec.setWidth_eq, IntType.bits_add,
      IntType.bits_sub, IntType.bits_one]
  | opposite =>
    obtain ⟨rfl, rfl⟩ := hf
    cases hp
    simp only [execute, Outcome.stored_false, BitVec.setWidth_eq, IntType.bits_neg]
  | bitNegate =>
    obtain ⟨rfl, rfl⟩ := hf
    cases hp
    simp only [execute, BitVec.setWidth_eq]
  | logicalNegate | castBit =>
    obtain ⟨rfl, rfl⟩ := hf
    cases hp
    rw [← Outcome.truth_eq_value, execute]
    congr 1
    rw [Bool.eq_iff_iff]
    simp [IntType.bits_eq_zero ha]
  | castInt dest =>
    obtain ⟨rfl, rfl⟩ := hf
    cases hp
    rw [execute, Outcome.stored_false, IntType.bits_cast _ ha]
  | castFloat dest => exact hf.elim
  | extend fill bits =>
    cases fill <;> cases hp <;> rfl
  | reduce low high =>
    obtain ⟨rfl, -, -, t, rfl, ht, hs⟩ := hf
    cases hp
    rw [execute, IntType.read, if_neg (by simpa [WordType.view] using hs),
      BitVec.toNat_setWidth_of_le (by simp [WordType.view, ht])]
  | compare c =>
    obtain ⟨rfl, rfl⟩ := hf
    cases hp
    rw [← Outcome.truth_eq_value, execute, IntType.holds_eq_onBits c ha (hb _ rfl)]
    simp only [Option.getD_some, BitVec.setWidth_eq]
  | plus | minus | times =>
    obtain ⟨rfl, rfl⟩ := hf
    cases hp
    simp only [execute, Outcome.stored_false, BitVec.setWidth_eq, IntType.bits_add,
      IntType.bits_sub, IntType.bits_mul, Option.getD_some]
  | divide =>
    obtain ⟨rfl, rfl⟩ := hf
    have hb := hb _ rfl
    simp only [machine?, Option.getD_some, BitVec.setWidth_eq, IntType.bits_eq_zero hb,
      Option.ite_none_left_eq_some, Option.some.injEq] at hp
    obtain ⟨h0, rfl⟩ := hp
    rw [execute, if_neg h0, Outcome.stored_false, IntType.bits_tdiv ha hb]
  | modulo =>
    obtain ⟨rfl, rfl⟩ := hf
    have hb := hb _ rfl
    simp only [machine?, Option.getD_some, BitVec.setWidth_eq, IntType.bits_eq_zero hb,
      Option.ite_none_left_eq_some, Option.some.injEq] at hp
    obtain ⟨h0, rfl⟩ := hp
    rw [execute, if_neg h0, ← IntType.bits_tmod ha hb,
      IntType.read_bits (IntType.contains_tmod ha b)]
  | extremum e =>
    obtain ⟨rfl, rfl⟩ := hf
    have hb := hb _ rfl
    have hle := IntType.holds_eq_onBits .lessOrEqual ha hb
    rcases le_or_gt a b with hab | hab
    · rw [Comparison.holds, decide_eq_true hab] at hle
      cases e <;> cases hp <;>
        simp only [execute, Option.getD_some, BitVec.setWidth_eq, ← hle, if_true, min_eq_left hab,
          max_eq_right hab, IntType.read_bits ha, IntType.read_bits hb]
    · rw [Comparison.holds, decide_eq_false (not_le.mpr hab)] at hle
      cases e <;> cases hp <;>
        simp only [execute, Option.getD_some, BitVec.setWidth_eq, ← hle, Bool.false_eq_true,
          if_false, min_eq_right hab.le, max_eq_left hab.le, IntType.read_bits ha,
          IntType.read_bits hb]
  | bitwise c =>
    obtain ⟨rfl, rfl⟩ := hf
    cases hp
    simp only [execute, Option.getD_some, BitVec.setWidth_eq]
  | shift d =>
    obtain ⟨harg, rfl⟩ := hf
    obtain ⟨u, rfl⟩ := Option.isSome_iff_exists.mp harg
    simp only [machine?, Option.getD_some, IntType.read_bits (hb _ rfl)] at hp
    split at hp
    · next hk =>
      cases d <;> cases hp <;> simp only [execute, if_pos hk, BitVec.setWidth_eq]
    · cases hp
  | rotate d =>
    obtain ⟨harg, rfl⟩ := hf
    obtain ⟨u, rfl⟩ := Option.isSome_iff_exists.mp harg
    cases d <;> cases hp <;>
      simp only [execute, Option.getD_some, IntType.read_bits (hb _ rfl), BitVec.setWidth_eq]
  | connective c =>
    obtain ⟨rfl, rfl⟩ := hf
    cases hp
    have hne : ∀ {v : ℤ}, w.view.contains v = true →
        decide (v ≠ 0) = (w.view.bits v != 0#w.view.width) := fun hv => by
      rw [Bool.eq_iff_iff]
      simp [IntType.bits_eq_zero hv]
    rw [← Outcome.truth_eq_value, execute]
    simp only [Option.getD_some, BitVec.setWidth_eq, hne ha, hne (hb _ rfl)]
  | concat =>
    obtain ⟨u, t, rfl, rfl, ht, hs⟩ := hf
    cases hp
    rw [execute, IntType.read, if_neg (by simpa [WordType.view] using hs),
      BitVec.toNat_setWidth_of_le (by simp [WordType.view, ht])]
  | bitSet low high =>
    obtain ⟨u, rfl, rfl, -⟩ := hf
    cases hp
    simp only [execute, Option.getD_some, BitVec.setWidth_eq]

/-- Without an error it makes no difference what errors do to an execution. -/
theorem execute_of_raised_eq_none {t u o : IntType} (h : op.raised t o a b = none) :
    op.execute stops t u o a b = op.execute false t u o a b := by
  have hstored : ∀ {m}, o.overflow? m = none → Outcome.stored stops o m = .stored false o m :=
    fun hm => by rw [Outcome.stored, Outcome.stored, if_pos (IntType.overflow?_eq_none.mp hm),
      if_pos (IntType.overflow?_eq_none.mp hm)]
  cases op with
  | prev | next | opposite | castInt _ | plus | minus | times => exact hstored h
  | divide =>
    simp only [raised] at h
    split_ifs at h with h0
    simp only [execute, if_neg h0]
    exact hstored h
  | modulo =>
    simp only [raised] at h
    split_ifs at h with h0
    simp only [execute, if_neg h0]
  | shift d =>
    simp only [raised] at h
    split_ifs at h with h0
    cases d <;> simp only [execute, if_pos h0]
  | extend fill bits => cases fill <;> rfl
  | extremum e => cases e <;> rfl
  | rotate d => cases d <;> rfl
  | _ => rfl

/-- No error is raised when the machine has a result and the mathematical one fits its type. -/
theorem raised_eq_none_iff (h : op.Accepts w arg out)
    (hb : ∀ u, arg = some u → u.view.contains b = true) :
    op.raised w.view out.view a b = none ↔
      op.machine? w.view (arg.getD w).view out.view (w.view.bits a)
        ((arg.getD w).view.bits b) ≠ none ∧
        ∀ m, op.ideal? a b = some m → out.view.contains m = true := by
  have hf := h.fits
  cases op with
  | prev | next | opposite | castInt _ | plus | minus | times =>
    simp [raised, machine?, ideal?, IntType.overflow?_eq_none]
  | castFloat dest => exact hf.elim
  | divide =>
    obtain ⟨rfl, rfl⟩ := hf
    simp only [raised, machine?, ideal?, Option.getD_some, BitVec.setWidth_eq,
      IntType.bits_eq_zero (hb _ rfl)]
    split_ifs with h0 <;> simp [IntType.overflow?_eq_none]
  | modulo =>
    obtain ⟨rfl, rfl⟩ := hf
    simp only [raised, machine?, ideal?, Option.getD_some, BitVec.setWidth_eq,
      IntType.bits_eq_zero (hb _ rfl)]
    split_ifs with h0 <;> simp
  | shift d =>
    obtain ⟨harg, rfl⟩ := hf
    obtain ⟨u, rfl⟩ := Option.isSome_iff_exists.mp harg
    simp only [raised, machine?, ideal?, Option.getD_some, IntType.read_bits (hb _ rfl)]
    by_cases h0 : 0 ≤ b ∧ b < out.view.width
    · cases d <;> simp [h0]
    · rw [if_neg h0, if_neg h0]
      simp
  | extend fill bits => cases fill <;> simp [raised, machine?, ideal?]
  | extremum e => cases e <;> simp [raised, machine?, ideal?]
  | rotate d => cases d <;> simp [raised, machine?, ideal?]
  | _ => simp [raised, machine?, ideal?]

/-- A mathematical result that does not fit is an overflow. -/
theorem raised_of_ideal? {t o : IntType} {m : ℤ} {k : ErrorKind} (hm : op.ideal? a b = some m)
    (hk : o.overflow? m = some k) : op.raised t o a b = some k := by
  cases op with
  | divide =>
    cases hm
    rw [raised, if_neg, hk]
    rintro rfl
    rw [Int.tdiv_zero, IntType.overflow?_eq_none.mpr o.contains_zero] at hk
    cases hk
  | prev | next | opposite | castInt _ | plus | minus | times =>
    cases hm
    exact hk
  | _ => cases hm

end Operation

/-! ### Folded constants -/

/-- The evaluation has found one word, of the given bits. -/
structure Evaluation.Folds (out : WordType) (p : BitVec out.view.width) (e : Evaluation) :
    Prop where
  /-- The value flows out. -/
  empty : e.empty = false
  /-- The result is a value with these bits. -/
  result : ∃ v, e.result = some (.word out (.constant v)) ∧ out.view.contains v = true ∧
    out.view.bits v = p

namespace Element

variable {limit : ℕ} {op : Operation} {w out : WordType} {arg : Option WordType}
  {y : Option Element} {a b : ℤ}

/-- A second operand of one value is absent or a constant. -/
private theorem precision_of_operandValues (hy : IsOperand limit arg y)
    (hb : operandValues y = {b}) : ∀ o, y = some o → o.precision = .constant := by
  rintro o rfl
  cases arg with
  | none => exact hy.elim
  | some u =>
    obtain ⟨s, rfl, hs⟩ := hy
    have hsub : s.toSet u.view ⊆ (Shape.constant b).toSet u.view := fun v hv =>
      Shape.contains_constant.mpr (Set.ext_iff.mp hb v |>.mp hv)
    rw [Shape.eq_constant_of_subset hs hsub]
    rfl

/-- The transfer of two constants flags the error of their execution. -/
private theorem applyWithin_constants_flags {budget : ℕ} (params : Params)
    (h : op.Accepts w arg out) (hy : IsOperand limit arg y) (hb : operandValues y = {b})
    (hconstant : ∀ o, y = some o → o.precision = .constant) :
    (applyWithin limit op (budget + 1) (.word w (.constant a)) (.start params y)).Ensures
      fun r => ∀ k, op.raised w.view out.view a b = some k → r.2.errors.isPossible k = true := by
  rcases fold?_cases op w out params.stops a hy with
    ⟨b', hY, -, hfold⟩ | ⟨u, t, rfl, rfl, -, hfold⟩
  · obtain rfl : b' = b := Set.singleton_injective (hY.symm.trans hb)
    refine (fold_diagnoses (P := True) (R := False) (budget + 1) h hy hY hfold nofun _
      (Evaluation.clean_start params y) rfl rfl).mono fun r hr k hk => ?_
    refine (hr.2.possible (by omega) k ?_).resolve_right And.left
    exact ⟨a, Shape.contains_constant.mpr rfl, b', by simp [hY], hk⟩
  · -- a constant second operand is folded
    cases t with
    | constant c => cases hfold
    | _ => cases hconstant _ rfl

/-- The transfer of two constants ends as their execution does, and flags its error. -/
theorem apply_constants (params : Params) (hdepth : 1 ≤ params.maxDepth)
    (h : op.Accepts w arg out) (ha : w.view.contains a = true) (hy : IsOperand limit arg y)
    (hb : operandValues y = {b}) :
    ∃ e, ((word w (.constant a)).apply limit op (.start params y)).value = .ok (true, e) ∧
      (∀ v, op.execute params.stops w.view (arg.getD w).view out.view a b = .value v →
        e.empty = false ∧ e.result = some (.word out (.constant v))) ∧
      (op.execute params.stops w.view (arg.getD w).view out.view a b = .pruned →
        e.empty = true ∧ e.result = none) ∧
      ∀ k, op.raised w.view out.view a b = some k → e.errors.isPossible k = true := by
  have hconstant := precision_of_operandValues hy hb
  have hbudget : (Evaluation.start params y).budget = params.maxDepth - 1 + 1 := by
    change params.maxDepth - 0 = _
    omega
  have hreports := applyWithin_reports h params (params.maxDepth - 1 + 1) (s := .constant a) ha hy _
    (Evaluation.fresh_start params y) rfl rfl
  have hconfined := hreports.and (applyWithin_constants h (Evaluation.fresh_start params y) ha hy
    hconstant (hb ▸ Set.mem_singleton b))
  obtain ⟨⟨handled, e⟩, he, ⟨⟨rfl, hr⟩, -, hc⟩, hflags⟩ := hconfined.and_ensures
    (applyWithin_constants_flags (a := a) params h hy hb hconstant)
  have hmem : ∀ {v}, op.execute params.stops w.view (arg.getD w).view out.view a b = .value v →
      v ∈ op.results params.stops w.view (arg.getD w).view out.view
        (word w (.constant a)).values (operandValues y) := fun hv =>
    ⟨a, Shape.contains_constant.mpr rfl, b, hb ▸ Set.mem_singleton b, by simp [hv]⟩
  replace hc : e.Confined
      ((op.execute params.stops w.view (arg.getD w).view out.view a b).values out.view) := hc
  refine ⟨e, by rw [apply, hbudget]; exact he, fun v hv => ?_, fun hv => ?_, hflags⟩
  · have hempty := hr.empty_eq_false (hmem hv)
    rw [hv] at hc
    cases hres : e.result with
    | none => exact absurd (hc.unperformed hres hempty) Set.not_nontrivial_singleton
    | some x =>
      obtain ⟨s, rfl, hs⟩ := hr.word x hres
      have hsub : s.toSet out.view ⊆ (Shape.constant v).toSet out.view := fun n hn =>
        Shape.contains_constant.mpr (hc.result _ hres hn)
      exact ⟨hempty, by rw [Shape.eq_constant_of_subset hs hsub]⟩
  · rw [hv] at hc
    have hres : e.result = none := by
      cases hres : e.result with
      | none => rfl
      | some x =>
        obtain ⟨s, rfl, hs⟩ := hr.word x hres
        exact (hc.result _ hres hs.proper.contains_lo).elim
    refine ⟨?_, hres⟩
    by_contra hempty
    exact Set.not_nontrivial_empty (hc.unperformed hres (by simpa using hempty))

/-- Two constants are folded as a machine computes on their bits, with one level of nesting and
under any creation bound. Where errors end the execution, the value is the same if the mathematical
result fits its type. If it does not, or if the machine has no result, no value flows out. The error
of a result that does not fit is flagged either way. -/
theorem apply_folds_bits (params : Params) (hdepth : 1 ≤ params.maxDepth)
    (h : op.Accepts w arg out) (ha : w.view.contains a = true) (hy : IsOperand limit arg y)
    (hb : operandValues y = {b}) :
    ∃ e, ((word w (.constant a)).apply limit op (.start params y)).value = .ok (true, e) ∧
      let machine := op.machine? w.view (arg.getD w).view out.view (w.view.bits a)
        ((arg.getD w).view.bits b)
      (params.errors = .propagate → ∀ p, machine = some p → e.Folds out p) ∧
      (params.errors = .stop →
        ((∀ m, op.ideal? a b = some m → out.view.contains m = true) →
          ∀ p, machine = some p → e.Folds out p) ∧
        (machine = none ∨ (∃ m, op.ideal? a b = some m ∧ out.view.contains m = false) →
          e.empty = true ∧ e.result = none)) ∧
      ∀ m k, op.ideal? a b = some m → out.view.overflow? m = some k →
        e.errors.isPossible k = true := by
  have hcontains : ∀ u, arg = some u → u.view.contains b = true := fun u hu =>
    hy.contains (hb ▸ Set.mem_singleton b) hu
  obtain ⟨e, he, hvalue, hpruned, hflags⟩ := apply_constants params hdepth h ha hy hb
  refine ⟨e, he, fun hgoes p hp => ?_, fun hstops => ⟨fun hfits p hp => ?_, fun hout => ?_⟩, ?_⟩
  · have hstops : params.stops = false := by rw [Params.stops, hgoes]; rfl
    obtain ⟨hempty, hres⟩ := hvalue _ (hstops ▸ Operation.execute_eq_of_machine? h ha hcontains hp)
    exact ⟨hempty, _, hres, IntType.contains_read _ _, IntType.bits_read _ _⟩
  · have hraised : op.raised w.view out.view a b = none :=
      (Operation.raised_eq_none_iff h hcontains).mpr ⟨by simp [hp], hfits⟩
    obtain ⟨hempty, hres⟩ := hvalue _ ((Operation.execute_of_raised_eq_none hraised).trans
      (Operation.execute_eq_of_machine? h ha hcontains hp))
    exact ⟨hempty, _, hres, IntType.contains_read _ _, IntType.bits_read _ _⟩
  · have hstops : params.stops = true := by rw [Params.stops, hstops]; rfl
    refine hpruned (hstops ▸ (Operation.execute_eq_pruned_iff ?_).mpr fun hnone => ?_)
    · rintro dest rfl
      exact h.fits
    · obtain ⟨hsome, hfits⟩ := (Operation.raised_eq_none_iff h hcontains).mp hnone
      rcases hout with hnone | ⟨m, hm, hout⟩
      · exact hsome hnone
      · simp [hfits m hm] at hout
  · exact fun m k hm hk => hflags k (Operation.raised_of_ideal? hm hk)

/-- The smallest value divided by minus one is the smallest value again if overflows go on. -/
theorem apply_folds_bits_divide :
    let t : IntType := ⟨4, true, by decide, by decide⟩
    let y : Element := .word (.int t) (.constant (-1))
    Operation.divide.Accepts (.int t) (some (.int t)) (.int t) ∧ t.contains (-8) = true ∧
      IsOperand 8 (some (.int t)) (some y) ∧ operandValues (some y) = {-1} ∧
      ∃ e, ((word (.int t) (.constant (-8))).apply 8 .divide
          (.start (.preset 1 .sure .propagate) (some y))).value = .ok (true, e) ∧
        e.Folds (.int t) 8#4 ∧ e.errors.isPossible .positiveOverflow = true := by
  intro t y
  have h : Operation.divide.Accepts (.int t) (some (.int t)) (.int t) :=
    ⟨trivial, by decide, rfl⟩
  have hy : IsOperand 8 (some (.int t)) (some y) := by decide
  have hb : operandValues (some y) = {-1} := by
    ext v
    exact Shape.contains_constant
  obtain ⟨e, he, hgoes, -, hflags⟩ :=
    apply_folds_bits (.preset 1 .sure .propagate) (by decide) h (a := -8) (by decide) hy hb
  exact ⟨h, by decide, hy, hb, e, he, hgoes rfl _ (by decide), hflags 8 _ (by decide) (by decide)⟩

end Element

end ScalarDomain
