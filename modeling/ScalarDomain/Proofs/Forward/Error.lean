import ScalarDomain.Proofs.Forward.Interval

/-!
# Errors of executions and of steps

The error that an execution on two values runs into (`Operation.raised`), and what the flags of a
transfer step say about it (`ErrorFlags.Diagnoses`): an error flagged as certain is raised by all
executions, and an error that some execution raises is flagged as possible.

Both fail for a division by a range around zero. Where errors end the execution, the quotients by
the rest of the divisor decide whether an overflow is certain, although a divisor zero raises
another error (`Step.OverstatesOverflow`). Where they do not, the zero alone is flagged, and an
overflow at another divisor is overlooked (`Step.OverlooksOverflow`).
-/

namespace ScalarDomain

/-! ### Errors of executions -/

/-- The error of storing a mathematical result in a type. -/
def IntType.overflow? (t : IntType) (m : ℤ) : Option ErrorKind :=
  if t.maxValue < m then some .positiveOverflow
  else if m < t.minValue then some .negativeOverflow
  else none

/-- The error that the execution of an operation runs into, if any. The first operand `a` has type
`t`, and the result is stored in `out`. -/
def Operation.raised (op : Operation) (t out : IntType) (a b : ℤ) : Option ErrorKind :=
  match op with
  | prev => out.overflow? (a - 1)
  | next => out.overflow? (a + 1)
  | opposite => out.overflow? (-a)
  | castInt _ => out.overflow? a
  | plus => out.overflow? (a + b)
  | minus => out.overflow? (a - b)
  | times => out.overflow? (a * b)
  | divide => if b = 0 then some .divisionByZero else out.overflow? (a.tdiv b)
  | modulo => if b = 0 then some .divisionByZero else none
  | shift _ => if 0 ≤ b ∧ b < t.width then none else some .positiveOverflow
  | _ => none

/-- The errors of the executions over two sets of operands; `none` stands for an execution without
error. -/
def Operation.errorsOn (op : Operation) (t out : IntType) (X Y : Set ℤ) : Set (Option ErrorKind) :=
  {o | ∃ a ∈ X, ∃ b ∈ Y, op.raised t out a b = o}

namespace IntType

variable {t : IntType} {m : ℤ} {k : ErrorKind}

/-- What fits its type raises no overflow. -/
theorem overflow?_eq_none : t.overflow? m = none ↔ t.contains m = true := by
  rw [overflow?, contains_iff]
  split_ifs <;> simp <;> omega

/-- An overflow is above or below the type. -/
theorem overflow?_eq_some :
    t.overflow? m = some k ↔
      (k = .positiveOverflow ∧ t.maxValue < m) ∨ (k = .negativeOverflow ∧ m < t.minValue) := by
  have hle := t.minValue_lt_maxValue
  rw [overflow?]
  split_ifs with h1 h2
  · have h3 : ¬m < t.minValue := by omega
    simp [h1, h3, eq_comm]
  · simp [h1, h2, eq_comm]
  · simp [h1, h2]

/-- A quotient of two values only overflows at the smallest value of a signed type divided by minus
one. -/
theorem overflow?_tdiv {a b : ℤ} (ha : t.contains a = true) (hb : t.contains b = true)
    (h0 : b ≠ 0) (h : t.overflow? (a.tdiv b) = some k) :
    k = .positiveOverflow ∧ t.signed = true ∧ a = t.minValue ∧ b = -1 := by
  rw [contains_iff] at ha hb
  have hout : ¬t.contains (a.tdiv b) = true := by simp [← overflow?_eq_none, h]
  rw [contains_iff] at hout
  have habs : (a.tdiv b).natAbs = a.natAbs / b.natAbs := Int.natAbs_tdiv a b
  have hpos := t.half_pos
  rcases t.layout with ⟨hs, hmin, hmax⟩ | ⟨hs, hmin, hmax⟩
  · by_cases h1 : b.natAbs = 1
    · rcases (show b = 1 ∨ b = -1 by omega) with rfl | rfl
      · rw [Int.tdiv_one] at hout
        omega
      · rw [Int.tdiv_neg, Int.tdiv_one] at hout h
        have ha : a = t.minValue := by omega
        refine ⟨?_, hs, ha, rfl⟩
        rcases overflow?_eq_some.mp h with ⟨hk, -⟩ | ⟨-, hlt⟩
        · exact hk
        · omega
    · -- a larger divisor at least halves the dividend
      have h2 : a.natAbs / b.natAbs ≤ a.natAbs / 2 := Nat.div_le_div_left (by omega) (by decide)
      omega
  · have h2 : a.natAbs / b.natAbs ≤ a.natAbs := Nat.div_le_self _ _
    have h3 : 0 ≤ a.tdiv b := Int.tdiv_nonneg (by omega) (by omega)
    omega

end IntType

namespace Operation

/-- Where errors end the execution, the pruned executions are those that raise one. -/
theorem execute_eq_pruned_iff {op : Operation} {t u out : IntType} {a b : ℤ}
    (hop : ∀ dest, op ≠ .castFloat dest) :
    op.execute true t u out a b = .pruned ↔ op.raised t out a b ≠ none := by
  have hstored : ∀ m, Outcome.stored true out m = .pruned ↔ out.overflow? m ≠ none := by
    intro m
    rw [Outcome.stored, Ne, IntType.overflow?_eq_none, if_pos rfl]
    split_ifs with hm <;> simp [hm]
  cases op with
  | castFloat dest => exact absurd rfl (hop dest)
  | prev | next | opposite | castInt _ | plus | minus | times => exact hstored _
  | divide =>
    simp only [execute, raised]
    split_ifs with h0
    · simp [Outcome.failed]
    · exact hstored _
  | modulo =>
    simp only [execute, raised]
    split_ifs with h0 <;> simp [Outcome.failed]
  | shift d =>
    simp only [execute, raised]
    by_cases h0 : 0 ≤ b ∧ b < t.width
    · rw [if_pos h0, if_pos h0]
      cases d <;> simp
    · rw [if_neg h0, if_neg h0]
      simp [Outcome.failed]
  | extend fill bits => cases fill <;> simp [execute, raised]
  | extremum e => cases e <;> simp [execute, raised]
  | rotate d => cases d <;> simp [execute, raised]
  | _ => simp [execute, raised, Outcome.truth]

end Operation

/-! ### Flags -/

namespace ErrorFlags

variable {f g : ErrorFlags} {k kind : ErrorKind} {c : Bool}

@[simp] theorem isPossible_none : none.isPossible k = false := by
  cases k <;> rfl

@[simp] theorem isCertain_none : none.isCertain k = false := by
  cases k <;> rfl

/-- Every kind of error has a bit of its own. -/
private theorem getLsbD_twoPow_index :
    (BitVec.twoPow 5 kind.index).getLsbD k.index = true ↔ k = kind := by
  cases k <;> cases kind <;> decide

/-- A marked error is possible, besides those that were. -/
theorem isPossible_mark :
    (f.mark kind c).isPossible k = true ↔ f.isPossible k = true ∨ k = kind := by
  rw [mark, isPossible, BitVec.getLsbD_or, Bool.or_eq_true, getLsbD_twoPow_index, isPossible]

/-- A marked error is certain if it was marked so. -/
theorem isCertain_mark :
    (f.mark kind c).isCertain k = true ↔ f.isCertain k = true ∨ c = true ∧ k = kind := by
  cases c with
  | false => simp [mark, isCertain]
  | true =>
    simp only [mark, isCertain, if_true, BitVec.getLsbD_or, Bool.or_eq_true, getLsbD_twoPow_index,
      true_and]

@[simp] theorem none_merge : none.merge f = f := by
  simp [merge, none]

/-- Joined branches have the possible errors of both. -/
theorem isPossible_mergeBranch :
    (f.mergeBranch g).isPossible k = true ↔ f.isPossible k = true ∨ g.isPossible k = true := by
  simp [mergeBranch, isPossible]

/-- And the certain errors of both at once. -/
theorem isCertain_mergeBranch :
    (f.mergeBranch g).isCertain k = true ↔ f.isCertain k = true ∧ g.isCertain k = true := by
  simp [mergeBranch, isCertain]

/-- What flags say about the errors `E` of some executions. A certain error is raised by all of
them, provided that `P` holds. A raised error is possible, provided that `Q` holds and it is no
overflow that is overlooked. -/
structure Diagnoses (E : Set (Option ErrorKind)) (P Q R : Prop) (f : ErrorFlags) : Prop where
  /-- Every execution raises a certain error. -/
  certain : P → ∀ k, f.isCertain k = true → ∀ o ∈ E, o = some k
  /-- An error that is raised is possible. -/
  possible : Q → ∀ k, some k ∈ E → f.isPossible k = true ∨ R ∧ k = .positiveOverflow
  /-- An overlooked overflow is not. -/
  silent : R → f.isPossible .positiveOverflow = false

/-- Diagnoses hold under stronger conditions. -/
theorem Diagnoses.weaken {E : Set (Option ErrorKind)} {P P' Q Q' R R' : Prop}
    (h : f.Diagnoses E P Q R) (hP : P' → P) (hQ : Q' → Q) (hR : R' ↔ R) :
    f.Diagnoses E P' Q' R' where
  certain hp := h.certain (hP hp)
  possible hq := by simpa only [hR] using h.possible (hQ hq)
  silent hr := h.silent (hR.mp hr)

end ErrorFlags

namespace Step

variable {stops trusted exact : Bool} {s : Step} {k : ErrorKind} {c : Bool}
  {E : Set (Option ErrorKind)} {P Q R : Prop}

/-- The flags of a step; nothing is certain about operands that are not trusted. -/
def flags (s : Step) (trusted : Bool) : ErrorFlags :=
  s.errors.foldl (fun f error => f.mark error.1 (error.2 && trusted)) .none

/-- The marks of a list of errors, certain ones only if the operands are trusted. -/
private theorem foldl_mark (errors : List (ErrorKind × Bool)) (f : ErrorFlags) :
    ((errors.foldl (fun f error => f.mark error.1 (error.2 && trusted)) f).isPossible k = true ↔
      f.isPossible k = true ∨ ∃ c, (k, c) ∈ errors) ∧
    ((errors.foldl (fun f error => f.mark error.1 (error.2 && trusted)) f).isCertain k = true ↔
      f.isCertain k = true ∨ trusted = true ∧ (k, true) ∈ errors) := by
  induction errors generalizing f with
  | nil => simp
  | cons error errors ih =>
    obtain ⟨kind, certain⟩ := error
    obtain ⟨ih1, ih2⟩ := ih (f.mark kind (certain && trusted))
    rw [List.foldl_cons, ih1, ih2, ErrorFlags.isPossible_mark, ErrorFlags.isCertain_mark]
    constructor
    · simp [or_assoc, exists_or]
    · simp only [Bool.and_eq_true, List.mem_cons, Prod.mk.injEq, and_or_left, or_assoc]
      refine or_congr_right (or_congr_left ?_)
      rw [eq_comm (a := true)]
      exact ⟨fun ⟨⟨hc, ht⟩, hk⟩ => ⟨ht, hk, hc⟩, fun ⟨ht, hk, hc⟩ => ⟨⟨hc, ht⟩, hk⟩⟩

/-- A step flags as possible all errors that it lists. -/
theorem isPossible_flags : (s.flags trusted).isPossible k = true ↔ ∃ c, (k, c) ∈ s.errors := by
  simp [flags, foldl_mark]

/-- A step flags as certain what it lists so, about trusted operands. -/
theorem isCertain_flags :
    (s.flags trusted).isCertain k = true ↔ trusted = true ∧ (k, true) ∈ s.errors := by
  simp [flags, foldl_mark]

/-- The flags of a step from the list of its errors. -/
theorem flags_diagnoses (hcertain : P → ∀ k, (k, true) ∈ s.errors → ∀ o ∈ E, o = some k)
    (hpossible : ∀ k, some k ∈ E → (∃ c, (k, c) ∈ s.errors) ∨ R ∧ k = .positiveOverflow)
    (hsilent : R → ∀ c, (.positiveOverflow, c) ∉ s.errors) :
    (s.flags trusted).Diagnoses E P Q R where
  certain hp k hk := hcertain hp k (isCertain_flags.mp hk).2
  possible _ k hk := by
    rw [isPossible_flags]
    exact hpossible k hk
  silent hr := by
    rw [← Bool.not_eq_true, isPossible_flags]
    exact fun ⟨c, hc⟩ => hsilent hr c hc

/-- A step without errors, for executions without errors. -/
theorem flags_diagnoses_nil (hs : s.errors = []) (hE : ∀ o ∈ E, o = none) :
    (s.flags trusted).Diagnoses E P Q R := by
  refine flags_diagnoses (fun _ k hk => ?_) (fun k hk => ?_) fun _ c hc => ?_
  · simp [hs] at hk
  · cases hE _ hk
  · simp [hs] at hc

/-- A step without errors, for an operation without errors. -/
theorem flags_diagnoses_silent {op : Operation} {t out : IntType} {X Y : Set ℤ} (hs : s.errors = [])
    (hop : ∀ a b, op.raised t out a b = none) :
    (s.flags trusted).Diagnoses (op.errorsOn t out X Y) P Q R := by
  refine flags_diagnoses_nil hs ?_
  rintro _ ⟨a, -, b, -, rfl⟩
  exact hop a b

/-! ### Errors of the building blocks -/

section

variable {ty out : WordType} {r : Range}

@[simp] theorem errors_words : (words ty r exact).errors = [] := rfl

@[simp] theorem errors_anyWord : (anyWord ty).errors = [] := rfl

@[simp] theorem errors_truth {a b : Bool} : (truth a b).errors = [] := rfl

@[simp] theorem errors_ofBool {b : Bool} : (ofBool b).errors = [] := rfl

@[simp] theorem errors_withErrors (s : Step) (errors : List (ErrorKind × Bool)) :
    (s.withErrors errors).errors = errors ++ s.errors := rfl

@[simp] theorem errors_hullStep {images : List Range} : (hullStep ty images exact).errors = [] := by
  rw [hullStep]
  split <;> rfl

/-- A span raises an overflow where it leaves the type, certainly if it is outside altogether. -/
theorem mem_errors_overflowing :
    (k, c) ∈ (overflowing stops out r exact).errors ↔
      (k = .positiveOverflow ∧ out.view.maxValue < r.hi ∧ c = decide (out.view.maxValue < r.lo)) ∨
      (k = .negativeOverflow ∧ r.lo < out.view.minValue ∧
        c = decide (r.hi < out.view.minValue)) := by
  simp only [overflowing]
  by_cases h1 : out.view.maxValue < r.hi <;> by_cases h2 : r.lo < out.view.minValue <;>
    simp [h1, h2]

/-- A certain overflow is that of every result. -/
theorem overflow?_of_certain {m : ℤ} (h : (k, true) ∈ (overflowing stops out r exact).errors)
    (hm : m ∈ r) : out.view.overflow? m = some k := by
  obtain ⟨h1, h2⟩ := hm
  rw [IntType.overflow?_eq_some]
  rcases mem_errors_overflowing.mp h with ⟨rfl, -, hc⟩ | ⟨rfl, -, hc⟩
  · exact .inl ⟨rfl, (of_decide_eq_true hc.symm).trans_le h1⟩
  · exact .inr ⟨rfl, h2.trans_lt (of_decide_eq_true hc.symm)⟩

/-- The overflow of a result is found. -/
theorem exists_mem_errors_of_overflow? (stops exact : Bool) {m : ℤ} (hm : m ∈ r)
    (h : out.view.overflow? m = some k) :
    ∃ c, (k, c) ∈ (overflowing stops out r exact).errors := by
  obtain ⟨h1, h2⟩ := hm
  rcases IntType.overflow?_eq_some.mp h with ⟨rfl, hlt⟩ | ⟨rfl, hlt⟩
  · exact ⟨_, mem_errors_overflowing.mpr (.inl ⟨rfl, hlt.trans_le h2, rfl⟩)⟩
  · exact ⟨_, mem_errors_overflowing.mpr (.inr ⟨rfl, h1.trans_lt hlt, rfl⟩)⟩

/-- The errors of mathematical results in a range. -/
theorem overflowing_diagnoses (hE : ∀ o ∈ E, ∃ m ∈ r, out.view.overflow? m = o) (hR : ¬R) :
    ((overflowing stops out r exact).flags trusted).Diagnoses E P Q R := by
  refine flags_diagnoses (fun _ k hk o ho => ?_) (fun k hk => .inl ?_) fun hr => absurd hr hR
  · obtain ⟨m, hm, rfl⟩ := hE o ho
    exact overflow?_of_certain hk hm
  · obtain ⟨m, hm, h⟩ := hE _ hk
    exact exists_mem_errors_of_overflow? stops exact hm h

end

/-! ### Constants -/

/-- The transfer of two constants has the error that the execution raises, and calls it certain. -/
theorem errors_foldWord {op : Operation} {w out : WordType} {arg : Option WordType} (a b : ℤ)
    (h : op.Accepts w arg out) :
    (foldWord stops op w (arg.getD w) (.word out) a b).errors =
      ((op.raised w.view out.view a b).map fun k => (k, true)).toList := by
  have hf := h.fits
  have hwrap : ∀ m, (overflowing stops out (.point m) true).errors =
      ((out.view.overflow? m).map fun k => (k, true)).toList := by
    intro m
    have hle := out.view.minValue_lt_maxValue
    simp only [overflowing, IntType.overflow?, Bounds.point]
    by_cases h1 : out.view.maxValue < m <;> by_cases h2 : m < out.view.minValue
    · omega
    all_goals simp [h1, h2]
  cases op with
  | prev | next | opposite | castInt _ | plus | minus | times => exact hwrap _
  | castFloat dest => exact hf.elim
  | divide =>
    simp only [foldWord, Operation.raised]
    split_ifs with h0
    · rfl
    · exact hwrap _
  | modulo =>
    simp only [foldWord, Operation.raised]
    split_ifs with h0 <;> rfl
  | shift d =>
    simp only [foldWord, Operation.raised, shiftAmount?]
    split_ifs with h0
    · cases d <;> rfl
    · rfl
  | extend fill bits => cases fill <;> rfl
  | extremum e => cases e <;> rfl
  | rotate d => cases d <;> rfl
  | _ => rfl

/-- Folding two constants flags the error of their execution, and no other one. -/
theorem foldWord_diagnoses {op : Operation} {w out : WordType} {arg : Option WordType} {a b : ℤ}
    (h : op.Accepts w arg out) (hR : R → op.raised w.view out.view a b ≠ some .positiveOverflow) :
    ((foldWord stops op w (arg.getD w) (.word out) a b).flags trusted).Diagnoses
      {op.raised w.view out.view a b} P Q R := by
  have hmem : ∀ k c, (k, c) ∈ (foldWord stops op w (arg.getD w) (.word out) a b).errors ↔
      op.raised w.view out.view a b = some k ∧ c = true := by
    intro k c
    rw [errors_foldWord a b h]
    simp [eq_comm]
  refine flags_diagnoses (fun _ k hk o ho => ?_) (fun k hk => .inl ⟨true, ?_⟩) fun hr c hc => ?_
  · rw [Set.mem_singleton_iff.mp ho]
    exact ((hmem k true).mp hk).1
  · exact (hmem k true).mpr ⟨(Set.mem_singleton_iff.mp hk).symm, rfl⟩
  · exact hR hr ((hmem _ c).mp hc).1

/-! ### Ranges -/

variable {op : Operation} {w out : WordType} {arg : Option WordType} {r : Range} {o : WordOperand}
  {argument : Option WordOperand} {Y : Set ℤ}

/-- Errors end the execution, and the smallest value of a signed type is divided by minus one or
zero: the quotient by minus one overflows, and the division by zero fails in another way. -/
def OverstatesOverflow (stops : Bool) (op : Operation) (t : IntType) (r : Range)
    (argument : Option WordOperand) : Prop :=
  stops = true ∧ op = .divide ∧ t.signed = true ∧ r = .point t.minValue ∧
    ∃ o, argument = some o ∧ o.range = ⟨-1, 0⟩

/-- Errors do not end the execution, and the divisor lies around zero: the quotients are not looked
at. -/
def OverlooksOverflow (stops : Bool) (op : Operation) (argument : Option WordOperand) : Prop :=
  stops = false ∧ op = .divide ∧ ∃ o, argument = some o ∧ 0 ∈ o.range

/-- Products overflow as the span of the corner products does. -/
theorem timesRange_diagnoses (hr : r.Proper w.view) (hy : o.Abstracts w.view Y) (hR : ¬R) :
    ((timesRange stops w r o).flags trusted).Diagnoses
      (Operation.times.errorsOn w.view w.view r.toSet Y) P Q R := by
  rw [timesRange]
  split
  · next hc =>
    refine flags_diagnoses_nil rfl ?_
    rintro _ ⟨a, -, b, hb, rfl⟩
    rw [Operation.raised, (hy.constant 0 hc b).mp hb, mul_zero, IntType.overflow?_eq_none]
    exact w.view.contains_zero
  split
  · next hc =>
    refine flags_diagnoses_nil rfl ?_
    rintro _ ⟨a, ha, b, hb, rfl⟩
    rw [Operation.raised, (hy.constant 1 hc b).mp hb, mul_one, IntType.overflow?_eq_none]
    exact hr.contains ha
  simp only
  split
  · next span hspan =>
    refine overflowing_diagnoses ?_ hR
    rintro _ ⟨a, ha, b, hb, rfl⟩
    exact ⟨a * b, mul_mem_span ha (hy.mem b hb) hspan, rfl⟩
  · next hn => simp [Bounds.span?, Bounds.hull?] at hn

/-- Only zero has no part without zero. -/
theorem nonzeroParts_eq_nil {d : Range} : nonzeroParts d = [] ↔ 0 ≤ d.lo ∧ d.hi ≤ 0 := by
  simp only [nonzeroParts]
  split_ifs <;> simp <;> omega

/-- The errors of a division: a zero, and those of the other divisors unless these are skipped. -/
theorem mem_errors_division {d : Range} {divide : List Range → Step} :
    (k, c) ∈ (division stops w d divide).errors ↔
      (k = .divisionByZero ∧ 0 ∈ d ∧ c = (d.lo == 0 && d.hi == 0)) ∨
      ((stops = true ∨ 0 ∉ d) ∧ nonzeroParts d ≠ [] ∧
        (k, c) ∈ (divide (nonzeroParts d)).errors) := by
  rw [← Bounds.contains_iff, division]
  by_cases h0 : d.contains 0 = true <;> by_cases hs : stops = true <;>
    by_cases hn : nonzeroParts d = [] <;> simp [h0, hs, hn]

/-- A zero that is certain is the only divisor. -/
private theorem eq_zero_of_certain {d : Range} {b : ℤ} (hb : b ∈ d)
    (hc : true = (d.lo == 0 && d.hi == 0)) : b = 0 := by
  have hends : d.lo = 0 ∧ d.hi = 0 := by simpa using hc.symm
  obtain ⟨h1, h2⟩ := hb
  omega

/-- A remainder only fails for the divisor zero. -/
theorem modulo_diagnoses (hy : o.Abstracts w.view Y) (hR : ¬R) :
    ((division stops w o.range (moduloRange w r)).flags trusted).Diagnoses
      (Operation.modulo.errorsOn w.view w.view r.toSet Y) P Q R := by
  have hnil : (moduloRange w r (nonzeroParts o.range)).errors = [] := by
    simp only [moduloRange]
    split
    · split <;> rfl
    · rfl
  refine flags_diagnoses (fun _ k hk => ?_) (fun k hk => .inl ?_) fun hr => absurd hr hR
  · rintro _ ⟨a, -, b, hb, rfl⟩
    rcases mem_errors_division.mp hk with ⟨rfl, -, hc⟩ | ⟨-, -, hk⟩
    · exact if_pos (eq_zero_of_certain (hy.mem b hb) hc)
    · simp [hnil] at hk
  · obtain ⟨a, -, b, hb, hk⟩ := hk
    simp only [Operation.raised] at hk
    split_ifs at hk with h0
    cases hk
    exact ⟨_, mem_errors_division.mpr (.inl ⟨rfl, h0 ▸ hy.mem b hb, rfl⟩)⟩

/-- When all quotients overflow there is one dividend, and minus one is the only divisor beside
zero. -/
private theorem ends_of_overflow {d : Range} (hr : r.Proper w.view) (hd : d.Proper w.view)
    (hparts : nonzeroParts d ≠ []) (h0 : 0 ∈ d)
    (h : ∀ a ∈ r, ∀ b ∈ d, b ≠ 0 → w.view.overflow? (a.tdiv b) = some k) :
    w.view.signed = true ∧ r = .point w.view.minValue ∧ d = ⟨-1, 0⟩ := by
  have hquotient : ∀ a ∈ r, ∀ b ∈ d, b ≠ 0 → w.view.signed = true ∧ a = w.view.minValue ∧ b = -1 :=
    fun a ha b hb hne =>
      (IntType.overflow?_tdiv (hr.contains ha) (hd.contains hb) hne (h a ha b hb hne)).2
  obtain ⟨h1, h2⟩ := h0
  rw [Ne, nonzeroParts_eq_nil] at hparts
  have hlo := hquotient _ hr.lo_mem_self _ hd.lo_mem_self
  have hlo' := hquotient _ hr.hi_mem_self _ hd.lo_mem_self
  have hhi := hquotient _ hr.lo_mem_self _ hd.hi_mem_self
  have hne : d.lo ≠ 0 := by
    intro heq
    have := (hhi (by omega)).2.2
    omega
  obtain ⟨hs, hrlo, hdlo⟩ := hlo hne
  obtain ⟨-, hrhi, -⟩ := hlo' hne
  have hdhi : d.hi = 0 := by
    by_contra hne'
    have := (hhi hne').2.2
    omega
  exact ⟨hs, congrArg₂ Bounds.mk hrlo hrhi, congrArg₂ Bounds.mk hdlo hdhi⟩

/-- A division may fail for the divisor zero and overflow for minus one. The two are not told apart
for a range of divisors with both, which is where its flags are wrong. -/
theorem divide_diagnoses (hr : r.Proper w.view) (hy : o.Abstracts w.view Y) :
    ((division stops w o.range (divideRange stops w r)).flags trusted).Diagnoses
      (Operation.divide.errorsOn w.view w.view r.toSet Y)
      (¬OverstatesOverflow stops .divide w.view r (some o)) Q
      (OverlooksOverflow stops .divide (some o)) := by
  refine flags_diagnoses (fun hP k hk => ?_) (fun k hk => ?_) ?_
  · rintro _ ⟨a, ha, b, hb, rfl⟩
    have hb := hy.mem b hb
    rcases mem_errors_division.mp hk with ⟨rfl, -, hc⟩ | ⟨hs, hparts, hk⟩
    · exact if_pos (eq_zero_of_certain hb hc)
    have hall : ∀ a ∈ r, ∀ b ∈ o.range, b ≠ 0 → w.view.overflow? (a.tdiv b) = some k := by
      intro a ha b hb h0
      obtain ⟨span, hspan⟩ := exists_tdiv_span r hb h0
      simp only [divideRange, hspan] at hk
      exact overflow?_of_certain hk (tdiv_mem_span ha hb h0 hspan)
    rw [Operation.raised]
    split_ifs with h0
    · -- a zero that is pruned hides behind the overflow of the rest
      subst h0
      obtain ⟨hsigned, hpoint, hrange⟩ := ends_of_overflow hr hy.proper hparts hb hall
      rcases hs with hs | hs
      · exact absurd ⟨hs, rfl, hsigned, hpoint, o, rfl, hrange⟩ hP
      · exact absurd hb hs
    · exact hall a ha b hb h0
  · obtain ⟨a, ha, b, hb, hk⟩ := hk
    have hb := hy.mem b hb
    rw [Operation.raised] at hk
    split_ifs at hk with h0
    · cases hk
      exact .inl ⟨_, mem_errors_division.mpr (.inl ⟨rfl, h0 ▸ hb, rfl⟩)⟩
    by_cases hs : stops = true ∨ 0 ∉ o.range
    · obtain ⟨span, hspan⟩ := exists_tdiv_span r hb h0
      obtain ⟨c, hc⟩ :=
        exists_mem_errors_of_overflow? stops false (tdiv_mem_span ha hb h0 hspan) hk
      refine .inl ⟨c, mem_errors_division.mpr (.inr ⟨hs, fun hnil => ?_, ?_⟩)⟩
      · simp [hnil, Bounds.span?, Bounds.hull?] at hspan
      · simpa only [divideRange, hspan] using hc
    · obtain ⟨hs, hzero⟩ := not_or.mp hs
      refine .inr ⟨⟨by simpa using hs, rfl, o, rfl, not_not.mp hzero⟩, ?_⟩
      exact (IntType.overflow?_tdiv (hr.contains ha) (hy.proper.contains hb) h0 hk).1
  · rintro ⟨hs, -, _, ⟨⟩, h0⟩ c hc
    rcases mem_errors_division.mp hc with ⟨hk, -⟩ | ⟨hskip, -⟩
    · cases hk
    · simp [hs, h0] at hskip

/-- The error of a shift: some amount is outside the width, or all are. -/
theorem errors_shiftRange {d : Direction} {q : Range} :
    (shiftRange stops d w r q).errors =
      if q.lo < 0 ∨ (w.view.width : ℤ) ≤ q.hi then
        [(.positiveOverflow, decide (min q.hi (w.view.width - 1) < max q.lo 0))]
      else [] := by
  simp only [shiftRange, Bool.or_eq_true, decide_eq_true_eq]
  split
  · exact List.append_nil _
  split
  · rfl
  · refine (congrArg (List.append _) ?_).trans (List.append_nil _)
    cases d with
    | left =>
      simp only
      split_ifs
      exacts [errors_hullStep, rfl]
    | right =>
      simp only
      split <;> rfl

/-- A shift fails for amounts outside the width. -/
theorem shiftRange_diagnoses {d : Direction} {u : IntType} (hy : o.Abstracts u Y) (hR : ¬R) :
    ((shiftRange stops d w r o.range).flags trusted).Diagnoses
      ((Operation.shift d).errorsOn w.view w.view r.toSet Y) P Q R := by
  have hmem : ∀ k c, (k, c) ∈ (shiftRange stops d w r o.range).errors ↔
      (o.range.lo < 0 ∨ (w.view.width : ℤ) ≤ o.range.hi) ∧ k = .positiveOverflow ∧
        c = decide (min o.range.hi (w.view.width - 1) < max o.range.lo 0) := by
    intro k c
    rw [errors_shiftRange]
    split_ifs with hinvalid <;> simp [hinvalid]
  refine flags_diagnoses (fun _ k hk => ?_) (fun k hk => .inl ?_) fun hr => absurd hr hR
  · rintro _ ⟨a, -, b, hb, rfl⟩
    obtain ⟨-, rfl, hc⟩ := (hmem k true).mp hk
    have hlt := of_decide_eq_true hc.symm
    obtain ⟨h1, h2⟩ := hy.mem b hb
    exact if_neg (by omega)
  · obtain ⟨a, -, b, hb, hk⟩ := hk
    obtain ⟨h1, h2⟩ := hy.mem b hb
    rw [Operation.raised] at hk
    split_ifs at hk with hvalid
    cases hk
    exact ⟨_, (hmem _ _).mpr ⟨by omega, rfl, rfl⟩⟩

/-- The transfer of a range flags the errors of all executions, up to the overflows of a division by
a range around zero. -/
theorem ofRange_diagnoses (h : op.Accepts w arg out) (hr : r.Proper w.view)
    (hy : WordOperand.Represents arg argument Y) :
    ((ofRange stops op w (.word out) r argument).flags trusted).Diagnoses
      (op.errorsOn w.view out.view r.toSet Y)
      (¬OverstatesOverflow stops op w.view r argument) Q
      (OverlooksOverflow stops op argument) := by
  have hf := h.fits
  have hunary : arg = none → argument = none ∧ Y = {0} := by
    rintro rfl
    cases argument with
    | none => exact ⟨rfl, hy⟩
    | some o => exact hy.elim
  have hbinary : ∀ u, arg = some u → ∃ o, argument = some o ∧ o.Abstracts u.view Y := by
    rintro u rfl
    cases argument with
    | none => exact hy.elim
    | some o => exact ⟨o, rfl, hy⟩
  have hR : op ≠ .divide → ¬OverlooksOverflow stops op argument := fun hne hR => hne hR.2.1
  cases op with
  | prev =>
    obtain ⟨rfl, rfl⟩ := hf
    refine overflowing_diagnoses ?_ (hR (by simp))
    rintro _ ⟨a, ha, b, -, rfl⟩
    exact ⟨a - 1, ⟨sub_le_sub_right ha.1 1, sub_le_sub_right ha.2 1⟩, rfl⟩
  | next =>
    obtain ⟨rfl, rfl⟩ := hf
    refine overflowing_diagnoses ?_ (hR (by simp))
    rintro _ ⟨a, ha, b, -, rfl⟩
    exact ⟨a + 1, ⟨add_le_add_left ha.1 1, add_le_add_left ha.2 1⟩, rfl⟩
  | opposite =>
    obtain ⟨rfl, rfl⟩ := hf
    refine overflowing_diagnoses ?_ (hR (by simp))
    rintro _ ⟨a, ha, b, -, rfl⟩
    exact ⟨-a, ⟨neg_le_neg ha.2, neg_le_neg ha.1⟩, rfl⟩
  | castInt dest =>
    refine overflowing_diagnoses ?_ (hR (by simp))
    rintro _ ⟨a, ha, b, -, rfl⟩
    exact ⟨a, ha, rfl⟩
  | castFloat dest => exact hf.elim
  | plus =>
    obtain ⟨rfl, rfl⟩ := hf
    obtain ⟨o, rfl, hy⟩ := hbinary _ rfl
    refine overflowing_diagnoses ?_ (hR (by simp))
    rintro _ ⟨a, ha, b, hb, rfl⟩
    have hb := hy.mem b hb
    exact ⟨a + b, ⟨add_le_add ha.1 hb.1, add_le_add ha.2 hb.2⟩, rfl⟩
  | minus =>
    obtain ⟨rfl, rfl⟩ := hf
    obtain ⟨o, rfl, hy⟩ := hbinary _ rfl
    refine overflowing_diagnoses ?_ (hR (by simp))
    rintro _ ⟨a, ha, b, hb, rfl⟩
    have hb := hy.mem b hb
    exact ⟨a - b, ⟨sub_le_sub ha.1 hb.2, sub_le_sub ha.2 hb.1⟩, rfl⟩
  | times =>
    obtain ⟨rfl, rfl⟩ := hf
    obtain ⟨o, rfl, hy⟩ := hbinary _ rfl
    exact timesRange_diagnoses hr hy (hR (by simp))
  | divide =>
    obtain ⟨rfl, rfl⟩ := hf
    obtain ⟨o, rfl, hy⟩ := hbinary _ rfl
    exact divide_diagnoses hr hy
  | modulo =>
    obtain ⟨rfl, rfl⟩ := hf
    obtain ⟨o, rfl, hy⟩ := hbinary _ rfl
    exact modulo_diagnoses hy (hR (by simp))
  | shift d =>
    obtain ⟨hsome, rfl⟩ := hf
    obtain ⟨u, rfl⟩ := Option.isSome_iff_exists.mp hsome
    obtain ⟨o, rfl, hy⟩ := hbinary u rfl
    exact shiftRange_diagnoses hy (hR (by simp))
  | bitwise c =>
    refine flags_diagnoses_silent ?_ fun _ _ => rfl
    cases c <;> simp only [ofRange, bitwiseRange] <;> split_ifs <;> rfl
  | connective c =>
    refine flags_diagnoses_silent ?_ fun _ _ => rfl
    cases c <;> simp only [ofRange, connective] <;> split_ifs <;> rfl
  | compare c =>
    refine flags_diagnoses_silent ?_ fun _ _ => rfl
    simp only [ofRange]
    split <;> rfl
  | rotate d =>
    refine flags_diagnoses_silent ?_ fun _ _ => rfl
    simp only [ofRange, rotateRange]
    split
    · split_ifs <;> rfl
    · rfl
  | bitSet low high =>
    refine flags_diagnoses_silent ?_ fun _ _ => rfl
    simp only [ofRange, bitSetRange]
    split_ifs <;> simp
  | extremum e =>
    refine flags_diagnoses_silent ?_ fun _ _ => rfl
    cases e <;> rfl
  | logicalNegate | castBit =>
    refine flags_diagnoses_silent ?_ fun _ _ => rfl
    simp only [ofRange, zeroTest]
    split_ifs <;> rfl
  | bitNegate | extend _ _ | reduce _ _ | concat =>
    exact flags_diagnoses_silent errors_hullStep fun _ _ => rfl

end Step

end ScalarDomain
