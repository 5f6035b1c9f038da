import ScalarDomain.Proofs.Forward.Lockstep

/-!
# How deep transfers nest

A transfer opens nested transfers for the members of a list, for the values of its second operand
and for a coarser shape of its first one (`Element.Opens`). None of these chains is long: members
and listed values are constants, a coarser shape of a constant is an interval, and intervals,
folded constants and sets of floats take one step. So three levels are enough for all operands
(`Element.nestsWithin_three`). Whatever would be run below these levels does not matter, and
neither does the bound on the nesting, which is read nowhere else (`Evaluation.Deepened`).
-/

namespace ScalarDomain

variable {limit : ℕ} {op : Operation}

/-! ### Chains of nested transfers -/

namespace Element

open Evaluation

variable {x : Element} {y : Option Element} {w : WordType} {t : IntType} {f : FloatType}

/-- The nested transfers of two operands end within a number of levels. -/
def NestsWithin (limit : ℕ) (op : Operation) : ℕ → Element → Option Element → Prop
  | 0, _, _ => False
  | k + 1, x, y => ∀ x' y', Opens limit op x y x' y' → NestsWithin limit op k x' y'

theorem NestsWithin.succ {k : ℕ} (h : NestsWithin limit op k x y) :
    NestsWithin limit op (k + 1) x y := by
  induction k generalizing x y with
  | zero => exact h.elim
  | succ k ih => exact fun x' y' ho => ih (h x' y' ho)

/-- Transfers do the same on operands whose nested transfers end within some levels, whatever is run
below these levels. -/
theorem NestsWithin.alike {R : Evaluation → Evaluation → Prop} (hR : Lockstep R) {k : ℕ}
    (h : NestsWithin limit op k x y) (beyond beyond' : Transfer) :
    TransfersAlike R ((applyOver limit op)^[k] beyond) ((applyOver limit op)^[k] beyond') x y := by
  induction k generalizing x y with
  | zero => exact h.elim
  | succ k ih =>
    rw [Function.iterate_succ_apply', Function.iterate_succ_apply']
    exact applyOver_alike hR fun x' y' ho => ih (h x' y' ho)

/-- One step opens nothing. -/
theorem nestsWithin_one (h : ∀ stops result, resultType op x y = .ok result →
    ∃ s, Plan.of limit stops op result x y = .step s) : NestsWithin limit op 1 x y := by
  intro x' y' ho
  cases ho with
  | @run stops result c hresult hc =>
    obtain ⟨s, hs⟩ := h stops result hresult
    rw [hs] at hc
    cases hc
  | @promoted stops result p hresult hplan hp =>
    obtain ⟨s, hs⟩ := h stops result hresult
    exact absurd hs (hplan s)

theorem nestsWithin_interval (w : WordType) (r : Range) (y : Option Element) :
    NestsWithin limit op 1 (.word w (.interval r)) y :=
  nestsWithin_one fun stops result _ =>
    ⟨.ofRange stops op w result r (y.bind operand?), by cases w <;> rfl⟩

/-- A second operand that a constant folds with: none, or a constant word. -/
def IsFoldable (y : Option Element) : Prop :=
  ∀ o ∈ y, ∃ u b, o = .word u (.constant b)

theorem nestsWithin_fold (v : ℤ) (hy : IsFoldable y) :
    NestsWithin limit op 1 (.word w (.constant v)) y := by
  refine nestsWithin_one fun stops result _ => ?_
  cases y with
  | none => cases w <;> exact ⟨_, rfl⟩
  | some o =>
    obtain ⟨u, b, rfl⟩ := hy o rfl
    cases w <;> exact ⟨_, rfl⟩

theorem exists_wordConstant (w : WordType) (v : ℤ) :
    ∃ b, wordConstant w v = .word w (.constant b) := by
  cases w with
  | bit => exact ⟨_, congrArg (word .bit) (if_pos rfl)⟩
  | int t => exact ⟨v, congrArg (word (.int t)) (if_pos rfl)⟩

/-- The two operands of an operation are both words or both floats. -/
theorem view?_isSome_of_resultType {o : Element} {result : ScalarType} (hop : op.arity ≠ 0)
    (h : resultType op x (some o) = .ok result) : o.type.view?.isSome = x.type.view?.isSome := by
  cases x <;> cases o
  case word.word => rfl
  case float.float => rfl
  -- what is left are a word and a float
  all_goals
    cases op <;>
      simp_all [resultType, Operation.arity, Operation.checkedResultType, Operation.resultType,
        type, ScalarType.view?]

/-- Constants of a second operand. -/
private theorem mem_map_wordConstant {u : WordType} {vs : List ℤ} {c : Element × Option Element}
    (hc : c ∈ (vs.map (wordConstant u)).map fun o => (x, some o)) : c.1 = x ∧ IsFoldable c.2 := by
  obtain ⟨o, ho, rfl⟩ := List.mem_map.mp hc
  obtain ⟨b, -, rfl⟩ := List.mem_map.mp ho
  obtain ⟨b', hb⟩ := exists_wordConstant u b
  refine ⟨rfl, ?_⟩
  rintro _ ⟨⟩
  exact ⟨u, b', hb⟩

/-- What a bit opens: itself with the values of its second operand. -/
private theorem mem_opens_ofBit {stops : Bool} {result : ScalarType} {v : ℤ}
    {c : Element × Option Element}
    (hc : c ∈ (Plan.ofBit limit stops op result v y).opens x y) :
    c.1 = x ∧ IsFoldable c.2 := by
  unfold Plan.ofBit at hc
  split at hc
  · next plan hplan =>
    obtain ⟨operand, -, rfl⟩ := Option.map_eq_some_iff.mp hplan
    cases operand <;> cases hc
  split_ifs at hc
  · cases hc
  split at hc
  · dsimp only at hc
    split at hc
    · exact mem_map_wordConstant hc
    · cases hc
    · cases hc
  · cases hc

/-- What a constant integer opens: itself with the values of its second operand. -/
private theorem mem_opens_ofConstant {stops : Bool} {result : ScalarType} {v : ℤ}
    {c : Element × Option Element} (hresult : resultType op (.word w (.constant v)) y = .ok result)
    (hc : c ∈ (Plan.ofConstant stops op t result v y).opens x y) :
    c.1 = x ∧ IsFoldable c.2 := by
  unfold Plan.ofConstant at hc
  split at hc
  · next plan hplan =>
    obtain ⟨operand, -, rfl⟩ := Option.map_eq_some_iff.mp hplan
    cases operand <;> cases hc
  split_ifs at hc with harity
  · cases hc
  split at hc
  · next ys hys =>
    obtain ⟨o, rfl, hys⟩ := Option.bind_eq_some_iff.mp hys
    cases o with
    | word u s =>
      obtain ⟨vs, -, rfl⟩ := Option.map_eq_some_iff.mp hys
      exact mem_map_wordConstant hc
    | float f q => cases view?_isSome_of_resultType harity hresult
  · cases hc

/-- A constant runs over the values of its second operand, or goes through an interval. -/
theorem nestsWithin_constant (w : WordType) (v : ℤ) (y : Option Element) :
    NestsWithin limit op 2 (.word w (.constant v)) y := by
  intro x' y' ho
  cases ho with
  | @run stops result c hresult hc =>
    have hfold : c.1 = .word w (.constant v) ∧ IsFoldable c.2 := by
      cases w with
      | bit => exact mem_opens_ofBit hc
      | int t => exact mem_opens_ofConstant hresult hc
    rw [hfold.1]
    exact nestsWithin_fold v hfold.2
  | promoted hresult hplan hp =>
    cases w with
    | bit => cases hp
    | int t =>
      cases hp
      exact nestsWithin_interval _ _ _

/-- A float takes a step, or a coarser shape of it does. -/
theorem nestsWithin_float (f : FloatType) (s : FloatShape) (y : Option Element) :
    NestsWithin limit op 2 (.float f s) y := by
  have hset : ∀ {s : FloatShape}, (∀ v, s ≠ .constant v) →
      NestsWithin limit op 1 (.float f s) y := by
    intro s hs
    refine nestsWithin_one fun stops result _ => ?_
    cases s with
    | constant v => exact absurd rfl (hs v)
    | _ => exact ⟨_, rfl⟩
  cases s with
  | constant v =>
    intro x' y' ho
    cases ho with
    | @run stops result c hresult hc =>
      have hnone : (Plan.ofFloatConstant stops op f v y).opens (.float f (.constant v)) y = [] := by
        unfold Plan.ofFloatConstant
        split
        · rfl
        · rfl
        · split_ifs <;> rfl
      have hc : c ∈ (Plan.ofFloatConstant stops op f v y).opens (.float f (.constant v)) y := hc
      rw [hnone] at hc
      cases hc
    | promoted hresult hplan hp =>
      cases hp
      refine hset fun v' => ?_
      split_ifs <;> simp
  | interval r => exact (hset (by simp)).succ
  | top => exact (hset (by simp)).succ

/-- Three levels of transfers are enough for all operands. -/
theorem nestsWithin_three (limit : ℕ) (op : Operation) (x : Element) (y : Option Element) :
    NestsWithin limit op 3 x y := by
  -- a run over constants
  have hmembers : ∀ {x : Element} (xs : List Element), x.promote? = none →
      (∀ stops result, Plan.of limit stops op result x y = .members xs) →
      (∀ c ∈ xs, ∃ w v, c = .word w (.constant v)) → NestsWithin limit op 3 x y := by
    intro x xs hp hplan hxs x' y' ho
    cases ho with
    | run hresult hc =>
      rw [hplan] at hc
      obtain ⟨x', hx', rfl⟩ := List.mem_map.mp hc
      obtain ⟨w, v, rfl⟩ := hxs x' hx'
      exact nestsWithin_constant w v y
    | promoted hresult hplan hp' => cases hp.symm.trans hp'
  cases x with
  | float f s => exact (nestsWithin_float f s y).succ
  | word w s =>
    cases s with
    | constant v => exact (nestsWithin_constant w v y).succ
    | interval r => exact (nestsWithin_interval w r y).succ.succ
    | disjunction vs =>
      refine hmembers (vs.map (wordConstant w)) (by cases w <;> rfl)
        (fun _ _ => by cases w <;> rfl) fun c hc => ?_
      obtain ⟨v, -, rfl⟩ := List.mem_map.mp hc
      exact ⟨w, exists_wordConstant w v⟩
    | top =>
      cases w with
      | bit =>
        refine hmembers _ rfl (fun _ _ => rfl) fun c hc => ?_
        rcases List.mem_pair.mp hc with rfl | rfl <;> exact ⟨_, _, rfl⟩
      | int t =>
        intro x' y' ho
        cases ho with
        | run hresult hc => cases hc
        | promoted hresult hplan hp =>
          cases hp
          exact (nestsWithin_interval _ _ _).succ

end Element

/-! ### The bound on the nesting -/

/-- The parameters with another bound on the nesting. -/
def Params.withMaxDepth (p : Params) (depth : ℕ) : Params :=
  { p with maxDepth := depth }

namespace Evaluation

variable {n m k : ℕ} {e e' : Evaluation} {x : Element}

/-- The evaluation with another bound on the nesting. -/
def withMaxDepth (e : Evaluation) (depth : ℕ) : Evaluation :=
  { e with params := e.params.withMaxDepth depth }

/-- Two evaluations that only differ in their bounds on the nesting. -/
structure Deepened (n m : ℕ) (e e' : Evaluation) : Prop where
  /-- The bound of the first one. -/
  maxDepth : e.params.maxDepth = n
  /-- The second one. -/
  eq : e' = e.withMaxDepth m

/-- The bound on the nesting shows nowhere else. -/
theorem lockstep_deepened (n m : ℕ) : Lockstep (Deepened n m) where
  argument := by rintro e _ ⟨-, rfl⟩; rfl
  findings := by rintro e _ ⟨-, rfl⟩; rfl
  depth := by rintro e _ ⟨-, rfl⟩; rfl
  stops := by rintro e _ ⟨-, rfl⟩; rfl
  bound := by rintro e _ ⟨-, rfl⟩; rfl
  spawn := by rintro e _ ⟨hn, rfl⟩ y; exact ⟨hn, rfl⟩
  withFindings := by rintro e _ ⟨hn, rfl⟩ f; exact ⟨hn, rfl⟩
  flag := by rintro e _ ⟨hn, rfl⟩ kind certain; exact ⟨hn, rfl⟩
  absorbBranch := by rintro e _ child _ ⟨hn, rfl⟩ ⟨-, rfl⟩; exact ⟨hn, rfl⟩
  absorbFlags := by rintro e _ child _ ⟨hn, rfl⟩ ⟨-, rfl⟩; exact ⟨hn, rfl⟩
  sealBranches := by
    rintro e _ ⟨hn, rfl⟩
    cases hb : e.branches <;>
      exact ⟨by simpa [sealBranches, hb] using hn, by simp [sealBranches, withMaxDepth, hb]⟩

/-- Two evaluations may be the same. -/
theorem lockstep_eq : Lockstep (· = ·) := by
  constructor <;> intros <;> subst_vars <;> rfl

end Evaluation

namespace Element

open Evaluation

variable {n m k : ℕ} {e e' : Evaluation} {x : Element}

/-- A transfer does not depend on the bound on its nesting, if there is room for its levels. -/
theorem NestsWithin.apply_alike (h : NestsWithin limit op k x e.argument) (he : Deepened n m e e')
    (hn : e.depth + k ≤ n) (hm : e.depth + k ≤ m) :
    (x.apply limit op e).Relates (SameAnswer (Deepened n m)) (x.apply limit op e') := by
  have hbudget : e.budget = n - e.depth - k + k := by
    rw [budget, he.maxDepth]
    omega
  have hbudget' : e'.budget = m - e.depth - k + k := by
    rw [he.eq]
    change m - e.depth = _
    omega
  rw [apply, apply, hbudget, hbudget', applyWithin_eq_iterate, applyWithin_eq_iterate]
  exact h.alike (lockstep_deepened n m) _ _ e e' he rfl

/-- Nor does it depend on what would be run below its levels. -/
theorem NestsWithin.apply_eq_iterate (h : NestsWithin limit op k x e.argument)
    (hk : e.depth + k ≤ e.params.maxDepth) (beyond : Transfer) :
    x.apply limit op e = (applyOver limit op)^[k] beyond x e := by
  have hbudget : e.budget = e.params.maxDepth - e.depth - k + k := by
    rw [budget]
    omega
  rw [apply, hbudget, applyWithin_eq_iterate]
  refine Traced.Relates.eq ((h.alike lockstep_eq _ beyond e e rfl rfl).mono ?_)
  rintro a b ⟨h1, h2⟩
  exact Prod.ext h1 h2

end Element

end ScalarDomain
