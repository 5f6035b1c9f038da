import ScalarDomain.Proofs.Forward.Lockstep

/-!
# What information changes about a transfer

The information of the parameters is read in two places: an error is marked as certain only when
the operands are not partial, and the creation bound depends on it. So when two kinds of
information give the same creation bound, the evaluation under the weaker one is the evaluation
under the stronger one with its certain errors forgotten (`Evaluation.under`). Every update of the
state keeps two evaluations in this relation (`Evaluation.Gated`), hence a whole transfer does, with
the same events in its journal and the same fault if it ends in one.
-/

namespace ScalarDomain

/-! ### Certainty -/

namespace Information

variable {i : Information} {f g : ErrorFlags}

/-- The errors as they stand under some information: partial operands make nothing certain. -/
def gate : Information → ErrorFlags → ErrorFlags
  | .may, f => { f with certain := 0#5 }
  | .exact, f | .sure, f => f

theorem gate_none : i.gate .none = .none := by
  cases i <;> rfl

/-- An error that is marked counts as certain only if the operands are not partial. -/
theorem gate_mark {kind : ErrorKind} {certain : Bool} :
    i.gate (f.mark kind certain) = (i.gate f).mark kind (certain && i != .may) := by
  cases i <;> cases certain <;> rfl

/-- It does not matter whether errors are merged before that or after. -/
theorem gate_merge : i.gate (f.merge g) = (i.gate f).merge (i.gate g) := by
  cases i <;> simp [gate, ErrorFlags.merge]

theorem gate_mergeBranch : i.gate (f.mergeBranch g) = (i.gate f).mergeBranch (i.gate g) := by
  cases i <;> simp [gate, ErrorFlags.mergeBranch]

end Information

namespace Params

/-- The parameters with other information. -/
def withInformation (p : Params) (i : Information) : Params :=
  { p with information := i }

/-- Under the other information nothing more is certain, and results may take the same shapes. -/
structure Lowers (p : Params) (i : Information) : Prop where
  /-- Partial operands stay partial. -/
  certain : p.information = .may → i = .may
  /-- The creation bound is the same. -/
  bound : (p.withInformation i).creationBound = p.creationBound

/-- What is certain under both is what is certain under the other information. -/
theorem Lowers.certain_and {p : Params} {i : Information} (h : p.Lowers i) (b : Bool) :
    ((b && p.information != .may) && i != .may) = (b && i != .may) := by
  by_cases hp : p.information = .may
  · simp [h.certain hp]
  · simp [bne_iff_ne.mpr hp]

end Params

namespace Evaluation

variable {limit : ℕ} {p : Params} {i : Information} {e e' child child' : Evaluation}
  {transfer : Transfer}

/-- The evaluation as it stands under other information. -/
def under (i : Information) (e : Evaluation) : Evaluation :=
  { e with
    params := e.params.withInformation i
    errors := i.gate e.errors
    branches := e.branches.map i.gate }

/-- Two evaluations, of which the second is the first under other information. -/
structure Gated (p : Params) (i : Information) (e e' : Evaluation) : Prop where
  /-- The parameters of the first one. -/
  params : e.params = p
  /-- The second one. -/
  eq : e' = e.under i

@[simp] theorem under_argument : (e.under i).argument = e.argument := rfl

@[simp] theorem under_depth : (e.under i).depth = e.depth := rfl

@[simp] theorem under_budget : (e.under i).budget = e.budget := rfl

/-- Two evaluations that found the same, whatever is certain in each. -/
structure Agrees (e e' : Evaluation) : Prop where
  /-- The results. -/
  result : e'.result = e.result
  /-- The verdicts. -/
  verdict : e'.verdict = e.verdict
  /-- Whether no value flows out. -/
  empty : e'.empty = e.empty
  /-- Whether the precision changed. -/
  unstable : e'.unstable = e.unstable
  /-- The possible errors. -/
  possible : e'.errors.possible = e.errors.possible

theorem Agrees.symm (h : e.Agrees e') : e'.Agrees e :=
  ⟨h.result.symm, h.verdict.symm, h.empty.symm, h.unstable.symm, h.possible.symm⟩

/-- The evaluation with other information, and all else the same. -/
def withInformation (e : Evaluation) (i : Information) : Evaluation :=
  { e with params := e.params.withInformation i }

/-- No error is certain. -/
def IsUncertain (e : Evaluation) : Prop :=
  ∀ kind, e.errors.isCertain kind = false

/-- Evaluations start related. -/
theorem gated_start (y : Option Element) :
    Gated p i (.start p y) (.start (p.withInformation i) y) := by
  refine ⟨rfl, ?_⟩
  simp only [start, under, Information.gate_none, Option.map_none]

namespace Gated

/-- Related evaluations agree on all but what is certain. -/
theorem agrees (h : Gated p i e e') : e.Agrees e' := by
  obtain ⟨_, rfl⟩ := h
  refine ⟨rfl, rfl, rfl, rfl, ?_⟩
  cases i <;> rfl

/-- Nothing is forgotten unless the operands are partial. -/
theorem eq_withInformation (h : Gated p i e e') (hi : i ≠ .may) : e' = e.withInformation i := by
  have hgate : i.gate = id := by
    cases i with
    | may => exact absurd rfl hi
    | exact => rfl
    | sure => rfl
  rw [h.eq, under, hgate, Option.map_id]
  rfl

/-- An evaluation that is its own view under partial information knows nothing for certain. -/
theorem isUncertain (h : Gated p .may e e) : e.IsUncertain := by
  intro kind
  have herrors : e.errors = Information.may.gate e.errors := congrArg errors h.eq
  rw [herrors]
  simp [ErrorFlags.isCertain, Information.gate]

/-- An error is certain under the weaker information only if it is under the stronger. -/
theorem flag (h : Gated p i e e') (hi : p.Lowers i) (kind : ErrorKind) (certain : Bool) :
    Gated p i (e.flag kind certain) (e'.flag kind certain) := by
  obtain ⟨rfl, rfl⟩ := h
  refine ⟨rfl, ?_⟩
  simp only [Evaluation.flag, mark, under, Information.gate_mark, hi.certain_and]
  rfl

theorem absorbBranch (h : Gated p i e e') (hchild : Gated p i child child') :
    Gated p i (e.absorbBranch child) (e'.absorbBranch child') := by
  obtain ⟨rfl, rfl⟩ := h
  obtain ⟨_, rfl⟩ := hchild
  refine ⟨rfl, ?_⟩
  cases hb : e.branches <;>
    simp [Evaluation.absorbBranch, under, hb, Information.gate_mergeBranch]

theorem absorbFlags (h : Gated p i e e') (hchild : Gated p i child child') :
    Gated p i (e.absorbFlags child) (e'.absorbFlags child') := by
  obtain ⟨rfl, rfl⟩ := h
  obtain ⟨_, rfl⟩ := hchild
  refine ⟨rfl, ?_⟩
  simp only [Evaluation.absorbFlags, under, Information.gate_merge]

theorem sealBranches (h : Gated p i e e') : Gated p i e.sealBranches e'.sealBranches := by
  obtain ⟨rfl, rfl⟩ := h
  cases hb : e.branches <;>
    exact ⟨by simp [Evaluation.sealBranches, hb],
      by simp [Evaluation.sealBranches, under, hb, Information.gate_merge]⟩

end Gated

/-- The two evaluations look the same to a transfer, and all updates keep the relation. -/
theorem lockstep_gated (hi : p.Lowers i) : Lockstep (Gated p i) where
  argument := by rintro e _ ⟨-, rfl⟩; rfl
  findings := by rintro e _ ⟨-, rfl⟩; rfl
  depth := by rintro e _ ⟨-, rfl⟩; rfl
  stops := by rintro e _ ⟨-, rfl⟩; rfl
  bound := by rintro e _ ⟨rfl, rfl⟩; exact hi.bound
  spawn := by
    rintro e _ ⟨rfl, rfl⟩ y
    exact ⟨rfl, by simp only [spawn, start, under, Information.gate_none, Option.map_none]⟩
  withFindings := by rintro e _ ⟨rfl, rfl⟩ f; exact ⟨rfl, rfl⟩
  flag h := h.flag hi
  absorbBranch := Gated.absorbBranch
  absorbFlags := Gated.absorbFlags
  sealBranches := Gated.sealBranches

end Evaluation

/-! ### Transfers -/

namespace Element

open Evaluation

variable {limit : ℕ} {op : Operation} {p : Params} {i : Information}

/-- Under weaker information a transfer does the same, except that it forgets which errors are
certain. -/
theorem applyWithin_gated (hi : p.Lowers i) (budget : ℕ) (x : Element) (y : Option Element) :
    TransfersAlike (Gated p i) (applyWithin limit op budget) (applyWithin limit op budget) x y := by
  induction budget generalizing x y with
  | zero =>
    rintro e _ ⟨hp, rfl⟩ -
    rw [applyWithin, applyWithin, under_argument, under_depth]
    refine Traced.relates_lift_bind fun result _ => Traced.Relates.session ?_
    exact (Traced.relates_refl _).bind fun _ _ _ => Traced.relates_pure ⟨rfl, hp, rfl⟩
  | succ budget ih =>
    rw [applyWithin_eq_applyOver]
    exact applyOver_alike (lockstep_gated hi) fun x' y' _ => ih x' y'

/-- A transfer runs alike under both kinds of information. -/
theorem apply_gated (hi : p.Lowers i) {x : Element} {e e' : Evaluation} (h : Gated p i e e') :
    (x.apply limit op e).Relates (SameAnswer (Gated p i)) (x.apply limit op e') := by
  have hbudget : e'.budget = e.budget := by rw [h.eq, under_budget]
  rw [apply, apply, hbudget]
  exact applyWithin_gated hi e.budget x e.argument e e' h rfl

end Element

end ScalarDomain
