import ScalarDomain.Proofs.Forward.Error
import ScalarDomain.Proofs.Forward.Transfer

/-!
# Error flags of forward transfers

What the flags of `Element.apply` say about the errors of all executions. Flags travel with the
results: a step leaves its flags in the evaluation, and the flags of several branches are gathered
into those of their union, certain if certain in all branches and possible if possible in one
(`Evaluation.Gathers`). They depend on nothing else, so all that is said about a transfer here is
what it ensures if it returns; that it does is known from its report.

A certain error is raised by every execution, and every error of some execution is possible, except
for the overflow of the smallest value divided by minus one when zero is a divisor as well.
-/

namespace ScalarDomain

variable {limit : ℕ} {op : Operation} {w out : WordType} {arg : Option WordType} {params : Params}
  {s : Shape} {x : Element} {y : Option Element} {e child : Evaluation} {transfer : Transfer}
  {E : Set (Option ErrorKind)} {P Q R : Prop}

/-! ### Flags of branches -/

namespace ErrorFlags

variable {f g : ErrorFlags} {fs : List ErrorFlags}

/-- The flags of several branches together. -/
structure Sums (fs : List ErrorFlags) (f : ErrorFlags) : Prop where
  /-- What is certain is certain in every branch, and there is one. -/
  certain : ∀ k, f.isCertain k = true ↔ fs ≠ [] ∧ ∀ g ∈ fs, g.isCertain k = true
  /-- What is possible is possible in some branch. -/
  possible : ∀ k, f.isPossible k = true ↔ ∃ g ∈ fs, g.isPossible k = true

theorem sums_nil : none.Sums [] where
  certain k := by simp
  possible k := by simp

theorem sums_singleton : f.Sums [f] where
  certain k := by simp
  possible k := by simp

/-- One more branch is added to the flags of those before it. -/
theorem Sums.mergeBranch (h : f.Sums fs) (hfs : fs ≠ []) : (f.mergeBranch g).Sums (fs ++ [g]) where
  certain k := by
    rw [isCertain_mergeBranch, h.certain k]
    simp [hfs, or_imp, forall_and]
  possible k := by
    rw [isPossible_mergeBranch, h.possible k]
    simp [or_and_right, exists_or]

/-- Branches that each describe the errors of a case describe the errors of all cases. -/
theorem Sums.diagnoses {α : Type} (cases : List α) (sets : α → Set (Option ErrorKind))
    (conditions : α → Prop) (h : f.Sums fs)
    (hcases : ∀ c ∈ cases, ∃ g ∈ fs, g.Diagnoses (sets c) (conditions c) Q R)
    (hflags : ∀ g ∈ fs, ∃ c ∈ cases, g.Diagnoses (sets c) (conditions c) Q R)
    (hE : ∀ o, o ∈ E ↔ ∃ c ∈ cases, o ∈ sets c)
    (hP : P → ∀ k, (∀ c ∈ cases, conditions c → ∀ o ∈ sets c, o = some k) → ∀ o ∈ E, o = some k) :
    f.Diagnoses E P Q R where
  certain hp k hk := by
    refine hP hp k fun c hc hcond => ?_
    obtain ⟨g, hg, hd⟩ := hcases c hc
    exact hd.certain hcond k (((h.certain k).mp hk).2 g hg)
  possible hq k hk := by
    obtain ⟨c, hc, hkc⟩ := (hE _).mp hk
    obtain ⟨g, hg, hd⟩ := hcases c hc
    exact (hd.possible hq k hkc).imp_left fun hpos => (h.possible k).mpr ⟨g, hg, hpos⟩
  silent hr := by
    rw [← Bool.not_eq_true, h.possible]
    rintro ⟨g, hg, hpos⟩
    obtain ⟨c, -, hd⟩ := hflags g hg
    simp [hd.silent hr] at hpos

end ErrorFlags

namespace Evaluation

/-- No error has been found yet. -/
structure Clean (e : Evaluation) : Prop where
  /-- No error is flagged. -/
  errors : e.errors = .none
  /-- No branch has been joined. -/
  branches : e.branches = none

theorem clean_start (params : Params) (argument : Option Element) : (start params argument).Clean :=
  ⟨rfl, rfl⟩

theorem clean_spawn (e : Evaluation) (argument : Option Element) : (e.spawn argument).Clean :=
  ⟨rfl, rfl⟩

/-! ### Performing a step -/

/-- A delivery does not change the flags. -/
private theorem deliver_errors (limit : ℕ) (e : Evaluation) (d : Delivery) :
    (e.deliver limit d).Ensures fun e' => e'.errors = e.errors := by
  cases d with
  | nothing => exact Traced.ensures_pure rfl
  | words ty r exact =>
    rw [deliver]
    split
    · exact Traced.ensures_pure rfl
    split
    · exact (Traced.ensures_lift fun _ _ => trivial).bind fun _ (_ : True) =>
        Traced.ensures_pure rfl
    · exact (Traced.ensures_record _).bind fun _ _ => Traced.ensures_pure rfl
  | floats ty s exact =>
    rw [deliver]
    split
    · exact Traced.ensures_pure rfl
    simp only
    split
    · exact (Traced.ensures_record _).bind fun _ _ => Traced.ensures_pure rfl
    · exact Traced.ensures_pure rfl

/-- A step leaves its flags in a clean evaluation. -/
theorem perform_flags (limit : ℕ) (step : Step) (he : e.Clean) :
    (e.perform limit step).Ensures fun e' =>
      e'.errors = step.flags (e.params.information != .may) := by
  have hfold : ∀ (errors : List (ErrorKind × Bool)) (e : Evaluation),
      (errors.foldl (fun e error => e.flag error.1 error.2) e).errors =
        errors.foldl (fun f error => f.mark error.1 (error.2 && e.params.information != .may))
          e.errors := by
    intro errors
    induction errors with
    | nil => exact fun _ => rfl
    | cons error errors ih => exact fun e => ih (e.flag error.1 error.2)
  refine (deliver_errors limit _ _).mono fun e' he' => ?_
  rw [he', hfold, he.errors, Step.flags]

/-! ### Joining branches -/

/-- The flags of the branches that an evaluation has joined so far. -/
structure Gathers (fs : List ErrorFlags) (e : Evaluation) : Prop where
  /-- No error is flagged outside the branches. -/
  errors : e.errors = .none
  /-- The flags of the branches are put together. -/
  branches : (e.branches = none ∧ fs = []) ∨ fs ≠ [] ∧ ∃ f, e.branches = some f ∧ f.Sums fs

variable {fs : List ErrorFlags}

/-- A clean evaluation has gathered no flags. -/
theorem Clean.gathers (h : e.Clean) : e.Gathers [] :=
  ⟨h.errors, .inl ⟨h.branches, rfl⟩⟩

/-- A joined branch changes the result and the flags only. -/
theorem finish_fields {e' : Evaluation} (h : e.finish limit child = .ok e') :
    e'.errors = e.errors ∧ e'.branches = (e.absorbBranch child).branches ∧
      e'.params = e.params ∧ e'.unstable = (e.unstable || child.unstable) := by
  rw [finish] at h
  split at h
  · cases h
    exact ⟨rfl, rfl, rfl, rfl⟩
  split at h
  · cases h
    exact ⟨rfl, rfl, rfl, rfl⟩
  · cases h
    exact ⟨rfl, rfl, rfl, rfl⟩
  · next x previous _ _ =>
    cases hj : previous.join limit x with
    | error fault => rw [hj] at h; cases h
    | ok joined =>
      rw [hj] at h
      cases h
      simp only [withResult]
      split <;> exact ⟨rfl, rfl, rfl, rfl⟩

/-- Joining a branch gathers its flags. -/
theorem Gathers.finish {e' : Evaluation} (h : e.Gathers fs) (he' : e.finish limit child = .ok e') :
    e'.Gathers (fs ++ [child.errors]) ∧ e'.params = e.params := by
  obtain ⟨h1, h2, h3, -⟩ := finish_fields he'
  refine ⟨⟨h1.trans h.errors, .inr ⟨by simp, ?_⟩⟩, h3⟩
  rw [h2, absorbBranch]
  rcases h.branches with ⟨hb, rfl⟩ | ⟨hfs, f, hb, hf⟩
  · exact ⟨child.errors, by simp only [hb], ErrorFlags.sums_singleton⟩
  · exact ⟨f.mergeBranch child.errors, by simp only [hb], hf.mergeBranch hfs⟩

/-- At the end the evaluation has the flags of all branches. -/
theorem Gathers.sealJoin (h : e.Gathers fs) : e.sealJoin.errors.Sums fs := by
  have hseal : e.sealJoin.errors = e.sealBranches.errors := by
    rw [Evaluation.sealJoin]
    split_ifs <;> rfl
  rw [hseal, sealBranches]
  rcases h.branches with ⟨hb, rfl⟩ | ⟨-, f, hb, hf⟩
  · simp only [hb, h.errors]
    exact ErrorFlags.sums_nil
  · simp only [hb, h.errors, ErrorFlags.none_merge]
    exact hf

/-- A transfer flags the errors `E` for two operands, in every clean evaluation of given
parameters. -/
def DiagnosesOn (params : Params) (transfer : Transfer) (operands : Element × Option Element)
    (E : Set (Option ErrorKind)) (P Q R : Prop) : Prop :=
  ∀ e : Evaluation, e.Clean → e.params = params → e.argument = operands.2 →
    (transfer operands.1 e).Ensures fun r => r.1 = true ∧ r.2.errors.Diagnoses E P Q R

/-- A diagnosis holds under stronger conditions. -/
theorem DiagnosesOn.weaken {operands : Element × Option Element} {P' Q' R' : Prop}
    (h : DiagnosesOn params transfer operands E P Q R) (hP : P' → P) (hQ : Q' → Q) (hR : R' ↔ R) :
    DiagnosesOn params transfer operands E P' Q' R' := fun e he hp hy =>
  (h e he hp hy).mono fun _ hr => ⟨hr.1, hr.2.weaken hP hQ hR⟩

/-- A nested transfer is joined in. -/
theorem Gathers.nested {x : Element} {y : Option Element} (h : e.Gathers fs)
    (hp : e.params = params) (hx : DiagnosesOn params transfer (x, y) E P Q R) :
    (e.nested limit transfer x y).Ensures fun r => r.1 = true ∧ r.2.params = params ∧
      ∃ f : ErrorFlags, f.Diagnoses E P Q R ∧ r.2.Gathers (fs ++ [f]) := by
  refine (hx (e.spawn y) (clean_spawn e y) hp rfl).bind ?_
  rintro ⟨handled, child⟩ ⟨hh, hc⟩
  refine (Traced.ensures_lift fun e' he' => h.finish he').bind fun e' he' => ?_
  exact Traced.ensures_pure ⟨hh, he'.2.trans hp, child.errors, hc, he'.1⟩

/-- Nested transfers that each flag the errors of their operands are run one after the other, and
their flags are put together. -/
theorem Gathers.runAll {sets : Element × Option Element → Set (Option ErrorKind)}
    {conditions : Element × Option Element → Prop} (cases : List (Element × Option Element))
    (h : e.Gathers fs) (hp : e.params = params)
    (hcases : ∀ c ∈ cases, DiagnosesOn params transfer c (sets c) (conditions c) Q R) :
    (runAll limit transfer cases e).Ensures fun r => r.1 = true ∧ ∃ gs : List ErrorFlags,
      r.2.errors.Sums (fs ++ gs) ∧
        (∀ c ∈ cases, ∃ g ∈ gs, g.Diagnoses (sets c) (conditions c) Q R) ∧
        ∀ g ∈ gs, ∃ c ∈ cases, g.Diagnoses (sets c) (conditions c) Q R := by
  induction cases generalizing e fs with
  | nil => exact Traced.ensures_pure ⟨rfl, [], by simpa using h.sealJoin, by simp, by simp⟩
  | cons c rest ih =>
    obtain ⟨x, y⟩ := c
    refine (h.nested hp (hcases _ List.mem_cons_self)).bind ?_
    rintro ⟨handled, e'⟩ ⟨rfl, hp', f, hf, he'⟩
    refine (ih he' hp' fun c hc => hcases c (List.mem_cons_of_mem _ hc)).mono ?_
    rintro r ⟨hr, gs, hsum, hgs, hcs⟩
    refine ⟨hr, f :: gs, by simpa using hsum, ?_, ?_⟩
    · simp only [List.mem_cons]
      rintro c (rfl | hc)
      · exact ⟨f, .inl rfl, hf⟩
      · obtain ⟨g, hg, hd⟩ := hgs c hc
        exact ⟨g, .inr hg, hd⟩
    · simp only [List.mem_cons]
      rintro g (rfl | hg)
      · exact ⟨_, .inl rfl, hf⟩
      · obtain ⟨c, hc, hd⟩ := hcs g hg
        exact ⟨c, .inr hc, hd⟩

end Evaluation

/-! ### Where flags cannot be trusted -/

namespace Operation

/-- Errors end the execution, and the smallest value of a signed type is divided by minus one or
zero: the overflow is called certain although a division by zero raises another error. -/
def OverstatesOverflow (stops : Bool) (op : Operation) (x : Element) (y : Option Element) : Prop :=
  stops = true ∧ op = .divide ∧ ∃ t q, t.signed = true ∧
    x = .word (.int t) (.constant t.minValue) ∧ y = some (.word (.int t) q) ∧
      q.precision ≠ .disjunction ∧ q.bounds t = ⟨-1, 0⟩

/-- Errors do not end the execution, and the ends of the divisor lie around zero: the division is
not carried out value by value, and no overflow is flagged. -/
def OverlooksOverflow (stops : Bool) (op : Operation) (x : Element) (y : Option Element) : Prop :=
  stops = false ∧ op = .divide ∧ ∃ t s q, x = .word (.int t) s ∧ y = some (.word (.int t) q) ∧
    0 ∈ q.bounds t ∧ (q.precision = .disjunction → s.precision = .interval ∨ s.precision = .top)

variable {stops : Bool}

/-- Only against a list does the shape of the first operand matter. -/
theorem overlooks_congr {s' : Shape}
    (h : ∀ u q, y = some (.word u q) → q.precision = .disjunction →
      (s.precision = .interval ∨ s.precision = .top ↔
        s'.precision = .interval ∨ s'.precision = .top)) :
    op.OverlooksOverflow stops (.word w s) y ↔ op.OverlooksOverflow stops (.word w s') y := by
  constructor
  · rintro ⟨hs, hop, t, _, q, hx, rfl, h0, hq⟩
    cases hx
    exact ⟨hs, hop, t, s', q, rfl, rfl, h0, fun hd => (h _ q rfl hd).mp (hq hd)⟩
  · rintro ⟨hs, hop, t, _, q, hx, rfl, h0, hq⟩
    cases hx
    exact ⟨hs, hop, t, s, q, rfl, rfl, h0, fun hd => (h _ q rfl hd).mpr (hq hd)⟩

/-- An interval overlooks what its step overlooks. -/
theorem overlooks_interval_iff {t : IntType} {r : Range} (h : op.Accepts (.int t) arg out)
    (hy : IsOperand limit arg y) :
    op.OverlooksOverflow stops (.word (.int t) (.interval r)) y ↔
      Step.OverlooksOverflow stops op (y.bind Element.operand?) := by
  constructor
  · rintro ⟨hs, hop, t', _, q, hx, rfl, h0, -⟩
    cases hx
    exact ⟨hs, hop, _, rfl, h0⟩
  · rintro ⟨hs, rfl, o, ho, h0⟩
    obtain ⟨rfl, -⟩ := h.fits
    cases y with
    | none => exact hy.elim
    | some y =>
      obtain ⟨q, rfl, -⟩ := hy
      cases ho
      exact ⟨hs, rfl, t, _, q, rfl, rfl, h0, fun _ => .inl rfl⟩

end Operation

namespace Element

open Evaluation

/-! ### Rules for one level of nesting -/

/-- Without nesting left no error is flagged. -/
theorem diagnosesOn_zero (hQ : ¬Q) :
    DiagnosesOn params (applyWithin limit op 0) (x, y) E P Q R := by
  rintro e he rfl rfl
  rw [applyWithin]
  refine (Traced.ensures_lift fun _ _ => trivial).bind fun result (_ : True) => ?_
  refine Traced.ensures_session ((Traced.ensures_record _).bind fun _ _ => ?_)
  refine Traced.ensures_pure ⟨rfl, ?_⟩
  change e.errors.Diagnoses E P Q R
  rw [he.errors]
  exact ⟨fun _ k hk => by simp at hk, fun hq => absurd hq hQ, fun _ => ErrorFlags.isPossible_none⟩

/-- With nesting left, the flags are those of the plan or of a coarser shape. -/
private theorem applyWithin_flags {budget : ℕ}
    (hres : resultType op x e.argument = .ok (.word out))
    (h : (e.runPlan limit (applyWithin limit op budget) op x
        (Plan.of limit e.params.stops op (.word out) x e.argument)).Ensures
          (fun r => r.1 = true ∧ r.2.errors.Diagnoses E P Q R) ∨
      Plan.of limit e.params.stops op (.word out) x e.argument = .declined ∧
        (e.runPromoted limit (applyWithin limit op budget) op x).Ensures
          fun r => r.1 = true ∧ r.2.errors.Diagnoses E P Q R) :
    (applyWithin limit op (budget + 1) x e).Ensures
      fun r => r.1 = true ∧ r.2.errors.Diagnoses E P Q R := by
  rw [applyWithin]
  refine (Traced.ensures_lift (P := fun result => result = .word out) fun result h => ?_).bind ?_
  · exact Except.ok.inj (h.symm.trans hres)
  rintro _ rfl
  refine Traced.ensures_session ?_
  have hconcluded : ∀ r : Bool × Evaluation, r.1 = true ∧ r.2.errors.Diagnoses E P Q R →
      (concluded op x r).Ensures fun r => r.1 = true ∧ r.2.errors.Diagnoses E P Q R :=
    fun _ hr => (returns_concluded (Q := fun e => e.errors.Diagnoses E P Q R) (fun _ he => he)
      hr).ensures
  rcases h with h | ⟨hd, h⟩
  · refine h.bind ?_
    rintro ⟨planned, e'⟩ ⟨rfl, he'⟩
    exact hconcluded (true, e') ⟨rfl, he'⟩
  · rw [hd]
    refine (Traced.ensures_pure (P := fun r => r = (false, e)) rfl).bind ?_
    rintro _ rfl
    exact h.bind hconcluded

/-- A plan of one step leaves the flags of the step. -/
theorem diagnosesOn_step {budget : ℕ} (step : Step)
    (hres : resultType op x y = .ok (.word out))
    (hplan : Plan.of limit params.stops op (.word out) x y = .step step)
    (h : (step.flags (params.information != .may)).Diagnoses E P Q R) :
    DiagnosesOn params (applyWithin limit op (budget + 1)) (x, y) E P Q R := by
  rintro e he rfl rfl
  refine applyWithin_flags hres (.inl ?_)
  rw [hplan]
  refine (perform_flags limit step he).bind fun e' he' => Traced.ensures_pure ⟨rfl, ?_⟩
  change e'.errors.Diagnoses E P Q R
  exact he' ▸ h

/-- A coarser shape hands on its flags. -/
theorem diagnosesOn_promoted {budget : ℕ} {promoted : Element}
    (hres : resultType op x y = .ok (.word out))
    (hplan : Plan.of limit params.stops op (.word out) x y = .declined)
    (hpromote : x.promote? = some promoted)
    (h : DiagnosesOn params (applyWithin limit op budget) (promoted, y) E P Q R) :
    DiagnosesOn params (applyWithin limit op (budget + 1)) (x, y) E P Q R := by
  rintro e he rfl rfl
  refine applyWithin_flags hres (.inr ⟨hplan, ?_⟩)
  rw [runPromoted, hpromote]
  refine (Traced.ensures_record _).bind fun _ _ => (he.gathers.nested rfl h).bind ?_
  rintro ⟨handled, e'⟩ ⟨rfl, -, f, hf, he'⟩
  refine Traced.ensures_pure
    ⟨rfl, he'.sealJoin.diagnoses [()] (fun _ => E) (fun _ => P) ?_ ?_ ?_ ?_⟩
  · exact fun _ _ => ⟨f, by simp, hf⟩
  · intro g hg
    simp only [List.nil_append, List.mem_singleton] at hg
    exact ⟨(), by simp, hg ▸ hf⟩
  · simp
  · exact fun hp k hall => hall () (by simp) hp

/-- A run over pairs of operands puts their flags together. -/
theorem diagnosesOn_run {budget : ℕ} {t o : IntType} {cases : List (Element × Option Element)}
    (hres : resultType op x y = .ok (.word out))
    (hplan : (∃ xs, Plan.of limit params.stops op (.word out) x y = .members xs ∧
        cases = xs.map fun x => (x, y)) ∨
      ∃ ys noted, Plan.of limit params.stops op (.word out) x y = .arguments ys noted ∧
        cases = ys.map fun y => (x, some y))
    (hcases : ∀ c ∈ cases, DiagnosesOn params (applyWithin limit op budget) c
      (op.errorsOn t o c.1.values (operandValues c.2)) (¬op.OverstatesOverflow params.stops c.1 c.2)
      Q R)
    (hE : ∀ a, a ∈ E ↔ ∃ c ∈ cases, a ∈ op.errorsOn t o c.1.values (operandValues c.2))
    (hP : P → ∀ k, (∀ c ∈ cases, ¬op.OverstatesOverflow params.stops c.1 c.2 →
      ∀ a ∈ op.errorsOn t o c.1.values (operandValues c.2), a = some k) → ∀ a ∈ E, a = some k) :
    DiagnosesOn params (applyWithin limit op (budget + 1)) (x, y) E P Q R := by
  rintro e he rfl rfl
  have hrun : (runAll limit (applyWithin limit op budget) cases e).Ensures
      fun r => r.1 = true ∧ r.2.errors.Diagnoses E P Q R := by
    refine (he.gathers.runAll cases rfl hcases).mono ?_
    rintro r ⟨hr, gs, hsum, hgs, hcs⟩
    exact ⟨hr, hsum.diagnoses cases _ _ hgs hcs hE hP⟩
  refine applyWithin_flags hres (.inl ?_)
  rcases hplan with ⟨xs, hplan, rfl⟩ | ⟨ys, noted, hplan, rfl⟩
  · rw [hplan]
    exact hrun
  · rw [hplan]
    cases noted with
    | false => exact hrun
    | true => exact (Traced.ensures_record _).bind fun _ _ => hrun

/-! ### The flags of each kind -/

/-- Two constants have one execution. -/
private theorem errorsOn_constant {v b : ℤ} {t o : IntType} (hY : operandValues y = {b}) :
    op.errorsOn t o (word w (.constant v)).values (operandValues y) = {op.raised t o v b} := by
  ext a
  rw [hY]
  constructor
  · rintro ⟨v', hv', _, rfl, rfl⟩
    rw [mem_values_word, Shape.contains_constant] at hv'
    rw [hv', Set.mem_singleton_iff]
  · rintro rfl
    exact ⟨v, Shape.contains_constant.mpr rfl, b, rfl, rfl⟩

/-- Two constants are executed. -/
theorem fold_diagnoses (budget : ℕ) {v b : ℤ} (h : op.Accepts w arg out)
    (hy : IsOperand limit arg y) (hY : operandValues y = {b})
    (hfold : Plan.fold? params.stops op w (.word out) v y =
      some (.step (.foldWord params.stops op w (arg.getD w) (.word out) v b)))
    (hR : R → op.raised w.view out.view v b ≠ some .positiveOverflow) :
    DiagnosesOn params (applyWithin limit op budget) (.word w (.constant v), y)
      (op.errorsOn w.view out.view (word w (.constant v)).values (operandValues y)) P (1 ≤ budget)
      R := by
  cases budget with
  | zero => exact diagnosesOn_zero (by omega)
  | succ budget =>
    refine diagnosesOn_step (.foldWord params.stops op w (arg.getD w) (.word out) v b)
      (resultType_eq_ok h hy) ?_ ?_
    · cases w <;> simp only [Plan.of, Plan.ofBit, Plan.ofConstant, hfold]
    · rw [errorsOn_constant hY]
      exact Step.foldWord_diagnoses h hR

/-- An interval is one transfer step. -/
private theorem interval_diagnoses (budget : ℕ) {t : IntType} {r : Range}
    (h : op.Accepts (.int t) arg out) (hr : r.Proper t) (hy : IsOperand limit arg y) :
    DiagnosesOn params (applyWithin limit op budget) (.word (.int t) (.interval r), y)
      (op.errorsOn t out.view (word (.int t) (.interval r)).values (operandValues y))
      (¬Step.OverstatesOverflow params.stops op t r (y.bind operand?)) (1 ≤ budget)
      (op.OverlooksOverflow params.stops (.word (.int t) (.interval r)) y) := by
  cases budget with
  | zero => exact diagnosesOn_zero (by omega)
  | succ budget =>
    have hvalues : (word (.int t) (.interval r)).values = r.toSet := by
      ext v
      exact Shape.contains_interval
    refine diagnosesOn_step _ (resultType_eq_ok h hy) rfl ?_
    rw [hvalues, Operation.overlooks_interval_iff h hy]
    exact Step.ofRange_diagnoses h hr (Operation.represents_operand hy)

/-- A bit only fails in a shift when its second operand cannot be listed. -/
private theorem shift_of_raised_bit {u : WordType} {q : Shape} {t o : IntType} {k : ErrorKind}
    {a b : ℤ} (h : op.Accepts .bit (some u) out) (hq : q.WellFormed limit u)
    (hvals : (word u q).intValues? = none) (hk : op.raised t o a b = some k) :
    (∃ d, op = .shift d) ∧ k = .positiveOverflow := by
  have hu : u ≠ .bit := by
    rintro rfl
    cases q with
    | constant c => cases hvals
    | interval r => exact hq.proper.1 rfl
    | disjunction vs => cases hvals
    | top => cases hvals
  have hf := h.fits
  cases op with
  | shift d =>
    rw [Operation.raised] at hk
    split_ifs at hk
    cases hk
    exact ⟨⟨d, rfl⟩, rfl⟩
  | plus | minus | times | divide | modulo => exact absurd (Option.some.inj hf.1) hu
  | prev | next | opposite | castInt _ => cases hf.1
  | _ => cases hk

/-- A constant is executed with the values of its second operand, one by one. -/
private theorem arguments_diagnoses (budget : ℕ) {v : ℤ} {u : WordType} {q : Shape} {vs : List ℤ}
    {noted : Bool} (h : op.Accepts w (some u) out) (hq : q.WellFormed limit u)
    (hvs : ∀ n, n ∈ vs ↔ q.contains u.view n = true)
    (hplan : Plan.of limit params.stops op (.word out) (.word w (.constant v)) (some (.word u q)) =
      .arguments (vs.map (wordConstant u)) noted) :
    DiagnosesOn params (applyWithin limit op (budget + 1)) (.word w (.constant v), some (.word u q))
      (op.errorsOn w.view out.view (word w (.constant v)).values
        (operandValues (some (word u q)))) P (1 ≤ budget) False := by
  have hmem : ∀ n ∈ vs, u.view.contains n = true := fun n hn => hq.proper.contains ((hvs n).mp hn)
  have hpairs := fun a => exists_argument_iff (x := word w (.constant v))
    (R := fun v b => op.raised w.view out.view v b = a) hvs hmem
  refine diagnosesOn_run (resultType_eq_ok h (isWord_word hq)) (.inr ⟨_, noted, hplan, rfl⟩) ?_
    hpairs ?_
  · intro c hc
    obtain ⟨y, hy, rfl⟩ := List.mem_map.mp hc
    obtain ⟨n, hn, rfl⟩ := List.mem_map.mp hy
    rw [wordConstant_eq (hmem n hn)]
    refine fold_diagnoses budget h (isWord_word (Shape.wellFormed_constant (hmem n hn))) (b := n)
      ?_ rfl False.elim
    ext a
    exact Shape.contains_constant
  · intro _ k hall a ha
    obtain ⟨c, hc, ha⟩ := (hpairs a).mp ha
    refine hall c hc ?_ a ha
    -- a constant is no range around zero
    obtain ⟨y, hy, rfl⟩ := List.mem_map.mp hc
    obtain ⟨n, hn, rfl⟩ := List.mem_map.mp hy
    rw [wordConstant_eq (hmem n hn)]
    rintro ⟨-, -, t, _, -, -, ⟨⟩, -, hbounds⟩
    simp only [Shape.bounds, Bounds.point, Bounds.mk.injEq] at hbounds
    omega

/-- A constant is executed with a listed second operand, or handed over to an interval. -/
private theorem constant_diagnoses (budget : ℕ) {v : ℤ} (h : op.Accepts w arg out)
    (hv : w.view.contains v = true) (hy : IsOperand limit arg y) :
    DiagnosesOn params (applyWithin limit op budget) (.word w (.constant v), y)
      (op.errorsOn w.view out.view (word w (.constant v)).values (operandValues y))
      (¬op.OverstatesOverflow params.stops (.word w (.constant v)) y) (2 ≤ budget)
      (op.OverlooksOverflow params.stops (.word w (.constant v)) y) := by
  rcases fold?_cases op w out params.stops v hy with
    ⟨b, hY, -, hfold⟩ | ⟨u, q, rfl, rfl, hq, hfold⟩
  · refine (fold_diagnoses budget h hy hY hfold ?_).weaken id (by omega) Iff.rfl
    -- around zero there is only the constant zero
    rintro ⟨-, rfl, t, _, q, -, rfl, ⟨h1, h2⟩, -⟩
    obtain ⟨rfl, -⟩ := h.fits
    obtain ⟨q', hq', hq⟩ := hy
    cases hq'
    have hlo : (q.bounds t).lo ∈ operandValues (some (word (.int t) q)) := hq.proper.contains_lo
    have hhi : (q.bounds t).hi ∈ operandValues (some (word (.int t) q)) := hq.proper.contains_hi
    rw [hY, Set.mem_singleton_iff] at hlo hhi
    rw [Operation.raised, if_pos (by omega)]
    simp
  cases budget with
  | zero => exact diagnosesOn_zero (by omega)
  | succ budget =>
    have harity : op.arity ≠ 0 := by
      have := h.operands.mp rfl
      omega
    cases w with
    | bit =>
      have hno :
          ¬op.OverlooksOverflow params.stops (.word .bit (.constant v)) (some (.word u q)) := by
        rintro ⟨-, -, t, _, _, ⟨⟩, -⟩
      rcases ofBit_cases harity hfold with ⟨vs, hp, hvs, -⟩ | ⟨⟨hvals, -⟩, errors, herrors, hp⟩
      · exact (arguments_diagnoses budget h hq hvs hp).weaken id (by omega) (iff_false_intro hno)
      · refine diagnosesOn_step _ (resultType_eq_ok h hy) hp (Step.flags_diagnoses ?_ ?_ ?_)
        · intro _ k hk
          simp [herrors] at hk
        · rintro k ⟨a, -, b, -, hk⟩
          obtain ⟨hd, rfl⟩ := shift_of_raised_bit h hq hvals hk
          exact .inl ⟨false, by simp [herrors, hd]⟩
        · exact fun hR => absurd hR hno
    | int t =>
      have hplan : Plan.of limit params.stops op (.word out) (.word (.int t) (.constant v))
          (some (.word u q)) =
            (members? (word u q)).elim .declined fun ys => .arguments ys true := by
        simp only [Plan.of, Plan.ofConstant, hfold, if_neg harity, Option.bind_some]
        cases members? (word u q) <;> rfl
      cases hvals : (word u q).intValues? with
      | some vs =>
        rw [members?, hvals] at hplan
        refine (arguments_diagnoses budget h hq (fun n => mem_intValues? hvals) hplan).weaken id
          (by omega) (iff_false_intro ?_)
        -- a listed second operand that is no constant is a list
        rintro ⟨-, -, t', _, q', ⟨⟩, hq', -, hlist⟩
        cases hq'
        cases q with
        | constant c => cases hfold
        | disjunction us => simp [Shape.precision] at hlist
        | _ => cases hvals
      | none =>
        rw [members?, hvals] at hplan
        have hvalues : (word (.int t) (.constant v)).values =
            (word (.int t) (.interval (.point v))).values := by
          ext n
          rw [mem_values_word, mem_values_word, Shape.contains_constant, Shape.contains_interval,
            Bounds.mem_point]
        have hconvex := precision_of_intValues? hvals
        rw [hvalues]
        refine diagnosesOn_promoted (resultType_eq_ok h hy) hplan rfl
          ((interval_diagnoses budget h (.point hv) hy).weaken ?_ (by omega) ?_)
        · rintro hP ⟨hs, rfl, hsigned, hpoint, o, ho, hrange⟩
          obtain ⟨hu, -⟩ := h.fits
          cases hu
          cases ho
          cases hpoint
          exact hP ⟨hs, rfl, t, q, hsigned, rfl, rfl, hconvex, hrange⟩
        · refine Operation.overlooks_congr fun u' q' hu hd => ?_
          cases hu
          exact absurd hd hconvex

/-- A word is transferred by its values, one by one. -/
private theorem members_diagnoses (budget : ℕ) {vs : List ℤ} (h : op.Accepts w arg out)
    (hy : IsOperand limit arg y) (hvs : ∀ v, v ∈ vs ↔ s.contains w.view v = true)
    (hmem : ∀ v ∈ vs, w.view.contains v = true)
    (hplan : Plan.of limit params.stops op (.word out) (.word w s) y =
      .members (vs.map (wordConstant w)))
    (hR : ∀ v, op.OverlooksOverflow params.stops (.word w s) y ↔
      op.OverlooksOverflow params.stops (.word w (.constant v)) y)
    (hother : ∀ v ∈ vs, w ≠ .bit → ∃ v' ∈ vs, v' ≠ v) :
    DiagnosesOn params (applyWithin limit op (budget + 1)) (.word w s, y)
      (op.errorsOn w.view out.view (word w s).values (operandValues y)) P (2 ≤ budget)
      (op.OverlooksOverflow params.stops (.word w s) y) := by
  have hpairs := fun a => exists_member_iff (y := y)
    (R := fun v b => op.raised w.view out.view v b = a) hvs hmem
  refine diagnosesOn_run (resultType_eq_ok h hy) (.inl ⟨_, hplan, rfl⟩) ?_ hpairs ?_
  · intro c hc
    obtain ⟨x, hx, rfl⟩ := List.mem_map.mp hc
    obtain ⟨v, hv, rfl⟩ := List.mem_map.mp hx
    rw [wordConstant_eq (hmem v hv)]
    exact (constant_diagnoses budget h (hmem v hv) hy).weaken id id (hR v)
  · intro _ k hall a ha
    obtain ⟨c, hc, ha⟩ := (hpairs a).mp ha
    by_cases hover : op.OverstatesOverflow params.stops c.1 c.2
    · -- only one value overflows, and another one does not
      exfalso
      obtain ⟨x, hx, rfl⟩ := List.mem_map.mp hc
      obtain ⟨v, hv, rfl⟩ := List.mem_map.mp hx
      rw [wordConstant_eq (hmem v hv)] at hover
      obtain ⟨-, rfl, t, q, -, hx, rfl, -, hbounds⟩ := hover
      cases hx
      obtain ⟨v', hv', hne⟩ := hother _ hv (by simp)
      obtain ⟨rfl, rfl⟩ := h.fits
      obtain ⟨q', hq', hq⟩ := hy
      cases hq'
      have hlo := hq.proper.contains_lo
      rw [show (q.bounds (WordType.int t).view).lo = -1 from congrArg Bounds.lo hbounds] at hlo
      have hraised := hall _ (List.mem_map_of_mem (List.mem_map_of_mem hv')) ?_ _
        ⟨v', ?_, -1, hlo, rfl⟩
      · rw [Operation.raised, if_neg (by omega)] at hraised
        exact hne (IntType.overflow?_tdiv (hmem v' hv') (hq.proper.contains hlo) (by omega)
          hraised).2.2.1
      · rw [wordConstant_eq (hmem v' hv')]
        rintro ⟨-, -, t', _, -, ⟨⟩, -⟩
        exact hne rfl
      · rw [wordConstant_eq (hmem v' hv')]
        exact Shape.contains_constant.mpr rfl
    · exact hall c hc hover a ha

/-- Every transfer of a well-formed word flags the errors of all executions. -/
theorem applyWithin_diagnoses (budget : ℕ) (h : op.Accepts w arg out) (hs : s.WellFormed limit w)
    (hy : IsOperand limit arg y) :
    DiagnosesOn params (applyWithin limit op budget) (.word w s, y)
      (op.errorsOn w.view out.view (word w s).values (operandValues y))
      (¬op.OverstatesOverflow params.stops (.word w s) y) (3 ≤ budget)
      (op.OverlooksOverflow params.stops (.word w s) y) := by
  cases budget with
  | zero => exact diagnosesOn_zero (by omega)
  | succ budget =>
  cases s with
  | constant v => exact (constant_diagnoses (budget + 1) h hs.1 hy).weaken id (by omega) Iff.rfl
  | interval r =>
    cases w with
    | bit => exact absurd rfl hs.1.1
    | int t =>
      refine (interval_diagnoses (budget + 1) h hs.1.2 hy).weaken ?_ (by omega) Iff.rfl
      rintro - ⟨-, -, -, rfl, -⟩
      exact lt_irrefl _ (hs.2 _ rfl)
  | disjunction vs =>
    have hplan : Plan.of limit params.stops op (.word out) (.word w (.disjunction vs)) y =
        .members (vs.map (wordConstant w)) := by cases w <;> rfl
    obtain ⟨-, hsorted, hmem, hlen, -⟩ := hs.1
    refine (members_diagnoses budget h hy (fun v => Shape.contains_disjunction.symm) hmem hplan
      (fun v => Operation.overlooks_congr fun _ _ _ _ => by simp [Shape.precision])
      fun v hv _ => ?_).weaken id (by omega) Iff.rfl
    rcases vs with _ | ⟨a, _ | ⟨b, rest⟩⟩
    · simp at hlen
    · simp at hlen
    · have hab : a < b := (List.pairwise_cons.mp hsorted).1 b (by simp)
      by_cases hva : v = a
      · exact ⟨b, by simp, by omega⟩
      · exact ⟨a, by simp, Ne.symm hva⟩
  | top =>
    cases w with
    | bit =>
      have hbit : ∀ v, v ∈ [0, 1] ↔ (WordType.bit).view.contains v = true := fun v => by
        rw [WordType.contains_view_bit]
        simp
      have hno : ∀ s, ¬op.OverlooksOverflow params.stops (.word .bit s) y := by
        rintro s ⟨-, -, t, _, _, ⟨⟩, -⟩
      exact (members_diagnoses budget h hy (fun v => (hbit v).trans Shape.contains_top.symm)
        (fun v hv => (hbit v).mp hv) rfl (fun v => iff_of_false (hno _) (hno _))
        fun _ _ hne => absurd rfl hne).weaken id (by omega) Iff.rfl
    | int t =>
      rw [← values_fullInterval]
      refine diagnosesOn_promoted (resultType_eq_ok h hy) rfl rfl
        ((interval_diagnoses budget h (.full t) hy).weaken ?_ (by omega) ?_)
      · rintro - ⟨-, -, -, hpoint, -⟩
        have := t.minValue_lt_maxValue
        simp only [IntType.full, Bounds.point, Bounds.mk.injEq] at hpoint
        omega
      · exact Operation.overlooks_congr fun _ _ _ _ => by simp [Shape.precision]

end Element

end ScalarDomain
