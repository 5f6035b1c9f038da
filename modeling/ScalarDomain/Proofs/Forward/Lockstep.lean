import ScalarDomain.Proofs.Forward.Evaluation

/-!
# Transfers in lockstep

Two transfers that are run side by side record the same events and end in the same fault or with
the same answer (`Traced.Relates`). What the two evaluations have to do with each other is left
open: a relation between them serves if they show the same to a transfer and every update of the
state keeps it (`Evaluation.Lockstep`). From there one level of a transfer keeps it if its nested
transfers do (`Element.applyOver_alike`), where the nested transfers of the two sides need not be
the same function. A whole transfer is this level, iterated (`Element.applyWithin_eq_iterate`).
-/

namespace ScalarDomain

/-! ### Computations side by side -/

namespace Traced

variable {α β γ δ : Type} {R : α → β → Prop} {x : Traced α} {y : Traced β}

/-- Two computations that record the same events and end in the same fault or in related
values. -/
inductive Relates (R : α → β → Prop) : Traced α → Traced β → Prop
  | ok {a : α} {b : β} {journal : Journal} (h : R a b) :
    Relates R ⟨.ok a, journal⟩ ⟨.ok b, journal⟩
  | error {fault : Fault} {journal : Journal} :
    Relates R ⟨.error fault, journal⟩ ⟨.error fault, journal⟩

theorem Relates.mono {Q : α → β → Prop} (h : x.Relates R y) (hRQ : ∀ a b, R a b → Q a b) :
    x.Relates Q y := by
  cases h with
  | ok h => exact .ok (hRQ _ _ h)
  | error => exact .error

theorem Relates.symm {Q : β → α → Prop} (h : x.Relates R y) (hRQ : ∀ a b, R a b → Q b a) :
    y.Relates Q x := by
  cases h with
  | ok h => exact .ok (hRQ _ _ h)
  | error => exact .error

theorem Relates.eq {x y : Traced α} (h : x.Relates (· = ·) y) : x = y := by
  cases h with
  | ok h => rw [h]
  | error => rfl

theorem relates_pure {a : α} {b : β} (h : R a b) : Relates R (pure a) (pure b) := .ok h

theorem relates_refl (x : Traced α) : x.Relates (· = ·) x := by
  obtain ⟨value, journal⟩ := x
  cases value with
  | ok a => exact .ok rfl
  | error fault => exact .error

theorem relates_lift_ok {a : α} {b : β} (h : R a b) :
    Relates R (liftM (Except.ok a : Except Fault α) : Traced α)
      (liftM (Except.ok b : Except Fault β) : Traced β) := .ok h

/-- Related values are passed on to related computations. -/
theorem Relates.bind {Q : γ → δ → Prop} {f : α → Traced γ} {g : β → Traced δ}
    (h : x.Relates R y) (hfg : ∀ a b, R a b → (f a).Relates Q (g b)) :
    (x >>= f).Relates Q (y >>= g) := by
  cases h with
  | error => exact .error
  | @ok a b journal h =>
    change Relates Q ⟨(f a).value, journal ++ (f a).journal⟩ ⟨(g b).value, journal ++ (g b).journal⟩
    have hab := hfg a b h
    generalize f a = u at hab ⊢
    generalize g b = v at hab ⊢
    cases hab with
    | ok h => exact .ok h
    | error => exact .error

/-- The same fallible computation first on both sides. -/
theorem relates_lift_bind {Q : γ → δ → Prop} {c : Except Fault α} {f : α → Traced γ}
    {g : α → Traced δ} (h : ∀ a, c = .ok a → (f a).Relates Q (g a)) :
    ((liftM c : Traced α) >>= f).Relates Q ((liftM c : Traced α) >>= g) := by
  cases c with
  | error fault => exact .error
  | ok a => exact h a rfl

/-- Sessions record the same events around them. -/
theorem Relates.session {a : Activity} (h : x.Relates R y) :
    (session a x).Relates R (session a y) := by
  cases h with
  | ok h => exact .ok h
  | error => exact .error

/-- If a computation is related to itself, so is its value. -/
theorem Relates.ensures {R : α → α → Prop} (h : x.Relates R x) : x.Ensures fun a => R a a := by
  intro a ha
  obtain ⟨value, journal⟩ := x
  cases ha
  cases h with
  | ok h => exact h

end Traced

/-- Two outcomes with the same answer and related states. -/
def SameAnswer {σ : Type} (R : σ → σ → Prop) (a b : Bool × σ) : Prop :=
  a.1 = b.1 ∧ R a.2 b.2

/-! ### Evaluations -/

/-- What an evaluation found, apart from errors. -/
structure Findings where
  /-- The result, once there is one. -/
  result : Option Element
  /-- How the evaluation went so far. -/
  verdict : Verdict
  /-- Whether the result has another precision than the first operand. -/
  unstable : Bool
  /-- Whether no value flows out. -/
  empty : Bool
  /-- Whether a joined branch could not be performed. -/
  incomplete : Bool

namespace Evaluation

variable {limit : ℕ} {op : Operation} {R : Evaluation → Evaluation → Prop}
  {e e' child child' : Evaluation} {transfer transfer' : Transfer} {x : Element}
  {y : Option Element}

/-- What the evaluation found so far. -/
def findings (e : Evaluation) : Findings :=
  ⟨e.result, e.verdict, e.unstable, e.empty, e.incomplete⟩

/-- The evaluation with other findings. -/
def withFindings (e : Evaluation) (f : Findings) : Evaluation :=
  { e with
    result := f.result
    verdict := f.verdict
    unstable := f.unstable
    empty := f.empty
    incomplete := f.incomplete }

/-- A relation between evaluations that look the same to a transfer, kept by all updates. -/
structure Lockstep (R : Evaluation → Evaluation → Prop) : Prop where
  /-- They have the same second operand. -/
  argument : ∀ {e e'}, R e e' → e'.argument = e.argument
  /-- They found the same. -/
  findings : ∀ {e e'}, R e e' → e'.findings = e.findings
  /-- They are nested equally deep. -/
  depth : ∀ {e e'}, R e e' → e'.depth = e.depth
  /-- Errors end both, or neither. -/
  stops : ∀ {e e'}, R e e' → e'.params.stops = e.params.stops
  /-- Their results may take the same shapes. -/
  bound : ∀ {e e'}, R e e' → e'.params.creationBound = e.params.creationBound
  /-- Nested evaluations. -/
  spawn : ∀ {e e'}, R e e' → ∀ y, R (e.spawn y) (e'.spawn y)
  /-- The same findings on both sides. -/
  withFindings : ∀ {e e'}, R e e' → ∀ f, R (e.withFindings f) (e'.withFindings f)
  /-- The same error on both sides. -/
  flag : ∀ {e e'}, R e e' → ∀ kind certain, R (e.flag kind certain) (e'.flag kind certain)
  /-- The flags of an alternative. -/
  absorbBranch : ∀ {e e' child child'}, R e e' → R child child' →
    R (e.absorbBranch child) (e'.absorbBranch child')
  /-- The flags of a nested evaluation. -/
  absorbFlags : ∀ {e e' child child'}, R e e' → R child child' →
    R (e.absorbFlags child) (e'.absorbFlags child')
  /-- The errors of the alternatives. -/
  sealBranches : ∀ {e e'}, R e e' → R e.sealBranches e'.sealBranches

namespace Lockstep

section

variable (hR : Lockstep R) (h : R e e')

include hR h

theorem result : e'.result = e.result := congrArg Findings.result (hR.findings h)

theorem verdict : e'.verdict = e.verdict := congrArg Findings.verdict (hR.findings h)

theorem empty : e'.empty = e.empty := congrArg Findings.empty (hR.findings h)

/-- An update that only looks at what was found. -/
theorem update (g : Findings → Findings) :
    R (e.withFindings (g e.findings)) (e'.withFindings (g e'.findings)) := by
  rw [hR.findings h]
  exact hR.withFindings h _

theorem withResult (x : Element) : R (e.withResult x) (e'.withResult x) :=
  hR.update h fun f => { f with result := some x }

theorem withEmpty : R e.withEmpty e'.withEmpty :=
  hR.update h fun f => { f with empty := true, result := none }

theorem withUnstable : R e.withUnstable e'.withUnstable :=
  hR.update h fun f => { f with unstable := true }

theorem conclude (exact : Bool) : R (e.conclude exact) (e'.conclude exact) :=
  hR.update h fun f => { f with verdict := f.verdict.merge (.ofExact exact) }

theorem withIncomplete : R { e with incomplete := true } { e' with incomplete := true } :=
  hR.update h fun f => { f with incomplete := true }

theorem sealJoin : R e.sealJoin e'.sealJoin := by
  let close (f : Findings) : Findings :=
    if f.incomplete then { f with result := none, verdict := .notPerformed, incomplete := false }
    else if f.result.isNone && !f.empty then
      { f with empty := true, result := none, verdict := f.verdict.merge (.ofExact true) }
    else f
  have hclose : ∀ u : Evaluation, u.sealJoin =
      u.sealBranches.withFindings (close u.sealBranches.findings) := by
    intro u
    dsimp only [close]
    rw [apply_ite (Evaluation.withFindings _), apply_ite (Evaluation.withFindings _)]
    rfl
  rw [hclose, hclose]
  exact hR.update (hR.sealBranches h) close

end

/-! ### Steps -/

/-- Errors are flagged one after the other. -/
theorem flags (hR : Lockstep R) (h : R e e') (errors : List (ErrorKind × Bool)) :
    R (errors.foldl (fun e error => e.flag error.1 error.2) e)
      (errors.foldl (fun e error => e.flag error.1 error.2) e') := by
  induction errors generalizing e e' with
  | nil => exact h
  | cons error errors ih => exact ih (hR.flag h error.1 error.2)

/-- The creation bound is the same, so the results of a step take the same shape. -/
theorem deliver (hR : Lockstep R) (h : R e e') (d : Delivery) :
    (e.deliver limit d).Relates R (e'.deliver limit d) := by
  cases d with
  | nothing => exact Traced.relates_pure (hR.conclude (hR.withEmpty h) true)
  | words ty r exact =>
    rw [Evaluation.deliver, Evaluation.deliver, hR.bound h]
    split
    · exact Traced.relates_pure (hR.conclude (hR.withEmpty h) true)
    split
    · refine Traced.relates_lift_bind fun x _ => ?_
      exact Traced.relates_pure (hR.conclude (hR.withResult h x) exact)
    · exact (Traced.relates_refl _).bind fun _ _ _ => Traced.relates_pure h
  | floats ty s exact =>
    rw [Evaluation.deliver, Evaluation.deliver, hR.bound h]
    split
    · exact Traced.relates_pure (hR.conclude (hR.withEmpty h) true)
    · dsimp only
      split
      · exact (Traced.relates_refl _).bind fun _ _ _ => Traced.relates_pure h
      · exact Traced.relates_pure (hR.conclude (hR.withResult h _) _)

/-- A step reads nothing else of an evaluation than what related ones share. -/
theorem perform (hR : Lockstep R) (h : R e e') (s : Step) :
    (e.perform limit s).Relates R (e'.perform limit s) :=
  hR.deliver (hR.flags h s.errors) s.delivery

/-! ### Nested evaluations -/

/-- A nested evaluation is joined in, and the second operand stays. -/
theorem finish (hR : Lockstep R) (h : R e e') (hchild : R child child') :
    (liftM (e.finish limit child) : Traced Evaluation).Relates
      (fun u u' => R u u' ∧ u.argument = e.argument)
      (liftM (e'.finish limit child') : Traced Evaluation) := by
  have hb := hR.absorbBranch h hchild
  have harg : (e.absorbBranch child).argument = e.argument := rfl
  rw [Evaluation.finish, Evaluation.finish]
  generalize e.absorbBranch child = u at hb harg ⊢
  generalize e'.absorbBranch child' = u' at hb ⊢
  rw [hR.empty hchild, hR.result hchild]
  cases child.empty with
  | true => exact Traced.relates_lift_ok ⟨hb, harg⟩
  | false =>
    cases child.result with
    | none => exact Traced.relates_lift_ok ⟨hR.withIncomplete hb, harg⟩
    | some x =>
      rw [hR.result hb]
      cases u.result with
      | none => exact Traced.relates_lift_ok ⟨hR.withResult hb x, harg⟩
      | some previous =>
        simp only [Bool.false_eq_true, if_false]
        cases previous.join limit x with
        | error fault => exact Traced.Relates.error
        | ok joined =>
          refine Traced.relates_lift_ok ?_
          split
          · exact ⟨hR.withResult hb joined, harg⟩
          · exact ⟨hR.withResult (hR.conclude hb false) joined, harg⟩

end Lockstep

/-- Two transfers of the same operands, run side by side from related evaluations. -/
def TransfersAlike (R : Evaluation → Evaluation → Prop) (transfer transfer' : Transfer)
    (x : Element) (y : Option Element) : Prop :=
  ∀ e e', R e e' → e.argument = y → (transfer x e).Relates (SameAnswer R) (transfer' x e')

theorem sealJoin_argument (e : Evaluation) : e.sealJoin.argument = e.argument := by
  have hseal : e.sealBranches.argument = e.argument := by
    rw [sealBranches]
    split <;> rfl
  rw [sealJoin]
  split_ifs <;> exact hseal

namespace Lockstep

/-- A nested transfer starts from related evaluations and is absorbed into related ones. -/
theorem nested (hR : Lockstep R) (ht : TransfersAlike R transfer transfer' x y) (h : R e e') :
    (e.nested limit transfer x y).Relates
      (fun a b => SameAnswer R a b ∧ a.2.argument = e.argument)
      (e'.nested limit transfer' x y) := by
  refine (ht _ _ (hR.spawn h y) rfl).bind ?_
  rintro ⟨handled, child⟩ ⟨_, child'⟩ ⟨rfl, hchild⟩
  refine (hR.finish h hchild).bind ?_
  rintro u u' ⟨hu, harg⟩
  exact Traced.relates_pure ⟨⟨rfl, hu⟩, harg⟩

/-- Nested transfers run one after the other, each from where the last one ended. -/
theorem runAll (hR : Lockstep R) (cases : List (Element × Option Element))
    (ht : ∀ c ∈ cases, TransfersAlike R transfer transfer' c.1 c.2) (h : R e e') :
    (Evaluation.runAll limit transfer cases e).Relates
      (fun a b => SameAnswer R a b ∧ a.2.argument = e.argument)
      (Evaluation.runAll limit transfer' cases e') := by
  induction cases generalizing e e' with
  | nil => exact Traced.relates_pure ⟨⟨rfl, hR.sealJoin h⟩, e.sealJoin_argument⟩
  | cons c cases ih =>
    refine (hR.nested (ht c List.mem_cons_self) h).bind ?_
    rintro ⟨handled, u⟩ ⟨_, u'⟩ ⟨⟨rfl, hu⟩, harg⟩
    cases handled with
    | true =>
      refine (ih (fun c hc => ht c (List.mem_cons_of_mem _ hc)) hu).mono ?_
      rintro a b ⟨hab, harg'⟩
      exact ⟨hab, harg'.trans harg⟩
    | false =>
      exact Traced.relates_pure ⟨⟨rfl, hR.sealJoin hu⟩, u.sealJoin_argument.trans harg⟩

end Lockstep

end Evaluation

/-- The nested transfers that a plan opens. -/
def Plan.opens (x : Element) (y : Option Element) : Plan → List (Element × Option Element)
  | step _ | declined => []
  | members xs => xs.map fun x => (x, y)
  | arguments ys _ => ys.map fun y => (x, some y)

namespace Evaluation.Lockstep

variable {limit : ℕ} {op : Operation} {R : Evaluation → Evaluation → Prop} {e e' : Evaluation}
  {transfer transfer' : Transfer} {x : Element}

/-- A plan is carried out. Only a plan that is no step may be given up, on the same operands. -/
theorem runPlan (hR : Lockstep R) (op : Operation) (plan : Plan) (h : R e e')
    (ht : ∀ c ∈ plan.opens x e.argument, TransfersAlike R transfer transfer' c.1 c.2) :
    (e.runPlan limit transfer op x plan).Relates
      (fun a b => SameAnswer R a b ∧
        (a.1 = false → (∀ s, plan ≠ .step s) ∧ a.2.argument = e.argument))
      (e'.runPlan limit transfer' op x plan) := by
  -- a run over nested transfers is of a plan that is no step
  have hrun : ∀ cases : List (Element × Option Element), (∀ s, plan ≠ .step s) →
      (∀ c ∈ cases, TransfersAlike R transfer transfer' c.1 c.2) →
      (Evaluation.runAll limit transfer cases e).Relates
        (fun a b => SameAnswer R a b ∧
          (a.1 = false → (∀ s, plan ≠ .step s) ∧ a.2.argument = e.argument))
        (Evaluation.runAll limit transfer' cases e') := by
    intro cases hplan ht
    refine (hR.runAll cases ht h).mono ?_
    rintro a b ⟨hab, harg⟩
    exact ⟨hab, fun _ => ⟨hplan, harg⟩⟩
  cases plan with
  | step s =>
    refine (hR.perform h s).bind fun _ _ hs => Traced.relates_pure ⟨⟨rfl, hs⟩, ?_⟩
    rintro ⟨⟩
  | members xs =>
    rw [Evaluation.runPlan, Evaluation.runPlan, hR.argument h]
    exact hrun _ (by rintro s ⟨⟩) ht
  | arguments ys noted =>
    have hys := hrun _ (by rintro s ⟨⟩) ht
    cases noted with
    | true => exact (Traced.relates_refl _).bind fun _ _ _ => hys
    | false => exact hys
  | declined => exact Traced.relates_pure ⟨⟨rfl, h⟩, fun _ => ⟨by rintro s ⟨⟩, rfl⟩⟩

/-- The promoted operand takes over in both. -/
theorem runPromoted (hR : Lockstep R) (op : Operation) (h : R e e')
    (ht : ∀ promoted, x.promote? = some promoted →
      TransfersAlike R transfer transfer' promoted e.argument) :
    (e.runPromoted limit transfer op x).Relates (SameAnswer R)
      (e'.runPromoted limit transfer' op x) := by
  rw [Evaluation.runPromoted, Evaluation.runPromoted, hR.argument h]
  cases hp : x.promote? with
  | none => exact Traced.relates_pure ⟨rfl, h⟩
  | some promoted =>
    refine (Traced.relates_refl _).bind fun _ _ _ => (hR.nested (ht promoted hp) h).bind ?_
    rintro ⟨handled, u⟩ ⟨_, u'⟩ ⟨⟨rfl, hu⟩, -⟩
    exact Traced.relates_pure ⟨rfl, hR.sealJoin hu⟩

end Evaluation.Lockstep

/-! ### Levels of a transfer -/

namespace Element

open Evaluation

variable {limit : ℕ} {op : Operation} {R : Evaluation → Evaluation → Prop} {x : Element}
  {y : Option Element} {transfer transfer' : Transfer}

/-- One level of a forward transfer, on top of its nested transfers. -/
def applyOver (limit : ℕ) (op : Operation) (transfer : Transfer) : Transfer
  | x, e => do
    let result ← (resultType op x e.argument : Except Fault ScalarType)
    Traced.session (.transfer op x) do
      let plan := Plan.of limit e.params.stops op result x e.argument
      let (planned, e) ← e.runPlan limit transfer op x plan
      let outcome ← if planned then pure (true, e) else e.runPromoted limit transfer op x
      concluded op x outcome

theorem applyWithin_eq_applyOver (limit : ℕ) (op : Operation) (n : ℕ) :
    applyWithin limit op (n + 1) = applyOver limit op (applyWithin limit op n) := by
  funext x e
  rw [applyWithin]
  rfl

/-- A transfer is made of its levels. -/
theorem applyWithin_eq_iterate (limit : ℕ) (op : Operation) (k n : ℕ) :
    applyWithin limit op (n + k) = (applyOver limit op)^[k] (applyWithin limit op n) := by
  induction k with
  | zero => rfl
  | succ k ih => rw [← Nat.add_assoc, applyWithin_eq_applyOver, ih, Function.iterate_succ_apply']

/-- The operands of the nested transfers that a transfer may open. -/
inductive Opens (limit : ℕ) (op : Operation) (x : Element) (y : Option Element) :
    Element → Option Element → Prop
  /-- The plan runs them. -/
  | run {stops : Bool} {result : ScalarType} {c : Element × Option Element}
      (hresult : resultType op x y = .ok result)
      (hc : c ∈ (Plan.of limit stops op result x y).opens x y) : Opens limit op x y c.1 c.2
  /-- A coarser shape takes over where there is no step. -/
  | promoted {stops : Bool} {result : ScalarType} {p : Element}
      (hresult : resultType op x y = .ok result)
      (hplan : ∀ s, Plan.of limit stops op result x y ≠ .step s) (hp : x.promote? = some p) :
      Opens limit op x y p y

private theorem concluded_alike (hR : Lockstep R) {a b : Bool × Evaluation}
    (h : SameAnswer R a b) : (concluded op x a).Relates (SameAnswer R) (concluded op x b) := by
  obtain ⟨handled, e⟩ := a
  obtain ⟨_, e'⟩ := b
  obtain ⟨rfl, h⟩ := h
  have hend : ∀ {u u' : Evaluation}, R u u' →
      (do Traced.record (.conclude u.verdict u.result u.empty); return (handled, u) :
        Traced (Bool × Evaluation)).Relates (SameAnswer R)
      (do Traced.record (.conclude u'.verdict u'.result u'.empty); return (handled, u')) := by
    intro u u' hu
    rw [hR.verdict hu, hR.result hu, hR.empty hu]
    exact (Traced.relates_refl _).bind fun _ _ _ => Traced.relates_pure ⟨rfl, hu⟩
  rw [concluded, concluded]
  dsimp only
  rw [hR.result h]
  cases e.result with
  | none => exact hend h
  | some y =>
    dsimp only
    split
    · exact hend (hR.withUnstable h)
    · exact hend h

/-- One level keeps the relation if the nested transfers that it may open do. -/
theorem applyOver_alike (hR : Lockstep R)
    (ht : ∀ x' y', Opens limit op x y x' y' → TransfersAlike R transfer transfer' x' y') :
    TransfersAlike R (applyOver limit op transfer) (applyOver limit op transfer') x y := by
  rintro e e' h rfl
  rw [applyOver, applyOver, hR.argument h, hR.stops h]
  refine Traced.relates_lift_bind fun result hresult => Traced.Relates.session ?_
  refine (hR.runPlan op _ h fun c hc => ht _ _ (.run hresult hc)).bind ?_
  rintro ⟨planned, u⟩ ⟨_, u'⟩ ⟨⟨rfl, hu⟩, hdeclined⟩
  cases planned with
  | true => exact concluded_alike hR (a := (true, u)) (b := (true, u')) ⟨rfl, hu⟩
  | false =>
    obtain ⟨hplan, harg⟩ := hdeclined rfl
    refine (hR.runPromoted op hu fun p hp => ?_).bind fun _ _ h => concluded_alike hR h
    exact harg ▸ ht _ _ (.promoted hresult hplan hp)

end Element

end ScalarDomain
