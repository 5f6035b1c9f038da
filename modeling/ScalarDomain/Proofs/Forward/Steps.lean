import ScalarDomain.Proofs.Forward.Branches
import ScalarDomain.Proofs.Forward.Inclusion

/-!
# Transfers come down to steps

A forward transfer is a tree of nested transfers whose leaves are steps (`Element.Involves`). What a
step delivers becomes a word, nothing, or, if the creation bound has no shape for it, an operation
that is not performed (`Delivery.Becomes`). With three levels of nesting the whole transfer ends
with the least upper bound of what its steps become (`Element.resolves`).
-/

namespace ScalarDomain

variable {limit : ℕ} {op : Operation} {w out : WordType} {arg : Option WordType} {s : Shape}
  {x : Element} {y : Option Element} {bound : Creation} {params : Params} {e : Evaluation}

/-! ### Shapes under a creation bound -/

/-- The shapes of ranges within each other are below each other. -/
theorem shape?_mono {r r' : Range} {a b : Shape} (hr : r.Proper out.view) (hr' : r'.Proper out.view)
    (h : r.Within r') (ha : bound.shape? limit out r = some a)
    (hb : bound.shape? limit out r' = some b) : a.Below out.view b := by
  obtain ⟨hwa, hca⟩ := Evaluation.shape?_spec hr ha
  obtain ⟨hwb, hcb⟩ := Evaluation.shape?_spec hr' hb
  have hsub : a.toSet out.view ⊆ b.toSet out.view := fun v hv =>
    (hcb v).mpr (h.mem ((hca v).mp hv))
  cases out with
  | bit => exact Shape.below_of_subset_bit hwa hwb hsub
  | int t =>
    obtain ⟨hlo, hhi⟩ := h
    have hle := hr.le
    simp only [Creation.shape?] at ha hb
    split at ha
    · next hpoint =>
      obtain rfl := Option.some.inj ha
      refine Shape.below_of_isEnumerated hsub ?_
      rw [WordType.rangeShape, if_pos hpoint]
      exact Shape.isEnumerated_constant
    next hne =>
    rw [if_neg (by omega)] at hb
    split at ha
    · -- the range of all values is within nothing else
      next hfull =>
      obtain ⟨rfl, hshare⟩ := hfull
      have hb' := hr'.bounds
      have hfull' : r' = t.full := by
        cases r'
        simp only [IntType.full] at hlo hhi hb' ⊢
        congr 1 <;> simp only [WordType.view] at hb' <;> omega
      rw [if_pos ⟨hfull', hshare⟩] at hb
      rw [← Option.some.inj ha, ← Option.some.inj hb]
      exact .refl _ _
    split at ha
    · next hinterval =>
      obtain rfl := Option.some.inj ha
      refine Shape.below_of_not_isEnumerated hsub (by simp) ?_
      split at hb
      · rw [← Option.some.inj hb]
        exact Shape.not_isEnumerated_top
      · rw [← Option.some.inj hb]
        exact Shape.not_isEnumerated_interval
    split at ha
    · obtain rfl := Option.some.inj ha
      exact Shape.below_of_isEnumerated hsub Shape.isEnumerated_disjunction
    · cases ha

/-- A bound has no shape for an integer range of several values that it neither allows to be an
interval nor a list. -/
theorem shape?_eq_none_iff {t : IntType} {r : Range} :
    bound.shape? limit (.int t) r = none ↔ r.lo ≠ r.hi ∧ bound.allows .interval = false ∧
      ¬(bound.allows .disjunction = true ∧ r.hi - r.lo + 1 ≤ limit) := by
  have hshare : bound.allows .shareTop = true → bound.allows .interval = true := by
    cases bound <;> decide
  simp only [Creation.shape?]
  split_ifs with h1 h2 h3 h4
  · simp [h1]
  · simp [hshare h2.2]
  · simp [h3]
  · simp [h4]
  · simp only [true_iff]
    exact ⟨h1, by simpa using h3, h4⟩

/-- A bound that has no shape for a range has none for a larger one. -/
theorem shape?_eq_none_mono {r r' : Range} (hr : r.Proper out.view) (h : r.Within r')
    (hnone : bound.shape? limit out r = none) : bound.shape? limit out r' = none := by
  cases out with
  | bit => cases hnone
  | int t =>
    obtain ⟨hlo, hhi⟩ := h
    have hle := hr.le
    rw [shape?_eq_none_iff] at hnone ⊢
    refine ⟨by omega, hnone.2.1, fun hlist => hnone.2.2 ⟨hlist.1, by omega⟩⟩

namespace Delivery

variable {S : Set ℤ} {d d' : Delivery} {o o' : Upshot limit out}

/-- What a delivery becomes under a creation bound: the word of its range, nothing if it is empty,
and an operation that is not performed if the bound has no shape for it. -/
inductive Becomes (bound : Creation) : Upshot limit out → Delivery → Prop
  | nothing : Becomes bound ⊥ .nothing
  | empty {r : Range} {exact : Bool} (h : r.hi < r.lo) : Becomes bound ⊥ (.words out r exact)
  | word {r : Range} {exact : Bool} (z : WordShape limit out) (hr : r.Proper out.view)
      (hz : bound.shape? limit out r = some z.shape) : Becomes bound (.word z) (.words out r exact)
  | forbidden {r : Range} {exact : Bool} (hr : r.Proper out.view)
      (h : bound.shape? limit out r = none) : Becomes bound ⊤ (.words out r exact)

/-- Whatever covers a set becomes something. -/
theorem Covers.exists_becomes (hd : d.Covers out S) (bound : Creation) :
    ∃ o : Upshot limit out, d.Becomes bound o := by
  cases d with
  | nothing => exact ⟨⊥, .nothing⟩
  | floats => exact hd.elim
  | words ty r exact =>
    obtain ⟨rfl, hproper, -⟩ := hd
    by_cases hle : r.lo ≤ r.hi
    · have hr := hproper hle
      cases ha : bound.shape? limit ty r with
      | none => exact ⟨⊤, .forbidden hr ha⟩
      | some a => exact ⟨_, .word ⟨a, (Evaluation.shape?_spec hr ha).1⟩ hr ha⟩
    · exact ⟨⊥, .empty (not_le.mp hle)⟩

/-- What delivers more becomes something larger. -/
theorem Becomes.mono (h : d.Becomes bound o) (h' : d'.Becomes bound o')
    (hsub : d.values ⊆ d'.values) : o ≤ o' := by
  have hwithin : ∀ {r r' : Range}, r.Proper out.view → r.toSet ⊆ r'.toSet → r.Within r' :=
    fun hr hsub => ⟨(hsub hr.lo_mem_self).1, (hsub hr.hi_mem_self).2⟩
  have hempty : ∀ {r r' : Range}, r.Proper out.view → r.toSet ⊆ r'.toSet → ¬r'.hi < r'.lo :=
    fun hr hsub => not_lt.mpr ((hsub hr.lo_mem_self).1.trans (hsub hr.lo_mem_self).2)
  cases h with
  | nothing => exact bot_le
  | empty => exact bot_le
  | word z hr hz =>
    cases h' with
    | nothing => exact absurd (hsub hr.lo_mem_self) (Set.notMem_empty _)
    | empty hlt => exact absurd hlt (hempty hr hsub)
    | word z' hr' hz' =>
      exact Upshot.word_le_word.mpr (shape?_mono hr hr' (hwithin hr hsub) hz hz')
    | forbidden => exact le_top
  | forbidden hr hnone =>
    cases h' with
    | nothing => exact absurd (hsub hr.lo_mem_self) (Set.notMem_empty _)
    | empty hlt => exact absurd hlt (hempty hr hsub)
    | word z' hr' hz' =>
      rw [shape?_eq_none_mono hr (hwithin hr hsub) hnone] at hz'
      cases hz'
    | forbidden => exact le_rfl

theorem Becomes.unique (h : d.Becomes bound o) (h' : d.Becomes bound o') : o = o' :=
  (h.mono h' subset_rfl).antisymm (h'.mono h subset_rfl)

/-- A bound that allows intervals forbids nothing. -/
theorem Becomes.ne_top (h : d.Becomes bound o) (hbound : bound.allows .interval = true) :
    o ≠ ⊤ := by
  cases h with
  | nothing => exact bot_ne_top
  | empty => exact bot_ne_top
  | word z => exact WithTop.coe_ne_top
  | forbidden hr hnone =>
    cases out with
    | bit => cases hnone
    | int t => simp [(shape?_eq_none_iff.mp hnone).2.1] at hbound

end Delivery

/-! ### Nested transfers -/

namespace Evaluation

variable {child : Evaluation} {o p : Upshot limit out} {transfer : Transfer}

theorem EndsWith.withUnstable (h : e.EndsWith o) : e.withUnstable.EndsWith o :=
  ⟨h.result, h.empty⟩

theorem endsWith_withEmpty : (e.withEmpty.conclude true).EndsWith (⊥ : Upshot limit out) :=
  ⟨rfl, iff_of_true rfl rfl⟩

theorem endsWith_withResult {exact : Bool} (z : WordShape limit out) (h : e.empty = false) :
    ((e.withResult z.toElement).conclude exact).EndsWith (.word z) := by
  refine ⟨rfl, iff_of_false ?_ (Upshot.word_ne_bot z)⟩
  change ¬e.empty = true
  simp [h]

theorem Fresh.endsWith_top (h : e.Fresh) : e.EndsWith (⊤ : Upshot limit out) :=
  ⟨h.result, iff_of_false (by simp [h.empty]) top_ne_bot⟩

/-- A step is performed into what its delivery becomes. -/
theorem perform_endsWith {step : Step} (he : e.Fresh)
    (h : step.delivery.Becomes e.params.creationBound o) :
    (e.perform limit step).Returns (EndsWith o) := by
  have hfresh := he.flags step.errors
  rw [← params_flags e step.errors] at h
  rw [perform]
  generalize step.errors.foldl (fun e error => e.flag error.1 error.2) e = e' at h hfresh
  obtain ⟨errors, d⟩ := step
  simp only at h ⊢
  cases h with
  | nothing => exact Traced.returns_pure endsWith_withEmpty
  | empty hlt =>
    rw [deliver, if_pos hlt]
    exact Traced.returns_pure endsWith_withEmpty
  | word z hr hz =>
    rw [deliver, if_neg (not_lt.mpr hr.le), hz]
    refine (Traced.returns_lift (Element.checkedWord_eq_ok z.wellFormed) rfl).bind ?_
    rintro _ rfl
    exact Traced.returns_pure (endsWith_withResult z hfresh.empty)
  | forbidden hr hnone =>
    rw [deliver, if_neg (not_lt.mpr hr.le), hnone]
    exact (Traced.returns_record _).bind fun _ _ => Traced.returns_pure hfresh.endsWith_top

/-- A transfer of two operands ends with a given upshot, in every fresh evaluation of given
parameters. -/
def EndsOn (params : Params) (transfer : Transfer) (operands : Element × Option Element)
    (o : Upshot limit out) : Prop :=
  ∀ e : Evaluation, e.Fresh → e.params = params → e.argument = operands.2 →
    (transfer operands.1 e).Returns fun r => r.1 = true ∧ r.2.EndsWith o

theorem Collects.nested (h : e.Collects params o) (hx : EndsOn params transfer (x, y) p) :
    (e.nested limit transfer x y).Returns fun r => r.1 = true ∧ r.2.Collects params (o ⊔ p) := by
  refine (hx (e.spawn y) (fresh_spawn e y) h.params rfl).bind ?_
  rintro ⟨handled, child⟩ ⟨hh, hc⟩
  obtain ⟨e', he', hj⟩ := h.finish hc.contributes
  refine (Traced.returns_lift he' rfl).bind ?_
  rintro _ rfl
  exact Traced.returns_pure ⟨hh, hj⟩

/-- Nested transfers are run one after the other into the join of what they end with. -/
theorem Collects.runAll {f : Element × Option Element → Upshot limit out}
    (cases : List (Element × Option Element)) (h : e.Collects params o)
    (hcases : ∀ c ∈ cases, EndsOn params transfer c (f c)) :
    (runAll limit transfer cases e).Returns fun r =>
      r.1 = true ∧ r.2.EndsWith ((cases.map f).foldl (· ⊔ ·) o) := by
  induction cases generalizing e o with
  | nil => exact Traced.returns_pure ⟨rfl, h.sealJoin⟩
  | cons c rest ih =>
    obtain ⟨x, y⟩ := c
    refine (h.nested (hcases _ List.mem_cons_self)).bind ?_
    rintro ⟨handled, e'⟩ ⟨rfl, hj⟩
    exact ih hj fun c hc => hcases c (List.mem_cons_of_mem _ hc)

/-- A coarser shape takes over, and ends with what it ends with. -/
theorem Fresh.runPromoted {op : Operation} {promoted : Element} (he : e.Fresh)
    (hp : e.params = params) (hargument : e.argument = y) (hpromote : x.promote? = some promoted)
    (h : EndsOn params transfer (promoted, y) o) :
    (e.runPromoted limit transfer op x).Returns fun r => r.1 = true ∧ r.2.EndsWith o := by
  rw [Evaluation.runPromoted, hpromote]
  refine (Traced.returns_record _).bind fun _ _ => ?_
  rw [hargument]
  refine ((he.collects hp).nested h).bind ?_
  rintro ⟨handled, e'⟩ ⟨rfl, hj⟩
  rw [bot_sup_eq] at hj
  exact Traced.returns_pure ⟨rfl, hj.sealJoin⟩

end Evaluation

namespace Element

/-! ### Transfers with enough nesting -/

/-- With at least `depth` levels of nesting left, the transfer of two operands ends with the least
upper bound of what the given deliveries become. -/
structure Resolves (limit : ℕ) (op : Operation) (out : WordType) (params : Params) (depth : ℕ)
    (x : Element) (y : Option Element) (D : Set Delivery) : Prop where
  /-- The deliveries are words of the type. -/
  covers : ∀ d ∈ D, ∃ S, d.Covers out S
  /-- What they become has a least upper bound, and the transfer ends with it. -/
  ends : ∃ o : Upshot limit out, IsLUB {p | ∃ d ∈ D, d.Becomes params.creationBound p} o ∧
    ∀ budget, depth ≤ budget → Evaluation.EndsOn params (applyWithin limit op budget) (x, y) o

variable {depth : ℕ} {D : Set Delivery}

theorem Resolves.deepen {depth' : ℕ} (h : Resolves limit op out params depth x y D)
    (hle : depth ≤ depth') : Resolves limit op out params depth' x y D := by
  obtain ⟨hcov, o, hlub, hends⟩ := h
  exact ⟨hcov, o, hlub, fun budget hb => hends budget (hle.trans hb)⟩

/-- With nesting left an element follows its plan, or a coarser shape takes over. -/
theorem endsOn_succ {budget : ℕ} {plan : Plan} {o : Upshot limit out}
    (hres : resultType op x y = .ok (.word out))
    (hplan : Plan.of limit params.stops op (.word out) x y = plan)
    (hlevel : ∀ e : Evaluation, e.Fresh → e.params = params → e.argument = y →
      (e.runPlan limit (applyWithin limit op budget) op x plan).Returns
          (fun r => r.1 = true ∧ r.2.EndsWith o) ∨
        plan = .declined ∧ (e.runPromoted limit (applyWithin limit op budget) op x).Returns
          fun r => r.1 = true ∧ r.2.EndsWith o) :
    Evaluation.EndsOn params (applyWithin limit op (budget + 1)) (x, y) o := by
  intro e he hp hargument
  subst hp hargument hplan
  exact applyWithin_succ hres (fun _ => Evaluation.EndsWith.withUnstable) (hlevel e he rfl rfl)

/-- A transfer has at least one more level of nesting than its parts. -/
theorem endsOn_of_lt {plan : Plan} {o : Upshot limit out} (h : op.Accepts w arg out)
    (hy : IsOperand limit arg y)
    (hplan : Plan.of limit params.stops op (.word out) (.word w s) y = plan)
    (hlevel : ∀ budget, depth ≤ budget → ∀ e : Evaluation, e.Fresh → e.params = params →
      e.argument = y →
      (e.runPlan limit (applyWithin limit op budget) op (.word w s) plan).Returns
          (fun r => r.1 = true ∧ r.2.EndsWith o) ∨
        plan = .declined ∧
          (e.runPromoted limit (applyWithin limit op budget) op (.word w s)).Returns
          fun r => r.1 = true ∧ r.2.EndsWith o)
    (budget : ℕ) (hb : depth < budget) :
    Evaluation.EndsOn params (applyWithin limit op budget) (.word w s, y) o := by
  cases budget with
  | zero => exact absurd hb (Nat.not_lt_zero depth)
  | succ budget =>
    exact endsOn_succ (resultType_eq_ok h hy) hplan (hlevel budget (Nat.le_of_lt_succ hb))

/-- An element whose plan is one step. -/
theorem resolves_step {step : Step} {S : Set ℤ} (h : op.Accepts w arg out)
    (hy : IsOperand limit arg y)
    (hplan : Plan.of limit params.stops op (.word out) (.word w s) y = .step step)
    (hcov : step.delivery.Covers out S) :
    Resolves limit op out params 1 (.word w s) y {step.delivery} := by
  obtain ⟨o, ho⟩ : ∃ o : Upshot limit out, step.delivery.Becomes params.creationBound o :=
    hcov.exists_becomes _
  refine ⟨?_, o, ?_, endsOn_of_lt h hy hplan fun budget _ e he hp _ => .inl ?_⟩
  · rintro _ rfl
    exact ⟨S, hcov⟩
  · have hset : {p : Upshot limit out |
        ∃ d ∈ ({step.delivery} : Set Delivery), d.Becomes params.creationBound p} = {o} := by
      ext p
      simp only [Set.mem_singleton_iff, exists_eq_left]
      exact ⟨fun hp => hp.unique ho, fun hp => hp ▸ ho⟩
    rw [hset]
    exact isLUB_singleton
  · subst hp
    exact (Evaluation.perform_endsWith he ho).bind fun _ h => Traced.returns_pure ⟨rfl, h⟩

/-- An element whose plan is a run over pairs of operands. -/
theorem resolves_run {plan : Plan} {cases : List (Element × Option Element)}
    {parts : Element × Option Element → Set Delivery} (h : op.Accepts w arg out)
    (hy : IsOperand limit arg y)
    (hplan : Plan.of limit params.stops op (.word out) (.word w s) y = plan)
    (hrun : ∀ (e : Evaluation) (transfer : Transfer) (Q : Bool × Evaluation → Prop),
      e.argument = y → (Evaluation.runAll limit transfer cases e).Returns Q →
        (e.runPlan limit transfer op (.word w s) plan).Returns Q)
    (hcases : ∀ c ∈ cases, Resolves limit op out params depth c.1 c.2 (parts c)) :
    Resolves limit op out params (depth + 1) (.word w s) y {d | ∃ c ∈ cases, d ∈ parts c} := by
  choose! f hf using fun c hc => (hcases c hc).ends
  refine ⟨?_, (cases.map f).foldl (· ⊔ ·) ⊥, ?_,
    endsOn_of_lt h hy hplan fun budget hb e he hp hargument => .inl ?_⟩
  · rintro d ⟨c, hc, hd⟩
    exact (hcases c hc).covers d hd
  · refine isLUB_iff_le_iff.mpr fun z => WordShape.foldl_sup_le.trans ?_
    simp only [List.mem_cons, List.mem_map, forall_eq_or_imp, bot_le, true_and]
    constructor
    · rintro hz p ⟨d, ⟨c, hc, hd⟩, hp⟩
      exact ((hf c hc).1.1 ⟨d, hd, hp⟩).trans (hz _ ⟨c, hc, rfl⟩)
    · rintro hz _ ⟨c, hc, rfl⟩
      refine (hf c hc).1.2 ?_
      rintro p ⟨d, hd, hp⟩
      exact hz ⟨d, ⟨c, hc, hd⟩, hp⟩
  · exact hrun e _ _ hargument ((he.collects hp).runAll cases fun c hc => (hf c hc).2 budget hb)

/-- A coarser shape of the same values takes over. -/
theorem resolves_promoted {promoted : Element} (h : op.Accepts w arg out)
    (hy : IsOperand limit arg y)
    (hplan : Plan.of limit params.stops op (.word out) (.word w s) y = .declined)
    (hpromote : (word w s).promote? = some promoted)
    (hx : Resolves limit op out params depth promoted y D) :
    Resolves limit op out params (depth + 1) (.word w s) y D := by
  obtain ⟨hcov, o, hlub, hends⟩ := hx
  refine ⟨hcov, o, hlub,
    endsOn_of_lt h hy hplan fun budget hb e he hp hargument => .inr ⟨rfl, ?_⟩⟩
  exact he.runPromoted hp hargument hpromote (hends budget hb)

/-- If every part of one transfer is within a part of another one, under a bound that allows
intervals, so is what the transfers end with. -/
theorem Resolves.mono {params' : Params} {x' : Element} {y' : Option Element} {D' : Set Delivery}
    (h : Resolves limit op out params depth x y D)
    (h' : Resolves limit op out params' depth x' y' D')
    (hbound : params'.creationBound = params.creationBound)
    (hallows : params.creationBound.allows .interval = true)
    (hsub : ∀ d ∈ D, ∃ d' ∈ D', d.values ⊆ d'.values) :
    ∃ o o' : Upshot limit out, o ≤ o' ∧ o' ≠ ⊤ ∧ ∀ budget, depth ≤ budget →
      Evaluation.EndsOn params (applyWithin limit op budget) (x, y) o ∧
        Evaluation.EndsOn params' (applyWithin limit op budget) (x', y') o' := by
  obtain ⟨-, o, hlub, hends⟩ := h
  obtain ⟨hcov', o', hlub', hends'⟩ := h'
  rw [hbound] at hlub'
  refine ⟨o, o', hlub.2 ?_, ?_, fun budget hb => ⟨hends budget hb, hends' budget hb⟩⟩
  · rintro p ⟨d, hd, hp⟩
    obtain ⟨d', hd', hvalues⟩ := hsub d hd
    obtain ⟨S, hcov⟩ := hcov' d' hd'
    obtain ⟨p', hp'⟩ := hcov.exists_becomes params.creationBound
    exact (hp.mono hp' hvalues).trans (hlub'.1 ⟨d', hd', hp'⟩)
  · rw [ne_eq, Upshot.eq_top_of_isLUB hlub']
    rintro ⟨d, -, hd⟩
    exact hd.ne_top hallows rfl

/-! ### Steps -/

/-- A step is one of those that the transfer of two operands comes down to. -/
inductive Involves (limit : ℕ) (stops : Bool) (op : Operation) (out : WordType) :
    Element → Option Element → Step → Prop
  /-- The plan is the step. -/
  | step {x : Element} {y : Option Element} {step : Step}
      (hplan : Plan.of limit stops op (.word out) x y = .step step) :
      Involves limit stops op out x y step
  /-- The plan is a run over first operands, and the step is one of theirs. -/
  | member {x x' : Element} {y : Option Element} {step : Step} {xs : List Element}
      (hplan : Plan.of limit stops op (.word out) x y = .members xs) (hx : x' ∈ xs)
      (h : Involves limit stops op out x' y step) : Involves limit stops op out x y step
  /-- The plan is a run over second operands, and the step is one of theirs. -/
  | argument {x y' : Element} {y : Option Element} {step : Step} {ys : List Element} {noted : Bool}
      (hplan : Plan.of limit stops op (.word out) x y = .arguments ys noted) (hy : y' ∈ ys)
      (h : Involves limit stops op out x (some y') step) : Involves limit stops op out x y step
  /-- There is no plan, and the step is one of a coarser shape. -/
  | promoted {x x' : Element} {y : Option Element} {step : Step}
      (hplan : Plan.of limit stops op (.word out) x y = .declined) (hx : x.promote? = some x')
      (h : Involves limit stops op out x' y step) : Involves limit stops op out x y step

/-- The deliveries of all steps of a transfer. -/
def deliveries (limit : ℕ) (stops : Bool) (op : Operation) (out : WordType) (x : Element)
    (y : Option Element) : Set Delivery :=
  {d | ∃ step, Involves limit stops op out x y step ∧ step.delivery = d}

section

variable {stops : Bool}

theorem deliveries_of_step {step : Step}
    (hplan : Plan.of limit stops op (.word out) x y = .step step) :
    deliveries limit stops op out x y = {step.delivery} := by
  ext d
  constructor
  · rintro ⟨step', h, rfl⟩
    cases h <;> simp_all
  · rintro rfl
    exact ⟨step, .step hplan, rfl⟩

theorem deliveries_of_members {xs : List Element}
    (hplan : Plan.of limit stops op (.word out) x y = .members xs) :
    deliveries limit stops op out x y =
      {d | ∃ c ∈ xs.map fun x => (x, y), d ∈ deliveries limit stops op out c.1 c.2} := by
  ext d
  constructor
  · rintro ⟨step, h, rfl⟩
    cases h with
    | member hplan' hx h =>
      cases hplan.symm.trans hplan'
      exact ⟨_, List.mem_map_of_mem hx, step, h, rfl⟩
    | _ hplan' => simp_all
  · rintro ⟨c, hc, step, h, rfl⟩
    obtain ⟨x', hx', rfl⟩ := List.mem_map.mp hc
    exact ⟨step, .member hplan hx' h, rfl⟩

theorem deliveries_of_arguments {ys : List Element} {noted : Bool}
    (hplan : Plan.of limit stops op (.word out) x y = .arguments ys noted) :
    deliveries limit stops op out x y =
      {d | ∃ c ∈ ys.map fun y => (x, some y), d ∈ deliveries limit stops op out c.1 c.2} := by
  ext d
  constructor
  · rintro ⟨step, h, rfl⟩
    cases h with
    | argument hplan' hy h =>
      cases hplan.symm.trans hplan'
      exact ⟨_, List.mem_map_of_mem hy, step, h, rfl⟩
    | _ hplan' => simp_all
  · rintro ⟨c, hc, step, h, rfl⟩
    obtain ⟨y', hy', rfl⟩ := List.mem_map.mp hc
    exact ⟨step, .argument hplan hy' h, rfl⟩

theorem deliveries_of_declined {promoted : Element}
    (hplan : Plan.of limit stops op (.word out) x y = .declined)
    (hpromote : x.promote? = some promoted) :
    deliveries limit stops op out x y = deliveries limit stops op out promoted y := by
  ext d
  constructor
  · rintro ⟨step, h, rfl⟩
    cases h with
    | promoted hplan' hx h =>
      cases hpromote.symm.trans hx
      exact ⟨step, h, rfl⟩
    | _ hplan' => simp_all
  · rintro ⟨step, h, rfl⟩
    exact ⟨step, .promoted hplan hpromote h, rfl⟩

/-- The plan of two constants is a fold. -/
theorem plan_fold {v b : ℤ} {u : WordType}
    (hfold : Plan.fold? stops op w (.word out) v y =
      some (.step (.foldWord stops op w u (.word out) v b))) :
    Plan.of limit stops op (.word out) (.word w (.constant v)) y =
      .step (.foldWord stops op w u (.word out) v b) := by
  cases w <;> simp only [Plan.of, Plan.ofBit, Plan.ofConstant, hfold]

/-- The plan of a constant with a second operand that is no constant: a run over its values if they
are listed, or are few next to a bit, and otherwise any value for a bit and none for an integer. -/
theorem plan_unfolded (limit : ℕ) {u : WordType} {t : Shape} {v : ℤ} (h : op.Accepts w (some u) out)
    (hfold : Plan.fold? stops op w (.word out) v (some (.word u t)) = none) :
    (∃ (vs : List ℤ) (noted : Bool),
      Plan.of limit stops op (.word out) (.word w (.constant v)) (some (.word u t)) =
        .arguments (vs.map (wordConstant u)) noted ∧ (∀ n, n ∈ vs ↔ t.contains u.view n = true) ∧
      ((word u t).intValues? = none →
        w = .bit ∧ (t.bounds u.view).hi - (t.bounds u.view).lo < limit)) ∨
    (word u t).intValues? = none ∧
      ((w = .bit ∧ limit ≤ (t.bounds u.view).hi - (t.bounds u.view).lo ∧ ∃ errors,
        Plan.of limit stops op (.word out) (.word w (.constant v)) (some (.word u t)) =
          .step ((Step.anyWord out).withErrors errors)) ∨
      ∃ ty, w = .int ty ∧
        Plan.of limit stops op (.word out) (.word w (.constant v)) (some (.word u t)) =
          .declined) := by
  have harity : op.arity ≠ 0 := by
    have := h.operands.mp rfl
    omega
  cases w with
  | bit =>
    rcases ofBit_cases harity hfold with ⟨vs, hp, hvs, hfew⟩ | ⟨⟨hnone, hlong⟩, errors, -, hp⟩
    · exact .inl ⟨vs, false, hp, hvs, fun hnone => ⟨rfl, hfew hnone⟩⟩
    · exact .inr ⟨hnone, .inl ⟨rfl, hlong, errors, hp⟩⟩
  | int ty =>
    have hplan : Plan.of limit stops op (.word out) (.word (.int ty) (.constant v))
        (some (.word u t)) = (members? (word u t)).elim .declined fun ys => .arguments ys true := by
      simp only [Plan.of, Plan.ofConstant, hfold, if_neg harity, Option.bind_some]
      cases members? (word u t) <;> rfl
    rw [hplan, members?]
    cases hvals : (word u t).intValues? with
    | some vs =>
      refine .inl ⟨vs, true, rfl, fun n => mem_intValues? hvals, ?_⟩
      rintro ⟨⟩
    | none => exact .inr ⟨rfl, .inr ⟨ty, rfl, rfl⟩⟩

end

section

variable (h : op.Accepts w arg out)

include h

/-- With a plan of one step that covers some set. -/
theorem resolves_of_step {step : Step} {S : Set ℤ} (hy : IsOperand limit arg y)
    (hplan : Plan.of limit params.stops op (.word out) (.word w s) y = .step step)
    (hcov : step.delivery.Covers out S) :
    Resolves limit op out params 1 (.word w s) y
      (deliveries limit params.stops op out (.word w s) y) := by
  rw [deliveries_of_step hplan]
  exact resolves_step h hy hplan hcov

/-- A range is one step. -/
theorem resolves_interval {r : Range} (hy : IsOperand limit arg y)
    (hs : (Shape.interval r).Proper limit w) :
    Resolves limit op out params 1 (.word w (.interval r)) y
      (deliveries limit params.stops op out (.word w (.interval r)) y) := by
  obtain ⟨hw, hr⟩ := hs
  cases w with
  | bit => exact absurd rfl hw
  | int t =>
    exact resolves_of_step h hy rfl
      (Step.ofRange_describes params.stops h hr (Operation.represents_operand hy)).1

/-- Two constants are one step. -/
theorem resolves_fold {v b : ℤ} (hy : IsOperand limit arg y) (hv : w.view.contains v = true)
    (hb : ∀ u, arg = some u → u.view.contains b = true)
    (hfold : Plan.fold? params.stops op w (.word out) v y =
      some (.step (.foldWord params.stops op w (arg.getD w) (.word out) v b))) :
    Resolves limit op out params 1 (.word w (.constant v)) y
      (deliveries limit params.stops op out (.word w (.constant v)) y) :=
  resolves_of_step h hy (plan_fold hfold) (Step.foldWord_equals _ h hv hb).covers

/-- A constant is folded with each value of the second operand, or is transferred as a range. -/
theorem resolves_constant {v : ℤ} (hy : IsOperand limit arg y) (hv : w.view.contains v = true) :
    Resolves limit op out params 2 (.word w (.constant v)) y
      (deliveries limit params.stops op out (.word w (.constant v)) y) := by
  rcases fold?_cases op w out params.stops v hy with ⟨b, -, hb, hfold⟩ | ⟨u, t, rfl, rfl, ht, hfold⟩
  · exact (resolves_fold h hy hv hb hfold).deepen (Nat.le_succ 1)
  rcases plan_unfolded limit h hfold with
    ⟨vs, noted, hplan, hvs, -⟩ | ⟨-, ⟨-, -, errors, hplan⟩ | ⟨ty, rfl, hplan⟩⟩
  · rw [deliveries_of_arguments hplan]
    refine resolves_run h hy hplan (fun e transfer Q _ hQ => ?_) fun c hc => ?_
    · cases noted with
      | false => exact hQ
      | true => exact (Traced.returns_record _).bind fun _ _ => hQ
    · obtain ⟨y', hy', rfl⟩ := List.mem_map.mp hc
      obtain ⟨n, hn, rfl⟩ := List.mem_map.mp hy'
      have hmem := ht.proper.contains ((hvs n).mp hn)
      rw [wordConstant_eq hmem]
      exact resolves_fold h (isWord_word (Shape.wellFormed_constant hmem)) hv
        (fun _ hu => Option.some.inj hu ▸ hmem) rfl
  · exact (resolves_of_step h hy hplan
      (Step.anyWord_describes (S := {v | out.view.contains v = true})
      fun v hv => hv).covers).deepen (Nat.le_succ 1)
  · rw [deliveries_of_declined hplan rfl]
    exact resolves_promoted h hy hplan rfl (resolves_interval h hy ⟨by simp, .point hv⟩)

/-- With three levels of nesting, a transfer ends with the least upper bound of what its steps
become. -/
theorem resolves (hy : IsOperand limit arg y) (hs : s.Proper limit w) :
    Resolves limit op out params 3 (.word w s) y
      (deliveries limit params.stops op out (.word w s) y) := by
  have hrun : ∀ vs : List ℤ, (∀ v ∈ vs, w.view.contains v = true) →
      Plan.of limit params.stops op (.word out) (.word w s) y = .members (vs.map (wordConstant w)) →
      Resolves limit op out params 3 (.word w s) y
        (deliveries limit params.stops op out (.word w s) y) := by
    intro vs hvs hplan
    rw [deliveries_of_members hplan]
    refine resolves_run h hy hplan (fun e transfer Q he hQ => ?_) fun c hc => ?_
    · subst he
      exact hQ
    · obtain ⟨x', hx', rfl⟩ := List.mem_map.mp hc
      obtain ⟨v, hv, rfl⟩ := List.mem_map.mp hx'
      rw [wordConstant_eq (hvs v hv)]
      exact resolves_constant h hy (hvs v hv)
  cases s with
  | constant v => exact (resolves_constant h hy hs).deepen (Nat.le_succ 2)
  | interval r => exact (resolves_interval h hy hs).deepen (by omega)
  | disjunction vs => exact hrun vs hs.2.2.1 (by cases w <;> rfl)
  | top =>
    cases w with
    | bit => exact hrun [0, 1] (by decide) rfl
    | int t =>
      rw [deliveries_of_declined rfl rfl]
      exact (resolves_promoted h hy rfl rfl (resolves_interval h hy ⟨by simp, .full t⟩)).deepen
        (Nat.le_succ 2)

end

end Element

end ScalarDomain
