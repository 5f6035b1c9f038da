import ScalarDomain.Proofs.Backward.Solver

/-!
# Refinements find solutions

What the state of a refinement says about a relation between the values of the operand in charge
and those of the other one (`Refinement.Solved`), and how it comes about. Words that are no lists
are solved on ranges. A list in charge is refined value by value: what a run has found about the
values seen so far is an invariant (`Refinement.Gathers`), kept by each refined value and turned
into a solution at the end of the list. Words that face a list hand over to it.

The role of the operand in charge is a parameter, so a hand-over is the same statement with the
roles exchanged.
-/

namespace ScalarDomain

variable {limit : ℕ} {op : Operation} {w u : WordType} {arg : Option WordType} {x z m : Element}
  {y : Option Element} {S : ℤ → ℤ → Prop} {P : Prop} {params : Params} {slot : Slot}
  {r child : Refinement}

theorem Slot.inverse_ne_result (h : slot ≠ .result) : slot.inverse ≠ .result := by
  cases slot <;> simp_all [inverse]

namespace Refinement

/-! ### Solved refinements -/

/-- Nothing has been found yet. -/
structure Fresh (r : Refinement) : Prop where
  /-- The evaluation is fresh. -/
  eval : r.eval.Fresh
  /-- The first operand was not refined. -/
  first : r.first = none
  /-- Nor was the second one. -/
  second : r.second = none

theorem fresh_start (params : Params) (argument : Option Element) : (start params argument).Fresh :=
  ⟨Evaluation.fresh_start params argument, rfl, rfl⟩

theorem fresh_fork (r : Refinement) (argument : Option Element) (selector : Slot) :
    (r.fork argument selector).Fresh :=
  ⟨Evaluation.fresh_spawn r.eval argument, rfl, rfl⟩

/-- What was found about the operand of a role, and about the other one. -/
def found (r : Refinement) (slot : Slot) : Finding :=
  ⟨r.refined? slot, r.refined? slot.inverse,
    if r.eval.empty then none else some (decide (r.eval.verdict = .exact))⟩

/-- The operand in charge only decides in which order the refined operands are read. -/
theorem found_second (r : Refinement) : r.found .second = (r.found .first).swap := rfl

/-- A refinement was carried out and found a solution for the operand in charge and the other. -/
structure Solved (limit : ℕ) (w : WordType) (arg : Option WordType) (S : ℤ → ℤ → Prop) (P : Prop)
    (slot : Slot) (x : Element) (y : Option Element) (q : Bool × Refinement) : Prop where
  /-- It is supported. -/
  handled : q.1 = true
  /-- What was found is a solution. -/
  solves : (q.2.found slot).Solves limit w arg S P x y
  /-- There is a verdict. -/
  performed : q.2.eval.verdict ≠ .notPerformed

theorem Solved.weaken {Q : Prop} {q : Bool × Refinement} (h : Solved limit w arg S P slot x y q)
    (hQ : Q → P) : Solved limit w arg S Q slot x y q where
  handled := h.handled
  solves := { h.solves with tight := fun hq => h.solves.tight (hQ hq) }
  performed := h.performed

/-- A solution seen from the second operand. -/
theorem Solved.swap {o : Element} {q : Bool × Refinement}
    (h : Solved limit w (some u) S P .first x (some o) q) :
    Solved limit u (some w) (flip S) P .second o (some x) q where
  handled := h.handled
  solves := h.solves.swap
  performed := h.performed

/-- A refiner finds a solution for two operands in every fresh refinement of given parameters. -/
def SolvesOn (limit : ℕ) (w : WordType) (arg : Option WordType) (params : Params) (slot : Slot)
    (refiner : Refiner) (S : ℤ → ℤ → Prop) (P : Prop) (x : Element) (y : Option Element) : Prop :=
  ∀ r : Refinement, r.Fresh → r.eval.params = params → r.selector = slot → r.eval.argument = y →
    (refiner x r).Returns (Solved limit w arg S P slot x y)

/-- The finding that a fresh refinement settles on is what it found. -/
theorem found_settle (hr : r.Fresh) (f : Finding) : (r.settle f).found .first = f := by
  obtain ⟨⟨-, hv, he, -⟩, h1, h2⟩ := hr
  obtain ⟨a, b, e⟩ := f
  cases e with
  | none => simp [settle, found, refined?, mapEval, Evaluation.withEmpty, Evaluation.conclude, h1,
      h2, Slot.inverse]
  | some exact =>
    have hverdict : decide (Verdict.notPerformed.merge (.ofExact exact) = .exact) = exact := by
      cases exact <;> rfl
    simp [settle, found, refined?, mapEval, Evaluation.conclude, h1, h2, he, hv, hverdict,
      Slot.inverse]

/-- A finding always concludes the refinement. -/
theorem verdict_settle (r : Refinement) (f : Finding) :
    (r.settle f).eval.verdict ≠ .notPerformed := by
  intro h
  rw [settle] at h
  split at h <;> exact Verdict.ofExact_ne_notPerformed (Verdict.merge_eq_notPerformed.mp h).2

/-- A refinement that concludes without a finding keeps the operands. -/
theorem found_conclude {exact : Bool} (hr : r.Fresh) (hslot : slot ≠ .result) :
    (r.mapEval (·.conclude exact)).found slot = .keep exact := by
  obtain ⟨⟨-, hv, he, -⟩, h1, h2⟩ := hr
  have hverdict : decide (Verdict.notPerformed.merge (.ofExact exact) = .exact) = exact := by
    cases exact <;> rfl
  cases slot with
  | result => exact absurd rfl hslot
  | first | second =>
    simp [found, refined?, mapEval, Evaluation.conclude, h1, h2, he, hv, hverdict, Slot.inverse,
      Finding.keep]

/-- A refinement that keeps the operands solves a relation that admits all of them, and any relation
without an exact verdict. -/
theorem solved_keep {exact : Bool} (hr : r.Fresh) (hslot : slot ≠ .result) (hx : x.IsWord limit w)
    (hy : IsOperand limit arg y)
    (h : P → exact = true → (∀ a ∈ x.values, ∃ b ∈ operandValues y, S a b) ∧
      ∀ b ∈ operandValues y, ∃ a ∈ x.values, S a b) :
    Solved limit w arg S P slot x y (true, r.mapEval (·.conclude exact)) := by
  refine ⟨rfl, ?_, fun h => Verdict.ofExact_ne_notPerformed (Verdict.merge_eq_notPerformed.mp h).2⟩
  rw [found_conclude hr hslot]
  exact Finding.solves_keep hx hy h

/-- A refinement that gives up keeps the operands, without an exact verdict. -/
theorem solved_conclude (hr : r.Fresh) (hslot : slot ≠ .result) (hx : x.IsWord limit w)
    (hy : IsOperand limit arg y) :
    Solved limit w arg S P slot x y (true, r.mapEval (·.conclude false)) :=
  solved_keep hr hslot hx hy fun _ h => absurd h Bool.false_ne_true

/-! ### Ranges -/

/-- Words in charge find a solution on ranges, or decline because an operand is a list. -/
def RangesOn (limit : ℕ) (w : WordType) (arg : Option WordType) (params : Params) (slot : Slot)
    (op : Operation) (z : Element) (S : ℤ → ℤ → Prop) (P : Prop) (x : Element)
    (y : Option Element) : Prop :=
  ∀ r : Refinement, r.Fresh → r.eval.params = params → r.selector = slot → r.eval.argument = y →
    (r.byRanges limit op z x).Returns fun q =>
      Solved limit w arg S P slot x y q ∨ (q = (false, r) ∧ HasList x y)

theorem operands_first (hselector : r.selector = .first) (hargument : r.eval.argument = y) :
    r.operands x = (x, y) := by
  simp [operands, hselector, hargument]

theorem operands_second {o : Element} (hselector : r.selector = .second)
    (hargument : r.eval.argument = some x) : r.operands o = (x, some o) := by
  simp [operands, hselector, hargument]

/-- The first operand is in charge of the ranges. -/
theorem rangesOn_first (h : Finding.Handles limit params.stops op z w arg S P x y) :
    RangesOn limit w arg params .first op z S P x y := by
  rintro r hr rfl hselector rfl
  rw [byRanges, operands_first hselector rfl]
  rcases h with ⟨f, hf, hsolves⟩ | ⟨hnone, hlist⟩
  · refine (Traced.returns_lift hf rfl).bind ?_
    rintro _ rfl
    refine Traced.returns_pure (.inl ⟨rfl, ?_, verdict_settle r f⟩)
    rw [found_settle hr]
    exact hsolves
  · refine (Traced.returns_lift hnone rfl).bind ?_
    rintro _ rfl
    exact Traced.returns_pure (.inr ⟨rfl, hlist⟩)

/-- The second one is, and what is found is swapped. -/
theorem rangesOn_second {o : Element}
    (h : Finding.Handles limit params.stops op z w (some u) S P x (some o)) :
    RangesOn limit u (some w) params .second op z (flip S) P o (some x) := by
  rintro r hr rfl hselector hargument
  rw [byRanges, operands_second hselector hargument]
  rcases h with ⟨f, hf, hsolves⟩ | ⟨hnone, hlist⟩
  · refine (Traced.returns_lift hf rfl).bind ?_
    rintro _ rfl
    refine Traced.returns_pure (.inl ⟨rfl, ?_, verdict_settle r f⟩)
    rw [found_second, found_settle hr]
    exact hsolves.swap
  · refine (Traced.returns_lift hnone rfl).bind ?_
    rintro _ rfl
    exact Traced.returns_pure (.inr ⟨rfl, hlist.swap⟩)

/-- A statement about ranges holds whichever of two words is in charge. -/
structure EitherRanges
    (Ranges : WordType → Option WordType → Slot → Element → Option Element → Prop)
    (w : WordType) (arg : Option WordType) (slot : Slot) (x : Element) (y : Option Element) :
    Prop where
  /-- The operand of the given role may be. -/
  own : Ranges w arg slot x y
  /-- So may the other one. -/
  other : ∀ u o, arg = some u → y = some o → Ranges u (some w) slot.inverse o (some x)

/-- The relation between the operand of a role and the other one. -/
def orient (S : ℤ → ℤ → Prop) : Slot → ℤ → ℤ → Prop
  | .second => flip S
  | _ => S

/-- Words find a solution on ranges whichever of them is in charge. -/
abbrev EitherRangesOn (limit : ℕ) (w : WordType) (arg : Option WordType) (params : Params)
    (slot : Slot) (op : Operation) (z : Element) (S : ℤ → ℤ → Prop) (P : Prop) :
    Element → Option Element → Prop :=
  EitherRanges (fun w arg slot => RangesOn limit w arg params slot op z (orient S slot) P)
    w arg slot

theorem eitherRangesOn_first (h : Finding.Handles limit params.stops op z w arg S P x y) :
    EitherRangesOn limit w arg params .first op z S P x y where
  own := rangesOn_first h
  other := by
    rintro u o rfl rfl
    exact rangesOn_second h

theorem eitherRangesOn_second {o : Element}
    (h : Finding.Handles limit params.stops op z w (some u) S P x (some o)) :
    EitherRangesOn limit u (some w) params .second op z S P o (some x) where
  own := rangesOn_second h
  other := by
    rintro _ _ ⟨⟩ ⟨⟩
    exact rangesOn_first h

/-! ### Listed values -/

/-- One more word joined into what was found so far. -/
private theorem joinInto_spec {found : Option Element} (hf : ∀ k ∈ found, k.IsWord limit w)
    (hx : x.IsWord limit w) :
    ∃ j exact, joinInto limit found x = .ok (j, exact) ∧ j.IsWord limit w ∧
      (∀ c : Element, c.IsWord limit w → (∀ k ∈ found, k.Below c) → x.Below c → j.Below c) ∧
      (∀ v, (∃ k ∈ found, v ∈ k.values) ∨ v ∈ x.values → v ∈ j.values) ∧
      (exact = true → ∀ v ∈ j.values, (∃ k ∈ found, v ∈ k.values) ∨ v ∈ x.values) := by
  cases found with
  | none => exact ⟨x, true, rfl, hx, fun _ _ _ h => h, by simp, by simp⟩
  | some k =>
    obtain ⟨j, hj, hword, hsup, hexact⟩ := Element.join_words (hf k rfl) hx
    refine ⟨j, k.isExactJoin limit x j, ?_, hword, fun c hc hk hxc => ?_,
      fun v hv => hsup (by simpa using hv), fun he v hv => by simpa using hexact he hv⟩
    · rw [joinInto, hj]
      rfl
    · exact Element.join_below (hf k rfl) hx hc (hk k rfl) hxc hj

/-- What a run over the listed values of `x` found about those that it has seen: they are the values
of `D`, and `v` is the verdict on them. -/
structure Gathers (limit : ℕ) (w : WordType) (arg : Option WordType) (S : ℤ → ℤ → Prop) (P : Prop)
    (x : Element) (y : Option Element) (D : Set ℤ) (v : Verdict) (g : Gathered) : Prop where
  /-- Kept values make a well-formed word. -/
  kept : ∀ k ∈ g.kept, k.IsWord limit w
  /-- The other operands that go with them are found together with them. -/
  blank : g.kept = none → g.sources = none
  /-- They make a well-formed operand. -/
  sources : ∀ k ∈ g.kept, IsOperand limit arg (y.map g.sources.getD) ∧
    (g.sources = none → y = none)
  /-- Both are below what the run started with. -/
  below : (∀ k ∈ g.kept, k.Below x) ∧ ∀ q ∈ g.sources, ∃ o ∈ y, q.Below o
  /-- Admitted pairs survive. -/
  covers : ∀ a ∈ D, ∀ b ∈ operandValues y, S a b →
    (∃ k ∈ g.kept, a ∈ k.values) ∧ b ∈ operandValues (y.map g.sources.getD)
  /-- If all joins and verdicts are exact, everything that survives belongs to an admitted pair. -/
  tight : P → g.exact = true → v ≠ .degraded → ∀ k ∈ g.kept,
    (∀ a ∈ k.values, a ∈ D ∧ ∃ b ∈ operandValues y, S a b) ∧
      ∀ b ∈ operandValues (y.map g.sources.getD), b ∈ operandValues y ∧ ∃ a ∈ D, S a b

private theorem gathers_nil {v : Verdict} : Gathers limit w arg S P x y ∅ v {} where
  kept := by simp
  blank _ := rfl
  sources := by simp
  below := ⟨by simp, by simp⟩
  covers := by simp
  tight _ _ _ := by simp

section

variable {D : Set ℤ} {v : Verdict} {g : Gathered}

/-- A value that cannot give the result changes nothing. -/
private theorem Gathers.skip (h : Gathers limit w arg S P x y D v g)
    (hs : (child.found slot).Solves limit w arg S P m y) (hempty : child.eval.empty = true) :
    Gathers limit w arg S P x y (D ∪ m.values) (v.merge child.eval.verdict) g where
  kept := h.kept
  blank := h.blank
  sources := h.sources
  below := h.below
  covers a ha b hb hab := by
    rcases ha with ha | ha
    · exact h.covers a ha b hb hab
    · exact absurd (by simp [found, hempty]) (hs.sound a ha b hb hab).1
  tight hP hexact hv k hk := by
    obtain ⟨h1, h2⟩ := h.tight hP hexact (Verdict.merge_ne_degraded.mp hv).1 k hk
    exact ⟨fun a ha => ⟨.inl (h1 a ha).1, (h1 a ha).2⟩,
      fun b hb => ⟨(h2 b hb).1, (h2 b hb).2.imp fun a ha => ⟨.inl ha.1, ha.2⟩⟩⟩

/-- The refinement of one more value is joined in. -/
private theorem Gathers.add (h : Gathers limit w arg S P x y D v g) (hx : x.IsWord limit w)
    (hy : IsOperand limit arg y) (hm : m.IsWord limit w) (hmx : m.Below x)
    (hs : (child.found slot).Solves limit w arg S P m y) (hlive : child.eval.empty = false)
    (hperformed : child.eval.verdict ≠ .notPerformed) :
    ∃ g', g.add limit child slot m y = .ok g' ∧
      Gathers limit w arg S P x y (D ∪ m.values) (v.merge child.eval.verdict) g' := by
  obtain ⟨j, exact, hj, hword, hleast, hsup, hjexact⟩ := joinInto_spec h.kept hs.first
  have hfirst : child.refinedOr slot m = (child.found slot).firstOf m := rfl
  rw [Gathered.add, hfirst, hj]
  have hexists : (child.found slot).exactness ≠ none := by simp [found, hlive]
  have hjx : j.Below x := hleast x hx h.below.1 ((hs.firstOf_below hexists hm).trans hmx)
  -- what the verdict says about the values so far and about this one
  have hold : P → g.exact = true → v.merge child.eval.verdict ≠ .degraded → ∀ k ∈ g.kept, _ :=
    fun hP he hv => h.tight hP he (Verdict.merge_ne_degraded.mp hv).1
  have hnew : P → v.merge child.eval.verdict ≠ .degraded → _ := fun hP hv => by
    refine hs.tight hP ?_
    have hexact : child.eval.verdict = .exact := by
      have := (Verdict.merge_ne_degraded.mp hv).2
      cases hc : child.eval.verdict <;> simp_all
    simp [found, hlive, hexact]
  have hcovers : ∀ a ∈ D ∪ m.values, ∀ b ∈ operandValues y, S a b → a ∈ j.values := by
    rintro a (ha | ha) b hb hab
    · exact hsup a (.inl (h.covers a ha b hb hab).1)
    · exact hsup a (.inr (hs.sound a ha b hb hab).2.1)
  have htight : P → g.exact = true → exact = true → v.merge child.eval.verdict ≠ .degraded →
      ∀ a ∈ j.values, a ∈ D ∪ m.values ∧ ∃ b ∈ operandValues y, S a b := by
    intro hP he hje hv a ha
    rcases hjexact hje a ha with ⟨k, hk, hak⟩ | ha
    · obtain ⟨h1, h2⟩ := (hold hP he hv k hk).1 a hak
      exact ⟨.inl h1, h2⟩
    · obtain ⟨h1, h2⟩ := (hnew hP hv).1 a ha
      exact ⟨.inr h1, h2⟩
  cases y with
  | none =>
    refine ⟨_, rfl, ⟨by simpa using hword, by simp, fun _ _ => ⟨hs.second, fun _ => rfl⟩,
      ⟨by simpa using hjx, h.below.2⟩,
      fun a ha b hb hab => ⟨⟨j, rfl, hcovers a ha b hb hab⟩, hb⟩, ?_⟩⟩
    rintro hP he hv _ ⟨⟩
    obtain ⟨he, hje⟩ := Bool.and_eq_true_iff.mp he
    refine ⟨htight hP he hje hv, fun b hb => ⟨hb, ?_⟩⟩
    exact ((hnew hP hv).2 b hb).2.imp fun a ha => ⟨.inr ha.1, ha.2⟩
  | some o =>
    cases arg with
    | none => exact hs.second.elim
    | some u =>
      -- other operands were found together with kept values
      have hboth : ∀ q ∈ g.sources, ∃ k ∈ g.kept, q.IsWord limit u ∧
          ∀ b, b ∈ q.values ↔ b ∈ operandValues ((some o).map g.sources.getD) := by
        intro q hq
        cases hk : g.kept with
        | none => simp [h.blank hk] at hq
        | some k =>
          have hop := (h.sources k hk).1
          rw [Option.mem_def.mp hq] at hop ⊢
          exact ⟨k, rfl, hop, fun b => Iff.rfl⟩
      have hfound : ∀ k ∈ g.kept, ∃ q, g.sources = some q := by
        intro k hk
        cases hq : g.sources with
        | none => exact absurd ((h.sources k hk).2 hq) (by simp)
        | some q => exact ⟨q, rfl⟩
      obtain ⟨j', exact', hj', hword', hleast', hsup', hjexact'⟩ :=
        joinInto_spec (fun q hq => (hboth q hq).choose_spec.2.1) hs.second
      have hjo : j'.Below o :=
        hleast' o hy (by simpa using h.below.2) (hs.swap.firstOf_below hexists hy)
      refine ⟨⟨some j, some j', g.exact && exact && exact'⟩, ?_, ⟨by simpa using hword, by simp,
        fun _ _ => ⟨hword', by simp⟩, ⟨by simpa using hjx, by simpa using hjo⟩,
        fun a ha b hb hab => ⟨⟨j, rfl, hcovers a ha b hb hab⟩, hsup' b ?_⟩, ?_⟩⟩
      · change (joinInto limit g.sources ((child.found slot).second.getD o) >>= _) = _
        rw [hj']
        rfl
      · rcases ha with ha | ha
        · obtain ⟨⟨k, hk, -⟩, hb⟩ := h.covers a ha b hb hab
          obtain ⟨q, hq⟩ := hfound k hk
          exact .inl ⟨q, hq, ((hboth q hq).choose_spec.2.2 b).mpr hb⟩
        · exact .inr (hs.sound a ha b hb hab).2.2
      · rintro hP he hv _ ⟨⟩
        obtain ⟨he, hje'⟩ := Bool.and_eq_true_iff.mp he
        obtain ⟨he, hje⟩ := Bool.and_eq_true_iff.mp he
        refine ⟨htight hP he hje hv, fun b hb => ?_⟩
        rcases hjexact' hje' b hb with ⟨q, hq, hbq⟩ | hb
        · obtain ⟨k, hk, -, hmem⟩ := hboth q hq
          obtain ⟨h1, h2⟩ := (hold hP he hv k hk).2 b ((hmem b).mp hbq)
          exact ⟨h1, h2.imp fun a ha => ⟨.inl ha.1, ha.2⟩⟩
        · obtain ⟨h1, h2⟩ := (hnew hP hv).2 b hb
          exact ⟨h1, h2.imp fun a ha => ⟨.inr ha.1, ha.2⟩⟩

/-- The state of a refinement during a run over listed values. -/
structure Running (params : Params) (slot : Slot) (y : Option Element) (r : Refinement) :
    Prop where
  /-- The first operand was not refined. -/
  first : r.first = none
  /-- Nor was the second one. -/
  second : r.second = none
  /-- The refinement is not empty. -/
  empty : r.eval.empty = false
  /-- The parameters. -/
  params : r.eval.params = params
  /-- The role of the list. -/
  selector : r.selector = slot
  /-- The other operand. -/
  argument : r.eval.argument = y

/-- What a run over listed values leaves behind. -/
theorem found_gather (hr : Running params slot y r) (hslot : slot ≠ .result)
    (hblank : g.kept = none → g.sources = none) :
    (r.gather g).found slot = ⟨g.kept, g.sources, if g.kept = none then none
      else some (decide (r.eval.verdict.merge (.ofExact g.exact) = .exact))⟩ := by
  obtain ⟨h1, h2, hempty, -, rfl, -⟩ := hr
  obtain ⟨-, hv, he, -⟩ := r.eval.sealBranches_spec
  rw [hempty] at he
  obtain ⟨kept, sources, exact⟩ := g
  cases kept with
  | none =>
    cases hblank rfl
    cases hs : r.selector with
    | result => exact absurd hs hslot
    | first | second =>
      simp [gather, found, refined?, mapEval, Evaluation.withEmpty, Evaluation.conclude, h1, h2,
        Slot.inverse]
  | some k =>
    cases sources <;> cases hs : r.selector with
    | result => exact absurd hs hslot
    | first | second =>
      simp [gather, found, refined?, refineReceiver, refineSource, refine, mapEval,
        Evaluation.conclude, h1, h2, he, hv, hs, Slot.inverse]

/-- What was gathered over all values of a list is a solution. -/
private theorem Gathers.gather (h : Gathers limit w arg S P x y x.values r.eval.verdict g)
    (hr : Running params slot y r) (hslot : slot ≠ .result) (hx : x.IsWord limit w)
    (hy : IsOperand limit arg y) : Solved limit w arg S P slot x y (true, r.gather g) := by
  refine ⟨rfl, ?_,
    fun hv => Verdict.ofExact_ne_notPerformed (Verdict.merge_eq_notPerformed.mp hv).2⟩
  change Finding.Solves limit w arg S P x y ((r.gather g).found slot)
  rw [found_gather hr hslot h.blank]
  cases hk : g.kept with
  | none =>
    rw [h.blank hk]
    refine Finding.solves_of_none rfl hx (by cases y <;> exact hy) fun a ha b hb hab => ?_
    obtain ⟨⟨k, hk', -⟩, -⟩ := h.covers a ha b hb hab
    simp [hk] at hk'
  | some k =>
    refine ⟨h.kept k hk, (h.sources k hk).1, fun _ => ⟨hk ▸ h.below.1, h.below.2⟩,
      fun a ha b hb hab => ?_, fun hP he => ?_⟩
    · obtain ⟨⟨k', hk', hak⟩, hb⟩ := h.covers a ha b hb hab
      cases hk.symm.trans hk'
      exact ⟨by simp, hak, hb⟩
    · -- the verdict is exact, so all joins were and no value was degraded
      have hverdict : r.eval.verdict.merge (.ofExact g.exact) = .exact := by simpa using he
      have hexact := Verdict.eq_exact_of_merge_right hverdict Verdict.ofExact_ne_notPerformed
      have hne : r.eval.verdict.merge (.ofExact g.exact) ≠ .degraded := by simp [hverdict]
      exact h.tight hP (Verdict.ofExact_eq_exact.mp hexact) (Verdict.merge_ne_degraded.mp hne).1
        k hk

/-- A run over listed values that are all solved finds a solution of the list. -/
private theorem Gathers.byMembers {refiner : Refiner} (vs : List ℤ)
    (h : Gathers limit w arg S P x y D r.eval.verdict g) (hr : Running params slot y r)
    (hslot : slot ≠ .result) (hx : x.IsWord limit w) (hy : IsOperand limit arg y)
    (hvalues : x.values = D ∪ {v | v ∈ vs}) (hvs : ∀ v ∈ vs, w.view.contains v = true)
    (hrefiner : ∀ v ∈ vs, SolvesOn limit w arg params slot refiner S P (.wordConstant w v) y) :
    (byMembers limit refiner (vs.map (.wordConstant w)) g r).Returns
      (Solved limit w arg S P slot x y) := by
  induction vs generalizing D g r with
  | nil =>
    have hD : D = x.values := by simp [hvalues]
    subst hD
    exact Traced.returns_pure (h.gather hr hslot hx hy)
  | cons v vs ih =>
    obtain ⟨h1, h2, hempty, hparams, rfl, rfl⟩ := hr
    refine (hrefiner v List.mem_cons_self _ (r.fresh_fork _ _) hparams rfl rfl).bind ?_
    rintro ⟨handled, child⟩ ⟨rfl, hsolves, hperformed⟩
    have hrun : Running params r.selector r.eval.argument (r.absorbBranch child) :=
      ⟨h1, h2, hempty, hparams, rfl, rfl⟩
    have hset : x.values = D ∪ (Element.wordConstant w v).values ∪ {v | v ∈ vs} := by
      rw [hvalues, Element.wordConstant_eq (hvs v List.mem_cons_self)]
      ext a
      simp [or_assoc]
    have hmember : (Element.wordConstant w v).IsWord limit w :=
      Element.isWord_wordConstant (hvs v List.mem_cons_self)
    have hbelow : (Element.wordConstant w v).Below x := by
      have hv : v ∈ x.values := hvalues ▸ .inr List.mem_cons_self
      rw [Element.wordConstant_eq (hvs v List.mem_cons_self)]
      obtain ⟨s, rfl, -⟩ := hx
      exact Element.constant_below hv
    have hvs' := fun v hv => hvs v (List.mem_cons_of_mem _ hv)
    have hrefiner' := fun v hv => hrefiner v (List.mem_cons_of_mem _ hv)
    dsimp only
    simp only [Bool.not_true, Bool.false_eq_true, if_false]
    split
    · next hdead => exact ih (h.skip hsolves hdead) hrun hset hvs' hrefiner'
    · next hlive =>
      obtain ⟨g', hg', h'⟩ := h.add hx hy hmember hbelow hsolves (by simpa using hlive) hperformed
      refine (Traced.returns_lift hg' rfl).bind ?_
      rintro _ rfl
      exact ih h' hrun hset hvs' hrefiner'

end

/-- A list in charge is refined value by value. -/
theorem solvesOn_list {refiner : Refiner} {vs : List ℤ}
    (hx : (Element.word w (.disjunction vs)).IsWord limit w) (hy : IsOperand limit arg y)
    (hslot : slot ≠ .result)
    (hrefiner : ∀ v ∈ vs, SolvesOn limit w arg params slot refiner S P (.wordConstant w v) y) :
    SolvesOn limit w arg params slot (byKind limit op z refiner) S P
      (.word w (.disjunction vs)) y := by
  intro r hr hparams hselector hargument
  obtain ⟨⟨-, hv, he, -⟩, h1, h2⟩ := hr
  have hvs : ∀ v ∈ vs, w.view.contains v = true := by
    obtain ⟨s, hs, hw⟩ := hx
    cases hs
    exact hw.proper.2.2.1
  have hkind : byKind limit op z refiner (.word w (.disjunction vs)) r =
      r.byMembers limit refiner (vs.map (Element.wordConstant w)) {} := by
    cases w <;> rfl
  rw [hkind]
  refine gathers_nil.byMembers vs ⟨h1, h2, he, hparams, hselector, hargument⟩ hslot hx hy ?_ hvs
    hrefiner
  ext a
  simp

/-! ### Handing over -/

private theorem merge_notPerformed (v : Verdict) : Verdict.notPerformed.merge v = v := by
  cases v <;> rfl

/-- What the other operand found while it was in charge. -/
theorem found_absorb (hr : r.Fresh) (hslot : slot ≠ .result) :
    (r.absorb child).found slot =
      if child.eval.empty then .dead else (child.found slot.inverse).swap := by
  obtain ⟨⟨-, hv, he, -⟩, h1, h2⟩ := hr
  cases hempty : child.eval.empty <;> cases slot with
  | result => exact absurd rfl hslot
  | first | second =>
    simp [absorb, hempty, found, absorbFlags, Evaluation.absorbFlags, mapEval, refined?, h1, h2, he,
      hv, merge_notPerformed, Evaluation.withEmpty, Slot.inverse, Finding.dead, Finding.swap]

/-- What the other operand found while it was in charge is a solution. -/
private theorem solved_absorb {o : Element} (hr : r.Fresh) (hslot : slot ≠ .result)
    (hx : x.IsWord limit w) (ho : o.IsWord limit u)
    (h : Solved limit u (some w) (flip S) P slot.inverse o (some x) (true, child)) :
    Solved limit w (some u) S P slot x (some o) (true, r.absorb child) := by
  obtain ⟨-, hsolves, hperformed⟩ := h
  have hverdict : (r.absorb child).eval.verdict = child.eval.verdict := by
    cases hempty : child.eval.empty <;>
      simp [absorb, hempty, absorbFlags, Evaluation.absorbFlags, mapEval, Evaluation.withEmpty,
        hr.eval.verdict, merge_notPerformed]
  refine ⟨rfl, ?_, hverdict ▸ hperformed⟩
  change ((r.absorb child).found slot).Solves _ _ _ _ _ _ _
  rw [found_absorb hr hslot]
  cases hempty : child.eval.empty with
  | true =>
    refine Finding.solves_of_none rfl hx ho fun a ha b hb hab => ?_
    exact (hsolves.sound b hb a ha hab).1 (by simp [found, hempty])
  | false => exact hsolves.swap

/-- Words that are no lists are refined by ranges. -/
theorem byKind_word {t : IntType} {s : Shape} {refiner : Refiner}
    (h : ¬(Element.word (.int t) s).IsListed) (r : Refinement) :
    byKind limit op z refiner (.word (.int t) s) r = r.byRanges limit op z (.word (.int t) s) := by
  cases s with
  | disjunction vs => exact absurd rfl h
  | _ => rfl

end Refinement

namespace Element

open Refinement

/-- A refinement in a session of its own is solved if it is attempted successfully, or given up. -/
theorem enter_solves {attempt : Option Refiner} (hslot : slot ≠ .result) (hx : x.IsWord limit w)
    (hy : IsOperand limit arg y) (hthrough : x.throughInterval? = none)
    (h : ∀ refiner ∈ attempt, SolvesOn limit w arg params slot refiner S P x y) :
    SolvesOn limit w arg params slot (enter op z attempt) S P x y := by
  intro r hr hparams hselector hargument
  refine Traced.returns_session ?_
  cases attempt with
  | none =>
    exact (Traced.returns_record _).bind fun _ _ =>
      Traced.returns_pure (solved_conclude hr hslot hx hy)
  | some refiner =>
    rw [hthrough]
    exact h refiner rfl r hr hparams hselector hargument

/-- A word that is no list solves on ranges, or hands over to a list. -/
theorem attemptWith_solves {t : IntType} {s : Shape} {deeper deepest : Option Refiner}
    (hlist : ¬(word (.int t) s).IsListed) (hslot : slot ≠ .result)
    (hx : (word (.int t) s).IsWord limit (.int t)) (hy : IsOperand limit arg y)
    (hranges : RangesOn limit (.int t) arg params slot op z S P (.word (.int t) s) y)
    (hother : ∀ u vs, arg = some u → y = some (.word u (.disjunction vs)) →
      SolvesOn limit u (some (.int t)) params slot.inverse (byKind limit op z (enter op z deepest))
        (flip S) P (.word u (.disjunction vs)) (some (.word (.int t) s))) :
    SolvesOn limit (.int t) arg params slot (attemptWith limit op z deeper deepest) S P
      (.word (.int t) s) y := by
  intro r hr hparams hselector hargument
  rw [attemptWith, byKind_word hlist]
  refine (hranges r hr hparams hselector hargument).bind ?_
  rintro ⟨handled, r'⟩ (hsolved | ⟨hq, hl⟩)
  · cases hsolved.handled
    exact Traced.returns_pure hsolved
  · cases hq
    obtain ⟨o, rfl, ho⟩ := hl.resolve_left hlist
    cases arg with
    | none => exact hy.elim
    | some u =>
      have hword := hy
      obtain ⟨q, rfl, hq⟩ := hy
      cases q with
      | disjunction vs =>
        have hthrough : (word u (.disjunction vs)).throughInterval? = none := by cases u <;> rfl
        simp only [hargument, hthrough, hselector]
        refine (hother u vs rfl rfl _ (r.fresh_fork _ _) hparams rfl rfl).bind ?_
        rintro ⟨handled, child⟩ hsolved
        cases hsolved.handled
        refine (Traced.returns_record _).bind fun _ _ => ?_
        exact Traced.returns_pure (solved_absorb hr hslot hx hword hsolved)
      | _ => cases ho

/-- A list in charge is solved if its run over the listed values is. -/
theorem attemptWith_list_solves {deeper deepest : Option Refiner}
    (h : SolvesOn limit w arg params slot (byKind limit op z (enter op z deeper)) S P x y) :
    SolvesOn limit w arg params slot (attemptWith limit op z deeper deepest) S P x y := by
  intro r hr hparams hselector hargument
  refine (h r hr hparams hselector hargument).bind ?_
  rintro ⟨handled, r'⟩ hsolved
  cases hsolved.handled
  exact Traced.returns_pure hsolved

/-! ### Nesting -/

/-- Every attempt has attempts at its deeper levels, or none. -/
theorem attempt_cases (limit : ℕ) (op : Operation) (z : Element) (n : ℕ) :
    ∃ deeper deepest, attempt limit op z n = attemptWith limit op z deeper deepest ∧
      (∀ a ∈ deeper, ∃ k, a = attempt limit op z k) ∧
      ∀ a ∈ deepest, ∃ k, a = attempt limit op z k := by
  rcases n with _ | _ | n
  · exact ⟨none, none, by rw [attempt], by simp, by simp⟩
  · exact ⟨_, none, by rw [attempt], by simp, by simp⟩
  · exact ⟨_, _, by rw [attempt], by simp, by simp⟩

/-- An element itself, or a value of a list. -/
def IsPiece (w : WordType) (x x' : Element) : Prop :=
  x' = x ∨ x.IsListed ∧ ∃ v ∈ x.values, x' = wordConstant w v

/-- A second operand itself or one of its values. -/
def IsOperandPiece (arg : Option WordType) (y y' : Option Element) : Prop :=
  y' = y ∨ ∃ u, arg = some u ∧ ∃ v ∈ operandValues y, y' = some (wordConstant u v)

/-- A statement about what refiners do to the operand of a role and the other one, that comes about
from the same statement about nested refinements, and in the end from a statement about ranges. -/
structure Nests (limit : ℕ) (op : Operation) (z : Element)
    (On : WordType → Option WordType → Slot → Refiner → Element → Option Element → Prop)
    (Ranges : WordType → Option WordType → Slot → Element → Option Element → Prop) : Prop where
  /-- In a session of its own, a refinement is attempted or given up. -/
  session : ∀ {w arg slot x y attempt}, slot ≠ .result → x.IsWord limit w → IsOperand limit arg y →
    x.throughInterval? = none → (∀ refiner ∈ attempt, On w arg slot refiner x y) →
      On w arg slot (enter op z attempt) x y
  /-- A list in charge is refined value by value. -/
  run : ∀ {w arg slot vs y refiner}, slot ≠ .result → (word w (.disjunction vs)).IsWord limit w →
    IsOperand limit arg y → (∀ v ∈ vs, On w arg slot refiner (.wordConstant w v) y) →
      On w arg slot (byKind limit op z refiner) (.word w (.disjunction vs)) y
  /-- It does not hand over. -/
  inCharge : ∀ {w arg slot x y deeper deepest},
    On w arg slot (byKind limit op z (enter op z deeper)) x y →
      On w arg slot (attemptWith limit op z deeper deepest) x y
  /-- A word that is no list is refined by its range, or hands over to a list. -/
  handOver : ∀ {t s arg slot y deeper deepest}, ¬(word (.int t) s).IsListed → slot ≠ .result →
    (word (.int t) s).IsWord limit (.int t) → IsOperand limit arg y →
    Ranges (.int t) arg slot (.word (.int t) s) y →
    (∀ u vs, arg = some u → y = some (.word u (.disjunction vs)) →
      On u (some (.int t)) slot.inverse (byKind limit op z (enter op z deepest))
        (.word u (.disjunction vs)) (some (.word (.int t) s))) →
      On (.int t) arg slot (attemptWith limit op z deeper deepest) (.word (.int t) s) y

namespace Nests

variable {t : IntType} {s : Shape}
  {On : WordType → Option WordType → Slot → Refiner → Element → Option Element → Prop}
  {Ranges : WordType → Option WordType → Slot → Element → Option Element → Prop}
  (h : Nests limit op z On Ranges)

include h

/-- Two words that are no lists are refined by their ranges. -/
private theorem refines_plain (n : ℕ) (hlist : ¬(word (.int t) s).IsListed)
    (hother : ∀ o, y = some o → ¬o.IsListed) (hslot : slot ≠ .result)
    (hx : (word (.int t) s).IsWord limit (.int t)) (hy : IsOperand limit arg y)
    (hranges : Ranges (.int t) arg slot (.word (.int t) s) y) :
    On (.int t) arg slot (attempt limit op z n) (.word (.int t) s) y := by
  obtain ⟨deeper, deepest, he, -⟩ := attempt_cases limit op z n
  rw [he]
  refine h.handOver hlist hslot hx hy hranges ?_
  rintro u vs - rfl
  exact absurd rfl (hother _ rfl)

/-- A word that is no list is refined at every level: by its range, or value by value of the other
operand. -/
private theorem refines_word (n : ℕ) (hlist : ¬(word (.int t) s).IsListed) (hslot : slot ≠ .result)
    (hx : (word (.int t) s).IsWord limit (.int t)) (hy : IsOperand limit arg y)
    (hleaf : ∀ y', IsOperandPiece arg y y' →
      EitherRanges Ranges (.int t) arg slot (.word (.int t) s) y') :
    On (.int t) arg slot (attempt limit op z n) (.word (.int t) s) y := by
  obtain ⟨deeper, deepest, he, -, hdeepest⟩ := attempt_cases limit op z n
  rw [he]
  refine h.handOver hlist hslot hx hy (hleaf y (.inl rfl)).own ?_
  rintro u vs rfl rfl
  have hinverse := Slot.inverse_ne_result hslot
  refine h.run hinverse hy hx fun v hv => ?_
  -- a value of the list is in charge now, and the word is the other operand
  have hvalue : v ∈ (word u (.disjunction vs)).values :=
    mem_values_word.mpr (Shape.contains_disjunction.mpr hv)
  have hcontains : u.view.contains v = true := IsOperand.contains hy hvalue rfl
  have hranges : Ranges u (some (.int t)) slot.inverse (wordConstant u v)
      (some (.word (.int t) s)) :=
    (hleaf _ (.inr ⟨u, rfl, v, hvalue, rfl⟩)).other u _ rfl rfl
  obtain ⟨q, hq, hproper⟩ := hy
  cases hq
  cases u with
  | bit => exact absurd rfl hproper.proper.1
  | int t' =>
    rw [wordConstant_eq hcontains] at hranges ⊢
    have hconstant : (Element.word (.int t') (.constant v)).IsWord limit (.int t') :=
      isWord_word (Shape.wellFormed_constant hcontains)
    refine h.session hinverse hconstant hx rfl fun a ha => ?_
    obtain ⟨k, rfl⟩ := hdeepest a ha
    refine h.refines_plain k nofun ?_ hinverse hconstant hx hranges
    rintro o ⟨⟩
    exact hlist

/-- A word of an integer type is refined at every level, a list value by value. -/
theorem refines (n : ℕ) (hslot : slot ≠ .result) (hx : x.IsWord limit (.int t))
    (hy : IsOperand limit arg y)
    (hleaf : ∀ x' y', IsPiece (.int t) x x' → IsOperandPiece arg y y' →
      EitherRanges Ranges (.int t) arg slot x' y') :
    On (.int t) arg slot (attempt limit op z n) x y := by
  have hword := hx
  obtain ⟨s, rfl, hs⟩ := hx
  by_cases hlist : (Element.word (.int t) s).IsListed
  · cases s with
    | disjunction vs =>
      obtain ⟨deeper, deepest, he, hdeeper, -⟩ := attempt_cases limit op z n
      rw [he]
      refine h.inCharge (h.run hslot hword hy fun v hv => ?_)
      have hcontains := hs.proper.2.2.1 v hv
      have hpiece : IsPiece (.int t) (.word (.int t) (.disjunction vs)) (wordConstant (.int t) v) :=
        .inr ⟨rfl, v, mem_values_word.mpr (Shape.contains_disjunction.mpr hv), rfl⟩
      rw [wordConstant_eq hcontains] at hpiece ⊢
      have hconstant : (Element.word (.int t) (.constant v)).IsWord limit (.int t) :=
        isWord_word (Shape.wellFormed_constant hcontains)
      refine h.session hslot hconstant hy rfl fun a ha => ?_
      obtain ⟨k, rfl⟩ := hdeeper a ha
      exact h.refines_word k nofun hslot hconstant hy fun y' hy' => hleaf _ y' hpiece hy'
    | _ => cases hlist
  · exact h.refines_word n hlist hslot hword hy fun y' hy' => hleaf _ y' (.inl rfl) hy'

end Nests

variable {t : IntType}

/-- Solutions come about from nested solutions. -/
theorem solvesOn_nests (params : Params) (S : ℤ → ℤ → Prop) (P : Prop) :
    Nests limit op z
      (fun w arg slot refiner => SolvesOn limit w arg params slot refiner (orient S slot) P)
      fun w arg slot => RangesOn limit w arg params slot op z (orient S slot) P where
  session := enter_solves
  run hslot hx hy := solvesOn_list hx hy hslot
  inCharge := attemptWith_list_solves
  handOver {t s arg slot y deeper deepest} hlist hslot hx hy hranges hother := by
    refine attemptWith_solves hlist hslot hx hy hranges fun u vs hu hvs => ?_
    cases slot with
    | result => exact absurd rfl hslot
    | first | second => exact hother u vs hu hvs

/-- What was found about an element is also found about one of the same values above it. -/
private theorem solves_of_values_eq {f : Finding} {x' : Element}
    (h : f.Solves limit w arg S P x' y) (hx : x.IsWord limit w) (hvalues : x.values = x'.values)
    (hbelow : x'.Below x) : f.Solves limit w arg S P x y := by
  obtain ⟨h1, h2, h3, h4, h5⟩ := h
  have hfirst : (f.firstOf x).values = (f.firstOf x').values := by
    rw [Finding.firstOf, Finding.firstOf]
    cases f.first with
    | none => exact hvalues
    | some e => rfl
  refine ⟨?_, h2, fun hlive => ⟨fun q hq => ((h3 hlive).1 q hq).trans hbelow, (h3 hlive).2⟩, ?_, ?_⟩
  · rw [Finding.firstOf] at h1 ⊢
    cases hf : f.first with
    | none => exact hx
    | some e => simpa [hf] using h1
  · rw [hvalues, hfirst]
    exact h4
  · rw [hvalues, hfirst]
    exact h5

/-- Refinement of a word of an integer type solves what its pieces solve; a top goes through the
interval of all values. -/
theorem constrainWithin_solves (n : ℕ) (hslot : slot ≠ .result) (hx : x.IsWord limit (.int t))
    (hy : IsOperand limit arg y)
    (hleaf : ∀ x' y', IsPiece (.int t) (x.throughInterval?.getD x) x' → IsOperandPiece arg y y' →
      EitherRangesOn limit (.int t) arg params slot op z S P x' y') :
    SolvesOn limit (.int t) arg params slot (constrainWithin limit op z n) (orient S slot) P
      x y := by
  have hword := hx
  obtain ⟨s, rfl, hs⟩ := hx
  rcases n with _ | n
  · rw [constrainWithin]
    intro r hr _ _ _
    exact Traced.returns_session ((Traced.returns_record _).bind fun _ _ =>
      Traced.returns_pure (solved_conclude hr hslot hword hy))
  rw [constrainWithin]
  cases s with
  | top =>
    intro r hr hparams hselector hargument
    have hfull : (fullInterval t).IsWord limit (.int t) :=
      isWord_word (Shape.wellFormed_full t)
    refine Traced.returns_session (Traced.returns_session ?_)
    have hbelow : (fullInterval t).Below (.word (.int t) .top) :=
      .word (Shape.below_of_not_isEnumerated (values_fullInterval t).subset nofun
        Shape.not_isEnumerated_top)
    refine ((solvesOn_nests params S P).refines n hslot hfull hy hleaf r hr hparams hselector
      hargument).mono fun q hq => ?_
    exact ⟨hq.handled, solves_of_values_eq hq.solves hword (values_fullInterval t).symm hbelow,
      hq.performed⟩
  | _ =>
    refine enter_solves hslot hword hy rfl ?_
    rintro _ ⟨⟩
    exact (solvesOn_nests params S P).refines n hslot hword hy hleaf

end Element

end ScalarDomain
