import ScalarDomain.Proofs.Backward.Refinement

/-!
# Trial of all pairs

Bits have no ranges to solve on: the operation is run forward on every pair of values, and the pairs
whose outcome meets the result are kept. A trial keeps every pair that reaches the result because
forward transfers are sound; it keeps no other pair because the transfer of two constants has
nothing but the values of their execution, as long as a level of nesting is left to run it in
(`Refinement.isFeasible_spec`). Comparisons and connectives of a known bit are read off a truth
table instead.
-/

namespace ScalarDomain

variable {limit : ℕ} {op : Operation} {w u out : WordType} {arg : Option WordType} {x z c : Element}
  {y : Option Element} {P : Prop} {r : Refinement}

/-! ### Listed values -/

namespace Element

/-- Words that are the same are equal. -/
theorem eq_word_of_beq {e : Element} {s : Shape} (h : (e == word w s) = true) : e = word w s := by
  cases e with
  | word w' s' =>
    obtain ⟨rfl, rfl⟩ := of_decide_eq_true h
    rfl
  | float f s' => cases h

private theorem mem_addNew {xs : List Element} {s : Shape} {e : Element} :
    e ∈ addNew xs (.word w s) ↔ e ∈ xs ∨ e = .word w s := by
  rw [addNew]
  split
  · next h =>
    obtain ⟨e', he', hsame⟩ := List.any_eq_true.mp h
    rw [eq_word_of_beq hsame] at he'
    refine ⟨.inl, ?_⟩
    rintro (he | rfl)
    exacts [he, he']
  · simp

/-- Words joined one after the other into what was joined so far. -/
private theorem foldlM_join (es : List Element) (k : Element) (exact : Bool)
    (hk : k.IsWord limit w) (hes : ∀ e ∈ es, e.IsWord limit w) :
    ∃ j exact', es.foldlM (fun (acc : Element × Bool) y => do
        let next ← acc.1.join limit y
        return (next, acc.2 && acc.1.isExactJoin limit y next)) (k, exact) =
          (.ok (j, exact') : Except Fault (Element × Bool)) ∧
      j.IsWord limit w ∧ (∀ e ∈ k :: es, e.values ⊆ j.values) ∧
      (exact' = true → exact = true ∧ ∀ v ∈ j.values, ∃ e ∈ k :: es, v ∈ e.values) := by
  induction es generalizing k exact with
  | nil =>
    exact ⟨k, exact, rfl, hk, by simp, fun h => ⟨h, fun v hv => ⟨k, List.mem_cons_self, hv⟩⟩⟩
  | cons e es ih =>
    obtain ⟨n, hn, hword, hsup, hsub⟩ := join_words hk (hes e List.mem_cons_self)
    obtain ⟨j, exact', hj, hjw, hnj, hexact⟩ := ih n (exact && k.isExactJoin limit e n) hword
      fun e' he' => hes e' (List.mem_cons_of_mem _ he')
    have hle := hnj n List.mem_cons_self
    refine ⟨j, exact', ?_, hjw, ?_, fun h => ?_⟩
    · rw [List.foldlM_cons, hn]
      exact hj
    · intro e' he' v hv
      rcases List.mem_cons.mp he' with rfl | he'
      · exact hle (hsup (.inl hv))
      rcases List.mem_cons.mp he' with rfl | he'
      · exact hle (hsup (.inr hv))
      · exact hnj e' (List.mem_cons_of_mem _ he') hv
    · obtain ⟨hboth, hcases⟩ := hexact h
      obtain ⟨h1, h2⟩ := Bool.and_eq_true_iff.mp hboth
      refine ⟨h1, fun v hv => ?_⟩
      obtain ⟨e', he', hv⟩ := hcases v hv
      rcases List.mem_cons.mp he' with rfl | he'
      · rcases hsub h2 hv with hv | hv
        · exact ⟨k, List.mem_cons_self, hv⟩
        · exact ⟨e, by simp, hv⟩
      · exact ⟨e', by simp [he'], hv⟩

/-- The join of some words has the values of all of them, and no other ones if it is exact. -/
private theorem joinAll_spec {xs : List Element} (hxs : ∀ e ∈ xs, e.IsWord limit w)
    (hne : xs ≠ []) :
    ∃ j exact, joinAll limit xs = .ok (some (j, exact)) ∧ j.IsWord limit w ∧
      (∀ e ∈ xs, e.values ⊆ j.values) ∧
      (exact = true → ∀ v ∈ j.values, ∃ e ∈ xs, v ∈ e.values) := by
  cases xs with
  | nil => exact absurd rfl hne
  | cons e es =>
    obtain ⟨j, exact, hj, hjw, hsup, hexact⟩ := foldlM_join es e true (hxs e List.mem_cons_self)
      fun e' he' => hxs e' (List.mem_cons_of_mem _ he')
    refine ⟨j, exact, ?_, hjw, hsup, fun h => (hexact h).2⟩
    rw [joinAll, hj]
    rfl

/-- Enumerated elements are the constants of the values. -/
theorem enumerate?_spec {xs : List Element} (hx : x.IsWord limit w)
    (h : x.enumerate? limit = some xs) :
    ∃ vs : List ℤ, xs = vs.map (wordConstant w) ∧ ∀ v, v ∈ vs ↔ v ∈ x.values := by
  obtain ⟨s, rfl, hs⟩ := hx
  rw [enumerate?, members?] at h
  cases hvs : (word w s).intValues? with
  | some vs =>
    rw [hvs] at h
    cases h
    exact ⟨vs, rfl, fun v => mem_intValues? hvs⟩
  | none =>
    rw [hvs] at h
    dsimp only [Option.map_none] at h
    split at h
    · next hsize =>
      cases h
      refine ⟨(s.bounds w.view).values limit, rfl, fun v => ?_⟩
      rw [Bounds.mem_values_iff hsize, mem_values_word,
        Shape.contains_iff_mem_bounds (precision_of_intValues? hvs)]
    · cases h

end Element

/-- The second operand of one value. -/
def operandConstant (arg : Option WordType) (b : ℤ) : Option Element :=
  arg.map fun u => .wordConstant u b

/-- A value of a second operand on its own. -/
private theorem operandConstant_spec {b : ℤ} (hy : IsOperand limit arg y)
    (hb : b ∈ operandValues y) :
    IsOperand limit arg (operandConstant arg b) ∧ operandValues (operandConstant arg b) = {b} ∧
      ∀ o, operandConstant arg b = some o → o.precision = .constant := by
  cases arg with
  | none =>
    cases y with
    | some y => exact hy.elim
    | none =>
      cases hb
      exact ⟨trivial, rfl, nofun⟩
  | some u =>
    have hcontains : u.view.contains b = true := hy.contains hb rfl
    refine ⟨Element.isWord_wordConstant hcontains, ?_, ?_⟩
    · ext v
      rw [operandConstant, Option.map_some, Element.wordConstant_eq hcontains]
      exact Shape.contains_constant
    · rintro o ⟨⟩
      change (Element.wordConstant u b).precision = _
      rw [Element.wordConstant_eq hcontains]
      rfl

/-! ### Feasible pairs -/

/-- An execution that may end with two values may end with any. -/
private theorem Outcome.eq_anything {t : IntType} {o : Outcome} (h : (o.values t).Nontrivial) :
    o = .anything := by
  obtain ⟨v, hv, v', hv', hne⟩ := h
  cases o with
  | value u => exact absurd (hv.trans hv'.symm) hne
  | pruned => exact hv.elim
  | anything => rfl

namespace Refinement

/-- The trial of a pair of values keeps it if its execution may reach the result, and only then
when a level of nesting is left for it. -/
theorem isFeasible_spec {a b : ℤ} (h : op.Accepts w arg out) (hz : z.IsWord limit out)
    (ha : w.view.contains a = true) (hy : IsOperand limit arg y) (hb : b ∈ operandValues y) :
    (r.isFeasible limit op z (.wordConstant w a) (operandConstant arg b)).Returns fun kept =>
      (op.Reaches r.eval.params.stops w.view (arg.getD w).view out.view z.values a b →
        kept = true) ∧
      (2 ≤ r.eval.budget → kept = true →
        op.Reaches r.eval.params.stops w.view (arg.getD w).view out.view z.values a b) := by
  rw [Element.wordConstant_eq ha, isFeasible, Element.apply]
  obtain ⟨hoperand, hsingle, hconstant⟩ := operandConstant_spec hy hb
  have hfresh := r.eval.fresh_spawn (operandConstant arg b)
  generalize he : r.eval.spawn (operandConstant arg b) = e at hfresh
  obtain ⟨hparams, hargument⟩ : e.params = r.eval.params ∧ e.argument = operandConstant arg b := by
    subst he
    exact ⟨rfl, rfl⟩
  rw [← hparams]
  rw [← hargument] at hoperand hsingle hconstant
  -- the outcome covers the execution, and is confined to it when it can be nested
  have hreports := Element.applyWithin_reports h e.params e.budget (s := .constant a) ha hoperand e
    hfresh rfl rfl
  have hconfined : (Element.applyWithin limit op e.budget (.word w (.constant a)) e).Returns
      fun q => 2 ≤ r.eval.budget → q.2.Confined
        ((op.execute e.params.stops w.view (arg.getD w).view out.view a b).values out.view) := by
    by_cases hbudget : 2 ≤ r.eval.budget
    · obtain ⟨n, hn⟩ : ∃ n, e.budget = n + 1 := by
        refine ⟨e.budget - 1, ?_⟩
        subst he
        simp only [Evaluation.budget, Evaluation.spawn, Evaluation.start] at hbudget ⊢
        omega
      rw [hn]
      exact (Element.applyWithin_constants h hfresh ha hoperand hconstant (by simp [hsingle])).mono
        fun q hq _ => hq.2
    · exact hreports.mono fun q _ hle => absurd hle hbudget
  refine (hreports.and hconfined).bind ?_
  rintro ⟨handled, trial⟩ ⟨⟨rfl, hreport⟩, hconfined⟩
  have hmem : ∀ {v}, v ∈ (op.execute e.params.stops w.view (arg.getD w).view out.view a b).values
      out.view → v ∈ op.results e.params.stops w.view (arg.getD w).view out.view
        (Element.word w (.constant a)).values (operandValues e.argument) :=
    fun hv => ⟨a, Shape.contains_constant.mpr rfl, b, by simp [hsingle], hv⟩
  dsimp only
  simp only [Bool.not_true, Bool.false_eq_true, if_false]
  cases hres : trial.result with
  | some outcome =>
    obtain ⟨o, ho, hsome⟩ := Element.meet_words (hreport.word outcome hres) hz
    refine (Traced.returns_lift ho rfl).bind ?_
    rintro _ rfl
    refine Traced.returns_pure ⟨?_, fun hbudget hkept => ?_⟩
    · rintro ⟨v, hvz, hv⟩
      exact hsome.mpr ⟨v, hreport.covers outcome hres (hmem hv), hvz⟩
    · obtain ⟨v, hv, hvz⟩ := hsome.mp hkept
      exact ⟨v, hvz, (hconfined hbudget).result outcome hres hv⟩
  | none =>
    refine Traced.returns_pure ⟨?_, fun hbudget hkept => ?_⟩
    · rintro ⟨v, hvz, hv⟩
      rw [hreport.empty_eq_false (hmem hv)]
      rfl
    · -- without a single value the execution goes on with any one, so all results are reached
      have hany := Outcome.eq_anything ((hconfined hbudget).unperformed hres (by simpa using hkept))
      obtain ⟨v, hv⟩ := hz.nonempty
      obtain ⟨q, rfl, hq⟩ := hz
      refine ⟨v, hv, ?_⟩
      rw [hany]
      exact hq.proper.contains hv

/-- The pairs that a trial kept out of those it tried: all that a relation admits, and no others
provided that `P` holds. -/
structure Sifts (R : ℤ → ℤ → Prop) (P : Prop) (tried kept : List (ℤ × ℤ)) : Prop where
  /-- Kept pairs were tried. -/
  subset : ∀ p ∈ kept, p ∈ tried
  /-- Admitted pairs are kept. -/
  keeps : ∀ p ∈ tried, R p.1 p.2 → p ∈ kept
  /-- Other pairs are not. -/
  tight : P → ∀ p ∈ kept, R p.1 p.2

/-- The trial of a list of pairs collects the operands of those that it keeps. -/
theorem feasible_spec (h : op.Accepts w arg out) (hz : z.IsWord limit out)
    (hy : IsOperand limit arg y) (pairs : List (ℤ × ℤ))
    (hpairs : ∀ p ∈ pairs, w.view.contains p.1 = true ∧ p.2 ∈ operandValues y)
    (xs ys : List Element) :
    (r.feasible limit op z
      (pairs.map fun p => (.wordConstant w p.1, operandConstant arg p.2)) (xs, ys)).Returns fun q =>
        ∃ kept, Sifts (op.Reaches r.eval.params.stops w.view (arg.getD w).view out.view z.values)
            (2 ≤ r.eval.budget) pairs kept ∧
          (∀ e, e ∈ q.1 ↔ e ∈ xs ∨ ∃ p ∈ kept, e = .wordConstant w p.1) ∧
          ∀ e, e ∈ q.2 ↔ e ∈ ys ∨ ∃ p ∈ kept, operandConstant arg p.2 = some e := by
  induction pairs generalizing xs ys with
  | nil => exact Traced.returns_pure ⟨[], ⟨by simp, by simp, by simp⟩, by simp, by simp⟩
  | cons p rest ih =>
    obtain ⟨ha, hb⟩ := hpairs p List.mem_cons_self
    refine (isFeasible_spec h hz ha hy hb).bind fun kept ⟨hkeeps, htight⟩ => ?_
    have ih := fun xs ys => ih (fun p hp => hpairs p (List.mem_cons_of_mem _ hp)) xs ys
    cases kept with
    | false =>
      refine (ih xs ys).mono fun q => ?_
      rintro ⟨kept, ⟨h1, h2, h3⟩, hq⟩
      refine ⟨kept, ⟨fun p hp => List.mem_cons_of_mem _ (h1 p hp), fun p' hp hR => ?_, h3⟩, hq⟩
      rcases List.mem_cons.mp hp with rfl | hp
      · exact absurd (hkeeps hR) Bool.false_ne_true
      · exact h2 p' hp hR
    | true =>
      refine (ih _ _).mono fun q => ?_
      rintro ⟨kept, ⟨h1, h2, h3⟩, hq1, hq2⟩
      refine ⟨p :: kept, ⟨fun p' hp => ?_, fun p' hp hR => ?_, fun hP p' hp => ?_⟩, fun e => ?_,
        fun e => ?_⟩
      · exact List.mem_cons.mpr ((List.mem_cons.mp hp).imp_right (h1 p'))
      · exact List.mem_cons.mpr ((List.mem_cons.mp hp).imp_right fun hp => h2 p' hp hR)
      · rcases List.mem_cons.mp hp with rfl | hp
        · exact htight hP rfl
        · exact h3 hP p' hp
      · rw [hq1, Element.wordConstant, Element.mem_addNew, or_assoc]
        simp [Element.wordConstant]
      · rw [hq2]
        cases arg with
        | none => simp [operandConstant]
        | some u =>
          change e ∈ Element.addNew ys (.word u (u.rangeShape (.point p.2))) ∨ _ ↔ _
          rw [Element.mem_addNew, or_assoc]
          simp [operandConstant, Element.wordConstant, eq_comm]

/-- The values of an operand that occur in kept pairs, joined and met with the operand: at least
those, and no others if the join is exact. -/
private theorem join_cut {xs : List Element} {kept : List (ℤ × ℤ)} (side : ℤ × ℤ → ℤ)
    (hx : x.IsWord limit w) (hxs : ∀ e, e ∈ xs ↔ ∃ p ∈ kept, e = .wordConstant w (side p))
    (hkept : ∀ p ∈ kept, side p ∈ x.values) (hne : kept ≠ []) :
    ∃ j exact c, Element.joinAll limit xs = .ok (some (j, exact)) ∧
      x.refineWith limit j = .ok (some c) ∧ (c.getD x).IsWord limit w ∧ (∀ q ∈ c, q.Below x) ∧
      (∀ p ∈ kept, side p ∈ (c.getD x).values) ∧
      (exact = true → ∀ v ∈ (c.getD x).values, ∃ p ∈ kept, side p = v) := by
  have hcontains : ∀ p ∈ kept, w.view.contains (side p) = true := fun p hp => by
    have hmem := hkept p hp
    obtain ⟨s, rfl, hs⟩ := hx
    exact hs.proper.contains hmem
  have hconstant : ∀ p ∈ kept, ∀ a, a ∈ (Element.wordConstant w (side p)).values ↔ a = side p :=
    fun p hp a => by
      rw [Element.wordConstant_eq (hcontains p hp), Element.mem_values_word,
        Shape.contains_constant]
  have hwords : ∀ e ∈ xs, e.IsWord limit w := fun e he => by
    obtain ⟨p, hp, rfl⟩ := (hxs e).mp he
    exact Element.isWord_wordConstant (hcontains p hp)
  obtain ⟨p, hp⟩ := List.exists_mem_of_ne_nil kept hne
  obtain ⟨j, exact, hj, hword, hsup, hexact⟩ :=
    Element.joinAll_spec hwords (List.ne_nil_of_mem ((hxs _).mpr ⟨p, hp, rfl⟩))
  have hmem : ∀ p ∈ kept, side p ∈ j.values := fun p hp =>
    hsup _ ((hxs _).mpr ⟨p, hp, rfl⟩) ((hconstant p hp _).mpr rfl)
  obtain ⟨o, ho, hcut⟩ := Element.refineWith_spec hx hword
  cases o with
  | none => exact absurd (hmem p hp) (hcut _ (hkept p hp))
  | some c =>
    refine ⟨j, exact, c, hj, ho, hcut.1.1, hcut.1.2,
      fun p hp => (hcut.2 _).mpr ⟨hkept p hp, hmem p hp⟩, fun he a ha => ?_⟩
    obtain ⟨e, he, hae⟩ := hexact he a ((hcut.2 a).mp ha).2
    obtain ⟨p, hp, rfl⟩ := (hxs e).mp he
    exact ⟨p, hp, ((hconstant p hp a).mp hae).symm⟩

/-- A trial of all pairs of values of two operands: what it kept, and the operands in it. -/
structure Tried (w : WordType) (arg : Option WordType) (R : ℤ → ℤ → Prop) (P : Prop) (x : Element)
    (y : Option Element) (kept : List (ℤ × ℤ)) (xs ys : List Element) : Prop where
  /-- Kept pairs are pairs of values. -/
  values : ∀ p ∈ kept, p.1 ∈ x.values ∧ p.2 ∈ operandValues y
  /-- Admitted pairs are kept. -/
  keeps : ∀ a ∈ x.values, ∀ b ∈ operandValues y, R a b → (a, b) ∈ kept
  /-- Other pairs are not. -/
  tight : P → ∀ p ∈ kept, R p.1 p.2
  /-- The first operands. -/
  firsts : ∀ e, e ∈ xs ↔ ∃ p ∈ kept, e = .wordConstant w p.1
  /-- The second operands. -/
  seconds : ∀ e, e ∈ ys ↔ ∃ p ∈ kept, operandConstant arg p.2 = some e

/-- What is left of the operands after a trial is a solution. -/
private theorem survivors_solves {R : ℤ → ℤ → Prop} {kept : List (ℤ × ℤ)} {xs ys : List Element}
    (hx : x.IsWord limit w) (hy : IsOperand limit arg y) (h : Tried w arg R P x y kept xs ys) :
    ∃ f, survivors limit x y xs ys = .ok f ∧ f.Solves limit w arg R P x y := by
  obtain ⟨hkept, hkeeps, htight, hxs, hys⟩ := h
  by_cases hne : kept = []
  · subst hne
    have hnil : xs = [] :=
      List.eq_nil_iff_forall_not_mem.mpr fun e he => by simpa using (hxs e).mp he
    subst hnil
    refine ⟨.dead, rfl, Finding.solves_of_none rfl hx (by cases y <;> exact hy) ?_⟩
    intro a ha b hb hR
    simpa using hkeeps a ha b hb hR
  obtain ⟨j, exact, c, hj, hc, hword, hbelow, hmem, hexact⟩ :=
    join_cut Prod.fst hx hxs (fun p hp => (hkept p hp).1) hne
  have hfirst : P → exact = true → ∀ a ∈ (c.getD x).values,
      a ∈ x.values ∧ ∃ b ∈ operandValues y, R a b := fun hP he a ha => by
    obtain ⟨p, hp, rfl⟩ := hexact he a ha
    exact ⟨(hkept p hp).1, p.2, (hkept p hp).2, htight hP p hp⟩
  rw [survivors, hj]
  dsimp only [bind, Except.bind]
  rw [hc]
  cases arg with
  | none =>
    cases y with
    | some y => exact hy.elim
    | none =>
      have hnil : ys = [] := List.eq_nil_iff_forall_not_mem.mpr fun e he => by
        simpa [operandConstant] using (hys e).mp he
      subst hnil
      refine ⟨_, rfl, hword, trivial, fun _ => ⟨hbelow, nofun⟩,
        fun a ha b hb hR => ⟨by simp, ?_, hb⟩, fun hP he => ⟨?_, ?_⟩⟩
      · exact hmem _ (hkeeps a ha b hb hR)
      · exact hfirst hP (Option.some.inj he)
      · intro b hb
        obtain ⟨a, ha⟩ := hword.nonempty
        obtain ⟨hax, b', hb', hR⟩ := hfirst hP (Option.some.inj he) a ha
        cases hb
        cases hb'
        exact ⟨rfl, a, hax, hR⟩
  | some u =>
    cases y with
    | none => exact hy.elim
    | some o =>
      obtain ⟨j', exact', c', hj', hc', hword', hbelow', hmem', hexact'⟩ :=
        join_cut Prod.snd hy (by simpa [operandConstant, eq_comm] using hys)
          (fun p hp => (hkept p hp).2) hne
      rw [hj']
      dsimp only
      rw [hc']
      refine ⟨_, rfl, hword, hword', fun _ => ⟨hbelow, fun q hq => ⟨o, rfl, hbelow' q hq⟩⟩,
        fun a ha b hb hR => ⟨by simp, ?_, ?_⟩, fun hP he => ?_⟩
      · exact hmem _ (hkeeps a ha b hb hR)
      · exact hmem' _ (hkeeps a ha b hb hR)
      · obtain ⟨he, he'⟩ := Bool.and_eq_true_iff.mp (Option.some.inj he)
        refine ⟨hfirst hP he, fun b hb => ?_⟩
        obtain ⟨p, hp, rfl⟩ := hexact' he' b hb
        exact ⟨(hkept p hp).2, p.1, (hkept p hp).1, htight hP p hp⟩

/-- The trial of the pairs of all values of the operands. -/
private theorem trial_returns {vs : List ℤ} {Q : Bool × Refinement → Prop} (us : List ℤ)
    (note : List Element → Event) (h : op.Accepts w arg out) (hz : z.IsWord limit out)
    (hx : x.IsWord limit w) (hy : IsOperand limit arg y) (hvs : ∀ v, v ∈ vs ↔ v ∈ x.values)
    (hus : ∀ b, b ∈ us ↔ b ∈ operandValues y)
    (hQ : ∀ kept xs ys,
      Tried w arg (op.Reaches r.eval.params.stops w.view (arg.getD w).view out.view z.values)
        (2 ≤ r.eval.budget) x y kept xs ys →
      ∃ f, survivors limit x y xs ys = .ok f ∧ Q (true, r.settle f)) :
    (do
      let (xs, ys) ← r.feasible limit op z
        ((vs.map (Element.wordConstant w)).flatMap fun x =>
          (us.map (operandConstant arg)).map fun y => (x, y)) ([], [])
      Traced.record (note xs)
      let finding ← (survivors limit x y xs ys : Except Fault Finding)
      return (true, r.settle finding) : Traced (Bool × Refinement)).Returns Q := by
  have hpairs : ((vs.map (Element.wordConstant w)).flatMap fun x =>
      (us.map (operandConstant arg)).map fun y => (x, y)) =
        (vs.flatMap fun a => us.map fun b => (a, b)).map fun p =>
          (Element.wordConstant w p.1, operandConstant arg p.2) := by
    simp [List.flatMap_map, List.map_flatMap, Function.comp_def]
  have htried : ∀ p, p ∈ (vs.flatMap fun a => us.map fun b => (a, b)) ↔
      p.1 ∈ x.values ∧ p.2 ∈ operandValues y := by
    rintro ⟨a, b⟩
    simp [hvs, hus]
  have hcontains : ∀ v ∈ x.values, w.view.contains v = true := fun v hv => by
    obtain ⟨s, rfl, hs⟩ := hx
    exact hs.proper.contains hv
  rw [hpairs]
  refine (feasible_spec h hz hy _ (fun p hp => ⟨hcontains _ ((htried p).mp hp).1,
    ((htried p).mp hp).2⟩) [] []).bind ?_
  rintro ⟨xs, ys⟩ ⟨kept, hsifts, hxs, hys⟩
  refine (Traced.returns_record _).bind fun _ _ => ?_
  obtain ⟨f, hf, hresult⟩ := hQ kept xs ys {
    values := fun p hp => (htried p).mp (hsifts.subset p hp)
    keeps := fun a ha b hb => hsifts.keeps (a, b) ((htried (a, b)).mpr ⟨ha, hb⟩)
    tight := hsifts.tight
    firsts := by simpa using hxs
    seconds := by simpa using hys }
  refine (Traced.returns_lift hf rfl).bind ?_
  rintro _ rfl
  exact Traced.returns_pure hresult

/-- The values of both operands can be listed. -/
def Listable (limit : ℕ) (x : Element) (y : Option Element) : Prop :=
  x.enumerate? limit ≠ none ∧ ∀ o ∈ y, o.enumerate? limit ≠ none

/-- A trial settles on what is left of the operands, or gives up when there are too many pairs. -/
theorem byTrial_returns {Q : Bool × Refinement → Prop} (h : op.Accepts w arg out)
    (hz : z.IsWord limit out) (hx : x.IsWord limit w) (hy : IsOperand limit arg y)
    (hoperands : r.operands c = (x, y))
    (hgiveUp : ¬Listable limit x y → Q (true, r.mapEval (·.conclude false)))
    (hQ : Listable limit x y → ∀ kept xs ys, Tried w arg (op.Reaches r.eval.params.stops w.view
      (arg.getD w).view out.view z.values) (2 ≤ r.eval.budget) x y kept xs ys →
        ∃ f, survivors limit x y xs ys = .ok f ∧ Q (true, r.settle f)) :
    (r.byTrial limit op z c).Returns Q := by
  rw [byTrial, hoperands]
  dsimp only
  cases hfirsts : x.enumerate? limit with
  | none => exact Traced.returns_pure (hgiveUp fun hl => hl.1 hfirsts)
  | some firsts =>
    obtain ⟨vs, rfl, hvs⟩ := Element.enumerate?_spec hx hfirsts
    cases arg with
    | none =>
      cases y with
      | some o => exact hy.elim
      | none =>
        exact trial_returns [0] (fun xs => .survivors xs.length _ op) h hz hx hy hvs
          (by simp [operandValues]) (hQ ⟨by simp [hfirsts], by simp⟩)
    | some u =>
      cases y with
      | none => exact hy.elim
      | some o =>
        dsimp only
        cases hseconds : o.enumerate? limit with
        | none => exact Traced.returns_pure (hgiveUp fun hl => hl.2 o rfl hseconds)
        | some seconds =>
          obtain ⟨us, rfl, hus⟩ := Element.enumerate?_spec hy hseconds
          have hmap : (us.map (Element.wordConstant u)).map some =
              us.map (operandConstant (some u)) := by
            rw [List.map_map]
            rfl
          dsimp only [Option.map_some]
          rw [hmap]
          exact trial_returns us (fun xs => .survivors xs.length _ op) h hz hx hy hvs hus
            (hQ ⟨by simp [hfirsts], by simp [hseconds]⟩)

/-- A trial finds a solution of the pairs that reach the result, or gives up when there are too many
of them; levels of nesting that are left make it exact. -/
theorem byTrial_solves (h : op.Accepts w arg out) (hz : z.IsWord limit out)
    (hx : x.IsWord limit w) (hy : IsOperand limit arg y) (hr : r.Fresh)
    (hoperands : r.operands c = (x, y)) :
    (r.byTrial limit op z c).Returns (Solved limit w arg
      (op.Reaches r.eval.params.stops w.view (arg.getD w).view out.view z.values)
      (2 ≤ r.eval.budget) .first x y) := by
  refine byTrial_returns h hz hx hy hoperands (fun _ => solved_conclude hr (by simp) hx hy)
    fun _ kept xs ys htried => ?_
  obtain ⟨f, hf, hsolves⟩ := survivors_solves hx hy htried
  refine ⟨f, hf, rfl, ?_, verdict_settle r f⟩
  change ((r.settle f).found .first).Solves _ _ _ _ _ _ _
  rw [found_settle hr]
  exact hsolves

end Refinement

/-! ### Truth tables -/

/-- The bit of a truth value. -/
def bitOf (b : Bool) : ℤ :=
  if b then 1 else 0

private theorem bitOf_injective : Function.Injective bitOf := by
  decide

namespace Element

/-- The values of a bit are bits of truth values. -/
private theorem exists_bitOf {v : ℤ} (hx : x.IsWord limit .bit) (hv : v ∈ x.values) :
    ∃ b, v = bitOf b := by
  obtain ⟨s, rfl, hs⟩ := hx
  rcases WordType.contains_view_bit.mp (hs.proper.contains hv) with rfl | rfl
  exacts [⟨false, rfl⟩, ⟨true, rfl⟩]

/-- A well-formed bit is known, or it is a top. -/
theorem bit_cases (hx : x.IsWord limit .bit) :
    (∃ b, x = .word .bit (.constant (bitOf b))) ∨ x = .word .bit .top := by
  obtain ⟨s, rfl, hs⟩ := hx
  cases s with
  | constant c =>
    obtain ⟨b, rfl⟩ := exists_bitOf (isWord_word hs) (Shape.contains_constant.mpr rfl)
    exact .inl ⟨b, rfl⟩
  | interval r => exact absurd rfl hs.proper.1
  | disjunction vs => exact absurd rfl hs.proper.1
  | top => exact .inr rfl

private theorem mem_values_constant {a b : Bool} :
    bitOf a ∈ (word .bit (.constant (bitOf b))).values ↔ a = b := by
  rw [mem_values_word, Shape.contains_constant, bitOf_injective.eq_iff]

private theorem mem_values_top (b : Bool) : bitOf b ∈ (word .bit .top).values := by
  rw [mem_values_word, Shape.contains_top, WordType.contains_view_bit]
  cases b <;> decide

/-- The truth values of a bit are listed. -/
private theorem bitValues?_spec (hx : x.IsWord limit .bit) :
    ∃ bs, x.bitValues? = some bs ∧ ∀ b, b ∈ bs ↔ bitOf b ∈ x.values := by
  rcases bit_cases hx with ⟨b, rfl⟩ | rfl
  · refine ⟨[b], by cases b <;> rfl, fun a => ?_⟩
    rw [mem_values_constant, List.mem_singleton]
  · exact ⟨[false, true], rfl, fun b => iff_of_true (by cases b <;> simp) (mem_values_top b)⟩

/-- A bit pinned to some of its values has those and no others. -/
private theorem pinned?_spec {bs : List Bool} (hx : x.IsWord limit .bit) (hne : bs ≠ [])
    (hbs : ∀ b ∈ bs, bitOf b ∈ x.values) :
    ((x.pinned? bs).getD x).IsWord limit .bit ∧ (∀ q ∈ x.pinned? bs, q.Below x) ∧
      ∀ b, bitOf b ∈ ((x.pinned? bs).getD x).values ↔ b ∈ bs := by
  obtain ⟨c, rest, rfl⟩ := List.exists_cons_of_ne_nil hne
  have hword := hx
  rcases bit_cases hx with ⟨b, rfl⟩ | rfl
  · -- a known bit has a single value, so all of the list is that
    refine ⟨hword, by simp [pinned?, isTop, precision, Shape.precision], fun a => ?_⟩
    have hall : ∀ a ∈ c :: rest, a = b := fun a ha => mem_values_constant.mp (hbs a ha)
    change bitOf a ∈ (word .bit (.constant (bitOf b))).values ↔ _
    rw [mem_values_constant]
    refine ⟨?_, hall a⟩
    rintro rfl
    rw [← hall c List.mem_cons_self]
    exact List.mem_cons_self
  · by_cases hall : rest.all (· == c) = true
    · have hpin : (word .bit .top).pinned? (c :: rest) =
          some (.word .bit (.constant (bitOf c))) := by
        simp only [pinned?, isTop, precision, Shape.precision, beq_self_eq_true, hall,
          Bool.and_self, if_true]
        rfl
      rw [hpin]
      refine ⟨isWord_word (Shape.wellFormed_constant ?_), ?_, fun a => ?_⟩
      · exact WordType.contains_view_bit.mpr (by cases c <;> decide)
      · rintro _ ⟨⟩
        exact constant_below (mem_values_top c)
      · rw [Option.getD_some, mem_values_constant, List.mem_cons, iff_self_or]
        intro ha
        simpa using List.all_eq_true.mp hall a ha
    · have hpin : (word .bit .top).pinned? (c :: rest) = none := by
        simp only [pinned?, hall, Bool.and_false, Bool.false_eq_true, if_false]
      rw [hpin]
      refine ⟨hword, by rintro _ ⟨⟩, fun a => iff_of_true (mem_values_top a) ?_⟩
      -- two different values are all there are
      obtain ⟨d, hd, hne⟩ : ∃ d ∈ rest, d ≠ c := by
        simpa only [List.all_eq_true, beq_iff_eq, not_forall, exists_prop] using hall
      rcases Bool.eq_or_eq_not a c with rfl | ha
      · exact List.mem_cons_self
      · rw [ha, ← Bool.eq_not_of_ne hne]
        exact List.mem_cons_of_mem _ hd

end Element

namespace Refinement

/-- What a truth table of two bits settles on does not depend on the refinement. -/
theorem byTable_settles {o : Element} (op : Operation) (outcome : Bool → Bool → Bool) (z : Element)
    (hx : x.IsWord limit .bit) (ho : o.IsWord limit .bit) :
    ∃ f, ∀ (r : Refinement) c, r.operands c = (x, some o) →
      r.byTable limit op outcome z c = pure (true, r.settle f) := by
  obtain ⟨xs, hxs, -⟩ := Element.bitValues?_spec hx
  obtain ⟨ys, hys, -⟩ := Element.bitValues?_spec ho
  cases hknown : z.knownBit? with
  | none =>
    refine ⟨.keep true, fun r c hoperands => ?_⟩
    simp only [byTable, hknown]
    rfl
  | some wanted =>
    let pairs := (xs.flatMap fun x => ys.map fun y => (x, y)).filter fun pair =>
      outcome pair.1 pair.2 == wanted
    refine ⟨if pairs.isEmpty then .dead else
      { first := x.pinned? (pairs.map (·.1))
        second := o.pinned? (pairs.map (·.2))
        exactness := some true }, fun r c hoperands => ?_⟩
    simp only [byTable, hoperands, hknown, hxs, Option.bind_some, hys, pairs]

/-- A truth table finds a solution for two bits, and it is exact. -/
theorem byTable_solves {R : ℤ → ℤ → Prop} {outcome : Bool → Bool → Bool} {o : Element}
    (hx : x.IsWord limit .bit) (ho : o.IsWord limit .bit) (hz : z.IsWord limit .bit) (hr : r.Fresh)
    (hoperands : r.operands c = (x, some o))
    (hR : ∀ a b, R (bitOf a) (bitOf b) ↔ bitOf (outcome a b) ∈ z.values) :
    (r.byTable limit op outcome z c).Returns
      (Solved limit .bit (some .bit) R P .first x (some o)) := by
  obtain ⟨xs, hxs, hxv⟩ := Element.bitValues?_spec hx
  obtain ⟨ys, hys, hyv⟩ := Element.bitValues?_spec ho
  rw [byTable, hoperands]
  dsimp only
  rcases Element.bit_cases hz with ⟨wanted, rfl⟩ | rfl
  · have hknown : (Element.word .bit (.constant (bitOf wanted))).knownBit? = some wanted := by
      cases wanted <;> rfl
    simp only [hknown, hxs, Option.bind_some, hys]
    generalize hpairs : ((xs.flatMap fun x => ys.map fun y => (x, y)).filter fun pair =>
      outcome pair.1 pair.2 == wanted) = pairs
    have hmem : ∀ a b, (a, b) ∈ pairs ↔
        (bitOf a ∈ x.values ∧ bitOf b ∈ o.values) ∧ R (bitOf a) (bitOf b) := fun a b => by
      rw [← hpairs, hR, Element.mem_values_constant, ← hxv, ← hyv]
      simp
    refine Traced.returns_pure ⟨rfl, ?_, verdict_settle r _⟩
    change ((r.settle _).found .first).Solves _ _ _ _ _ _ _
    rw [found_settle hr]
    by_cases hempty : pairs = []
    · subst hempty
      refine Finding.solves_of_none rfl hx ho fun a ha b hb hab => ?_
      obtain ⟨a, rfl⟩ := Element.exists_bitOf hx ha
      obtain ⟨b, rfl⟩ := Element.exists_bitOf ho hb
      simpa using (hmem a b).mpr ⟨⟨ha, hb⟩, hab⟩
    · have hlefts : ∀ a ∈ pairs.map (·.1), bitOf a ∈ x.values := fun a ha => by
        obtain ⟨⟨_, b⟩, hp, rfl⟩ := List.mem_map.mp ha
        exact ((hmem _ b).mp hp).1.1
      have hrights : ∀ b ∈ pairs.map (·.2), bitOf b ∈ o.values := fun b hb => by
        obtain ⟨⟨a, _⟩, hp, rfl⟩ := List.mem_map.mp hb
        exact ((hmem a _).mp hp).1.2
      obtain ⟨hword, hbelow, hleft⟩ := Element.pinned?_spec hx (by simpa using hempty) hlefts
      obtain ⟨hword', hbelow', hright⟩ := Element.pinned?_spec ho (by simpa using hempty) hrights
      rw [if_neg (by simpa using hempty)]
      refine ⟨hword, hword', fun _ => ⟨hbelow, fun q hq => ⟨o, rfl, hbelow' q hq⟩⟩,
        fun a ha b hb hab => ?_, fun _ _ => ⟨fun a ha => ?_, fun b hb => ?_⟩⟩
      · obtain ⟨a, rfl⟩ := Element.exists_bitOf hx ha
        obtain ⟨b, rfl⟩ := Element.exists_bitOf ho hb
        have hp := (hmem a b).mpr ⟨⟨ha, hb⟩, hab⟩
        exact ⟨by simp, (hleft a).mpr (List.mem_map_of_mem hp),
          (hright b).mpr (List.mem_map_of_mem (f := Prod.snd) hp)⟩
      · obtain ⟨a, rfl⟩ := Element.exists_bitOf hword ha
        obtain ⟨⟨_, b⟩, hp, rfl⟩ := List.mem_map.mp ((hleft a).mp ha)
        obtain ⟨⟨h1, h2⟩, hab⟩ := (hmem _ b).mp hp
        exact ⟨h1, _, h2, hab⟩
      · obtain ⟨b, rfl⟩ := Element.exists_bitOf hword' hb
        obtain ⟨⟨a, _⟩, hp, rfl⟩ := List.mem_map.mp ((hright b).mp hb)
        obtain ⟨⟨h1, h2⟩, hab⟩ := (hmem a _).mp hp
        exact ⟨h2, _, h1, hab⟩
  · -- any outcome will do
    have hany : ∀ a ∈ x.values, ∀ b ∈ o.values, R a b := fun a ha b hb => by
      obtain ⟨a, rfl⟩ := Element.exists_bitOf hx ha
      obtain ⟨b, rfl⟩ := Element.exists_bitOf ho hb
      exact (hR a b).mpr (Element.mem_values_top _)
    obtain ⟨a, ha⟩ := hx.nonempty
    obtain ⟨b, hb⟩ := ho.nonempty
    exact Traced.returns_pure (solved_keep hr (by simp) hx ho fun _ _ =>
      ⟨fun a ha => ⟨b, hb, hany a ha b hb⟩, fun b hb => ⟨a, ha, hany a ha b hb⟩⟩)

end Refinement

namespace Element

open Refinement

/-! ### Bits in charge -/

/-- A bit in charge reads off a truth table or tries all pairs. The operands are `x` and `y`, and
one of them is the bit. -/
theorem byKind_bit_solves (refiner : Refiner) (h : op.Accepts w arg out)
    (hz : z.IsWord limit out) (hc : c.IsWord limit .bit) (hx : x.IsWord limit w)
    (hy : IsOperand limit arg y) (hbit : w = .bit ∨ arg = some .bit) (hr : r.Fresh)
    (hoperands : r.operands c = (x, y)) :
    (byKind limit op z refiner c r).Returns (Solved limit w arg
      (op.Reaches r.eval.params.stops w.view (arg.getD w).view out.view z.values)
      (2 ≤ r.eval.budget) .first x y) := by
  have htrial := byTrial_solves h hz hx hy hr hoperands
  rcases bit_cases hc with ⟨b, rfl⟩ | rfl
  · have hfits := h.fits
    have htable : ∀ outcome, op.onBits? = some outcome → arg = some w → out = .bit →
        (∀ a b, op.Reaches r.eval.params.stops (WordType.bit).view (WordType.bit).view
          (WordType.bit).view z.values (bitOf a) (bitOf b) ↔ bitOf (outcome a b) ∈ z.values) →
        (byKind limit op z refiner (.word .bit (.constant (bitOf b))) r).Returns
          (Solved limit w arg (op.Reaches r.eval.params.stops w.view (arg.getD w).view out.view
            z.values) (2 ≤ r.eval.budget) .first x y) := by
      rintro outcome hbits rfl rfl hR
      obtain rfl : w = .bit := by simpa using hbit
      cases y with
      | none => exact hy.elim
      | some o =>
        simp only [byKind, hbits]
        exact byTable_solves hx hy hz hr hoperands hR
    cases op with
    | compare c =>
      refine htable _ rfl hfits.1 hfits.2 fun a b => ?_
      simp [Operation.Reaches, Operation.execute, bitOf]
    | connective c =>
      refine htable _ rfl hfits.1 hfits.2 fun a b => ?_
      cases a <;> cases b <;> simp [Operation.Reaches, Operation.execute, bitOf]
    | _ => exact htrial
  · exact htrial

/-- Refinement by a bit finds a solution of the pairs that reach the result; levels of nesting that
are left make it exact. -/
theorem constrainWithin_bit_solves (h : op.Accepts w arg out) (hz : z.IsWord limit out)
    (hc : c.IsWord limit .bit) (hx : x.IsWord limit w) (hy : IsOperand limit arg y)
    (hbit : w = .bit ∨ arg = some .bit) (hr : r.Fresh) (hoperands : r.operands c = (x, y)) (n : ℕ) :
    (constrainWithin limit op z n c r).Returns (Solved limit w arg
      (op.Reaches r.eval.params.stops w.view (arg.getD w).view out.view z.values)
      (2 ≤ r.eval.budget) .first x y) := by
  rcases n with _ | n
  · rw [constrainWithin]
    exact Traced.returns_session ((Traced.returns_record _).bind fun _ _ =>
      Traced.returns_pure (solved_conclude hr (by simp) hx hy))
  have hthrough : c.throughInterval? = none := by
    rcases bit_cases hc with ⟨b, rfl⟩ | rfl <;> rfl
  obtain ⟨deeper, deepest, he, -⟩ := attempt_cases limit op z n
  rw [constrainWithin, he, enter]
  simp only [hthrough]
  refine Traced.returns_session ?_
  rw [attemptWith]
  refine (byKind_bit_solves _ h hz hc hx hy hbit hr hoperands).bind ?_
  rintro ⟨handled, r'⟩ hsolved
  cases hsolved.handled
  exact Traced.returns_pure hsolved

end Element

end ScalarDomain
