import ScalarDomain.Proofs.Forward.Evaluation

/-!
# Forward transfers report their results

`Element.applyWithin` returns, and the evaluation reports the results of all executions on the
values of the operands (`Element.applyWithin_reports`). The proof follows the recursion on the
nesting that is left: an interval is one transfer step, lists of values are runs over constants,
two constants are executed, and every other kind is handed over to an interval. With no nesting
left the result is a top.

An exact verdict can be trusted unless the second operand is a list with a gap in the wrong place
(`Operation.Trusted`).
-/

namespace ScalarDomain

variable {limit : ℕ} {op : Operation} {w out : WordType} {arg : Option WordType}
  {s : Shape} {x : Element} {y : Option Element} {P : Prop} {S : Set ℤ} {e : Evaluation}

/-! ### Constants and second operands -/

namespace Element

theorem wordConstant_eq {v : ℤ} (h : w.view.contains v = true) :
    wordConstant w v = .word w (.constant v) := by
  cases w with
  | int t => simp [wordConstant, WordType.rangeShape, Bounds.point]
  | bit => rcases WordType.contains_view_bit.mp h with rfl | rfl <;> rfl

theorem isWord_wordConstant {v : ℤ} (h : w.view.contains v = true) :
    (wordConstant w v).IsWord limit w :=
  wordConstant_eq h ▸ isWord_word (Shape.wellFormed_constant h)

/-- The listed values of a word are its values. -/
theorem mem_intValues? {vs : List ℤ} {v : ℤ} (h : (word w s).intValues? = some vs) :
    v ∈ vs ↔ s.contains w.view v = true := by
  cases s with
  | constant c =>
    cases w <;> cases h <;> simp
  | interval r => cases w <;> cases h
  | disjunction us =>
    cases w <;> cases h <;> simp
  | top =>
    cases w with
    | bit =>
      cases h
      rw [Shape.contains_top, WordType.contains_view_bit]
      simp
    | int t => cases h

/-- Values that are not listed are all between two ends. -/
theorem precision_of_intValues? (h : (word w s).intValues? = none) :
    s.precision ≠ .disjunction := by
  intro hd
  cases s with
  | disjunction us => cases w <;> cases h
  | _ => cases hd

/-- The interval of all values stands for the same values as a top. -/
theorem values_fullInterval (t : IntType) :
    (fullInterval t).values = (word (.int t) .top).values := by
  ext v
  rw [fullInterval, mem_values_word, mem_values_word, Shape.contains_top, Shape.contains_interval,
    Bounds.mem_full]
  rfl

/-- The type of an accepted operation is found. -/
theorem resultType_eq_ok (h : op.Accepts w arg out) (hy : IsOperand limit arg y) :
    resultType op (.word w s) y = .ok (.word out) := by
  have hview : (ScalarType.word w).view? = some w.view := by cases w <;> rfl
  have hmap : y.map type = arg.map ScalarType.word ∧ (y.isNone = true ↔ arg.isNone = true) := by
    cases arg with
    | none => simp [hy.eq_none]
    | some u =>
      obtain ⟨t, rfl, -⟩ := hy.exists_word
      simp [type]
  have harity : ¬(op.arity = 1 ∧ y.isNone = true) := by
    rintro ⟨h1, h2⟩
    have := h.operands.mpr h1
    rw [hmap.2] at h2
    cases arg <;> simp_all
  have hchecked : op.checkedResultType (.word w) (arg.map .word) =
      .ok (op.resultType (.word w) (arg.map .word)) := by
    cases op with
    | extend fill bits =>
      obtain ⟨-, -, t, -, hwidth, -⟩ := h.fits
      have hmax := t.width_le_max
      simp only [Operation.checkedResultType, hview]
      exact if_pos (by
        rw [← hwidth, bitCountLimit, twoPow_eq]
        exact lt_of_le_of_lt hmax (by norm_num [maxIntWidth]))
    | _ => rfl
  have htype : (word w s).type = .word w := rfl
  simp only [resultType, if_neg harity, hmap.1, htype, hchecked, h.typed]

end Element

theorem IsOperand.contains {u : WordType} {b : ℤ} (hy : IsOperand limit arg y)
    (hb : b ∈ operandValues y) (hu : arg = some u) : u.view.contains b = true := by
  subst hu
  obtain ⟨t, rfl, ht⟩ := hy.exists_word
  exact ht.proper.contains hb

namespace Element

/-! ### One level of nesting -/

/-- The transfer is supported, and the evaluation reports a set. -/
def Answers (limit : ℕ) (out : WordType) (S : Set ℤ) (P : Prop) (r : Bool × Evaluation) : Prop :=
  r.1 = true ∧ r.2.Reports limit out S P

/-- The mark of an unstable result changes nothing that a report looks at. -/
private theorem reports_withUnstable (h : e.Reports limit out S P) :
    e.withUnstable.Reports limit out S P :=
  h.congr rfl rfl rfl

/-- With nesting left, an element is transferred by its plan or by a coarser shape. -/
theorem applyWithin_succ {budget : ℕ} {Q : Evaluation → Prop}
    (hres : resultType op x e.argument = .ok (.word out)) (hQ : ∀ e, Q e → Q e.withUnstable)
    (h : (e.runPlan limit (applyWithin limit op budget) op x
        (Plan.of limit e.params.stops op (.word out) x e.argument)).Returns
          (fun r => r.1 = true ∧ Q r.2) ∨
      Plan.of limit e.params.stops op (.word out) x e.argument = .declined ∧
        (e.runPromoted limit (applyWithin limit op budget) op x).Returns
          fun r => r.1 = true ∧ Q r.2) :
    (applyWithin limit op (budget + 1) x e).Returns fun r => r.1 = true ∧ Q r.2 := by
  rw [applyWithin]
  refine (Traced.returns_lift hres rfl).bind ?_
  rintro _ rfl
  refine Traced.returns_session ?_
  rcases h with h | ⟨hd, h⟩
  · refine h.bind ?_
    rintro ⟨planned, e'⟩ ⟨rfl, he'⟩
    exact Evaluation.returns_concluded (r := (true, e')) hQ ⟨rfl, he'⟩
  · rw [hd]
    refine (Traced.returns_pure (P := fun r => r = (false, e)) rfl).bind ?_
    rintro _ rfl
    exact h.bind fun _ hr => Evaluation.returns_concluded hQ hr

/-- Without nesting left the result is a top. -/
private theorem applyWithin_zero (hres : resultType op x e.argument = .ok (.word out))
    (he : e.Fresh) (hS : ∀ v ∈ S, out.view.contains v = true) :
    (applyWithin limit op 0 x e).Returns (Answers limit out S P) := by
  rw [applyWithin]
  refine (Traced.returns_lift hres rfl).bind ?_
  rintro _ rfl
  refine Traced.returns_session ((Traced.returns_record _).bind fun _ _ => ?_)
  refine Traced.returns_pure ⟨rfl, Evaluation.reports_withResult ?_ ?_ ?_ he.empty⟩
  · exact isWord_word Shape.wellFormed_top
  · exact fun v hv => Shape.contains_top.mpr (hS v hv)
  · exact fun _ h => absurd h Bool.false_ne_true

/-- A plan of one step. -/
private theorem runPlan_step {transfer : Transfer} {step : Step} (he : e.Fresh)
    (hcov : step.delivery.Covers out S) (htight : P → step.delivery.IsTight S) :
    (e.runPlan limit transfer op x (.step step)).Returns (Answers limit out S P) :=
  (Evaluation.perform_reports he hcov htight).bind fun _ h => Traced.returns_pure ⟨rfl, h⟩

/-- A coarser shape of the same values takes over. -/
private theorem runPromoted_answers {transfer : Transfer} {promoted : Element} (he : e.Fresh)
    (hp : x.promote? = some promoted)
    (h : Evaluation.ReportsOn limit out e.params transfer (promoted, e.argument) S P) :
    (e.runPromoted limit transfer op x).Returns (Answers limit out S P) := by
  rw [Evaluation.runPromoted, hp]
  refine (Traced.returns_record _).bind fun _ _ => ?_
  refine (he.joins.nested rfl h).bind ?_
  rintro ⟨handled, e'⟩ ⟨rfl, hj, -⟩
  rw [Set.empty_union] at hj
  exact Traced.returns_pure ⟨rfl, hj.sealJoin⟩

/-- A run over pairs of operands that each report their results. -/
private theorem runAll_answers (op : Operation) (stops : Bool) (t u : IntType)
    {transfer : Transfer} {cases : List (Element × Option Element)} (he : e.Fresh)
    (hcases : ∀ c ∈ cases, Evaluation.ReportsOn limit out e.params transfer c
      (op.results stops t u out.view c.1.values (operandValues c.2)) P)
    (hS : ∀ v, v ∈ S ↔ ∃ c ∈ cases,
      v ∈ op.results stops t u out.view c.1.values (operandValues c.2)) :
    (Evaluation.runAll limit transfer cases e).Returns (Answers limit out S P) := by
  refine (he.joins.runAll cases rfl hcases).mono fun r hr => ⟨hr.1, ?_⟩
  have hset : S = ∅ ∪ {v | ∃ c ∈ cases,
      v ∈ op.results stops t u out.view c.1.values (operandValues c.2)} := by
    ext v
    simpa using hS v
  exact hset ▸ hr.2

/-- A property of some value of a word, with the values one by one. -/
private theorem exists_value_iff {vs : List ℤ} {R : ℤ → Prop}
    (hvs : ∀ v, v ∈ vs ↔ s.contains w.view v = true) (hmem : ∀ v ∈ vs, w.view.contains v = true) :
    (∃ a ∈ (word w s).values, R a) ↔
      ∃ x ∈ vs.map (wordConstant w), ∃ a ∈ x.values, R a := by
  constructor
  · rintro ⟨a, ha, hR⟩
    have hav := (hvs a).mpr ha
    refine ⟨_, List.mem_map_of_mem hav, a, ?_, hR⟩
    rw [wordConstant_eq (hmem a hav), mem_values_word, Shape.contains_constant]
  · rintro ⟨x, hx, a, ha, hR⟩
    obtain ⟨v, hv, rfl⟩ := List.mem_map.mp hx
    rw [wordConstant_eq (hmem v hv), mem_values_word, Shape.contains_constant] at ha
    subst ha
    exact ⟨a, (hvs a).mp hv, hR⟩

/-- A property of some pair of values, with the values of the first operand one by one. -/
theorem exists_member_iff {vs : List ℤ} {R : ℤ → ℤ → Prop}
    (hvs : ∀ v, v ∈ vs ↔ s.contains w.view v = true) (hmem : ∀ v ∈ vs, w.view.contains v = true) :
    (∃ a ∈ (word w s).values, ∃ b ∈ operandValues y, R a b) ↔
      ∃ c ∈ (vs.map (wordConstant w)).map fun x => (x, y),
        ∃ a ∈ c.1.values, ∃ b ∈ operandValues c.2, R a b := by
  rw [exists_value_iff hvs hmem]
  simp only [List.mem_map, exists_exists_and_eq_and]

/-- A property of some pair of values, with the values of the second operand one by one. -/
theorem exists_argument_iff {vs : List ℤ} {R : ℤ → ℤ → Prop}
    (hvs : ∀ v, v ∈ vs ↔ s.contains w.view v = true) (hmem : ∀ v ∈ vs, w.view.contains v = true) :
    (∃ a ∈ x.values, ∃ b ∈ operandValues (some (word w s)), R a b) ↔
      ∃ c ∈ (vs.map (wordConstant w)).map fun y => (x, some y),
        ∃ a ∈ c.1.values, ∃ b ∈ operandValues c.2, R a b := by
  have hswap (V : Set ℤ) : (∃ a ∈ x.values, ∃ b ∈ V, R a b) ↔ ∃ b ∈ V, ∃ a ∈ x.values, R a b :=
    ⟨fun ⟨a, ha, b, hb, hR⟩ => ⟨b, hb, a, ha, hR⟩, fun ⟨b, hb, a, ha, hR⟩ => ⟨a, ha, b, hb, hR⟩⟩
  rw [hswap, operandValues, exists_value_iff hvs hmem]
  simp only [List.mem_map, exists_exists_and_eq_and, hswap, operandValues]

/-- A plan over the values of the first operand. -/
private theorem runPlan_members {transfer : Transfer} {u : IntType} {stops : Bool} {vs : List ℤ}
    (he : e.Fresh) (hvs : ∀ v, v ∈ vs ↔ s.contains w.view v = true)
    (hmem : ∀ v ∈ vs, w.view.contains v = true)
    (hcases : ∀ v ∈ vs, Evaluation.ReportsOn limit out e.params transfer
      (.word w (.constant v), e.argument)
      (op.results stops w.view u out.view (word w (.constant v)).values (operandValues e.argument))
      P) :
    (e.runPlan limit transfer op x (.members (vs.map (wordConstant w)))).Returns
      (Answers limit out
        (op.results stops w.view u out.view (word w s).values (operandValues e.argument)) P) := by
  refine runAll_answers op stops w.view u he ?_ fun n => exists_member_iff hvs hmem
  intro c hc
  obtain ⟨y, hy, rfl⟩ := List.mem_map.mp hc
  obtain ⟨v, hv, rfl⟩ := List.mem_map.mp hy
  rw [wordConstant_eq (hmem v hv)]
  exact hcases v hv

/-- A plan over the values of the second operand. -/
private theorem runPlan_arguments {transfer : Transfer} {t : IntType} {stops noted : Bool}
    {u : WordType} {vs : List ℤ} (he : e.Fresh) (hvs : ∀ v, v ∈ vs ↔ s.contains u.view v = true)
    (hmem : ∀ v ∈ vs, u.view.contains v = true)
    (hcases : ∀ v ∈ vs, Evaluation.ReportsOn limit out e.params transfer
      (x, some (.word u (.constant v)))
      (op.results stops t u.view out.view x.values (operandValues (some (word u (.constant v)))))
      P) :
    (e.runPlan limit transfer op x (.arguments (vs.map (wordConstant u)) noted)).Returns
      (Answers limit out
        (op.results stops t u.view out.view x.values (operandValues (some (word u s)))) P) := by
  have hrun : (Evaluation.runAll limit transfer
      ((vs.map (wordConstant u)).map fun y => (x, some y)) e).Returns (Answers limit out
        (op.results stops t u.view out.view x.values (operandValues (some (word u s)))) P) := by
    refine runAll_answers op stops t u.view he ?_ fun n => exists_argument_iff hvs hmem
    intro c hc
    obtain ⟨y, hy, rfl⟩ := List.mem_map.mp hc
    obtain ⟨v, hv, rfl⟩ := List.mem_map.mp hy
    rw [wordConstant_eq (hmem v hv)]
    exact hcases v hv
  cases noted with
  | false => exact hrun
  | true => exact (Traced.returns_record _).bind fun _ _ => hrun

/-! ### Where exact verdicts can be trusted -/

end Element

/-- A shift of one-bit integers to the right, errors ending the execution, by listed amounts on both
sides of zero but not by zero itself: no amount is valid, and the ends of the list hide it. -/
def Operation.ShiftsAcrossGap (stops : Bool) (op : Operation) (x : Element)
    (y : Option Element) : Prop :=
  stops = true ∧ op = .shift .right ∧
    (∃ t s, x = .word (.int t) s ∧ t.width = 1 ∧
      (s.precision = .interval ∨ s.precision = .top)) ∧
    ∃ u vs, y = some (.word u (.disjunction vs)) ∧ (∃ b ∈ vs, b < 0) ∧ (∃ b ∈ vs, 0 < b) ∧ 0 ∉ vs

/-- An exact verdict on these operands can be trusted. An interval of one value only arises from a
constant, and never meets a list. -/
structure Operation.Trusted (stops : Bool) (op : Operation) (x : Element)
    (y : Option Element) : Prop where
  /-- No shift across a gap. -/
  shift : ¬op.ShiftsAcrossGap stops x y
  /-- An interval of one value is not concatenated with a list. -/
  concat : op = .concat → ∀ w r, x = .word w (.interval r) → r.lo = r.hi →
    ∀ u vs, y ≠ some (.word u (.disjunction vs))

namespace Operation

variable {stops : Bool}

theorem trusted_constant {v : ℤ} : op.Trusted stops (.word w (.constant v)) y where
  shift := by
    rintro ⟨-, -, ⟨t, s, hx, -, hs⟩, -⟩
    cases hx
    simp [Shape.precision] at hs
  concat _ _ _ hx := by cases hx

/-- Only a list can spoil a verdict. -/
theorem trusted_of_convex (h : ∀ u vs, y ≠ some (.word u (.disjunction vs))) :
    op.Trusted stops x y where
  shift := fun ⟨_, _, _, u, vs, hy, _⟩ => h u vs hy
  concat _ _ _ _ _ := h

/-- A top is handed over to the interval of all values. -/
theorem Trusted.fullInterval {t : IntType} (h : op.Trusted stops (.word (.int t) .top) y) :
    op.Trusted stops (Element.fullInterval t) y where
  shift := by
    rintro ⟨h1, h2, ⟨t', s, hx, hw, -⟩, h3⟩
    cases hx
    exact h.shift ⟨h1, h2, ⟨t, .top, rfl, hw, .inr rfl⟩, h3⟩
  concat _ w r hx hr := by
    cases hx
    exact absurd hr t.minValue_lt_maxValue.ne

/-- The operand seen by the transfer of a range. -/
theorem represents_operand (hy : IsOperand limit arg y) :
    WordOperand.Represents arg (y.bind Element.operand?) (operandValues y) := by
  cases arg with
  | none =>
    rw [hy.eq_none]
    rfl
  | some u =>
    obtain ⟨t, rfl, ht⟩ := hy.exists_word
    obtain ⟨o, ho, ha⟩ := Element.abstracts_operand? ht.proper
    rw [Option.bind_some, ho]
    exact ha

/-- On trusted operands the gaps of the second operand do not matter. -/
theorem Trusted.gapless {t : IntType} {r : Range}
    (h : op.Trusted stops (.word (.int t) (.interval r)) y) (hy : IsOperand limit arg y) :
    Step.Gapless stops op (.int t) r (y.bind Element.operand?) (operandValues y) := by
  constructor
  · rintro rfl o ho hstops hwidth hlo hhi
    obtain ⟨y, rfl, hyo⟩ := Option.bind_eq_some_iff.mp ho
    cases arg with
    | none => exact hy.elim
    | some u =>
      obtain ⟨s, rfl, hs⟩ := hy
      cases hyo
      by_contra h0
      have h0 : ¬s.contains u.view 0 = true := h0
      refine h.shift ⟨hstops, rfl, ⟨t, _, rfl, hwidth, .inl rfl⟩, ?_⟩
      cases s with
      | disjunction vs =>
        have hlo' := Shape.contains_disjunction.mp hs.proper.contains_lo
        have hhi' := Shape.contains_disjunction.mp hs.proper.contains_hi
        exact ⟨u, vs, rfl, ⟨_, hlo', hlo⟩, ⟨_, hhi', hhi⟩,
          fun hz => h0 (Shape.contains_disjunction.mpr hz)⟩
      | _ =>
        refine absurd ((Shape.contains_iff_mem_bounds (by simp [Shape.precision])).mpr ?_) h0
        exact ⟨hlo.le, hhi.le⟩
  · rintro rfl o ho hr
    obtain ⟨y, rfl, hyo⟩ := Option.bind_eq_some_iff.mp ho
    cases y with
    | float f s => cases hyo
    | word u s =>
      cases hyo
      have := h.concat rfl _ r rfl hr u
      cases s <;> simp_all [Shape.precision]

end Operation

namespace Element

/-! ### The transfer of each kind -/

/-- A constant is folded with an absent or constant second operand, and otherwise the second operand
is a word that is no constant, whatever becomes of errors. -/
theorem fold?_uniform (op : Operation) (w out : WordType) (v : ℤ) (hy : IsOperand limit arg y) :
    (∃ b, operandValues y = {b} ∧ (∀ u, arg = some u → u.view.contains b = true) ∧
      ∀ stops, Plan.fold? stops op w (.word out) v y =
        some (.step (.foldWord stops op w (arg.getD w) (.word out) v b))) ∨
    ∃ u t, arg = some u ∧ y = some (.word u t) ∧ t.WellFormed limit u ∧
      ∀ stops, Plan.fold? stops op w (.word out) v y = none := by
  cases arg with
  | none =>
    obtain rfl := hy.eq_none
    exact .inl ⟨0, rfl, by simp, fun _ => rfl⟩
  | some u =>
    obtain ⟨t, rfl, ht⟩ := hy.exists_word
    cases t with
    | constant b =>
      refine .inl ⟨b, ?_, fun _ hu => ?_, fun _ => rfl⟩
      · ext a
        exact Shape.contains_constant
      · cases hu
        exact ht.proper
    | _ => exact .inr ⟨u, _, rfl, rfl, ht, fun _ => rfl⟩

theorem fold?_cases (op : Operation) (w out : WordType) (stops : Bool) (v : ℤ)
    (hy : IsOperand limit arg y) :
    (∃ b, operandValues y = {b} ∧ (∀ u, arg = some u → u.view.contains b = true) ∧
      Plan.fold? stops op w (.word out) v y =
        some (.step (.foldWord stops op w (arg.getD w) (.word out) v b))) ∨
    ∃ u t, arg = some u ∧ y = some (.word u t) ∧ t.WellFormed limit u ∧
      Plan.fold? stops op w (.word out) v y = none := by
  rcases fold?_uniform op w out v hy with ⟨b, hY, hb, hfold⟩ | ⟨u, t, hu, ht, hword, hfold⟩
  · exact .inl ⟨b, hY, hb, hfold stops⟩
  · exact .inr ⟨u, t, hu, ht, hword, hfold stops⟩

/-- The results of two constants. -/
private theorem results_constant (op : Operation) (w : WordType) (v : ℤ) {stops : Bool}
    {t u o : IntType} {b : ℤ} (hY : operandValues y = {b}) (ht : w.view = t) :
    op.results stops t u o (word w (.constant v)).values (operandValues y) =
      (op.execute stops t u o v b).values o := by
  subst ht
  ext n
  rw [hY]
  constructor
  · rintro ⟨a, ha, c, hc, hn⟩
    rw [mem_values_word, Shape.contains_constant] at ha
    cases ha
    cases hc
    exact hn
  · intro hn
    exact ⟨v, Shape.contains_constant.mpr rfl, b, rfl, hn⟩

/-- An interval is one transfer step. -/
private theorem interval_answers {transfer : Transfer} {r : Range} (h : op.Accepts w arg out)
    (he : e.Fresh) (hs : (Shape.interval r).Proper limit w) (hy : IsOperand limit arg e.argument) :
    (e.runPlan limit transfer op (.word w (.interval r))
      (Plan.of limit e.params.stops op (.word out) (.word w (.interval r)) e.argument)).Returns
      (Answers limit out (op.results e.params.stops w.view (arg.getD w).view out.view
        (word w (.interval r)).values (operandValues e.argument))
        (op.Trusted e.params.stops (.word w (.interval r)) e.argument)) := by
  have hvalues : (word w (.interval r)).values = r.toSet := by
    ext v
    exact Shape.contains_interval
  obtain ⟨hw, hr⟩ := hs
  obtain ⟨hcov, htight⟩ := Step.ofRange_describes e.params.stops h hr
    (Operation.represents_operand hy)
  rw [hvalues]
  cases w with
  | bit => exact absurd rfl hw
  | int t => exact runPlan_step he hcov fun hT => htight (hT.gapless hy)

/-- Two constants are executed. -/
private theorem fold_answers {transfer : Transfer} {v b : ℤ} (h : op.Accepts w arg out)
    (he : e.Fresh) (hv : w.view.contains v = true) (hY : operandValues e.argument = {b})
    (hb : ∀ u, arg = some u → u.view.contains b = true) :
    (e.runPlan limit transfer op x
      (.step (.foldWord e.params.stops op w (arg.getD w) (.word out) v b))).Returns
      (Answers limit out (op.results e.params.stops w.view (arg.getD w).view out.view
        (word w (.constant v)).values (operandValues e.argument)) P) := by
  have hd := (Step.foldWord_equals e.params.stops h hv hb).describes
  rw [← results_constant op w v hY rfl] at hd
  exact runPlan_step he hd.covers fun _ => hd.tight

/-- A known bit enumerates its second operand when that has few values; otherwise any value may come
out, and a shift may fail. -/
theorem ofBit_cases {stops : Bool} {v : ℤ} (harity : op.arity ≠ 0)
    (hfold : Plan.fold? stops op .bit (.word out) v (some (.word w s)) = none) :
    (∃ vs : List ℤ, Plan.ofBit limit stops op (.word out) v (some (.word w s)) =
        .arguments (vs.map (wordConstant w)) false ∧
          (∀ n, n ∈ vs ↔ s.contains w.view n = true) ∧
          ((word w s).intValues? = none → (s.bounds w.view).hi - (s.bounds w.view).lo < limit)) ∨
      ((word w s).intValues? = none ∧ limit ≤ (s.bounds w.view).hi - (s.bounds w.view).lo) ∧
        ∃ errors, (∀ k c, (k, c) ∈ errors ↔
            (∃ d, op = .shift d) ∧ k = .positiveOverflow ∧ c = false) ∧
          Plan.ofBit limit stops op (.word out) v (some (.word w s)) =
            .step ((Step.anyWord out).withErrors errors) := by
  simp only [Plan.ofBit, hfold, if_neg harity]
  cases hvals : (word w s).intValues? with
  | some vs => exact .inl ⟨vs, rfl, fun n => mem_intValues? hvals, nofun⟩
  | none =>
    by_cases hfew : (s.bounds w.view).hi - (s.bounds w.view).lo < limit
    · rw [if_pos hfew]
      refine .inl ⟨_, rfl, fun n => ?_, fun _ => hfew⟩
      rw [Bounds.mem_values_iff hfew, Shape.contains_iff_mem_bounds (precision_of_intValues? hvals)]
    · rw [if_neg hfew]
      refine .inr ⟨⟨rfl, not_lt.mp hfew⟩, _, fun k c => ?_, rfl⟩
      cases op <;> simp

/-- A constant with a second operand that is no constant: its values are enumerated, a coarser shape
takes over, or any value may come out. -/
private theorem constant_answers {budget : ℕ} {u : WordType} {t : Shape} {v : ℤ}
    (h : op.Accepts w (some u) out) (he : e.Fresh) (hv : w.view.contains v = true)
    (ht : t.WellFormed limit u) (hy : e.argument = some (.word u t))
    (hfold : Plan.fold? e.params.stops op w (.word out) v e.argument = none)
    (ih : ∀ {s : Shape} {y : Option Element}, s.Proper limit w → IsOperand limit (some u) y →
      Evaluation.ReportsOn limit out e.params (applyWithin limit op budget) (.word w s, y)
        (op.results e.params.stops w.view u.view out.view (word w s).values (operandValues y))
        (op.Trusted e.params.stops (.word w s) y))
    (hany : ∀ n ∈ op.results e.params.stops w.view u.view out.view (word w (.constant v)).values
      (operandValues e.argument), out.view.contains n = true) :
    (e.runPlan limit (applyWithin limit op budget) op (.word w (.constant v))
      (Plan.of limit e.params.stops op (.word out) (.word w (.constant v)) e.argument)).Returns
      (Answers limit out (op.results e.params.stops w.view u.view out.view
        (word w (.constant v)).values (operandValues e.argument)) P) ∨
    Plan.of limit e.params.stops op (.word out) (.word w (.constant v)) e.argument = .declined ∧
      (e.runPromoted limit (applyWithin limit op budget) op (.word w (.constant v))).Returns
        (Answers limit out (op.results e.params.stops w.view u.view out.view
          (word w (.constant v)).values (operandValues e.argument)) P) := by
  have harity : op.arity ≠ 0 := by
    have := h.operands.mp rfl
    omega
  -- an enumeration of the second operand
  have hrun : ∀ (vs : List ℤ) (noted : Bool), (∀ n, n ∈ vs ↔ t.contains u.view n = true) →
      (e.runPlan limit (applyWithin limit op budget) op (.word w (.constant v))
        (.arguments (vs.map (wordConstant u)) noted)).Returns
        (Answers limit out (op.results e.params.stops w.view u.view out.view
          (word w (.constant v)).values (operandValues e.argument)) P) := by
    intro vs noted hvs
    have hmem : ∀ n ∈ vs, u.view.contains n = true := fun n hn => ht.proper.contains ((hvs n).mp hn)
    rw [hy]
    refine runPlan_arguments he hvs hmem fun n hn e' he' hp' hy' => ?_
    refine (ih (s := .constant v) hv ?_ e' he' hp' hy').mono fun r hr => ⟨hr.1, ?_⟩
    · exact isWord_word (Shape.wellFormed_constant (hmem n hn))
    · exact hr.2.weaken fun _ => Operation.trusted_constant
  rw [hy] at hfold
  cases w with
  | bit =>
    left
    have hplan : Plan.of limit e.params.stops op (.word out) (.word .bit (.constant v)) e.argument =
        Plan.ofBit limit e.params.stops op (.word out) v (some (.word u t)) := by rw [← hy]; rfl
    rw [hplan]
    rcases ofBit_cases harity hfold with ⟨vs, hp, hvs, -⟩ | ⟨-, errors, -, hp⟩
    · rw [hp]
      exact hrun vs false hvs
    · rw [hp]
      have hd := Step.anyWord_describes hany
      exact runPlan_step he hd.covers fun _ => hd.tight
  | int ty =>
    have hplan : Plan.of limit e.params.stops op (.word out) (.word (.int ty) (.constant v))
        e.argument = (members? (word u t)).elim .declined fun ys => .arguments ys true := by
      simp only [Plan.of, Plan.ofConstant, hy, hfold, if_neg harity, Option.bind_some]
      cases members? (word u t) <;> rfl
    rw [hplan]
    cases hvals : (word u t).intValues? with
    | some vs =>
      have hmembers : members? (word u t) = some (vs.map (wordConstant u)) := by
        rw [members?, hvals]
        rfl
      rw [hmembers]
      exact .inl (hrun vs true fun n => mem_intValues? hvals)
    | none =>
      have hmembers : members? (word u t) = none := by
        rw [members?, hvals]
        rfl
      rw [hmembers]
      refine .inr ⟨rfl, runPromoted_answers he rfl fun e' he' hp' hy' => ?_⟩
      have hvalues : (word (.int ty) (.constant v)).values =
          (word (.int ty) (.interval (.point v))).values := by
        ext n
        rw [mem_values_word, mem_values_word, Shape.contains_constant, Shape.contains_interval,
          Bounds.mem_point]
      have hoperand : IsOperand limit (some u) e.argument := hy ▸ isWord_word ht
      rw [hvalues]
      refine (ih (s := .interval (.point v)) ⟨by simp, .point hv⟩ hoperand e' he' hp' hy').mono
        fun r hr => ⟨hr.1, hr.2.weaken fun _ => Operation.trusted_of_convex fun u' us hu => ?_⟩
      rw [hy] at hu
      cases hu
      exact precision_of_intValues? hvals rfl

/-- Every transfer of a proper word returns and reports the results of all executions. -/
theorem applyWithin_reports (h : op.Accepts w arg out) (params : Params) (budget : ℕ)
    (hs : s.Proper limit w) (hy : IsOperand limit arg y) :
    Evaluation.ReportsOn limit out params (applyWithin limit op budget) (.word w s, y)
      (op.results params.stops w.view (arg.getD w).view out.view (word w s).values
        (operandValues y))
      (op.Trusted params.stops (.word w s) y) := by
  have hany : ∀ {s : Shape} {y : Option Element}, s.Proper limit w → IsOperand limit arg y →
      ∀ v ∈ op.results params.stops w.view (arg.getD w).view out.view (word w s).values
        (operandValues y), out.view.contains v = true := by
    rintro s y hs hy v ⟨a, ha, b, hb, hv⟩
    exact Operation.contains_of_mem_execute h (hs.contains ha) (fun u hu => hy.contains hb hu) hv
  induction budget generalizing s y with
  | zero =>
    rintro e he rfl rfl
    exact applyWithin_zero (resultType_eq_ok h hy) he (hany hs hy)
  | succ budget ih =>
    rintro e he rfl rfl
    refine applyWithin_succ (resultType_eq_ok h hy) (fun _ => reports_withUnstable) ?_
    cases s with
    | interval r => exact .inl (interval_answers h he hs hy)
    | disjunction vs =>
      left
      have hplan : Plan.of limit e.params.stops op (.word out) (.word w (.disjunction vs))
          e.argument = .members (vs.map (wordConstant w)) := by cases w <;> rfl
      rw [hplan]
      refine runPlan_members he (fun v => Shape.contains_disjunction.symm) hs.2.2.1
        fun v hv e' he' hp' hy' => ?_
      refine (ih (s := .constant v) (hs.2.2.1 v hv) hy e' he' hp' hy').mono fun r hr => ⟨hr.1, ?_⟩
      exact hr.2.weaken fun _ => Operation.trusted_constant
    | top =>
      cases w with
      | bit =>
        left
        have hplan : Plan.of limit e.params.stops op (.word out) (.word .bit .top) e.argument =
            .members ([0, 1].map (wordConstant .bit)) := rfl
        have hbit : ∀ v, v ∈ [0, 1] ↔ (WordType.bit).view.contains v = true := fun v => by
          rw [WordType.contains_view_bit]
          simp
        rw [hplan]
        refine runPlan_members he (fun v => (hbit v).trans Shape.contains_top.symm)
          (fun v hv => (hbit v).mp hv) fun v hv e' he' hp' hy' => ?_
        refine (ih (s := .constant v) ((hbit v).mp hv) hy e' he' hp' hy').mono
          fun r hr => ⟨hr.1, ?_⟩
        exact hr.2.weaken fun _ => Operation.trusted_constant
      | int t =>
        refine .inr ⟨rfl, runPromoted_answers he rfl fun e' he' hp' hy' => ?_⟩
        rw [← values_fullInterval]
        refine (ih (s := .interval t.full) ⟨by simp, .full t⟩ hy e' he' hp' hy').mono
          fun r hr => ⟨hr.1, ?_⟩
        exact hr.2.weaken Operation.Trusted.fullInterval
    | constant v =>
      rcases fold?_cases op w out e.params.stops v hy with
        ⟨b, hY, hb, hfold⟩ | ⟨u, t, rfl, hy', ht, hfold⟩
      · left
        have hplan : Plan.of limit e.params.stops op (.word out) (.word w (.constant v))
            e.argument = .step (.foldWord e.params.stops op w (arg.getD w) (.word out) v b) := by
          cases w <;> simp only [Plan.of, Plan.ofBit, Plan.ofConstant, hfold]
        rw [hplan]
        exact fold_answers h he hs hY hb
      · exact constant_answers h he hs ht hy' hfold (fun hs hy => ih hs hy) (hany hs hy)

/-- With nesting left, the transfer of two constants has nothing but the values that the execution
may end with, whatever the verdict. -/
theorem applyWithin_constants {budget : ℕ} {v b : ℤ} (h : op.Accepts w arg out) (he : e.Fresh)
    (hv : w.view.contains v = true) (hy : IsOperand limit arg e.argument)
    (hconstant : ∀ o, e.argument = some o → o.precision = .constant)
    (hb : b ∈ operandValues e.argument) :
    (applyWithin limit op (budget + 1) (.word w (.constant v)) e).Returns fun r => r.1 = true ∧
      r.2.Confined ((op.execute e.params.stops w.view (arg.getD w).view out.view v b).values
        out.view) := by
  refine applyWithin_succ (resultType_eq_ok h hy) (fun e' he' => ⟨he'.result, he'.unperformed⟩)
    (.inl ?_)
  rcases fold?_cases op w out e.params.stops v hy with
    ⟨b', hY, hb', hfold⟩ | ⟨u, t, rfl, hy', -, hfold⟩
  · have hplan : Plan.of limit e.params.stops op (.word out) (.word w (.constant v)) e.argument =
        .step (.foldWord e.params.stops op w (arg.getD w) (.word out) v b') := by
      cases w <;> simp only [Plan.of, Plan.ofBit, Plan.ofConstant, hfold]
    rw [hplan]
    rw [hY] at hb
    cases hb
    refine (Evaluation.perform_confined he (Step.foldWord_equals _ h hv hb')).bind fun _ hc => ?_
    exact Traced.returns_pure ⟨rfl, hc⟩
  · -- a constant second operand is folded
    have ht := hconstant _ hy'
    cases t with
    | constant c => rw [hy'] at hfold; cases hfold
    | _ => cases ht

/-- An interval or a top is shifted to the right by every amount between the ends of the second
operand, whether or not it is one of its values. -/
theorem applyWithin_shift_right_between {t : IntType} {u : WordType} {q : Shape}
    (h : (Operation.shift .right).Accepts (.int t) (some u) (.int t)) (params : Params)
    (budget : ℕ) (hs : s.Proper limit (.int t))
    (hconvex : s.precision = .interval ∨ s.precision = .top) (hq : q.WellFormed limit u) :
    Evaluation.ReportsOn limit (.int t) params (applyWithin limit (.shift .right) budget)
      (.word (.int t) s, some (.word u q))
      ((Operation.shift .right).results params.stops t u.view t (word (.int t) s).values
        (q.bounds u.view).toSet) False := by
  have hy : IsOperand limit (some u) (some (.word u q)) := isWord_word hq
  have hany : ∀ {s : Shape}, s.Proper limit (.int t) →
      ∀ v ∈ (Operation.shift .right).results params.stops t u.view t (word (.int t) s).values
        (q.bounds u.view).toSet, t.contains v = true := by
    rintro s hs v ⟨a, ha, b, hb, hv⟩
    refine Operation.contains_of_mem_execute h (hs.contains ha) (fun u' hu => ?_) hv
    cases hu
    exact hq.proper.bounds.contains hb
  induction budget generalizing s with
  | zero =>
    rintro e he rfl hargument
    refine applyWithin_zero ?_ he (hany hs)
    rw [hargument]
    exact resultType_eq_ok h hy
  | succ budget ih =>
    rintro e he rfl hargument
    have hres : resultType (.shift .right) (word (.int t) s) e.argument = .ok (.word (.int t)) := by
      rw [hargument]
      exact resultType_eq_ok h hy
    refine applyWithin_succ hres (fun _ => reports_withUnstable) ?_
    cases s with
    | constant v => simp [Shape.precision] at hconvex
    | disjunction vs => simp [Shape.precision] at hconvex
    | interval r =>
      left
      have hvalues : (word (.int t) (.interval r)).values = r.toSet := by
        ext v
        exact Shape.contains_interval
      rw [hargument]
      refine runPlan_step he ?_ False.elim
      have := hany hs
      rw [hvalues] at this ⊢
      exact Step.shift_right_covers hs.2 (fun b hb => hb) this
    | top =>
      refine .inr ⟨by rw [hargument]; rfl, runPromoted_answers he rfl ?_⟩
      rw [hargument, ← values_fullInterval]
      exact ih (s := .interval t.full) ⟨by simp, .full t⟩ (.inl rfl)

end Element

end ScalarDomain
