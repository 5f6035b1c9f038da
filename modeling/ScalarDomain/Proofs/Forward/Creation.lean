import ScalarDomain.Proofs.Forward.Steps
import ScalarDomain.Proofs.Forward.Totality

/-!
# Results beyond their creation bound

The creation bound is obeyed step by step: values that no allowed shape has are not delivered, and
then the whole transfer is not performed. But the words that several steps deliver are joined
without another look at the bound. If every step has an allowed shape and all their values together
have none, the transfer is performed all the same, and its result is coarser than the bound allows.
There is no other way to break the bound, and a top is never made against it.
-/

namespace ScalarDomain

variable {limit : ℕ} {op : Operation} {w out : WordType} {arg : Option WordType} {t : IntType}
  {x : Element} {y : Option Element} {bound : Creation} {V : Set ℤ}

/-- The bound that a shape needs. -/
def Shape.needed : Shape → Creation
  | .constant _ => .formal
  | .disjunction _ => .disjunction
  | .interval _ => .interval
  | .top => .shareTop

namespace Creation

/-- A bound allows all that needs less than what it allows. -/
theorem allows_of_rank_le {a b : Creation} (h : bound.allows a = true) (hle : b.rank ≤ a.rank) :
    bound.allows b = true :=
  decide_eq_true (hle.trans (of_decide_eq_true h))

theorem allows_formal (bound : Creation) : bound.allows .formal = true :=
  decide_eq_true (Nat.zero_le _)

/-- Some allowed shape has the given values: a constant has a single one, a list has a few, and an
interval may have any. -/
def Fits (limit : ℕ) (bound : Creation) (V : Set ℤ) : Prop :=
  bound.allows .interval = true ∨ V.Subsingleton ∨
    bound.allows .disjunction = true ∧ V.encard ≤ limit

/-- A bound has a shape for an integer range if one fits its values. -/
theorem fits_toSet_iff {r : Range} (hr : r.Proper t) :
    bound.Fits limit r.toSet ↔ bound.shape? limit (.int t) r ≠ none := by
  have hle := hr.le
  have hsingle : r.toSet.Subsingleton ↔ r.lo = r.hi := by
    refine ⟨fun h => h hr.lo_mem_self hr.hi_mem_self, fun heq a ha b hb => ?_⟩
    obtain ⟨ha1, ha2⟩ := ha
    obtain ⟨hb1, hb2⟩ := hb
    omega
  have hcard : r.toSet.encard ≤ limit ↔ r.hi - r.lo + 1 ≤ limit := by
    have hset : r.toSet = (Finset.Icc r.lo r.hi : Set ℤ) := by
      ext v
      simp [Bounds.mem_def]
    rw [hset, Set.encard_coe_eq_coe_finsetCard, Int.card_Icc, Nat.cast_le]
    omega
  rw [Fits, hsingle, hcard, ne_eq, shape?_eq_none_iff]
  cases bound.allows .interval <;> tauto

/-- Without intervals the shapes of integer ranges list their values. -/
theorem isEnumerated_of_shape? {r : Range} {a : Shape}
    (h : bound.shape? limit (.int t) r = some a) (hbound : bound.allows .interval = false) :
    a.IsEnumerated := by
  have hshare : bound.allows .shareTop = false := by
    by_contra h
    rw [allows_of_rank_le (by simpa using h) (by decide)] at hbound
    cases hbound
  simp only [shape?, hbound, hshare] at h
  split at h
  · next hpoint =>
    obtain rfl := Option.some.inj h
    rw [WordType.rangeShape, if_pos hpoint]
    exact Shape.isEnumerated_constant
  · simp only [Bool.false_eq_true, and_false, if_false] at h
    split at h
    · obtain rfl := Option.some.inj h
      exact Shape.isEnumerated_disjunction
    · cases h

/-- A top needs permission. -/
theorem shape?_ne_top {r : Range} {a : Shape} (h : bound.shape? limit (.int t) r = some a)
    (hbound : bound.allows .shareTop = false) : a ≠ .top := by
  simp only [shape?, hbound] at h
  split at h
  · next hpoint =>
    obtain rfl := Option.some.inj h
    rw [WordType.rangeShape, if_pos hpoint]
    simp
  · simp only [Bool.false_eq_true, and_false, if_false] at h
    split at h
    · obtain rfl := Option.some.inj h
      simp
    split at h
    · obtain rfl := Option.some.inj h
      simp
    · cases h

end Creation

namespace Delivery.Becomes

variable {d : Delivery} {o : Upshot limit (.int t)}

/-- A step is not performed if no shape fits its values. -/
theorem eq_top_iff (h : d.Becomes bound o) : o = ⊤ ↔ ¬bound.Fits limit d.values := by
  cases h with
  | nothing => exact iff_of_false bot_ne_top (not_not_intro (.inr (.inl Set.subsingleton_empty)))
  | @empty r exact hlt =>
    refine iff_of_false bot_ne_top (not_not_intro (.inr (.inl fun a ha b hb => ?_)))
    exact absurd (ha.1.trans ha.2) (not_le.mpr hlt)
  | word z hr hz =>
    refine iff_of_false WithTop.coe_ne_top (not_not_intro ((Creation.fits_toSet_iff hr).mpr ?_))
    exact fun hnone => Option.some_ne_none _ (hz.symm.trans hnone)
  | forbidden hr hnone =>
    exact iff_of_true rfl fun hfits => (Creation.fits_toSet_iff hr).mp hfits hnone

/-- A step that becomes nothing has no value. -/
theorem values_eq_empty (h : d.Becomes bound o) (ho : o = ⊥) : d.values = ∅ := by
  cases h with
  | nothing => rfl
  | empty hlt =>
    exact Set.eq_empty_of_forall_notMem fun v hv => absurd (hv.1.trans hv.2) (not_le.mpr hlt)
  | word z => exact absurd ho (Upshot.word_ne_bot z)
  | forbidden => exact absurd ho top_ne_bot

/-- A word above what a step becomes has its values. -/
theorem values_subset {z : WordShape limit (.int t)} (h : d.Becomes bound o)
    (hle : o ≤ .word z) : d.values ⊆ z.shape.toSet t := by
  cases h with
  | nothing => exact Set.empty_subset _
  | empty hlt => exact fun v hv => absurd (hv.1.trans hv.2) (not_le.mpr hlt)
  | word z' hr hz =>
    have hbelow : z'.shape.Below t z.shape := Upshot.word_le_word.mp hle
    exact fun v hv => hbelow.subset (((Evaluation.shape?_spec hr hz).2 v).mpr hv)
  | forbidden => exact absurd (top_le_iff.mp hle) WithTop.coe_ne_top

/-- Without intervals, a step that is performed is below every word with its values. -/
theorem le_of_values {z : WordShape limit (.int t)} (h : d.Becomes bound o) (ho : o ≠ ⊤)
    (hbound : bound.allows .interval = false) (hsub : d.values ⊆ z.shape.toSet t) :
    o ≤ .word z := by
  cases h with
  | nothing => exact bot_le
  | empty => exact bot_le
  | word z' hr hz =>
    refine Upshot.word_le_word.mpr (Shape.below_of_isEnumerated (fun v hv => hsub ?_)
      (Creation.isEnumerated_of_shape? hz hbound))
    exact ((Evaluation.shape?_spec hr hz).2 v).mp hv
  | forbidden => exact absurd rfl ho

/-- Without permission for a top, a step that is performed is below the interval of all values. -/
theorem le_full {z : WordShape limit (.int t)} (h : d.Becomes bound o) (ho : o ≠ ⊤)
    (hbound : bound.allows .shareTop = false) (hz : z.shape = .interval t.full) :
    o ≤ .word z := by
  cases h with
  | nothing => exact bot_le
  | empty => exact bot_le
  | word z' hr hshape =>
    refine Upshot.word_le_word.mpr ?_
    refine Shape.below_of_not_isEnumerated (fun v hv => ?_)
      (Creation.shape?_ne_top hshape hbound) ?_
    · rw [hz]
      exact Shape.contains_interval.mpr (Bounds.mem_full.mpr (z'.wellFormed.proper.contains hv))
    · rw [hz]
      exact Shape.not_isEnumerated_interval
  | forbidden => exact absurd rfl ho

end Delivery.Becomes

/-! ### The join of several steps -/

section

variable {D : Set Delivery} {o : Upshot limit (.int t)} {a z : WordShape limit (.int t)}

/-- Steps that all become nothing have no value. -/
theorem values_eq_empty_of_isLUB (hcov : ∀ d ∈ D, ∃ S, d.Covers (.int t) S)
    (hlub : IsLUB {p : Upshot limit (.int t) | ∃ d ∈ D, d.Becomes bound p} ⊥) :
    (⋃ d ∈ D, d.values) = ∅ := by
  simp only [Set.iUnion_eq_empty]
  intro d hd
  obtain ⟨S, hS⟩ := hcov d hd
  obtain ⟨p, hp⟩ : ∃ p : Upshot limit (.int t), d.Becomes bound p := hS.exists_becomes bound
  exact hp.values_eq_empty (le_bot_iff.mp (hlub.1 ⟨d, hd, hp⟩))

/-- Several steps are not performed if one of them is not. -/
theorem isLUB_eq_top_iff (hcov : ∀ d ∈ D, ∃ S, d.Covers (.int t) S)
    (hlub : IsLUB {p | ∃ d ∈ D, d.Becomes bound p} o) :
    o = ⊤ ↔ ∃ d ∈ D, ¬bound.Fits limit d.values := by
  rw [Upshot.eq_top_of_isLUB hlub]
  refine exists_congr fun d => and_congr_right fun hd => ?_
  obtain ⟨S, hS⟩ := hcov d hd
  obtain ⟨p, hp⟩ : ∃ p : Upshot limit (.int t), d.Becomes bound p := hS.exists_becomes bound
  rw [← hp.eq_top_iff]
  exact ⟨fun htop => hp.unique htop, fun htop => htop ▸ hp⟩

variable (hlub : IsLUB {p | ∃ d ∈ D, d.Becomes bound p} (.word z))

include hlub

/-- The join has the values of all steps. -/
theorem values_subset_of_isLUB (hcov : ∀ d ∈ D, ∃ S, d.Covers (.int t) S) :
    (⋃ d ∈ D, d.values) ⊆ z.shape.toSet t := by
  refine Set.iUnion₂_subset fun d hd => ?_
  obtain ⟨S, hS⟩ := hcov d hd
  obtain ⟨p, hp⟩ : ∃ p : Upshot limit (.int t), d.Becomes bound p := hS.exists_becomes bound
  exact hp.values_subset (hlub.1 ⟨d, hd, hp⟩)

/-- Since the join is a word, every step was performed. -/
private theorem ne_top_of_isLUB {p : Upshot limit (.int t)} {d : Delivery} (hd : d ∈ D)
    (hp : d.Becomes bound p) : p ≠ ⊤ :=
  ne_top_of_le_ne_top WithTop.coe_ne_top (hlub.1 ⟨d, hd, hp⟩)

/-- Without intervals, the join is below every word that has the values of all steps. -/
theorem isLUB_le_of_values (hbound : bound.allows .interval = false)
    (hsub : (⋃ d ∈ D, d.values) ⊆ a.shape.toSet t) : z ≤ a := by
  refine Upshot.word_le_word.mp (hlub.2 ?_)
  rintro p ⟨d, hd, hp⟩
  exact hp.le_of_values (ne_top_of_isLUB hlub hd hp) hbound
    ((Set.subset_biUnion_of_mem hd).trans hsub)

/-- The join is a top only with permission. -/
theorem allows_shareTop_of_isLUB (hz : z.shape = .top) : bound.allows .shareTop = true := by
  by_contra hshare
  have hfull : (Shape.interval t.full).WellFormed limit (.int t) :=
    Shape.wellFormed_full t
  have hle : z ≤ ⟨_, hfull⟩ := by
    refine Upshot.word_le_word.mp (hlub.2 ?_)
    rintro p ⟨d, hd, hp⟩
    exact hp.le_full (ne_top_of_isLUB hlub hd hp) (by simpa using hshare) rfl
  cases hle.eq_top hz

/-- Values that are few enough for a list are joined into one. -/
theorem isEnumerated_of_encard_le (hcov : ∀ d ∈ D, ∃ S, d.Covers (.int t) S)
    (hbound : bound.allows .interval = false) (hne : (⋃ d ∈ D, d.values).Nonempty)
    (hcard : (⋃ d ∈ D, d.values).encard ≤ limit) : z.shape.IsEnumerated := by
  have hsub := values_subset_of_isLUB hlub hcov
  obtain ⟨hfinite, hcard⟩ := Set.encard_le_coe_iff_finite_ncard_le.mp hcard
  have hmem : ∀ v, v ∈ hfinite.toFinset.toList ↔ v ∈ ⋃ d ∈ D, d.values := by simp
  have hset : {v | v ∈ hfinite.toFinset.toList} = ⋃ d ∈ D, d.values := Set.ext hmem
  have hnil : hfinite.toFinset.toList ≠ [] := by
    obtain ⟨v, hv⟩ := hne
    exact List.ne_nil_of_mem ((hmem v).mpr hv)
  have hunion := Shape.isUnion_valuesShape limit t hnil
  rw [hset] at hunion
  have hlisted := hunion.enumerated.mpr ⟨trivial, le_max_of_le_left hcard⟩
  have hwf :
      ((WordType.int t).valuesShape limit hfinite.toFinset.toList).WellFormed limit (.int t) :=
    WordType.wellFormed_valuesShape hnil fun v hv =>
      z.wellFormed.proper.contains (hsub ((hmem v).mp hv))
  have hle : z ≤ ⟨_, hwf⟩ := isLUB_le_of_values hlub hbound (hunion.listed hlisted).superset
  exact hle.enumerated hlisted

/-- Values that are a single one are joined into a constant. -/
theorem exists_constant_of_subsingleton (hcov : ∀ d ∈ D, ∃ S, d.Covers (.int t) S)
    (hbound : bound.allows .interval = false) (hsingle : (⋃ d ∈ D, d.values).Subsingleton) :
    ∃ c, z.shape = .constant c := by
  have hsub := values_subset_of_isLUB hlub hcov
  obtain ⟨c, hc, hV⟩ : ∃ c ∈ z.shape.toSet t, (⋃ d ∈ D, d.values) ⊆ {c} := by
    rcases hsingle.eq_empty_or_singleton with hV | ⟨c, hV⟩
    · exact ⟨_, z.wellFormed.proper.contains_lo, hV ▸ Set.empty_subset _⟩
    · exact ⟨c, hsub (hV ▸ rfl), hV.subset⟩
  have hwf : (Shape.constant c).WellFormed limit (.int t) :=
    Shape.wellFormed_constant (z.wellFormed.proper.contains hc)
  have hle : z ≤ ⟨_, hwf⟩ := isLUB_le_of_values hlub hbound
    (hV.trans (Set.singleton_subset_iff.mpr (Shape.contains_constant.mpr rfl)))
  exact ⟨c, Shape.eq_constant_of_subset z.wellFormed (Shape.Below.subset hle)⟩

/-- The join has an allowed shape exactly if one fits the values of all steps. -/
theorem allows_needed_iff (hcov : ∀ d ∈ D, ∃ S, d.Covers (.int t) S) :
    bound.allows z.shape.needed = true ↔ bound.Fits limit (⋃ d ∈ D, d.values) := by
  have hsub := values_subset_of_isLUB hlub hcov
  have htop := allows_shareTop_of_isLUB hlub
  cases hbound : bound.allows .interval with
  | true =>
    refine iff_of_true ?_ (.inl hbound)
    cases hz : z.shape with
    | top => exact htop hz
    | _ => exact Creation.allows_of_rank_le hbound (by simp [Shape.needed, Creation.rank])
  | false =>
    constructor
    · intro hallows
      cases hz : z.shape with
      | constant c =>
        rw [hz] at hsub
        refine .inr (.inl fun a ha b hb => ?_)
        exact (Shape.contains_constant.mp (hsub ha)).trans
          (Shape.contains_constant.mp (hsub hb)).symm
      | disjunction vs =>
        rw [hz] at hallows hsub
        have hwf := z.wellFormed
        rw [hz] at hwf
        have hset : (Shape.disjunction vs).toSet t = (vs.toFinset : Set ℤ) := by
          ext v
          simp
        refine .inr (.inr ⟨hallows, (Set.encard_le_encard hsub).trans ?_⟩)
        rw [hset, Set.encard_coe_eq_coe_finsetCard, Nat.cast_le]
        exact (List.toFinset_card_le vs).trans hwf.1.2.2.2.2
      | interval r =>
        rw [hz, Shape.needed, hbound] at hallows
        cases hallows
      | top =>
        rw [hz] at hallows
        exact .inl (Creation.allows_of_rank_le hallows (by decide))
    · rintro (hint | hsingle | ⟨hlist, hcard⟩)
      · rw [hbound] at hint
        cases hint
      · obtain ⟨c, hc⟩ := exists_constant_of_subsingleton hlub hcov hbound hsingle
        exact hc ▸ bound.allows_formal
      · rcases Set.eq_empty_or_nonempty (⋃ d ∈ D, d.values) with hempty | hne
        · obtain ⟨c, hc⟩ := exists_constant_of_subsingleton hlub hcov hbound
            (hempty ▸ Set.subsingleton_empty)
          exact hc ▸ bound.allows_formal
        · have henum := isEnumerated_of_encard_le hlub hcov hbound hne hcard
          cases hz : z.shape with
          | constant c => exact bound.allows_formal
          | disjunction vs => exact hlist
          | interval r => exact absurd (hz ▸ henum) Shape.not_isEnumerated_interval
          | top => exact absurd (hz ▸ henum) Shape.not_isEnumerated_top

end

section

variable {D : Set Delivery} {o : Upshot limit (.int t)} {e : Evaluation}

/-- The result of several steps has an allowed shape exactly if one fits the values of all of them,
provided that one fits the values of each. -/
theorem allows_result_iff (hcov : ∀ d ∈ D, ∃ S, d.Covers (.int t) S)
    (hlub : IsLUB {p | ∃ d ∈ D, d.Becomes bound p} o) (he : e.EndsWith o) :
    (∀ w s, e.result = some (.word w s) → bound.allows s.needed = true) ↔
      ((∀ d ∈ D, bound.Fits limit d.values) → bound.Fits limit (⋃ d ∈ D, d.values)) := by
  have hresult := he.result
  by_cases hall : ∀ d ∈ D, bound.Fits limit d.values
  · rw [forall_prop_of_true hall]
    have ho : o ≠ ⊤ := by
      rw [ne_eq, isLUB_eq_top_iff hcov hlub]
      push Not
      exact hall
    lift o to WithBot (WordShape limit (.int t)) using ho
    cases o with
    | bot =>
      have hempty := values_eq_empty_of_isLUB hcov hlub
      refine iff_of_true (fun w s hs => ?_) (.inr (.inl (hempty ▸ Set.subsingleton_empty)))
      cases hresult.symm.trans hs
    | coe z =>
      have hresult : e.result = some (.word (.int t) z.shape) := hresult
      rw [hresult, ← allows_needed_iff hlub hcov]
      refine ⟨fun hallowed => hallowed _ _ rfl, ?_⟩
      rintro hallows _ _ ⟨⟩
      exact hallows
  · refine iff_of_true (fun w s hs => ?_) fun h => absurd h hall
    push Not at hall
    obtain rfl := (isLUB_eq_top_iff hcov hlub).mpr hall
    cases hresult.symm.trans hs

/-- The result of several steps is a top only with permission. -/
theorem allows_shareTop_of_result {w : WordType}
    (hlub : IsLUB {p | ∃ d ∈ D, d.Becomes bound p} o) (he : e.EndsWith o)
    (htop : e.result = some (.word w .top)) : bound.allows .shareTop = true := by
  have hresult := he.result.symm.trans htop
  cases o using WithTop.recTopCoe with
  | top => cases hresult
  | coe o =>
    cases o with
    | bot => cases hresult
    | coe z =>
      refine allows_shareTop_of_isLUB hlub ?_
      injection Option.some.inj hresult

end

namespace Element

/-- A transfer into an integer type with three levels of nesting keeps to its creation bound, in the
shape of its result and in not being performed if no allowed shape fits the values of its steps,
unless such a shape fits the values of each step and none fits all of them. In any case a result
that may be any value has permission, and a step that no shape fits is not performed. -/
theorem keeps_creationBound_iff (params : Params) (hdepth : 3 ≤ params.maxDepth)
    (h : op.Accepts w arg (.int t)) (hx : x.IsWord limit w) (hy : IsOperand limit arg y) :
    let bound := params.creationBound
    let D := deliveries limit params.stops op (.int t) x y
    let kept := (∀ d ∈ D, bound.Fits limit d.values) → bound.Fits limit (⋃ d ∈ D, d.values)
    ∃ e, (x.apply limit op (.start params y)).value = .ok (true, e) ∧
      ((∀ w s, e.result = some (.word w s) → bound.allows s.needed = true) ↔ kept) ∧
      ((¬bound.Fits limit (⋃ d ∈ D, d.values) → e.EndsIn .unperformed) ↔ kept) ∧
      (∀ w, e.result = some (.word w .top) → bound.allows .shareTop = true) ∧
      ((∃ d ∈ D, ¬bound.Fits limit d.values) → e.EndsIn .unperformed) := by
  intro bound D kept
  have hreports := apply_reports params h hx hy
  obtain ⟨s, rfl, hs⟩ := hx
  obtain ⟨hcov, o, hlub, hends⟩ : Resolves limit op (.int t) params 3 (.word w s) y D :=
    resolves h hy hs.proper
  obtain ⟨⟨_, e⟩, he, ⟨rfl, hr⟩, -, ho⟩ :=
    hreports.and (hends params.maxDepth hdepth _ (Evaluation.fresh_start params y) rfl rfl)
  have hunperformed : e.EndsIn .unperformed ↔ ∃ d ∈ D, ¬bound.Fits limit d.values := by
    rw [← isLUB_eq_top_iff hcov hlub, ← ho.unperformed_iff]
    exact ⟨fun h => ⟨h.1, h.2.1⟩, fun h => ⟨h.1, h.2, hr.unperformed h.1 h.2⟩⟩
  refine ⟨e, he, allows_result_iff hcov hlub ho, ?_, fun w => allows_shareTop_of_result hlub ho,
    hunperformed.mpr⟩
  -- not to be performed is the contrapositive of having an allowed shape
  rw [hunperformed, not_imp_comm]
  push Not
  exact Iff.rfl

/-- Two constants of a list under a bound that only allows constants, each with its own sum. -/
theorem keeps_creationBound_iff_plus :
    let t : IntType := ⟨4, true, by decide, by decide⟩
    let x : Element := .word (.int t) (.disjunction [1, 2])
    let y : Element := .word (.int t) (.constant 1)
    let params : Params := ⟨.sure, .stop, ⟨.formal, .formal, le_rfl⟩, 4⟩
    let D := deliveries 8 true .plus (.int t) x (some y)
    3 ≤ params.maxDepth ∧ Operation.plus.Accepts (.int t) (some (.int t)) (.int t) ∧
      x.IsWord 8 (.int t) ∧ IsOperand 8 (some (.int t)) (some y) ∧
      ∃ e, (x.apply 8 .plus (.start params (some y))).value = .ok (true, e) ∧
        ((∀ w s, e.result = some (.word w s) → Creation.formal.allows s.needed = true) ↔
          ((∀ d ∈ D, Creation.formal.Fits 8 d.values) →
            Creation.formal.Fits 8 (⋃ d ∈ D, d.values))) := by
  intro t x y params D
  have h : Operation.plus.Accepts (.int t) (some (.int t)) (.int t) := ⟨trivial, by decide, rfl⟩
  have hx : x.IsWord 8 (.int t) := by decide
  have hy : IsOperand 8 (some (.int t)) (some y) := by decide
  have hdepth : 3 ≤ params.maxDepth := by decide
  obtain ⟨e, he, hallowed, -⟩ := keeps_creationBound_iff params hdepth h hx hy
  exact ⟨hdepth, h, hx, hy, e, he, hallowed⟩

/-- The smallest result beyond its bound: only constants are allowed, and the sums are a list. -/
theorem listed_against_bound :
    let t : IntType := ⟨4, true, by decide, by decide⟩
    let x : Element := .word (.int t) (.disjunction [1, 2])
    let y : Element := .word (.int t) (.constant 1)
    let params : Params := ⟨.sure, .stop, ⟨.formal, .formal, le_rfl⟩, 4⟩
    ((x.apply 8 .plus (.start params (some y))).value.toOption.map
        fun r => (r.1, r.2.verdict, r.2.empty, r.2.result)) =
      some (true, .exact, false, some (.word (.int t) (.disjunction [2, 3]))) ∧
      params.creationBound.allows (Shape.disjunction [2, 3]).needed = false := by
  intro t x y params
  refine ⟨?_, rfl⟩
  cbv

end Element

end ScalarDomain
