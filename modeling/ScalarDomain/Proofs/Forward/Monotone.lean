import ScalarDomain.Proofs.Forward.Soundness
import ScalarDomain.Proofs.Forward.Steps

/-!
# Larger operands have larger results

Forward transfer is monotone on operands without gaps. The steps of such a transfer are the folds of
all pairs of values if both operands are listed, and a single step of ranges otherwise. Each step of
smaller operands is within a step of the larger ones, and so is what the transfers end with.
-/

namespace ScalarDomain

variable {limit : ℕ} {op : Operation} {w out : WordType} {arg : Option WordType} {s : Shape}
  {x x' : Element} {y y' : Option Element} {params : Params} {stops : Bool}

namespace Evaluation

variable {e e' : Evaluation} {o p : Upshot limit out}

theorem EndsWith.result_eq_none_iff (h : e.EndsWith o) (ho : o ≠ ⊤) :
    e.result = none ↔ e.empty = true := by
  rw [h.result, Upshot.element?_eq_none_iff, h.empty, or_iff_right ho]

/-- A larger word lets more values flow out. -/
theorem EndsWith.outcomes_subset (h : e.EndsWith o) (h' : e'.EndsWith p) (hle : o ≤ p)
    (hp : p ≠ ⊤) : e.outcomes ⊆ e'.outcomes := by
  lift p to WithBot (WordShape limit out) using hp
  lift o to WithBot (WordShape limit out) using ne_top_of_le_ne_top WithTop.coe_ne_top hle
  rintro v ⟨hempty, r, hr, hv⟩
  rw [h.result] at hr
  cases o with
  | bot => cases hr
  | coe z =>
    cases hr
    cases p with
    | bot => exact absurd (le_bot_iff.mp (WithTop.coe_le_coe.mp hle)) WithBot.coe_ne_bot
    | coe z' =>
      have hempty' : ¬e'.empty = true := fun h => Upshot.word_ne_bot z' (h'.empty.mp h)
      have hbelow : z.shape.Below out.view z'.shape := Upshot.word_le_word.mp hle
      exact ⟨by simpa using hempty', _, h'.result, hbelow.subset hv⟩

end Evaluation

namespace Element

/-! ### Listed operands -/

/-- The values of the second operand are listed: it is a bit, it has a single value, or it has few
values next to a bit. -/
def ListsSecond (limit : ℕ) (w : WordType) (arg : Option WordType) (Y : Set ℤ) : Prop :=
  arg = some .bit ∨ Y.Subsingleton ∨ w = .bit ∧ ∀ b ∈ Y, ∀ c ∈ Y, c - b < limit

/-- The values of both operands are enumerated: those of the second one are listed, and the first
one is a bit or has a single value. -/
def Enumerates (limit : ℕ) (w : WordType) (arg : Option WordType) (X Y : Set ℤ) : Prop :=
  (w = .bit ∨ X.Subsingleton) ∧ ListsSecond limit w arg Y

theorem Enumerates.subset {X X' Y Y' : Set ℤ} (h : Enumerates limit w arg X' Y') (hX : X ⊆ X')
    (hY : Y ⊆ Y') : Enumerates limit w arg X Y := by
  refine ⟨h.1.imp_right fun h => h.anti hX, h.2.imp_right (Or.imp (fun h => h.anti hY) ?_)⟩
  exact fun ⟨hw, hfew⟩ => ⟨hw, fun b hb c hc => hfew b (hY hb) c (hY hc)⟩

/-- A word of a single value is a constant. -/
theorem eq_constant_of_subsingleton (hs : s.WellFormed limit w)
    (h : (word w s).values.Subsingleton) : ∃ c, s = .constant c :=
  ⟨_, Shape.eq_constant_of_subset hs fun _ hv =>
    Shape.contains_constant.mpr (h hv hs.proper.contains_lo)⟩

theorem values_constant (w : WordType) (v : ℤ) : (word w (.constant v)).values = {v} :=
  Set.ext fun _ => Shape.contains_constant

/-- Of the words without gaps, constants and bits have their values listed. -/
theorem intValues?_eq_none_iff (hs : s.WellFormed limit w) (hconvex : s.precision ≠ .disjunction)
    (hconstant : ∀ c, s ≠ .constant c) : (word w s).intValues? = none ↔ w ≠ .bit := by
  cases s with
  | constant c => exact absurd rfl (hconstant c)
  | disjunction us => exact absurd rfl hconvex
  | interval r => exact iff_of_true (by cases w <;> rfl) hs.proper.1
  | top => cases w <;> simp [intValues?]

/-- The plan of a constant with a second operand that is no constant: a run over listed values, and
otherwise any value for a bit and a coarser shape for an integer. -/
theorem plan_constant {u : WordType} {t : Shape} {v : ℤ} {stops : Bool}
    (h : op.Accepts w (some u) out) (ht : t.WellFormed limit u)
    (hconvex : t.precision ≠ .disjunction)
    (hfold : Plan.fold? stops op w (.word out) v (some (.word u t)) = none) :
    (ListsSecond limit w (some u) (word u t).values ∧ ∃ (vs : List ℤ) (noted : Bool),
      Plan.of limit stops op (.word out) (.word w (.constant v)) (some (.word u t)) =
        .arguments (vs.map (wordConstant u)) noted ∧ ∀ n, n ∈ vs ↔ t.contains u.view n = true) ∨
    ¬ListsSecond limit w (some u) (word u t).values ∧
      ((w = .bit ∧ ∃ errors,
        Plan.of limit stops op (.word out) (.word w (.constant v)) (some (.word u t)) =
          .step ((Step.anyWord out).withErrors errors)) ∨
      ∃ ty, w = .int ty ∧
        Plan.of limit stops op (.word out) (.word w (.constant v)) (some (.word u t)) =
          .declined) := by
  have hnot : ∀ c, t ≠ .constant c := by
    rintro c rfl
    cases hfold
  have hmany : ¬(word u t).values.Subsingleton := fun hsingle => by
    obtain ⟨c, hc⟩ := eq_constant_of_subsingleton ht hsingle
    exact hnot c hc
  have hvalues := intValues?_eq_none_iff ht hconvex hnot
  rcases plan_unfolded limit h hfold with
    ⟨vs, noted, hplan, hvs, hfew⟩ | ⟨hnone, ⟨rfl, hlong, errors, hplan⟩ | ⟨ty, rfl, hplan⟩⟩
  · refine .inl ⟨?_, vs, noted, hplan, hvs⟩
    by_cases hu : u = .bit
    · exact .inl (congrArg some hu)
    · obtain ⟨hw, hshort⟩ := hfew (hvalues.mpr hu)
      refine .inr (.inr ⟨hw, fun b hb c hc => ?_⟩)
      have hlo := (ht.proper.mem_bounds hb).1
      have hhi := (ht.proper.mem_bounds hc).2
      omega
  · refine .inr ⟨?_, .inl ⟨rfl, errors, hplan⟩⟩
    rintro (hu | hsingle | ⟨-, hfew⟩)
    · exact hvalues.mp hnone (Option.some.inj hu)
    · exact hmany hsingle
    · have := hfew _ ht.proper.contains_lo _ ht.proper.contains_hi
      omega
  · refine .inr ⟨?_, .inr ⟨ty, rfl, hplan⟩⟩
    rintro (hu | hsingle | ⟨hw, -⟩)
    · exact hvalues.mp hnone (Option.some.inj hu)
    · exact hmany hsingle
    · cases hw

/-- A folded pair of values. -/
abbrev folded (stops : Bool) (op : Operation) (w : WordType) (arg : Option WordType)
    (out : WordType) (a b : ℤ) : Delivery :=
  (Step.foldWord stops op w (arg.getD w) (.word out) a b).delivery

/-! ### The steps of operands without gaps -/

section

variable {f : ℤ → ℤ → Delivery}

/-- The steps of a run over the values of the first operand. -/
theorem deliveries_members {vs : List ℤ} (hs : s.Proper limit w)
    (hplan : Plan.of limit stops op (.word out) (.word w s) y = .members (vs.map (wordConstant w)))
    (hvs : ∀ v, v ∈ vs ↔ s.contains w.view v = true)
    (hcases : ∀ v, w.view.contains v = true →
      deliveries limit stops op out (.word w (.constant v)) y =
        Set.image2 f (word w (.constant v)).values (operandValues y)) :
    deliveries limit stops op out (.word w s) y =
      Set.image2 f (word w s).values (operandValues y) := by
  have hmem : ∀ v ∈ vs, w.view.contains v = true := fun v hv => hs.contains ((hvs v).mp hv)
  rw [deliveries_of_members hplan]
  refine (Set.ext fun d => (exists_member_iff hvs hmem).trans ?_).symm
  refine exists_congr fun c => and_congr_right fun hc => ?_
  obtain ⟨x, hx, rfl⟩ := List.mem_map.mp hc
  obtain ⟨v, hv, rfl⟩ := List.mem_map.mp hx
  rw [wordConstant_eq (hmem v hv), hcases v (hmem v hv)]
  rfl

/-- The steps of a run over the values of the second operand. -/
theorem deliveries_arguments {u : WordType} {t : Shape} {vs : List ℤ} {noted : Bool}
    (ht : t.Proper limit u)
    (hplan : Plan.of limit stops op (.word out) (.word w s) (some (.word u t)) =
      .arguments (vs.map (wordConstant u)) noted)
    (hvs : ∀ v, v ∈ vs ↔ t.contains u.view v = true)
    (hcases : ∀ v, u.view.contains v = true →
      deliveries limit stops op out (.word w s) (some (.word u (.constant v))) =
        Set.image2 f (word w s).values (word u (.constant v)).values) :
    deliveries limit stops op out (.word w s) (some (.word u t)) =
      Set.image2 f (word w s).values (operandValues (some (.word u t))) := by
  have hmem : ∀ v ∈ vs, u.view.contains v = true := fun v hv => ht.contains ((hvs v).mp hv)
  rw [deliveries_of_arguments hplan]
  refine (Set.ext fun d => (exists_argument_iff hvs hmem).trans ?_).symm
  refine exists_congr fun c => and_congr_right fun hc => ?_
  obtain ⟨y', hy', rfl⟩ := List.mem_map.mp hc
  obtain ⟨v, hv, rfl⟩ := List.mem_map.mp hy'
  rw [wordConstant_eq (hmem v hv), hcases v (hmem v hv)]
  rfl

/-- A bit is transferred like its values. -/
theorem deliveries_bit (hw : w = .bit) (hs : s.WellFormed limit w)
    (hcases : ∀ v, w.view.contains v = true →
      deliveries limit stops op out (.word w (.constant v)) y =
        Set.image2 f (word w (.constant v)).values (operandValues y)) :
    deliveries limit stops op out (.word w s) y =
      Set.image2 f (word w s).values (operandValues y) := by
  subst hw
  by_cases htop : s = .top
  · subst htop
    have hvs : ∀ v, v ∈ [0, 1] ↔ Shape.top.contains (WordType.bit).view v = true := fun v => by
      rw [Shape.contains_top, WordType.contains_view_bit]
      simp
    exact deliveries_members hs.proper rfl hvs hcases
  · obtain ⟨v, rfl⟩ := hs.eq_constant_bit htop
    exact hcases v hs.proper

/-- The step of two constants. -/
theorem deliveries_fold {v b : ℤ} (hY : operandValues y = {b})
    (hfold : Plan.fold? stops op w (.word out) v y =
      some (.step (.foldWord stops op w (arg.getD w) (.word out) v b))) :
    deliveries limit stops op out (.word w (.constant v)) y =
      Set.image2 (folded stops op w arg out) (word w (.constant v)).values (operandValues y) := by
  rw [deliveries_of_step (plan_fold hfold), hY, values_constant, Set.image2_singleton]

end

section

variable (h : op.Accepts w arg out)

include h

/-- Enumerated operands are folded pair by pair. -/
theorem deliveries_enumerated (hs : s.WellFormed limit w) (hy : IsOperand limit arg y)
    (hconvex : ∀ o, y = some o → o.precision ≠ .disjunction)
    (hlisted : Enumerates limit w arg (word w s).values (operandValues y)) :
    deliveries limit stops op out (.word w s) y =
      Set.image2 (folded stops op w arg out) (word w s).values (operandValues y) := by
  have hconstant : ∀ v, w.view.contains v = true →
      deliveries limit stops op out (.word w (.constant v)) y =
        Set.image2 (folded stops op w arg out) (word w (.constant v)).values
          (operandValues y) := by
    intro v hv
    rcases fold?_cases op w out stops v hy with ⟨b, hY, -, hfold⟩ | ⟨u, t, rfl, rfl, ht, hfold⟩
    · exact deliveries_fold hY hfold
    · rcases plan_constant h ht (hconvex _ rfl) hfold with ⟨-, vs, noted, hplan, hvs⟩ | ⟨hnot, -⟩
      · exact deliveries_arguments ht.proper hplan hvs fun b _ =>
          deliveries_fold (y := some (.word u (.constant b))) (values_constant u b) rfl
      · exact absurd hlisted.2 hnot
  rcases hlisted.1 with rfl | hsingle
  · exact deliveries_bit rfl hs hconstant
  · obtain ⟨v, rfl⟩ := eq_constant_of_subsingleton hs hsingle
    exact hconstant v hs.proper

/-- A bit with a second operand that is not listed may give any value. -/
theorem deliveries_unlisted (hw : w = .bit) (hs : s.WellFormed limit w) (hy : IsOperand limit arg y)
    (hconvex : ∀ o, y = some o → o.precision ≠ .disjunction)
    (hlisted : ¬ListsSecond limit w arg (operandValues y)) :
    deliveries limit stops op out (.word w s) y =
      Set.image2 (fun _ _ => (Step.anyWord out).delivery) (word w s).values (operandValues y) := by
  refine deliveries_bit hw hs fun v hv => ?_
  rcases fold?_cases op w out stops v hy with ⟨b, hY, -⟩ | ⟨u, t, rfl, rfl, ht, hfold⟩
  · exact absurd (.inr (.inl (hY ▸ Set.subsingleton_singleton))) hlisted
  rcases plan_constant h ht (hconvex _ rfl) hfold with
    ⟨hyes, -⟩ | ⟨-, ⟨-, errors, hplan⟩ | ⟨ty, hty, -⟩⟩
  · exact absurd hyes hlisted
  · have hne : (operandValues (some (word u t))).Nonempty := ⟨_, ht.proper.contains_lo⟩
    rw [deliveries_of_step hplan, values_constant, Set.image2_singleton_left]
    exact (hne.image_const _).symm
  · rw [hw] at hty
    cases hty

/-- Integers that are not enumerated are transferred as ranges. -/
theorem deliveries_range {ty : IntType} (hw : w = .int ty) (hs : s.WellFormed limit w)
    (hy : IsOperand limit arg y) (hconvex : s.precision ≠ .disjunction)
    (hconvex' : ∀ o, y = some o → o.precision ≠ .disjunction)
    (hlisted : ¬Enumerates limit w arg (word w s).values (operandValues y)) :
    deliveries limit stops op out (.word w s) y =
      {(Step.ofRange stops op w (.word out) (s.bounds w.view) (y.bind operand?)).delivery} := by
  subst hw
  cases s with
  | interval r => exact deliveries_of_step rfl
  | disjunction vs => exact absurd rfl hconvex
  | top =>
    rw [deliveries_of_declined rfl rfl]
    exact deliveries_of_step rfl
  | constant v =>
    have hpoint : (word (.int ty) (.constant v)).values.Subsingleton :=
      values_constant (.int ty) v ▸ Set.subsingleton_singleton
    rcases fold?_cases op (.int ty) out stops v hy with ⟨b, hY, -⟩ | ⟨u, t, rfl, rfl, ht, hfold⟩
    · exact absurd ⟨.inr hpoint, .inr (.inl (hY ▸ Set.subsingleton_singleton))⟩ hlisted
    rcases plan_constant h ht (hconvex' _ rfl) hfold with
      ⟨hyes, -⟩ | ⟨-, ⟨hw, -⟩ | ⟨-, -, hplan⟩⟩
    · exact absurd ⟨.inr hpoint, hyes⟩ hlisted
    · cases hw
    · rw [deliveries_of_declined hplan rfl]
      exact deliveries_of_step rfl

end

/-! ### Monotonicity -/

/-- Second operands without gaps, as the transfer of a range sees them. -/
theorem refinesAll_operand (hy : IsOperand limit arg y) (hy' : IsOperand limit arg y')
    (hconvex : ∀ o, y = some o → o.precision ≠ .disjunction)
    (hconvex' : ∀ o, y' = some o → o.precision ≠ .disjunction)
    (hsub : operandValues y ⊆ operandValues y') :
    WordOperand.RefinesAll arg (y.bind operand?) (y'.bind operand?) := by
  cases arg with
  | none =>
    rw [hy.eq_none, hy'.eq_none]
    exact .absent
  | some u =>
    obtain ⟨t, rfl, ht⟩ := hy.exists_word
    obtain ⟨t', rfl, ht'⟩ := hy'.exists_word
    have hspan : ∀ {q : Shape}, q.precision ≠ .disjunction →
        {b | q.contains u.view b = true} = (q.bounds u.view).toSet := fun hq =>
      Set.ext fun _ => Shape.contains_iff_mem_bounds hq
    have hc : t.precision ≠ .disjunction := hconvex _ rfl
    have hc' : t'.precision ≠ .disjunction := hconvex' _ rfl
    obtain ⟨_, ⟨⟩, ha⟩ := abstracts_operand? ht.proper
    obtain ⟨_, ⟨⟩, ha'⟩ := abstracts_operand? ht'.proper
    rw [hspan hc] at ha
    rw [hspan hc'] at ha'
    refine .present ⟨ha, ha', by simpa using hc, ?_, fun c hconstant => ?_⟩
    · exact ⟨(ht'.proper.mem_bounds (hsub ht.proper.contains_lo)).1,
        (ht'.proper.mem_bounds (hsub ht.proper.contains_hi)).2⟩
    · cases t' with
      | constant d =>
        cases hconstant
        rw [Shape.eq_constant_of_subset ht hsub]
        rfl
      | _ => cases hconstant

/-- Every step of a transfer is within a step of the transfer of larger operands. -/
theorem exists_step_within (stops : Bool) (h : op.Accepts w arg out) (hx : x.IsWord limit w)
    (hx' : x'.IsWord limit w) (hy : IsOperand limit arg y) (hy' : IsOperand limit arg y')
    (hconvex : x.precision ≠ .disjunction) (hconvex' : x'.precision ≠ .disjunction)
    (hconvexy : ∀ o, y = some o → o.precision ≠ .disjunction)
    (hconvexy' : ∀ o, y' = some o → o.precision ≠ .disjunction)
    (hX : x.values ⊆ x'.values) (hY : operandValues y ⊆ operandValues y') :
    ∀ d ∈ deliveries limit stops op out x y,
      ∃ d' ∈ deliveries limit stops op out x' y', d.values ⊆ d'.values := by
  obtain ⟨s, rfl, hs⟩ := hx
  obtain ⟨s', rfl, hs'⟩ := hx'
  have hfolded : ∀ a ∈ (word w s).values, ∀ b ∈ operandValues y,
      (folded stops op w arg out a b).Equals out
        ((op.execute stops w.view (arg.getD w).view out.view a b).values out.view) :=
    fun a ha b hb => Step.foldWord_equals stops h (hs.proper.contains ha)
      fun u hu => hy.contains hb hu
  by_cases hlisted' : Enumerates limit w arg (word w s').values (operandValues y')
  · -- the same pairs of values are folded, and more
    rw [deliveries_enumerated h hs hy hconvexy (hlisted'.subset hX hY),
      deliveries_enumerated h hs' hy' hconvexy' hlisted']
    rintro _ ⟨a, ha, b, hb, rfl⟩
    exact ⟨_, ⟨a, hX ha, b, hY hb, rfl⟩, subset_rfl⟩
  cases w with
  | bit =>
    have hnot' : ¬ListsSecond limit .bit arg (operandValues y') := fun hl => hlisted' ⟨.inl rfl, hl⟩
    rw [deliveries_unlisted h rfl hs' hy' hconvexy' hnot']
    by_cases hlisted : ListsSecond limit .bit arg (operandValues y)
    · rw [deliveries_enumerated h hs hy hconvexy ⟨.inl rfl, hlisted⟩]
      rintro _ ⟨a, ha, b, hb, rfl⟩
      refine ⟨_, ⟨a, hX ha, b, hY hb, rfl⟩, fun v hv => ?_⟩
      exact Bounds.mem_full.mpr ((hfolded a ha b hb).covers.contains hv)
    · rw [deliveries_unlisted h rfl hs hy hconvexy hlisted]
      rintro _ ⟨a, ha, b, hb, rfl⟩
      exact ⟨_, ⟨a, hX ha, b, hY hb, rfl⟩, subset_rfl⟩
  | int t =>
    have hrefines := refinesAll_operand hy hy' hconvexy hconvexy' hY
    have hcov := (Step.ofRange_describes stops h hs'.proper.bounds
      (Operation.represents_operand hy')).1
    rw [deliveries_range h rfl hs' hy' hconvex' hconvexy' hlisted']
    by_cases hlisted : Enumerates limit (.int t) arg (word (.int t) s).values (operandValues y)
    · -- the range covers what each pair of values executes to
      rw [deliveries_enumerated h hs hy hconvexy hlisted]
      rintro _ ⟨a, ha, b, hb, rfl⟩
      refine ⟨_, rfl, (hfolded a ha b hb).values_subset.trans fun v hv => ?_⟩
      exact hcov.subset_values ⟨a, hs'.proper.mem_bounds (hX ha), b, hY hb, hv⟩
    · rw [deliveries_range h rfl hs hy hconvex hconvexy hlisted]
      rintro _ rfl
      refine ⟨_, rfl, Step.ofRange_mono stops h hs.proper.bounds hs'.proper.bounds ?_ hrefines⟩
      exact ⟨(hs'.proper.mem_bounds (hX hs.proper.contains_lo)).1,
        (hs'.proper.mem_bounds (hX hs.proper.contains_hi)).2⟩

/-- Forward transfer is monotone on words without gaps: with at least three levels of nesting, both
transfers return and are performed, and every value that flows out of the smaller operands flows out
of the larger ones. -/
theorem apply_mono {depth : ℕ} (hdepth : 3 ≤ depth) (information : Information)
    (errors : ErrorPolicy) (h : op.Accepts w arg out) (hx : x.IsWord limit w)
    (hx' : x'.IsWord limit w) (hy : IsOperand limit arg y) (hy' : IsOperand limit arg y')
    (hconvex : x.precision ≠ .disjunction) (hconvex' : x'.precision ≠ .disjunction)
    (hconvexy : ∀ o, y = some o → o.precision ≠ .disjunction)
    (hconvexy' : ∀ o, y' = some o → o.precision ≠ .disjunction)
    (hX : x.values ⊆ x'.values) (hY : operandValues y ⊆ operandValues y') :
    ∃ e e',
      (x.apply limit op (.start (.preset depth information errors) y)).value = .ok (true, e) ∧
      (x'.apply limit op (.start (.preset depth information errors) y')).value = .ok (true, e') ∧
      (e.result = none ↔ e.empty = true) ∧ (e'.result = none ↔ e'.empty = true) ∧
      e.outcomes ⊆ e'.outcomes := by
  have hbound : (Params.preset depth information errors).creationBound.allows .interval = true := by
    cases information <;> rfl
  have hsub := exists_step_within (Params.preset depth information errors).stops h hx hx' hy hy'
    hconvex hconvex' hconvexy hconvexy' hX hY
  obtain ⟨s, rfl, hs⟩ := hx
  obtain ⟨s', rfl, hs'⟩ := hx'
  obtain ⟨o, o', hle, htop, hends⟩ :=
    (resolves h hy hs.proper).mono (resolves h hy' hs'.proper) rfl hbound hsub
  obtain ⟨hend, hend'⟩ := hends depth hdepth
  obtain ⟨⟨_, e⟩, he, rfl, ho⟩ := hend _ (Evaluation.fresh_start _ y) rfl rfl
  obtain ⟨⟨_, e'⟩, he', rfl, ho'⟩ := hend' _ (Evaluation.fresh_start _ y') rfl rfl
  exact ⟨e, e', he, he', ho.result_eq_none_iff (ne_top_of_le_ne_top htop hle),
    ho'.result_eq_none_iff htop, ho.outcomes_subset ho' hle htop⟩

/-- The remainders of a range by a constant, and those of all four-bit integers by a range with
zero, errors going on with any value. -/
theorem apply_mono_modulo :
    let t : IntType := ⟨4, true, by decide, by decide⟩
    let x : Element := .word (.int t) (.interval ⟨-5, 6⟩)
    let x' : Element := .word (.int t) .top
    let y : Element := .word (.int t) (.constant 3)
    let y' : Element := .word (.int t) (.interval ⟨0, 3⟩)
    let params : Params := .preset 3 .sure .propagate
    Operation.modulo.Accepts (.int t) (some (.int t)) (.int t) ∧
      (x.IsWord 8 (.int t) ∧ x'.IsWord 8 (.int t)) ∧
      (IsOperand 8 (some (.int t)) (some y) ∧ IsOperand 8 (some (.int t)) (some y')) ∧
      (x.values ⊆ x'.values ∧ operandValues (some y) ⊆ operandValues (some y')) ∧
      ∃ e e', (x.apply 8 .modulo (.start params (some y))).value = .ok (true, e) ∧
        (x'.apply 8 .modulo (.start params (some y'))).value = .ok (true, e') ∧
        (e.result = none ↔ e.empty = true) ∧ (e'.result = none ↔ e'.empty = true) ∧
        e.outcomes ⊆ e'.outcomes := by
  intro t x x' y y' params
  have h : Operation.modulo.Accepts (.int t) (some (.int t)) (.int t) := ⟨trivial, by decide, rfl⟩
  have hx : x.IsWord 8 (.int t) := by decide
  have hx' : x'.IsWord 8 (.int t) := by decide
  have hy : IsOperand 8 (some (.int t)) (some y) := by decide
  have hy' : IsOperand 8 (some (.int t)) (some y') := by decide
  have hX : x.values ⊆ x'.values := by
    rintro v hv
    rw [mem_values_word, Shape.contains_interval] at hv
    exact Shape.contains_top.mpr (IntType.contains_of_between (by decide : t.contains (-5) = true)
      (by decide : t.contains 6 = true) hv.1 hv.2)
  have hY : operandValues (some y) ⊆ operandValues (some y') := by
    rintro v hv
    obtain rfl := Shape.contains_constant.mp hv
    exact Shape.contains_interval.mpr ⟨by decide, by decide⟩
  exact ⟨h, ⟨hx, hx'⟩, ⟨hy, hy'⟩, ⟨hX, hY⟩, apply_mono le_rfl .sure .propagate h hx hx' hy hy'
    (by decide) (by decide) (by rintro _ ⟨⟩; decide) (by rintro _ ⟨⟩; decide) hX hY⟩

end Element

end ScalarDomain
