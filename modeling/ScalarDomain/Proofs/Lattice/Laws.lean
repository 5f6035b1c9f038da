import ScalarDomain.Proofs.Lattice.Operations

/-!
# Lattice laws

The well-formed words of a type are partially ordered: one is below another one when it has no more
values and says them at least as precisely, a list before an interval before a top. In this order
the join is the least upper bound, and the meet, with a bottom for no common value, is the greatest
lower bound. A word is determined by its place in the order, so the laws of a lattice hold as
equalities of elements, and the join of several words depends neither on their order nor on
repetitions: a widened intermediate result does not show in the end.
-/

namespace ScalarDomain

namespace Shape

variable {limit : ℕ} {w : WordType} {t : IntType} {a b c s : Shape}

/-! ### The order of shapes -/

/-- One shape is below another one: it has no more values, lists them if the other one does, and is
a top only if the other one is. -/
structure Below (t : IntType) (a b : Shape) : Prop where
  /-- It has no more values. -/
  subset : a.toSet t ⊆ b.toSet t
  /-- It lists its values if the other one does. -/
  enumerated : b.IsEnumerated → a.IsEnumerated
  /-- Only a top is above a top. -/
  eq_top : a = top → b = top

theorem Below.refl (t : IntType) (a : Shape) : Below t a a := ⟨subset_rfl, id, id⟩

/-- The order of shapes is transitive; a list in between passes the listing on. -/
theorem Below.trans (hab : Below t a b) (hbc : Below t b c) : Below t a c :=
  ⟨hab.subset.trans hbc.subset, hab.enumerated ∘ hbc.enumerated, hbc.eq_top ∘ hab.eq_top⟩

/-- Listed values are below whatever has them. -/
theorem below_of_isEnumerated (h : a.toSet t ⊆ b.toSet t) (ha : a.IsEnumerated) : Below t a b := by
  refine ⟨h, fun _ => ha, ?_⟩
  rintro rfl
  exact absurd ha not_isEnumerated_top

/-- Values that are no top are below whatever has them without listing them. -/
theorem below_of_not_isEnumerated (h : a.toSet t ⊆ b.toSet t) (ha : a ≠ top)
    (hb : ¬b.IsEnumerated) : Below t a b :=
  ⟨h, fun hb' => absurd hb' hb, fun ha' => absurd ha' ha⟩

/-- The only well-formed shape of at most one value is a constant. -/
theorem eq_constant_of_subset {c : ℤ} (hb : b.WellFormed limit w)
    (h : b.toSet w.view ⊆ (constant c).toSet w.view) : b = constant c := by
  cases b with
  | constant d => rw [contains_constant.mp (h (contains_constant.mpr rfl))]
  | _ => exact absurd h (hb.not_subset_constant (by simp [precision]))

/-- A shape is determined by its place in the order. -/
theorem Below.antisymm (ha : a.WellFormed limit w) (hb : b.WellFormed limit w)
    (hab : Below w.view a b) (hba : Below w.view b a) : a = b := by
  have hmem : ∀ v, a.contains w.view v = true ↔ b.contains w.view v = true := fun v =>
    ⟨fun h => hab.subset h, fun h => hba.subset h⟩
  cases a with
  | constant c => exact (eq_constant_of_subset hb hba.subset).symm
  | interval r =>
    cases b with
    | constant d => exact eq_constant_of_subset ha hab.subset
    | interval q =>
      have h1 := contains_interval.mp (hba.subset hb.proper.contains_lo)
      have h2 := contains_interval.mp (hba.subset hb.proper.contains_hi)
      have h3 := contains_interval.mp (hab.subset ha.proper.contains_lo)
      have h4 := contains_interval.mp (hab.subset ha.proper.contains_hi)
      exact congrArg interval
        (congrArg₂ Bounds.mk (le_antisymm h1.1 h3.1) (le_antisymm h4.2 h2.2))
    | disjunction us =>
      exact absurd (hab.enumerated isEnumerated_disjunction) not_isEnumerated_interval
    | top => exact hba.eq_top rfl
  | disjunction vs =>
    cases b with
    | constant d => exact eq_constant_of_subset ha hab.subset
    | interval q => exact absurd (hba.enumerated isEnumerated_disjunction) not_isEnumerated_interval
    | disjunction us =>
      have h : ∀ v, v ∈ vs ↔ v ∈ us := by simpa only [contains_disjunction] using hmem
      exact congrArg disjunction (ha.1.2.1.eq_of_mem_iff hb.1.2.1 h)
    | top => exact hba.eq_top rfl
  | top => exact (hab.eq_top rfl).symm

/-- Bits are ordered by their values. -/
theorem below_of_subset_bit (ha : a.WellFormed limit .bit) (hb : b.WellFormed limit .bit)
    (h : a.toSet (WordType.bit).view ⊆ b.toSet (WordType.bit).view) :
    Below (WordType.bit).view a b := by
  by_cases htop : b = top
  · subst htop
    exact ⟨h, fun hb => absurd hb not_isEnumerated_top, fun _ => rfl⟩
  · obtain ⟨c, rfl⟩ := hb.eq_constant_bit htop
    rw [eq_constant_of_subset ha h]
    exact .refl _ _

/-! ### Joins are least upper bounds -/

/-- A join only lists its values if both shapes do. -/
theorem isEnumerated_of_join (ha : a.WellFormed limit w) (hb : b.WellFormed limit w)
    (h : (a.join w limit b).IsEnumerated) : a.IsEnumerated ∧ b.IsEnumerated := by
  have htop : ¬(a = top ∨ b = top) := by
    intro htop
    rw [join_eq_top ha.proper hb.proper htop] at h
    exact not_isEnumerated_top h
  obtain ⟨hta, htb⟩ := not_or.mp htop
  cases w with
  | bit =>
    obtain ⟨c, rfl⟩ := ha.eq_constant_bit hta
    obtain ⟨d, rfl⟩ := hb.eq_constant_bit htb
    exact ⟨isEnumerated_constant, isEnumerated_constant⟩
  | int t => exact ((isUnion_join ha hb hta htb).enumerated.mp h).1

/-- A join is above both shapes. -/
theorem below_join (ha : a.WellFormed limit w) (hb : b.WellFormed limit w) :
    Below w.view a (a.join w limit b) ∧ Below w.view b (a.join w limit b) := by
  have hcov := (join_spec ha.proper hb.proper).2
  have htop := join_eq_top ha.proper hb.proper
  constructor
  · exact ⟨fun v hv => hcov v (.inl hv), fun h => (isEnumerated_of_join ha hb h).1,
      fun h => htop (.inl h)⟩
  · exact ⟨fun v hv => hcov v (.inr hv), fun h => (isEnumerated_of_join ha hb h).2,
      fun h => htop (.inr h)⟩

/-- A shape that does not list its values is convex. -/
theorem Proper.hull_toSet_eq (h : s.Proper limit w) (hs : ¬s.IsEnumerated) :
    hull (s.toSet w.view) = s.toSet w.view := by
  rw [h.hull_toSet]
  ext v
  exact (contains_iff_mem_bounds fun hd => hs (.inr hd)).symm

/-- A list has at most as many values as items. -/
private theorem ncard_members_le (vs : List ℤ) : {v | v ∈ vs}.ncard ≤ vs.length := by
  have hset : {v | v ∈ vs} = (vs.toFinset : Set ℤ) := by
    ext v
    simp
  rw [hset, Set.ncard_coe_finset]
  exact List.toFinset_card_le vs

/-- A shape that lists its values has few of them. -/
theorem Proper.ncard_toSet_le (h : s.Proper limit w) (hs : s.IsEnumerated) :
    (s.toSet w.view).ncard ≤ max limit 1 := by
  cases s with
  | constant c =>
    have hset : (constant c).toSet w.view = {c} := Set.ext fun v => contains_constant
    rw [hset, Set.ncard_singleton]
    exact le_max_right _ _
  | disjunction vs =>
    have hset : (disjunction vs).toSet w.view = {v | v ∈ vs} :=
      Set.ext fun v => contains_disjunction
    rw [hset]
    exact (ncard_members_le vs).trans (le_max_of_le_left h.2.2.2.2)
  | interval r => exact absurd hs not_isEnumerated_interval
  | top => exact absurd hs not_isEnumerated_top

/-- A join is below all that is above both shapes: a list above both has room for the values of the
join. -/
theorem join_below (ha : a.WellFormed limit w) (hb : b.WellFormed limit w)
    (hc : c.WellFormed limit w) (hac : Below w.view a c) (hbc : Below w.view b c) :
    Below w.view (a.join w limit b) c := by
  have hsub := Set.union_subset hac.subset hbc.subset
  have hjoin := (join_spec ha.proper hb.proper).1
  cases w with
  | bit =>
    rw [← toSet_join_bit ha hb] at hsub
    exact below_of_subset_bit hjoin hc hsub
  | int t =>
    by_cases htop : a = top ∨ b = top
    · rw [join_eq_top ha.proper hb.proper htop, htop.elim hac.eq_top hbc.eq_top]
      exact .refl _ _
    obtain ⟨hta, htb⟩ := not_or.mp htop
    have hunion := isUnion_join ha hb hta htb
    by_cases hce : c.IsEnumerated
    · -- a list above both has room for their values
      have hcard :=
        (Set.ncard_le_ncard hsub hc.proper.toSet_finite).trans (hc.proper.ncard_toSet_le hce)
      have hlisted := hunion.enumerated.mpr ⟨⟨hac.enumerated hce, hbc.enumerated hce⟩, hcard⟩
      exact ⟨(hunion.listed hlisted).trans_subset hsub, fun _ => hlisted,
        fun h => absurd h hunion.ne_top⟩
    · refine ⟨?_, fun h => absurd h hce, fun h => absurd h hunion.ne_top⟩
      have hhull := (hull_mono hsub).trans_eq (hc.proper.hull_toSet_eq hce)
      by_cases hj : (a.join (.int t) limit b).IsEnumerated
      · exact (hunion.listed hj).trans_subset hsub
      · exact (hunion.widened hj).trans_subset hhull

/-! ### Meets are greatest lower bounds -/

/-- How the common values `s` of two shapes are written down. -/
structure MeetKind (a b s : Shape) : Prop where
  /-- They are a top if both shapes are. -/
  eq_top : s = top ↔ a = top ∧ b = top
  /-- They are listed if one of the shapes lists its values. -/
  enumerated : a.IsEnumerated ∨ b.IsEnumerated → s.IsEnumerated
  /-- Otherwise only a single value is. -/
  single : s.IsEnumerated → a.IsEnumerated ∨ b.IsEnumerated ∨ ∃ c, s = constant c

/-- The kind of a meet does not depend on the order. -/
private theorem MeetKind.symm (h : MeetKind a b s) : MeetKind b a s :=
  ⟨h.eq_top.trans and_comm, fun hs => h.enumerated hs.symm, fun hs => or_left_comm.mp (h.single hs)⟩

/-- Of a listed shape, a listed meet is as it should be. -/
private theorem meetKind_of_enumerated (h : a.IsEnumerated ∨ b.IsEnumerated) (hs : s.IsEnumerated) :
    MeetKind a b s := by
  refine ⟨iff_of_false ?_ ?_, fun _ => hs, fun _ => h.imp_right .inl⟩
  · rintro rfl
    exact not_isEnumerated_top hs
  · rintro ⟨rfl, rfl⟩
    exact h.elim not_isEnumerated_top not_isEnumerated_top

/-- At most `limit` values that are kept are listed. -/
theorem isEnumerated_ofKept {vs : List ℤ} (hlen : vs.length ≤ limit)
    (h : ofKept (.int t) limit vs = some s) : s.IsEnumerated := by
  rw [ofKept] at h
  split at h
  · cases h
  · next hne =>
    obtain rfl := Option.some.inj h
    have hnil : vs ≠ [] := by simpa using hne
    exact (isUnion_valuesShape limit t hnil).enumerated.mpr
      ⟨trivial, le_max_of_le_left ((ncard_members_le vs).trans hlen)⟩

/-- What the driving shape finds is a meet of the right kind. -/
private theorem intersect?_kind (ha : a.WellFormed limit w) (hd : a.drives b = true)
    (h : a.intersect? w limit b = some (some s)) : MeetKind a b s := by
  have hrank := of_decide_eq_true hd
  cases a with
  | constant c =>
    cases b with
    | constant d =>
      have h := Option.some.inj h
      split at h <;> cases h
      exact meetKind_of_enumerated (.inl isEnumerated_constant) isEnumerated_constant
    | _ => simp [precision, Precision.rank] at hrank
  | interval r =>
    cases b with
    | constant d =>
      have h := Option.some.inj h
      split at h <;> cases h
      exact meetKind_of_enumerated (.inr isEnumerated_constant) isEnumerated_constant
    | interval q =>
      obtain ⟨p, -, rfl⟩ := Option.map_eq_some_iff.mp (Option.some.inj h)
      cases w with
      | bit => exact absurd rfl ha.1.1
      | int t =>
        have hnot : ¬((interval r).IsEnumerated ∨ (interval q).IsEnumerated) := fun h =>
          h.elim not_isEnumerated_interval not_isEnumerated_interval
        simp only [WordType.rangeShape]
        split
        · exact ⟨by simp, fun h => absurd h hnot, fun _ => .inr (.inr ⟨_, rfl⟩)⟩
        · exact ⟨by simp, fun h => absurd h hnot, fun h => absurd h not_isEnumerated_interval⟩
    | _ => simp [precision, Precision.rank] at hrank
  | disjunction vs =>
    cases w with
    | bit => exact absurd rfl ha.1.1
    | int t =>
      have hlen : ∀ f : ℤ → Bool, (vs.filter f).length ≤ limit := fun f =>
        (List.length_filter_le _ _).trans ha.1.2.2.2.2
      have hkept : ∀ f : ℤ → Bool, ofKept (.int t) limit (vs.filter f) = some s →
          MeetKind (disjunction vs) b s := fun f hf =>
        meetKind_of_enumerated (.inl isEnumerated_disjunction) (isEnumerated_ofKept (hlen f) hf)
      cases b with
      | constant d => exact hkept _ (Option.some.inj h)
      | interval q => exact hkept _ (Option.some.inj h)
      | disjunction us => exact hkept _ (Option.some.inj h)
      | top => simp [precision, Precision.rank] at hrank
  | top =>
    cases h
    exact ⟨by simp, fun h => h.resolve_left not_isEnumerated_top, fun h => .inr (.inl h)⟩

/-- The kinds of two shapes determine that of their meet. -/
theorem meet_kind (ha : a.WellFormed limit w) (hb : b.WellFormed limit w)
    (h : a.meet w limit b = some s) : MeetKind a b s := by
  have hmeet := intersect?_eq_meet ha hb
  rw [h] at hmeet
  split at hmeet
  · next hd => exact intersect?_kind ha hd hmeet
  · next hd => exact (intersect?_kind hb (drives_of_not_drives hd) hmeet).symm

/-- A meet is below both shapes. -/
theorem meet_below (ha : a.WellFormed limit w) (hb : b.WellFormed limit w)
    (h : a.meet w limit b = some s) : Below w.view s a ∧ Below w.view s b := by
  have hkind := meet_kind ha hb h
  have hmem := (meet_eq_some ha hb h).2
  constructor
  · exact ⟨fun v hv => ((hmem v).mp hv).1, fun he => hkind.enumerated (.inl he),
      fun ht => (hkind.eq_top.mp ht).1⟩
  · exact ⟨fun v hv => ((hmem v).mp hv).2, fun he => hkind.enumerated (.inr he),
      fun ht => (hkind.eq_top.mp ht).2⟩

/-- Shapes with a common lower bound have a meet, and the bound is below it. -/
theorem exists_meet_of_below (ha : a.WellFormed limit w) (hb : b.WellFormed limit w)
    (hc : c.WellFormed limit w) (hca : Below w.view c a) (hcb : Below w.view c b) :
    ∃ s, a.meet w limit b = some s ∧ Below w.view c s := by
  cases h : a.meet w limit b with
  | none =>
    have hlo := hc.proper.contains_lo
    exact absurd (hcb.subset hlo) (meet_eq_none ha hb h (hca.subset hlo))
  | some s =>
    have hkind := meet_kind ha hb h
    have hmem := (meet_eq_some ha hb h).2
    have hsub : c.toSet w.view ⊆ s.toSet w.view := fun v hv =>
      (hmem v).mpr ⟨hca.subset hv, hcb.subset hv⟩
    refine ⟨s, rfl, hsub, fun he => ?_, fun ht => hkind.eq_top.mpr ⟨hca.eq_top ht, hcb.eq_top ht⟩⟩
    rcases hkind.single he with he | he | ⟨d, rfl⟩
    · exact hca.enumerated he
    · exact hcb.enumerated he
    · rw [eq_constant_of_subset hc hsub]
      exact isEnumerated_constant

end Shape

/-! ### The lattice of words -/

/-- A well-formed shape of a type. -/
@[ext]
structure WordShape (limit : ℕ) (w : WordType) where
  /-- The shape. -/
  shape : Shape
  /-- It is well formed. -/
  wellFormed : shape.WellFormed limit w

namespace WordShape

variable {limit : ℕ} {w : WordType}

/-- The word of the shape. -/
def toElement (a : WordShape limit w) : Element := .word w a.shape

/-- A word is determined by its element. -/
theorem toElement_injective : Function.Injective (@toElement limit w) := by
  rintro ⟨s, hs⟩ ⟨t, ht⟩ h
  cases h
  rfl

instance : CanLift Element (WordShape limit w) toElement (Element.IsWord limit w) where
  prf := by
    rintro _ ⟨s, rfl, hs⟩
    exact ⟨⟨s, hs⟩, rfl⟩

instance : PartialOrder (WordShape limit w) where
  le a b := a.shape.Below w.view b.shape
  le_refl a := .refl _ a.shape
  le_trans _ _ _ hab hbc := hab.trans hbc
  le_antisymm a b hab hba := WordShape.ext (hab.antisymm a.wellFormed b.wellFormed hba)

instance : SemilatticeSup (WordShape limit w) where
  sup a b := ⟨a.shape.join w limit b.shape,
    (Shape.join_spec a.wellFormed.proper b.wellFormed.proper).1⟩
  le_sup_left a b := (Shape.below_join a.wellFormed b.wellFormed).1
  le_sup_right a b := (Shape.below_join a.wellFormed b.wellFormed).2
  sup_le a b c hac hbc := Shape.join_below a.wellFormed b.wellFormed c.wellFormed hac hbc

/-- The common values of two shapes, and the bottom if there are none. -/
def meet (a b : WordShape limit w) : WithBot (WordShape limit w) :=
  match h : a.shape.meet w limit b.shape with
  | none => ⊥
  | some s => WithBot.some ⟨s, (Shape.meet_eq_some a.wellFormed b.wellFormed h).1⟩

/-- A meet in the order is the meet of the shapes, with a bottom for none. -/
theorem meet_cases (a b : WordShape limit w) :
    (a.shape.meet w limit b.shape = none ∧ a.meet b = ⊥) ∨
      ∃ m : WordShape limit w, a.shape.meet w limit b.shape = some m.shape ∧ a.meet b = m := by
  unfold meet
  split
  · next h => exact .inl ⟨h, rfl⟩
  · next s h => exact .inr ⟨_, h, rfl⟩

/-- A meet is a lower bound. -/
theorem meet_le (a b : WordShape limit w) : a.meet b ≤ a ∧ a.meet b ≤ b := by
  rcases meet_cases a b with ⟨-, h⟩ | ⟨m, hm, h⟩
  · simp [h]
  · rw [h, WithBot.coe_le_coe, WithBot.coe_le_coe]
    exact Shape.meet_below a.wellFormed b.wellFormed hm

/-- It is the greatest one. -/
theorem le_meet {a b c : WordShape limit w} (hca : c ≤ a) (hcb : c ≤ b) : c ≤ a.meet b := by
  obtain ⟨s, hs, hle⟩ :=
    Shape.exists_meet_of_below a.wellFormed b.wellFormed c.wellFormed hca hcb
  rcases meet_cases a b with ⟨hnone, -⟩ | ⟨m, hm, h⟩
  · rw [hs] at hnone
    cases hnone
  · rw [hs] at hm
    obtain rfl := Option.some.inj hm
    rw [h, WithBot.coe_le_coe]
    exact hle

instance : Lattice (WithBot (WordShape limit w)) where
  __ := WithBot.semilatticeSup
  inf
    | (a : WordShape limit w), (b : WordShape limit w) => a.meet b
    | _, _ => ⊥
  inf_le_left p q := by
    cases p <;> cases q
    case coe.coe a b => exact (meet_le a b).1
    all_goals exact bot_le
  inf_le_right p q := by
    cases p <;> cases q
    case coe.coe a b => exact (meet_le a b).2
    all_goals exact bot_le
  le_inf r p q hrp hrq := by
    cases r with
    | bot => exact bot_le
    | coe c =>
      cases p with
      | bot => exact hrp
      | coe a =>
        cases q with
        | bot => exact hrq
        | coe b => exact le_meet (WithBot.coe_le_coe.mp hrp) (WithBot.coe_le_coe.mp hrq)

theorem coe_inf_coe (a b : WordShape limit w) :
    (a : WithBot (WordShape limit w)) ⊓ b = a.meet b := rfl

/-- A shape absorbs its meets. -/
theorem sup_eq_left_of_inf {a b m : WordShape limit w}
    (h : (a : WithBot (WordShape limit w)) ⊓ b = m) : a ⊔ m = a := by
  have habsorb : (a : WithBot (WordShape limit w)) ⊔ a ⊓ b = a := sup_inf_self
  rwa [h, ← WithBot.coe_sup, WithBot.coe_inj] at habsorb

/-! ### Operations of elements in the lattice -/

/-- The element of a shape; the bottom has none. -/
def toElement? : WithBot (WordShape limit w) → Option Element
  | (a : WordShape limit w) => some a.toElement
  | ⊥ => none

/-- The join of elements is the supremum of words. -/
theorem join_toElement (a b : WordShape limit w) :
    a.toElement.join limit b.toElement = .ok (a ⊔ b).toElement :=
  if_pos rfl

/-- The meet of elements is the infimum of words, with no element for the bottom. -/
theorem meet_toElement (a b : WordShape limit w) :
    a.toElement.meet limit b.toElement =
      .ok (toElement? ((a : WithBot (WordShape limit w)) ⊓ b)) := by
  refine (if_pos rfl).trans ?_
  rw [coe_inf_coe]
  rcases meet_cases a b with ⟨hm, h⟩ | ⟨m, hm, h⟩
  · rw [hm, h]
    rfl
  · rw [hm, h]
    rfl

/-- Joining a list of elements one by one gives the supremum of the words. -/
theorem foldlM_toElement (a : WordShape limit w) (as : List (WordShape limit w)) :
    (as.map toElement).foldlM (Element.join limit) a.toElement =
      .ok (as.foldl (· ⊔ ·) a).toElement := by
  induction as generalizing a with
  | nil => rfl
  | cons b as ih =>
    rw [List.map_cons, List.foldlM_cons, join_toElement]
    exact ih (a ⊔ b)

/-- The supremum of a list lies below the upper bounds of the list, and below nothing else. -/
theorem foldl_sup_le {α : Type*} [SemilatticeSup α] {a c : α} {as : List α} :
    as.foldl (· ⊔ ·) a ≤ c ↔ ∀ b ∈ a :: as, b ≤ c := by
  induction as generalizing a with
  | nil => simp
  | cons b as ih =>
    rw [List.foldl_cons, ih]
    simp [and_assoc]

/-- The join of several shapes only depends on which words they are. -/
theorem foldl_sup_eq {a b : WordShape limit w} {as bs : List (WordShape limit w)}
    (h : ∀ e, e ∈ a.toElement :: as.map toElement ↔ e ∈ b.toElement :: bs.map toElement) :
    as.foldl (· ⊔ ·) a = bs.foldl (· ⊔ ·) b := by
  refine eq_of_forall_ge_iff fun c => ?_
  rw [foldl_sup_le, foldl_sup_le]
  refine forall_congr' fun d => imp_congr_left ?_
  have hd := h d.toElement
  rwa [← List.map_cons, ← List.map_cons, List.mem_map_of_injective toElement_injective,
    List.mem_map_of_injective toElement_injective] at hd

end WordShape

namespace Element

variable {limit : ℕ} {w : WordType} {x y z : Element}

/-! ### Words below each other -/

/-- A word is below another one of the same type. -/
inductive Below : Element → Element → Prop
  | word {w : WordType} {a b : Shape} (h : a.Below w.view b) : Below (.word w a) (.word w b)

theorem IsWord.below_self (h : x.IsWord limit w) : x.Below x := by
  obtain ⟨s, rfl, -⟩ := h
  exact .word (.refl _ s)

theorem Below.trans (hxy : x.Below y) (hyz : y.Below z) : x.Below z := by
  cases hxy with
  | word h =>
    cases hyz with
    | word h' => exact .word (h.trans h')

/-- What is below has no more values. -/
theorem Below.subset (h : x.Below y) : x.values ⊆ y.values := by
  cases h with
  | word h => exact h.subset

theorem Below.type_eq (h : x.Below y) : x.type = y.type := by
  cases h
  rfl

/-- A value of a word, as a constant, is below the word. -/
theorem constant_below {s : Shape} {v : ℤ} (h : s.contains w.view v = true) :
    (word w (.constant v)).Below (.word w s) := by
  refine .word (Shape.below_of_isEnumerated (fun u hu => ?_) Shape.isEnumerated_constant)
  rw [Shape.mem_toSet, Shape.contains_constant] at hu
  exact hu ▸ h

/-- The join of two words is below all words above both. -/
theorem join_below {j : Element} (hx : x.IsWord limit w) (hy : y.IsWord limit w)
    (hz : z.IsWord limit w) (hxz : x.Below z) (hyz : y.Below z) (hj : x.join limit y = .ok j) :
    j.Below z := by
  lift x to WordShape limit w using hx
  lift y to WordShape limit w using hy
  lift z to WordShape limit w using hz
  cases (x.join_toElement y).symm.trans hj
  cases hxz with
  | word hxz =>
    cases hyz with
    | word hyz => exact .word (sup_le (a := x) (b := y) (c := z) hxz hyz)

/-- The meet of two words is below the first one. -/
theorem meet_below {m : Element} (hx : x.IsWord limit w) (hy : y.IsWord limit w)
    (hm : x.meet limit y = .ok (some m)) : m.Below x := by
  lift x to WordShape limit w using hx
  lift y to WordShape limit w using hy
  rw [x.meet_toElement y, WordShape.coe_inf_coe] at hm
  rcases WordShape.meet_cases x y with ⟨-, h⟩ | ⟨c, hc, h⟩
  · rw [h] at hm
    cases hm
  · rw [h] at hm
    cases hm
    exact .word (Shape.meet_below x.wellFormed y.wellFormed hc).1

/-! ### The laws of elements -/

/-- The meet of two results of meets; `none`, the bottom, absorbs everything. -/
def meetOrBottom (limit : ℕ) : Option Element → Option Element → Except Fault (Option Element)
  | some x, some y => x.meet limit y
  | _, _ => .ok none

/-- Meets with an absorbing bottom are infima. -/
private theorem meetOrBottom_toElement? (p q : WithBot (WordShape limit w)) :
    meetOrBottom limit (WordShape.toElement? p) (WordShape.toElement? q) =
      .ok (WordShape.toElement? (p ⊓ q)) := by
  cases p with
  | bot => rfl
  | coe a =>
    cases q with
    | bot => rfl
    | coe b => exact a.meet_toElement b

/-- Joins are commutative, associative and idempotent, and so are meets with an absorbing bottom;
each absorbs the other. A join of several words only depends on which words they are. -/
theorem lattice_laws (hx : x.IsWord limit w) (hy : y.IsWord limit w) (hz : z.IsWord limit w) :
    (∃ j, x.join limit y = .ok j ∧ y.join limit x = .ok j) ∧
    (∃ j, (x.join limit y >>= fun xy => xy.join limit z) = .ok j ∧
      (y.join limit z >>= fun yz => x.join limit yz) = .ok j) ∧
    x.join limit x = .ok x ∧
    (∃ m, x.meet limit y = .ok m ∧ y.meet limit x = .ok m) ∧
    (∃ m, (x.meet limit y >>= fun xy => meetOrBottom limit xy (some z)) = .ok m ∧
      (y.meet limit z >>= fun yz => meetOrBottom limit (some x) yz) = .ok m) ∧
    x.meet limit x = .ok (some x) ∧
    (∀ m, x.meet limit y = .ok (some m) → x.join limit m = .ok x) ∧
    (∃ j, x.join limit y = .ok j ∧ x.meet limit j = .ok (some x)) ∧
    ∀ xs ys : List Element, (∀ e ∈ xs, e.IsWord limit w) → (∀ e ∈ ys, e.IsWord limit w) →
      (∀ e, e ∈ x :: xs ↔ e ∈ y :: ys) →
        ∃ j, xs.foldlM (join limit) x = .ok j ∧ ys.foldlM (join limit) y = .ok j := by
  lift x to WordShape limit w using hx
  lift y to WordShape limit w using hy
  lift z to WordShape limit w using hz
  refine ⟨⟨_, x.join_toElement y, ?_⟩, ⟨(x ⊔ y ⊔ z).toElement, ?_, ?_⟩, ?_,
    ⟨_, x.meet_toElement y, ?_⟩,
    ⟨WordShape.toElement? ((x : WithBot (WordShape limit w)) ⊓ y ⊓ z), ?_, ?_⟩, ?_, ?_,
    ⟨_, x.join_toElement y, ?_⟩, ?_⟩
  · rw [y.join_toElement x, sup_comm]
  · rw [x.join_toElement y]
    exact (x ⊔ y).join_toElement z
  · rw [y.join_toElement z, sup_assoc]
    exact x.join_toElement (y ⊔ z)
  · rw [x.join_toElement x, sup_idem]
  · rw [y.meet_toElement x, inf_comm]
  · rw [x.meet_toElement y]
    exact meetOrBottom_toElement? _ (z : WithBot (WordShape limit w))
  · rw [y.meet_toElement z, inf_assoc]
    exact meetOrBottom_toElement? (x : WithBot (WordShape limit w)) _
  · rw [x.meet_toElement x, inf_idem]
    rfl
  · intro m hm
    rw [x.meet_toElement y] at hm
    cases hp : (x : WithBot (WordShape limit w)) ⊓ y with
    | bot =>
      rw [hp] at hm
      cases hm
    | coe c =>
      rw [hp] at hm
      cases hm
      rw [x.join_toElement c, WordShape.sup_eq_left_of_inf hp]
  · rw [x.meet_toElement (x ⊔ y), WithBot.coe_sup, inf_sup_self]
    rfl
  · intro xs ys hxs hys h
    lift xs to List (WordShape limit w) using hxs
    lift ys to List (WordShape limit w) using hys
    refine ⟨_, x.foldlM_toElement xs, ?_⟩
    rw [y.foldlM_toElement ys, WordShape.foldl_sup_eq h]

/-- Five values of three words, one more than a list may have: the order decides when the join is
widened, and not to what. -/
theorem lattice_laws_widened :
    let t : IntType := ⟨4, true, by decide, by decide⟩
    let x : Element := .word (.int t) (.constant 1)
    let y : Element := .word (.int t) (.disjunction [-2, 4])
    let z : Element := .word (.int t) (.disjunction [3, 7])
    x.IsWord 4 (.int t) ∧ y.IsWord 4 (.int t) ∧ z.IsWord 4 (.int t) ∧
      (∃ j, (x.join 4 y >>= fun xy => xy.join 4 z) = .ok j ∧
        (y.join 4 z >>= fun yz => x.join 4 yz) = .ok j) ∧
      ∃ j, [y, z].foldlM (join 4) x = .ok j ∧ [z, x].foldlM (join 4) y = .ok j := by
  intro t x y z
  have hx : x.IsWord 4 (.int t) := by decide
  have hy : y.IsWord 4 (.int t) := by decide
  have hz : z.IsWord 4 (.int t) := by decide
  obtain ⟨-, hassoc, -, -, -, -, -, -, hlist⟩ := lattice_laws hx hy hz
  refine ⟨hx, hy, hz, hassoc, hlist [y, z] [z, x] ?_ ?_ ?_⟩
  · simp [hy, hz]
  · simp [hx, hz]
  · exact fun e => (@List.perm_append_comm _ [x] [y, z]).mem_iff

end Element

end ScalarDomain
