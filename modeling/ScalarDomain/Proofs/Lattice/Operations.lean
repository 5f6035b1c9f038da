import ScalarDomain.Proofs.Lattice

/-!
# Lattice operations are set operations

Containment, meet and join of well-formed words of one type, in terms of their values. Containment
is inclusion and the meet is the intersection. The join is the union as long as both words list
their values and there are few enough of them together, and else the convex hull of the union; a top
absorbs everything. In each case the operand of higher rank carries the operation out by itself, and
what it builds passes the checks of the constructors.
-/

namespace ScalarDomain

/-! ### Convex hulls -/

/-- The integers between two members of a set. -/
def hull (S : Set ℤ) : Set ℤ :=
  {v | ∃ a ∈ S, ∃ b ∈ S, a ≤ v ∧ v ≤ b}

section

variable {S T : Set ℤ}

theorem subset_hull (S : Set ℤ) : S ⊆ hull S :=
  fun v hv => ⟨v, hv, v, hv, le_rfl, le_rfl⟩

theorem hull_mono (h : S ⊆ T) : hull S ⊆ hull T :=
  fun _ ⟨a, ha, b, hb, hv⟩ => ⟨a, h ha, b, h hb, hv⟩

/-- A hull has no gaps left to fill. -/
theorem hull_hull (S : Set ℤ) : hull (hull S) = hull S := by
  refine (Set.Subset.antisymm ?_ (subset_hull _))
  rintro v ⟨a, ⟨a', ha', -, -, ha, -⟩, b, ⟨-, -, b', hb', -, hb⟩, hav, hvb⟩
  exact ⟨a', ha', b', hb', ha.trans hav, hvb.trans hb⟩

/-- The hull of a union only depends on the hulls. -/
theorem hull_union_hull (S T : Set ℤ) : hull (hull S ∪ hull T) = hull (S ∪ T) := by
  refine Set.Subset.antisymm ?_ (hull_mono (Set.union_subset_union (subset_hull S) (subset_hull T)))
  refine (hull_mono ?_).trans (hull_hull _).subset
  exact Set.union_subset (hull_mono Set.subset_union_left) (hull_mono Set.subset_union_right)

/-- The hull of a set with a least and a greatest member. -/
theorem hull_eq_Icc {lo hi : ℤ} (hlo : lo ∈ S) (hhi : hi ∈ S) (h : S ⊆ Set.Icc lo hi) :
    hull S = Set.Icc lo hi := by
  ext v
  constructor
  · rintro ⟨a, ha, b, hb, hav, hvb⟩
    exact ⟨(h ha).1.trans hav, hvb.trans (h hb).2⟩
  · rintro ⟨h1, h2⟩
    exact ⟨lo, hlo, hi, hhi, h1, h2⟩

/-- At most one value has no gaps. -/
theorem hull_of_subsingleton (h : S.Subsingleton) : hull S = S := by
  refine Set.Subset.antisymm ?_ (subset_hull S)
  rintro v ⟨a, ha, b, hb, hav, hvb⟩
  obtain rfl : a = b := h ha hb
  rwa [le_antisymm hvb hav]

/-- The hull of two intervals that are not empty goes from the smaller lower to the larger upper
end. -/
theorem hull_union_Icc {a b c d : ℤ} (hab : a ≤ b) (hcd : c ≤ d) :
    hull (Set.Icc a b ∪ Set.Icc c d) = Set.Icc (min a c) (max b d) := by
  refine hull_eq_Icc ?_ ?_ ?_
  · rcases min_choice a c with h | h <;> rw [h]
    · exact .inl ⟨le_rfl, hab⟩
    · exact .inr ⟨le_rfl, hcd⟩
  · rcases max_choice b d with h | h <;> rw [h]
    · exact .inl ⟨hab, le_rfl⟩
    · exact .inr ⟨hcd, le_rfl⟩
  · rintro v (⟨h1, h2⟩ | ⟨h1, h2⟩)
    · exact ⟨min_le_of_left_le h1, le_max_of_le_left h2⟩
    · exact ⟨min_le_of_right_le h1, le_max_of_le_right h2⟩

end

namespace Shape

variable {limit : ℕ} {w : WordType} {t : IntType} {a b s : Shape} {v : ℤ}

/-- The values of a shape. -/
def toSet (t : IntType) (s : Shape) : Set ℤ :=
  {v | s.contains t v = true}

@[simp] theorem mem_toSet : v ∈ s.toSet t ↔ s.contains t v = true := Iff.rfl

/-- The hull of the values lies between the ends. -/
theorem Proper.hull_toSet (h : s.Proper limit w) :
    hull (s.toSet w.view) = Set.Icc (s.bounds w.view).lo (s.bounds w.view).hi :=
  hull_eq_Icc h.contains_lo h.contains_hi fun _ hv => h.mem_bounds hv

/-- Every word has finitely many values. -/
theorem Proper.toSet_finite (h : s.Proper limit w) : (s.toSet w.view).Finite :=
  (Set.finite_Icc _ _).subset fun _ hv => h.mem_bounds hv

/-! ### Containment -/

/-- A convex shape holds another one when it holds its ends. -/
theorem toSet_subset_interval {r : Range} (hb : b.Proper limit w) :
    b.toSet w.view ⊆ (interval r).toSet w.view ↔
      r.lo ≤ (b.bounds w.view).lo ∧ (b.bounds w.view).hi ≤ r.hi := by
  constructor
  · intro h
    have hlo := contains_interval.mp (h hb.contains_lo)
    have hhi := contains_interval.mp (h hb.contains_hi)
    exact ⟨hlo.1, hhi.2⟩
  · rintro ⟨hlo, hhi⟩ v hv
    obtain ⟨h1, h2⟩ := hb.mem_bounds hv
    exact contains_interval.mpr ⟨hlo.trans h1, h2.trans hhi⟩

/-- A list covers a range when it has as many values in it as there are integers. -/
private theorem length_filter_eq_iff {vs : List ℤ} {q : Range} (hvs : vs.Pairwise (· < ·))
    (hq : q.lo ≤ q.hi) :
    ((vs.filter q.contains).length : ℤ) = q.hi - q.lo + 1 ↔ ∀ v ∈ q, v ∈ vs := by
  have hnodup : (vs.filter q.contains).Nodup := (hvs.imp ne_of_lt).filter _
  have hcard : ((Finset.Icc q.lo q.hi).card : ℤ) = q.hi - q.lo + 1 := by
    rw [Int.card_Icc]
    omega
  have hsub : (vs.filter q.contains).toFinset ⊆ Finset.Icc q.lo q.hi := by
    intro v hv
    simp only [List.mem_toFinset, List.mem_filter, Bounds.contains_iff] at hv
    exact Finset.mem_Icc.mpr hv.2
  rw [← hcard, ← List.toFinset_card_of_nodup hnodup, Nat.cast_inj]
  constructor
  · intro h v hv
    have hmem : v ∈ (vs.filter q.contains).toFinset := by
      rw [Finset.eq_of_subset_of_card_le hsub h.ge]
      exact Finset.mem_Icc.mpr hv
    exact List.mem_of_mem_filter (List.mem_toFinset.mp hmem)
  · intro h
    congr 1
    refine hsub.antisymm fun v hv => ?_
    have hv := Finset.mem_Icc.mp hv
    simp only [List.mem_toFinset, List.mem_filter, Bounds.contains_iff]
    exact ⟨h v hv, hv⟩

/-- A list of values of a range covers it when there are as many of them as integers in the
range. -/
theorem length_eq_iff_covers {vs : List ℤ} {q : Range} (hvs : vs.Pairwise (· < ·))
    (hq : q.lo ≤ q.hi) (hmem : ∀ v ∈ vs, v ∈ q) :
    (vs.length : ℤ) = q.hi - q.lo + 1 ↔ ∀ v ∈ q, v ∈ vs := by
  have hfilter : vs.filter q.contains = vs :=
    List.filter_eq_self.mpr fun v hv => Bounds.contains_iff.mpr (hmem v hv)
  rw [← length_filter_eq_iff hvs hq, hfilter]

/-- A shape that is no constant has two distinct ends. -/
theorem WellFormed.lo_lt_hi (h : s.WellFormed limit w) (hs : s.precision ≠ .constant) :
    (s.bounds w.view).lo < (s.bounds w.view).hi := by
  cases s with
  | constant c => exact absurd rfl hs
  | interval r => exact h.2 r rfl
  | disjunction vs =>
    obtain ⟨-, hsorted, -, hlen, -⟩ := h.1
    rcases vs with _ | ⟨a, _ | ⟨b, rest⟩⟩
    · simp at hlen
    · simp at hlen
    · have hends := ends_of_sorted hsorted (by simp)
      have hab : a < b := (List.pairwise_cons.mp hsorted).1 b (by simp)
      exact hab.trans_le (hends.2.2 b (by simp)).2
  | top => exact w.view.minValue_lt_maxValue

/-- A constant holds no shape with two values. -/
theorem WellFormed.not_subset_constant {c : ℤ} (h : s.WellFormed limit w)
    (hs : s.precision ≠ .constant) : ¬s.toSet w.view ⊆ (constant c).toSet w.view := by
  intro hsub
  have hlo := contains_constant.mp (hsub h.proper.contains_lo)
  have hhi := contains_constant.mp (hsub h.proper.contains_hi)
  exact (h.lo_lt_hi hs).ne (hlo.trans hhi.symm)

/-- The answer of a shape about one of no higher rank. -/
theorem contain?_spec (ha : a.WellFormed limit w) (hb : b.WellFormed limit w)
    (hd : a.drives b = true) :
    ∃ c, a.contain? w.view b = some c ∧ (c = true ↔ b.toSet w.view ⊆ a.toSet w.view) := by
  have hrank := of_decide_eq_true hd
  cases a with
  | constant c =>
    cases b with
    | constant d =>
      refine ⟨_, rfl, ?_⟩
      rw [beq_iff_eq]
      constructor
      · rintro rfl
        exact subset_rfl
      · intro h
        exact (contains_constant.mp (h (contains_constant.mpr rfl))).symm
    | _ => simp [precision, Precision.rank] at hrank
  | interval r =>
    cases b with
    | constant d =>
      refine ⟨_, rfl, ?_⟩
      rw [toSet_subset_interval hb.1, Bool.and_eq_true, decide_eq_true_eq, decide_eq_true_eq]
    | interval q =>
      refine ⟨_, rfl, ?_⟩
      rw [toSet_subset_interval hb.1, Bool.and_eq_true, decide_eq_true_eq, decide_eq_true_eq]
    | _ => simp [precision, Precision.rank] at hrank
  | disjunction vs =>
    cases b with
    | constant d =>
      refine ⟨_, rfl, ?_⟩
      rw [List.contains_iff_mem]
      constructor
      · intro h v hv
        rw [contains_constant.mp hv]
        exact contains_disjunction.mpr h
      · intro h
        exact contains_disjunction.mp (h (contains_constant.mpr rfl))
    | interval q =>
      refine ⟨_, rfl, ?_⟩
      rw [beq_iff_eq, length_filter_eq_iff ha.1.2.1 hb.1.2.le]
      constructor
      · intro h v hv
        exact contains_disjunction.mpr (h v (contains_interval.mp hv))
      · intro h v hv
        exact contains_disjunction.mp (h (contains_interval.mpr hv))
    | disjunction us =>
      refine ⟨_, rfl, ?_⟩
      rw [List.all_eq_true]
      constructor
      · intro h v hv
        exact contains_disjunction.mpr (List.contains_iff_mem.mp (h v (contains_disjunction.mp hv)))
      · intro h v hv
        exact List.contains_iff_mem.mpr (contains_disjunction.mp (h (contains_disjunction.mpr hv)))
    | _ => simp [precision, Precision.rank] at hrank
  | top =>
    refine ⟨true, rfl, ?_⟩
    simp only [true_iff]
    exact fun v hv => contains_top.mpr (hb.1.contains hv)

/-- A shape is exhaustive when it holds every value of its type. -/
theorem isExhaustive_iff (ha : a.WellFormed limit w) :
    a.isExhaustive w.view = true ↔ top.toSet w.view ⊆ a.toSet w.view := by
  have htop : (top : Shape).WellFormed limit w := wellFormed_top
  cases a with
  | constant c =>
    exact iff_of_false Bool.false_ne_true (htop.not_subset_constant (by simp [precision]))
  | interval r =>
    have hr := ha.1.2.bounds
    rw [toSet_subset_interval htop.proper, isExhaustive, Bool.and_eq_true, beq_iff_eq, beq_iff_eq]
    change _ ↔ r.lo ≤ w.view.minValue ∧ w.view.maxValue ≤ r.hi
    omega
  | disjunction vs =>
    rw [isExhaustive, beq_iff_eq, w.view.modulus_eq]
    refine (length_eq_iff_covers (q := w.view.full) ha.1.2.1 w.view.minValue_lt_maxValue.le
      fun v hv => Bounds.mem_full.mpr (ha.1.2.2.1 v hv)).trans ?_
    constructor
    · intro h v hv
      exact contains_disjunction.mpr (h v (Bounds.mem_full.mpr (contains_top.mp hv)))
    · intro h v hv
      exact contains_disjunction.mp (h (contains_top.mpr (Bounds.mem_full.mp hv)))
  | top => exact iff_of_true rfl subset_rfl

/-- The answer of a shape about whether one of lower rank holds it. -/
theorem containTo?_spec (ha : a.WellFormed limit w) (hb : b.WellFormed limit w)
    (hd : ¬a.drives b = true) (htop : b ≠ top) :
    ∃ c, b.containTo? a = some c ∧ (c = true ↔ b.toSet w.view ⊆ a.toSet w.view) := by
  have hrank : a.precision.rank < b.precision.rank := by
    simpa [drives] using hd
  cases b with
  | constant d => cases a <;> simp [precision, Precision.rank] at hrank
  | interval q =>
    cases a with
    | constant c =>
      refine ⟨_, rfl, iff_of_false ?_ ?_⟩
      · have := hb.2 q rfl
        simp [this.ne]
      · exact hb.not_subset_constant (by simp [precision])
    | _ => simp [precision, Precision.rank] at hrank
  | disjunction vs =>
    cases a with
    | constant c =>
      exact ⟨_, rfl, iff_of_false Bool.false_ne_true (hb.not_subset_constant (by simp [precision]))⟩
    | interval r =>
      refine ⟨_, rfl, ?_⟩
      rw [List.all_eq_true]
      constructor
      · intro h v hv
        exact contains_interval.mpr (Bounds.contains_iff.mp (h v (contains_disjunction.mp hv)))
      · intro h v hv
        exact Bounds.contains_iff.mpr (contains_interval.mp (h (contains_disjunction.mpr hv)))
    | _ => simp [precision, Precision.rank] at hrank
  | top => exact absurd rfl htop

/-- Containment of shapes is inclusion of their values. -/
theorem covers_iff (ha : a.WellFormed limit w) (hb : b.WellFormed limit w) :
    a.covers w b = true ↔ b.toSet w.view ⊆ a.toSet w.view := by
  unfold covers
  split
  · next hd =>
    obtain ⟨c, hc, h⟩ := contain?_spec ha hb hd
    rw [hc, Option.getD_some, h]
  · next hd =>
    split
    · exact isExhaustive_iff ha
    · next htop =>
      obtain ⟨c, hc, h⟩ := containTo?_spec ha hb hd htop
      rw [hc, Option.getD_some, h]

/-! ### Joins -/

/-- The shape of a union of values `V` of an integer type: when all of them come from lists, which
is what `L` says, and they are few enough, they are listed; else they are widened to their hull. -/
structure IsUnion (limit : ℕ) (t : IntType) (L : Prop) (V : Set ℤ) (s : Shape) : Prop where
  /-- It is no top. -/
  ne_top : s ≠ top
  /-- When the values are listed. -/
  enumerated : s.IsEnumerated ↔ L ∧ V.ncard ≤ max limit 1
  /-- Listed values are not widened. -/
  listed : s.IsEnumerated → s.toSet t = V
  /-- Other values are. -/
  widened : ¬s.IsEnumerated → s.toSet t = hull V

/-- At most `limit` listed values are kept; more of them, and values that are not listed, are
widened to their hull. -/
theorem IsUnion.toSet_eq {L : Prop} {V : Set ℤ} (h : IsUnion limit t L V s) (hV : V.Finite) :
    (L ∧ V.ncard ≤ limit → s.toSet t = V) ∧ (¬(L ∧ V.ncard ≤ limit) → s.toSet t = hull V) := by
  constructor
  · rintro ⟨hL, hcard⟩
    exact h.listed (h.enumerated.mpr ⟨hL, le_max_of_le_left hcard⟩)
  · intro hnot
    by_cases hs : s.IsEnumerated
    · -- one value is its own hull, even if the limit is zero
      obtain ⟨hL, hcard⟩ := h.enumerated.mp hs
      have hone : V.ncard ≤ 1 := by
        have : ¬V.ncard ≤ limit := fun hle => hnot ⟨hL, hle⟩
        omega
      have hsub : V.Subsingleton := fun a ha b hb => (Set.ncard_le_one hV).mp hone a ha b hb
      rw [hull_of_subsingleton hsub, h.listed hs]
    · exact h.widened hs

/-- The shape of listed values of an integer type. -/
theorem isUnion_valuesShape (limit : ℕ) (t : IntType) {vs : List ℤ} (hne : vs ≠ []) :
    IsUnion limit t True {v | v ∈ vs} ((WordType.int t).valuesShape limit vs) := by
  have hcard : {v | v ∈ vs}.ncard = (WordType.normalize vs).length := by
    have hnodup := (WordType.pairwise_normalize vs).imp ne_of_lt
    rw [← List.toFinset_card_of_nodup hnodup, ← Set.ncard_coe_finset]
    congr 1
    ext v
    simp
  obtain ⟨hlo, hhi, hall⟩ := WordType.ends_normalize hne
  simp only [WordType.valuesShape]
  split
  · next hlen =>
    refine ⟨by simp, ?_, fun _ => ?_, fun h => absurd isEnumerated_disjunction h⟩
    · exact iff_of_true isEnumerated_disjunction ⟨trivial, by omega⟩
    · ext v
      simp
  next hlen =>
  simp only [WordType.rangeShape]
  split
  · next heq =>
    have hset : {v | v ∈ vs} = {(WordType.normalize vs).head?.getD 0} := by
      ext v
      refine ⟨fun hv => le_antisymm ((hall v hv).2.trans heq.ge) (hall v hv).1, ?_⟩
      rintro rfl
      exact hlo
    rw [hset]
    refine ⟨by simp, ?_, fun _ => ?_, fun h => absurd isEnumerated_constant h⟩
    · exact iff_of_true isEnumerated_constant ⟨trivial, by simp⟩
    · ext v
      exact contains_constant
  · next hends =>
    have htwo : 1 < {v | v ∈ vs}.ncard :=
      (Set.one_lt_ncard vs.finite_toSet).mpr ⟨_, hlo, _, hhi, hends⟩
    refine ⟨by simp, ?_, fun h => absurd h not_isEnumerated_interval, fun _ => ?_⟩
    · exact iff_of_false not_isEnumerated_interval (by omega)
    · rw [hull_eq_Icc (S := {v | v ∈ vs}) hlo hhi hall]
      ext v
      exact contains_interval

/-- The join of two shapes of an integer type that are no tops is the shape of their union. -/
theorem isUnion_join {t : IntType} (ha : a.WellFormed limit (.int t))
    (hb : b.WellFormed limit (.int t)) (hta : a ≠ top) (htb : b ≠ top) :
    IsUnion limit t (a.IsEnumerated ∧ b.IsEnumerated) (a.toSet t ∪ b.toSet t)
      (a.join (.int t) limit b) := by
  rcases join_cases ha.proper hb.proper with
    ⟨hea, heb, vs, hvs, h⟩ | ⟨htop, -⟩ | ⟨-, -, hne, r, hlo, hhi, h⟩
  · have hset : {v | v ∈ vs} = a.toSet t ∪ b.toSet t := by
      ext v
      exact hvs v
    have hunion := isUnion_valuesShape limit t
      (List.ne_nil_of_mem ((hvs _).mpr (.inl ha.proper.contains_lo)))
    rw [hset, ← h] at hunion
    refine { hunion with enumerated := hunion.enumerated.trans ?_ }
    exact and_congr_left fun _ => iff_of_true trivial ⟨hea, heb⟩
  · exact (htop.elim hta htb).elim
  · have hends : r.lo < r.hi := by
      have ha' := ha.proper.bounds.le
      have hb' := hb.proper.bounds.le
      rcases not_and_or.mp hne with he | he
      · have := ha.lo_lt_hi fun h => he (.inl h)
        omega
      · have := hb.lo_lt_hi fun h => he (.inl h)
        omega
    have hshape : a.join (.int t) limit b = interval r := by
      rw [h, WordType.rangeShape, if_neg hends.ne]
    rw [hshape]
    refine ⟨by simp, ?_, fun h => absurd h not_isEnumerated_interval, fun _ => ?_⟩
    · exact iff_of_false not_isEnumerated_interval fun h => hne h.1
    · have hhull : hull (a.toSet t ∪ b.toSet t) = Set.Icc r.lo r.hi := by
        have hha : hull (a.toSet t) = _ := ha.proper.hull_toSet
        have hhb : hull (b.toSet t) = _ := hb.proper.hull_toSet
        rw [← hull_union_hull, hha, hhb,
          hull_union_Icc ha.proper.bounds.le hb.proper.bounds.le, hlo, hhi]
      rw [hhull]
      ext v
      exact contains_interval

/-- A top absorbs every shape. -/
theorem join_eq_top (ha : a.Proper limit w) (hb : b.Proper limit w) (h : a = top ∨ b = top) :
    a.join w limit b = top := by
  rcases join_cases ha hb with ⟨hea, heb, -⟩ | ⟨-, hj⟩ | ⟨hta, htb, -⟩
  · rcases h with rfl | rfl
    · exact absurd hea not_isEnumerated_top
    · exact absurd heb not_isEnumerated_top
  · exact hj
  · exact (h.elim hta htb).elim

/-- Only a top has the precision of a top. -/
theorem precision_eq_top : s.precision = .top ↔ s = top := by
  cases s <;> simp [precision]

/-- A bit is one value or a top. -/
theorem WellFormed.eq_constant_bit (h : s.WellFormed limit .bit) (htop : s ≠ top) :
    ∃ c, s = constant c := by
  cases s with
  | constant c => exact ⟨c, rfl⟩
  | interval r => exact absurd rfl h.1.1
  | disjunction vs => exact absurd rfl h.1.1
  | top => exact absurd rfl htop

/-- The join of two bits is their union. -/
theorem toSet_join_bit (ha : a.WellFormed limit .bit) (hb : b.WellFormed limit .bit) :
    (a.join .bit limit b).toSet (WordType.bit).view =
      a.toSet (WordType.bit).view ∪ b.toSet (WordType.bit).view := by
  obtain ⟨hj, hcov⟩ := join_spec ha.proper hb.proper
  refine Set.Subset.antisymm (fun v hv => ?_) hcov
  rcases join_cases ha.proper hb.proper with
    ⟨-, -, vs, hvs, h⟩ | ⟨htop, -⟩ | ⟨hta, htb, hne, -⟩
  · have hmem : ∀ v ∈ vs, (WordType.bit).view.contains v = true := fun v hv =>
      ((hvs v).mp hv).elim ha.proper.contains hb.proper.contains
    have hnil := List.ne_nil_of_mem ((hvs _).mpr (.inl ha.proper.contains_lo))
    rw [h] at hv
    exact (hvs v).mp ((WordType.contains_valuesShape hnil hmem (.inl rfl)).mp hv)
  · have hfull : v ∈ top.toSet (WordType.bit).view := contains_top.mpr (hj.proper.contains hv)
    rcases htop with rfl | rfl
    · exact .inl hfull
    · exact .inr hfull
  · obtain ⟨c, rfl⟩ := ha.eq_constant_bit hta
    obtain ⟨d, rfl⟩ := hb.eq_constant_bit htb
    exact absurd ⟨isEnumerated_constant, isEnumerated_constant⟩ hne

end Shape

namespace Element

variable {limit : ℕ} {w : WordType} {s t : Shape} {x y : Element}

/-! ### The operand that carries out an operation -/

/-- Whether the first element carries out an operation on two elements. -/
def drives (x y : Element) : Bool :=
  decide (y.precision.rank ≤ x.precision.rank)

theorem comparable_self (w : WordType) : w.comparable w = true := by
  cases w <;> rfl

/-- A word builds the union that its shape builds. -/
theorem merge?_word {r : Shape} (h : s.merge? w limit t = some r) (hr : r.WellFormed limit w) :
    (word w s).merge? limit (word w t) = .ok (some (word w r)) := by
  have hcheck := checkedWord_eq_ok hr
  cases s with
  | constant c =>
    by_cases hc : Shape.constant c = t
    · subst hc
      cases h
      simp [merge?, comparable_self, Shape.precision]
    · simp [merge?, comparable_self, h, hcheck, hc, Except.map]
  | top =>
    cases h
    rfl
  | _ => simp [merge?, comparable_self, h, hcheck, Shape.precision, Except.map]

/-- A word finds the common values that its shape finds. -/
theorem intersect?_word {o : Option Shape} (h : s.intersect? w limit t = some o)
    (ho : ∀ r ∈ o, r.WellFormed limit w) :
    (word w s).intersect? limit (word w t) = .ok (some (o.map (word w))) := by
  have hcheck : ∀ r ∈ o, checkedWord w r = .ok (word w r) := fun r hr => checkedWord_eq_ok (ho r hr)
  cases s with
  | constant c =>
    cases t with
    | constant d =>
      obtain rfl := Option.some.inj h
      by_cases hc : c = d <;> simp [intersect?, Shape.intersect?, comparable_self, hc]
    | _ => cases h
  | interval r =>
    cases t with
    | constant d =>
      obtain rfl := Option.some.inj h
      by_cases hd : r.contains d = true <;> simp [intersect?, Shape.intersect?, comparable_self, hd]
    | top =>
      cases h
      rfl
    | _ => cases o <;> simp_all [intersect?, comparable_self, Except.map]
  | disjunction vs =>
    cases o with
    | none => simp [intersect?, comparable_self, h]
    | some q => cases q <;> cases t <;> simp_all [intersect?, comparable_self, Except.map]
  | top =>
    cases h
    rfl

/-- A word answers about another one as its shape does. -/
theorem contain?_word {c : Bool} (h : s.contain? w.view t = some c) :
    (word w s).contain? (word w t) = some c := by
  cases s with
  | top =>
    cases h
    rfl
  | interval r =>
    cases t with
    | top => cases h
    | _ => simpa [contain?, comparable_self] using h
  | _ => simpa [contain?, comparable_self] using h

/-- A word that is no top answers a containment as its shape does. -/
theorem containTo?_word {c : Bool} (hs : s ≠ .top) (h : s.containTo? t = some c) :
    (word w s).containTo? (word w t) = some c := by
  cases s with
  | top => exact absurd rfl hs
  | _ => simpa [containTo?, comparable_self] using h

/-- Containment of words is inclusion of their values. -/
theorem contain?_words (hx : x.IsWord limit w) (hy : y.IsWord limit w) :
    ∃ c, x.contains y = .ok c ∧ (if x.drives y then x.contain? y else y.containTo? x) = some c ∧
      (c = true ↔ y.values ⊆ x.values) := by
  obtain ⟨s, rfl, hs⟩ := hx
  obtain ⟨t, rfl, ht⟩ := hy
  refine ⟨s.covers w t, if_pos rfl, ?_, Shape.covers_iff hs ht⟩
  change (if s.drives t then _ else _) = _
  unfold Shape.covers
  split
  · next hd =>
    obtain ⟨c, hc, -⟩ := Shape.contain?_spec hs ht hd
    rw [contain?_word hc, hc, Option.getD_some]
  · next hd =>
    split
    · rfl
    · next htop =>
      obtain ⟨c, hc, -⟩ := Shape.containTo?_spec hs ht hd htop
      rw [containTo?_word htop hc, hc, Option.getD_some]

/-- The meet of words is the intersection of their values, if there is a common one. -/
theorem intersect?_words (hx : x.IsWord limit w) (hy : y.IsWord limit w) :
    ∃ m, x.meet limit y = .ok m ∧
      (if x.drives y then x.intersect? limit y else y.intersect? limit x) = .ok (some m) ∧
      (m = none ↔ Disjoint x.values y.values) ∧
      ∀ z, m = some z → z.IsWord limit w ∧ z.values = x.values ∩ y.values := by
  obtain ⟨s, rfl, hs⟩ := hx
  obtain ⟨t, rfl, ht⟩ := hy
  have hmeet := Shape.intersect?_eq_meet hs ht
  have hwf : ∀ r ∈ s.meet w limit t, r.WellFormed limit w := fun r hr =>
    (Shape.meet_eq_some hs ht hr).1
  refine ⟨_, if_pos rfl, ?_, ?_, ?_⟩
  · change (if s.drives t then _ else _) = _
    split at hmeet
    · next hd =>
      rw [if_pos hd]
      exact intersect?_word hmeet hwf
    · next hd =>
      rw [if_neg hd]
      exact intersect?_word hmeet hwf
  · rw [Option.map_eq_none_iff, Set.disjoint_left]
    constructor
    · intro h v hv
      exact Shape.meet_eq_none hs ht h hv
    · intro h
      by_contra hne
      obtain ⟨r, hr⟩ := Option.ne_none_iff_exists'.mp hne
      obtain ⟨hrwf, hmem⟩ := Shape.meet_eq_some hs ht hr
      obtain ⟨h1, h2⟩ := (hmem _).mp hrwf.proper.contains_lo
      exact h h1 h2
  · intro z hz
    obtain ⟨r, hr, rfl⟩ := Option.map_eq_some_iff.mp hz
    obtain ⟨hrwf, hmem⟩ := Shape.meet_eq_some hs ht hr
    exact ⟨isWord_word hrwf, Set.ext hmem⟩

/-- The values of the element are listed one by one. -/
def IsEnumerated (x : Element) : Prop :=
  x.precision = .constant ∨ x.precision = .disjunction

/-- The join of words is a top if one of them is, and else the union of their values, or its hull if
the values of integers are not listed or too many. -/
theorem merge?_words (hx : x.IsWord limit w) (hy : y.IsWord limit w) :
    ∃ j, x.join limit y = .ok j ∧
      (if x.drives y then x.merge? limit y else y.merge? limit x) = .ok (some j) ∧
      j.IsWord limit w ∧
      (x.precision = .top ∨ y.precision = .top → j = .word w .top) ∧
      (x.precision ≠ .top → y.precision ≠ .top →
        (w = .bit ∨ (x.IsEnumerated ∧ y.IsEnumerated) ∧ (x.values ∪ y.values).ncard ≤ limit →
          j.values = x.values ∪ y.values) ∧
        (¬(w = .bit ∨ (x.IsEnumerated ∧ y.IsEnumerated) ∧
            (x.values ∪ y.values).ncard ≤ limit) →
          j.values = hull (x.values ∪ y.values))) := by
  obtain ⟨s, rfl, hs⟩ := hx
  obtain ⟨t, rfl, ht⟩ := hy
  have hmerge := Shape.merge?_eq_join hs.proper ht.proper
  have hjoin := (Shape.join_spec hs.proper ht.proper).1
  refine ⟨_, if_pos rfl, ?_, isWord_word hjoin, ?_, fun hsp htp => ?_⟩
  · change (if s.drives t then _ else _) = _
    split at hmerge
    · next hd =>
      rw [if_pos hd]
      exact merge?_word hmerge hjoin
    · next hd =>
      rw [if_neg hd]
      exact merge?_word hmerge hjoin
  · intro htop
    have htop := htop.imp Shape.precision_eq_top.mp Shape.precision_eq_top.mp
    rw [Shape.join_eq_top hs.proper ht.proper htop]
  · have hs' : s ≠ .top := fun h => hsp (congrArg Shape.precision h)
    have ht' : t ≠ .top := fun h => htp (congrArg Shape.precision h)
    cases w with
    | bit => exact ⟨fun _ => Shape.toSet_join_bit hs ht, fun h => absurd (.inl rfl) h⟩
    | int u =>
      have hfin := hs.proper.toSet_finite.union ht.proper.toSet_finite
      have hunion := (Shape.isUnion_join hs ht hs' ht').toSet_eq hfin
      simp only [reduceCtorEq, false_or]
      exact hunion

/-- Containment, meet and join of two words of one type are inclusion, intersection and union of
their values, and none of them fails: the element of higher rank carries them out and does not
decline. The union is widened to its hull when integers are not listed or too many, and to a top
when one of the words is a top. -/
theorem lattice_operations_on_values (hx : x.IsWord limit w) (hy : y.IsWord limit w) :
    (∃ c, x.contains y = .ok c ∧ (if x.drives y then x.contain? y else y.containTo? x) = some c ∧
      (c = true ↔ y.values ⊆ x.values)) ∧
    (∃ m, x.meet limit y = .ok m ∧
      (if x.drives y then x.intersect? limit y else y.intersect? limit x) = .ok (some m) ∧
      (m = none ↔ Disjoint x.values y.values) ∧
      ∀ z, m = some z → z.IsWord limit w ∧ z.values = x.values ∩ y.values) ∧
    ∃ j, x.join limit y = .ok j ∧
      (if x.drives y then x.merge? limit y else y.merge? limit x) = .ok (some j) ∧
      j.IsWord limit w ∧
      (x.precision = .top ∨ y.precision = .top → j = .word w .top) ∧
      (x.precision ≠ .top → y.precision ≠ .top →
        (w = .bit ∨ (x.IsEnumerated ∧ y.IsEnumerated) ∧ (x.values ∪ y.values).ncard ≤ limit →
          j.values = x.values ∪ y.values) ∧
        (¬(w = .bit ∨ (x.IsEnumerated ∧ y.IsEnumerated) ∧
            (x.values ∪ y.values).ncard ≤ limit) →
          j.values = hull (x.values ∪ y.values))) :=
  ⟨contain?_words hx hy, intersect?_words hx hy, merge?_words hx hy⟩

/-- A list and a range of four-bit integers. -/
theorem lattice_operations_on_values_list_range :
    let t : IntType := ⟨4, true, by decide, by decide⟩
    let x : Element := .word (.int t) (.disjunction [-3, 1, 3])
    let y : Element := .word (.int t) (.interval ⟨2, 5⟩)
    x.IsWord 8 (.int t) ∧ y.IsWord 8 (.int t) ∧
      (∃ c, x.contains y = .ok c ∧ (c = true ↔ y.values ⊆ x.values)) ∧
      (∃ z, x.meet 8 y = .ok (some z) ∧ z.values = x.values ∩ y.values) ∧
      ∃ j, x.join 8 y = .ok j ∧ j.values = hull (x.values ∪ y.values) := by
  intro t x y
  have hx : x.IsWord 8 (.int t) := by decide
  have hy : y.IsWord 8 (.int t) := by decide
  obtain ⟨⟨c, hc, -, hc'⟩, ⟨m, hm, -, hnone, hz⟩, j, hj, -, -, -, hj'⟩ :=
    lattice_operations_on_values hx hy
  have h3 : ¬Disjoint x.values y.values :=
    Set.not_disjoint_iff.mpr ⟨3, mem_values_word.mpr (by decide), mem_values_word.mpr (by decide)⟩
  obtain ⟨z, rfl⟩ := Option.ne_none_iff_exists'.mp fun h => h3 (hnone.mp h)
  refine ⟨hx, hy, ⟨c, hc, hc'⟩, ⟨z, hm, (hz z rfl).2⟩, j, hj, ?_⟩
  refine (hj' (by decide) (by decide)).2 ?_
  rintro (h | ⟨⟨-, h⟩, -⟩)
  · cases h
  · exact Shape.not_isEnumerated_interval (r := ⟨2, 5⟩) h

end Element

end ScalarDomain
