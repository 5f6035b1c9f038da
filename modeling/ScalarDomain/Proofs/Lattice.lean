import ScalarDomain.Proofs.ValueSet

/-!
# Joins and meets of value sets

The join of two shapes of one type holds the values of both and is well formed; the meet holds
exactly the common values. `Element.isExactJoin` decides by counting whether a join added a value;
inclusion and exclusion make the count right: when it says yes, every value of the join is a value
of one of the two elements.
-/

namespace ScalarDomain

namespace Shape

variable {limit : ℕ} {w : WordType} {a b : Shape} {v : ℤ}

/-! ### Joins -/

/-- A shape built from a range that encloses two proper shapes is well formed and holds both. -/
private theorem rangeShape_encloses {r : Range} (ha : a.Proper limit w) (hb : b.Proper limit w)
    (hlo : r.lo = min (a.bounds w.view).lo (b.bounds w.view).lo)
    (hhi : r.hi = max (a.bounds w.view).hi (b.bounds w.view).hi) :
    (w.rangeShape r).WellFormed limit w ∧
      ∀ v, a.contains w.view v = true ∨ b.contains w.view v = true →
        (w.rangeShape r).contains w.view v = true := by
  have h1 := ha.bounds.bounds
  have h2 := hb.bounds.bounds
  have hr : r.Proper w.view := .of_bounds (by omega) (by omega) (by omega)
  refine ⟨WordType.wellFormed_rangeShape hr, fun v hv => ?_⟩
  rw [WordType.contains_rangeShape hr, Bounds.mem_def]
  rcases hv with hv | hv
  · have := (ha.mem_bounds hv)
    rw [Bounds.mem_def] at this
    omega
  · have := (hb.mem_bounds hv)
    rw [Bounds.mem_def] at this
    omega

/-- A shape built from the values of two shapes is well formed and holds both. -/
private theorem valuesShape_encloses {vs : List ℤ} (ha : a.Proper limit w) (hb : b.Proper limit w)
    (hvs : ∀ v, v ∈ vs ↔ a.contains w.view v = true ∨ b.contains w.view v = true) :
    (w.valuesShape limit vs).WellFormed limit w ∧
      ∀ v, a.contains w.view v = true ∨ b.contains w.view v = true →
        (w.valuesShape limit vs).contains w.view v = true := by
  have hall : ∀ v ∈ vs, w.view.contains v = true := fun v hv =>
    ((hvs v).mp hv).elim ha.contains hb.contains
  have hne : vs ≠ [] := List.ne_nil_of_mem ((hvs _).mpr (.inl ha.contains_lo))
  exact ⟨WordType.wellFormed_valuesShape hne hall,
    fun v hv => WordType.contains_valuesShape_of_mem hall ((hvs v).mpr hv)⟩

/-- The values of the shape are listed one by one. -/
def IsEnumerated (s : Shape) : Prop :=
  s.precision = .constant ∨ s.precision = .disjunction

theorem isEnumerated_constant {c : ℤ} : (constant c).IsEnumerated := .inl rfl

theorem isEnumerated_disjunction {vs : List ℤ} : (disjunction vs).IsEnumerated := .inr rfl

theorem not_isEnumerated_interval {r : Range} : ¬(interval r).IsEnumerated := by
  simp [IsEnumerated, precision]

theorem not_isEnumerated_top : ¬top.IsEnumerated := by
  simp [IsEnumerated, precision]

/-- What a shape builds with one of no higher rank: the shape of their values when both list them, a
top if it is one, and otherwise the shape of the range around both. -/
private theorem merge?_cases (ha : a.Proper limit w) (hb : b.Proper limit w)
    (hd : a.drives b = true) :
    (a.IsEnumerated ∧ b.IsEnumerated ∧ ∃ vs,
      (∀ v, v ∈ vs ↔ a.contains w.view v = true ∨ b.contains w.view v = true) ∧
        a.merge? w limit b = some (w.valuesShape limit vs)) ∨
    (a = top ∧ a.merge? w limit b = some top) ∨
    (a ≠ top ∧ b ≠ top ∧ ¬(a.IsEnumerated ∧ b.IsEnumerated) ∧ ∃ r : Range,
      r.lo = min (a.bounds w.view).lo (b.bounds w.view).lo ∧
        r.hi = max (a.bounds w.view).hi (b.bounds w.view).hi ∧
          a.merge? w limit b = some (w.rangeShape r)) := by
  have hrank := of_decide_eq_true hd
  cases a with
  | constant c =>
    cases b with
    | constant d =>
      refine .inl ⟨isEnumerated_constant, isEnumerated_constant, ?_⟩
      rw [merge?]
      split
      · next h =>
        subst h
        exact ⟨[c], by simp, by rw [WordType.valuesShape_singleton hb]⟩
      · exact ⟨[c, d], by simp, rfl⟩
    | _ => simp [precision, Precision.rank] at hrank
  | interval r =>
    cases b with
    | constant d | interval q =>
      exact .inr (.inr ⟨by simp, by simp, fun h => not_isEnumerated_interval h.1, _,
        min_comm _ _, max_comm _ _, rfl⟩)
    | _ => simp [precision, Precision.rank] at hrank
  | disjunction vs =>
    cases b with
    | constant d | disjunction us =>
      exact .inl ⟨isEnumerated_disjunction, by simp [IsEnumerated, precision], _, by simp, rfl⟩
    | interval q =>
      exact .inr (.inr ⟨by simp, by simp, fun h => not_isEnumerated_interval h.2, _,
        min_comm _ _, max_comm _ _, rfl⟩)
    | _ => simp [precision, Precision.rank] at hrank
  | top => exact .inr (.inl ⟨rfl, rfl⟩)

/-- Of two shapes one drives: the ranks are ordered. -/
theorem drives_of_not_drives (h : ¬a.drives b = true) : b.drives a = true := by
  rw [drives, decide_eq_true_eq] at *
  omega

/-- The shape of higher rank does not decline. -/
theorem merge?_eq_join (ha : a.Proper limit w) (hb : b.Proper limit w) :
    (if a.drives b then a.merge? w limit b else b.merge? w limit a) =
      some (a.join w limit b) := by
  have hsome : ∀ {a b : Shape}, a.Proper limit w → b.Proper limit w → a.drives b = true →
      ∃ s, a.merge? w limit b = some s := by
    intro a b ha hb hd
    rcases merge?_cases ha hb hd with ⟨-, -, vs, -, h⟩ | ⟨-, h⟩ | ⟨-, -, -, r, -, -, h⟩
    exacts [⟨_, h⟩, ⟨_, h⟩, ⟨_, h⟩]
  rw [join]
  split
  · next hd =>
    obtain ⟨s, hs⟩ := hsome ha hb hd
    rw [hs, Option.getD_some]
  · next hd =>
    obtain ⟨s, hs⟩ := hsome hb ha (drives_of_not_drives hd)
    rw [hs, Option.getD_some]

/-- The join of two shapes: the shape of their values when both list them, a top if one of them is a
top, and otherwise the shape of the range around both. -/
theorem join_cases (ha : a.Proper limit w) (hb : b.Proper limit w) :
    (a.IsEnumerated ∧ b.IsEnumerated ∧ ∃ vs,
      (∀ v, v ∈ vs ↔ a.contains w.view v = true ∨ b.contains w.view v = true) ∧
        a.join w limit b = w.valuesShape limit vs) ∨
    ((a = top ∨ b = top) ∧ a.join w limit b = top) ∨
    (a ≠ top ∧ b ≠ top ∧ ¬(a.IsEnumerated ∧ b.IsEnumerated) ∧ ∃ r : Range,
      r.lo = min (a.bounds w.view).lo (b.bounds w.view).lo ∧
        r.hi = max (a.bounds w.view).hi (b.bounds w.view).hi ∧
          a.join w limit b = w.rangeShape r) := by
  have hjoin := merge?_eq_join ha hb
  split at hjoin
  · next hd =>
    rcases merge?_cases ha hb hd with ⟨h1, h2, vs, hvs, h⟩ | ⟨h1, h⟩ | ⟨h1, h2, h3, r, hlo, hhi, h⟩
    · exact .inl ⟨h1, h2, vs, hvs, Option.some.inj (hjoin.symm.trans h)⟩
    · exact .inr (.inl ⟨.inl h1, Option.some.inj (hjoin.symm.trans h)⟩)
    · exact .inr (.inr ⟨h1, h2, h3, r, hlo, hhi, Option.some.inj (hjoin.symm.trans h)⟩)
  · next hd =>
    rcases merge?_cases hb ha (drives_of_not_drives hd) with
      ⟨h1, h2, vs, hvs, h⟩ | ⟨h1, h⟩ | ⟨h1, h2, h3, r, hlo, hhi, h⟩
    · exact .inl ⟨h2, h1, vs, fun v => (hvs v).trans or_comm,
        Option.some.inj (hjoin.symm.trans h)⟩
    · exact .inr (.inl ⟨.inr h1, Option.some.inj (hjoin.symm.trans h)⟩)
    · exact .inr (.inr ⟨h2, h1, fun he => h3 he.symm, r, hlo.trans (min_comm _ _),
        hhi.trans (max_comm _ _), Option.some.inj (hjoin.symm.trans h)⟩)

/-- The join of two proper shapes is well formed and holds the values of both. -/
theorem join_spec (ha : a.Proper limit w) (hb : b.Proper limit w) :
    (a.join w limit b).WellFormed limit w ∧
      ∀ v, a.contains w.view v = true ∨ b.contains w.view v = true →
        (a.join w limit b).contains w.view v = true := by
  rcases join_cases ha hb with ⟨-, -, vs, hvs, h⟩ | ⟨-, h⟩ | ⟨-, -, -, r, hlo, hhi, h⟩
  · rw [h]
    exact valuesShape_encloses ha hb hvs
  · rw [h]
    exact ⟨wellFormed_top, fun v hv => contains_top.mpr (hv.elim ha.contains hb.contains)⟩
  · rw [h]
    exact rangeShape_encloses ha hb hlo hhi

/-! ### Meets -/

/-- The meet of two shapes, as an option: `none` when they have no common value. -/
private def IsMeet (limit : ℕ) (w : WordType) (a b : Shape) : Option Shape → Prop
  | none => ∀ v, a.contains w.view v = true → b.contains w.view v = true → False
  | some s => s.WellFormed limit w ∧
      ∀ v, s.contains w.view v = true ↔ a.contains w.view v = true ∧ b.contains w.view v = true

/-- Meets do not depend on the order of the shapes. -/
private theorem isMeet_comm {o : Option Shape} (h : IsMeet limit w a b o) :
    IsMeet limit w b a o := by
  cases o with
  | none => exact fun v hb ha => h v ha hb
  | some s => exact ⟨h.1, fun v => by rw [h.2 v, and_comm]⟩

/-- A shape and a constant meet in the constant if the shape holds it. -/
private theorem isMeet_constant {c : ℤ} {p : Prop} [Decidable p] (hb : w.view.contains c = true)
    (hp : p ↔ a.contains w.view c = true) :
    IsMeet limit w a (constant c) (if p then some (constant c) else none) := by
  split
  · next h =>
    refine ⟨wellFormed_constant hb, fun v => ?_⟩
    rw [contains_constant, iff_and_self]
    rintro rfl
    exact hp.mp h
  · next h =>
    intro v hv hc
    rw [contains_constant] at hc
    exact h (hp.mpr (hc ▸ hv))

/-- At most `limit` kept values make a well-formed shape of exactly these, if there are any. -/
theorem ofKept_spec {vs : List ℤ} (hvs : ∀ v ∈ vs, w.view.contains v = true)
    (hlen : w = .bit ∨ vs.length ≤ limit) :
    (ofKept w limit vs = none → vs = []) ∧ ∀ s, ofKept w limit vs = some s →
      s.WellFormed limit w ∧ ∀ v, s.contains w.view v = true ↔ v ∈ vs := by
  rw [ofKept]
  split
  · next h => exact ⟨fun _ => List.isEmpty_iff.mp h, by simp⟩
  · next h =>
    have hne : vs ≠ [] := by simpa using h
    refine ⟨by simp, ?_⟩
    rintro s ⟨⟩
    exact ⟨WordType.wellFormed_valuesShape hne hvs,
      fun v => WordType.contains_valuesShape hne hvs hlen⟩

/-- The listed values that another shape holds. -/
private theorem isMeet_ofKept {vs : List ℤ} {f : ℤ → Bool}
    (ha : (disjunction vs).Proper limit w)
    (hf : ∀ v ∈ vs, f v = true ↔ b.contains w.view v = true) :
    IsMeet limit w (disjunction vs) b (ofKept w limit (vs.filter f)) := by
  have hlen : (vs.filter f).length ≤ limit := (List.length_filter_le _ _).trans ha.2.2.2.2
  obtain ⟨hnone, hsome⟩ :=
    ofKept_spec (fun v hv => ha.2.2.1 v (List.mem_of_mem_filter hv)) (.inr hlen)
  cases hk : ofKept w limit (vs.filter f) with
  | none =>
    intro v hv hb
    rw [contains_disjunction] at hv
    have : v ∈ vs.filter f := List.mem_filter.mpr ⟨hv, (hf v hv).mpr hb⟩
    rw [hnone hk] at this
    cases this
  | some s =>
    refine ⟨(hsome s hk).1, fun v => ?_⟩
    rw [(hsome s hk).2, List.mem_filter, contains_disjunction]
    exact and_congr_right fun hv => hf v hv

/-- Two intervals meet in the shape of the meet of their ranges. -/
private theorem isMeet_ranges {r q : Range} (hr : r.Proper w.view) :
    IsMeet limit w (interval r) (interval q) ((Bounds.meet? r q).map w.rangeShape) := by
  cases h : Bounds.meet? r q with
  | none =>
    intro v h1 h2
    exact Bounds.not_mem_of_meet?_eq_none h (contains_interval.mp h1) (contains_interval.mp h2)
  | some p =>
    have hle := Bounds.le_of_meet?_eq_some h
    have hmem : ∀ v, v ∈ p ↔ v ∈ r ∧ v ∈ q := fun v => Bounds.mem_of_meet?_eq_some h
    have hp : p.Proper w.view :=
      ⟨hle, hr.contains ((hmem _).mp ⟨le_rfl, hle⟩).1, hr.contains ((hmem _).mp ⟨hle, le_rfl⟩).1⟩
    refine ⟨WordType.wellFormed_rangeShape hp, fun v => ?_⟩
    rw [WordType.contains_rangeShape hp, contains_interval, contains_interval]
    exact hmem v

/-- The driving shape finds the meet. -/
private theorem intersect?_spec (ha : a.WellFormed limit w) (hb : b.WellFormed limit w)
    (hd : a.drives b = true) :
    ∃ o, a.intersect? w limit b = some o ∧ IsMeet limit w a b o := by
  have hrank := of_decide_eq_true hd
  cases a with
  | constant c =>
    cases b with
    | constant d => exact ⟨_, rfl, isMeet_constant hb.1 (by rw [contains_constant]; omega)⟩
    | _ => simp [precision, Precision.rank] at hrank
  | interval r =>
    cases b with
    | constant d => exact ⟨_, rfl, isMeet_constant hb.1 (by simp)⟩
    | interval q => exact ⟨_, rfl, isMeet_ranges ha.1.2⟩
    | _ => simp [precision, Precision.rank] at hrank
  | disjunction vs =>
    cases b with
    | constant d => exact ⟨_, rfl, isMeet_ofKept ha.1 (by simp)⟩
    | interval q => exact ⟨_, rfl, isMeet_ofKept ha.1 (by simp)⟩
    | disjunction us => exact ⟨_, rfl, isMeet_ofKept ha.1 (by simp)⟩
    | _ => simp [precision, Precision.rank] at hrank
  | top =>
    refine ⟨some b, rfl, hb, fun v => ?_⟩
    rw [contains_top, iff_and_self]
    exact hb.1.contains

/-- The shape of higher rank does not decline. -/
theorem intersect?_eq_meet (ha : a.WellFormed limit w) (hb : b.WellFormed limit w) :
    (if a.drives b then a.intersect? w limit b else b.intersect? w limit a) =
      some (a.meet w limit b) := by
  rw [meet]
  split
  · next hd =>
    obtain ⟨o, ho, -⟩ := intersect?_spec ha hb hd
    rw [ho, Option.getD_some]
  · next hd =>
    obtain ⟨o, ho, -⟩ := intersect?_spec hb ha (drives_of_not_drives hd)
    rw [ho, Option.getD_some]

/-- The meet of two shapes is found by the one that drives. -/
private theorem meet_spec (ha : a.WellFormed limit w) (hb : b.WellFormed limit w) :
    IsMeet limit w a b (a.meet w limit b) := by
  have hmeet := intersect?_eq_meet ha hb
  split at hmeet
  · next hd =>
    obtain ⟨o, ho, h⟩ := intersect?_spec ha hb hd
    rwa [Option.some.inj (hmeet.symm.trans ho)]
  · next hd =>
    obtain ⟨o, ho, h⟩ := intersect?_spec hb ha (drives_of_not_drives hd)
    rw [Option.some.inj (hmeet.symm.trans ho)]
    exact isMeet_comm h

/-- Without a meet no value is common. -/
theorem meet_eq_none (ha : a.WellFormed limit w) (hb : b.WellFormed limit w)
    (h : a.meet w limit b = none) (h1 : a.contains w.view v = true) :
    b.contains w.view v ≠ true := by
  have hm := meet_spec ha hb
  rw [h] at hm
  exact hm v h1

/-- A meet is well formed and holds the common values, with no others. -/
theorem meet_eq_some {s : Shape} (ha : a.WellFormed limit w) (hb : b.WellFormed limit w)
    (h : a.meet w limit b = some s) :
    s.WellFormed limit w ∧ ∀ v,
      s.contains w.view v = true ↔ a.contains w.view v = true ∧ b.contains w.view v = true := by
  have hm := meet_spec ha hb
  rw [h] at hm
  exact hm

end Shape

/-! ### Counting -/

namespace Shape

variable {limit : ℕ} {w : WordType} {t : IntType} {s : Shape} {v : ℤ}

/-- The values of a shape, as a finite set. -/
noncomputable def finset (t : IntType) : Shape → Finset ℤ
  | disjunction vs => vs.toFinset
  | s => Finset.Icc (s.bounds t).lo (s.bounds t).hi

@[simp] theorem mem_finset : v ∈ s.finset t ↔ s.contains t v = true := by
  cases s <;> simp [finset, contains, bounds, Bounds.mem_def]

/-- `Element.cardinality?` counts the values. -/
theorem cardinality?_word (h : s.Proper limit w) :
    (Element.word w s).cardinality? = some ((s.finset w.view).card : ℤ) := by
  have hle := h.bounds.le
  have hcard : ((Finset.Icc (s.bounds w.view).lo (s.bounds w.view).hi).card : ℤ) =
      (s.bounds w.view).hi - (s.bounds w.view).lo + 1 := by
    rw [Int.card_Icc]
    omega
  cases s with
  | disjunction vs =>
    have hnodup : vs.Nodup := h.2.1.imp ne_of_lt
    rw [Element.cardinality?, finset, List.toFinset_card_of_nodup hnodup]
  | _ => exact congrArg some hcard.symm

end Shape

namespace Element

variable {limit : ℕ} {w : WordType} {a b joined : Shape} {v : ℤ}

theorem eq_of_same {s s' : Shape} (h : (word w s == word w s') = true) : s = s' :=
  (of_decide_eq_true h).2

/-- The common values of two words are counted exactly. -/
theorem commonCount_word (ha : a.WellFormed limit w) (hb : b.WellFormed limit w) :
    commonCount limit (word w a) (word w b) = ((a.finset w.view ∩ b.finset w.view).card : ℤ) := by
  rw [commonCount]
  simp only [meet, if_true]
  cases h : a.meet w limit b with
  | none =>
    have hempty : a.finset w.view ∩ b.finset w.view = ∅ := by
      refine Finset.eq_empty_of_forall_notMem fun v hv => ?_
      rw [Finset.mem_inter, Shape.mem_finset, Shape.mem_finset] at hv
      exact Shape.meet_eq_none ha hb h hv.1 hv.2
    simp [hempty]
  | some s =>
    obtain ⟨hs, hmem⟩ := Shape.meet_eq_some ha hb h
    have heq : s.finset w.view = a.finset w.view ∩ b.finset w.view := by
      ext v
      rw [Finset.mem_inter, Shape.mem_finset, Shape.mem_finset, Shape.mem_finset]
      exact hmem v
    simp [Shape.cardinality?_word hs.proper, heq]

/-- A join that is found exact holds no value that neither element has. -/
theorem contains_of_isExactJoin (ha : a.WellFormed limit w) (hb : b.WellFormed limit w)
    (h : isExactJoin limit (word w a) (word w b) (word w (a.join w limit b)) = true)
    (hv : (a.join w limit b).contains w.view v = true) :
    a.contains w.view v = true ∨ b.contains w.view v = true := by
  obtain ⟨hj, hcov⟩ := Shape.join_spec ha.proper hb.proper
  rw [isExactJoin, Bool.or_eq_true, Bool.or_eq_true] at h
  rcases h with (h | h) | h
  · exact .inl (eq_of_same h ▸ hv)
  · exact .inr (eq_of_same h ▸ hv)
  · rw [Shape.cardinality?_word ha.proper, Shape.cardinality?_word hb.proper,
      Shape.cardinality?_word hj.proper] at h
    simp only [commonCount_word ha hb, beq_iff_eq] at h
    -- inclusion and exclusion: the join has as many values as the union it covers
    have hunion := Finset.card_union_add_card_inter (a.finset w.view) (b.finset w.view)
    have hsub : a.finset w.view ∪ b.finset w.view ⊆ (a.join w limit b).finset w.view := by
      intro u hu
      rw [Finset.mem_union, Shape.mem_finset, Shape.mem_finset] at hu
      exact Shape.mem_finset.mpr (hcov u hu)
    have heq := Finset.eq_of_subset_of_card_le hsub (by omega)
    have hmem := Shape.mem_finset.mpr hv
    rw [← heq, Finset.mem_union, Shape.mem_finset, Shape.mem_finset] at hmem
    exact hmem

/-- The join of two well-formed words is one, with the values of both, and no other ones if it is
exact. -/
theorem join_words {x y : Element} (hx : x.IsWord limit w) (hy : y.IsWord limit w) :
    ∃ z, x.join limit y = .ok z ∧ z.IsWord limit w ∧ x.values ∪ y.values ⊆ z.values ∧
      (x.isExactJoin limit y z = true → z.values ⊆ x.values ∪ y.values) := by
  obtain ⟨s, rfl, hs⟩ := hx
  obtain ⟨t, rfl, ht⟩ := hy
  obtain ⟨hj, hcov⟩ := Shape.join_spec hs.proper ht.proper
  exact ⟨_, if_pos rfl, isWord_word hj, fun v hv => hcov v hv,
    fun he v hv => contains_of_isExactJoin hs ht he hv⟩

/-- Two well-formed words of a type meet where they have a common value. -/
theorem meet_words {x y : Element} (hx : x.IsWord limit w) (hy : y.IsWord limit w) :
    ∃ o, x.meet limit y = .ok o ∧ (o.isSome = true ↔ ∃ v ∈ x.values, v ∈ y.values) := by
  obtain ⟨s, rfl, hs⟩ := hx
  obtain ⟨t, rfl, ht⟩ := hy
  refine ⟨_, if_pos rfl, ?_⟩
  rw [Option.isSome_map]
  cases hm : s.meet w limit t with
  | none =>
    simp only [Option.isSome_none, Bool.false_eq_true, false_iff]
    rintro ⟨v, hv, hv'⟩
    exact Shape.meet_eq_none hs ht hm hv hv'
  | some q =>
    obtain ⟨hq, hmem⟩ := Shape.meet_eq_some hs ht hm
    obtain ⟨h1, h2⟩ := (hmem _).mp hq.proper.contains_lo
    simp only [Option.isSome_some, true_iff]
    exact ⟨_, h1, h2⟩

end Element

end ScalarDomain
