import ScalarDomain.Answer
import ScalarDomain.Proofs.Lattice.Laws

/-!
# Canonical shapes

One set of values has several shapes: a list without a gap is also an interval, and the interval of
all values is also a top. Simplifying turns the former into the latter, and specializing also turns
the top of an integer type into the interval of its values. What is left then is *canonical*
(`Shape.Canonical`): a list has a gap, and only a bit is a top.

Canonical shapes are not rewritten any further, so both questions are idempotent, and a canonical
shape is determined by its values (`Shape.Canonical.ext`), so specializing decides whether two words
stand for the same values.
-/

namespace ScalarDomain

/-- A sorted list has no gap when every integer between its ends is listed. -/
theorem isContiguous_iff {limit : ℕ} {w : WordType} {vs : List ℤ}
    (h : (Shape.disjunction vs).Proper limit w) :
    isContiguous vs = true ↔ ∀ v ∈ (Shape.disjunction vs).bounds w.view, v ∈ vs := by
  have hb := h.bounds_spec
  simp only [Shape.contains_disjunction] at hb
  obtain ⟨hlo, hhi, hmem⟩ := hb
  obtain ⟨r, hr⟩ := Bounds.exists_span? hlo
  obtain ⟨hrlo, hrhi⟩ := Bounds.ends_mem_of_span?_eq_some hr
  have hspan : r = (Shape.disjunction vs).bounds w.view := by
    have h1 := Bounds.le_of_span?_eq_some hr hlo
    have h2 := Bounds.le_of_span?_eq_some hr hhi
    exact congrArg₂ Bounds.mk (le_antisymm h1.1 (hmem _ hrlo).1) (le_antisymm (hmem _ hrhi).2 h2.2)
  rw [isContiguous, hr, hspan, decide_eq_true_iff, eq_comm]
  exact Shape.length_eq_iff_covers h.2.1 h.bounds.le hmem

namespace Shape

variable {limit : ℕ} {w : WordType} {t : IntType} {a b s : Shape}

/-- A list has a gap between its ends. -/
def Gapped (t : IntType) (s : Shape) : Prop :=
  s.precision = .disjunction → ∃ v ∈ s.bounds t, ¬s.contains t v = true

/-- The shape that stands for its values in the one way that is kept. -/
structure Canonical (w : WordType) (s : Shape) : Prop where
  /-- Values without a gap are not listed. -/
  gapped : s.Gapped w.view
  /-- Only a bit is a top. -/
  eq_bit : s = top → w = .bit

/-- Values that are listed in a canonical way are listed in every canonical shape of them. -/
private theorem Canonical.isEnumerated (ha : a.WellFormed limit w) (hb : b.WellFormed limit w)
    (hcb : b.Canonical w) (h : a.toSet w.view = b.toSet w.view) (henum : b.IsEnumerated) :
    a.IsEnumerated := by
  by_contra hn
  rcases henum with hconst | hlist
  · cases b with
    | constant c =>
      rw [eq_constant_of_subset ha h.le] at hn
      exact hn isEnumerated_constant
    | _ => cases hconst
  · -- a gap of the list is one of a shape without gaps
    obtain ⟨v, hv, hnot⟩ := hcb.gapped hlist
    have hv : v ∈ hull (b.toSet w.view) := hb.proper.hull_toSet ▸ hv
    rw [← h, ha.proper.hull_toSet_eq hn, h] at hv
    exact hnot hv

/-- Two canonical shapes of the same values are below each other. -/
private theorem Canonical.below (ha : a.WellFormed limit w) (hb : b.WellFormed limit w)
    (hca : a.Canonical w) (hcb : b.Canonical w) (h : a.toSet w.view = b.toSet w.view) :
    Below w.view a b := by
  refine ⟨h.le, hcb.isEnumerated ha hb h, ?_⟩
  rintro rfl
  obtain rfl := hca.eq_bit rfl
  by_contra hne
  obtain ⟨c, rfl⟩ := hb.eq_constant_bit hne
  exact ha.not_subset_constant (by simp [precision]) h.le

/-- A canonical shape is determined by its values. -/
theorem Canonical.ext (ha : a.WellFormed limit w) (hb : b.WellFormed limit w) (hca : a.Canonical w)
    (hcb : b.Canonical w) (h : a.toSet w.view = b.toSet w.view) : a = b :=
  (hca.below ha hb hcb h).antisymm ha hb (hcb.below hb ha hca h.symm)

/-- Two ends and all values between them. -/
theorem WellFormed.interval_bounds (hs : s.WellFormed limit w) (hw : w ≠ .bit)
    (hprec : s.precision ≠ .constant) : (interval (s.bounds w.view)).WellFormed limit w := by
  refine ⟨⟨hw, hs.proper.bounds⟩, ?_⟩
  rintro _ ⟨⟩
  exact hs.lo_lt_hi hprec

end Shape

namespace Element

variable {limit : ℕ} {w : WordType} {s : Shape} {x y : Element}

/-! ### Simplification -/

/-- A list without a gap is simplified to the interval between its ends; nothing else changes. -/
theorem simplify_cases (hs : s.WellFormed limit w) :
    (s.Gapped w.view ∧ (word w s).simplify = .word w s) ∨
      ((∀ v, v ∈ s.bounds w.view ↔ s.contains w.view v = true) ∧ w ≠ .bit ∧
        s.precision = .disjunction ∧
        (word w s).simplify = .word w (.interval (s.bounds w.view))) := by
  have hrange : ∀ r : Range, w ≠ .bit → r.lo < r.hi → w.rangeShape r = .interval r := by
    intro r hw hlt
    cases w with
    | bit => exact absurd rfl hw
    | int t => exact if_neg hlt.ne
  have hunlisted : ∀ {s : Shape}, s.precision ≠ .disjunction → s.Gapped w.view :=
    fun hs hlist => absurd hlist hs
  cases s with
  | constant c => exact .inl ⟨hunlisted (by simp [Shape.precision]), rfl⟩
  | top => exact .inl ⟨hunlisted (by simp [Shape.precision]), rfl⟩
  | interval r =>
    refine .inl ⟨hunlisted (by simp [Shape.precision]), ?_⟩
    rw [simplify, hrange r hs.proper.1 (hs.2 r rfl)]
  | disjunction vs =>
    have hiff := isContiguous_iff hs.proper
    by_cases hc : isContiguous vs = true
    · have hmem : ∀ v, v ∈ (Shape.disjunction vs).bounds w.view ↔
          (Shape.disjunction vs).contains w.view v = true := fun v =>
        ⟨fun hv => Shape.contains_disjunction.mpr (hiff.mp hc v hv), hs.proper.mem_bounds⟩
      refine .inr ⟨hmem, hs.proper.1, rfl, ?_⟩
      rw [simplify, if_pos hc, hrange _ hs.proper.1 (hs.lo_lt_hi (by simp [Shape.precision]))]
    · refine .inl ⟨fun _ => ?_, by rw [simplify, if_neg hc]⟩
      rw [hiff] at hc
      push Not at hc
      simpa only [Shape.contains_disjunction] using hc

/-- Values with a gap between them have no finer shape. -/
theorem simplify_eq_self (hs : s.WellFormed limit w) (hgap : s.Gapped w.view) :
    (word w s).simplify = .word w s := by
  rcases simplify_cases hs with ⟨-, h⟩ | ⟨hall, -, hlist, -⟩
  · exact h
  · obtain ⟨v, hv, hnot⟩ := hgap hlist
    exact absurd ((hall v).mp hv) hnot

/-- The simplified word has the same values and lists none without a gap. -/
theorem exists_simplify (hs : s.WellFormed limit w) :
    ∃ r : Shape, (word w s).simplify = .word w r ∧ r.WellFormed limit w ∧
      r.toSet w.view = s.toSet w.view ∧ r.Gapped w.view ∧ (r = .top → s = .top) := by
  rcases simplify_cases hs with ⟨hgap, h⟩ | ⟨hall, hw, hlist, h⟩
  · exact ⟨s, h, hs, rfl, hgap, id⟩
  · refine ⟨_, h, hs.interval_bounds hw (by simp [hlist]), ?_, ?_, ?_⟩
    · ext v
      exact Shape.contains_interval.trans (hall v)
    · rintro ⟨⟩
    · rintro ⟨⟩

/-! ### Specialization -/

/-- Only the top of an integer type is specialized further than it is simplified. -/
theorem specialize_cases (w : WordType) (s : Shape) :
    (∃ t : IntType, w = .int t ∧ s = .top ∧
        (word w s).specialize = .word w (.interval (s.bounds w.view))) ∨
      ((s = .top → w = .bit) ∧ (word w s).specialize = (word w s).simplify) := by
  cases w with
  | bit => exact .inr ⟨fun _ => rfl, rfl⟩
  | int t =>
    cases s with
    | top => exact .inl ⟨t, rfl, rfl, rfl⟩
    | _ => exact .inr ⟨by simp, rfl⟩

/-- Canonical shapes are left alone. -/
theorem specialize_eq_self (hs : s.WellFormed limit w) (hcanonical : s.Canonical w) :
    (word w s).specialize = .word w s := by
  rcases specialize_cases w s with ⟨t, rfl, rfl, -⟩ | ⟨-, h⟩
  · exact absurd (hcanonical.eq_bit rfl) (by simp)
  · exact h.trans (simplify_eq_self hs hcanonical.gapped)

/-- The specialized word has the same values in their canonical shape. -/
theorem exists_specialize (hs : s.WellFormed limit w) :
    ∃ r : Shape, (word w s).specialize = .word w r ∧ r.WellFormed limit w ∧
      r.toSet w.view = s.toSet w.view ∧ r.Canonical w := by
  rcases specialize_cases w s with ⟨t, rfl, rfl, h⟩ | ⟨hbit, h⟩
  · refine ⟨_, h, hs.interval_bounds (by simp) (by simp [Shape.precision]), ?_, ?_, ?_⟩
    · ext v
      exact Shape.contains_interval.trans Bounds.mem_full
    · rintro ⟨⟩
    · rintro ⟨⟩
  · obtain ⟨r, hr, hword, hset, hgap, htop⟩ := exists_simplify hs
    exact ⟨r, h.trans hr, hword, hset, hgap, fun hr => hbit (htop hr)⟩

/-! ### Both questions -/

/-- Both questions about the finest shape of a word are answered by a word of the same type with the
same values, and asking again changes nothing. Two words of one type specialize to the same word
exactly if they have the same values. -/
theorem specialize_canonical (hx : x.IsWord limit w) (hy : y.IsWord limit w) :
    (∀ q : Question, q = .specialize ∨ q = .simplification → ∃ z : Element,
      x.answer limit q = .ok (.element z) ∧ z.IsWord limit w ∧ z.type = x.type ∧
        z.values = x.values ∧ z.answer limit q = .ok (.element z)) ∧
    ∃ x' y' : Element, x.answer limit .specialize = .ok (.element x') ∧
      y.answer limit .specialize = .ok (.element y') ∧ (x' = y' ↔ x.values = y.values) := by
  have hkind : ∀ (s : Shape) (q : QuestionKind), (word w s).kind.answers q = true := by
    intro s q
    cases w <;> cases s <;> rfl
  have hspecialize : ∀ s : Shape, (word w s).answer limit .specialize =
      .ok (.element (word w s).specialize) := fun s => if_neg (by rw [hkind]; decide)
  have hsimplify : ∀ s : Shape, (word w s).answer limit .simplification =
      .ok (.element (word w s).simplify) := fun s => if_neg (by rw [hkind]; decide)
  obtain ⟨a, rfl, ha⟩ := hx
  obtain ⟨b, rfl, hb⟩ := hy
  obtain ⟨p, hp, hpw, hpset, hpc⟩ := exists_specialize ha
  obtain ⟨q, hq, hqw, hqset, hqc⟩ := exists_specialize hb
  obtain ⟨r, hr, hrw, hrset, hgap, -⟩ := exists_simplify ha
  refine ⟨?_, word w p, word w q, by rw [hspecialize, hp], by rw [hspecialize, hq], fun h => ?_,
    fun h => ?_⟩
  · rintro _ (rfl | rfl)
    · refine ⟨word w p, by rw [hspecialize, hp], isWord_word hpw, rfl, hpset, ?_⟩
      rw [hspecialize, specialize_eq_self hpw hpc]
    · refine ⟨word w r, by rw [hsimplify, hr], isWord_word hrw, rfl, hrset, ?_⟩
      rw [hsimplify, simplify_eq_self hrw hgap]
  · injection h with _ h
    exact hpset.symm.trans (h ▸ hqset)
  · rw [hpc.ext hpw hqw hqc (hpset.trans (Eq.trans h hqset.symm))]

/-- All values of a small type as a list and as a top. -/
theorem specialize_canonical_list_top :
    let t : IntType := ⟨2, true, by decide, by decide⟩
    let x : Element := .word (.int t) (.disjunction [-2, -1, 0, 1])
    let y : Element := .word (.int t) .top
    let z : Element := .word (.int t) (.interval ⟨-2, 1⟩)
    x.IsWord 8 (.int t) ∧ y.IsWord 8 (.int t) ∧ x.answer 8 .specialize = .ok (.element z) ∧
      y.answer 8 .specialize = .ok (.element z) ∧ x.values = y.values := by
  intro t x y z
  have hx : x.IsWord 8 (.int t) := by decide
  have hy : y.IsWord 8 (.int t) := by decide
  obtain ⟨-, x', y', hx', hy', hiff⟩ := specialize_canonical hx hy
  have hxz : x.answer 8 .specialize = .ok (.element z) := by cbv
  have hyz : y.answer 8 .specialize = .ok (.element z) := by cbv
  refine ⟨hx, hy, hxz, hyz, hiff.mp ?_⟩
  cases hxz.symm.trans hx'
  cases hyz.symm.trans hy'
  rfl

end Element

end ScalarDomain
