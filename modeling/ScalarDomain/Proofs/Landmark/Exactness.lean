import ScalarDomain.Proofs.Landmark

/-!
# Summaries are exact

What a landmark is does not depend on how summaries are computed: the ends of a type are the least
and the greatest of its values (`Landmark.Marks`). With that, a set of integers has one summary
(`Summary.ofSet`), and a summary that tells the truth and leaves the bit without a landmark alone is
that one (`Summary.IsOf.eq_ofSet`). So words that stand for the same values have the same summary,
whatever their shapes, and the join of two summaries is the summary of the union.

A meet tells less: it is no summary of the common values, but what it excludes none of them hits,
and what it promises all of them do.
-/

namespace ScalarDomain

/-! ### What a landmark is -/

/-- An integer of a type hits a landmark. -/
def Landmark.Marks (t : IntType) (v : ℤ) : Landmark → Prop
  | negative => v < 0
  | zero => v = 0
  | positive => 0 < v
  | minusOne => v = -1
  | one => v = 1
  | min => IsLeast {u | t.contains u = true} v
  | max => IsGreatest {u | t.contains u = true} v

namespace IntType

theorem isLeast_minValue (t : IntType) : IsLeast {u | t.contains u = true} t.minValue :=
  ⟨contains_iff.mpr ⟨le_rfl, t.minValue_lt_maxValue.le⟩, fun _ hu => (contains_iff.mp hu).1⟩

theorem isGreatest_maxValue (t : IntType) : IsGreatest {u | t.contains u = true} t.maxValue :=
  ⟨contains_iff.mpr ⟨t.minValue_lt_maxValue.le, le_rfl⟩, fun _ hu => (contains_iff.mp hu).2⟩

end IntType

/-- The test for a landmark. -/
theorem Landmark.hitBy_iff {t : IntType} {v : ℤ} {l : Landmark} :
    l.hitBy t v = true ↔ l.Marks t v := by
  cases l with
  | min =>
    refine decide_eq_true_iff.trans ⟨fun h => h ▸ t.isLeast_minValue, fun h => ?_⟩
    exact IsLeast.unique h t.isLeast_minValue
  | max =>
    refine decide_eq_true_iff.trans ⟨fun h => h ▸ t.isGreatest_maxValue, fun h => ?_⟩
    exact IsGreatest.unique h t.isGreatest_maxValue
  | _ => exact decide_eq_true_iff

/-! ### Sets of landmarks -/

namespace LandmarkSet

variable {s s' : LandmarkSet}

/-- The one bit without a landmark is not set. -/
def Proper (s : LandmarkSet) : Prop :=
  s.getLsbD 7 = false

/-- The bits of the seven landmarks are the only ones that are set. -/
theorem proper_of (p : Landmark → Bool) : (of p).Proper := by
  have hinsert : ∀ (s : LandmarkSet) (b : Bool) (k : Landmark), s.Proper →
      Proper (if b then s ||| BitVec.twoPow 8 k.index else s) := by
    intro s b k hs
    cases b with
    | false => exact hs
    | true =>
      rw [if_pos rfl, Proper, BitVec.getLsbD_or, hs, BitVec.getLsbD_twoPow, Bool.false_or]
      cases k <;> rfl
  simp only [of, Landmark.all, List.foldl_cons, List.foldl_nil]
  iterate 7 apply hinsert
  rfl

/-- Unions of landmarks are proper. -/
theorem Proper.or (h : s.Proper) (h' : s'.Proper) : Proper (s ||| s') := by
  rw [Proper, BitVec.getLsbD_or, h, h', Bool.false_or]

/-- An intersection is proper as soon as one side is. -/
theorem Proper.and (h : s.Proper) : Proper (s &&& s') := by
  rw [Proper, BitVec.getLsbD_and, h, Bool.false_and]

private theorem exists_index_eq : ∀ i < 7, ∃ l ∈ Landmark.all, l.index = i := by
  decide

/-- Sets with the same landmarks are equal. -/
theorem Proper.ext (h : s.Proper) (h' : s'.Proper) (hhas : ∀ l, s.has l = s'.has l) : s = s' := by
  refine BitVec.eq_of_getLsbD_eq fun i hi => ?_
  rcases Nat.lt_or_eq_of_le (Nat.le_of_lt_succ hi) with hlt | rfl
  · obtain ⟨l, -, rfl⟩ := exists_index_eq i hlt
    exact hhas l
  · exact Eq.trans h (Eq.symm h')

end LandmarkSet

/-! ### The summary of a set -/

namespace Summary

variable {t : IntType} {X Y : Set ℤ} {s s' : Summary} {v : ℤ} {l : Landmark}

open Classical in
/-- The summary of a set of integers of a type. -/
noncomputable def ofSet (t : IntType) (X : Set ℤ) : Summary where
  may := .of fun l => decide (∃ v ∈ X, l.Marks t v)
  sure := .of fun l => decide (∀ v ∈ X, l.Marks t v)

/-- A landmark may be hit if some value is marked by it. -/
theorem mayHit_ofSet : (ofSet t X).mayHit l = true ↔ ∃ v ∈ X, l.Marks t v := by
  classical
  rw [mayHit, ofSet, LandmarkSet.has_of]
  exact decide_eq_true_iff

/-- A landmark is always hit if all values are marked by it. -/
theorem alwaysHits_ofSet : (ofSet t X).alwaysHits l = true ↔ ∀ v ∈ X, l.Marks t v := by
  classical
  rw [alwaysHits, ofSet, LandmarkSet.has_of]
  exact decide_eq_true_iff

/-- No bit without a landmark is set. -/
structure Proper (s : Summary) : Prop where
  /-- Not among the possible ones. -/
  may : s.may.Proper
  /-- Nor among the certain ones. -/
  sure : s.sure.Proper

/-- A set of integers has one summary. -/
theorem IsOf.eq_ofSet (h : s.IsOf t X) (hs : s.Proper) : s = ofSet t X := by
  have hmay : s.may = (ofSet t X).may := by
    refine hs.may.ext (LandmarkSet.proper_of _) fun l => Bool.eq_iff_iff.mpr ?_
    refine (h.may_iff l).trans (Iff.trans ?_ mayHit_ofSet.symm)
    simp only [Landmark.hitBy_iff]
  have hsure : s.sure = (ofSet t X).sure := by
    refine hs.sure.ext (LandmarkSet.proper_of _) fun l => Bool.eq_iff_iff.mpr ?_
    refine (h.sure_iff l).trans (Iff.trans ?_ alwaysHits_ofSet.symm)
    simp only [Landmark.hitBy_iff]
  cases s
  cases hmay
  cases hsure
  rfl

theorem proper_bottom : bottom.Proper := ⟨rfl, rfl⟩

theorem proper_ofValue (t : IntType) (v : ℤ) : (ofValue t v).Proper :=
  ⟨LandmarkSet.proper_of _, LandmarkSet.proper_of _⟩

theorem proper_ofRange (t : IntType) (r : Range) : (ofRange t r).Proper := by
  rw [ofRange]
  split_ifs
  · exact proper_bottom
  · exact proper_ofValue t r.lo
  · exact ⟨LandmarkSet.proper_of _, LandmarkSet.proper_of _⟩

theorem Proper.join (h : s.Proper) (h' : s'.Proper) : (s.join s').Proper :=
  ⟨h.may.or h'.may, h.sure.and⟩

/-- The summary of a shape is proper, whatever its values. -/
theorem proper_shape (t : IntType) (x : Shape) : (x.summary t).Proper := by
  cases x with
  | constant c => exact proper_ofValue t c
  | interval r => exact proper_ofRange t r
  | top => exact proper_ofRange t t.full
  | disjunction vs =>
    have hfold : ∀ (us : List ℤ) (s : Summary), s.Proper →
        (us.foldl (fun s u => s.join (.ofValue t u)) s).Proper := by
      intro us
      induction us with
      | nil => exact fun s hs => hs
      | cons u us ih => exact fun s hs => ih _ (hs.join (proper_ofValue t u))
    exact hfold vs bottom proper_bottom

/-- A common value hits only landmarks that both summaries call possible. -/
theorem IsOf.mayHit_meet (h : s.IsOf t X) (h' : s'.IsOf t Y) (hv : v ∈ X ∩ Y)
    (hl : l.hitBy t v = true) : (s.meet s').mayHit l = true := by
  have hand : (s.meet s').mayHit l = (s.mayHit l && s'.mayHit l) := BitVec.getLsbD_and
  rw [hand, Bool.and_eq_true]
  exact ⟨(h.may_iff l).mpr ⟨v, hv.1, hl⟩, (h'.may_iff l).mpr ⟨v, hv.2, hl⟩⟩

/-- A common value hits all landmarks that one of the summaries calls certain. -/
theorem IsOf.hitBy_of_meet (h : s.IsOf t X) (h' : s'.IsOf t Y) (hv : v ∈ X ∩ Y)
    (hl : (s.meet s').alwaysHits l = true) : l.hitBy t v = true := by
  have hor : (s.meet s').alwaysHits l = (s.alwaysHits l || s'.alwaysHits l) := BitVec.getLsbD_or
  rw [hor, Bool.or_eq_true] at hl
  rcases hl with hl | hl
  · exact (h.sure_iff l).mp hl v hv.1
  · exact (h'.sure_iff l).mp hl v hv.2

end Summary

/-! ### Summaries of words -/

namespace Element

variable {limit : ℕ} {w : WordType} {x y : Element}

/-- The summary of a word is proper. -/
theorem proper_summary (h : x.IsWord limit w) : x.summary.Proper := by
  obtain ⟨s, rfl, -⟩ := h
  exact Summary.proper_shape w.view s

/-- The summary of a word is exact, and its truth is read off it. Two summaries of words of one type
join into that of the union of their values, and their meet neither excludes a landmark that a
common value hits nor promises one that a common value misses. -/
theorem summary_exact (hx : x.IsWord limit w) (hy : y.IsWord limit w) :
    (∀ l : Landmark, (x.summary.mayHit l = true ↔ ∃ v ∈ x.values, l.Marks w.view v) ∧
      (x.summary.alwaysHits l = true ↔ ∀ v ∈ x.values, l.Marks w.view v)) ∧
    (x.truthiness = .true ↔ ∀ v ∈ x.values, v ≠ 0) ∧
    (x.truthiness = .false ↔ ∀ v ∈ x.values, v = 0) ∧
    (x.truthiness = .undecided ↔ (∃ v ∈ x.values, v ≠ 0) ∧ ∃ v ∈ x.values, v = 0) ∧
    x.summary = .ofSet w.view x.values ∧
    x.summary.join y.summary = .ofSet w.view (x.values ∪ y.values) ∧
    ∀ v ∈ x.values ∩ y.values, ∀ l : Landmark,
      (l.Marks w.view v → (x.summary.meet y.summary).mayHit l = true) ∧
        ((x.summary.meet y.summary).alwaysHits l = true → l.Marks w.view v) := by
  have hX := isOf_summary hx
  have hY := isOf_summary hy
  have hproper := proper_summary hx
  refine ⟨fun l => ?_, truthiness_eq_true_iff hx, truthiness_eq_false_iff hx,
    truthiness_eq_undecided_iff hx, hX.eq_ofSet hproper,
    (hX.join hY).eq_ofSet (hproper.join (proper_summary hy)), fun v hv l => ?_⟩
  · simp only [← Landmark.hitBy_iff]
    exact ⟨hX.may_iff l, hX.sure_iff l⟩
  · simp only [← Landmark.hitBy_iff]
    exact ⟨hX.mayHit_meet hY hv, hX.hitBy_of_meet hY hv⟩

/-- In the signed type of one bit the landmarks coincide: minus one is the least value, and zero the
greatest. -/
theorem summary_exact_one_bit :
    let t : IntType := ⟨1, true, by decide, by decide⟩
    let x : Element := .word (.int t) (.constant (-1))
    let y : Element := .word (.int t) .top
    x.IsWord 8 (.int t) ∧ y.IsWord 8 (.int t) ∧ Landmark.min.Marks t (-1) ∧
      x.summary.alwaysHits .minusOne = true ∧ x.truthiness = .true ∧
      x.summary.join y.summary = .ofSet t (x.values ∪ y.values) ∧
      (x.summary.meet y.summary).mayHit .min = true := by
  intro t x y
  have hx : x.IsWord 8 (.int t) := by decide
  have hy : y.IsWord 8 (.int t) := by decide
  obtain ⟨hhits, htrue, -, -, -, hjoin, hmeet⟩ := summary_exact hx hy
  have hmin : Landmark.min.Marks t (-1) := t.isLeast_minValue
  have hvalues : ∀ v ∈ x.values, v = -1 := fun v hv => Shape.contains_constant.mp hv
  have hcommon : -1 ∈ x.values ∩ y.values :=
    ⟨Shape.contains_constant.mpr rfl, Shape.contains_top.mpr (by decide)⟩
  refine ⟨hx, hy, hmin, (hhits .minusOne).2.mpr hvalues, htrue.mpr fun v hv => ?_, hjoin,
    (hmeet (-1) hcommon .min).1 hmin⟩
  rw [hvalues v hv]
  decide

end Element

end ScalarDomain
