import ScalarDomain.Proofs.ValueSet

/-!
# Summaries tell the truth

The summary of a set of values answers, for each landmark, whether some value hits it and whether
every value does (`Summary.IsOf`). Single values, ranges and the shapes of words all have such
summaries; a join of summaries is one of the union. What is known of the truth of a word is read off
its summary.
-/

namespace ScalarDomain

namespace LandmarkSet

/-- A landmark that is put into a set is in it, and the other ones stay as they are. -/
private theorem has_insert (s : LandmarkSet) (b : Bool) (k l : Landmark) :
    has (if b then s ||| BitVec.twoPow 8 k.index else s) l =
      (s.has l || (b && decide (k = l))) := by
  cases b with
  | false => simp
  | true =>
    simp only [has, if_true, BitVec.getLsbD_or, BitVec.getLsbD_twoPow]
    cases k <;> cases l <;> simp [Landmark.index]

/-- The set of the landmarks with a property holds those and no others. -/
@[simp] theorem has_of (p : Landmark → Bool) (l : Landmark) : (of p).has l = p l := by
  simp only [of, Landmark.all, List.foldl_cons, List.foldl_nil, has_insert]
  cases l <;> simp [has, Landmark.index]

end LandmarkSet

namespace Summary

variable {t : IntType} {r : Range} {X Y : Set ℤ} {s s' : Summary}

/-- The summary of a set of integers of a type. -/
structure IsOf (t : IntType) (X : Set ℤ) (s : Summary) : Prop where
  /-- A landmark is possible when some value hits it. -/
  may_iff : ∀ l, s.mayHit l = true ↔ ∃ v ∈ X, l.hitBy t v = true
  /-- A landmark is certain when every value hits it. -/
  sure_iff : ∀ l, s.alwaysHits l = true ↔ ∀ v ∈ X, l.hitBy t v = true

theorem isOf_bottom (t : IntType) : bottom.IsOf t ∅ where
  may_iff l := by cases l <;> simp [bottom, mayHit, LandmarkSet.has]
  sure_iff l := by
    cases l <;> simp [bottom, alwaysHits, LandmarkSet.has, LandmarkSet.full, Landmark.index]

/-- The landmarks of a single value. -/
theorem isOf_ofValue (t : IntType) (v : ℤ) : (ofValue t v).IsOf t {v} where
  may_iff l := by simp [ofValue, singleton, mayHit]
  sure_iff l := by simp [ofValue, singleton, alwaysHits]

/-- Joined summaries are those of the union. -/
theorem IsOf.join (h : s.IsOf t X) (h' : s'.IsOf t Y) : (s.join s').IsOf t (X ∪ Y) where
  may_iff l := by
    have hor : (s.join s').mayHit l = (s.mayHit l || s'.mayHit l) := BitVec.getLsbD_or
    rw [hor, Bool.or_eq_true, h.may_iff, h'.may_iff]
    simp only [Set.mem_union, or_and_right, exists_or]
  sure_iff l := by
    have hand : (s.join s').alwaysHits l = (s.alwaysHits l && s'.alwaysHits l) :=
      BitVec.getLsbD_and
    rw [hand, Bool.and_eq_true, h.sure_iff, h'.sure_iff]
    simp only [Set.mem_union, or_imp, forall_and]

/-- The summary of a range that is not empty. -/
theorem isOf_ofRange (t : IntType) (hle : r.lo ≤ r.hi) : (ofRange t r).IsOf t r.toSet := by
  rw [ofRange, if_neg (by omega)]
  split
  · next heq =>
    have hset : r.toSet = {r.lo} := by
      ext v
      simp only [Bounds.mem_toSet, Set.mem_singleton_iff, Bounds.mem_def]
      omega
    exact hset ▸ isOf_ofValue t r.lo
  · next hne =>
    have hmem : ∀ c : ℤ, r.contains c = true ↔ ∃ v ∈ r.toSet, decide (v = c) = true := by
      simp
    have hlo : r.lo ∈ r := ⟨le_rfl, hle⟩
    have hhi : r.hi ∈ r := ⟨hle, le_rfl⟩
    -- two distinct values agree on no landmark but their sign
    have hsplit : ∀ c : ℤ, ¬∀ v ∈ r.toSet, decide (v = c) = true := by
      intro c h
      have h1 := of_decide_eq_true (h _ hlo)
      have h2 := of_decide_eq_true (h _ hhi)
      omega
    constructor <;> intro l
    · rw [mayHit, LandmarkSet.has_of]
      cases l with
      | negative =>
        simp only [decide_eq_true_eq, Landmark.hitBy, Bounds.mem_toSet]
        refine ⟨fun h => ⟨r.lo, hlo, h⟩, ?_⟩
        rintro ⟨v, hv, h⟩
        exact lt_of_le_of_lt hv.1 h
      | positive =>
        simp only [decide_eq_true_eq, Landmark.hitBy, Bounds.mem_toSet]
        refine ⟨fun h => ⟨r.hi, hhi, h⟩, ?_⟩
        rintro ⟨v, hv, h⟩
        exact lt_of_lt_of_le h hv.2
      | _ => exact hmem _
    · rw [alwaysHits, LandmarkSet.has_of]
      cases l with
      | negative =>
        simp only [decide_eq_true_eq, Landmark.hitBy, Bounds.mem_toSet]
        exact ⟨fun h v hv => lt_of_le_of_lt hv.2 h, fun h => h _ hhi⟩
      | positive =>
        simp only [decide_eq_true_eq, Landmark.hitBy, Bounds.mem_toSet]
        exact ⟨fun h v hv => lt_of_lt_of_le h hv.1, fun h => h _ hlo⟩
      | _ => exact iff_of_false (by simp) (hsplit _)

namespace IsOf

/-- Landmarks know whether all values are zero. -/
theorem isZero_iff (h : s.IsOf t X) : s.isZero = true ↔ ∀ v ∈ X, v = 0 := by
  rw [isZero, h.sure_iff]
  simp [Landmark.hitBy]

/-- And whether none is. -/
theorem isNonzero_iff (h : s.IsOf t X) : s.isNonzero = true ↔ ∀ v ∈ X, v ≠ 0 := by
  have hz := h.may_iff .zero
  rw [isNonzero, Bool.not_eq_true', Bool.eq_false_iff, ne_eq, mayBeZero, hz]
  simp only [Landmark.hitBy, decide_eq_true_eq]
  refine ⟨fun hn v hv h0 => hn ⟨v, hv, h0⟩, fun hn => ?_⟩
  rintro ⟨v, hv, h0⟩
  exact hn v hv h0

/-- Some value hits a sign, so the summary of a set that is not empty is not the bottom. -/
theorem isBottom_eq_false (h : s.IsOf t X) (hX : X.Nonempty) : s.isBottom = false := by
  obtain ⟨v, hv⟩ := hX
  rw [isBottom, beq_eq_false_iff_ne]
  rintro rfl
  have hb := (isOf_bottom t).may_iff
  rcases lt_trichotomy v 0 with hs | hs | hs
  · have hm := (h.may_iff .negative).mpr ⟨v, hv, by simpa [Landmark.hitBy] using hs⟩
    simp [hb] at hm
  · have hm := (h.may_iff .zero).mpr ⟨v, hv, by simpa [Landmark.hitBy] using hs⟩
    simp [hb] at hm
  · have hm := (h.may_iff .positive).mpr ⟨v, hv, by simpa [Landmark.hitBy] using hs⟩
    simp [hb] at hm

end IsOf

/-- The landmarks of listed values are joined one by one. -/
private theorem isOf_foldl (vs : List ℤ) (h : s.IsOf t X) :
    (vs.foldl (fun s v => s.join (.ofValue t v)) s).IsOf t (X ∪ {v | v ∈ vs}) := by
  induction vs generalizing s X with
  | nil => simpa using h
  | cons u vs ih =>
    have hset : X ∪ {v | v ∈ u :: vs} = X ∪ {u} ∪ {v | v ∈ vs} := by
      ext v
      simp [or_assoc, or_left_comm]
    exact hset ▸ ih (h.join (isOf_ofValue t u))

/-- The summary of a proper shape is that of its values. -/
theorem isOf_shape {limit : ℕ} {w : WordType} {x : Shape} (h : x.Proper limit w) :
    (x.summary w.view).IsOf w.view {v | x.contains w.view v = true} := by
  cases x with
  | constant c => simpa [Shape.summary] using isOf_ofValue w.view c
  | interval r => simpa [Shape.summary, Shape.bounds, Bounds.toSet] using isOf_ofRange w.view h.2.le
  | disjunction vs => simpa [Shape.summary] using isOf_foldl vs (isOf_bottom w.view)
  | top =>
    simpa [Shape.summary, Shape.bounds, Bounds.toSet] using
      isOf_ofRange w.view (Bounds.Proper.full _).le

end Summary

namespace Element

variable {limit : ℕ} {w : WordType} {x : Element}

/-- The summary of a word is that of its values. -/
theorem isOf_summary (h : x.IsWord limit w) : x.summary.IsOf w.view x.values := by
  obtain ⟨s, rfl, hs⟩ := h
  exact Summary.isOf_shape hs.proper

/-- A word is false when all its values are zero. -/
theorem truthiness_eq_false_iff (h : x.IsWord limit w) :
    x.truthiness = .false ↔ ∀ v ∈ x.values, v = 0 := by
  rw [← (isOf_summary h).isZero_iff, truthiness]
  split_ifs <;> simp_all

/-- A word is true when none of its values is zero. -/
theorem truthiness_eq_true_iff (h : x.IsWord limit w) :
    x.truthiness = .true ↔ ∀ v ∈ x.values, v ≠ 0 := by
  have hnot : x.summary.isZero = true → ¬x.summary.isNonzero = true := by
    rw [(isOf_summary h).isZero_iff, (isOf_summary h).isNonzero_iff]
    obtain ⟨s, rfl, hs⟩ := h
    exact fun hzero hnonzero => hnonzero _ hs.proper.contains_lo (hzero _ hs.proper.contains_lo)
  rw [← (isOf_summary h).isNonzero_iff, truthiness]
  split_ifs <;> simp_all

/-- A word may go either way when zero is one of its values and not the only one. -/
theorem truthiness_eq_undecided_iff (h : x.IsWord limit w) :
    x.truthiness = .undecided ↔ (∃ v ∈ x.values, v ≠ 0) ∧ ∃ v ∈ x.values, v = 0 := by
  have hfalse := (truthiness_eq_false_iff h).not
  have htrue := (truthiness_eq_true_iff h).not
  push Not at hfalse htrue
  rw [← hfalse, ← htrue]
  cases x.truthiness <;> simp

end Element

end ScalarDomain
