import ScalarDomain.Proofs.Range
import ScalarDomain.Lattice

/-!
# The values of an element

An element stands for the set of its values (`Element.values`). A shape is *proper* for a word type
when its values are values of the type and its list, if it has one, is sorted and neither too short
nor too long; it is *well formed* when, besides, an interval has two distinct ends. Everything the
library builds is well formed; a constant that is handed on as an interval is only proper.

The two ways to build a shape, from a range (`WordType.rangeShape`) and from listed values
(`WordType.valuesShape`), give well-formed shapes, and the first is exact.
-/

namespace ScalarDomain

/-! ### Sorted lists -/

namespace WordType

/-- Dropping repetitions from the right of a sorted list: the step of `normalize`. -/
private theorem dedupe_spec (vs : List ℤ) (hs : vs.Pairwise (· ≤ ·)) :
    let out := vs.foldr (fun v acc => if acc.head? = some v then acc else v :: acc) []
    out.Pairwise (· < ·) ∧ (∀ v, v ∈ out ↔ v ∈ vs) ∧ out.length ≤ vs.length := by
  induction vs with
  | nil => simp
  | cons u vs ih =>
    obtain ⟨hu, hvs⟩ := List.pairwise_cons.mp hs
    obtain ⟨h1, h2, h3⟩ := ih hvs
    simp only [List.foldr_cons]
    split
    · next hh =>
      have hmem := (h2 u).mp (List.mem_of_head? hh)
      exact ⟨h1, fun v => by rw [h2, List.mem_cons]; grind, h3.trans (Nat.le_succ _)⟩
    · next hh =>
      refine ⟨List.pairwise_cons.mpr ⟨fun v hv => ?_, h1⟩, fun v => by simp [h2], by simpa using h3⟩
      -- the first kept value is the least one, so only an equal head could meet `u`
      refine lt_of_le_of_ne (hu v ((h2 v).mp hv)) ?_
      rintro rfl
      apply hh
      obtain ⟨w, ws, hw⟩ := List.exists_cons_of_ne_nil (List.ne_nil_of_mem hv)
      rw [hw] at h1 hv h2 ⊢
      have hle := hu w ((h2 w).mp List.mem_cons_self)
      rcases List.mem_cons.mp hv with rfl | hv
      · rfl
      · have := (List.pairwise_cons.mp h1).1 _ hv
        omega

/-- What sorting and dropping repetitions gives: a strictly sorted list of the same values. -/
private theorem normalize_spec (vs : List ℤ) :
    (normalize vs).Pairwise (· < ·) ∧ (∀ v, v ∈ normalize vs ↔ v ∈ vs) ∧
      (normalize vs).length ≤ vs.length := by
  have hsorted : vs.mergeSort.Pairwise (fun a b => decide (a ≤ b) = true) :=
    List.pairwise_mergeSort (by simp only [decide_eq_true_eq]; omega)
      (by simp only [Bool.or_eq_true, decide_eq_true_eq]; omega) vs
  have h := dedupe_spec vs.mergeSort (hsorted.imp of_decide_eq_true)
  refine ⟨h.1, fun v => ?_, ?_⟩
  · rw [← (List.mergeSort_perm vs (fun a b => decide (a ≤ b))).mem_iff]
    exact h.2.1 v
  · exact h.2.2.trans (List.length_mergeSort vs).le

/-- Normalized values are strictly sorted. -/
theorem pairwise_normalize (vs : List ℤ) : (normalize vs).Pairwise (· < ·) :=
  (normalize_spec vs).1

/-- Normalizing neither adds nor loses a value. -/
@[simp] theorem mem_normalize {vs : List ℤ} {v : ℤ} : v ∈ normalize vs ↔ v ∈ vs :=
  (normalize_spec vs).2.1 v

theorem length_normalize_le (vs : List ℤ) : (normalize vs).length ≤ vs.length :=
  (normalize_spec vs).2.2

end WordType

/-- The ends of a sorted list enclose it and belong to it. -/
theorem ends_of_sorted {vs : List ℤ} (hs : vs.Pairwise (· < ·)) (hne : vs ≠ []) :
    vs.head?.getD 0 ∈ vs ∧ vs.getLast?.getD 0 ∈ vs ∧
      ∀ v ∈ vs, vs.head?.getD 0 ≤ v ∧ v ≤ vs.getLast?.getD 0 := by
  obtain ⟨u, us, rfl⟩ := List.exists_cons_of_ne_nil hne
  have hlast : (u :: us).getLast?.getD 0 = (u :: us).getLast hne := by
    rw [List.getLast?_eq_some_getLast hne, Option.getD_some]
  rw [hlast]
  refine ⟨by simp, List.getLast_mem hne, fun v hv => ⟨?_, ?_⟩⟩
  · rcases List.mem_cons.mp hv with rfl | hv
    · simp
    · exact ((List.pairwise_cons.mp hs).1 v hv).le
  · exact (hs.imp le_of_lt).rel_getLast hv

/-! ### Shapes -/

namespace Shape

variable {limit : ℕ} {w : WordType} {t : IntType} {s : Shape} {v : ℤ}

/-- A shape whose values are values of the type. Only integers have intervals and lists, and a list
is sorted and has at least two and at most `limit` values. -/
def Proper (limit : ℕ) (w : WordType) : Shape → Prop
  | constant v => w.view.contains v = true
  | interval r => w ≠ .bit ∧ r.Proper w.view
  | disjunction vs =>
    w ≠ .bit ∧ vs.Pairwise (· < ·) ∧ (∀ v ∈ vs, w.view.contains v = true) ∧
      2 ≤ vs.length ∧ vs.length ≤ limit
  | top => True

/-- A proper shape whose interval, if it is one, has two distinct ends. -/
def WellFormed (limit : ℕ) (w : WordType) (s : Shape) : Prop :=
  s.Proper limit w ∧ ∀ r, s = interval r → r.lo < r.hi

instance decidableProper (limit : ℕ) (w : WordType) (s : Shape) : Decidable (s.Proper limit w) :=
  match s with
  | constant v => inferInstanceAs (Decidable (w.view.contains v = true))
  | interval r => inferInstanceAs (Decidable (w ≠ .bit ∧ r.Proper w.view))
  | disjunction vs => inferInstanceAs (Decidable (w ≠ .bit ∧ vs.Pairwise (· < ·) ∧
      (∀ v ∈ vs, w.view.contains v = true) ∧ 2 ≤ vs.length ∧ vs.length ≤ limit))
  | top => inferInstanceAs (Decidable True)

instance decidableWellFormed (limit : ℕ) (w : WordType) (s : Shape) :
    Decidable (s.WellFormed limit w) :=
  letI : Decidable (∀ r, s = interval r → r.lo < r.hi) :=
    match s with
    | interval r => decidable_of_iff (r.lo < r.hi) (by simp)
    | constant _ | disjunction _ | top => isTrue (by simp)
  inferInstanceAs (Decidable (_ ∧ _))

theorem WellFormed.proper (h : s.WellFormed limit w) : s.Proper limit w := h.1

/-- A value of the type makes a well-formed constant. -/
theorem wellFormed_constant (h : w.view.contains v = true) : (constant v).WellFormed limit w :=
  ⟨h, by simp⟩

/-- Two distinct ends in the type make a well-formed interval. -/
theorem wellFormed_interval {r : Range} (h : r.Proper t) (hlt : r.lo < r.hi) :
    (interval r).WellFormed limit (.int t) :=
  ⟨⟨by simp, h⟩, by rintro _ ⟨⟩; exact hlt⟩

/-- The interval of all values is well formed, as no type has a single value. -/
theorem wellFormed_full (t : IntType) : (interval t.full).WellFormed limit (.int t) :=
  wellFormed_interval (.full t) t.minValue_lt_maxValue

theorem wellFormed_top : top.WellFormed limit w :=
  ⟨trivial, by simp⟩

@[simp] theorem contains_constant {c : ℤ} : (constant c).contains t v = true ↔ v = c := by
  simp [contains, bounds]

@[simp] theorem contains_interval {r : Range} : (interval r).contains t v = true ↔ v ∈ r := by
  simp [contains, bounds]

@[simp] theorem contains_disjunction {vs : List ℤ} :
    (disjunction vs).contains t v = true ↔ v ∈ vs := by
  simp [contains]

@[simp] theorem contains_top : top.contains t v = true ↔ t.contains v = true := by
  simp [contains, bounds]

/-- A shape that is no list holds every integer between its ends. -/
theorem contains_iff_mem_bounds (h : s.precision ≠ .disjunction) :
    s.contains t v = true ↔ v ∈ s.bounds t := by
  cases s <;> simp_all [precision, bounds]

namespace Proper

/-- The values of a proper shape are values of its type. -/
theorem contains (h : s.Proper limit w) (hv : s.contains w.view v = true) :
    w.view.contains v = true := by
  cases s with
  | constant c =>
    rw [contains_constant] at hv
    exact hv ▸ h
  | interval r => exact h.2.contains (contains_interval.mp hv)
  | disjunction vs => exact h.2.2.1 v (contains_disjunction.mp hv)
  | top => exact contains_top.mp hv

/-- A proper list is not empty, as it has two values. -/
theorem ne_nil {vs : List ℤ} (h : (disjunction vs).Proper limit w) : vs ≠ [] := by
  rintro rfl
  have := h.2.2.2.1
  simp at this

/-- The bounds of a proper shape hold its values, and both their ends are values. -/
theorem bounds_spec (h : s.Proper limit w) :
    s.contains w.view (s.bounds w.view).lo = true ∧ s.contains w.view (s.bounds w.view).hi = true ∧
      ∀ v, s.contains w.view v = true → v ∈ s.bounds w.view := by
  cases s with
  | constant c => simp [bounds, Bounds.point]
  | interval r => simpa [bounds] using ⟨h.2.lo_mem_self, h.2.hi_mem_self⟩
  | disjunction vs =>
    simp only [contains_disjunction]
    exact ends_of_sorted h.2.1 h.ne_nil
  | top =>
    have := Bounds.Proper.full w.view
    simpa [bounds] using ⟨this.lo_mem, this.hi_mem⟩

theorem contains_lo (h : s.Proper limit w) : s.contains w.view (s.bounds w.view).lo = true :=
  h.bounds_spec.1

theorem contains_hi (h : s.Proper limit w) : s.contains w.view (s.bounds w.view).hi = true :=
  h.bounds_spec.2.1

/-- The bounds of a proper shape hold all its values. -/
theorem mem_bounds (h : s.Proper limit w) (hv : s.contains w.view v = true) :
    v ∈ s.bounds w.view :=
  h.bounds_spec.2.2 v hv

/-- The bounds of a proper shape are a proper range. -/
theorem bounds (h : s.Proper limit w) : (s.bounds w.view).Proper w.view :=
  ⟨(h.mem_bounds h.contains_lo).2, h.contains h.contains_lo, h.contains h.contains_hi⟩

end Proper

end Shape

/-! ### Building shapes -/

namespace WordType

variable {limit : ℕ} {w : WordType} {r : Range} {vs : List ℤ} {v : ℤ}

/-- A bit, seen as a word, is zero or one. -/
theorem contains_view_bit : (WordType.bit).view.contains v = true ↔ v = 0 ∨ v = 1 := by
  rw [IntType.contains_iff]
  change 0 ≤ v ∧ v ≤ 1 ↔ _
  omega

/-- The shape of a range holds exactly the range. -/
theorem contains_rangeShape (h : r.Proper w.view) :
    (w.rangeShape r).contains w.view v = true ↔ v ∈ r := by
  have hle := h.le
  cases w with
  | int t =>
    simp only [rangeShape]
    split
    · rw [Shape.contains_constant, Bounds.mem_def]
      omega
    · rw [Shape.contains_interval]
  | bit =>
    have hlo := contains_view_bit.mp h.lo_mem
    have hhi := contains_view_bit.mp h.hi_mem
    simp only [rangeShape]
    split
    · rw [Shape.contains_constant, Bounds.mem_def]
      split <;> omega
    · rw [Shape.contains_top, contains_view_bit, Bounds.mem_def]
      omega

/-- The shape of a proper range is well formed: equal ends become a constant. -/
theorem wellFormed_rangeShape (h : r.Proper w.view) : (w.rangeShape r).WellFormed limit w := by
  have hle := h.le
  cases w with
  | int t =>
    simp only [rangeShape]
    split
    · exact Shape.wellFormed_constant h.lo_mem
    · exact Shape.wellFormed_interval h (by omega)
  | bit =>
    simp only [rangeShape]
    split
    · refine Shape.wellFormed_constant (contains_view_bit.mpr ?_)
      split <;> simp
    · exact Shape.wellFormed_top

/-- The ends of the sorted values are values, with all of them in between. -/
theorem ends_normalize (hne : vs ≠ []) :
    let r : Range := ⟨(normalize vs).head?.getD 0, (normalize vs).getLast?.getD 0⟩
    r.lo ∈ vs ∧ r.hi ∈ vs ∧ ∀ v ∈ vs, v ∈ r := by
  obtain ⟨u, hu⟩ := List.exists_mem_of_ne_nil vs hne
  have h := ends_of_sorted (pairwise_normalize vs)
    (List.ne_nil_of_mem (mem_normalize.mpr hu))
  simpa only [mem_normalize, Bounds.mem_mk] using h

/-- The ends of the sorted values are a proper range. -/
private theorem proper_ends_normalize (hne : vs ≠ []) (hvs : ∀ v ∈ vs, w.view.contains v = true) :
    (⟨(normalize vs).head?.getD 0, (normalize vs).getLast?.getD 0⟩ : Range).Proper w.view := by
  obtain ⟨hlo, hhi, hall⟩ := ends_normalize hne
  exact ⟨(hall _ hlo).2, hvs _ hlo, hvs _ hhi⟩

/-- A single value makes a constant. -/
theorem valuesShape_singleton (h : w.view.contains v = true) :
    w.valuesShape limit [v] = .constant v := by
  have hsorted : normalize [v] = [v] := by simp [normalize]
  cases w with
  | int t => simp [valuesShape, hsorted, rangeShape]
  | bit =>
    rcases contains_view_bit.mp h with rfl | rfl <;> simp [valuesShape, hsorted, rangeShape]

/-- The shape of some listed values is well formed and holds them all. -/
theorem wellFormed_valuesShape (hne : vs ≠ []) (hvs : ∀ v ∈ vs, w.view.contains v = true) :
    (w.valuesShape limit vs).WellFormed limit w := by
  cases w with
  | bit => exact wellFormed_rangeShape (proper_ends_normalize hne hvs)
  | int t =>
    simp only [valuesShape]
    split
    · next hlen =>
      refine ⟨⟨by simp, pairwise_normalize vs, fun v hv => hvs v (mem_normalize.mp hv), ?_, ?_⟩,
        by simp⟩ <;> omega
    · exact wellFormed_rangeShape (proper_ends_normalize hne hvs)

/-- The shape of some values holds every one of them, also when they are too many to be listed. -/
theorem contains_valuesShape_of_mem (hvs : ∀ v ∈ vs, w.view.contains v = true) (hv : v ∈ vs) :
    (w.valuesShape limit vs).contains w.view v = true := by
  have hne := List.ne_nil_of_mem hv
  have hr := (ends_normalize hne).2.2 v hv
  cases w with
  | bit => exact (contains_rangeShape (proper_ends_normalize hne hvs)).mpr hr
  | int t =>
    simp only [valuesShape]
    split
    · simpa using hv
    · exact (contains_rangeShape (proper_ends_normalize hne hvs)).mpr hr

/-- At most `limit` values are listed as they are, and so are those of a bit. -/
theorem contains_valuesShape (hne : vs ≠ []) (hvs : ∀ v ∈ vs, w.view.contains v = true)
    (hlen : w = .bit ∨ vs.length ≤ limit) :
    (w.valuesShape limit vs).contains w.view v = true ↔ v ∈ vs := by
  refine ⟨fun h => ?_, contains_valuesShape_of_mem hvs⟩
  obtain ⟨hlo, hhi, hall⟩ := ends_normalize hne
  have hp := proper_ends_normalize hne hvs
  -- what is not listed is a range without inner values: of a bit, or of a single value
  cases w with
  | bit =>
    rw [valuesShape, contains_rangeShape hp, Bounds.mem_mk] at h
    have h1 := contains_view_bit.mp (hvs _ hlo)
    have h2 := contains_view_bit.mp (hvs _ hhi)
    simp only at hlo hhi h1 h2
    have : v = (normalize vs).head?.getD 0 ∨ v = (normalize vs).getLast?.getD 0 := by omega
    rcases this with rfl | rfl <;> assumption
  | int t =>
    simp only [valuesShape] at h
    split at h
    · simpa using h
    · next hn =>
      have hlen := hlen.resolve_left (by simp)
      rw [contains_rangeShape hp, Bounds.mem_mk] at h
      have hl := length_normalize_le vs
      obtain ⟨u, us, hu⟩ := List.exists_cons_of_ne_nil
        (List.ne_nil_of_mem (mem_normalize.mpr hlo))
      have hus : us = [] := by
        rw [hu, List.length_cons] at hn hl
        exact List.eq_nil_of_length_eq_zero (by omega)
      subst hus
      rw [hu] at h hlo
      simp only [List.head?_cons, Option.getD_some, List.getLast?_singleton] at h hlo
      exact le_antisymm h.2 h.1 ▸ hlo

end WordType

/-! ### Elements -/

namespace Element

variable {limit : ℕ} {w : WordType} {s : Shape} {v : ℤ}

/-- The integers that a word stands for. -/
def values (e : Element) : Set ℤ :=
  {v | e.containsInt v = true}

/-- A well-formed word of a type. -/
def IsWord (limit : ℕ) (w : WordType) (e : Element) : Prop :=
  ∃ s, e = .word w s ∧ s.WellFormed limit w

instance decidableIsWord (limit : ℕ) (w : WordType) (e : Element) : Decidable (e.IsWord limit w) :=
  match e with
  | word u s => decidable_of_iff (u = w ∧ s.WellFormed limit w) (by
      constructor
      · rintro ⟨rfl, h⟩
        exact ⟨s, rfl, h⟩
      · rintro ⟨_, ⟨⟩, h⟩
        exact ⟨rfl, h⟩)
  | float _ _ => isFalse (by rintro ⟨_, ⟨⟩, -⟩)

/-- The values of a word are those that its shape holds. -/
@[simp] theorem mem_values_word : v ∈ (word w s).values ↔ s.contains w.view v = true := Iff.rfl

theorem isWord_word (h : s.WellFormed limit w) : (word w s).IsWord limit w := ⟨s, rfl, h⟩

/-- A well-formed word passes its checks. -/
theorem checkedWord_eq_ok (h : s.WellFormed limit w) : checkedWord w s = .ok (.word w s) := by
  obtain ⟨h, -⟩ := h
  cases w with
  | bit => rfl
  | int t =>
    cases s with
    | constant v => exact if_pos h
    | interval r => exact if_pos ⟨h.2.le, h.2.lo_mem, h.2.hi_mem⟩
    | disjunction vs => rfl
    | top => rfl

end Element

/-- The integers that an optional second operand stands for; an operation that takes none reads the
dummy `0`. -/
def operandValues : Option Element → Set ℤ
  | none => {0}
  | some y => y.values

/-- A second operand of the given type, absent when no type is given. -/
def IsOperand (limit : ℕ) : Option WordType → Option Element → Prop
  | none, none => True
  | some u, some y => y.IsWord limit u
  | _, _ => False

instance decidableIsOperand (limit : ℕ) (arg : Option WordType) (y : Option Element) :
    Decidable (IsOperand limit arg y) :=
  match arg, y with
  | none, none => inferInstanceAs (Decidable True)
  | some u, some y => inferInstanceAs (Decidable (y.IsWord limit u))
  | none, some _ | some _, none => inferInstanceAs (Decidable False)

/-- An operation without a second operand gets none. -/
theorem IsOperand.eq_none {limit : ℕ} {y : Option Element} (h : IsOperand limit none y) :
    y = none := by
  cases y with
  | none => rfl
  | some y => exact h.elim

/-- A second operand of a type is a well-formed word of the type. -/
theorem IsOperand.exists_word {limit : ℕ} {u : WordType} {y : Option Element}
    (h : IsOperand limit (some u) y) : ∃ s, y = some (.word u s) ∧ s.WellFormed limit u := by
  cases y with
  | none => exact h.elim
  | some y =>
    obtain ⟨s, rfl, hs⟩ := h
    exact ⟨s, rfl, hs⟩

end ScalarDomain
