import ScalarDomain.Extremum
import ScalarDomain.Proofs.Range

/-!
# Operands of a minimum or maximum, exactly

Over a linear order, `Extremum.refine?` answers `none` exactly when no pair of operands has its
minimum or maximum in the result, and otherwise gives the two smallest ranges that hold all such
pairs: each of the four ends belongs to some pair. A maximum is a minimum of the opposite order
(`Extremum.refine?_max`), so that the argument is made for a minimum, on the closed form of its
refinement (`Extremum.refine?_min`).
-/

namespace ScalarDomain

section Order

variable {α : Type} [LinearOrder α] {less : α → α → Bool}
  (hless : ∀ a b, less a b = true ↔ a < b)

include hless

theorem least_eq_min (a b : α) : least less a b = min a b := by
  simp only [least, hless]
  split_ifs with h
  · exact (min_eq_right h.le).symm
  · exact (min_eq_left (not_lt.mp h)).symm

theorem greatest_eq_max (a b : α) : greatest less a b = max a b := by
  simp only [greatest, hless]
  split_ifs with h
  · exact (max_eq_right h.le).symm
  · exact (max_eq_left (not_lt.mp h)).symm

end Order

/-- The range between the same ends under the opposite order. -/
def Bounds.mirror {α : Type} (x : Bounds α) : Bounds α :=
  ⟨x.hi, x.lo⟩

namespace Extremum

variable {α : Type}

/-- A maximum is a minimum of the opposite order. -/
theorem refine?_max (less : α → α → Bool) (a b c : Bounds α) :
    max.refine? less a b c =
      (min.refine? (flip less) a.mirror b.mirror c.mirror).map (Prod.map .mirror .mirror) := by
  have hcut (x : Bounds α) :
      min.cut (flip less) c.mirror x.mirror = (max.cut less c x).mirror := rfl
  have hempty (x : Bounds α) : x.mirror.isEmptyBy (flip less) = x.isEmptyBy less := rfl
  have hout (x : Bounds α) :
      min.isOutOfReach (flip less) c.mirror x.mirror = max.isOutOfReach less c x := rfl
  have hmeet (x : Bounds α) :
      x.mirror.meetBy (flip less) c.mirror = (x.meetBy less c).mirror := rfl
  have hreach (x y : Bounds α) :
      min.reachable (flip less) x.mirror y.mirror = (max.reachable less x y).mirror := rfl
  simp only [refine?, hcut, hempty, hout, hmeet, ← apply_ite Bounds.mirror, hreach]
  split_ifs <;> rfl

variable [LinearOrder α]

/-- The smaller or the larger of two values. -/
def select (e : Extremum) (p q : α) : α :=
  match e with
  | min => Min.min p q
  | max => Max.max p q

/-- The pairs of operands of two ranges whose extremum lies in a third one. -/
def feasible (e : Extremum) (a b c : Bounds α) : Set (α × α) :=
  {p | p.1 ∈ Set.Icc a.lo a.hi ∧ p.2 ∈ Set.Icc b.lo b.hi ∧ e.select p.1 p.2 ∈ Set.Icc c.lo c.hi}

section Minimum

variable {less : α → α → Bool} {a b c lhs rhs : Bounds α} {p q : α}

theorem mem_feasible_min :
    (p, q) ∈ min.feasible a b c ↔
      (Max.max a.lo c.lo ≤ p ∧ p ≤ a.hi) ∧ (Max.max b.lo c.lo ≤ q ∧ q ≤ b.hi) ∧
        (p ≤ c.hi ∨ q ≤ c.hi) := by
  simp only [feasible, select, Set.mem_ofPred_eq, Set.mem_Icc, max_le_iff, le_min_iff, min_le_iff]
  tauto

/-- Both operands stay above the result, and one of them reaches into it. -/
theorem refine?_min (hless : ∀ a b, less a b = true ↔ a < b) (a b c : Bounds α) :
    min.refine? less a b c =
      let p := Max.max a.lo c.lo
      let q := Max.max b.lo c.lo
      if p ≤ a.hi ∧ q ≤ b.hi ∧ (p ≤ c.hi ∨ q ≤ c.hi) then
        some (⟨p, if c.hi < q then Min.min a.hi c.hi else a.hi⟩,
          ⟨q, if c.hi < p then Min.min b.hi c.hi else b.hi⟩)
      else none := by
  simp only [refine?, cut, isOutOfReach, reachable, Bounds.isEmptyBy, Bounds.meetBy,
    least_eq_min hless, greatest_eq_max hless, Bool.or_eq_true, hless]
  have hp : c.lo ≤ Max.max a.lo c.lo := le_max_right _ _
  have hq : c.lo ≤ Max.max b.lo c.lo := le_max_right _ _
  generalize Max.max a.lo c.lo = p at *
  generalize Max.max b.lo c.lo = q at *
  simp only [max_eq_left hp, max_eq_left hq, ← not_lt]
  by_cases h1 : c.hi < p <;> by_cases h2 : c.hi < q <;>
    simp only [h1, h2, if_true, if_false, not_true, not_false_iff, or_self, or_true, or_false,
      and_true, and_false, min_lt_iff, lt_max_iff, lt_min_iff] <;>
    grind

/-- The smallest first operand of a minimum goes with the smallest second one. -/
theorem isLeast_first_min (ha : Max.max a.lo c.lo ≤ a.hi) (hb : Max.max b.lo c.lo ≤ b.hi)
    (hc : Max.max a.lo c.lo ≤ c.hi ∨ Max.max b.lo c.lo ≤ c.hi) :
    IsLeast (Prod.fst '' min.feasible a b c) (Max.max a.lo c.lo) := by
  refine ⟨⟨(_, Max.max b.lo c.lo), mem_feasible_min.mpr ⟨⟨le_rfl, ha⟩, ⟨le_rfl, hb⟩, hc⟩, rfl⟩, ?_⟩
  rintro _ ⟨⟨p, q⟩, h, rfl⟩
  exact (mem_feasible_min.mp h).1.1

/-- The largest first operand of a minimum lies in the result if every second one is above it. -/
theorem isGreatest_first_min (ha : Max.max a.lo c.lo ≤ a.hi) (hb : Max.max b.lo c.lo ≤ b.hi)
    (hc : Max.max a.lo c.lo ≤ c.hi ∨ Max.max b.lo c.lo ≤ c.hi) :
    IsGreatest (Prod.fst '' min.feasible a b c)
      (if c.hi < Max.max b.lo c.lo then Min.min a.hi c.hi else a.hi) := by
  split_ifs with hq
  · have hp := hc.resolve_right (not_le.mpr hq)
    refine ⟨⟨(_, Max.max b.lo c.lo), mem_feasible_min.mpr
      ⟨⟨le_min ha hp, min_le_left _ _⟩, ⟨le_rfl, hb⟩, .inl (min_le_right _ _)⟩, rfl⟩, ?_⟩
    rintro _ ⟨⟨p, q⟩, h, rfl⟩
    obtain ⟨⟨-, hp⟩, ⟨hle, -⟩, hpq⟩ := mem_feasible_min.mp h
    exact le_min hp (hpq.resolve_right (not_le.mpr (hq.trans_le hle)))
  · refine ⟨⟨(_, Max.max b.lo c.lo), mem_feasible_min.mpr
      ⟨⟨ha, le_rfl⟩, ⟨le_rfl, hb⟩, .inr (not_lt.mp hq)⟩, rfl⟩, ?_⟩
    rintro _ ⟨⟨p, q⟩, h, rfl⟩
    exact (mem_feasible_min.mp h).1.2

theorem snd_image_feasible_min :
    Prod.snd '' min.feasible a b c = Prod.fst '' min.feasible b a c := by
  ext v
  simp only [Set.mem_image, Prod.exists, mem_feasible_min]
  grind

/-- The refinement of a minimum is the smallest one. -/
theorem encloses_min (hless : ∀ a b, less a b = true ↔ a < b)
    (h : min.refine? less a b c = some (lhs, rhs)) : Encloses lhs rhs (min.feasible a b c) := by
  rw [refine?_min hless] at h
  obtain ⟨⟨ha, hb, hc⟩, h⟩ := Option.ite_none_right_eq_some.mp h
  obtain ⟨rfl, rfl⟩ := Prod.mk.inj (Option.some.inj h)
  refine ⟨isLeast_first_min ha hb hc, isGreatest_first_min ha hb hc, ?_, ?_⟩ <;>
    rw [snd_image_feasible_min]
  · exact isLeast_first_min hb ha hc.symm
  · exact isGreatest_first_min hb ha hc.symm

/-- A minimum is refused when no pair has it. -/
theorem feasible_min_eq_empty (hless : ∀ a b, less a b = true ↔ a < b)
    (h : min.refine? less a b c = none) : min.feasible a b c = ∅ := by
  rw [refine?_min hless] at h
  refine Set.eq_empty_iff_forall_notMem.mpr fun ⟨p, q⟩ hpq => ?_
  obtain ⟨⟨h1, h2⟩, ⟨h3, h4⟩, h5⟩ := mem_feasible_min.mp hpq
  refine Option.some_ne_none _ ((if_pos ?_).symm.trans h)
  exact ⟨h1.trans h2, h3.trans h4, h5.imp h1.trans h3.trans⟩

end Minimum

section Either

variable {less : α → α → Bool} {a b c lhs rhs : Bounds α}

/-- The pairs of a maximum are those of a minimum of the opposite order. -/
theorem feasible_max : max.feasible a b c = @feasible αᵒᵈ _ min a.mirror b.mirror c.mirror := by
  ext p
  exact ⟨fun ⟨h1, h2, h3⟩ => ⟨h1.symm, h2.symm, h3.symm⟩,
    fun ⟨h1, h2, h3⟩ => ⟨h1.symm, h2.symm, h3.symm⟩⟩

theorem encloses_of_refine? (hless : ∀ a b, less a b = true ↔ a < b) (e : Extremum)
    (h : e.refine? less a b c = some (lhs, rhs)) : Encloses lhs rhs (e.feasible a b c) := by
  cases e with
  | min => exact encloses_min hless h
  | max =>
    rw [refine?_max] at h
    obtain ⟨⟨l, r⟩, hmin, hm⟩ := Option.map_eq_some_iff.mp h
    obtain ⟨rfl, rfl⟩ := Prod.mk.inj hm
    have he := @encloses_min αᵒᵈ _ (flip less) _ _ _ _ _ (fun a b => hless b a) hmin
    rw [feasible_max]
    exact ⟨he.first_hi, he.first_lo, he.second_hi, he.second_lo⟩

theorem feasible_eq_empty (hless : ∀ a b, less a b = true ↔ a < b) (e : Extremum)
    (h : e.refine? less a b c = none) : e.feasible a b c = ∅ := by
  cases e with
  | min => exact feasible_min_eq_empty hless h
  | max =>
    rw [refine?_max, Option.map_eq_none_iff] at h
    rw [feasible_max]
    exact @feasible_min_eq_empty αᵒᵈ _ (flip less) _ _ _ (fun a b => hless b a) h

/-- A feasible pair lies in the refined ranges. -/
theorem exists_refine? (hless : ∀ a b, less a b = true ↔ a < b) {e : Extremum} {p q : α}
    (h : (p, q) ∈ e.feasible a b c) :
    ∃ r ∈ e.refine? less a b c, p ∈ Set.Icc r.1.lo r.1.hi ∧ q ∈ Set.Icc r.2.lo r.2.hi := by
  cases hr : e.refine? less a b c with
  | none => exact absurd h (feasible_eq_empty hless e hr ▸ Set.notMem_empty _)
  | some r =>
    have he := encloses_of_refine? hless e hr
    exact ⟨r, rfl, ⟨he.first_lo.2 ⟨_, h, rfl⟩, he.first_hi.2 ⟨_, h, rfl⟩⟩,
      he.second_lo.2 ⟨_, h, rfl⟩, he.second_hi.2 ⟨_, h, rfl⟩⟩

/-- Whatever the linear order that `less` decides, the operands of a minimum or maximum are refused
exactly when no pair of them has its extremum in `c`, and otherwise refined to the smallest ranges
that hold all such pairs. -/
theorem refine?_exact (hless : ∀ a b, less a b = true ↔ a < b) (e : Extremum) (a b c : Bounds α) :
    (e.refine? less a b c = none ↔ e.feasible a b c = ∅) ∧
      ∀ lhs rhs, e.refine? less a b c = some (lhs, rhs) → Encloses lhs rhs (e.feasible a b c) := by
  refine ⟨⟨feasible_eq_empty hless e, fun hF => ?_⟩, fun _ _ => encloses_of_refine? hless e⟩
  by_contra hne
  obtain ⟨⟨lhs, rhs⟩, hr⟩ := Option.ne_none_iff_exists'.mp hne
  obtain ⟨⟨p, hp, -⟩, -⟩ := (encloses_of_refine? hless e hr).first_lo
  exact hF.le hp

/-- The second operand is above the result, so that the first one is the minimum: of `0..9` only
the values of the result are left. -/
theorem refine?_exact_int :
    (∀ a b, intLess a b = true ↔ a < b) ∧
      Encloses ⟨2, 5⟩ ⟨7, 8⟩ (min.feasible (⟨0, 9⟩ : Range) ⟨7, 8⟩ ⟨2, 5⟩) :=
  have hless : ∀ a b, intLess a b = true ↔ a < b := fun _ _ => decide_eq_true_iff
  ⟨hless, (refine?_exact hless .min ⟨0, 9⟩ ⟨7, 8⟩ ⟨2, 5⟩).2 _ _ rfl⟩

end Either

end Extremum

end ScalarDomain
