import ScalarDomain.Proofs.Execution
import ScalarDomain.Proofs.Landmark
import ScalarDomain.Forward.Interval

/-!
# What a step delivers

A delivery *covers* a set of values when none of them is lost, and it is *tight* when, being called
exact, it has no other. The lemmas here are about the building blocks that all transfer steps
share: ranges, truth values, results that may overflow, and hulls of several images.
-/

namespace ScalarDomain

namespace Delivery

/-- Every value of the set is delivered, as a word of the given type. An empty range delivers
nothing. -/
def Covers (out : WordType) (S : Set ℤ) : Delivery → Prop
  | nothing => S = ∅
  | words ty r _ => ty = out ∧ (r.lo ≤ r.hi → r.Proper out.view) ∧ ∀ v ∈ S, v ∈ r
  | floats .. => False

/-- A range that is called exact has only values of the set. -/
def IsTight (S : Set ℤ) : Delivery → Prop
  | words _ r exact => exact = true → ∀ v ∈ r, v ∈ S
  | _ => True

/-- The delivery covers the set and is tight. -/
structure Describes (out : WordType) (S : Set ℤ) (d : Delivery) : Prop where
  /-- No value is lost. -/
  covers : d.Covers out S
  /-- An exact range has no other value. -/
  tight : d.IsTight S

/-- The delivery has only values of the set, whether it is called exact or not. -/
def Within (S : Set ℤ) : Delivery → Prop
  | words _ r _ => ∀ v ∈ r, v ∈ S
  | _ => True

/-- The delivery has the values of the set and no others. -/
structure Equals (out : WordType) (S : Set ℤ) (d : Delivery) : Prop where
  /-- No value is lost. -/
  covers : d.Covers out S
  /-- There is no other value. -/
  within : d.Within S

/-- A delivery without other values is tight, whatever it is called. -/
theorem Equals.describes {out : WordType} {S : Set ℤ} {d : Delivery} (h : d.Equals out S) :
    d.Describes out S := by
  refine ⟨h.covers, ?_⟩
  cases d with
  | words ty r exact => exact fun _ => h.within
  | _ => trivial

end Delivery

namespace Step

open Outcome

variable {stops exact : Bool} {out : WordType} {S : Set ℤ} {r : Range} {step : Step}

@[simp] theorem delivery_withErrors (step : Step) (errors : List (ErrorKind × Bool)) :
    (step.withErrors errors).delivery = step.delivery := rfl

/-! ### Ranges -/

/-- A range around the set describes it if it is not called exact wrongly. -/
theorem words_describes (hr : r.lo ≤ r.hi → r.Proper out.view) (hcov : ∀ v ∈ S, v ∈ r)
    (htight : exact = true → ∀ v ∈ r, v ∈ S) : (words out r exact).delivery.Describes out S :=
  ⟨⟨rfl, hr, hcov⟩, htight⟩

/-- Nothing describes the empty set. -/
theorem nothing_describes {errors : List (ErrorKind × Bool)} (h : ∀ v, v ∉ S) :
    (Step.mk errors .nothing).delivery.Describes out S :=
  ⟨Set.eq_empty_of_forall_notMem h, trivial⟩

/-- All words of a type describe any set of them, as they are never called exact. -/
theorem anyWord_describes (h : ∀ v ∈ S, out.view.contains v = true) :
    (anyWord out).delivery.Describes out S :=
  words_describes (fun _ => .full _) (fun v hv => Bounds.mem_full.mpr (h v hv)) (by simp)

/-- A single value. -/
theorem point_describes {u : ℤ} (hu : out.view.contains u = true) (h : ∀ v, v ∈ S ↔ v = u) :
    (words out (.point u) true).delivery.Describes out S :=
  words_describes (fun _ => .point hu) (fun v hv => Bounds.mem_point.mpr ((h v).mp hv))
    fun _ v hv => (h v).mpr (Bounds.mem_point.mp hv)

/-! ### Truth values -/

/-- Truth values that may occur, if those that are called possible do. -/
theorem truth_describes {mayBeTrue mayBeFalse : Bool}
    (hcov : ∀ v ∈ S, (v = 1 ∧ mayBeTrue = true) ∨ (v = 0 ∧ mayBeFalse = true))
    (htrue : mayBeTrue = true → 1 ∈ S) (hfalse : mayBeFalse = true → 0 ∈ S) :
    (truth mayBeTrue mayBeFalse).delivery.Describes .bit S := by
  refine words_describes ?_ (fun v hv => ?_) fun _ v hv => ?_
  · intro hle
    refine ⟨hle, WordType.contains_view_bit.mpr ?_, WordType.contains_view_bit.mpr ?_⟩ <;>
      simp only <;> split <;> simp
  · rw [Bounds.mem_mk]
    rcases hcov v hv with ⟨rfl, h⟩ | ⟨rfl, h⟩ <;> simp [h]
    · split <;> simp
    · split <;> simp
  · obtain ⟨h1, h2⟩ := hv
    cases mayBeTrue <;> cases mayBeFalse <;> simp at h1 h2
    · omega
    · exact (show v = 0 by omega) ▸ hfalse rfl
    · exact (show v = 1 by omega) ▸ htrue rfl
    · rcases (show v = 0 ∨ v = 1 by omega) with rfl | rfl
      · exact hfalse rfl
      · exact htrue rfl

/-- One truth value. -/
theorem ofBool_describes {b : Bool} (h : ∀ v, v ∈ S ↔ v = if b then 1 else 0) :
    (ofBool b).delivery.Describes .bit S := by
  refine truth_describes (fun v hv => ?_) (fun hb => ?_) fun hb => ?_
  · have := (h v).mp hv
    cases b <;> simp_all
  · exact (h 1).mpr (by simp [hb])
  · exact (h 0).mpr (by cases b <;> simp_all)

/-! ### Results that may overflow -/

/-- On a range shorter than the modulus whose ends wrap around in order, wrap-around is a
translation. -/
theorem exists_wrap_translation {t : IntType} (hr : r.lo ≤ r.hi)
    (hshort : r.hi - r.lo + 1 < t.modulus) (hle : t.wrap r.lo ≤ t.wrap r.hi) :
    ∃ k, ∀ m ∈ r, t.wrap m = m + k * t.modulus := by
  obtain ⟨k, hk⟩ := t.exists_wrap_eq r.lo
  obtain ⟨l, hl⟩ := t.exists_wrap_eq r.hi
  have hlo := IntType.contains_iff.mp (t.contains_wrap r.lo)
  have hhi := IntType.contains_iff.mp (t.contains_wrap r.hi)
  have hmod := t.modulus_eq
  have hkl : k = l := by
    by_contra hne
    rcases lt_or_gt_of_ne hne with h | h
    · have : (k + 1) * t.modulus ≤ l * t.modulus :=
        mul_le_mul_of_nonneg_right (by omega) t.modulus_pos.le
      rw [add_mul] at this
      omega
    · have : (l + 1) * t.modulus ≤ k * t.modulus :=
        mul_le_mul_of_nonneg_right (by omega) t.modulus_pos.le
      rw [add_mul] at this
      omega
  subst hkl
  refine ⟨k, fun m hm => IntType.wrap_eq_of_add_mul (k := -k) ?_ (by ring)⟩
  obtain ⟨h1, h2⟩ := hm
  exact IntType.contains_of_between (t.contains_wrap r.lo) (t.contains_wrap r.hi) (by omega)
    (by omega)

/-- The mathematical results `r` of an operation, stored into a type. -/
theorem overflowing_describes
    (hcov : ∀ v ∈ S, ∃ m ∈ r, v ∈ (stored stops out.view m).values out.view)
    (htight : exact = true →
      ∀ m ∈ r, ∀ v ∈ (stored stops out.view m).values out.view, v ∈ S) :
    (overflowing stops out r exact).delivery.Describes out S := by
  have hany : ∀ v ∈ S, out.view.contains v = true := fun v hv =>
    let ⟨_, _, hm⟩ := hcov v hv
    contains_of_mem_stored hm
  rw [overflowing]
  split
  · next hfit =>
    simp only [Bool.and_eq_true, Bool.not_eq_true', decide_eq_false_iff_not, not_lt] at hfit
    have hin : ∀ m ∈ r, out.view.contains m = true := fun m hm =>
      IntType.contains_iff.mpr ⟨hfit.2.trans hm.1, hm.2.trans hfit.1⟩
    refine words_describes (fun hle => .of_bounds hfit.2 hle hfit.1) (fun v hv => ?_)
      fun he v hv => ?_
    · obtain ⟨m, hm, hv⟩ := hcov v hv
      rw [mem_values_stored_of_contains (hin m hm)] at hv
      exact hv ▸ hm
    · exact htight he v hv v ((mem_values_stored_of_contains (hin v hv)).mpr rfl)
  cases stops with
  | true =>
    -- only the results inside the type go on
    refine words_describes (fun hle => .of_bounds (le_max_right _ _) hle (min_le_right _ _))
      (fun v hv => ?_) fun he v hv => ?_
    · obtain ⟨m, hm, hv⟩ := hcov v hv
      obtain ⟨hc, rfl⟩ := mem_values_stored_true.mp hv
      have := IntType.contains_iff.mp hc
      exact ⟨max_le hm.1 this.1, le_min hm.2 this.2⟩
    · obtain ⟨h1, h2⟩ := hv
      simp only [max_le_iff, le_min_iff] at h1 h2
      exact htight he v ⟨h1.1, h2.1⟩ v
        (mem_values_stored_true.mpr ⟨IntType.contains_iff.mpr ⟨h1.2, h2.2⟩, rfl⟩)
  | false =>
    simp only [Bool.false_eq_true, if_false]
    split
    · exact anyWord_describes hany
    split
    · next hlong hle =>
      refine words_describes (fun h => ⟨h, IntType.contains_wrap _ _, IntType.contains_wrap _ _⟩)
        (fun v hv => ?_) (by simp)
      obtain ⟨m, hm, hv⟩ := hcov v hv
      rw [mem_values_stored_false] at hv
      have hr : r.lo ≤ r.hi := hm.1.trans hm.2
      obtain ⟨k, hk⟩ := exists_wrap_translation hr (by omega) hle
      rw [hv, Bounds.mem_mk, hk _ hm, hk _ ⟨le_rfl, hr⟩, hk _ ⟨hr, le_rfl⟩]
      exact ⟨add_le_add_left hm.1 _, add_le_add_left hm.2 _⟩
    · exact anyWord_describes hany

/-! ### Hulls -/

/-- The hull of some images of a set. -/
theorem hullStep_covers {images : List Range} (hproper : ∀ i ∈ images, i.Proper out.view)
    (hcov : ∀ v ∈ S, ∃ i ∈ images, v ∈ i) : (hullStep out images exact).delivery.Covers out S := by
  rw [hullStep]
  split
  · next hull hh =>
    refine ⟨rfl, fun _ => Bounds.proper_of_hull?_eq_some hh hproper, fun v hv => ?_⟩
    obtain ⟨i, hi, hvi⟩ := hcov v hv
    exact Bounds.mem_of_hull?_eq_some hh hi hvi
  · next hn =>
    refine Set.eq_empty_of_forall_notMem fun v hv => ?_
    obtain ⟨i, hi, -⟩ := hcov v hv
    simp [Bounds.hull?_eq_none_iff.mp hn] at hi

/-- Only a single image is sure to have no gaps. -/
theorem hullStep_tight {images : List Range} (hone : exact = true → images.length = 1)
    (htight : exact = true → ∀ i, images = [i] → ∀ v ∈ i, v ∈ S) :
    (hullStep out images exact).delivery.IsTight S := by
  rw [hullStep]
  split
  · next hull hh =>
    intro he v hv
    obtain ⟨i, rfl⟩ := List.length_eq_one_iff.mp (hone he)
    cases hh
    exact htight he _ rfl v hv
  · trivial

end Step

end ScalarDomain
