import ScalarDomain.Proofs.Range

/-!
# Tilings by ranges

A list of ranges **tiles** a set of integers when none of them is empty, no two have an integer in
common, and together they hold the integers of the set and nothing else. A map that is injective on
the set carries a tiling along, if it does so on every piece (`Bounds.Tiles.flatMap`).

The values and the patterns of an integer type are two views of the same words. The patterns of a
range of values are tiled by `IntType.bitRanges`, and the values of a range of patterns by
`IntType.valueRanges`. Values are broken at zero and patterns in the middle, where the other view
jumps, so no piece crosses a sign boundary. Since reading a pattern undoes writing it, going through
the other view and back tiles the range one started from (`IntType.views_invert`).
-/

namespace ScalarDomain

namespace Bounds

/-- Ranges that break a set of integers into pieces. -/
structure Tiles (pieces : List Range) (S : Set ℤ) : Prop where
  /-- No piece is empty. -/
  le : ∀ q ∈ pieces, q.lo ≤ q.hi
  /-- No two pieces have an integer in common. -/
  disjoint : pieces.Pairwise fun p q => Disjoint p.toSet q.toSet
  /-- The pieces hold the integers of the set and nothing else. -/
  mem_iff : ∀ v, (∃ q ∈ pieces, v ∈ q) ↔ v ∈ S

/-- A range that has integers on both sides of a boundary, which lies just below `b`. -/
def Crosses (r : Range) (b : ℤ) : Prop :=
  b - 1 ∈ r ∧ b ∈ r

/-- Ranges one after the other are disjoint. -/
theorem disjoint_of_hi_lt_lo {p q : Range} (h : p.hi < q.lo) : Disjoint p.toSet q.toSet :=
  Set.disjoint_left.mpr fun _ hp hq => absurd (hp.2.trans_lt (h.trans_le hq.1)) (lt_irrefl _)

namespace Tiles

variable {pieces : List Range} {S : Set ℤ}

/-- A tile lies in what is tiled. -/
theorem subset (h : Tiles pieces S) {q : Range} (hq : q ∈ pieces) : q.toSet ⊆ S :=
  fun v hv => (h.mem_iff v).mp ⟨q, hq, hv⟩

/-- An integer of the set lies in exactly one piece. -/
theorem exists_filter_eq {α : Type} {l : List α} {piece : α → Range} {v : ℤ}
    (h : Tiles (l.map piece) S) (hv : v ∈ S) :
    ∃ a, l.filter (fun a => (piece a).contains v) = [a] := by
  have hmem : ∀ a ∈ l.filter (fun a => (piece a).contains v), v ∈ piece a := fun a ha =>
    contains_iff.mp (List.mem_filter.mp ha).2
  have hdisjoint := (List.pairwise_map.mp h.disjoint).filter fun a => (piece a).contains v
  cases hl : l.filter fun a => (piece a).contains v with
  | nil =>
    obtain ⟨q, hq, hvq⟩ := (h.mem_iff v).mpr hv
    obtain ⟨a, ha, rfl⟩ := List.mem_map.mp hq
    exact absurd (contains_iff.mpr hvq) (List.filter_eq_nil_iff.mp hl a ha)
  | cons a rest =>
    cases rest with
    | nil => exact ⟨a, rfl⟩
    | cons b rest =>
      rw [hl] at hmem hdisjoint
      have hab := List.rel_of_pairwise_cons hdisjoint List.mem_cons_self
      exact absurd (hmem b (by simp)) (Set.disjoint_left.mp hab (hmem a (by simp)))

/-- An injective map carries a tiling along if it does so on every piece. -/
theorem flatMap {f : Range → List Range} {g : ℤ → ℤ} (h : Tiles pieces S) (hg : Set.InjOn g S)
    (hf : ∀ q ∈ pieces, Tiles (f q) (g '' q.toSet)) : Tiles (pieces.flatMap f) (g '' S) where
  le := by
    intro i hi
    obtain ⟨q, hq, hi⟩ := List.mem_flatMap.mp hi
    exact (hf q hq).le i hi
  disjoint := by
    refine List.pairwise_flatMap.mpr ⟨fun q hq => (hf q hq).disjoint, ?_⟩
    refine h.disjoint.imp_of_mem fun {p q} hp hq hpq i hi j hj => ?_
    exact (hpq.image hg (h.subset hp) (h.subset hq)).mono ((hf p hp).subset hi)
      ((hf q hq).subset hj)
  mem_iff := by
    intro v
    constructor
    · rintro ⟨i, hi, hv⟩
      obtain ⟨q, hq, hi⟩ := List.mem_flatMap.mp hi
      exact Set.image_mono (h.subset hq) ((hf q hq).subset hi hv)
    · rintro ⟨a, ha, rfl⟩
      obtain ⟨q, hq, haq⟩ := (h.mem_iff a).mpr ha
      obtain ⟨i, hi, hv⟩ := ((hf q hq).mem_iff (g a)).mpr ⟨a, haq, rfl⟩
      exact ⟨i, List.mem_flatMap.mpr ⟨q, hq, hi⟩, hv⟩

end Tiles

end Bounds

namespace IntType

open Bounds

variable {t : IntType} {r q : Range}

/-! ### One view as pieces of the other -/

/-- The patterns of the type. -/
def patterns (t : IntType) : Set ℤ :=
  Set.Ico 0 (2 ^ t.width)

theorem mem_patterns {p : ℤ} : p ∈ t.patterns ↔ 0 ≤ p ∧ p < t.modulus := by
  rw [patterns, Set.mem_Ico, ← pow2_eq, modulus]

/-- Ranges between zero and the modulus hold patterns only. -/
theorem toSet_subset_patterns (h0 : 0 ≤ r.lo) (h1 : r.hi < t.modulus) : r.toSet ⊆ t.patterns :=
  fun _ hp => mem_patterns.mpr ⟨h0.trans hp.1, hp.2.trans_lt h1⟩

/-- Reading a pattern and writing a value undo each other. -/
theorem invOn_ofBits_toBits (t : IntType) : Set.InvOn t.ofBits t.toBits t.full.toSet t.patterns :=
  ⟨fun _ hv => ofBits_toBits (mem_full.mp hv),
    fun _ hp => toBits_ofBits (mem_patterns.mp hp).1 (mem_patterns.mp hp).2⟩

/-- The two pieces of a range of values that crosses zero are apart. -/
private theorem toBits_hi_lt_toBits_lo (h : r.Proper t) (hlo : r.lo < 0) (hhi : 0 ≤ r.hi) :
    t.toBits r.hi < t.toBits r.lo := by
  have hb := h.bounds
  have hm := t.modulus_eq
  rw [toBits_of_nonneg h.hi_mem hhi, toBits_of_neg h.lo_mem hlo]
  omega

/-- The patterns of a range of values are tiled without overlap. -/
theorem tiles_bitRanges (h : r.Proper t) : Tiles (t.bitRanges r) (t.toBits '' r.toSet) where
  le _ hq := (bitRanges_bounds h hq).2.1
  disjoint := by
    rcases bitRanges_cases h with ⟨-, he⟩ | ⟨hlo, hhi, he⟩
    · rw [he]
      exact List.pairwise_singleton _ _
    · rw [he]
      exact List.pairwise_pair.mpr (disjoint_of_hi_lt_lo (toBits_hi_lt_toBits_lo h hlo hhi))
  mem_iff _ := mem_bitRanges h

/-- The values of a range of patterns are tiled without overlap. -/
theorem tiles_valueRanges (t : IntType) (h0 : 0 ≤ r.lo) (hle : r.lo ≤ r.hi)
    (h1 : r.hi < t.modulus) : Tiles (t.valueRanges r) (t.ofBits '' r.toSet) where
  le _ hq := (proper_of_mem_valueRanges h0 hle h1 hq).le
  disjoint := by
    rcases t.valueRanges_cases hle with ⟨-, he⟩ | ⟨-, he⟩ | ⟨-, -, -, he⟩
    · rw [he]
      exact List.pairwise_singleton _ _
    · rw [he]
      exact List.pairwise_singleton _ _
    · rw [he]
      -- the patterns from the middle on are negative, those below it are not
      exact List.pairwise_pair.mpr (disjoint_of_hi_lt_lo (by simp only; omega))
  mem_iff _ := t.mem_valueRanges hle

/-- A range of values crosses the end of the patterns at most once. -/
theorem length_bitRanges_le (t : IntType) (r : Range) : (t.bitRanges r).length ≤ 2 := by
  rw [bitRanges]
  split_ifs <;> simp

/-- A range of patterns crosses the sign boundary at most once. -/
theorem length_valueRanges_le (t : IntType) (r : Range) : (t.valueRanges r).length ≤ 2 := by
  rw [valueRanges]
  split_ifs <;> simp

/-! ### The sign boundaries -/

/-- The patterns of a piece have one sign bit. -/
theorem not_crosses_of_mem_bitRanges (h : r.Proper t) (hs : t.signed = true)
    (hq : q ∈ t.bitRanges r) : ¬q.Crosses t.half := by
  rintro ⟨hbelow, habove⟩
  refine bitRanges_same_side h hq ⟨hs, ?_, habove.2⟩
  have := hbelow.1
  omega

/-- The values of a piece have one sign. -/
theorem not_crosses_of_mem_valueRanges (h0 : 0 ≤ r.lo) (hle : r.lo ≤ r.hi) (h1 : r.hi < t.modulus)
    (hq : q ∈ t.valueRanges r) : ¬q.Crosses 0 := by
  rintro ⟨hneg, hzero⟩
  have hlo := hneg.1
  have hhi := hzero.2
  -- pieces of patterns start at no negative value, and pieces moved by the modulus end below zero
  rcases t.valueRanges_cases hle with ⟨-, he⟩ | ⟨-, he⟩ | ⟨-, -, -, he⟩ <;>
    simp only [he, List.mem_cons, List.not_mem_nil, or_false] at hq
  · subst hq
    omega
  · subst hq
    simp only at hhi
    omega
  · rcases hq with rfl | rfl
    · simp only at hhi
      omega
    · simp only at hlo
      omega

/-! ### There and back -/

/-- Taking patterns and reading them back tiles the range of values again. -/
theorem tiles_values_of_bitRanges (h : r.Proper t) :
    Tiles ((t.bitRanges r).flatMap t.valueRanges) r.toSet := by
  have hsub : r.toSet ⊆ t.full.toSet := fun v hv => mem_full.mpr (h.contains hv)
  have hback := (t.invOn_ofBits_toBits.1.mono hsub).image_image
  rw [← hback]
  refine (tiles_bitRanges h).flatMap (t.invOn_ofBits_toBits.2.injOn.mono ?_) fun q hq => ?_
  · rintro _ ⟨v, -, rfl⟩
    exact mem_patterns.mpr ⟨t.toBits_nonneg v, t.toBits_lt v⟩
  · obtain ⟨h0, hle, h1⟩ := bitRanges_bounds h hq
    exact t.tiles_valueRanges h0 hle h1

/-- No piece of a range of values is broken on the way back. -/
theorem flatMap_valueRanges_bitRanges (h : r.Proper t) :
    (t.bitRanges r).flatMap t.valueRanges =
      (t.bitRanges r).map fun q => ⟨t.ofBits q.lo, t.ofBits q.hi⟩ := by
  rw [List.map_eq_flatMap]
  exact List.flatMap_congr fun q hq =>
    valueRanges_same_side (bitRanges_bounds h hq).2.1 (bitRanges_same_side h hq)

/-- Reading patterns and taking them again tiles the range of patterns. -/
theorem tiles_bits_of_valueRanges (h0 : 0 ≤ r.lo) (hle : r.lo ≤ r.hi) (h1 : r.hi < t.modulus) :
    Tiles ((t.valueRanges r).flatMap t.bitRanges) r.toSet := by
  have hsub := toSet_subset_patterns h0 h1
  have hback := (t.invOn_ofBits_toBits.2.mono hsub).image_image
  rw [← hback]
  refine (t.tiles_valueRanges h0 hle h1).flatMap (t.invOn_ofBits_toBits.1.injOn.mono ?_)
    fun q hq => tiles_bitRanges (proper_of_mem_valueRanges h0 hle h1 hq)
  rintro _ ⟨p, hp, rfl⟩
  obtain ⟨hp0, hp1⟩ := mem_patterns.mp (hsub hp)
  exact mem_full.mpr (contains_ofBits hp0 hp1)

/-- The views of a range as values and as patterns undo each other. A range of values is broken
into at most two ranges of patterns, and a range of patterns into at most two ranges of values,
which hold exactly the words of the range and do not cross the sign boundary. Both ways, the pieces
turned back tile the range. -/
theorem views_invert (t : IntType) :
    (∀ r : Range, r.Proper t →
      Tiles (t.bitRanges r) (t.toBits '' r.toSet) ∧ (t.bitRanges r).length ≤ 2 ∧
      (∀ q ∈ t.bitRanges r, q.toSet ⊆ t.patterns ∧ (t.signed = true → ¬q.Crosses t.half)) ∧
      Tiles ((t.bitRanges r).flatMap t.valueRanges) r.toSet) ∧
    ∀ r : Range, 0 ≤ r.lo → r.lo ≤ r.hi → r.hi < 2 ^ t.width →
      Tiles (t.valueRanges r) (t.ofBits '' r.toSet) ∧ (t.valueRanges r).length ≤ 2 ∧
      (∀ q ∈ t.valueRanges r, q.Proper t ∧ ¬q.Crosses 0) ∧
      Tiles ((t.valueRanges r).flatMap t.bitRanges) r.toSet := by
  refine ⟨fun r h => ⟨tiles_bitRanges h, t.length_bitRanges_le r, fun q hq => ?_,
    tiles_values_of_bitRanges h⟩, ?_⟩
  · obtain ⟨h0, -, h1⟩ := bitRanges_bounds h hq
    exact ⟨toSet_subset_patterns h0 h1, fun hs => not_crosses_of_mem_bitRanges h hs hq⟩
  · intro r h0 hle hlt
    have h1 : r.hi < t.modulus := by rwa [modulus, pow2_eq]
    refine ⟨t.tiles_valueRanges h0 hle h1, t.length_valueRanges_le r, fun q hq => ?_,
      tiles_bits_of_valueRanges h0 hle h1⟩
    exact ⟨proper_of_mem_valueRanges h0 hle h1 hq, not_crosses_of_mem_valueRanges h0 hle h1 hq⟩

/-- Two signed ranges that are broken: one of values around zero, one of patterns around the
middle. -/
theorem views_invert_across_boundaries :
    let t : IntType := ⟨8, true, by decide, by decide⟩
    (⟨-2, 3⟩ : Range).Proper t ∧ t.bitRanges ⟨-2, 3⟩ = [⟨0, 3⟩, ⟨254, 255⟩] ∧
      Tiles [⟨0, 3⟩, ⟨254, 255⟩] (t.toBits '' (⟨-2, 3⟩ : Range).toSet) ∧
      Tiles ([⟨0, 3⟩, ⟨254, 255⟩].flatMap t.valueRanges) (⟨-2, 3⟩ : Range).toSet ∧
      (130 : ℤ) < 2 ^ t.width ∧ t.valueRanges ⟨120, 130⟩ = [⟨-128, -126⟩, ⟨120, 127⟩] ∧
      Tiles [⟨-128, -126⟩, ⟨120, 127⟩] (t.ofBits '' (⟨120, 130⟩ : Range).toSet) ∧
      Tiles ([⟨-128, -126⟩, ⟨120, 127⟩].flatMap t.bitRanges) (⟨120, 130⟩ : Range).toSet := by
  intro t
  have h : (⟨-2, 3⟩ : Range).Proper t := ⟨by decide, by decide, by decide⟩
  have hbits : t.bitRanges ⟨-2, 3⟩ = [⟨0, 3⟩, ⟨254, 255⟩] := by decide
  have hlt : (130 : ℤ) < 2 ^ t.width := by decide
  have hvalues : t.valueRanges ⟨120, 130⟩ = [⟨-128, -126⟩, ⟨120, 127⟩] := by decide
  obtain ⟨hv, hp⟩ := views_invert t
  obtain ⟨htiles, -, -, hback⟩ := hv _ h
  obtain ⟨htiles', -, -, hback'⟩ := hp ⟨120, 130⟩ (by decide) (by decide) hlt
  rw [hbits] at htiles hback
  rw [hvalues] at htiles' hback'
  exact ⟨h, hbits, htiles, hback, hlt, hvalues, htiles', hback'⟩

end IntType

end ScalarDomain
