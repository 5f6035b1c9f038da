import ScalarDomain.Proofs.Backward.Narrowing
import ScalarDomain.Proofs.Execution
import ScalarDomain.Backward.BitField

/-!
# Operands of arithmetic and casts

The mathematical results that land in a range once they are stored are the windows of the range, one
for each multiple of the modulus. The solvers of steps, sums, differences and casts invert each
window on its own. Many windows are taken as one: this *blurs* the operands, and is exact only if
the windows leave no gaps. The operands of steps, sums and differences never reach that many
windows, so only casts can be blurred.
-/

namespace ScalarDomain

/-- A mathematical result ends in a range once it is stored. -/
def Outcome.Lands (stops : Bool) (t : IntType) (z : Range) (m : ℤ) : Prop :=
  ∃ v ∈ z.toSet, v ∈ (Outcome.stored stops t m).values t

namespace Narrowing

variable {stops c : Bool} {t u : IntType} {x y z span : Range} {m : ℤ} {X Y : Set ℤ}
  {R : ℤ → ℤ → Prop}

/-! ### Windows -/

/-- The first window that meets a span. -/
def firstWindow (z : Range) (t : IntType) (span : Range) : ℤ :=
  ceilDiv (span.lo - z.hi) t.modulus

/-- The last window that meets a span. -/
def lastWindow (z : Range) (t : IntType) (span : Range) : ℤ :=
  floorDiv (span.hi - z.lo) t.modulus

/-- There are so many windows that they are taken as one, and they leave gaps. -/
def Blurs (stops : Bool) (z : Range) (t : IntType) (span : Range) : Prop :=
  stops = false ∧ maxPieces ≤ lastWindow z t span - firstWindow z t span ∧ z ≠ t.full

/-- Where errors end executions, only results that are in the range already land there. -/
theorem lands_true_iff (hz : z.Proper t) : Outcome.Lands true t z m ↔ m ∈ z := by
  constructor
  · rintro ⟨v, hv, hm⟩
    obtain ⟨-, rfl⟩ := Outcome.mem_values_stored_true.mp hm
    exact hv
  · intro hm
    exact ⟨m, hm, Outcome.mem_values_stored_true.mpr ⟨hz.contains hm, rfl⟩⟩

/-- A result that wraps around lands in the range when it lies in one of the windows. -/
theorem lands_false_iff (hz : z.Proper t) :
    Outcome.Lands false t z m ↔ ∃ k : ℤ, z.lo + k * t.modulus ≤ m ∧ m ≤ z.hi + k * t.modulus := by
  constructor
  · rintro ⟨v, hv, hm⟩
    rw [Outcome.mem_values_stored_false] at hm
    obtain ⟨k, hk⟩ := t.exists_wrap_eq m
    have hv : z.lo ≤ v ∧ v ≤ z.hi := hv
    exact ⟨-k, by constructor <;> linarith⟩
  · rintro ⟨k, h1, h2⟩
    have hmem : m - k * t.modulus ∈ z := ⟨by linarith, by linarith⟩
    refine ⟨_, hmem, Outcome.mem_values_stored_false.mpr ?_⟩
    exact (IntType.wrap_eq_of_add_mul (k := k) (hz.contains hmem) (by ring)).symm

theorem wrappedTargets_false :
    wrappedTargets false z t span =
      if lastWindow z t span < firstWindow z t span then []
      else if maxPieces ≤ lastWindow z t span - firstWindow z t span then
        (Bounds.meet? span ⟨z.lo + firstWindow z t span * t.modulus,
          z.hi + lastWindow z t span * t.modulus⟩).toList
      else
        (Bounds.values ⟨firstWindow z t span, lastWindow z t span⟩ maxPieces).filterMap fun k =>
          Bounds.meet? span ⟨z.lo + k * t.modulus, z.hi + k * t.modulus⟩ := rfl

/-- A window that meets the span is one of those between the first and the last. -/
theorem window_between {k : ℤ} (hm : m ∈ span) (h1 : z.lo + k * t.modulus ≤ m)
    (h2 : m ≤ z.hi + k * t.modulus) : firstWindow z t span ≤ k ∧ k ≤ lastWindow z t span := by
  rw [firstWindow, lastWindow, ceilDiv_le_iff t.modulus_pos, le_floorDiv_iff t.modulus_pos]
  have := hm.1
  have := hm.2
  constructor <;> linarith

/-- Every result of the span that lands in the range is in a target. -/
theorem exists_mem_wrappedTargets (hz : z.Proper t) (hm : m ∈ span)
    (h : Outcome.Lands stops t z m) : ∃ p ∈ wrappedTargets stops z t span, m ∈ p := by
  cases stops with
  | true =>
    obtain ⟨q, hq, hmq⟩ := Bounds.exists_meet? hm ((lands_true_iff hz).mp h)
    exact ⟨q, by simp [wrappedTargets, hq], hmq⟩
  | false =>
    obtain ⟨k, h1, h2⟩ := (lands_false_iff hz).mp h
    obtain ⟨hk1, hk2⟩ := window_between hm h1 h2
    have hM := t.modulus_pos
    rw [wrappedTargets_false, if_neg (not_lt.mpr (hk1.trans hk2))]
    split
    · -- the windows as one
      have h3 := mul_le_mul_of_nonneg_right hk1 hM.le
      have h4 := mul_le_mul_of_nonneg_right hk2 hM.le
      obtain ⟨q, hq, hmq⟩ := Bounds.exists_meet? hm (s := ⟨z.lo + firstWindow z t span * t.modulus,
        z.hi + lastWindow z t span * t.modulus⟩) ⟨by simp only; linarith, by simp only; linarith⟩
      exact ⟨q, Option.mem_toList.mpr hq, hmq⟩
    · next hfew =>
      obtain ⟨q, hq, hmq⟩ := Bounds.exists_meet? hm
        (s := ⟨z.lo + k * t.modulus, z.hi + k * t.modulus⟩) ⟨h1, h2⟩
      refine ⟨q, List.mem_filterMap.mpr ⟨k, ?_, hq⟩, hmq⟩
      exact (Bounds.mem_values_iff (by simpa using hfew)).mpr ⟨hk1, hk2⟩

/-- Without blur a target holds nothing but results of the span that land in the range. -/
theorem lands_of_mem_wrappedTargets (hz : z.Proper t) (hb : ¬Blurs stops z t span) {p : Range}
    (hp : p ∈ wrappedTargets stops z t span) (hm : m ∈ p) : Outcome.Lands stops t z m := by
  cases stops with
  | true =>
    simp only [wrappedTargets, if_true, Option.mem_toList] at hp
    exact (lands_true_iff hz).mpr ((Bounds.mem_of_meet?_eq_some hp).mp hm).2
  | false =>
    rw [lands_false_iff hz]
    rw [wrappedTargets_false] at hp
    split at hp
    · cases hp
    split at hp
    · next hmany =>
      -- a full range has windows everywhere
      have hfull : z = t.full := by
        by_contra hne
        exact hb ⟨rfl, hmany, hne⟩
      subst hfull
      obtain ⟨k, hk⟩ := t.exists_wrap_eq m
      have hw := IntType.contains_iff.mp (t.contains_wrap m)
      refine ⟨-k, ?_, ?_⟩ <;> simp only [IntType.full] <;> linarith
    · obtain ⟨k, -, hk⟩ := List.mem_filterMap.mp hp
      exact ⟨k, ((Bounds.mem_of_meet?_eq_some hk).mp hm).2⟩

/-- Targets are not empty. -/
theorem le_of_mem_wrappedTargets {p : Range} (hp : p ∈ wrappedTargets stops z t span) :
    p.lo ≤ p.hi := by
  cases stops with
  | true =>
    simp only [wrappedTargets, if_true, Option.mem_toList] at hp
    exact Bounds.le_of_meet?_eq_some hp
  | false =>
    rw [wrappedTargets_false] at hp
    split_ifs at hp
    · cases hp
    · exact Bounds.le_of_meet?_eq_some (Option.mem_toList.mp hp)
    · obtain ⟨k, -, hk⟩ := List.mem_filterMap.mp hp
      exact Bounds.le_of_meet?_eq_some hk

/-- Blurred targets hold all of the span from the first to the last window. -/
theorem exists_mem_wrappedTargets_of_blurs (hb : Blurs stops z t span) (hm : m ∈ span)
    (h1 : z.lo + firstWindow z t span * t.modulus ≤ m)
    (h2 : m ≤ z.hi + lastWindow z t span * t.modulus) :
    ∃ p ∈ wrappedTargets stops z t span, m ∈ p := by
  obtain ⟨rfl, hmany, -⟩ := hb
  have hnot : ¬lastWindow z t span < firstWindow z t span := by
    have : (0 : ℤ) ≤ maxPieces := Int.natCast_nonneg _
    omega
  rw [wrappedTargets_false, if_neg hnot, if_pos hmany]
  obtain ⟨q, hq, hmq⟩ := Bounds.exists_meet? hm (s := ⟨z.lo + firstWindow z t span * t.modulus,
    z.hi + lastWindow z t span * t.modulus⟩) ⟨h1, h2⟩
  exact ⟨q, Option.mem_toList.mpr hq, hmq⟩

/-- A span of less than two moduli meets few windows. -/
theorem not_blurs_of_lt (hz : z.Proper t) (h : span.hi - span.lo < 2 * t.modulus) :
    ¬Blurs stops z t span := by
  rintro ⟨-, hmany, -⟩
  have hM := t.modulus_pos
  have h1 := (ceilDiv_le_iff hM).mp (le_refl (firstWindow z t span))
  have h2 := (le_floorDiv_iff hM).mp (le_refl (lastWindow z t span))
  obtain ⟨h3, h4, h5⟩ := hz.bounds
  have h6 := t.modulus_eq
  have hmany : (4 : ℤ) ≤ lastWindow z t span - firstWindow z t span := hmany
  nlinarith

/-! ### Steps and casts -/

/-- The pieces of an operand that is stored after a change `g` of its value. -/
theorem keeps_stored {g : ℤ → ℤ} {pre : Range → Range} (hz : z.Proper t)
    (hspan : ∀ a ∈ X, g a ∈ span) (hpre : ∀ r a, a ∈ pre r ↔ g a ∈ r) :
    (ofPieces ((wrappedTargets stops z t span).map pre) true).Keeps
      (fun a _ => Outcome.Lands stops t z (g a)) X Y := by
  refine keeps_ofPieces fun a ha b _ h => ?_
  obtain ⟨p, hp, hap⟩ := exists_mem_wrappedTargets hz (hspan a ha) h
  exact ⟨pre p, List.mem_map_of_mem hp, (hpre p a).mpr hap⟩

/-- Pieces that are called exact hold no other values, as long as the windows are not taken as
one. -/
theorem isTight_stored {g : ℤ → ℤ} {pre : Range → Range} (hz : z.Proper t)
    (hb : ¬Blurs stops z t span) (hpre : ∀ r a, a ∈ pre r ↔ g a ∈ r) :
    (ofPieces ((wrappedTargets stops z t span).map pre) true).IsTight
      (fun a _ => Outcome.Lands stops t z (g a)) X Y := by
  refine isTight_ofPieces fun _ q hq a _ haq b _ => ?_
  obtain ⟨p, hp, rfl⟩ := List.mem_map.mp hq
  exact lands_of_mem_wrappedTargets hz hb hp ((hpre p a).mp haq)

/-- A range of operands is narrower than the modulus. -/
private theorem width_lt (hx : x.Proper t) : x.hi - x.lo < t.modulus := by
  obtain ⟨h1, h2, h3⟩ := hx.bounds
  have := t.modulus_eq
  omega

/-- A change `g` of the values of a range that keeps their distances: `span` holds the changed
values, and `pre` the values that change into a range. -/
structure Shifts (g : ℤ → ℤ) (x span : Range) (pre : Range → Range) : Prop where
  /-- The span holds the changed values. -/
  mem_span : ∀ m, m ∈ span ↔ ∃ a ∈ x, g a = m
  /-- Distances are kept. -/
  width : span.hi - span.lo = x.hi - x.lo
  /-- The values that change into a range. -/
  mem_pre : ∀ r a, a ∈ pre r ↔ g a ∈ r

namespace Shifts

variable {g : ℤ → ℤ} {pre : Range → Range}

/-- A range no longer than the type meets two windows at most, fewer than are taken as one. -/
theorem not_blurs (h : Shifts g x span pre) (hx : x.Proper t) (hz : z.Proper t) :
    ¬Blurs stops z t span := by
  have := width_lt hx
  have := t.modulus_pos
  have := h.width
  exact not_blurs_of_lt hz (by omega)

/-- Such a change is inverted piece by piece. -/
theorem inverts (h : Shifts g x span pre) (hx : x.Proper t) (hz : z.Proper t) :
    (ofPieces ((wrappedTargets stops z t span).map pre) true).Inverts
      (fun a _ => Outcome.Lands stops t z (g a)) x.toSet Y :=
  ⟨keeps_stored hz (fun a ha => (h.mem_span _).mpr ⟨a, ha, rfl⟩) h.mem_pre,
    isTight_stored hz (h.not_blurs hx hz) h.mem_pre⟩

end Shifts

theorem shifts_prev (x : Range) :
    Shifts (· - 1) x ⟨x.lo - 1, x.hi - 1⟩ fun r => ⟨r.lo + 1, r.hi + 1⟩ where
  mem_span m := by
    simp only [Bounds.mem_def]
    exact ⟨fun h => ⟨m + 1, by omega, by omega⟩, fun ⟨a, h, ha⟩ => by omega⟩
  width := by simp only; omega
  mem_pre r a := by
    simp only [Bounds.mem_def]
    omega

theorem shifts_next (x : Range) :
    Shifts (· + 1) x ⟨x.lo + 1, x.hi + 1⟩ fun r => ⟨r.lo - 1, r.hi - 1⟩ where
  mem_span m := by
    simp only [Bounds.mem_def]
    exact ⟨fun h => ⟨m - 1, by omega, by omega⟩, fun ⟨a, h, ha⟩ => by omega⟩
  width := by simp only; omega
  mem_pre r a := by
    simp only [Bounds.mem_def]
    omega

theorem shifts_opposite (x : Range) :
    Shifts (- ·) x ⟨-x.hi, -x.lo⟩ fun r => ⟨-r.hi, -r.lo⟩ where
  mem_span m := by
    simp only [Bounds.mem_def]
    exact ⟨fun h => ⟨-m, by omega, by omega⟩, fun ⟨a, h, ha⟩ => by omega⟩
  width := by simp only; omega
  mem_pre r a := by
    simp only [Bounds.mem_def]
    omega

theorem prev_inverts (hx : x.Proper t) (hz : z.Proper t) :
    (prev stops ⟨⟨t, x⟩, none, ⟨t, z⟩, c⟩).Inverts
      (Operation.prev.Reaches stops t u t z.toSet) x.toSet Y :=
  (shifts_prev x).inverts hx hz

theorem next_inverts (hx : x.Proper t) (hz : z.Proper t) :
    (next stops ⟨⟨t, x⟩, none, ⟨t, z⟩, c⟩).Inverts
      (Operation.next.Reaches stops t u t z.toSet) x.toSet Y :=
  (shifts_next x).inverts hx hz

theorem opposite_inverts (hx : x.Proper t) (hz : z.Proper t) :
    (opposite stops ⟨⟨t, x⟩, none, ⟨t, z⟩, c⟩).Inverts
      (Operation.opposite.Reaches stops t u t z.toSet) x.toSet Y :=
  (shifts_opposite x).inverts hx hz

/-- A cast stores the values themselves, so that no value that lands in the range is lost. -/
theorem castInt_keeps {dest : IntType} (hz : z.Proper dest) :
    (castInt stops ⟨⟨t, x⟩, none, ⟨dest, z⟩, c⟩).Keeps
      ((Operation.castInt dest).Reaches stops t u dest z.toSet) x.toSet Y := by
  have h : (ofPieces ((wrappedTargets stops z dest x).map id) true).Keeps
      (fun a _ => Outcome.Lands stops dest z (id a)) x.toSet Y :=
    keeps_stored hz (fun _ ha => ha) fun _ _ => Iff.rfl
  rwa [List.map_id] at h

/-- The source of a cast may be wide enough for many windows; the refinement is exact if they are
few. -/
theorem castInt_isTight {dest : IntType} (hz : z.Proper dest) (hb : ¬Blurs stops z dest x) :
    (castInt stops ⟨⟨t, x⟩, none, ⟨dest, z⟩, c⟩).IsTight
      ((Operation.castInt dest).Reaches stops t u dest z.toSet) x.toSet Y := by
  have h : (ofPieces ((wrappedTargets stops z dest x).map id) true).IsTight
      (fun a _ => Outcome.Lands stops dest z (id a)) x.toSet Y :=
    isTight_stored hz hb fun _ _ => Iff.rfl
  rwa [List.map_id] at h

/-- A blurred cast keeps all operands from the first to the last window. -/
theorem castInt_keeps_of_blurs {dest : IntType} (hb : Blurs stops z dest x) :
    (castInt stops ⟨⟨t, x⟩, none, ⟨dest, z⟩, c⟩).Keeps
      (fun a _ => z.lo + firstWindow z dest x * dest.modulus ≤ a ∧
        a ≤ z.hi + lastWindow z dest x * dest.modulus) x.toSet Y := by
  refine keeps_ofPieces fun a ha b _ h => ?_
  exact exists_mem_wrappedTargets_of_blurs hb ha h.1 h.2

/-- Between the first two windows of a blurred cast there is an operand that lands in neither. -/
theorem exists_gap_of_blurs {dest : IntType} (hz : z.Proper dest) (hb : Blurs stops z dest x) :
    ∃ a ∈ x, (z.lo + firstWindow z dest x * dest.modulus ≤ a ∧
      a ≤ z.hi + lastWindow z dest x * dest.modulus) ∧ ¬Outcome.Lands stops dest z a := by
  obtain ⟨rfl, hmany, hne⟩ := hb
  have hM := dest.modulus_pos
  have h1 := (ceilDiv_le_iff hM).mp (le_refl (firstWindow z dest x))
  have h2 := (le_floorDiv_iff hM).mp (le_refl (lastWindow z dest x))
  obtain ⟨h3, h4, h5⟩ := hz.bounds
  have h6 := dest.modulus_eq
  have hmany : (4 : ℤ) ≤ lastWindow z dest x - firstWindow z dest x := hmany
  -- the range is not full, so its windows are apart
  have hgap : z.hi - z.lo + 1 < dest.modulus := by
    by_contra hge
    refine hne ?_
    have hlo : z.lo = dest.minValue := by omega
    have hhi : z.hi = dest.maxValue := by omega
    rw [IntType.full, ← hlo, ← hhi]
  have hwin : (firstWindow z dest x + 4) * dest.modulus ≤ lastWindow z dest x * dest.modulus :=
    mul_le_mul_of_nonneg_right (by omega) hM.le
  generalize firstWindow z dest x = first at *
  generalize lastWindow z dest x = last at *
  refine ⟨z.hi + first * dest.modulus + 1, ⟨by linarith, by linarith⟩,
    ⟨by linarith, by linarith⟩, ?_⟩
  rw [lands_false_iff hz]
  rintro ⟨k, hk1, hk2⟩
  rcases le_or_gt k first with hk | hk
  · have := mul_le_mul_of_nonneg_right hk hM.le
    linarith
  · have := mul_le_mul_of_nonneg_right (show first + 1 ≤ k from hk) hM.le
    linarith

/-! ### Sums and differences -/

/-- A sum or difference `g` of the values of two ranges: `span` holds its values, and `first` and
`second` the operands that take part in a value of a range. -/
structure Combines (g : ℤ → ℤ → ℤ) (x y span : Range) (first second : Range → Range) : Prop where
  /-- The span holds the values of the function. -/
  mem_span : ∀ m, m ∈ span ↔ ∃ a ∈ x, ∃ b ∈ y, g a b = m
  /-- Distances are added. -/
  width : span.hi - span.lo = x.hi - x.lo + (y.hi - y.lo)
  /-- The first operands of the values of a range. -/
  mem_first : ∀ p : Range, p.lo ≤ p.hi → ∀ a ∈ x, a ∈ first p ↔ ∃ b ∈ y, g a b ∈ p
  /-- The second operands of the values of a range. -/
  mem_second : ∀ p : Range, p.lo ≤ p.hi → ∀ b ∈ y, b ∈ second p ↔ ∃ a ∈ x, g a b ∈ p

namespace Combines

variable {g : ℤ → ℤ → ℤ} {first second : Range → Range}

/-- The span of a sum or difference is less than twice as long as the type, so that its windows are
few as well. -/
theorem not_blurs (h : Combines g x y span first second) (hx : x.Proper t) (hy : y.Proper t)
    (hz : z.Proper t) : ¬Blurs stops z t span := by
  have := width_lt hx
  have := width_lt hy
  have := h.width
  exact not_blurs_of_lt hz (by omega)

/-- Such a function is inverted target by target. -/
theorem inverts (h : Combines g x y span first second) (hx : x.Proper t) (hy : y.Proper t)
    (hz : z.Proper t) :
    (ofPairs ((wrappedTargets stops z t span).map fun r => (first r, second r)) true).Inverts
      (fun a b => Outcome.Lands stops t z (g a b)) x.toSet y.toSet := by
  have hfew : ¬Blurs stops z t span := h.not_blurs hx hy hz
  constructor
  · refine keeps_ofPairs fun a ha b hb hlands => ?_
    have hspan := (h.mem_span _).mpr ⟨a, ha, b, hb, rfl⟩
    obtain ⟨p, hp, hmp⟩ := exists_mem_wrappedTargets hz hspan hlands
    have hle := le_of_mem_wrappedTargets hp
    exact ⟨_, List.mem_map_of_mem hp, (h.mem_first p hle a ha).mpr ⟨b, hb, hmp⟩,
      (h.mem_second p hle b hb).mpr ⟨a, ha, hmp⟩⟩
  · refine isTight_ofPairs fun _ q hq a ha haq b hb hbq => ?_
    obtain ⟨p, hp, rfl⟩ := List.mem_map.mp hq
    have hle := le_of_mem_wrappedTargets hp
    obtain ⟨b', hb', h1⟩ := (h.mem_first p hle a ha).mp haq
    obtain ⟨a', ha', h2⟩ := (h.mem_second p hle b hb).mp hbq
    exact ⟨⟨b', hb', lands_of_mem_wrappedTargets hz hfew hp h1⟩,
      a', ha', lands_of_mem_wrappedTargets hz hfew hp h2⟩

end Combines

/-- Each operand of a sum is its value less the other operand. -/
theorem combines_plus (hx : x.lo ≤ x.hi) (hy : y.lo ≤ y.hi) :
    Combines (· + ·) x y ⟨x.lo + y.lo, x.hi + y.hi⟩ (fun r => ⟨r.lo - y.hi, r.hi - y.lo⟩)
      fun r => ⟨r.lo - x.hi, r.hi - x.lo⟩ where
  mem_span m := by
    simp only [Bounds.mem_def]
    constructor
    · exact fun h => ⟨max x.lo (m - y.hi), by omega, m - max x.lo (m - y.hi), by omega, by omega⟩
    · rintro ⟨a, h1, b, h2, rfl⟩
      omega
  width := by simp only; omega
  mem_first p hp a ha := by
    simp only [Bounds.mem_def] at ha ⊢
    constructor
    · exact fun h => ⟨max y.lo (p.lo - a), by omega, by omega⟩
    · rintro ⟨b, h1, h2⟩
      omega
  mem_second p hp b hb := by
    simp only [Bounds.mem_def] at hb ⊢
    constructor
    · exact fun h => ⟨max x.lo (p.lo - b), by omega, by omega⟩
    · rintro ⟨a, h1, h2⟩
      omega

/-- The first operand of a difference is its value plus the second one, and the second one is the
first less its value. -/
theorem combines_minus (hx : x.lo ≤ x.hi) (hy : y.lo ≤ y.hi) :
    Combines (· - ·) x y ⟨x.lo - y.hi, x.hi - y.lo⟩ (fun r => ⟨r.lo + y.lo, r.hi + y.hi⟩)
      fun r => ⟨x.lo - r.hi, x.hi - r.lo⟩ where
  mem_span m := by
    simp only [Bounds.mem_def]
    constructor
    · exact fun h => ⟨max x.lo (m + y.lo), by omega, max x.lo (m + y.lo) - m, by omega, by omega⟩
    · rintro ⟨a, h1, b, h2, rfl⟩
      omega
  width := by simp only; omega
  mem_first p hp a ha := by
    simp only [Bounds.mem_def] at ha ⊢
    constructor
    · exact fun h => ⟨max y.lo (a - p.hi), by omega, by omega⟩
    · rintro ⟨b, h1, h2⟩
      omega
  mem_second p hp b hb := by
    simp only [Bounds.mem_def] at hb ⊢
    constructor
    · exact fun h => ⟨max x.lo (p.lo + b), by omega, by omega⟩
    · rintro ⟨a, h1, h2⟩
      omega

theorem plus_inverts (hx : x.Proper t) (hy : y.Proper t) (hz : z.Proper t) :
    (plus stops ⟨⟨t, x⟩, some ⟨t, y⟩, ⟨t, z⟩, c⟩).Inverts
      (Operation.plus.Reaches stops t u t z.toSet) x.toSet y.toSet :=
  (combines_plus hx.le hy.le).inverts hx hy hz

theorem minus_inverts (hx : x.Proper t) (hy : y.Proper t) (hz : z.Proper t) :
    (minus stops ⟨⟨t, x⟩, some ⟨t, y⟩, ⟨t, z⟩, c⟩).Inverts
      (Operation.minus.Reaches stops t u t z.toSet) x.toSet y.toSet :=
  (combines_minus hx.le hy.le).inverts hx hy hz

end Narrowing

end ScalarDomain
