import ScalarDomain.Proofs.Forward.Fold

/-!
# Arithmetic on ranges

Each transfer step of a range `r` covers the results of the executions over all values of the range
and of the second operand, and is tight where it is called exact. Additive operations and the two
extrema reach every integer between the results at the ends, as long as the second operand has no
gaps; products and quotients stay between their values at the corners.
-/

namespace ScalarDomain

/-! ### The second operand -/

namespace WordOperand

/-- The second operand stands for a set of values of a type. -/
structure Abstracts (o : WordOperand) (u : IntType) (Y : Set ℤ) : Prop where
  /-- It has the type. -/
  type : o.type = u
  /-- Its range is one of the type. -/
  proper : o.range.Proper u
  /-- The lower end of its range is a value. -/
  lo_mem : o.range.lo ∈ Y
  /-- The upper end of its range is a value. -/
  hi_mem : o.range.hi ∈ Y
  /-- All values lie in its range. -/
  mem : ∀ b ∈ Y, b ∈ o.range
  /-- A convex operand has no gaps. -/
  convex : o.convex = true → ∀ b ∈ o.range, b ∈ Y
  /-- A constant is the only value. -/
  constant : ∀ c, o.constant = some c → ∀ b, b ∈ Y ↔ b = c
  /-- Its landmarks are those of the values. -/
  summary : o.summary.IsOf u Y

end WordOperand

/-- A proper word as a second operand. -/
theorem Element.abstracts_operand? {limit : ℕ} {u : WordType} {s : Shape}
    (h : s.Proper limit u) :
    ∃ o, (Element.word u s).operand? = some o ∧
      o.Abstracts u.view {b | s.contains u.view b = true} := by
  refine ⟨_, rfl, rfl, h.bounds, h.contains_lo, h.contains_hi, fun b hb => h.mem_bounds hb,
    fun hc b hb => ?_, fun c hc b => ?_, Summary.isOf_shape h⟩
  · exact (Shape.contains_iff_mem_bounds (by simpa using hc)).mpr hb
  · cases s with
    | constant d =>
      cases hc
      exact Shape.contains_constant
    | _ => cases hc

namespace Step

open Outcome

variable {stops : Bool} {w : WordType} {r : Range} {o : WordOperand} {Y : Set ℤ}

/-! ### Sums and differences -/

/-- A step whose span is the image of a range under the result of the operation. -/
private theorem image_describes {op : Operation} {out : WordType} {span : Range} {g : ℤ → ℤ}
    (hexecute : ∀ a, op.execute stops w.view w.view out.view a 0 = stored stops out.view (g a))
    (hspan : ∀ m, m ∈ span ↔ ∃ a ∈ r, g a = m) :
    (overflowing stops out span true).delivery.Describes out
      (op.results stops w.view w.view out.view r.toSet {0}) := by
  refine overflowing_describes ?_ fun _ m hm v hv => ?_
  · rintro v ⟨a, ha, _, rfl, hv⟩
    exact ⟨g a, (hspan _).mpr ⟨a, ha, rfl⟩, hexecute a ▸ hv⟩
  · obtain ⟨a, ha, rfl⟩ := (hspan m).mp hm
    exact ⟨a, ha, 0, rfl, (hexecute a).symm ▸ hv⟩

theorem prev_describes :
    (overflowing stops w ⟨r.lo - 1, r.hi - 1⟩ true).delivery.Describes w
      (Operation.prev.results stops w.view w.view w.view r.toSet {0}) := by
  refine image_describes (g := (· - 1)) (fun _ => rfl) fun m => ⟨fun hm => ?_, ?_⟩
  · exact ⟨m + 1, ⟨by linarith [hm.1], by linarith [hm.2]⟩, add_sub_cancel_right m 1⟩
  · rintro ⟨a, ha, rfl⟩
    exact ⟨sub_le_sub_right ha.1 1, sub_le_sub_right ha.2 1⟩

theorem next_describes :
    (overflowing stops w ⟨r.lo + 1, r.hi + 1⟩ true).delivery.Describes w
      (Operation.next.results stops w.view w.view w.view r.toSet {0}) := by
  refine image_describes (g := (· + 1)) (fun _ => rfl) fun m => ⟨fun hm => ?_, ?_⟩
  · exact ⟨m - 1, ⟨by linarith [hm.1], by linarith [hm.2]⟩, sub_add_cancel m 1⟩
  · rintro ⟨a, ha, rfl⟩
    exact ⟨add_le_add_left ha.1 1, add_le_add_left ha.2 1⟩

/-- Opposites turn a range around. -/
theorem opposite_describes :
    (overflowing stops w ⟨-r.hi, -r.lo⟩ true).delivery.Describes w
      (Operation.opposite.results stops w.view w.view w.view r.toSet {0}) := by
  refine image_describes (g := (-·)) (fun _ => rfl) fun m => ⟨fun hm => ?_, ?_⟩
  · exact ⟨-m, ⟨by linarith [hm.2], by linarith [hm.1]⟩, neg_neg m⟩
  · rintro ⟨a, ha, rfl⟩
    exact ⟨neg_le_neg ha.2, neg_le_neg ha.1⟩

/-- A cast stores the values themselves in another type. -/
theorem castInt_describes {dest : IntType} :
    (overflowing stops (.int dest) r true).delivery.Describes (.int dest)
      ((Operation.castInt dest).results stops w.view w.view dest r.toSet {0}) :=
  image_describes (g := id) (fun _ => rfl) fun m => by simp

/-- Every integer between the sums of the ends of two ranges is a sum. -/
theorem exists_add_eq {q : Range} (hr : r.lo ≤ r.hi) (hq : q.lo ≤ q.hi) {m : ℤ}
    (hm : m ∈ (⟨r.lo + q.lo, r.hi + q.hi⟩ : Range)) : ∃ a ∈ r, ∃ b ∈ q, a + b = m := by
  obtain ⟨h1, h2⟩ := hm
  simp only at h1 h2
  -- as much as possible from the first range
  refine ⟨min r.hi (m - q.lo), ⟨le_min hr (by omega), min_le_left _ _⟩,
    m - min r.hi (m - q.lo), ⟨?_, ?_⟩, add_sub_cancel _ _⟩
  · have := min_le_right r.hi (m - q.lo)
    omega
  · rcases min_choice r.hi (m - q.lo) with h | h <;> omega

/-- The sums of two ranges are a range, without gaps if the second operand has none. -/
theorem plus_describes (hr : r.lo ≤ r.hi) (hy : o.Abstracts w.view Y) :
    (overflowing stops w ⟨r.lo + o.range.lo, r.hi + o.range.hi⟩ o.convex).delivery.Describes w
      (Operation.plus.results stops w.view w.view w.view r.toSet Y) := by
  refine overflowing_describes ?_ fun hc m hm v hv => ?_
  · rintro v ⟨a, ha, b, hb, hv⟩
    have hb := hy.mem b hb
    exact ⟨a + b, ⟨add_le_add ha.1 hb.1, add_le_add ha.2 hb.2⟩, hv⟩
  · obtain ⟨a, ha, b, hb, rfl⟩ := exists_add_eq hr hy.proper.le hm
    exact ⟨a, ha, b, hy.convex hc b hb, hv⟩

/-- The differences of two ranges, by the same argument with the opposites of the second one. -/
theorem minus_describes (hr : r.lo ≤ r.hi) (hy : o.Abstracts w.view Y) :
    (overflowing stops w ⟨r.lo - o.range.hi, r.hi - o.range.lo⟩ o.convex).delivery.Describes w
      (Operation.minus.results stops w.view w.view w.view r.toSet Y) := by
  refine overflowing_describes ?_ fun hc m hm v hv => ?_
  · rintro v ⟨a, ha, b, hb, hv⟩
    have hb := hy.mem b hb
    exact ⟨a - b, ⟨sub_le_sub ha.1 hb.2, sub_le_sub ha.2 hb.1⟩, hv⟩
  · -- a difference is a sum with the opposites
    obtain ⟨a, ha, b, hb, rfl⟩ := exists_add_eq (q := ⟨-o.range.hi, -o.range.lo⟩) hr
      (neg_le_neg hy.proper.le) hm
    refine ⟨a, ha, -b, hy.convex hc _ ⟨by linarith [hb.2], by linarith [hb.1]⟩, ?_⟩
    rw [Operation.execute, sub_neg_eq_add]
    exact hv

/-! ### Products -/

/-- The product of two ranges lies between the products of their ends. -/
theorem mul_mem_span {q span : Range} {a b : ℤ} (ha : a ∈ r) (hb : b ∈ q)
    (h : Bounds.span? [r.lo * q.lo, r.lo * q.hi, r.hi * q.lo, r.hi * q.hi] = some span) :
    a * b ∈ span := by
  have hmem := fun v hv => Bounds.le_of_span?_eq_some h (u := v) hv
  simp only [List.mem_cons, List.not_mem_nil, or_false, forall_eq_or_imp, forall_eq,
    Bounds.mem_def] at hmem
  have h1 := mul_between ha.1 ha.2 b
  have h2 := mul_between hb.1 hb.2 r.lo
  have h3 := mul_between hb.1 hb.2 r.hi
  rw [mul_comm q.lo, mul_comm q.hi, mul_comm b] at h2 h3
  rw [Bounds.mem_def]
  omega

/-- Products lie between those of the ends, and only those by zero and one are called exact. -/
theorem times_describes (hr : r.Proper w.view) (hy : o.Abstracts w.view Y) :
    (timesRange stops w r o).delivery.Describes w
      (Operation.times.results stops w.view w.view w.view r.toSet Y) := by
  rw [timesRange]
  split
  · next hc =>
    have hY := hy.constant 0 hc
    have hzero : ∀ v, v ∈ (stored stops w.view 0).values w.view ↔ v = 0 := fun v =>
      mem_values_stored_of_contains w.view.contains_zero
    refine point_describes w.view.contains_zero fun v => ⟨?_, ?_⟩
    · rintro ⟨a, -, b, hb, hv⟩
      rw [Operation.execute, (hY b).mp hb, mul_zero, hzero] at hv
      exact hv
    · rintro rfl
      refine ⟨r.lo, hr.lo_mem_self, 0, (hY 0).mpr rfl, ?_⟩
      rw [Operation.execute, mul_zero, hzero]
  split
  · next hc =>
    have hY := hy.constant 1 hc
    refine words_describes (fun _ => hr) ?_ fun _ v hv => ?_
    · rintro v ⟨a, ha, b, hb, hv⟩
      rw [Operation.execute, (hY b).mp hb, mul_one,
        mem_values_stored_of_contains (hr.contains ha)] at hv
      exact hv ▸ ha
    · refine ⟨v, hv, 1, (hY 1).mpr rfl, ?_⟩
      rw [Operation.execute, mul_one, mem_values_stored_of_contains (hr.contains hv)]
  simp only
  split
  · next s hs =>
    refine overflowing_describes ?_ (by simp)
    rintro v ⟨a, ha, b, hb, hv⟩
    exact ⟨a * b, mul_mem_span ha (hy.mem b hb) hs, hv⟩
  · next hn => simp [Bounds.span?, Bounds.hull?] at hn

/-! ### Quotients and remainders -/

/-- The parts of a range without zero hold its other integers. -/
theorem mem_nonzeroParts {q : Range} {b : ℤ} :
    (∃ p ∈ nonzeroParts q, b ∈ p) ↔ b ∈ q ∧ b ≠ 0 := by
  simp only [nonzeroParts, List.mem_append, Bounds.mem_def]
  constructor
  · rintro ⟨p, hp | hp, hb⟩ <;> split at hp <;> simp at hp <;> subst hp <;> simp only at hb <;>
      omega
  · rintro ⟨hb, hne⟩
    rcases lt_or_gt_of_ne hne with hneg | hpos
    · exact ⟨⟨q.lo, min q.hi (-1)⟩, .inl (by rw [if_pos (by omega)]; simp), by simp only; omega⟩
    · exact ⟨⟨max q.lo 1, q.hi⟩, .inr (by rw [if_pos (by omega)]; simp), by simp only; omega⟩

/-- A part without zero has one sign, and its end away from zero is one of the range. -/
theorem nonzeroParts_cases {p q : Range} (hp : p ∈ nonzeroParts q) :
    (p.hi < 0 ∧ p.lo = q.lo) ∨ (0 < p.lo ∧ p.hi = q.hi) := by
  simp only [nonzeroParts, List.mem_append] at hp
  rcases hp with hp | hp <;> split at hp <;> simp at hp <;> subst hp
  · exact .inl ⟨by simp, rfl⟩
  · exact .inr ⟨by simp, rfl⟩

/-- The ends of a part without zero are integers of the range. -/
theorem ends_of_mem_nonzeroParts {p q : Range} (hq : q.lo ≤ q.hi) (hp : p ∈ nonzeroParts q) :
    (p.lo ∈ q ∧ p.lo ≠ 0) ∧ p.hi ∈ q ∧ p.hi ≠ 0 := by
  simp only [nonzeroParts, List.mem_append] at hp
  rcases hp with hp | hp <;> split at hp <;> simp at hp <;> subst hp <;>
    simp only [Bounds.mem_def] <;> omega

/-- The executions of a division over two sets: the divisor is not zero, or anything may come
out. -/
private theorem division_describes {S : Set ℤ} {divide : List Range → Step}
    (hany : ∀ v ∈ S, w.view.contains v = true)
    (hS : stops = true ∨ 0 ∉ o.range → ∀ v ∈ S, ∃ b ∈ o.range, b ≠ 0)
    (hdivide : stops = true ∨ 0 ∉ o.range →
      (divide (nonzeroParts o.range)).delivery.Describes w S) :
    (division stops w o.range divide).delivery.Describes w S := by
  simp only [division]
  split
  · exact anyWord_describes hany
  · next hs =>
    have hs : stops = true ∨ 0 ∉ o.range := by
      rw [← Bounds.contains_iff]
      cases stops <;> simp_all
    split
    · next hempty =>
      refine nothing_describes fun v hv => ?_
      obtain ⟨b, hb⟩ := hS hs v hv
      obtain ⟨p, hp, -⟩ := mem_nonzeroParts.mpr hb
      simp [List.isEmpty_iff.mp hempty] at hp
    · exact hdivide hs

/-- Where a zero divisor is pruned or ruled out, the other outcome remains. -/
private theorem ne_zero_of_mem_values {f : Outcome} {b v : ℤ} (hy : o.Abstracts w.view Y)
    (hs : stops = true ∨ 0 ∉ o.range) (hb : b ∈ Y)
    (hv : v ∈ (if b = 0 then failed stops else f).values w.view) :
    b ∈ o.range ∧ b ≠ 0 ∧ v ∈ f.values w.view := by
  have hb := hy.mem b hb
  split at hv
  · next h0 =>
    rw [mem_values_failed] at hv
    rcases hs with hs | hs
    · simp [hs] at hv
    · exact absurd (h0 ▸ hb) hs
  · next h0 => exact ⟨hb, h0, hv⟩

/-- A quotient lies between those at the corners of the dividend and a part of the divisor. -/
theorem tdiv_mem_span {q span : Range} {a b : ℤ} (ha : a ∈ r) (hb : b ∈ q) (h0 : b ≠ 0)
    (h : Bounds.span? ((nonzeroParts q).flatMap fun p =>
      [r.lo.tdiv p.lo, r.lo.tdiv p.hi, r.hi.tdiv p.lo, r.hi.tdiv p.hi]) = some span) :
    a.tdiv b ∈ span := by
  obtain ⟨p, hp, hbp⟩ := mem_nonzeroParts.mpr ⟨hb, h0⟩
  have hmem := fun v hv => Bounds.le_of_span?_eq_some h (u := v) (List.mem_flatMap.mpr ⟨p, hp, hv⟩)
  simp only [List.mem_cons, List.not_mem_nil, or_false, forall_eq_or_imp, forall_eq,
    Bounds.mem_def] at hmem
  have hsign : 0 < p.lo ∨ p.hi < 0 := by
    rcases nonzeroParts_cases hp with h | h
    · exact .inr h.1
    · exact .inl h.1
  have h1 := tdiv_between_left ha.1 ha.2 h0
  have h2 := tdiv_between_right hsign hbp.1 hbp.2 r.lo
  have h3 := tdiv_between_right hsign hbp.1 hbp.2 r.hi
  rw [Bounds.mem_def]
  omega

/-- A divisor other than zero has quotients. -/
theorem exists_tdiv_span (r : Range) {q : Range} {b : ℤ} (hb : b ∈ q) (h0 : b ≠ 0) :
    ∃ span, Bounds.span? ((nonzeroParts q).flatMap fun p =>
      [r.lo.tdiv p.lo, r.lo.tdiv p.hi, r.hi.tdiv p.lo, r.hi.tdiv p.hi]) = some span := by
  obtain ⟨p, hp, -⟩ := mem_nonzeroParts.mpr ⟨hb, h0⟩
  exact Bounds.exists_span? (List.mem_flatMap.mpr ⟨p, hp, List.mem_cons_self⟩)

/-- Quotients by the parts of the divisor without zero, with the division by zero kept apart. -/
theorem divide_describes (hy : o.Abstracts w.view Y)
    (hany : ∀ v ∈ Operation.divide.results stops w.view w.view w.view r.toSet Y,
      w.view.contains v = true) :
    (division stops w o.range (divideRange stops w r)).delivery.Describes w
      (Operation.divide.results stops w.view w.view w.view r.toSet Y) := by
  refine division_describes hany ?_ fun hs => ?_
  · rintro hs v ⟨a, ha, b, hb, hv⟩
    obtain ⟨hb, h0, -⟩ := ne_zero_of_mem_values hy hs hb hv
    exact ⟨b, hb, h0⟩
  simp only [divideRange]
  split
  · next s hspan =>
    refine overflowing_describes ?_ (by simp)
    rintro v ⟨a, ha, b, hb, hv⟩
    obtain ⟨hb, h0, hv⟩ := ne_zero_of_mem_values hy hs hb hv
    exact ⟨a.tdiv b, tdiv_mem_span ha hb h0 hspan, hv⟩
  · next hn =>
    refine nothing_describes ?_
    rintro v ⟨a, ha, b, hb, hv⟩
    obtain ⟨hb, h0, -⟩ := ne_zero_of_mem_values hy hs hb hv
    obtain ⟨s, hspan⟩ := exists_tdiv_span r hb h0
    simp [hn] at hspan

/-- A bound on the ends of some ranges bounds their magnitude. -/
theorem magnitude_le_iff {parts : List Range} {m : ℤ} :
    magnitude parts ≤ m ↔
      1 ≤ m ∧ ∀ p ∈ parts, (p.lo.natAbs : ℤ) ≤ m ∧ (p.hi.natAbs : ℤ) ≤ m := by
  have key : ∀ (ps : List Range) (n : ℤ),
      ps.foldl (fun m part => max m (max part.lo.natAbs part.hi.natAbs : ℤ)) n ≤ m ↔
        n ≤ m ∧ ∀ p ∈ ps, (p.lo.natAbs : ℤ) ≤ m ∧ (p.hi.natAbs : ℤ) ≤ m := by
    intro ps
    induction ps with
    | nil => simp
    | cons p ps ih =>
      intro n
      rw [List.foldl_cons, ih, max_le_iff, max_le_iff, List.forall_mem_cons, and_assoc]
  exact key parts 1

/-- The magnitude of some ranges bounds their integers. -/
theorem natAbs_le_magnitude {parts : List Range} {p : Range} {b : ℤ} (hp : p ∈ parts)
    (hb : b ∈ p) : (b.natAbs : ℤ) ≤ magnitude parts := by
  have h := (magnitude_le_iff.mp le_rfl).2 p hp
  obtain ⟨h1, h2⟩ := hb
  omega

/-- A remainder has the sign of the dividend and is smaller than both operands. -/
private theorem tmod_bounds (a : ℤ) {b : ℤ} (hb : b ≠ 0) :
    (0 ≤ a → 0 ≤ a.tmod b ∧ a.tmod b ≤ a) ∧ (a ≤ 0 → a ≤ a.tmod b ∧ a.tmod b ≤ 0) ∧
      (a.tmod b).natAbs < b.natAbs := by
  have hle : (a.tmod b).natAbs ≤ a.natAbs := by
    rw [Int.natAbs_tmod]
    exact Nat.mod_le _ _
  refine ⟨fun ha => ?_, fun ha => ?_, ?_⟩
  · have := Int.tmod_nonneg b ha
    omega
  · have := Int.tmod_nonneg b (a := -a) (by omega)
    rw [Int.neg_tmod] at this
    omega
  · rw [Int.natAbs_tmod]
    exact Nat.mod_lt _ (by omega)

/-- The remainders by one divisor of dividends with one quotient are a translation. -/
private theorem modulo_exact_describes {p q : ℤ} (hr : r.Proper w.view) (hp : p ≠ 0) (hpY : p ∈ Y)
    (hlo : r.lo.tdiv p = q) (hhi : r.hi.tdiv p = q)
    (hvalue : ∀ v ∈ Operation.modulo.results stops w.view w.view w.view r.toSet Y,
      ∃ a ∈ r, v = a.tmod p) :
    (words w ⟨r.lo.tmod p, r.hi.tmod p⟩ true).delivery.Describes w
      (Operation.modulo.results stops w.view w.view w.view r.toSet Y) := by
  have hq : ∀ a ∈ r, a.tmod p = a - p * q := fun a ha => by
    have := tdiv_between_left ha.1 ha.2 hp
    rw [Int.tmod_def, show a.tdiv p = q by omega]
  have hlo := hq _ hr.lo_mem_self
  have hhi := hq _ hr.hi_mem_self
  refine words_describes (fun hle => ⟨hle, IntType.contains_tmod hr.lo_mem p,
    IntType.contains_tmod hr.hi_mem p⟩) (fun v hv => ?_) fun _ v hv => ?_
  · obtain ⟨a, ha, rfl⟩ := hvalue v hv
    rw [hq a ha, Bounds.mem_mk, hlo, hhi]
    exact ⟨sub_le_sub_right ha.1 _, sub_le_sub_right ha.2 _⟩
  · rw [Bounds.mem_mk, hlo, hhi] at hv
    have ha : v + p * q ∈ r := ⟨by linarith [hv.1], by linarith [hv.2]⟩
    refine ⟨v + p * q, ha, p, hpY, ?_⟩
    rw [Operation.execute, if_neg hp, mem_values_value, hq _ ha, add_sub_cancel_right]

/-- A remainder has the sign of the dividend, and is smaller than the dividend and than the
divisor. -/
private theorem modulo_general_describes (hr : r.Proper w.view)
    (hvalue : ∀ v ∈ Operation.modulo.results stops w.view w.view w.view r.toSet Y,
      ∃ a ∈ r, ∃ b ∈ o.range, b ≠ 0 ∧ v = a.tmod b) :
    (words w ⟨if r.lo < 0 then max r.lo (1 - magnitude (nonzeroParts o.range)) else 0,
      if 0 < r.hi then min r.hi (magnitude (nonzeroParts o.range) - 1) else 0⟩
        false).delivery.Describes w
      (Operation.modulo.results stops w.view w.view w.view r.toSet Y) := by
  have hbounds := hr.bounds
  have hzero := IntType.contains_iff.mp w.view.contains_zero
  refine words_describes (fun hle => .of_bounds ?_ hle ?_) (fun v hv => ?_) (by simp)
  · simp only
    split <;> omega
  · simp only
    split <;> omega
  · obtain ⟨a, ⟨ha1, ha2⟩, b, hb, h0, rfl⟩ := hvalue v hv
    obtain ⟨p, hp, hbp⟩ := mem_nonzeroParts.mpr ⟨hb, h0⟩
    have h1 := tmod_bounds a h0
    have h2 := natAbs_le_magnitude hp hbp
    rw [Bounds.mem_mk]
    split <;> split <;> omega

/-- Remainders: exact when all dividends have one quotient, bounded by signs and magnitudes
otherwise. -/
theorem modulo_describes (hr : r.Proper w.view) (hy : o.Abstracts w.view Y)
    (hany : ∀ v ∈ Operation.modulo.results stops w.view w.view w.view r.toSet Y,
      w.view.contains v = true) :
    (division stops w o.range (moduloRange w r)).delivery.Describes w
      (Operation.modulo.results stops w.view w.view w.view r.toSet Y) := by
  have hvalue : stops = true ∨ 0 ∉ o.range →
      ∀ v ∈ Operation.modulo.results stops w.view w.view w.view r.toSet Y,
        ∃ a ∈ r, ∃ b ∈ o.range, b ≠ 0 ∧ v = a.tmod b := by
    rintro hs v ⟨a, ha, b, hb, hv⟩
    obtain ⟨hb, h0, hv⟩ := ne_zero_of_mem_values hy hs hb hv
    exact ⟨a, ha, b, hb, h0, hv⟩
  refine division_describes hany (fun hs v hv => ?_) fun hs => ?_
  · obtain ⟨-, -, b, hb, h0, -⟩ := hvalue hs v hv
    exact ⟨b, hb, h0⟩
  have hgeneral := modulo_general_describes hr (hvalue hs)
  simp only [moduloRange]
  split
  · next p hp =>
    split
    · next hone =>
      simp only [Bool.and_eq_true, beq_iff_eq] at hone
      obtain ⟨⟨hpt, -⟩, hq⟩ := hone
      -- the one divisor is an end of the second operand, so a value of it
      have hcases := nonzeroParts_cases (hp ▸ List.mem_singleton_self p)
      have hpY : p.lo ∈ Y := by
        rcases hcases with h | h
        · exact h.2 ▸ hy.lo_mem
        · exact hpt ▸ h.2 ▸ hy.hi_mem
      refine modulo_exact_describes hr (by omega) hpY rfl hq.symm fun v hv => ?_
      obtain ⟨a, ha, b, hb, h0, rfl⟩ := hvalue hs v hv
      obtain ⟨p', hp', hbp⟩ := mem_nonzeroParts.mpr ⟨hb, h0⟩
      rw [hp, List.mem_singleton] at hp'
      subst hp'
      have : b = p'.lo := le_antisymm (hbp.2.trans hpt.ge) hbp.1
      exact ⟨a, ha, by rw [this]⟩
    · exact hp ▸ hgeneral
  · exact hgeneral

end Step

end ScalarDomain
