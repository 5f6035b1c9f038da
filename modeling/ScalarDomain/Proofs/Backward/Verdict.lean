import ScalarDomain.Proofs.Backward.Tightness

/-!
# Verdicts of comparisons

The solver of a comparison leaves ranges in which every value has a partner, with one exception:
operands that must differ. There, the only value of one operand can be cut off an end of the other
one, but not out of its middle, so that a range around it is left as it was
(`Narrowing.relate_cases`). The ranges are the smallest ones either way. The verdict is exact in all
other cases and degraded in this one; thus it tells, in both directions, whether the operands that
are left all belong to pairs with the outcome.
-/

namespace ScalarDomain

/-- The only value of `Y` lies strictly between values of `X`. -/
def Pierces (Y X : Set ℤ) : Prop :=
  ∃ v, Y = {v} ∧ (∃ a ∈ X, a < v) ∧ ∃ b ∈ X, v < b

theorem pierces_toSet {x y : Range} (hy : y.lo ≤ y.hi) :
    Pierces y.toSet x.toSet ↔ y.lo = y.hi ∧ x.lo < y.lo ∧ y.lo < x.hi := by
  constructor
  · rintro ⟨v, hv, ⟨a, ⟨ha, -⟩, hav⟩, b, ⟨-, hb⟩, hvb⟩
    have hlo : y.lo = v := hv.le (Bounds.mem_toSet.mpr ⟨le_rfl, hy⟩)
    have hhi : y.hi = v := hv.le (Bounds.mem_toSet.mpr ⟨hy, le_rfl⟩)
    omega
  · rintro ⟨heq, hlo, hhi⟩
    refine ⟨y.lo, ?_, ⟨x.lo, ⟨le_rfl, by omega⟩, hlo⟩, x.hi, ⟨by omega, le_rfl⟩, hhi⟩
    ext v
    rw [Bounds.mem_toSet, Bounds.mem_def, Set.mem_singleton_iff]
    omega

namespace Comparison

/-- The comparison that holds when a comparison has an outcome. -/
def required (c : Comparison) (outcome : Bool) : Comparison :=
  if outcome then c else c.negate

theorem holds_required (c : Comparison) (outcome : Bool) (a b : ℤ) :
    (c.required outcome).holds a b = true ↔ c.holds a b = outcome := by
  cases outcome with
  | true => rfl
  | false => simp [required, holds_negate]

/-- The operands must differ, and the only value of one of them lies inside the other one. -/
def Punctures (c : Comparison) (X Y : Set ℤ) : Prop :=
  c = .different ∧ (Pierces Y X ∨ Pierces X Y)

end Comparison

namespace Narrowing

variable {t : IntType} {x y : Range} {cmp : Comparison} {R : ℤ → ℤ → Prop}

/-! ### Solvers -/

/-- A value inside a range stays, and any other one is gone. -/
private theorem first_trim_cases (own : Range) (v : ℤ) :
    (first (trim own v).1 (trim own v).2 = within (some own) none false ∧ own.lo < v ∧ v < own.hi) ∨
      ∃ r, first (trim own v).1 (trim own v).2 = within (some r) none true ∧
        ¬(own.lo < v ∧ v < own.hi) := by
  by_cases hin : own.lo < v ∧ v < own.hi
  · refine .inl ⟨?_, hin⟩
    rw [trim, if_neg hin.1.ne, if_neg hin.2.ne']
    simp [first, hin]
  · refine .inr ⟨(trim own v).1, ?_, hin⟩
    have hexact : (trim own v).2 = true := by
      rw [trim]
      split_ifs <;>
        simp only [Bool.not_eq_true', Bool.and_eq_false_iff, decide_eq_false_iff_not] <;> omega
    rw [first, hexact]

/-- The solver of a comparison is exact unless it would have to take a value out of the middle of a
range; it then leaves the ranges as they are. -/
theorem relate_cases (cmp : Comparison) (hx : x.lo ≤ x.hi) (hy : y.lo ≤ y.hi) :
    relate cmp ⟨t, x⟩ ⟨t, y⟩ = impossible ∨
    (∃ r s, relate cmp ⟨t, x⟩ ⟨t, y⟩ = within r s true ∧ ¬cmp.Punctures x.toSet y.toSet) ∨
    ∃ r s, relate cmp ⟨t, x⟩ ⟨t, y⟩ = within r s false ∧ cmp.Punctures x.toSet y.toSet ∧
      (∀ q ∈ r, q = x) ∧ ∀ q ∈ s, q = y := by
  have hpierce := pierces_toSet (x := x) hy
  have hpierce' := pierces_toSet (x := y) hx
  have hnot : ¬(y.lo = y.hi ∧ x.lo < y.lo ∧ y.lo < x.hi) →
      ¬(x.lo = x.hi ∧ y.lo < x.lo ∧ x.lo < y.hi) → ∀ c : Comparison, ¬c.Punctures x.toSet y.toSet :=
    fun h h' c hc => hc.2.elim (h ∘ hpierce.mp) (h' ∘ hpierce'.mp)
  cases cmp with
  | different =>
    -- the operand that is trimmed depends on which ones have a single value
    rw [relate]
    cases hxv : (⟨t, x⟩ : Span).value? with
    | some a =>
      obtain ⟨hxlo, hxhi⟩ : x.lo = a ∧ x.hi = a := Span.value?_eq_some.mp hxv
      cases hyv : (⟨t, y⟩ : Span).value? with
      | some b =>
        obtain ⟨hylo, hyhi⟩ : y.lo = b ∧ y.hi = b := Span.value?_eq_some.mp hyv
        by_cases hab : a = b
        · exact .inl (if_pos hab)
        · obtain ⟨-, hin⟩ | ⟨r, hr, -⟩ := first_trim_cases x b
          · omega
          · exact .inr (.inl ⟨_, _, (if_neg hab).trans hr, hnot (by omega) (by omega) _⟩)
      | none =>
        have hyne : y.lo ≠ y.hi := Span.value?_eq_none.mp hyv
        obtain ⟨hkept, hin⟩ | ⟨r, hr, hout⟩ := first_trim_cases y a
        · exact .inr (.inr ⟨_, _, congrArg swap hkept, ⟨rfl, .inr (hpierce'.mpr (by omega))⟩,
            by simp, by simp⟩)
        · exact .inr (.inl ⟨_, _, congrArg swap hr, hnot (by omega) (by omega) _⟩)
    | none =>
      have hxne : x.lo ≠ x.hi := Span.value?_eq_none.mp hxv
      cases hyv : (⟨t, y⟩ : Span).value? with
      | some b =>
        obtain ⟨hylo, hyhi⟩ : y.lo = b ∧ y.hi = b := Span.value?_eq_some.mp hyv
        obtain ⟨hkept, hin⟩ | ⟨r, hr, hout⟩ := first_trim_cases x b
        · exact .inr (.inr ⟨_, _, hkept, ⟨rfl, .inl (hpierce.mpr (by omega))⟩, by simp, by simp⟩)
        · exact .inr (.inl ⟨_, _, hr, hnot (by omega) (by omega) _⟩)
      | none =>
        have hyne : y.lo ≠ y.hi := Span.value?_eq_none.mp hyv
        exact .inr (.inl ⟨none, none, rfl, hnot (by omega) (by omega) _⟩)
  | _ =>
    refine .inr (.inl ⟨_, _, rfl, ?_⟩)
    rintro ⟨⟨⟩, -⟩

/-- A narrowing that is not exact leaves an operand that belongs to no admitted pair. -/
def IsFrank (R : ℤ → ℤ → Prop) (X Y : Set ℤ) : Narrowing → Prop
  | impossible => True
  | within r s exact => exact = false →
      (∃ a ∈ X, (∀ q ∈ r, a ∈ q) ∧ ∀ b ∈ Y, ¬R a b) ∨ ∃ b ∈ Y, (∀ q ∈ s, b ∈ q) ∧ ∀ a ∈ X, ¬R a b

theorem Inverts.isLive {X Y : Set ℤ} {r s : Option Range} (h : (within r s true).Inverts R X Y) :
    (within r s true).IsLive R X Y := by
  intro a ha har b hb hbs
  obtain ⟨b', hb', hR⟩ := (h.tight rfl a ha har b hb hbs).1
  exact ⟨(a, b'), ha, hb', hR⟩

private theorem mem_getD {r : Option Range} {v : ℤ} (hv : v ∈ x) :
    v ∈ r.getD x ↔ ∀ q ∈ r, v ∈ q := by
  cases r <;> simp [hv]

/-- Exact ranges are sharp if there is a pair, since all that is left belongs to one. -/
theorem Inverts.isSharp {r s : Option Range} (h : (within r s true).Inverts R x.toSet y.toSet)
    (hne : (admitted R x.toSet y.toSet).Nonempty) :
    (within r s true).IsSharp (admitted R x.toSet y.toSet) x y := by
  obtain ⟨⟨a, b⟩, ha, hb, hR⟩ := hne
  obtain ⟨har, hbs⟩ := h.keeps a ha b hb hR
  constructor
  · refine Bounds.endsIn_of_forall ha ((mem_getD ha).mpr har) fun a' ha' har' => ?_
    obtain ⟨b', hb', hR'⟩ := (h.tight rfl a' ha' ((mem_getD ha').mp har') b hb hbs).1
    exact ⟨(a', b'), ⟨ha', hb', hR'⟩, rfl⟩
  · refine Bounds.endsIn_of_forall hb ((mem_getD hb).mpr hbs) fun b' hb' hbs' => ?_
    obtain ⟨a', ha', hR'⟩ := (h.tight rfl a ha har b' hb' ((mem_getD hb').mp hbs')).2
    exact ⟨(a', b'), ⟨ha', hb', hR'⟩, rfl⟩

section

variable (cmp) (hx : x.lo ≤ x.hi) (hy : y.lo ≤ y.hi)

include hx hy

/-- A range with a value inside that must not be taken still ends at values that may be. -/
theorem admitted_of_punctures (h : cmp.Punctures x.toSet y.toSet) :
    (x.lo, y.lo) ∈ admitted (fun a b => cmp.holds a b = true) x.toSet y.toSet ∧
      (x.hi, y.hi) ∈ admitted (fun a b => cmp.holds a b = true) x.toSet y.toSet := by
  obtain ⟨rfl, h⟩ := h
  rw [pierces_toSet hy, pierces_toSet hx] at h
  refine ⟨⟨⟨le_rfl, hx⟩, ⟨le_rfl, hy⟩, Comparison.different_holds.mpr ?_⟩, ⟨hx, le_rfl⟩,
    ⟨hy, le_rfl⟩, Comparison.different_holds.mpr ?_⟩
  · omega
  · omega

theorem relate_isLive :
    (relate cmp ⟨t, x⟩ ⟨t, y⟩).IsLive (fun a b => cmp.holds a b = true) x.toSet y.toSet := by
  have hinv := relate_inverts (t := t) cmp hx hy
  rcases relate_cases (t := t) cmp hx hy with h | ⟨r, s, h, -⟩ | ⟨r, s, h, hp, -⟩
  · rw [h]
    trivial
  · rw [h] at hinv ⊢
    exact hinv.isLive
  · rw [h]
    exact fun _ _ _ _ _ _ => ⟨_, (admitted_of_punctures cmp hx hy hp).1⟩

theorem relate_isSharp
    (hne : (admitted (fun a b => cmp.holds a b = true) x.toSet y.toSet).Nonempty) :
    (relate cmp ⟨t, x⟩ ⟨t, y⟩).IsSharp (admitted (fun a b => cmp.holds a b = true) x.toSet y.toSet)
      x y := by
  have hinv := relate_inverts (t := t) cmp hx hy
  rcases relate_cases (t := t) cmp hx hy with h | ⟨r, s, h, -⟩ | ⟨r, s, h, hp, hr, hs⟩
  · rw [h]
    trivial
  · rw [h] at hinv ⊢
    exact hinv.isSharp hne
  · obtain ⟨hlo, hhi⟩ := admitted_of_punctures cmp hx hy hp
    have hrx : r.getD x = x := by
      cases r with
      | none => rfl
      | some q => exact hr q rfl
    have hsy : s.getD y = y := by
      cases s with
      | none => rfl
      | some q => exact hs q rfl
    rw [h, IsSharp, hrx, hsy]
    exact ⟨Bounds.endsIn_of_mem ⟨le_rfl, hx⟩ ⟨hx, le_rfl⟩ ⟨_, hlo, rfl⟩ ⟨_, hhi, rfl⟩,
      Bounds.endsIn_of_mem ⟨le_rfl, hy⟩ ⟨hy, le_rfl⟩ ⟨_, hlo, rfl⟩ ⟨_, hhi, rfl⟩⟩

/-- The value that could not be taken out has no partner. -/
theorem relate_isFrank :
    (relate cmp ⟨t, x⟩ ⟨t, y⟩).IsFrank (fun a b => cmp.holds a b = true) x.toSet y.toSet := by
  rcases relate_cases (t := t) cmp hx hy with h | ⟨r, s, h, -⟩ | ⟨r, s, h, ⟨rfl, hp⟩, hr, hs⟩
  · rw [h]
    trivial
  · rw [h]
    exact fun h => absurd h (by decide)
  · rw [h]
    intro _
    simp only [Comparison.different_holds, not_ne_iff]
    rw [pierces_toSet hy, pierces_toSet hx] at hp
    rcases hp with ⟨heq, hlo, hhi⟩ | ⟨heq, hlo, hhi⟩
    · have hmem : y.lo ∈ x := ⟨hlo.le, hhi.le⟩
      refine .inl ⟨y.lo, hmem, fun q hq => hr q hq ▸ hmem, ?_⟩
      rintro b ⟨h1, h2⟩
      omega
    · have hmem : x.lo ∈ y := ⟨hlo.le, hhi.le⟩
      refine .inr ⟨x.lo, hmem, fun q hq => hs q hq ▸ hmem, ?_⟩
      rintro a ⟨h1, h2⟩
      omega

end

/-- A known outcome is a comparison that must hold. -/
theorem solve_compare_bit (stops c : Bool) (cmp : Comparison) (outcome : Bool) (x y : Span) :
    solve stops (.compare cmp) ⟨x, some y, ⟨WordType.bit.view,
      (Shape.constant (if outcome then 1 else 0)).bounds WordType.bit.view⟩, c⟩ =
      relate (cmp.required outcome) x y := by
  cases outcome <;> rfl

end Narrowing

/-! ### Findings -/

section

open Narrowing

variable {limit : ℕ} {w : WordType} {arg : Option WordType} {t : IntType} {x : Element}
  {y : Option Element} {o : Element} {R : ℤ → ℤ → Prop} {P : Prop} {F : Set (ℤ × ℤ)} {f : Finding}
  {n : Narrowing} {rx ry : Range}

/-- A finding with a verdict in both directions: it is exact if only operands of pairs are left, and
degraded if `P` holds. -/
structure Finding.Discloses (F : Set (ℤ × ℤ)) (P : Prop) (x : Element) (y : Option Element)
    (f : Finding) : Prop where
  /-- It is exact if only operands of pairs are left. -/
  exact_iff : f.exactness ≠ none → (f.exactness = some true ↔
    (f.firstOf x).values ⊆ Prod.fst '' F ∧ operandValues (f.secondOf y) ⊆ Prod.snd '' F)
  /-- When it is degraded. -/
  degraded_iff : f.exactness ≠ none → (f.exactness = some false ↔ P)

/-- The verdict of a narrowing on a convex result. -/
theorem Narrowing.finding_discloses (hx : x.IsWord limit w) (hy : IsOperand limit arg y)
    (hn : y = none → n.secondRange? = none) (htight : n.IsTight R x.values (operandValues y))
    (hfrank : n.IsFrank R x.values (operandValues y))
    (hP : ∀ r s exact, n = within r s exact → (exact = false ↔ P))
    (hf : n.finding limit true x y = .ok f) :
    f.Discloses (admitted R x.values (operandValues y)) P x y := by
  cases n with
  | impossible =>
    cases hf
    exact ⟨fun h => absurd rfl h, fun h => absurd rfl h⟩
  | within r s exact =>
    obtain ⟨f', hf', hword, hoperand, ⟨hnone, -⟩ | ⟨hsome, -, h1, h2⟩⟩ :=
      finding_cuts r s exact true hx hy hn <;> cases hf.symm.trans hf'
    · exact ⟨fun h => absurd hnone h, fun h => absurd hnone h⟩
    rw [Bool.and_true] at hsome
    refine ⟨fun _ => ?_, fun _ => ?_⟩ <;> rw [hsome, Option.some.injEq]
    · obtain ⟨a, ha⟩ := hword.nonempty
      obtain ⟨b, hb⟩ := hoperand.nonempty
      cases exact with
      | true =>
        refine iff_of_true rfl ⟨fun a' ha' => ?_, fun b' hb' => ?_⟩
        · obtain ⟨ha', har'⟩ := (h1 a').mp ha'
          obtain ⟨b', hb', hR⟩ := (htight rfl a' ha' har' b ((h2 b).mp hb).1 ((h2 b).mp hb).2).1
          exact ⟨(a', b'), ⟨ha', hb', hR⟩, rfl⟩
        · obtain ⟨hb', hbs'⟩ := (h2 b').mp hb'
          obtain ⟨a', ha', hR⟩ := (htight rfl a ((h1 a).mp ha).1 ((h1 a).mp ha).2 b' hb' hbs').2
          exact ⟨(a', b'), ⟨ha', hb', hR⟩, rfl⟩
      | false =>
        refine iff_of_false Bool.false_ne_true ?_
        rintro ⟨hfirst, hsecond⟩
        rcases hfrank rfl with ⟨a', ha', har', hno⟩ | ⟨b', hb', hbs', hno⟩
        · obtain ⟨p, ⟨-, hp, hR⟩, rfl⟩ := hfirst ((h1 a').mpr ⟨ha', har'⟩)
          exact hno p.2 hp hR
        · obtain ⟨p, ⟨hp, -, hR⟩, rfl⟩ := hsecond ((h2 b').mpr ⟨hb', hbs'⟩)
          exact hno p.1 hp hR
    · exact hP r s exact rfl

/-- What a comparison finds out about words without gaps. -/
theorem Narrowing.relate_finding (cmp : Comparison) (hx : x.IsWord limit w) (hy : o.IsWord limit w)
    (hrx : x.values = rx.toSet) (hry : o.values = ry.toSet) (hx' : rx.lo ≤ rx.hi)
    (hy' : ry.lo ≤ ry.hi) :
    ∃ f, (relate cmp ⟨t, rx⟩ ⟨t, ry⟩).finding limit true x (some o) = .ok f ∧
      f.Tightens (admitted (fun a b => cmp.holds a b = true) x.values o.values) x (some o) ∧
      f.Discloses (admitted (fun a b => cmp.holds a b = true) x.values o.values)
        (cmp.Punctures x.values o.values) x (some o) := by
  have hinv := relate_inverts (t := t) cmp hx' hy'
  have hlive := relate_isLive (t := t) cmp hx' hy'
  have hsharp := relate_isSharp (t := t) cmp hx' hy'
  have hfrank := relate_isFrank (t := t) cmp hx' hy'
  have hcases := relate_cases (t := t) cmp hx' hy'
  rw [← hrx, ← hry] at hinv hlive hsharp hfrank hcases
  have hoperand : IsOperand limit (some w) (some o) := hy
  obtain ⟨f, hf, htight⟩ :=
    finding_tightens true hx hoperand hrx hry (by simp) hinv.keeps hlive hsharp
  refine ⟨f, hf, htight, finding_discloses hx hoperand (by simp) hinv.tight hfrank ?_ hf⟩
  rintro r s exact h
  rw [h] at hcases
  rcases hcases with h' | ⟨_, _, h', hnot⟩ | ⟨_, _, h', hp, -⟩ <;> cases h'
  · exact iff_of_false (by decide) hnot
  · exact iff_of_true rfl hp

/-- What a comparison with a known outcome finds out about words without gaps. -/
theorem Finding.exists_compare (stops : Bool) (cmp : Comparison) (outcome : Bool)
    (hx : x.IsWord limit (.int t)) (hy : o.IsWord limit (.int t)) (hxl : ¬x.IsListed)
    (hyl : ¬o.IsListed) :
    ∃ f, ofWords? limit stops (.compare cmp) x (some o) (.bit outcome) = .ok (some f) ∧
      f.Tightens (admitted (fun a b => cmp.holds a b = outcome) x.values o.values) x (some o) ∧
      f.Discloses (admitted (fun a b => cmp.holds a b = outcome) x.values o.values)
        ((cmp.required outcome).Punctures x.values o.values) x (some o) := by
  have hword := hx
  have hoperand := hy
  obtain ⟨s, rfl, hs⟩ := hx
  obtain ⟨p, rfl, hp⟩ := hy
  obtain ⟨f, hf, htight, hdiscloses⟩ := relate_finding (t := t) (cmp.required outcome) hword
    hoperand (Element.values_of_not_isListed hxl) (Element.values_of_not_isListed hyl)
    hs.proper.bounds.le hp.proper.bounds.le
  simp only [Comparison.holds_required] at htight hdiscloses
  have hranges : OnRanges limit stops (.compare cmp) (.word (.int t) s) (some (.word (.int t) p))
      (.bit outcome) := onRanges trivial
  refine ⟨f, ?_, htight, hdiscloses⟩
  rw [hranges, Element.bit, frame_binary hxl hyl, Option.elim_some, solve_compare_bit]
  exact congrArg (Except.map some) hf

end

/-! ### Refinements -/

section

open Narrowing

variable {limit : ℕ} {x y : Element} {o : Option Element} {t : IntType} {r : Refinement}
  {f : Finding} {P : Prop} {F : Set (ℤ × ℤ)}

/-- A refinement with a verdict in both directions: it is exact if only operands of pairs are left,
and degraded if `P` holds. -/
structure Refinement.Discloses (F : Set (ℤ × ℤ)) (P : Prop) (x : Element) (y : Option Element)
    (r : Refinement) : Prop where
  /-- It is exact if only operands of pairs are left. -/
  exact_iff : r.eval.empty = false → (r.eval.verdict = .exact ↔
    (r.first.getD x).values ⊆ Prod.fst '' F ∧
      operandValues (y.map r.second.getD) ⊆ Prod.snd '' F)
  /-- When it is degraded. -/
  degraded_iff : r.eval.empty = false → (r.eval.verdict = .degraded ↔ P)

theorem Refinement.discloses_settle (hr : r.Fresh) (h : f.Discloses F P x o) :
    (r.settle f).Discloses F P x o := by
  have hperformed := verdict_settle r f
  rw [← found_settle hr f] at h
  have hfound : (r.settle f).eval.empty = false →
      ((r.settle f).found .first).exactness = some (decide ((r.settle f).eval.verdict = .exact)) :=
    fun hlive => by simp [found, hlive]
  refine ⟨fun hlive => ?_, fun hlive => ?_⟩
  · have hexact := h.exact_iff (by simp [hfound hlive])
    rwa [hfound hlive, Option.some.injEq, decide_eq_true_eq] at hexact
  · rw [← h.degraded_iff (by simp [hfound hlive]), hfound hlive, Option.some.injEq,
      decide_eq_false_iff_not]
    cases hv : (r.settle f).eval.verdict with
    | notPerformed => exact absurd hv hperformed
    | exact => decide
    | degraded => decide

/-- Only the values of the first operand matter. -/
theorem Refinement.Discloses.of_values_eq {x' : Element} (h : r.Discloses F P x' o)
    (hx : x'.values = x.values) : r.Discloses F P x o := by
  have hfirst : (r.first.getD x').values = (r.first.getD x).values := by
    cases r.first with
    | none => exact hx
    | some q => rfl
  exact ⟨hfirst ▸ h.exact_iff, h.degraded_iff⟩

/-- A comparison of integers without gaps with a known outcome is refined to the smallest ranges
around the pairs of operands that have the outcome, and ends empty exactly when there is none. The
verdict is exact if and only if all operands that are left belong to such pairs, and degraded if and
only if the operands must differ and the only value of one of them lies inside the other one. -/
theorem Element.constrain_compare_tightens (params : Params) (hdepth : 1 ≤ params.maxDepth)
    (cmp : Comparison) (outcome : Bool) (hx : x.IsWord limit (.int t))
    (hy : y.IsWord limit (.int t)) (hxl : ¬x.IsListed) (hyl : ¬y.IsListed) :
    ∃ r, (x.constrain limit (.compare cmp) (.bit outcome) (.start params (some y))).value =
        .ok (true, r) ∧
      r.Tightens (admitted (fun a b => cmp.holds a b = outcome) x.values y.values) x (some y) ∧
      r.Discloses (admitted (fun a b => cmp.holds a b = outcome) x.values y.values)
        ((cmp.required outcome).Punctures x.values y.values) x (some y) := by
  have haccepts : (Operation.compare cmp).Accepts (.int t) (some (.int t)) .bit :=
    ⟨trivial, iff_of_true rfl rfl, by simp [Operation.resultType]⟩
  have hword : (x.throughInterval?.getD x).IsWord limit (.int t) := isWord_piece hx (.inl rfl)
  have hnot : ¬(x.throughInterval?.getD x).IsListed := (isListed_throughInterval x).not.mpr hxl
  have hcontains : WordType.bit.view.contains (if outcome then 1 else 0) = true := by
    cases outcome <;> decide
  have hbit : (Element.bit outcome).IsWord limit .bit :=
    isWord_word (Shape.wellFormed_constant hcontains)
  obtain ⟨f, hf, htight, hdiscloses⟩ :=
    Finding.exists_compare params.stops cmp outcome hword hy hnot hyl
  rw [values_throughInterval] at htight hdiscloses
  have hfresh := Refinement.fresh_start params (some y)
  refine ⟨_, constrain_settles params hdepth haccepts hx (y := some y) hy hbit hxl hf, ?_, ?_⟩
  · exact (Refinement.tightens_settle hfresh htight).of_values_eq (values_throughInterval x)
      fun _ => rfl
  · exact (Refinement.discloses_settle hfresh hdiscloses).of_values_eq (values_throughInterval x)

/-- An equality that fails, for a value inside a range: the range stays, and the verdict says so. -/
theorem Element.constrain_compare_tightens_inside :
    let t : IntType := ⟨4, true, by decide, by decide⟩
    let x : Element := .word (.int t) (.interval ⟨-3, 4⟩)
    let y : Element := .word (.int t) (.constant 1)
    let params : Params := .preset 1 .sure .propagate
    1 ≤ params.maxDepth ∧ x.IsWord 8 (.int t) ∧ y.IsWord 8 (.int t) ∧ ¬x.IsListed ∧ ¬y.IsListed ∧
      ∃ r, (x.constrain 8 (.compare .equal) (.bit false) (.start params (some y))).value =
          .ok (true, r) ∧ r.eval.empty = false ∧ r.eval.verdict = .degraded ∧
        r.Tightens (admitted (fun a b => Comparison.equal.holds a b = false) x.values y.values) x
          (some y) := by
  intro t x y params
  have hx : x.IsWord 8 (.int t) := by decide
  have hy : y.IsWord 8 (.int t) := by decide
  have hxl : ¬x.IsListed := by rintro ⟨⟩
  have hyl : ¬y.IsListed := by rintro ⟨⟩
  obtain ⟨r, hr, htight, hdiscloses⟩ :=
    constrain_compare_tightens params (by decide) .equal false hx hy hxl hyl
  have hmem : ∀ {v}, -3 ≤ v → v ≤ 4 → v ∈ x.values := fun h1 h2 =>
    mem_values_word.mpr (Shape.contains_interval.mpr ⟨h1, h2⟩)
  have hone : ∀ v, v ∈ y.values ↔ v = 1 := fun v => Shape.contains_constant
  have hpair : ((0, 1) : ℤ × ℤ) ∈
      admitted (fun a b => Comparison.equal.holds a b = false) x.values y.values :=
    ⟨hmem (by decide) (by decide), (hone 1).mpr rfl, by decide⟩
  have hlive : r.eval.empty = false := by
    rw [← Bool.not_eq_true, htight.empty]
    exact (Set.nonempty_of_mem hpair).ne_empty
  have hpierces : Pierces y.values x.values :=
    ⟨1, Set.ext hone, ⟨0, hmem (by decide) (by decide), by decide⟩, 2,
      hmem (by decide) (by decide), by decide⟩
  exact ⟨by decide, hx, hy, hxl, hyl, r, hr, hlive,
    (hdiscloses.degraded_iff hlive).mpr ⟨rfl, .inl hpierces⟩, htight⟩

end

end ScalarDomain
