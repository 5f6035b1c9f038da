import ScalarDomain.Proofs.Backward.Narrowing
import ScalarDomain.Proofs.Execution
import ScalarDomain.Proofs.Landmark
import ScalarDomain.Proofs.Forward.Transfer
import ScalarDomain.Backward.Logic

/-!
# Operands of logical operations

Logical operations look at their operands only to see whether they are zero. Their solvers work on
elements, lists included: an operand is restricted to its zero values or to the others
(`Element.restrict?_spec`), which loses nothing and is exact unless a zero lies inside a range.
-/

namespace ScalarDomain

variable {limit : ℕ} {w : WordType} {s : Shape} {x y z : Element} {P : Prop}

/-! ### Zero and nonzero values -/

namespace Element

/-- Some values of an element, among them all that have a property; when they are called exact
there are no others. -/
structure IsPart (limit : ℕ) (w : WordType) (x : Element) (Q : ℤ → Prop) (c : Option Element)
    (exact : Bool) : Prop where
  /-- They make a well-formed word. -/
  word : (c.getD x).IsWord limit w
  /-- It is below the element. -/
  below : ∀ q ∈ c, q.Below x
  /-- Values with the property stay. -/
  keeps : ∀ v ∈ x.values, Q v → v ∈ (c.getD x).values
  /-- If they are exact the others are gone. -/
  tight : exact = true → ∀ v ∈ (c.getD x).values, Q v

theorem IsPart.subset {Q : ℤ → Prop} {c : Option Element} {exact : Bool}
    (h : x.IsPart limit w Q c exact) : (c.getD x).values ⊆ x.values := by
  cases c with
  | none => exact subset_rfl
  | some q => exact (h.below q rfl).subset

private theorem zeroPart?_spec (hx : x.IsWord limit w) :
    (x.zeroPart? = none → ∀ v ∈ x.values, v ≠ 0) ∧
      ∀ c, x.zeroPart? = some c → IsPart limit w x (· = 0) (some c) true := by
  obtain ⟨s, rfl, hs⟩ := hx
  rw [zeroPart?]
  split
  · next h0 =>
    refine ⟨by simp, ?_⟩
    rintro c ⟨⟩
    have hmem : ∀ v, v ∈ (wordConstant w 0).values ↔ v = 0 := fun v => by
      rw [wordConstant_eq w.view.contains_zero, mem_values_word, Shape.contains_constant]
    refine ⟨isWord_wordConstant w.view.contains_zero, ?_, fun v _ hv => (hmem v).mpr hv,
      fun _ v hv => (hmem v).mp hv⟩
    rintro _ ⟨⟩
    rw [wordConstant_eq w.view.contains_zero]
    exact constant_below h0
  · next h0 =>
    refine ⟨?_, by simp⟩
    rintro - v hv rfl
    exact h0 hv

/-- The range without a zero at its ends. -/
private theorem cutZero?_spec {t : IntType} {r : Range} (hr : r.Proper t) :
    (cutZero? r = none → ∀ v ∈ r, v = 0) ∧ ∀ q, cutZero? r = some q →
      q.Proper t ∧ (∀ v ∈ q, v ∈ r) ∧ (∀ v ∈ r, v ≠ 0 → v ∈ q) ∧
        (¬(q.lo < 0 ∧ 0 < q.hi) → ∀ v ∈ q, v ≠ 0) := by
  obtain ⟨h1, h2, h3⟩ := hr.bounds
  simp only [cutZero?, Bounds.mem_def]
  generalize hq : (if r.lo = 0 then (⟨r.lo + 1, r.hi⟩ : Range) else _) = q
  have hcases : (r.lo = 0 ∧ q.lo = 1 ∧ q.hi = r.hi) ∨
      (r.lo ≠ 0 ∧ r.hi = 0 ∧ q.lo = r.lo ∧ q.hi = -1) ∨
      (r.lo ≠ 0 ∧ r.hi ≠ 0 ∧ q.lo = r.lo ∧ q.hi = r.hi) := by
    split_ifs at hq <;> subst hq <;> simp <;> omega
  split
  · refine ⟨fun _ v hv => ?_, by simp⟩
    omega
  · next hle =>
    refine ⟨by simp, ?_⟩
    rintro _ ⟨⟩
    refine ⟨.of_bounds ?_ ?_ ?_, fun v hv => ?_, fun v hv hne => ?_, fun hside v hv => ?_⟩ <;> omega

/-- The nonzero ones of the listed values of a word that may be zero. -/
private theorem ofKept_nonzero_spec {vs : List ℤ} (hs : s.WellFormed limit w)
    (hvs : (word w s).intValues? = some vs) (hzero : ¬∀ v ∈ (word w s).values, v ≠ 0) :
    (Shape.ofKept w limit (vs.filter (· != 0)) = none → vs.filter (· != 0) = []) ∧
      ∀ q, Shape.ofKept w limit (vs.filter (· != 0)) = some q →
        q.WellFormed limit w ∧ (∀ v, q.contains w.view v = true ↔ v ∈ vs.filter (· != 0)) ∧
          q.Below w.view s := by
  have hmem : ∀ v, v ∈ vs ↔ s.contains w.view v = true := fun v => mem_intValues? hvs
  have hall : ∀ v ∈ vs.filter (· != 0), w.view.contains v = true := fun v hv =>
    hs.proper.contains ((hmem v).mp (List.mem_of_mem_filter hv))
  have hsubset : ∀ {q : Shape}, (∀ v, q.contains w.view v = true ↔ v ∈ vs.filter (· != 0)) →
      q.toSet w.view ⊆ s.toSet w.view := fun hq v hv =>
    (hmem v).mp (List.mem_of_mem_filter ((hq v).mp hv))
  cases s with
  | interval r => cases w <;> cases hvs
  | disjunction us =>
    have hus : us = vs := by cases w <;> exact Option.some.inj hvs
    subst hus
    have hlen := (List.length_filter_le (· != 0) us).trans hs.proper.2.2.2.2
    obtain ⟨hnone, hsome⟩ := Shape.ofKept_spec hall (.inr hlen)
    refine ⟨hnone, fun q hq => ⟨(hsome q hq).1, (hsome q hq).2, ?_⟩⟩
    cases w with
    | bit => exact absurd rfl hs.proper.1
    | int t =>
      exact Shape.below_of_isEnumerated (hsubset (hsome q hq).2) (Shape.isEnumerated_ofKept hlen hq)
  | constant c =>
    -- the only value is zero
    have hc : vs = [c] := by cases w <;> exact (Option.some.inj hvs).symm
    have h0 : c = 0 := by
      by_contra hne
      refine hzero fun v hv => ?_
      rw [mem_values_word, Shape.contains_constant] at hv
      rwa [hv]
    subst hc h0
    exact ⟨fun _ => rfl, nofun⟩
  | top =>
    cases w with
    | int t => cases hvs
    | bit =>
      have hlen : WordType.bit = .bit ∨ (vs.filter (· != 0)).length ≤ limit := .inl rfl
      obtain ⟨hnone, hsome⟩ := Shape.ofKept_spec hall hlen
      refine ⟨hnone, fun q hq => ⟨(hsome q hq).1, (hsome q hq).2, ?_⟩⟩
      exact Shape.below_of_subset_bit (hsome q hq).1 hs (hsubset (hsome q hq).2)

/-- Only an interval or a top of an integer type has values that are not listed, and a range in
their place is no top. -/
private theorem unlisted_spec (hs : s.WellFormed limit w) (h : (word w s).intValues? = none)
    (r : Range) : ¬s.IsEnumerated ∧ w.rangeShape r ≠ .top := by
  cases w with
  | bit =>
    cases s with
    | interval q => exact absurd rfl hs.proper.1
    | _ => cases h
  | int t =>
    constructor
    · cases s with
      | interval q => exact Shape.not_isEnumerated_interval
      | top => exact Shape.not_isEnumerated_top
      | _ => cases h
    · simp only [WordType.rangeShape]
      split <;> simp

private theorem nonzeroPart?_spec (hx : x.IsWord limit w) :
    (x.nonzeroPart? limit = none → ∀ v ∈ x.values, v = 0) ∧
      ∀ c exact, x.nonzeroPart? limit = some (c, exact) →
        IsPart limit w x (· ≠ 0) (some c) exact := by
  obtain ⟨s, rfl, hs⟩ := hx
  have hsummary : (word w s).summary.IsOf w.view (word w s).values := Summary.isOf_shape hs.proper
  rw [nonzeroPart?]
  split
  · next hnonzero =>
    refine ⟨by simp, ?_⟩
    rintro _ _ ⟨⟩
    refine ⟨isWord_word hs, ?_, fun v hv _ => hv, fun _ => hsummary.isNonzero_iff.mp hnonzero⟩
    rintro _ ⟨⟩
    exact .word (.refl _ s)
  next hzero =>
  cases hvs : (word w s).intValues? with
  | some vs =>
    have hmem : ∀ v, v ∈ vs.filter (· != 0) ↔ v ∈ (word w s).values ∧ v ≠ 0 := fun v => by
      rw [List.mem_filter, mem_intValues? hvs, bne_iff_ne, mem_values_word]
    obtain ⟨hnone, hsome⟩ := ofKept_nonzero_spec hs hvs fun h =>
      hzero (hsummary.isNonzero_iff.mpr h)
    dsimp only
    cases hk : Shape.ofKept w limit (vs.filter (· != 0)) with
    | none =>
      refine ⟨fun _ v hv => ?_, by simp⟩
      by_contra hne
      have := (hmem v).mpr ⟨hv, hne⟩
      rw [hnone hk] at this
      cases this
    | some q =>
      refine ⟨by simp, ?_⟩
      rintro _ _ ⟨⟩
      obtain ⟨hq, hqv, hbelow⟩ := hsome q hk
      refine ⟨isWord_word hq, ?_, fun v hv hne => (hqv v).mpr ((hmem v).mpr ⟨hv, hne⟩),
        fun _ v hv => ((hmem v).mp ((hqv v).mp hv)).2⟩
      rintro _ ⟨⟩
      exact .word hbelow
  | none =>
    have hprec : s.precision ≠ .disjunction := precision_of_intValues? hvs
    have hmem : ∀ v, v ∈ (word w s).values ↔ v ∈ s.bounds w.view := fun v =>
      Shape.contains_iff_mem_bounds hprec
    obtain ⟨hnone, hsome⟩ := cutZero?_spec hs.proper.bounds
    dsimp only
    cases hc : cutZero? (s.bounds w.view) with
    | none => exact ⟨fun _ v hv => hnone hc v ((hmem v).mp hv), by simp⟩
    | some q =>
      refine ⟨by simp, ?_⟩
      rintro _ _ ⟨⟩
      obtain ⟨hq, hsub, hkeep, hside⟩ := hsome q hc
      refine ⟨isWord_word (WordType.wellFormed_rangeShape hq), ?_, fun v hv hne => ?_,
        fun hexact v hv => ?_⟩
      · rintro _ ⟨⟩
        obtain ⟨hunlisted, hshape⟩ := unlisted_spec hs hvs q
        refine .word (Shape.below_of_not_isEnumerated (fun v hv => ?_) hshape hunlisted)
        exact (hmem v).mpr (hsub v ((WordType.contains_rangeShape hq).mp hv))
      · exact (WordType.contains_rangeShape hq).mpr (hkeep v ((hmem v).mp hv) hne)
      · refine hside ?_ v ((WordType.contains_rangeShape hq).mp hv)
        rintro ⟨h1, h2⟩
        simp [h1, h2] at hexact

/-- The zero values of a word, or its other values. -/
theorem restrict?_spec (hx : x.IsWord limit w) (zero : Bool) :
    (x.restrict? limit zero = none → ∀ v ∈ x.values, decide (v = 0) ≠ zero) ∧
      ∀ c exact, x.restrict? limit zero = some (c, exact) →
        IsPart limit w x (fun v => decide (v = 0) = zero) c exact := by
  -- a part that is the element itself is not listed as a change
  have hsame : ∀ {part : Element} {Q : ℤ → Prop} {exact : Bool},
      IsPart limit w x Q (some part) exact →
        IsPart limit w x Q (if part == x then none else some part) exact := by
    intro part Q exact h
    split
    · next heq =>
      have hpart : part = x := by
        obtain ⟨s, rfl, -⟩ := hx
        obtain ⟨q, hq, -⟩ := h.word
        cases hq
        rw [eq_of_same heq]
      subst hpart
      exact ⟨h.word, nofun, h.keeps, h.tight⟩
    · exact h
  cases zero with
  | true =>
    obtain ⟨hnone, hsome⟩ := zeroPart?_spec hx
    simp only [restrict?, if_true, decide_eq_true_eq]
    cases hz : x.zeroPart? with
    | none => exact ⟨fun _ => by simpa using hnone hz, by simp⟩
    | some part =>
      refine ⟨by simp, ?_⟩
      rintro _ _ ⟨⟩
      exact hsame (hsome part hz)
  | false =>
    obtain ⟨hnone, hsome⟩ := nonzeroPart?_spec hx
    simp only [restrict?, Bool.false_eq_true, if_false, decide_eq_false_iff_not]
    cases hz : x.nonzeroPart? limit with
    | none => exact ⟨fun _ => by simpa using hnone hz, by simp⟩
    | some part =>
      refine ⟨by simp, ?_⟩
      rintro _ _ ⟨⟩
      exact hsame (hsome part.1 part.2 hz)

/-- Whether all values of a word are zero, or none is. -/
theorem summary_all_iff (hx : x.IsWord limit w) (zero : Bool) :
    (if zero then x.summary.isZero else x.summary.isNonzero) = true ↔
      ∀ v ∈ x.values, decide (v = 0) = zero := by
  obtain ⟨s, rfl, hs⟩ := hx
  have hsummary : (word w s).summary.IsOf w.view (word w s).values := Summary.isOf_shape hs.proper
  cases zero with
  | true => simpa using hsummary.isZero_iff
  | false => simpa using hsummary.isNonzero_iff

/-- A result that is a bit is either known, or holds both truth values. -/
theorem knownBit?_cases (hz : z.IsWord limit .bit) :
    (z.knownBit? = none ∧ ∀ b : Bool, (if b then 1 else 0 : ℤ) ∈ z.values) ∨
      ∃ truth, z.knownBit? = some truth ∧
        ∀ b : Bool, (if b then 1 else 0 : ℤ) ∈ z.values ↔ b = truth := by
  obtain ⟨s, rfl, hs⟩ := hz
  cases s with
  | constant v =>
    refine .inr ⟨_, rfl, fun b => ?_⟩
    rw [mem_values_word, Shape.contains_constant]
    rcases WordType.contains_view_bit.mp hs.proper with rfl | rfl <;> cases b <;> decide
  | interval r => exact absurd rfl hs.proper.1
  | disjunction vs => exact absurd rfl hs.proper.1
  | top =>
    refine .inl ⟨rfl, fun b => ?_⟩
    rw [mem_values_word, Shape.contains_top, WordType.contains_view_bit]
    cases b <;> simp

end Element

/-! ### Solvers -/

namespace Finding

variable {R : ℤ → ℤ → Prop} {u : WordType}

/-- Operands restricted on their own solve a relation that asks something of each of them. -/
theorem solves_of_parts {Q Q' : ℤ → Prop} {c c' : Option Element} {exact exact' : Bool}
    (h : x.IsPart limit w Q c exact) (h' : y.IsPart limit u Q' c' exact')
    (hR : ∀ a ∈ x.values, ∀ b ∈ y.values, R a b ↔ Q a ∧ Q' b) :
    (⟨c, c', some (exact && exact')⟩ : Finding).Solves limit w (some u) R P x (some y) := by
  refine ⟨h.word, h'.word, fun _ => ⟨h.below, fun q hq => ⟨y, rfl, h'.below q hq⟩⟩,
    fun a ha b hb hab => ?_, fun _ he => ?_⟩
  · obtain ⟨h1, h2⟩ := (hR a ha b hb).mp hab
    exact ⟨by simp, h.keeps a ha h1, h'.keeps b hb h2⟩
  · obtain ⟨he, he'⟩ := Bool.and_eq_true_iff.mp (Option.some.inj he)
    obtain ⟨a₀, ha₀⟩ := h.word.nonempty
    obtain ⟨b₀, hb₀⟩ := h'.word.nonempty
    refine ⟨fun a ha => ⟨h.subset ha, b₀, h'.subset hb₀, ?_⟩,
      fun b hb => ⟨h'.subset hb, a₀, h.subset ha₀, ?_⟩⟩
    · exact (hR a (h.subset ha) b₀ (h'.subset hb₀)).mpr ⟨h.tight he a ha, h'.tight he' b₀ hb₀⟩
    · exact (hR a₀ (h.subset ha₀) b (h'.subset hb)).mpr ⟨h.tight he a₀ ha₀, h'.tight he' b hb⟩

/-- An operand of which nothing is asked. -/
private theorem isPart_all (hx : x.IsWord limit w) : x.IsPart limit w (fun _ => True) none true :=
  ⟨hx, nofun, fun _ h _ => h, fun _ _ _ => trivial⟩

/-- A zero test restricts its operand, once its outcome is known. -/
theorem zeroTest_solves {zeroIsTrue : Bool} (hx : x.IsWord limit w) (hz : z.IsWord limit .bit)
    (hR : ∀ a b, R a b ↔ (if decide (a = 0) == zeroIsTrue then 1 else 0 : ℤ) ∈ z.values) :
    (zeroTest limit zeroIsTrue x z).Solves limit w none R P x none := by
  rw [zeroTest]
  rcases Element.knownBit?_cases hz with ⟨hk, hall⟩ | ⟨truth, hk, hiff⟩
  · rw [hk]
    exact solves_keep hx trivial fun _ _ =>
      ⟨fun a _ => ⟨0, rfl, (hR a 0).mpr (hall _)⟩,
        fun b _ => hx.nonempty.imp fun a ha => ⟨ha, (hR a b).mpr (hall _)⟩⟩
  · rw [hk]
    have hR' : ∀ a b, R a b ↔ decide (a = 0) = (zeroIsTrue == truth) := by
      intro a b
      rw [hR, hiff]
      cases decide (a = 0) <;> cases zeroIsTrue <;> cases truth <;> decide
    obtain ⟨hnone, hsome⟩ := Element.restrict?_spec hx (zeroIsTrue == truth)
    dsimp only
    cases hr : x.restrict? limit (zeroIsTrue == truth) with
    | none =>
      refine solves_of_none rfl hx trivial fun a ha b _ hab => ?_
      exact hnone hr a ha ((hR' a b).mp hab)
    | some part =>
      obtain ⟨c, exact⟩ := part
      have h := hsome c exact hr
      refine ⟨h.word, trivial, fun _ => ⟨h.below, nofun⟩, fun a ha b hb hab => ?_,
        fun _ he => ⟨fun a ha => ?_, fun b hb => ?_⟩⟩
      · exact ⟨by simp, h.keeps a ha ((hR' a b).mp hab), hb⟩
      · exact ⟨h.subset ha, 0, rfl, (hR' a 0).mpr (h.tight (Option.some.inj he) a ha)⟩
      · obtain ⟨a, ha⟩ := h.word.nonempty
        exact ⟨hb, a, h.subset ha, (hR' a b).mpr (h.tight (Option.some.inj he) a ha)⟩

private theorem restrictBoth_solves {zero : Bool} (hx : x.IsWord limit w) (hy : y.IsWord limit u)
    (hR : ∀ a b, R a b ↔ decide (a = 0) = zero ∧ decide (b = 0) = zero) :
    (restrictBoth limit zero x y).Solves limit w (some u) R P x (some y) := by
  obtain ⟨hnone, hsome⟩ := Element.restrict?_spec hx zero
  obtain ⟨hnone', hsome'⟩ := Element.restrict?_spec hy zero
  rw [restrictBoth]
  cases hr : x.restrict? limit zero with
  | none => exact solves_of_none rfl hx hy fun a ha b _ hab => hnone hr a ha ((hR a b).mp hab).1
  | some part =>
    obtain ⟨c, exact⟩ := part
    have h := hsome c exact hr
    dsimp only
    cases hr' : y.restrict? limit zero with
    | none =>
      exact solves_of_none rfl h.word hy fun a _ b hb hab => hnone' hr' b hb ((hR a b).mp hab).2
    | some part' =>
      obtain ⟨c', exact'⟩ := part'
      exact solves_of_parts h (hsome' c' exact' hr') fun a _ b _ => hR a b

private theorem restrictOne_solves {zero : Bool} (hx : x.IsWord limit w) (hy : y.IsWord limit u)
    (hR : ∀ a b, R a b ↔ decide (a = 0) = zero ∨ decide (b = 0) = zero) :
    (restrictOne limit zero x y).Solves limit w (some u) R P x (some y) := by
  have hflip : ∀ e : Element, (if zero then e.summary.isNonzero else e.summary.isZero) =
      if !zero then e.summary.isZero else e.summary.isNonzero := by
    intro e
    cases zero <;> rfl
  have hnever : ∀ {v : ℤ}, decide (v = 0) = !zero → decide (v = 0) ≠ zero := by
    intro v h
    rw [h]
    cases zero <;> decide
  simp only [restrictOne, hflip]
  by_cases halways : ((if zero then x.summary.isZero else x.summary.isNonzero) ||
      if zero then y.summary.isZero else y.summary.isNonzero) = true
  · rw [if_pos halways]
    -- every pair is admitted
    have hall : ∀ a ∈ x.values, ∀ b ∈ y.values, R a b := by
      intro a ha b hb
      rw [Bool.or_eq_true, Element.summary_all_iff hx, Element.summary_all_iff hy] at halways
      exact (hR a b).mpr (halways.imp (fun h => h a ha) fun h => h b hb)
    exact solves_keep hx hy fun _ _ =>
      ⟨fun a ha => hy.nonempty.imp fun b hb => ⟨hb, hall a ha b hb⟩,
        fun b hb => hx.nonempty.imp fun a ha => ⟨ha, hall a ha b hb⟩⟩
  rw [if_neg halways]
  by_cases hfirst : (if !zero then x.summary.isZero else x.summary.isNonzero) = true
  · rw [if_pos hfirst]
    -- the first operand does not help, so it is up to the second one
    have hR' : ∀ a ∈ x.values, ∀ b ∈ y.values, R a b ↔ True ∧ decide (b = 0) = zero := by
      intro a ha b _
      rw [hR, true_and]
      exact or_iff_right (hnever ((Element.summary_all_iff hx _).mp hfirst a ha))
    obtain ⟨hnone, hsome⟩ := Element.restrict?_spec hy zero
    cases hr : y.restrict? limit zero with
    | none =>
      exact solves_of_none rfl hx hy fun a ha b hb hab => hnone hr b hb ((hR' a ha b hb).mp hab).2
    | some part => exact solves_of_parts (isPart_all hx) (hsome part.1 part.2 hr) hR'
  rw [if_neg hfirst]
  by_cases hsecond : (if !zero then y.summary.isZero else y.summary.isNonzero) = true
  · rw [if_pos hsecond]
    have hR' : ∀ a ∈ x.values, ∀ b ∈ y.values, R a b ↔ decide (a = 0) = zero ∧ True := by
      intro a _ b hb
      rw [hR, and_true]
      exact or_iff_left (hnever ((Element.summary_all_iff hy _).mp hsecond b hb))
    obtain ⟨hnone, hsome⟩ := Element.restrict?_spec hx zero
    cases hr : x.restrict? limit zero with
    | none =>
      exact solves_of_none rfl hx hy fun a ha b hb hab => hnone hr a ha ((hR' a ha b hb).mp hab).1
    | some part =>
      have h := solves_of_parts (P := P) (hsome part.1 part.2 hr) (isPart_all hy) hR'
      rwa [Bool.and_true] at h
  · rw [if_neg hsecond]
    exact solves_keep hx hy fun _ h => absurd h Bool.false_ne_true

/-- A connective restricts both operands, or one when the other does not help. -/
theorem connective_solves {c : Connective} (hx : x.IsWord limit w) (hy : y.IsWord limit u)
    (hz : z.IsWord limit .bit)
    (hR : ∀ a b, R a b ↔ (if c.combine (decide (a ≠ 0)) (decide (b ≠ 0)) then 1 else 0 : ℤ) ∈
      z.values) :
    (connective limit c x (some y) z).Solves limit w (some u) R P x (some y) := by
  rcases Element.knownBit?_cases hz with ⟨hk, hall⟩ | ⟨truth, hk, hiff⟩
  · simp only [connective, hk]
    exact solves_keep hx hy fun _ _ =>
      ⟨fun a _ => hy.nonempty.imp fun b hb => ⟨hb, (hR a b).mpr (hall _)⟩,
        fun b _ => hx.nonempty.imp fun a ha => ⟨ha, (hR a b).mpr (hall _)⟩⟩
  · simp only [connective, hk]
    simp only [hiff, ne_eq, decide_not] at hR
    cases c with
    | and =>
      cases truth with
      | true =>
        refine restrictBoth_solves hx hy fun a b => (hR a b).trans ?_
        cases decide (a = 0) <;> cases decide (b = 0) <;> decide
      | false =>
        refine restrictOne_solves hx hy fun a b => (hR a b).trans ?_
        cases decide (a = 0) <;> cases decide (b = 0) <;> decide
    | or =>
      cases truth with
      | true =>
        refine restrictOne_solves hx hy fun a b => (hR a b).trans ?_
        cases decide (a = 0) <;> cases decide (b = 0) <;> decide
      | false =>
        refine restrictBoth_solves hx hy fun a b => (hR a b).trans ?_
        cases decide (a = 0) <;> cases decide (b = 0) <;> decide

end Finding

end ScalarDomain
