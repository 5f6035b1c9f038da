import ScalarDomain.Proofs.Lattice.Laws
import ScalarDomain.Backward.Frame

/-!
# What a solver has to find

A solver of a backward refinement speaks about the pairs of operands that a relation admits. Its
narrowing *keeps* them when no admitted pair lies outside of its ranges, and it is *tight* when, in
case it is called exact, every operand that is left belongs to an admitted pair
(`Narrowing.Keeps`, `Narrowing.IsTight`). The narrowing applied to the operands then *solves* the
relation (`Finding.Solves`): the same two statements about the values of elements. Whatever the
relation, what is left of an operand is below it in the order of words.

The relation is a parameter. A refinement is about the pairs whose execution reaches the result,
but what a solver keeps beyond them is also said in this form.
-/

namespace ScalarDomain

variable {R : ℤ → ℤ → Prop} {X Y : Set ℤ} {P : Prop}

namespace Span

variable {s : Span} {v : ℤ}

/-- A span with one value. -/
theorem value?_eq_some : s.value? = some v ↔ s.range.lo = v ∧ s.range.hi = v := by
  rw [value?]
  change (if s.range.lo = s.range.hi then some s.range.lo else none) = some v ↔ _
  split_ifs with h
  · rw [Option.some.injEq]
    omega
  · simp only [false_iff]
    omega

theorem value?_eq_none : s.value? = none ↔ s.range.lo ≠ s.range.hi := by
  rw [value?]
  change (if s.range.lo = s.range.hi then some s.range.lo else none) = none ↔ _
  split_ifs with h <;> simp [h]

theorem isNatural_iff : s.isNatural = true ↔ 0 ≤ s.range.lo := decide_eq_true_iff

/-- The value of a span with one value. -/
theorem eq_of_value?_eq_some {a : ℤ} (h : s.value? = some v) (ha : a ∈ s.range) : a = v := by
  obtain ⟨h1, h2⟩ := value?_eq_some.mp h
  obtain ⟨h3, h4⟩ := ha
  omega

end Span

namespace Narrowing

/-- No admitted pair is left out. -/
def Keeps (R : ℤ → ℤ → Prop) (X Y : Set ℤ) : Narrowing → Prop
  | impossible => ∀ a ∈ X, ∀ b ∈ Y, ¬R a b
  | within first second _ =>
    ∀ a ∈ X, ∀ b ∈ Y, R a b → (∀ r ∈ first, a ∈ r) ∧ ∀ s ∈ second, b ∈ s

/-- In an exact narrowing, operands that are left belong to admitted pairs. -/
def IsTight (R : ℤ → ℤ → Prop) (X Y : Set ℤ) : Narrowing → Prop
  | impossible => True
  | within first second exact =>
    exact = true → ∀ a ∈ X, (∀ r ∈ first, a ∈ r) → ∀ b ∈ Y, (∀ s ∈ second, b ∈ s) →
      (∃ b' ∈ Y, R a b') ∧ ∃ a' ∈ X, R a' b

/-- What a solver says of its operands is kept and tight. -/
structure Inverts (R : ℤ → ℤ → Prop) (X Y : Set ℤ) (n : Narrowing) : Prop where
  /-- No admitted pair is left out. -/
  keeps : n.Keeps R X Y
  /-- Exact ranges hold nothing else. -/
  tight : n.IsTight R X Y

/-- Nothing is ruled out. -/
theorem keeps_unknown : unknown.Keeps R X Y := by
  rintro a - b - -
  exact ⟨by simp, by simp⟩

/-- A narrowing that is not called exact may leave anything. -/
theorem isTight_of_not_exact {first second : Option Range} :
    (within first second false).IsTight R X Y :=
  fun h => absurd h Bool.false_ne_true

theorem keeps_first {r : Range} {exact : Bool} (h : ∀ a ∈ X, ∀ b ∈ Y, R a b → a ∈ r) :
    (first r exact).Keeps R X Y := by
  intro a ha b hb hR
  exact ⟨by simpa using h a ha b hb hR, by simp⟩

/-- A range whose values all go with every second operand. -/
theorem isTight_first {r : Range} {exact : Bool}
    (h : exact = true → ∀ a ∈ X, a ∈ r → ∀ b ∈ Y, R a b) : (first r exact).IsTight R X Y := by
  intro he a ha har b hb _
  have hR := h he a ha (har r rfl) b hb
  exact ⟨⟨b, hb, hR⟩, a, ha, hR⟩

theorem keeps_both {r s : Range} {exact : Bool}
    (h : ∀ a ∈ X, ∀ b ∈ Y, R a b → a ∈ r ∧ b ∈ s) : (both r s exact).Keeps R X Y := by
  intro a ha b hb hR
  simpa using h a ha b hb hR

theorem isTight_both {r s : Range} {exact : Bool}
    (h : exact = true → ∀ a ∈ X, a ∈ r → ∀ b ∈ Y, b ∈ s → (∃ b' ∈ Y, R a b') ∧ ∃ a' ∈ X, R a' b) :
    (both r s exact).IsTight R X Y :=
  fun he a ha har b hb hbs => h he a ha (har r rfl) b hb (hbs s rfl)

/-- Ranges that may be missing: where one of them is, no pair is admitted. -/
theorem keeps_both? {r s : Option Range} {exact : Bool}
    (h : ∀ a ∈ X, ∀ b ∈ Y, R a b → (∃ q ∈ r, a ∈ q) ∧ ∃ q ∈ s, b ∈ q) :
    (both? r s exact).Keeps R X Y := by
  cases r with
  | none =>
    intro a ha b hb hR
    obtain ⟨⟨q, hq, -⟩, -⟩ := h a ha b hb hR
    cases hq
  | some r =>
    cases s with
    | none =>
      intro a ha b hb hR
      obtain ⟨-, q, hq, -⟩ := h a ha b hb hR
      cases hq
    | some s =>
      refine keeps_both fun a ha b hb hR => ?_
      simpa using h a ha b hb hR

/-- Where both ranges are there, they hold operands of admitted pairs only. -/
theorem isTight_both? {r s : Option Range} {exact : Bool}
    (h : exact = true → ∀ q ∈ r, ∀ q' ∈ s, ∀ a ∈ X, a ∈ q → ∀ b ∈ Y, b ∈ q' →
      (∃ b' ∈ Y, R a b') ∧ ∃ a' ∈ X, R a' b) : (both? r s exact).IsTight R X Y := by
  cases r with
  | none => trivial
  | some r =>
    cases s with
    | none => trivial
    | some s => exact isTight_both fun he => h he r rfl s rfl

/-- Every admitted first operand lies in one of the pieces. -/
theorem keeps_ofPieces {pieces : List Range} {exact : Bool}
    (h : ∀ a ∈ X, ∀ b ∈ Y, R a b → ∃ p ∈ pieces, a ∈ p) :
    (ofPieces pieces exact).Keeps R X Y := by
  rw [ofPieces]
  split
  · next r hr =>
    refine keeps_first fun a ha b hb hR => ?_
    obtain ⟨p, hp, hap⟩ := h a ha b hb hR
    exact Bounds.mem_of_hull?_eq_some hr hp hap
  · next hn =>
    intro a ha b hb hR
    obtain ⟨p, hp, -⟩ := h a ha b hb hR
    rw [Bounds.hull?_eq_none_iff.mp hn] at hp
    cases hp

/-- A single piece is its own hull. -/
private theorem hull?_of_length_eq_one {rs : List Range} {r : Range} (hr : Bounds.hull? rs = some r)
    (h : rs.length = 1) : r ∈ rs := by
  obtain ⟨q, rfl⟩ := List.length_eq_one_iff.mp h
  cases hr
  simp

/-- All values of a piece go with every second operand. -/
theorem isTight_ofPieces {pieces : List Range} {exact : Bool}
    (h : exact = true → ∀ p ∈ pieces, ∀ a ∈ X, a ∈ p → ∀ b ∈ Y, R a b) :
    (ofPieces pieces exact).IsTight R X Y := by
  rw [ofPieces]
  split
  · next r hr =>
    refine isTight_first fun he => ?_
    obtain ⟨he, hlen⟩ := Bool.and_eq_true_iff.mp he
    exact h he r (hull?_of_length_eq_one hr (beq_iff_eq.mp hlen))
  · trivial

/-- Every admitted pair lies in one of the paired cases. -/
theorem keeps_ofPairs {pairs : List (Range × Range)} {exact : Bool}
    (h : ∀ a ∈ X, ∀ b ∈ Y, R a b → ∃ p ∈ pairs, a ∈ p.1 ∧ b ∈ p.2) :
    (ofPairs pairs exact).Keeps R X Y := by
  refine keeps_both? fun a ha b hb hR => ?_
  obtain ⟨p, hp, ha1, hb2⟩ := h a ha b hb hR
  have h1 : p.1 ∈ pairs.map (·.1) := List.mem_map_of_mem hp
  have h2 : p.2 ∈ pairs.map (·.2) := List.mem_map_of_mem hp
  obtain ⟨q1, hq1⟩ := Bounds.exists_hull? h1
  obtain ⟨q2, hq2⟩ := Bounds.exists_hull? h2
  exact ⟨⟨q1, hq1, Bounds.mem_of_hull?_eq_some hq1 h1 ha1⟩,
    q2, hq2, Bounds.mem_of_hull?_eq_some hq2 h2 hb2⟩

/-- Pairs of ranges that are called exact hold operands of admitted pairs only. -/
theorem isTight_ofPairs {pairs : List (Range × Range)} {exact : Bool}
    (h : exact = true → ∀ p ∈ pairs, ∀ a ∈ X, a ∈ p.1 → ∀ b ∈ Y, b ∈ p.2 →
      (∃ b' ∈ Y, R a b') ∧ ∃ a' ∈ X, R a' b) : (ofPairs pairs exact).IsTight R X Y := by
  refine isTight_both? fun he q1 hq1 q2 hq2 => ?_
  obtain ⟨hexact, hlen⟩ := Bool.and_eq_true_iff.mp he
  obtain ⟨p, rfl⟩ := List.length_eq_one_iff.mp (beq_iff_eq.mp hlen)
  cases hq1
  cases hq2
  exact h hexact p (List.mem_singleton_self p)

theorem Keeps.swap {n : Narrowing} (h : n.Keeps R X Y) : n.swap.Keeps (flip R) Y X := by
  cases n with
  | impossible => exact fun b hb a ha => h a ha b hb
  | within first second exact => exact fun b hb a ha hR => (h a ha b hb hR).symm

theorem IsTight.swap {n : Narrowing} (h : n.IsTight R X Y) : n.swap.IsTight (flip R) Y X := by
  cases n with
  | impossible => trivial
  | within first second exact =>
    exact fun he b hb hbs a ha har => (h he a ha har b hb hbs).symm

/-- Fewer pairs are kept all the more. -/
theorem Keeps.mono {R' : ℤ → ℤ → Prop} {n : Narrowing} (h : n.Keeps R X Y)
    (hR : ∀ a b, R' a b → R a b) : n.Keeps R' X Y := by
  cases n with
  | impossible => exact fun a ha b hb h' => h a ha b hb (hR a b h')
  | within first second exact => exact fun a ha b hb h' => h a ha b hb (hR a b h')

end Narrowing

/-! ### Findings -/

section

variable {limit : ℕ} {w : WordType} {arg : Option WordType} {x : Element} {y : Option Element}
  {f : Finding}

namespace Finding

/-- What is left of the first operand. -/
def firstOf (f : Finding) (x : Element) : Element :=
  f.first.getD x

/-- What is left of the second operand. -/
def secondOf (f : Finding) (y : Option Element) : Option Element :=
  y.map f.second.getD

/-- The finding with the operands swapped. -/
def swap (f : Finding) : Finding :=
  ⟨f.second, f.first, f.exactness⟩

/-- A finding about the pairs of values that a relation admits: it keeps all of them, and if it is
exact it keeps nothing else, provided that `P` holds. -/
structure Solves (limit : ℕ) (w : WordType) (arg : Option WordType) (R : ℤ → ℤ → Prop) (P : Prop)
    (x : Element) (y : Option Element) (f : Finding) : Prop where
  /-- What is left of the first operand is a well-formed word. -/
  first : (f.firstOf x).IsWord limit w
  /-- So is what is left of the second one. -/
  second : IsOperand limit arg (f.secondOf y)
  /-- Operands that changed are below what they were. -/
  below : f.exactness ≠ none →
    (∀ q ∈ f.first, q.Below x) ∧ ∀ q ∈ f.second, ∃ o ∈ y, q.Below o
  /-- Admitted pairs survive. -/
  sound : ∀ a ∈ x.values, ∀ b ∈ operandValues y, R a b →
    f.exactness ≠ none ∧ a ∈ (f.firstOf x).values ∧ b ∈ operandValues (f.secondOf y)
  /-- In an exact finding every value that is left belongs to an admitted pair. -/
  tight : P → f.exactness = some true →
    (∀ a ∈ (f.firstOf x).values, a ∈ x.values ∧ ∃ b ∈ operandValues y, R a b) ∧
      ∀ b ∈ operandValues (f.secondOf y), b ∈ operandValues y ∧ ∃ a ∈ x.values, R a b

/-- A finding about the swapped operands. -/
theorem Solves.swap {u : WordType} {o : Element}
    (h : f.Solves limit w (some u) R P x (some o)) :
    f.swap.Solves limit u (some w) (flip R) P o (some x) where
  first := h.second
  second := h.first
  below hlive := by simpa [Finding.swap] using (h.below hlive).symm
  sound b hb a ha hR := by
    obtain ⟨h1, h2, h3⟩ := h.sound a ha b hb hR
    exact ⟨h1, h3, h2⟩
  tight hP he := (h.tight hP he).symm

/-- What is left of the first operand is below it. -/
theorem Solves.firstOf_below (h : f.Solves limit w arg R P x y) (hlive : f.exactness ≠ none)
    (hx : x.IsWord limit w) : (f.firstOf x).Below x := by
  have hbelow := (h.below hlive).1
  rw [firstOf]
  cases hf : f.first with
  | none => exact hx.below_self
  | some q => exact hbelow q hf

/-- Operands that are kept solve a relation that admits all of them, and any relation without an
exact verdict. -/
theorem solves_keep {exact : Bool} (hx : x.IsWord limit w) (hy : IsOperand limit arg y)
    (h : P → exact = true → (∀ a ∈ x.values, ∃ b ∈ operandValues y, R a b) ∧
      ∀ b ∈ operandValues y, ∃ a ∈ x.values, R a b) :
    (keep exact).Solves limit w arg R P x y := by
  have hsecond : (keep exact).secondOf y = y := by
    rw [secondOf, keep]
    cases y <;> rfl
  refine ⟨hx, hsecond.symm ▸ hy, fun _ => ⟨nofun, nofun⟩, ?_, ?_⟩
  · intro a ha b hb _
    rw [hsecond]
    exact ⟨by simp [keep], ha, hb⟩
  · intro hP he
    obtain ⟨h1, h2⟩ := h hP (by simpa [keep] using he)
    rw [hsecond]
    exact ⟨fun a ha => ⟨ha, h1 a ha⟩, fun b hb => ⟨hb, h2 b hb⟩⟩

/-- No pair is admitted. -/
theorem solves_of_none (hf : f.exactness = none) (hx : (f.firstOf x).IsWord limit w)
    (hy : IsOperand limit arg (f.secondOf y))
    (h : ∀ a ∈ x.values, ∀ b ∈ operandValues y, ¬R a b) : f.Solves limit w arg R P x y where
  first := hx
  second := hy
  below hlive := absurd hf hlive
  sound a ha b hb hR := absurd hR (h a ha b hb)
  tight _ he := by simp [hf] at he

end Finding

namespace Element

/-- What is left of an element after a refinement, if anything: exactly its values in a set, in a
word below it. -/
def IsCut (limit : ℕ) (w : WordType) (x : Element) (Q : Set ℤ) : Option (Option Element) → Prop
  | none => ∀ v ∈ x.values, v ∉ Q
  | some c => ((c.getD x).IsWord limit w ∧ ∀ q ∈ c, q.Below x) ∧
      ∀ v, v ∈ (c.getD x).values ↔ v ∈ x.values ∧ v ∈ Q

/-- A well-formed word has values. -/
theorem IsWord.nonempty (h : x.IsWord limit w) : x.values.Nonempty := by
  obtain ⟨s, rfl, hs⟩ := h
  exact ⟨_, hs.proper.contains_lo⟩

/-- The meet with a bound of the same type. -/
theorem refineWith_spec {bound : Element} (hx : x.IsWord limit w) (hb : bound.IsWord limit w) :
    ∃ o, x.refineWith limit bound = .ok o ∧ IsCut limit w x bound.values o := by
  have hbelow := fun m => meet_below (m := m) hx hb
  obtain ⟨s, rfl, hs⟩ := hx
  obtain ⟨s', rfl, hs'⟩ := hb
  have hmeet : (word w s).meet limit (word w s') = .ok ((s.meet w limit s').map (.word w)) :=
    if_pos rfl
  rw [refineWith, hmeet]
  cases hm : s.meet w limit s' with
  | none =>
    refine ⟨none, rfl, fun v hv => ?_⟩
    exact Shape.meet_eq_none hs hs' hm hv
  | some q =>
    obtain ⟨hq, hmem⟩ := Shape.meet_eq_some hs hs' hm
    refine ⟨_, rfl, ?_⟩
    split
    · next hsame =>
      cases eq_of_same hsame
      exact ⟨⟨isWord_word hs, nofun⟩, hmem⟩
    · refine ⟨⟨isWord_word hq, ?_⟩, hmem⟩
      rintro _ ⟨⟩
      exact hbelow _ (by rw [hmeet, hm]; rfl)

/-- What is left within a range. -/
theorem narrow_spec (hx : x.IsWord limit w) (r : Range) :
    ∃ o, x.narrow limit r = .ok o ∧ IsCut limit w x r.toSet o := by
  obtain ⟨s, rfl, hs⟩ := hx
  rw [narrow]
  -- the values of the word are values of its type
  have hmem : ∀ v, s.contains w.view v = true →
      (v ∈ r ↔ max r.lo w.view.minValue ≤ v ∧ v ≤ min r.hi w.view.maxValue) := by
    intro v hv
    have := IntType.contains_iff.mp (hs.proper.contains hv)
    rw [Bounds.mem_def]
    omega
  split
  · next hempty =>
    refine ⟨none, rfl, fun v hv hr => ?_⟩
    have := (hmem v hv).mp hr
    omega
  · next hle =>
    have hr : (⟨max r.lo w.view.minValue, min r.hi w.view.maxValue⟩ : Range).Proper w.view :=
      .of_bounds (le_max_right _ _) (not_lt.mp hle) (min_le_right _ _)
    have hbox : (w.rangeShape ⟨max r.lo w.view.minValue, min r.hi w.view.maxValue⟩).WellFormed
        limit w := WordType.wellFormed_rangeShape hr
    obtain ⟨o, ho, hcut⟩ := refineWith_spec (isWord_word hs) (isWord_word hbox)
    refine ⟨o, ho, ?_⟩
    have hbound : ∀ v ∈ (word w s).values, (v ∈ (word w (w.rangeShape
        ⟨max r.lo w.view.minValue, min r.hi w.view.maxValue⟩)).values ↔ v ∈ r.toSet) := by
      intro v hv
      rw [mem_values_word, WordType.contains_rangeShape hr, Bounds.mem_toSet, hmem v hv]
      exact Bounds.mem_mk
    cases o with
    | none => exact fun v hv hvr => hcut v hv ((hbound v hv).mpr hvr)
    | some c =>
      refine ⟨hcut.1, fun v => (hcut.2 v).trans (and_congr_right fun hv => ?_)⟩
      exact hbound v hv

/-- What is left within a range, if there is one. -/
theorem narrowIf_spec (hx : x.IsWord limit w) (r : Option Range) :
    ∃ o, narrowIf limit (some x) r = .ok o ∧ IsCut limit w x {v | ∀ q ∈ r, v ∈ q} o := by
  cases r with
  | none => exact ⟨some none, rfl, ⟨hx, nofun⟩, by simp⟩
  | some r =>
    have hset : {v | ∀ q ∈ some r, v ∈ q} = r.toSet := by
      ext v
      simp
    rw [hset]
    exact narrow_spec hx r

/-- What is left of an optional operand within a range, if there is one. -/
theorem narrowIf_operand (hy : IsOperand limit arg y) {s : Option Range}
    (hs : y = none → s = none) :
    ∃ o, narrowIf limit y s = .ok o ∧
      (o = none → ∀ b ∈ operandValues y, ¬∀ q ∈ s, b ∈ q) ∧
      IsOperand limit arg (y.map (o.getD none).getD) ∧
      ∀ c, o = some c → (∀ q ∈ c, ∃ e ∈ y, q.Below e) ∧
        ∀ b, b ∈ operandValues (y.map c.getD) ↔ b ∈ operandValues y ∧ ∀ q ∈ s, b ∈ q := by
  cases arg with
  | none =>
    cases y with
    | some y => exact hy.elim
    | none =>
      cases hs rfl
      exact ⟨some none, rfl, by simp, trivial, by simp⟩
  | some u =>
    cases y with
    | none => exact hy.elim
    | some y =>
      obtain ⟨o, ho, hcut⟩ := narrowIf_spec hy s
      refine ⟨o, ho, ?_, ?_, ?_⟩
      · rintro rfl b hb
        exact hcut b hb
      · cases o with
        | none => exact hy
        | some c => exact hcut.1.1
      · rintro c rfl
        exact ⟨fun q hq => ⟨y, rfl, hcut.1.2 q hq⟩, hcut.2⟩

end Element

theorem IsOperand.nonempty (h : IsOperand limit arg y) : (operandValues y).Nonempty := by
  cases arg with
  | none =>
    cases y with
    | none => exact ⟨0, rfl⟩
    | some y => exact h.elim
  | some u =>
    cases y with
    | none => exact h.elim
    | some y => exact Element.IsWord.nonempty h

namespace Narrowing

/-- The range for the second operand. -/
def secondRange? : Narrowing → Option Range
  | impossible => none
  | within _ s _ => s

@[simp] theorem secondRange?_ofPieces {pieces : List Range} {exact : Bool} :
    (ofPieces pieces exact).secondRange? = none := by
  rw [ofPieces]
  split <;> rfl

/-- Ranges applied to the operands: either an operand has no value in its range, or what is left of
each operand are its values in the range. -/
theorem finding_cuts (first second : Option Range) (exact convex : Bool) (hx : x.IsWord limit w)
    (hy : IsOperand limit arg y) (hsecond : y = none → second = none) :
    ∃ f, (within first second exact).finding limit convex x y = .ok f ∧
      (f.firstOf x).IsWord limit w ∧ IsOperand limit arg (f.secondOf y) ∧
      (f.exactness = none ∧ (∀ a ∈ x.values, ∀ b ∈ operandValues y,
          ¬((∀ r ∈ first, a ∈ r) ∧ ∀ s ∈ second, b ∈ s)) ∨
        f.exactness = some (exact && convex) ∧
        ((∀ q ∈ f.first, q.Below x) ∧ ∀ q ∈ f.second, ∃ o ∈ y, q.Below o) ∧
        (∀ a, a ∈ (f.firstOf x).values ↔ a ∈ x.values ∧ ∀ r ∈ first, a ∈ r) ∧
        ∀ b, b ∈ operandValues (f.secondOf y) ↔ b ∈ operandValues y ∧ ∀ s ∈ second, b ∈ s) := by
  obtain ⟨o, ho, hcut⟩ := Element.narrowIf_spec hx first
  obtain ⟨o', ho', hdead, hword, hcut'⟩ := Element.narrowIf_operand (s := second) hy hsecond
  rw [finding, ho, ho']
  cases o with
  | none => exact ⟨_, rfl, hx, hword, .inl ⟨rfl, fun a ha b _ h => hcut a ha h.1⟩⟩
  | some c =>
    refine ⟨_, rfl, hcut.1.1, hword, ?_⟩
    cases o' with
    | none => exact .inl ⟨rfl, fun a _ b hb h => hdead rfl b hb h.2⟩
    | some c' =>
      obtain ⟨hbelow', hcut'⟩ := hcut' c' rfl
      exact .inr ⟨rfl, ⟨hcut.1.2, hbelow'⟩, hcut.2, hcut'⟩

/-- A narrowing that keeps the admitted pairs, applied to the operands. An exact one only counts
when the result has no gaps. -/
theorem finding_solves {n : Narrowing} {convex : Bool} (hx : x.IsWord limit w)
    (hy : IsOperand limit arg y) (hn : y = none → n.secondRange? = none)
    (hkeeps : n.Keeps R x.values (operandValues y))
    (htight : P → convex = true → n.IsTight R x.values (operandValues y)) :
    ∃ f, n.finding limit convex x y = .ok f ∧ f.Solves limit w arg R P x y := by
  cases n with
  | impossible =>
    refine ⟨.dead, rfl, Finding.solves_of_none rfl hx ?_ hkeeps⟩
    cases y <;> exact hy
  | within r s exact =>
    obtain ⟨f, hf, hfirst, hsecond, ⟨hnone, hdead⟩ | ⟨hsome, hbelow, h1, h2⟩⟩ :=
      finding_cuts r s exact convex hx hy hn
    · refine ⟨f, hf, Finding.solves_of_none hnone hfirst hsecond fun a ha b hb hR => ?_⟩
      exact hdead a ha b hb (hkeeps a ha b hb hR)
    · refine ⟨f, hf, hfirst, hsecond, fun _ => hbelow, fun a ha b hb hR => ?_, fun hP he => ?_⟩
      · obtain ⟨ha', hb'⟩ := hkeeps a ha b hb hR
        exact ⟨by simp [hsome], (h1 a).mpr ⟨ha, ha'⟩, (h2 b).mpr ⟨hb, hb'⟩⟩
      · obtain ⟨hexact, hconvex⟩ := Bool.and_eq_true_iff.mp (Option.some.inj (hsome.symm.trans he))
        have ht := htight hP hconvex hexact
        obtain ⟨a, ha⟩ := hfirst.nonempty
        obtain ⟨b, hb⟩ := IsOperand.nonempty hsecond
        have ha := (h1 a).mp ha
        have hb := (h2 b).mp hb
        refine ⟨fun v hv => ?_, fun v hv => ?_⟩
        · have hv := (h1 v).mp hv
          exact ⟨hv.1, (ht v hv.1 hv.2 b hb.1 hb.2).1⟩
        · have hv := (h2 v).mp hv
          exact ⟨hv.1, (ht a ha.1 ha.2 v hv.1 hv.2).2⟩

end Narrowing

end

end ScalarDomain
