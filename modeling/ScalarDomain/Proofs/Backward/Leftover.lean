import ScalarDomain.Proofs.Backward.Pruning

/-!
# What two words leave of each other

Two words of a binary operation, one of them in charge, leave a remnant that does not depend on
which one it is (`Operation.leftover`). For operations that are solved on ranges it is what the
narrowing leaves. For a connective it is built from the zero and the nonzero values of the operands
(`WordShape.part`): both operands are cut, or one of them is while the other one stays. Joined over
the values of a list, either operand of a connective gives what the list gives as a whole.

An integer top and the interval of all values leave the same values, and they stay
indistinguishable when remnants are joined (`Remnant.Alike`).
-/

namespace ScalarDomain

variable {limit : ℕ} {w u out : WordType} {arg : Option WordType}

/-! ### Joins over a list -/

section Joins

variable {α β γ : Type} [SemilatticeSup γ] [OrderBot γ]

/-- The join of a family over the members of a list. -/
def joined (f : α → γ) (l : List α) : γ :=
  (l.map f).foldl (· ⊔ ·) ⊥

theorem joined_le_iff {f : α → γ} {l : List α} {c : γ} : joined f l ≤ c ↔ ∀ i ∈ l, f i ≤ c := by
  simp [joined, WordShape.foldl_sup_le]

theorem le_joined {f : α → γ} {l : List α} {i : α} (h : i ∈ l) : f i ≤ joined f l :=
  joined_le_iff.mp le_rfl i h

@[simp] theorem joined_singleton (f : α → γ) (i : α) : joined f [i] = f i := by
  simp [joined]

theorem joined_congr {f g : α → γ} {l : List α} (h : ∀ i ∈ l, f i = g i) :
    joined f l = joined g l :=
  congrArg (List.foldl (· ⊔ ·) ⊥) (List.map_congr_left h)

theorem joined_map (f : β → γ) (g : α → β) (l : List α) :
    joined f (l.map g) = joined (fun i => f (g i)) l := by
  simp [joined, Function.comp_def]

theorem joined_sup (f g : α → γ) (l : List α) :
    joined (fun i => f i ⊔ g i) l = joined f l ⊔ joined g l := by
  refine eq_of_forall_ge_iff fun c => ?_
  simp only [joined_le_iff, sup_le_iff]
  grind

/-- A map that keeps joins. -/
theorem map_joined {δ : Type} [SemilatticeSup δ] [OrderBot δ] (g : γ → δ) (hbot : g ⊥ = ⊥)
    (hsup : ∀ p q, g (p ⊔ q) = g p ⊔ g q) (f : α → γ) (l : List α) :
    g (joined f l) = joined (fun i => g (f i)) l := by
  rw [joined, joined, List.foldl_map, List.foldl_map, ← hbot]
  exact (List.foldl_hom g fun p i => (hsup p (f i)).symm).symm

/-- Joins over two lists may be taken in either order. -/
theorem joined_comm (f : α → β → γ) (l : List α) (m : List β) :
    joined (fun i => joined (f i) m) l = joined (fun j => joined (fun i => f i j) l) m := by
  refine eq_of_forall_ge_iff fun c => ?_
  simp only [joined_le_iff]
  grind

end Joins

/-! ### Values of words -/

namespace WordShape

variable {a b p : WordShape limit w} {v : ℤ}

theorem isWord (a : WordShape limit w) : a.toElement.IsWord limit w :=
  Element.isWord_word a.wellFormed

/-- The word of one value. -/
def single (limit : ℕ) (w : WordType) (v : ℤ) : WordShape limit w where
  shape := .constant (w.view.wrap v)
  wellFormed := Shape.wellFormed_constant (w.view.contains_wrap v)

theorem single_shape (h : w.view.contains v = true) : (single limit w v).shape = .constant v :=
  congrArg Shape.constant (IntType.wrap_eq_self h)

theorem single_toElement (h : w.view.contains v = true) :
    (single limit w v).toElement = .wordConstant w v := by
  rw [Element.wordConstant_eq h, toElement, single_shape h]

/-- A word holds values of its type only. -/
theorem contains_of_mem (h : v ∈ a.toElement.values) : w.view.contains v = true :=
  a.wellFormed.proper.contains h

/-- A value as a word is below the words that have it. -/
theorem single_le_iff (h : w.view.contains v = true) :
    single limit w v ≤ a ↔ v ∈ a.toElement.values := by
  constructor
  · intro hle
    exact Shape.Below.subset hle (by rw [single_shape h, Shape.mem_toSet, Shape.contains_constant])
  · intro hmem
    refine Shape.below_of_isEnumerated (fun i hi => ?_)
      (single_shape h ▸ Shape.isEnumerated_constant)
    rw [single_shape h, Shape.mem_toSet, Shape.contains_constant] at hi
    exact hi ▸ hmem

/-- A word all of whose values are the same. -/
theorem eq_single (h : ∀ i ∈ a.toElement.values, i = v) : a = single limit w v := by
  obtain ⟨i, hi⟩ := a.isWord.nonempty
  obtain rfl := h i hi
  refine WordShape.ext ?_
  rw [single_shape (contains_of_mem hi)]
  refine Shape.eq_constant_of_subset a.wellFormed fun j hj => ?_
  exact Shape.contains_constant.mpr (h j hj)

/-- Listed values are below a word that has all of them. -/
theorem le_of_isEnumerated (ha : a.shape.IsEnumerated)
    (h : ∀ v ∈ a.toElement.values, single limit w v ≤ b) : a ≤ b := by
  refine Shape.below_of_isEnumerated (fun v hv => ?_) ha
  exact (single_le_iff (contains_of_mem hv)).mp (h v hv)

/-- The values of a list, and any other word itself. -/
def pieces (a : WordShape limit w) : List (WordShape limit w) :=
  match a.shape with
  | .disjunction vs => vs.map (single limit w)
  | _ => [a]

theorem pieces_of_not_isListed (h : ¬a.toElement.IsListed) : a.pieces = [a] := by
  rw [pieces]
  split
  · next vs hs => exact absurd (show a.shape.precision = _ from hs ▸ rfl) h
  · rfl

theorem exists_list (h : a.toElement.IsListed) : ∃ vs, a.shape = .disjunction vs := by
  cases hs : a.shape with
  | disjunction vs => exact ⟨vs, rfl⟩
  | _ =>
    have h : a.shape.precision = .disjunction := h
    rw [hs] at h
    cases h

/-- A piece is not split any further. -/
theorem pieces_of_mem (h : p ∈ a.pieces) : p.pieces = [p] := by
  refine pieces_of_not_isListed fun hp => ?_
  by_cases ha : a.toElement.IsListed
  · obtain ⟨vs, hvs⟩ := exists_list ha
    rw [pieces, hvs] at h
    obtain ⟨v, -, rfl⟩ := List.mem_map.mp h
    cases hp
  · rw [pieces_of_not_isListed ha, List.mem_singleton] at h
    exact ha (h ▸ hp)

theorem pieces_of_shape_eq {vs : List ℤ} (h : a.shape = .disjunction vs) :
    a.pieces = vs.map (single limit w) := by
  rw [pieces, h]

theorem mem_values_iff_mem {vs : List ℤ} (h : a.shape = .disjunction vs) :
    v ∈ a.toElement.values ↔ v ∈ vs := by
  rw [toElement, h, Element.mem_values_word, Shape.contains_disjunction]

/-- A word is the join of its pieces. -/
theorem coe_eq_joined (a : WordShape limit w) : WithBot.some a = joined WithBot.some a.pieces := by
  by_cases hlist : a.toElement.IsListed
  swap
  · rw [pieces_of_not_isListed hlist, joined_singleton]
  obtain ⟨vs, hvs⟩ := exists_list hlist
  rw [pieces_of_shape_eq hvs, joined_map]
  have hle : ∀ v ∈ a.toElement.values,
      WithBot.some (single limit w v) ≤ joined (fun v => WithBot.some (single limit w v)) vs :=
    fun v hv => le_joined (f := fun v => WithBot.some (single limit w v))
      ((mem_values_iff_mem hvs).mp hv)
  refine le_antisymm ?_ (joined_le_iff.mpr fun v hv => WithBot.coe_le_coe.mpr ?_)
  · obtain ⟨v, hv⟩ := a.isWord.nonempty
    obtain ⟨j, hj, -⟩ := WithBot.coe_le_iff.mp (hle v hv)
    rw [hj, WithBot.coe_le_coe]
    exact le_of_isEnumerated (hvs ▸ Shape.isEnumerated_disjunction) fun v hv =>
      WithBot.coe_le_coe.mp (hj ▸ hle v hv)
  · have hmem := (mem_values_iff_mem hvs).mpr hv
    exact (single_le_iff (contains_of_mem hmem)).mpr hmem

/-! ### Zero and nonzero values -/

/-- The word that an element is, if it is one. -/
noncomputable def ofElement (e : Element) : WithBot (WordShape limit w) :=
  (Function.partialInv toElement e).elim ⊥ WithBot.some

/-- The element of a word gives the word back. -/
theorem ofElement_toElement (a : WordShape limit w) : ofElement a.toElement = WithBot.some a := by
  rw [ofElement, Function.partialInv_left toElement_injective]
  rfl

/-- The zero values of a word, or its other values, as far as a word can tell; the bottom if there
are none. -/
noncomputable def part (zero : Bool) (a : WordShape limit w) : WithBot (WordShape limit w) :=
  match a.toElement.restrict? limit zero with
  | none => ⊥
  | some (c, _) => ofElement (c.getD a.toElement)

/-- The restriction of a word either fails, with an empty part, or gives the part. -/
theorem restrict?_cases (zero : Bool) (a : WordShape limit w) :
    (a.toElement.restrict? limit zero = none ∧ a.part zero = ⊥) ∨
      ∃ c exact, ∃ p : WordShape limit w, a.toElement.restrict? limit zero = some (c, exact) ∧
        c.getD a.toElement = p.toElement ∧ a.part zero = p ∧
        a.toElement.IsPart limit w (fun v => decide (v = 0) = zero) c exact := by
  rw [part]
  cases h : a.toElement.restrict? limit zero with
  | none => exact .inl ⟨rfl, rfl⟩
  | some q =>
    obtain ⟨c, exact⟩ := q
    have hpart := (Element.restrict?_spec a.isWord zero).2 c exact h
    obtain ⟨s, hs, hword⟩ := hpart.word
    have hp : c.getD a.toElement = (⟨s, hword⟩ : WordShape limit w).toElement := hs
    refine .inr ⟨c, exact, ⟨s, hword⟩, rfl, hp, ?_, hpart⟩
    dsimp only
    rw [hp, ofElement_toElement]

/-- The part of a word is below it. -/
theorem part_le (zero : Bool) (a : WordShape limit w) : a.part zero ≤ a := by
  rcases a.restrict?_cases zero with ⟨-, h⟩ | ⟨c, exact, p, -, hp, h, hpart⟩ <;> rw [h]
  · exact bot_le
  · rw [WithBot.coe_le_coe]
    cases c with
    | none =>
      rw [toElement_injective hp]
    | some q =>
      have hbelow := hpart.below q rfl
      cases (show q = p.toElement from hp)
      cases hbelow with
      | word h => exact h

/-- Values of the kind stay. -/
theorem exists_part (zero : Bool) (hv : v ∈ a.toElement.values) (h : decide (v = 0) = zero) :
    ∃ p : WordShape limit w, a.part zero = p ∧ v ∈ p.toElement.values := by
  rcases a.restrict?_cases zero with ⟨hnone, -⟩ | ⟨c, exact, p, -, hp, hpart, hspec⟩
  · exact absurd h
      ((Element.restrict?_spec a.isWord zero).1 hnone v hv)
  · exact ⟨p, hpart, hp ▸ hspec.keeps v hv h⟩

/-- No value is of the kind. -/
theorem part_eq_bot {zero : Bool} (h : ∀ v ∈ a.toElement.values, decide (v = 0) ≠ zero) :
    a.part zero = ⊥ := by
  have hrestrict : a.toElement.restrict? limit zero = none := by
    cases zero with
    | true =>
      have hzero : a.shape.contains w.view 0 = false := by
        by_contra hne
        exact h 0 ((Bool.not_eq_false _).mp hne) (by simp)
      simp [Element.restrict?, Element.zeroPart?, toElement, hzero]
    | false =>
      have hsummary : ¬a.toElement.summary.isNonzero = true := fun hall => by
        obtain ⟨v, hv⟩ := a.isWord.nonempty
        exact h v hv ((Element.summary_all_iff a.isWord false).mp hall v hv)
      -- the only value is zero
      obtain rfl := eq_single fun v hv => by simpa using h v hv
      rw [single_toElement w.view.contains_zero, Element.wordConstant_eq w.view.contains_zero]
        at hsummary ⊢
      simp only [Element.restrict?, Bool.false_eq_true, if_false, Element.nonzeroPart?, hsummary]
      cases w <;> rfl
  rcases a.restrict?_cases zero with ⟨-, hbot⟩ | ⟨c, exact, p, hsome, -⟩
  · exact hbot
  · cases hrestrict.symm.trans hsome

/-- All values are of the kind. -/
theorem part_eq_self {zero : Bool} (h : ∀ v ∈ a.toElement.values, decide (v = 0) = zero) :
    a.part zero = a := by
  cases zero with
  | true =>
    -- the only value is zero
    obtain rfl := eq_single fun v hv => by simpa using h v hv
    have hmem : 0 ∈ (single limit w 0).toElement.values :=
      (single_le_iff w.view.contains_zero).mp le_rfl
    obtain ⟨p, hp, h0⟩ := exists_part true hmem rfl
    refine le_antisymm (part_le true _) ?_
    rw [hp, WithBot.coe_le_coe, single_le_iff w.view.contains_zero]
    exact h0
  | false =>
    have hsummary : a.toElement.summary.isNonzero = true :=
      (Element.summary_all_iff a.isWord false).mpr h
    simp only [part, Element.restrict?, Bool.false_eq_true, if_false, Element.nonzeroPart?,
      hsummary, if_true, Option.map_some]
    split <;> exact ofElement_toElement a

/-- The part of a list has no other values. -/
theorem eq_of_mem_part {zero : Bool} (hlist : a.toElement.IsListed) (h : a.part zero = p)
    (hv : v ∈ p.toElement.values) : decide (v = 0) = zero := by
  rcases a.restrict?_cases zero with ⟨-, hbot⟩ | ⟨c, exact, q, hsome, hq, hpart, hspec⟩
  · cases hbot.symm.trans h
  have hexact : exact = true := by
    cases zero with
    | true =>
      simp only [Element.restrict?, if_true, Option.map_map, Option.map_eq_some_iff] at hsome
      obtain ⟨_, -, hsome⟩ := hsome
      cases hsome
      rfl
    | false =>
      obtain ⟨vs, hvs⟩ := exists_list hlist
      have hvalues : (Element.word w (.disjunction vs)).intValues? = some vs := by cases w <;> rfl
      rw [toElement, hvs] at hsome
      simp only [Element.restrict?, Bool.false_eq_true, if_false, Element.nonzeroPart?,
        hvalues] at hsome
      split at hsome
      · cases hsome
        rfl
      · simp only [Option.map_map, Option.map_eq_some_iff] at hsome
        obtain ⟨_, -, hsome⟩ := hsome
        cases hsome
        rfl
  obtain rfl : q = p := WithBot.coe_injective (hpart.symm.trans h)
  exact hspec.tight hexact v (hq ▸ hv)

/-- The part of a list is the join of the parts of its values. -/
theorem part_eq_joined (zero : Bool) (a : WordShape limit w) :
    a.part zero = joined (part zero) a.pieces := by
  by_cases hlist : a.toElement.IsListed
  swap
  · rw [pieces_of_not_isListed hlist, joined_singleton]
  obtain ⟨vs, hvs⟩ := exists_list hlist
  have hmem : ∀ v, v ∈ a.toElement.values ↔ v ∈ vs := fun v => mem_values_iff_mem hvs
  have hsingle : ∀ v ∈ vs, ∀ i ∈ (single limit w v).toElement.values, i = v := fun v hv i hi => by
    rwa [toElement, single_shape (contains_of_mem ((hmem v).mpr hv)), Element.mem_values_word,
      Shape.contains_constant] at hi
  rw [pieces_of_shape_eq hvs, joined_map]
  refine le_antisymm ?_ (joined_le_iff.mpr fun v hv => ?_)
  · cases hp : a.part zero with
    | bot => exact bot_le
    | coe p =>
      -- every value of the part is a part of its own
      have hle : ∀ v ∈ p.toElement.values,
          WithBot.some (single limit w v) ≤ joined (fun v => part zero (single limit w v)) vs := by
        intro v hv
        have hkind := eq_of_mem_part hlist hp hv
        have hle : p ≤ a := WithBot.coe_le_coe.mp (hp ▸ a.part_le zero)
        have hvs : v ∈ vs := (hmem v).mp (Shape.Below.subset hle hv)
        rw [← part_eq_self fun i hi => hsingle v hvs i hi ▸ hkind]
        exact le_joined (f := fun v => part zero (single limit w v)) hvs
      obtain ⟨v, hv⟩ := p.isWord.nonempty
      obtain ⟨j, hj, -⟩ := WithBot.coe_le_iff.mp (hle v hv)
      rw [hj, WithBot.coe_le_coe]
      refine le_of_isEnumerated ?_ fun v hv => WithBot.coe_le_coe.mp (hj ▸ hle v hv)
      refine Shape.Below.enumerated (WithBot.coe_le_coe.mp (hp ▸ a.part_le zero)) ?_
      exact hvs ▸ Shape.isEnumerated_disjunction
  · by_cases hkind : decide (v = 0) = zero
    · obtain ⟨p, hp, hvp⟩ := exists_part zero ((hmem v).mpr hv) hkind
      rw [hp]
      refine (part_le zero _).trans (WithBot.coe_le_coe.mpr ?_)
      exact (single_le_iff (contains_of_mem hvp)).mpr hvp
    · rw [part_eq_bot fun i hi => hsingle v hv i hi ▸ hkind]
      exact bot_le

end WordShape

/-! ### Connectives -/

namespace Remnant

/-- What is left of both operands: nothing if nothing is left of one. -/
def pair (p : WithBot (WordShape limit w)) (q : WithBot (OperandShape limit arg)) :
    Remnant limit w arg :=
  WithBot.map₂ Prod.mk p q

@[simp] theorem pair_coe (a : WordShape limit w) (b : OperandShape limit arg) :
    pair (WithBot.some a) (WithBot.some b) = .words a b := rfl

@[simp] theorem bot_pair (q : WithBot (OperandShape limit arg)) :
    pair (⊥ : WithBot (WordShape limit w)) q = ⊥ := rfl

@[simp] theorem pair_bot (p : WithBot (WordShape limit w)) :
    pair p (⊥ : WithBot (OperandShape limit arg)) = ⊥ := by
  cases p <;> rfl

/-- Pairs distribute over joins of the first operand. -/
theorem pair_sup_left (q : WithBot (OperandShape limit arg)) (p p' : WithBot (WordShape limit w)) :
    pair (p ⊔ p') q = pair p q ⊔ pair p' q := by
  cases q with
  | bot => simp
  | coe b =>
    cases p with
    | bot => simp
    | coe a =>
      cases p' with
      | bot => simp
      | coe a' =>
        rw [← WithBot.coe_sup, pair_coe, pair_coe, pair_coe, ← WithBot.coe_sup, Prod.mk_sup_mk,
          sup_idem]

/-- And over those of the second one. -/
theorem pair_sup_right (p : WithBot (WordShape limit w)) (q q' : WithBot (OperandShape limit arg)) :
    pair p (q ⊔ q') = pair p q ⊔ pair p q' := by
  cases p with
  | bot => simp
  | coe a =>
    cases q with
    | bot => simp
    | coe b =>
      cases q' with
      | bot => simp
      | coe b' =>
        rw [← WithBot.coe_sup, pair_coe, pair_coe, pair_coe, ← WithBot.coe_sup, Prod.mk_sup_mk,
          sup_idem]

theorem pair_joined_left {α : Type} (f : α → WithBot (WordShape limit w)) (l : List α)
    (q : WithBot (OperandShape limit arg)) :
    pair (joined f l) q = joined (fun i => pair (f i) q) l :=
  map_joined (fun p => pair p q) rfl (pair_sup_left q) f l

theorem pair_joined_right {α : Type} (p : WithBot (WordShape limit w))
    (f : α → WithBot (OperandShape limit arg)) (l : List α) :
    pair p (joined f l) = joined (fun i => pair p (f i)) l :=
  map_joined (pair p) (pair_bot p) (pair_sup_right p) f l

/-- Both operands cut to values of the kind. -/
noncomputable def cutBoth (zero : Bool) (a : WordShape limit w) (b : WordShape limit u) :
    Remnant limit w (some u) :=
  pair (a.part zero) (b.part zero)

/-- One operand cut to values of the kind, next to all of the other one. -/
noncomputable def cutOne (zero : Bool) (a : WordShape limit w) (b : WordShape limit u) :
    Remnant limit w (some u) :=
  pair (a.part zero) (WithBot.some b) ⊔ pair (WithBot.some a) (b.part zero)

theorem pair_mono {p p' : WithBot (WordShape limit w)} {q q' : WithBot (OperandShape limit arg)}
    (hp : p ≤ p') (hq : q ≤ q') : pair p q ≤ pair p' q' := by
  calc pair p q ≤ pair p' q := by rw [← sup_eq_right.mpr hp, pair_sup_left]; exact le_sup_left
    _ ≤ pair p' q' := by rw [← sup_eq_right.mpr hq, pair_sup_right]; exact le_sup_left

/-- If all values of the first operand are of the kind, the second one may be anything. -/
theorem cutOne_of_left {zero : Bool} {a : WordShape limit w} (b : WordShape limit u)
    (h : a.part zero = a) : cutOne zero a b = .words a b := by
  rw [cutOne, h]
  exact sup_eq_left.mpr (pair_mono le_rfl (b.part_le zero))

/-- If all values of the second operand are, the first one may be. -/
theorem cutOne_of_right {zero : Bool} (a : WordShape limit w) {b : WordShape limit u}
    (h : b.part zero = b) : cutOne zero a b = .words a b := by
  rw [cutOne, h]
  exact sup_eq_right.mpr (pair_mono (a.part_le zero) le_rfl)

/-- Each operand has values of the kind, so that the other one may be anything. -/
theorem cutOne_of_parts {zero : Bool} {a p : WordShape limit w} {b q : WordShape limit u}
    (ha : a.part zero = p) (hb : b.part zero = q) : cutOne zero a b = .words a b := by
  have hp : p ≤ a := WithBot.coe_le_coe.mp (ha ▸ a.part_le zero)
  have hq : q ≤ b := WithBot.coe_le_coe.mp (hb ▸ b.part_le zero)
  have hsup : cutOne zero a b = (words (p ⊔ a) (b ⊔ q) : Remnant limit w (some u)) := by
    rw [cutOne, ha, hb]
    rfl
  rw [hsup, sup_eq_right.mpr hp]
  exact congrArg (fun d => words a d) (sup_eq_left.mpr hq)

end Remnant

namespace Finding

open Remnant

/-- A restriction of both operands leaves the parts of both, and nothing if one of them is empty. -/
theorem restrictBoth_leaves (zero : Bool) (a : WordShape limit w) (b : WordShape limit u) :
    (restrictBoth limit zero a.toElement b.toElement).Leaves a.toElement (some b.toElement)
      (cutBoth zero a b) := by
  rw [restrictBoth, cutBoth]
  rcases a.restrict?_cases zero with ⟨h, hpart⟩ | ⟨c, exact, p, h, hp, hpart, -⟩
  · rw [h, hpart]
    exact .nothing rfl
  · rw [h, hpart]
    rcases b.restrict?_cases zero with ⟨h', hpart'⟩ | ⟨c', exact', p', h', hp', hpart', -⟩
    · simp only [h', hpart']
      exact .nothing rfl
    · simp only [h', hpart']
      exact .words (by simp) hp (congrArg some hp')

/-- A finding that keeps the operands. -/
theorem keep_leaves (exact : Bool) (a : WordShape limit w) (b : WordShape limit u) :
    (keep exact).Leaves a.toElement (some b.toElement)
      (Remnant.words a b : Remnant limit w (some u)) :=
  .words (by simp [keep]) rfl rfl

/-- The operands of a connective that needs one operand of the kind, given the tests of which of
them have values of the kind only, and which have none. -/
private theorem leaves_of_tests {zero always always' never never' : Bool} {a : WordShape limit w}
    {b : WordShape limit u}
    (halways : always = true ↔ ∀ v ∈ a.toElement.values, decide (v = 0) = zero)
    (halways' : always' = true ↔ ∀ v ∈ b.toElement.values, decide (v = 0) = zero)
    (hnever : never = true ↔ ∀ v ∈ a.toElement.values, decide (v = 0) ≠ zero)
    (hnever' : never' = true ↔ ∀ v ∈ b.toElement.values, decide (v = 0) ≠ zero) :
    (if always || always' then keep true
      else if never then
        match b.toElement.restrict? limit zero with
        | some (part, exact) => { second := part, exactness := some exact }
        | none => dead
      else if never' then
        match a.toElement.restrict? limit zero with
        | some (part, exact) => { first := part, exactness := some exact }
        | none => dead
      else keep false).Leaves a.toElement (some b.toElement) (cutOne zero a b) := by
  split_ifs with h1 h2 h3
  · rcases Bool.or_eq_true_iff.mp h1 with h | h
    · rw [cutOne_of_left b (WordShape.part_eq_self (halways.mp h))]
      exact keep_leaves true a b
    · rw [cutOne_of_right a (WordShape.part_eq_self (halways'.mp h))]
      exact keep_leaves true a b
  · rw [cutOne, WordShape.part_eq_bot (hnever.mp h2), bot_pair, bot_sup_eq]
    rcases b.restrict?_cases zero with ⟨h, hpart⟩ | ⟨c, exact, p, h, hp, hpart, -⟩ <;>
      rw [h, hpart]
    · exact .nothing rfl
    · exact .words (by simp) rfl (congrArg some hp)
  · have hcut : cutOne zero a b =
        pair (a.part zero) (@WithBot.some (OperandShape limit (some u)) b) := by
      rw [cutOne, WordShape.part_eq_bot (hnever'.mp h3)]
      exact (congrArg _ (pair_bot _)).trans (sup_bot_eq _)
    rw [hcut]
    rcases a.restrict?_cases zero with ⟨h, hpart⟩ | ⟨c, exact, p, h, hp, hpart, -⟩ <;>
      rw [h, hpart]
    · exact .nothing rfl
    · exact .words (by simp) hp rfl
  · simp only [hnever, hnever', not_forall, not_not] at h2 h3
    obtain ⟨v, hv, hkind⟩ := h2
    obtain ⟨v', hv', hkind'⟩ := h3
    obtain ⟨p, hp, -⟩ := WordShape.exists_part zero hv hkind
    obtain ⟨p', hp', -⟩ := WordShape.exists_part zero hv' hkind'
    rw [cutOne_of_parts hp hp']
    exact keep_leaves false a b

/-- A restriction that one operand has to meet leaves its part next to all of the other one. -/
theorem restrictOne_leaves (zero : Bool) (a : WordShape limit w) (b : WordShape limit u) :
    (restrictOne limit zero a.toElement b.toElement).Leaves a.toElement (some b.toElement)
      (cutOne zero a b) := by
  -- no value is of the kind if all values are of the other one
  have hnever : ∀ {w : WordType} (c : WordShape limit w),
      (if zero then c.toElement.summary.isNonzero else c.toElement.summary.isZero) = true ↔
        ∀ v ∈ c.toElement.values, decide (v = 0) ≠ zero := by
    intro w c
    have hall := Element.summary_all_iff c.isWord !zero
    cases zero <;> simpa using hall
  exact leaves_of_tests (Element.summary_all_iff a.isWord zero)
    (Element.summary_all_iff b.isWord zero) (hnever a) (hnever b)

end Finding

namespace Connective

open Remnant

/-- What a connective leaves of two words. -/
noncomputable def leftover (c : Connective) (z : Element) (a : WordShape limit w)
    (b : WordShape limit u) : Remnant limit w (some u) :=
  match z.knownBit?, c with
  | none, _ => .words a b
  | some true, .and => cutBoth false a b
  | some false, .or => cutBoth true a b
  | some false, .and => cutOne true a b
  | some true, .or => cutOne false a b

/-- A connective leaves what its outcome asks for, and everything if the outcome is not known. -/
theorem leftover_leaves (c : Connective) (z : Element) (a : WordShape limit w)
    (b : WordShape limit u) :
    (Finding.connective limit c a.toElement (some b.toElement) z).Leaves a.toElement
      (some b.toElement) (c.leftover z a b) := by
  rcases hk : z.knownBit? with _ | _ | _ <;> rcases c with _ | _ <;>
    simp only [Finding.connective, leftover, hk]
  · exact Finding.keep_leaves true a b
  · exact Finding.keep_leaves true a b
  · exact Finding.restrictOne_leaves true a b
  · exact Finding.restrictBoth_leaves true a b
  · exact Finding.restrictBoth_leaves false a b
  · exact Finding.restrictOne_leaves false a b

/-- What a connective leaves of the first operand may be found value by value. -/
theorem leftover_eq_joined_left (c : Connective) (z : Element) (a : WordShape limit w)
    (b : WordShape limit u) :
    c.leftover z a b = joined (fun a' => c.leftover z a' b) a.pieces := by
  have hcoe := fun q : WithBot (OperandShape limit (some u)) =>
    (congrArg (pair · q) a.coe_eq_joined).trans (pair_joined_left _ _ q)
  have hpart := fun zero => fun q : WithBot (OperandShape limit (some u)) =>
    (congrArg (pair · q) (a.part_eq_joined zero)).trans (pair_joined_left _ _ q)
  have hone : ∀ zero, cutOne zero a b = joined (fun a' => cutOne zero a' b) a.pieces := fun zero =>
    (congrArg₂ (· ⊔ ·) (hpart zero _) (hcoe _)).trans (joined_sup _ _ _).symm
  rcases hk : z.knownBit? with _ | _ | _ <;> rcases c with _ | _ <;> simp only [leftover, hk]
  · exact hcoe (@WithBot.some (OperandShape limit (some u)) b)
  · exact hcoe (@WithBot.some (OperandShape limit (some u)) b)
  · exact hone true
  · exact hpart true _
  · exact hpart false _
  · exact hone false

/-- And of the second one. -/
theorem leftover_eq_joined_right (c : Connective) (z : Element) (a : WordShape limit w)
    (b : WordShape limit u) :
    c.leftover z a b = joined (fun b' => c.leftover z a b') b.pieces := by
  have hcoe := fun p : WithBot (WordShape limit w) =>
    (congrArg (@pair limit w (some u) p) b.coe_eq_joined).trans (pair_joined_right p _ _)
  have hpart := fun zero => fun p : WithBot (WordShape limit w) =>
    (congrArg (@pair limit w (some u) p) (b.part_eq_joined zero)).trans (pair_joined_right p _ _)
  have hone : ∀ zero, cutOne zero a b = joined (fun b' => cutOne zero a b') b.pieces := fun zero =>
    (congrArg₂ (· ⊔ ·) (hcoe _) (hpart zero _)).trans (joined_sup _ _ _).symm
  rcases hk : z.knownBit? with _ | _ | _ <;> rcases c with _ | _ <;> simp only [leftover, hk]
  · exact hcoe (WithBot.some a)
  · exact hcoe (WithBot.some a)
  · exact hone true
  · exact hpart true _
  · exact hpart false _
  · exact hone false

end Connective

/-! ### All operations -/

namespace Operation

variable {op : Operation} {stops : Bool} {z : WordShape limit out} {a : WordShape limit w}
  {b : WordShape limit u}

/-- What the solver of an operation on ranges leaves of two words. -/
def leftoverOnRanges (stops : Bool) (op : Operation) (z : WordShape limit out)
    (a : WordShape limit w) (b : WordShape limit u) : Remnant limit w (some u) :=
  (Narrowing.solve stops op ⟨⟨w.view, a.shape.bounds w.view⟩,
    some ⟨u.view, b.shape.bounds u.view⟩, ⟨out.view, z.shape.bounds out.view⟩,
    Frame.isConvex z.toElement⟩).remnant a b

/-- What an operation with two operands leaves of two words that it does not take apart. -/
noncomputable def leftover (stops : Bool) (op : Operation) (z : WordShape limit out)
    (a : WordShape limit w) (b : WordShape limit u) : Remnant limit w (some u) :=
  match op with
  | .connective c => c.leftover z.toElement a b
  | op => op.leftoverOnRanges stops z a b

/-- What it leaves of two words, lists taken value by value. -/
noncomputable def remains (stops : Bool) (op : Operation) (z : WordShape limit out)
    (a : WordShape limit w) (b : WordShape limit u) : Remnant limit w (some u) :=
  joined (fun a' => joined (op.leftover stops z a') b.pieces) a.pieces

/-- What is left may be found value by value of the first operand. -/
theorem remains_eq_joined_left (stops : Bool) (op : Operation) (z : WordShape limit out)
    (a : WordShape limit w) (b : WordShape limit u) :
    op.remains stops z a b = joined (fun a' => op.remains stops z a' b) a.pieces :=
  joined_congr fun a' ha' => by rw [remains, WordShape.pieces_of_mem ha', joined_singleton]

/-- And of the second one. -/
theorem remains_eq_joined_right (stops : Bool) (op : Operation) (z : WordShape limit out)
    (a : WordShape limit w) (b : WordShape limit u) :
    op.remains stops z a b = joined (op.remains stops z a) b.pieces := by
  rw [remains, joined_comm]
  refine joined_congr fun b' hb' => joined_congr fun a' _ => ?_
  rw [WordShape.pieces_of_mem hb', joined_singleton]

/-- Without a list there is one piece of each operand. -/
theorem remains_of_not_hasList (h : ¬HasList a.toElement (some b.toElement)) :
    op.remains stops z a b = op.leftover stops z a b := by
  have ha : ¬a.toElement.IsListed := fun hl => h (.inl hl)
  have hb : ¬b.toElement.IsListed := fun hl => h (.inr ⟨_, rfl, hl⟩)
  rw [remains, a.pieces_of_not_isListed ha, b.pieces_of_not_isListed hb, joined_singleton,
    joined_singleton]

end Operation

namespace Finding

variable {op : Operation} {stops : Bool} {z : WordShape limit out} {a : WordShape limit w}
  {b : WordShape limit u}

/-- Words without gaps find what the solver leaves of them, and decline otherwise. -/
private theorem finds_onRanges
    (hop : ∀ stops, OnRanges limit stops op a.toElement (some b.toElement) z.toElement)
    (hleft : op.leftover stops z a b = op.leftoverOnRanges stops z a b) :
    Finds limit stops op z.toElement a.toElement (some b.toElement) (op.remains stops z a b) ∨
      (∀ stops, ofWords? limit stops op a.toElement (some b.toElement) z.toElement = .ok none) ∧
        HasList a.toElement (some b.toElement) := by
  by_cases hlist : HasList a.toElement (some b.toElement)
  · exact .inr ⟨fun stops => by rw [hop, frame_none hlist]; rfl, hlist⟩
  · obtain ⟨f, hf, hleaves⟩ := (Narrowing.solve stops op ⟨⟨w.view, a.shape.bounds w.view⟩,
      some ⟨u.view, b.shape.bounds u.view⟩, ⟨out.view, z.shape.bounds out.view⟩,
      Frame.isConvex z.toElement⟩).finding_leaves (Frame.isConvex z.toElement) a
        (show OperandShape limit (some u) from b)
    refine .inl ⟨f, ?_, ?_⟩
    · rw [hop]
      exact (congrArg (Option.elim · _ _) (frame_binary (fun h => hlist (.inl h)) fun h =>
        hlist (.inr ⟨_, rfl, h⟩))).trans (congrArg (Except.map some) hf)
    · rw [Operation.remains_of_not_hasList hlist, hleft]
      exact hleaves

/-- Words find what the operation leaves of their pieces, or they decline because one of them is a
list. -/
theorem finds_remains (stops : Bool) (h : op.Fits w (some u) out) (z : WordShape limit out)
    (a : WordShape limit w) (b : WordShape limit u) :
    Finds limit stops op z.toElement a.toElement (some b.toElement) (op.remains stops z a b) ∨
      (∀ stops, ofWords? limit stops op a.toElement (some b.toElement) z.toElement = .ok none) ∧
        HasList a.toElement (some b.toElement) := by
  cases op with
  | connective c =>
    refine .inl ⟨_, rfl, ?_⟩
    have hjoined : (Operation.connective c).remains stops z a b = c.leftover z.toElement a b := by
      rw [c.leftover_eq_joined_left]
      exact joined_congr fun a' _ => (c.leftover_eq_joined_right z.toElement a' b).symm
    rw [hjoined]
    exact c.leftover_leaves z.toElement a b
  | logicalNegate | castBit => exact absurd h.1 (by simp)
  | castFloat dest => exact h.elim
  | _ => exact finds_onRanges (fun _ => onRanges trivial) rfl

end Finding

end ScalarDomain
