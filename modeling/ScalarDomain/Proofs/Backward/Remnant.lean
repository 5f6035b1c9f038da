import ScalarDomain.Proofs.Backward.Trial
import ScalarDomain.Proofs.Forward.Inclusion

/-!
# What refinements leave

A backward refinement leaves a word of each operand, or nothing at all. Words are a lattice, and so
is what may be left of two operands, with nothing as its bottom (`Remnant`). In it, a narrowing
leaves the meets of the operands with its ranges, a list in charge leaves the join of what its
values leave, and a trial leaves the join of the pairs of values that it keeps.
-/

namespace ScalarDomain

variable {limit : ℕ} {op : Operation} {w u out : WordType} {arg : Option WordType} {x z m : Element}
  {y : Option Element} {params : Params} {slot : Slot} {r child : Refinement} {f : Finding}

/-! ### The lattice of remnants -/

/-- A well-formed second operand, which may be missing. -/
def OperandShape (limit : ℕ) : Option WordType → Type
  | none => PUnit
  | some u => WordShape limit u

namespace OperandShape

instance : (arg : Option WordType) → SemilatticeSup (OperandShape limit arg)
  | none => inferInstanceAs (SemilatticeSup PUnit)
  | some u => inferInstanceAs (SemilatticeSup (WordShape limit u))

/-- The operand itself. -/
def toElement? : {arg : Option WordType} → OperandShape limit arg → Option Element
  | none, _ => none
  | some _, b => some (WordShape.toElement b)

/-- Every well-formed second operand comes from a shape. -/
theorem exists_toElement? (hy : IsOperand limit arg y) :
    ∃ b : OperandShape limit arg, b.toElement? = y := by
  cases arg with
  | none => exact ⟨⟨⟩, hy.eq_none.symm⟩
  | some u =>
    obtain ⟨t, rfl, ht⟩ := hy.exists_word
    exact ⟨(⟨t, ht⟩ : WordShape limit u), rfl⟩

theorem isOperand (b : OperandShape limit arg) : IsOperand limit arg b.toElement? := by
  cases arg with
  | none => trivial
  | some u => exact Element.isWord_word (WordShape.wellFormed b)

/-- Larger operands have more values. -/
theorem values_mono {b b' : OperandShape limit arg} (h : b ≤ b') :
    operandValues b.toElement? ⊆ operandValues b'.toElement? := by
  cases arg with
  | none => exact subset_rfl
  | some u => exact Shape.Below.subset h

end OperandShape

/-- What may be left of two operands: a word of each, or nothing. -/
abbrev Remnant (limit : ℕ) (w : WordType) (arg : Option WordType) : Type :=
  WithBot (WordShape limit w × OperandShape limit arg)

namespace Remnant

/-- Something is left of both operands. -/
abbrev words (a : WordShape limit w) (b : OperandShape limit arg) : Remnant limit w arg :=
  WithBot.some (a, b)

/-- What is left, with the operands swapped. -/
def swap : Remnant limit w (some u) → Remnant limit u (some w) :=
  WithBot.map fun p => (p.2, p.1)

theorem swap_mono : Monotone (swap : Remnant limit w (some u) → Remnant limit u (some w)) :=
  Monotone.withBot_map fun _ _ h => ⟨h.2, h.1⟩

end Remnant

/-- A finding leaves the operands or, if it says so, nothing. -/
inductive Finding.Leaves (x : Element) (y : Option Element) (f : Finding) :
    Remnant limit w arg → Prop
  /-- Nothing is left. -/
  | nothing (h : f.exactness = none) : Leaves x y f ⊥
  /-- Something is left of each operand. -/
  | words {a : WordShape limit w} {b : OperandShape limit arg} (h : f.exactness ≠ none)
      (hfirst : f.firstOf x = a.toElement) (hsecond : f.secondOf y = b.toElement?) :
      Leaves x y f (.words a b)

namespace Finding

/-- A solution leaves something. -/
theorem Solves.exists_leaves {R : ℤ → ℤ → Prop} {P : Prop} (h : f.Solves limit w arg R P x y) :
    ∃ q : Remnant limit w arg, f.Leaves x y q := by
  by_cases hlive : f.exactness = none
  · exact ⟨⊥, .nothing hlive⟩
  · obtain ⟨s, hs, hword⟩ := h.first
    obtain ⟨b, hb⟩ := OperandShape.exists_toElement? h.second
    exact ⟨_, .words (a := ⟨s, hword⟩) hlive hs hb.symm⟩

/-- A finding with its operands swapped leaves the same, swapped. -/
theorem Leaves.swap {o : Element} {q : Remnant limit w (some u)} (h : f.Leaves x (some o) q) :
    f.swap.Leaves o (some x) q.swap := by
  cases h with
  | nothing h => exact .nothing h
  | words h hfirst hsecond =>
    exact .words h (Option.some.inj hsecond) (congrArg some hfirst)

end Finding

/-! ### Narrowings -/

namespace WordShape

/-- The shape of a range is below that of a range around it. -/
theorem rangeShape_below {r r' : Range} (hr : r.Proper w.view) (hr' : r'.Proper w.view)
    (h : r.Within r') : (w.rangeShape r).Below w.view (w.rangeShape r') := by
  have hsub : (w.rangeShape r).toSet w.view ⊆ (w.rangeShape r').toSet w.view := fun v hv =>
    (WordType.contains_rangeShape hr').mpr (h.mem ((WordType.contains_rangeShape hr).mp hv))
  cases w with
  | bit =>
    have hword : ∀ {q : Range}, q.Proper (WordType.bit).view →
        (WordType.bit.rangeShape q).WellFormed 0 .bit := fun hq => WordType.wellFormed_rangeShape hq
    exact Shape.below_of_subset_bit (hword hr) (hword hr') hsub
  | int t =>
    by_cases hpoint : r.lo = r.hi
    · refine Shape.below_of_isEnumerated hsub ?_
      rw [WordType.rangeShape, if_pos hpoint]
      exact Shape.isEnumerated_constant
    · have hpoint' : r'.lo ≠ r'.hi := by
        obtain ⟨hlo, hhi⟩ := h
        have := hr.le
        omega
      rw [WordType.rangeShape, if_neg hpoint] at hsub ⊢
      rw [WordType.rangeShape, if_neg hpoint'] at hsub ⊢
      exact Shape.below_of_not_isEnumerated hsub (by simp) Shape.not_isEnumerated_interval

/-- The values of a type within a range that has some of them. -/
def clamp (limit : ℕ) (w : WordType) (r : Range)
    (h : max r.lo w.view.minValue ≤ min r.hi w.view.maxValue) : WordShape limit w where
  shape := w.rangeShape ⟨max r.lo w.view.minValue, min r.hi w.view.maxValue⟩
  wellFormed :=
    WordType.wellFormed_rangeShape (.of_bounds (le_max_right _ _) h (min_le_right _ _))

/-- The values of a type within a range, if there are any. -/
def box (limit : ℕ) (w : WordType) (r : Range) : WithBot (WordShape limit w) :=
  if h : max r.lo w.view.minValue ≤ min r.hi w.view.maxValue then WithBot.some (clamp limit w r h)
  else ⊥

/-- Smaller ranges hold fewer values of a type. -/
theorem box_mono {r r' : Range} (h : r.Within r') : box limit w r ≤ box limit w r' := by
  obtain ⟨hlo, hhi⟩ := h
  rw [box, box]
  split
  · next hle =>
    have hle' : max r'.lo w.view.minValue ≤ min r'.hi w.view.maxValue := by omega
    rw [dif_pos hle', WithBot.coe_le_coe]
    refine rangeShape_below (.of_bounds (le_max_right _ _) hle (min_le_right _ _))
      (.of_bounds (le_max_right _ _) hle' (min_le_right _ _)) ⟨?_, ?_⟩
    · exact max_le_max_right _ hlo
    · exact min_le_min_right _ hhi
  · exact bot_le

/-- What is left of a word within a range, if there is one. -/
def clip (a : WordShape limit w) : Option Range → WithBot (WordShape limit w)
  | none => a
  | some r => a ⊓ box limit w r

/-- The refinement of a word with another one is their meet, or fails because they are disjoint. -/
theorem refineWith_cases (a b : WordShape limit w) :
    (a.toElement.refineWith limit b.toElement = .ok none ∧ a.meet b = ⊥) ∨
      ∃ c, ∃ p : WordShape limit w, a.toElement.refineWith limit b.toElement = .ok (some c) ∧
        c.getD a.toElement = p.toElement ∧ a.meet b = p := by
  rw [Element.refineWith, meet_toElement, coe_inf_coe]
  cases a.meet b with
  | bot => exact .inl ⟨rfl, rfl⟩
  | coe p =>
    refine .inr ⟨_, p, rfl, ?_, rfl⟩
    split
    · next hsame => exact (Element.eq_word_of_beq hsame).symm
    · rfl

/-- A word that is narrowed to a range is clipped to it. -/
theorem narrowIf_cases (a : WordShape limit w) (r : Option Range) :
    (Element.narrowIf limit (some a.toElement) r = .ok none ∧ a.clip r = ⊥) ∨
      ∃ c, ∃ p : WordShape limit w, Element.narrowIf limit (some a.toElement) r = .ok (some c) ∧
        c.getD a.toElement = p.toElement ∧ a.clip r = p := by
  cases r with
  | none => exact .inr ⟨none, a, rfl, rfl, rfl⟩
  | some r =>
    rw [clip, box]
    by_cases hle : max r.lo w.view.minValue ≤ min r.hi w.view.maxValue
    · have hnarrow : Element.narrowIf limit (some a.toElement) (some r) =
          a.toElement.refineWith limit (clamp limit w r hle).toElement :=
        if_neg (not_lt.mpr hle)
      rw [hnarrow, dif_pos hle, coe_inf_coe]
      exact refineWith_cases a _
    · rw [dif_neg hle]
      exact .inl ⟨if_pos (not_le.mp hle), rfl⟩

end WordShape

namespace OperandShape

/-- What is left of a second operand within a range, if there is one. -/
def clip : {arg : Option WordType} → OperandShape limit arg → Option Range →
    WithBot (OperandShape limit arg)
  | none, b, _ => WithBot.some b
  | some _, b, s => WordShape.clip b s

theorem narrowIf_cases (b : OperandShape limit arg) (s : Option Range) :
    (Element.narrowIf limit b.toElement? s = .ok none ∧ b.clip s = ⊥) ∨
      ∃ c, ∃ d : OperandShape limit arg, Element.narrowIf limit b.toElement? s = .ok (some c) ∧
        b.toElement?.map c.getD = d.toElement? ∧ b.clip s = WithBot.some d := by
  cases arg with
  | none =>
    refine .inr ⟨none, b, ?_, rfl, rfl⟩
    cases s <;> rfl
  | some u =>
    rcases WordShape.narrowIf_cases (w := u) b s with h | ⟨c, d, h, hd, hclip⟩
    · exact .inl h
    · exact .inr ⟨c, d, h, congrArg some hd, hclip⟩

end OperandShape

/-- Ranges that are said of an operand, if any, are within those that are said of it elsewhere. -/
def RangesWithin (r r' : Option Range) : Prop :=
  ∀ q' ∈ r', ∃ q ∈ r, q.Within q'

/-- A smaller range clips more. -/
theorem WordShape.clip_mono {r r' : Option Range} (h : RangesWithin r r') (a : WordShape limit w) :
    a.clip r ≤ a.clip r' := by
  cases r' with
  | none =>
    cases r with
    | none => exact le_rfl
    | some q => exact inf_le_left
  | some q' =>
    obtain ⟨q, rfl, hq⟩ := h q' rfl
    exact inf_le_inf_left _ (box_mono hq)

theorem OperandShape.clip_mono {s s' : Option Range} (h : RangesWithin s s')
    (b : OperandShape limit arg) : b.clip s ≤ b.clip s' := by
  cases arg with
  | none => exact le_rfl
  | some u => exact WordShape.clip_mono h b

namespace Narrowing

/-- What a narrowing leaves of the operands. -/
def remnant (a : WordShape limit w) (b : OperandShape limit arg) : Narrowing → Remnant limit w arg
  | impossible => ⊥
  | within r s _ => WithBot.map₂ Prod.mk (a.clip r) (b.clip s)

/-- A narrowing that rules out at least as much as another one. -/
inductive Prunes : Narrowing → Narrowing → Prop
  /-- It rules out everything. -/
  | impossible (n : Narrowing) : Prunes .impossible n
  /-- Its ranges are within those of the other one. -/
  | within {r r' s s' : Option Range} {exact exact' : Bool} (hfirst : RangesWithin r r')
      (hsecond : RangesWithin s s') : Prunes (.within r s exact) (.within r' s' exact')

/-- A narrowing that rules out more leaves less. -/
theorem Prunes.remnant_le {n n' : Narrowing} (h : n.Prunes n') (a : WordShape limit w)
    (b : OperandShape limit arg) : n.remnant a b ≤ n'.remnant a b := by
  cases h with
  | impossible n => exact bot_le
  | @within r r' s s' _ _ hfirst hsecond =>
    have h1 := WordShape.clip_mono hfirst a
    have h2 := OperandShape.clip_mono hsecond b
    rw [remnant, remnant]
    cases hr : a.clip r with
    | bot => exact bot_le
    | coe p =>
      cases hs : b.clip s with
      | bot => exact bot_le
      | coe q =>
        rw [hr] at h1
        rw [hs] at h2
        obtain ⟨p', hp', hle⟩ := WithBot.coe_le_iff.mp h1
        obtain ⟨q', hq', hle'⟩ := WithBot.coe_le_iff.mp h2
        rw [hp', hq']
        exact WithBot.coe_le_coe.mpr ⟨hle, hle'⟩

/-- The finding of a narrowing. -/
theorem finding_leaves (n : Narrowing) (convex : Bool) (a : WordShape limit w)
    (b : OperandShape limit arg) :
    ∃ f, n.finding limit convex a.toElement b.toElement? = .ok f ∧
      f.Leaves a.toElement b.toElement? (n.remnant a b) := by
  cases n with
  | impossible => exact ⟨.dead, rfl, .nothing rfl⟩
  | within r s exact =>
    rw [finding, remnant]
    rcases a.narrowIf_cases r with ⟨h, hclip⟩ | ⟨c, p, h, hp, hclip⟩ <;>
      rcases b.narrowIf_cases s with ⟨h', hclip'⟩ | ⟨c', d, h', hd, hclip'⟩ <;>
      rw [h, h', hclip, hclip']
    · exact ⟨_, rfl, .nothing rfl⟩
    · exact ⟨_, rfl, .nothing rfl⟩
    · exact ⟨_, rfl, .nothing rfl⟩
    · exact ⟨_, rfl, .words (by simp) hp hd⟩

end Narrowing

namespace Refinement

/-- A refinement was carried out and leaves something of the operand in charge and the other. -/
structure Left (slot : Slot) (x : Element) (y : Option Element) (q : Remnant limit w arg)
    (p : Bool × Refinement) : Prop where
  /-- It is supported. -/
  handled : p.1 = true
  /-- What was found leaves the operands. -/
  leaves : (p.2.found slot).Leaves x y q

/-- What a refiner leaves of two operands in every fresh refinement of given parameters. -/
def LeavesOn (params : Params) (slot : Slot) (refiner : Refiner) (x : Element) (y : Option Element)
    (q : Remnant limit w arg) : Prop :=
  ∀ r : Refinement, r.Fresh → r.eval.params = params → r.selector = slot → r.eval.argument = y →
    (refiner x r).Returns (Left slot x y q)

/-- A refinement that settles on a finding. -/
theorem left_settle {q : Remnant limit w arg} (hr : r.Fresh) (h : f.Leaves x y q) :
    Left .first x y q (true, r.settle f) := by
  refine ⟨rfl, ?_⟩
  change ((r.settle f).found .first).Leaves x y q
  rw [found_settle hr]
  exact h

/-- A refinement that concludes without a finding leaves the operands as they are. -/
theorem left_conclude {exact : Bool} (a : WordShape limit w) (b : OperandShape limit arg)
    (hr : r.Fresh) (hslot : slot ≠ .result) :
    Left slot a.toElement b.toElement? (.words a b) (true, r.mapEval (·.conclude exact)) := by
  refine ⟨rfl, ?_⟩
  change ((r.mapEval (·.conclude exact)).found slot).Leaves _ _ _
  rw [found_conclude hr hslot]
  refine .words (by simp [Finding.keep]) rfl ?_
  simp only [Finding.secondOf, Finding.keep]
  cases b.toElement? <;> rfl

/-! ### Listed values -/

/-- What a run over listed values found so far. -/
inductive Gathered.Holds (g : Gathered) : Remnant limit w arg → Prop
  /-- Nothing is left of the values so far. -/
  | nothing (hkept : g.kept = none) (hsources : g.sources = none) : Holds g ⊥
  /-- Something is. -/
  | words {a : WordShape limit w} {b : OperandShape limit arg} (hkept : g.kept = some a.toElement)
      (hsources : g.sources = b.toElement?) :
      Holds g (.words a b)

theorem joinInto_none (limit : ℕ) (x : Element) : joinInto limit none x = .ok (x, true) := rfl

/-- The join of the values gathered so far with those of another element is that of the words. -/
theorem joinInto_toElement (a b : WordShape limit w) :
    ∃ exact, joinInto limit (some a.toElement) b.toElement = .ok ((a ⊔ b).toElement, exact) := by
  rw [joinInto, WordShape.join_toElement]
  exact ⟨_, rfl⟩

/-- The refinement of one more value is joined in. -/
theorem Gathered.Holds.add {g : Gathered} {q : Remnant limit w arg} {a : WordShape limit w}
    {b : OperandShape limit arg} (h : g.Holds q)
    (hfirst : (child.found slot).firstOf m = a.toElement)
    (hsecond : (child.found slot).secondOf y = b.toElement?) :
    ∃ g', g.add limit child slot m y = .ok g' ∧
      g'.Holds (q ⊔ .words a b) := by
  have hkept : child.refinedOr slot m = a.toElement := hfirst
  rw [Gathered.add, hkept]
  cases arg with
  | none =>
    obtain rfl : y = none := by
      cases y with
      | none => rfl
      | some o => cases hsecond
    cases h with
    | nothing h1 h2 =>
      rw [h1, joinInto_none, bot_sup_eq]
      exact ⟨_, rfl, .words rfl h2⟩
    | @words c d h1 h2 =>
      obtain ⟨exact, hj⟩ := joinInto_toElement c a
      rw [h1, hj]
      exact ⟨_, rfl, .words (a := c ⊔ a) (b := d ⊔ b) rfl h2⟩
  | some u =>
    cases y with
    | none => cases hsecond
    | some o =>
      have hsource : child.refinedOr slot.inverse o = WordShape.toElement (w := u) b :=
        Option.some.inj hsecond
      cases h with
      | nothing h1 h2 =>
        simp only [h1, joinInto_none, bot_sup_eq, hsource, h2]
        exact ⟨_, rfl, .words rfl rfl⟩
      | @words c d h1 h2 =>
        obtain ⟨exact, hj⟩ := joinInto_toElement c a
        obtain ⟨exact', hj'⟩ := joinInto_toElement (w := u) d b
        have h2 : g.sources = some (WordShape.toElement (w := u) d) := h2
        simp only [h1, hj, hsource, h2]
        refine ⟨⟨some (c ⊔ a).toElement, (d ⊔ b).toElement?, g.exact && exact && exact'⟩, ?_,
          .words rfl rfl⟩
        dsimp only [bind, Except.bind]
        rw [hj']
        rfl

/-- What was gathered over all values of a list is left of the list. -/
theorem Gathered.Holds.gather {g : Gathered} {q : Remnant limit w arg} (h : g.Holds q)
    (hr : Running params slot y r) (hslot : slot ≠ .result) (hy : IsOperand limit arg y) :
    Left slot x y q (true, r.gather g) := by
  refine ⟨rfl, ?_⟩
  change ((r.gather g).found slot).Leaves x y q
  cases h with
  | nothing h1 h2 =>
    rw [found_gather hr hslot fun _ => h2]
    exact .nothing (by simp [h1])
  | words h1 h2 =>
    rw [found_gather hr hslot (by simp [h1])]
    refine .words (by simp [h1]) (by simp [Finding.firstOf, h1]) ?_
    rw [Finding.secondOf, h2]
    cases arg with
    | none =>
      rw [hy.eq_none]
      rfl
    | some u =>
      obtain ⟨t, rfl, -⟩ := hy.exists_word
      rfl

/-- A run over listed values leaves the join of what they leave. -/
theorem Gathered.Holds.byMembers {refiner : Refiner} {g : Gathered} {q₀ : Remnant limit w arg}
    (q : ℤ → Remnant limit w arg) (vs : List ℤ) (h : g.Holds q₀) (hr : Running params slot y r)
    (hslot : slot ≠ .result) (hy : IsOperand limit arg y)
    (hrefiner : ∀ v ∈ vs, LeavesOn params slot refiner (.wordConstant w v) y (q v)) :
    (byMembers limit refiner (vs.map (.wordConstant w)) g r).Returns
      (Left slot x y ((vs.map q).foldl (· ⊔ ·) q₀)) := by
  induction vs generalizing g r q₀ with
  | nil => exact Traced.returns_pure (h.gather hr hslot hy)
  | cons v vs ih =>
    obtain ⟨h1, h2, hempty, hparams, rfl, rfl⟩ := hr
    refine (hrefiner v List.mem_cons_self _ (r.fresh_fork _ _) hparams rfl rfl).bind ?_
    rintro ⟨handled, child⟩ ⟨rfl, hleaves⟩
    have hrun : Running params r.selector r.eval.argument (r.absorbBranch child) :=
      ⟨h1, h2, hempty, hparams, rfl, rfl⟩
    have hrefiner' := fun v hv => hrefiner v (List.mem_cons_of_mem _ hv)
    simp only [Bool.not_true, Bool.false_eq_true, if_false, List.map_cons, List.foldl_cons]
    generalize q v = p at hleaves
    cases hleaves with
    | nothing hdead =>
      have hdead : child.eval.empty = true := by simpa [found] using hdead
      rw [if_pos hdead, sup_bot_eq]
      exact ih h hrun hrefiner'
    | words hlive hfirst hsecond =>
      have hlive : child.eval.empty = false := by simpa [found] using hlive
      obtain ⟨g', hg', h'⟩ := h.add hfirst hsecond
      rw [if_neg (by simp [hlive])]
      refine (Traced.returns_lift hg' rfl).bind ?_
      rintro _ rfl
      exact ih h' hrun hrefiner'

/-- A list in charge leaves the join of what its values leave. -/
theorem leavesOn_list {refiner : Refiner} {vs : List ℤ} {q : ℤ → Remnant limit w arg}
    (hy : IsOperand limit arg y) (hslot : slot ≠ .result)
    (hrefiner : ∀ v ∈ vs, LeavesOn params slot refiner (.wordConstant w v) y (q v)) :
    LeavesOn params slot (byKind limit op z refiner) (.word w (.disjunction vs)) y
      ((vs.map q).foldl (· ⊔ ·) ⊥) := by
  intro r hr hparams hselector hargument
  have hkind : byKind limit op z refiner (.word w (.disjunction vs)) r =
      r.byMembers limit refiner (vs.map (Element.wordConstant w)) {} := by
    cases w <;> rfl
  rw [hkind]
  exact (Gathered.Holds.nothing rfl rfl).byMembers q vs
    ⟨hr.first, hr.second, hr.eval.empty, hparams, hselector, hargument⟩ hslot hy hrefiner

/-! ### Ranges and hand-overs -/

/-- A word in charge settles on the finding of the ranges. -/
theorem byRanges_left {q : Remnant limit w arg} (hr : r.Fresh) (hoperands : r.operands m = (x, y))
    (hf : Finding.ofWords? limit r.eval.params.stops op x y z = .ok (some f))
    (h : f.Leaves x y q) : (r.byRanges limit op z m).Returns (Left .first x y q) := by
  rw [byRanges, hoperands]
  refine (Traced.returns_lift hf rfl).bind ?_
  rintro _ rfl
  exact Traced.returns_pure (left_settle hr h)

/-- It declines if the ranges say nothing. -/
theorem byRanges_declines (hoperands : r.operands m = (x, y))
    (hnone : Finding.ofWords? limit r.eval.params.stops op x y z = .ok none) :
    (r.byRanges limit op z m).Returns (· = (false, r)) := by
  rw [byRanges, hoperands]
  refine (Traced.returns_lift hnone rfl).bind ?_
  rintro _ rfl
  exact Traced.returns_pure rfl

/-- What is left, seen from the other operand. -/
theorem Left.swap {o : Element} {q : Remnant limit w (some u)} {p : Bool × Refinement}
    (h : Left slot x (some o) q p) : Left slot.inverse o (some x) q.swap p := by
  have hfound : p.2.found slot.inverse = (p.2.found slot).swap := by cases slot <;> rfl
  refine ⟨h.handled, ?_⟩
  rw [hfound]
  exact h.leaves.swap

/-- What was left while the other operand was in charge. -/
theorem left_absorb {o : Element} {q : Remnant limit u (some w)} (hr : r.Fresh)
    (hslot : slot ≠ .result) (h : Left slot.inverse o (some x) q (true, child)) :
    Left slot x (some o) q.swap (true, r.absorb child) := by
  refine ⟨rfl, ?_⟩
  change ((r.absorb child).found slot).Leaves x (some o) q.swap
  obtain ⟨-, hleaves⟩ := h
  rw [found_absorb hr hslot]
  cases hleaves with
  | nothing hdead =>
    rw [if_pos (by simpa [found] using hdead)]
    exact .nothing rfl
  | words hlive hfirst hsecond =>
    rw [if_neg (by simpa [found] using hlive)]
    exact (Finding.Leaves.words hlive hfirst hsecond).swap

end Refinement

namespace Element

open Refinement

variable {deeper deepest : Option Refiner}

/-- A refinement that is given up leaves the operands as they are. -/
theorem enter_none_leaves (a : WordShape limit w) (b : OperandShape limit arg)
    (hslot : slot ≠ .result) :
    LeavesOn params slot (enter op z none) a.toElement b.toElement? (.words a b) := by
  intro r hr _ _ _
  exact Traced.returns_session ((Traced.returns_record _).bind fun _ _ =>
    Traced.returns_pure (left_conclude a b hr hslot))

/-- A session leaves what the refinement in it leaves, unless the element goes through an
interval. -/
theorem enter_leaves {refiner : Refiner} {q : Remnant limit w arg}
    (hthrough : x.throughInterval? = none) (h : LeavesOn params slot refiner x y q) :
    LeavesOn params slot (enter op z (some refiner)) x y q := by
  intro r hr hparams hselector hargument
  refine Traced.returns_session ?_
  rw [hthrough]
  exact h r hr hparams hselector hargument

/-- The element in charge does not hand over. -/
theorem attemptWith_leaves {q : Remnant limit w arg}
    (h : LeavesOn params slot (byKind limit op z (enter op z deeper)) x y q) :
    LeavesOn params slot (attemptWith limit op z deeper deepest) x y q := by
  intro r hr hparams hselector hargument
  refine (h r hr hparams hselector hargument).bind ?_
  rintro ⟨handled, r'⟩ hleft
  cases hleft.handled
  exact Traced.returns_pure hleft

/-- The element in charge declines, and the other operand takes over. -/
theorem attemptWith_leaves_swap {o : Element} {q : Remnant limit u (some w)}
    (hslot : slot ≠ .result)
    (hthrough : o.throughInterval? = none)
    (hdeclines : ∀ r : Refinement, r.selector = slot → r.eval.argument = some o →
      (byKind limit op z (enter op z deeper) x r).Returns (· = (false, r)))
    (h : LeavesOn params slot.inverse (byKind limit op z (enter op z deepest)) o (some x) q) :
    LeavesOn params slot (attemptWith limit op z deeper deepest) x (some o) q.swap := by
  intro r hr hparams hselector hargument
  refine (hdeclines r hselector hargument).bind ?_
  rintro _ rfl
  simp only [hargument, hthrough, hselector]
  refine (h _ (r.fresh_fork _ _) hparams rfl rfl).bind ?_
  rintro ⟨handled, child⟩ hleft
  cases hleft.handled
  refine (Traced.returns_record _).bind fun _ _ => ?_
  exact Traced.returns_pure (left_absorb hr hslot hleft)

end Element

/-! ### Trials -/

namespace Remnant

/-- What is left when the values of some pairs are: the least words around them. -/
inductive Spans (K : Set (ℤ × ℤ)) : Remnant limit w arg → Prop
  /-- There is no pair. -/
  | nothing (h : K = ∅) : Spans K ⊥
  /-- Each operand is the join of its values. -/
  | words {a : WordShape limit w} {b : OperandShape limit arg} (h : K.Nonempty)
      (ha : IsLUB {c | ∃ p ∈ K, c.toElement = .wordConstant w p.1} a)
      (hb : IsLUB {d | ∃ p ∈ K, d.toElement? = operandConstant arg p.2} b) : Spans K (.words a b)

/-- Fewer pairs span less. -/
theorem Spans.mono {K K' : Set (ℤ × ℤ)} {q q' : Remnant limit w arg} (h : Spans K q)
    (h' : Spans K' q') (hsub : K ⊆ K') : q ≤ q' := by
  cases h with
  | nothing h => exact bot_le
  | words hne ha hb =>
    cases h' with
    | nothing h => exact absurd (h ▸ hne.mono hsub) Set.not_nonempty_empty
    | words _ ha' hb' =>
      exact WithBot.coe_le_coe.mpr
        ⟨ha.mono ha' fun c ⟨p, hp, hc⟩ => ⟨p, hsub hp, hc⟩,
          hb.mono hb' fun d ⟨p, hp, hd⟩ => ⟨p, hsub hp, hd⟩⟩

end Remnant

namespace WordShape

/-- Words are joined to their least upper bound. -/
theorem joinAll_isLUB {xs : List Element} (hxs : ∀ e ∈ xs, e.IsWord limit w) (hne : xs ≠ []) :
    ∃ j : WordShape limit w, ∃ exact, Element.joinAll limit xs = .ok (some (j.toElement, exact)) ∧
      IsLUB {c | c.toElement ∈ xs} j := by
  lift xs to List (WordShape limit w) using hxs
  cases xs with
  | nil => exact absurd rfl hne
  | cons a as =>
    have hfold : ∀ exact : Bool, ∃ exact', (as.map toElement).foldlM
        (fun (acc : Element × Bool) y => do
          let next ← acc.1.join limit y
          return (next, acc.2 && acc.1.isExactJoin limit y next)) (a.toElement, exact) =
            (.ok ((as.foldl (· ⊔ ·) a).toElement, exact') : Except Fault (Element × Bool)) := by
      clear hne
      induction as generalizing a with
      | nil => exact fun exact => ⟨exact, rfl⟩
      | cons b as ih =>
        intro exact
        rw [List.map_cons, List.foldlM_cons, join_toElement]
        exact ih (a ⊔ b) _
    obtain ⟨exact, hjoin⟩ := hfold true
    refine ⟨as.foldl (· ⊔ ·) a, exact, ?_, ?_⟩
    · rw [List.map_cons, Element.joinAll, hjoin]
      rfl
    · refine isLUB_iff_le_iff.mpr fun c => foldl_sup_le.trans ?_
      refine forall_congr' fun d => imp_congr_left ?_
      exact (List.mem_map_of_injective toElement_injective).symm

/-- The values of a word that occur in some pairs, joined and met with the word. -/
theorem refineWith_joinAll {xs : List Element} {kept : List (ℤ × ℤ)} (side : ℤ × ℤ → ℤ)
    (a : WordShape limit w) (hxs : ∀ e, e ∈ xs ↔ ∃ p ∈ kept, e = .wordConstant w (side p))
    (hkept : ∀ p ∈ kept, side p ∈ a.toElement.values) (hne : kept ≠ []) :
    ∃ j : WordShape limit w, ∃ exact c,
      Element.joinAll limit xs = .ok (some (j.toElement, exact)) ∧
      a.toElement.refineWith limit j.toElement = .ok (some c) ∧
      c.getD a.toElement = j.toElement ∧
      IsLUB {c | ∃ p ∈ kept, c.toElement = .wordConstant w (side p)} j := by
  have hcontains : ∀ p ∈ kept, w.view.contains (side p) = true := fun p hp =>
    a.wellFormed.proper.contains (hkept p hp)
  have hwords : ∀ e ∈ xs, e.IsWord limit w := fun e he => by
    obtain ⟨p, hp, rfl⟩ := (hxs e).mp he
    exact Element.isWord_wordConstant (hcontains p hp)
  obtain ⟨p, hp⟩ := List.exists_mem_of_ne_nil kept hne
  obtain ⟨j, exact, hj, hlub⟩ :=
    joinAll_isLUB hwords (List.ne_nil_of_mem ((hxs _).mpr ⟨p, hp, rfl⟩))
  have hset : {c : WordShape limit w | c.toElement ∈ xs} =
      {c | ∃ p ∈ kept, c.toElement = .wordConstant w (side p)} := Set.ext fun c => hxs c.toElement
  rw [hset] at hlub
  -- all of them are below the word, so the meet changes nothing
  have hle : j ≤ a := by
    refine hlub.2 ?_
    rintro ⟨s, hs⟩ ⟨p, hp, hc⟩
    rw [Element.wordConstant_eq (hcontains p hp)] at hc
    cases hc
    cases Element.constant_below (w := w) (hkept p hp) with
    | word h => exact h
  have hmeet : a.meet j = j := inf_eq_right.mpr (WithBot.coe_le_coe.mpr hle)
  rcases a.refineWith_cases j with ⟨-, hbot⟩ | ⟨c, m, hc, hm, heq⟩
  · rw [hmeet] at hbot
    exact absurd hbot WithBot.coe_ne_bot
  · rw [hmeet, WithBot.coe_inj] at heq
    exact ⟨j, exact, c, hj, hc, heq ▸ hm, hlub⟩

end WordShape

namespace Refinement

/-- What is left of the operands after a trial. -/
theorem survivors_leaves {R : ℤ → ℤ → Prop} {P : Prop} {kept : List (ℤ × ℤ)} {xs ys : List Element}
    (a : WordShape limit w) (b : OperandShape limit arg)
    (h : Tried w arg R P a.toElement b.toElement? kept xs ys) :
    ∃ f, ∃ q : Remnant limit w arg, survivors limit a.toElement b.toElement? xs ys = .ok f ∧
      f.Leaves a.toElement b.toElement? q ∧ q.Spans {p | p ∈ kept} := by
  obtain ⟨hkept, -, -, hxs, hys⟩ := h
  by_cases hne : kept = []
  · subst hne
    have hnil : xs = [] :=
      List.eq_nil_iff_forall_not_mem.mpr fun e he => by simpa using (hxs e).mp he
    subst hnil
    exact ⟨.dead, ⊥, rfl, .nothing rfl, .nothing (by simp)⟩
  have hpairs : {p | p ∈ kept}.Nonempty := List.exists_mem_of_ne_nil kept hne
  obtain ⟨j, exact, c, hj, hc, hleft, hlub⟩ :=
    a.refineWith_joinAll Prod.fst hxs (fun p hp => (hkept p hp).1) hne
  rw [survivors, hj]
  dsimp only [bind, Except.bind]
  rw [hc]
  cases arg with
  | none =>
    have hnil : ys = [] :=
      List.eq_nil_iff_forall_not_mem.mpr fun e he => by simpa [operandConstant] using (hys e).mp he
    subst hnil
    exact ⟨_, .words j b, rfl, .words (by simp) hleft rfl,
      .words hpairs hlub ⟨fun _ _ => le_rfl, fun _ _ => le_rfl⟩⟩
  | some u =>
    have hys : ∀ e, e ∈ ys ↔ ∃ p ∈ kept, e = .wordConstant u p.2 := by
      simpa [operandConstant, eq_comm] using hys
    obtain ⟨j', exact', c', hj', hc', hleft', hlub'⟩ :=
      WordShape.refineWith_joinAll (w := u) Prod.snd b hys (fun p hp => (hkept p hp).2) hne
    rw [hj']
    dsimp only [OperandShape.toElement?]
    rw [hc']
    have hset : {c : WordShape limit u | ∃ p ∈ kept, c.toElement = .wordConstant u p.2} =
        {c | ∃ p ∈ kept, some c.toElement = operandConstant (some u) p.2} := by
      simp [operandConstant]
    rw [hset] at hlub'
    exact ⟨_, .words j j', rfl, .words (by simp) hleft (congrArg some hleft'),
      .words hpairs hlub hlub'⟩

/-- What a trial leaves of two words if a relation tells which pairs are kept: the least words
around the admitted pairs, or all of the words if they cannot be listed. -/
structure Sifted (R : ℤ → ℤ → Prop) (a : WordShape limit w) (b : OperandShape limit arg)
    (q : Remnant limit w arg) : Prop where
  /-- The words can be listed. -/
  spans : Listable limit a.toElement b.toElement? → q.Spans
    {p | (p.1 ∈ a.toElement.values ∧ p.2 ∈ operandValues b.toElement?) ∧ R p.1 p.2}
  /-- They cannot. -/
  all : ¬Listable limit a.toElement b.toElement? → q = .words a b

/-- A relation that admits fewer pairs leaves less. -/
theorem Sifted.mono {R R' : ℤ → ℤ → Prop} {a : WordShape limit w} {b : OperandShape limit arg}
    {q q' : Remnant limit w arg} (h : Sifted R a b q) (h' : Sifted R' a b q')
    (hR : ∀ i j, R i j → R' i j) : q ≤ q' := by
  by_cases hlist : Listable limit a.toElement b.toElement?
  · exact (h.spans hlist).mono (h'.spans hlist) fun p hp => ⟨hp.1, hR p.1 p.2 hp.2⟩
  · rw [h.all hlist, h'.all hlist]

/-- A trial with levels of nesting left keeps the pairs that reach the result. -/
theorem byTrial_left (h : op.Accepts w arg out) (hz : z.IsWord limit out) (a : WordShape limit w)
    (b : OperandShape limit arg) (hr : r.Fresh) (hbudget : 2 ≤ r.eval.budget)
    (hoperands : r.operands m = (a.toElement, b.toElement?)) :
    (r.byTrial limit op z m).Returns fun p => ∃ q : Remnant limit w arg,
      Left .first a.toElement b.toElement? q p ∧ Sifted
        (op.Reaches r.eval.params.stops w.view (arg.getD w).view out.view z.values) a b q := by
  refine byTrial_returns h hz (Element.isWord_word a.wellFormed) b.isOperand hoperands
    (fun hmany => ?_) fun hlist kept xs ys htried => ?_
  · exact ⟨_, left_conclude a b hr (by simp), fun hlist => absurd hlist hmany, fun _ => rfl⟩
  · obtain ⟨f, q, hf, hleaves, hspans⟩ := survivors_leaves a b htried
    refine ⟨f, hf, q, left_settle hr hleaves, fun _ => ?_, fun hmany => absurd hlist hmany⟩
    have hset : {p | p ∈ kept} = {p | (p.1 ∈ a.toElement.values ∧
        p.2 ∈ operandValues b.toElement?) ∧
          op.Reaches r.eval.params.stops w.view (arg.getD w).view out.view z.values p.1 p.2} :=
      Set.ext fun p => ⟨fun hp => ⟨htried.values p hp, htried.tight hbudget p hp⟩,
        fun hp => htried.keeps p.1 hp.1.1 p.2 hp.1.2 hp.2⟩
    exact hset ▸ hspans

end Refinement

end ScalarDomain
