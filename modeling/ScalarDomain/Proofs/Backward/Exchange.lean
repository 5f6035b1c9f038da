import ScalarDomain.Proofs.Backward.Leftover

/-!
# Operands in exchange

A backward refinement may put either operand of a binary operation in charge. On integers, with four
levels of nesting, both ways leave the same values of both operands (`Element.constrain_exchanges`).

What is left of two words is `Operation.remains`, joined over the values of lists. A list in charge
joins what its values leave; a word that is no list solves on ranges, or hands over to a list, whose
values do. So two levels below the hand-over are enough, and three if both operands are lists. The
only other difference is that a top in charge goes through the interval of all values
(`WordShape.through`). This keeps joins, so it may be put off to the end, where the values are read.
-/

namespace ScalarDomain

variable {limit : ℕ} {op : Operation} {w u out : WordType} {t s : IntType} {params : Params}
  {slot : Slot} {stops : Bool}

/-! ### Tops and full intervals -/

namespace WordShape

/-- The interval of all values. -/
def full (limit : ℕ) (t : IntType) : WordShape limit (.int t) where
  shape := .interval t.full
  wellFormed := Shape.wellFormed_full t

/-- The word that takes charge: a top goes through the interval of all values. -/
def through (a : WordShape limit (.int t)) : WordShape limit (.int t) :=
  if a.shape = .top then full limit t else a

theorem through_toElement (a : WordShape limit (.int t)) :
    a.through.toElement = a.toElement.throughInterval?.getD a.toElement := by
  obtain ⟨p, hp⟩ := a
  cases p <;> rfl

theorem through_of_top {a : WordShape limit (.int t)} (h : a.shape = .top) :
    a.through = full limit t :=
  if_pos h

theorem through_of_ne_top {a : WordShape limit (.int t)} (h : a.shape ≠ .top) : a.through = a :=
  if_neg h

/-- Both shapes stand for all values of the type. -/
theorem values_through (a : WordShape limit (.int t)) :
    a.through.toElement.values = a.toElement.values := by
  rw [through_toElement, Element.values_throughInterval]

theorem le_full {a : WordShape limit (.int t)} (h : a.shape ≠ .top) : a ≤ full limit t := by
  refine Shape.below_of_not_isEnumerated (fun v hv => ?_) h Shape.not_isEnumerated_interval
  have hv : v ∈ a.toElement.values := hv
  have htop : v ∈ (Element.word (.int t) .top).values := Shape.contains_top.mpr (contains_of_mem hv)
  rw [← Element.values_fullInterval] at htop
  exact htop

theorem through_le_full (a : WordShape limit (.int t)) : a.through ≤ full limit t := by
  rw [through]
  split
  · exact le_rfl
  · next h => exact le_full h

/-- A join is a top only if one of the words is, and then both sides are the interval of all
values. -/
theorem through_sup (a b : WordShape limit (.int t)) :
    (a ⊔ b).through = a.through ⊔ b.through := by
  by_cases ha : a.shape = .top
  · have htop : (a ⊔ b).shape = .top := Shape.Below.eq_top (show a ≤ a ⊔ b from le_sup_left) ha
    rw [through_of_top htop, through_of_top ha, sup_eq_left.mpr b.through_le_full]
  by_cases hb : b.shape = .top
  · have htop : (a ⊔ b).shape = .top := Shape.Below.eq_top (show b ≤ a ⊔ b from le_sup_right) hb
    rw [through_of_top htop, through_of_top hb, sup_eq_right.mpr a.through_le_full]
  have hsup : (a ⊔ b).shape ≠ .top := fun h => by
    cases Shape.Below.eq_top (show a ⊔ b ≤ full limit t from sup_le (le_full ha) (le_full hb)) h
  rw [through_of_ne_top hsup, through_of_ne_top ha, through_of_ne_top hb]

theorem through_through (a : WordShape limit (.int t)) : a.through.through = a.through := by
  refine through_of_ne_top ?_
  rw [through]
  split
  · simp [full]
  · next h => exact h

theorem through_coe (a : WordShape limit (.int t)) :
    (WithBot.some a.through).map through = (WithBot.some a).map through :=
  congrArg WithBot.some a.through_through

theorem pieces_through (a : WordShape limit (.int t)) :
    a.through.pieces = a.pieces.map through := by
  obtain ⟨p, hp⟩ := a
  cases p with
  | disjunction vs => simp [pieces, through, single]
  | _ => rfl

/-- The solvers on ranges see no difference, since they read the bounds only. -/
theorem bounds_through (a : WordShape limit (.int t)) :
    a.through.shape.bounds t = a.shape.bounds t := by
  obtain ⟨p, hp⟩ := a
  cases p <;> rfl

/-- What is restricted, whether or not it is the word itself. -/
private theorem part_eq_elim (zero : Bool) (a : WordShape limit w) :
    a.part zero = (if zero then a.toElement.zeroPart?
      else (a.toElement.nonzeroPart? limit).map Prod.fst).elim ⊥ ofElement := by
  have hsame : ∀ e : Element, (if e == a.toElement then none else some e).getD a.toElement = e := by
    intro e
    split
    · next h => exact (Element.eq_word_of_beq h).symm
    · rfl
  rw [part, Element.restrict?]
  cases zero with
  | true =>
    cases h : a.toElement.zeroPart? with
    | none => rfl
    | some e => exact congrArg ofElement (hsame e)
  | false =>
    cases h : a.toElement.nonzeroPart? limit with
    | none => rfl
    | some q => exact congrArg ofElement (hsame q.1)

/-- A top and the interval of all values have the same parts with zero and without it. -/
theorem part_through (zero : Bool) (a : WordShape limit (.int t)) :
    a.through.part zero = a.part zero := by
  obtain ⟨p, hp⟩ := a
  cases p with
  | top =>
    have htop : (Shape.top).contains t 0 = true := Shape.contains_top.mpr t.contains_zero
    have hfull : (Shape.interval t.full).contains t 0 = true := by
      change 0 ∈ (Element.fullInterval t).values
      rw [Element.values_fullInterval]
      exact htop
    have hsummary : ¬(Element.word (.int t) .top).summary.isNonzero = true := fun hall => by
      simpa using (Element.summary_all_iff (Element.isWord_word hp) false).mp hall 0 htop
    rw [part_eq_elim, part_eq_elim]
    refine congrArg (Option.elim · _ _) ?_
    cases zero with
    | true => exact (if_pos hfull).trans (if_pos htop).symm
    | false =>
      -- both have the same bounds
      refine congrArg (Option.map Prod.fst) ?_
      exact (if_neg hsummary).trans (if_neg hsummary).symm
  | _ => rfl

/-- Within a range, a top and the interval of all values leave the same, up to that replacement. -/
theorem clip_through (a : WordShape limit (.int t)) (r : Option Range) :
    (a.through.clip r).map through = (a.clip r).map through := by
  by_cases htop : a.shape = .top
  swap
  · rw [through_of_ne_top htop]
  cases r with
  | none => exact a.through_coe
  | some r =>
    -- what is within a range is an interval or a constant
    have hbox : box limit (.int t) r ≤ full limit t := by
      rw [box]
      split
      · refine WithBot.coe_le_coe.mpr (le_full ?_)
        simp only [clamp, WordType.rangeShape]
        split <;> simp
      · exact bot_le
    have hfull : full limit t ≤ a := by
      refine Shape.below_of_not_isEnumerated (fun v hv => ?_) (by simp [full]) ?_
      · exact htop ▸ Shape.contains_top.mpr (contains_of_mem (a := full limit t) hv)
      · exact htop ▸ Shape.not_isEnumerated_top
    rw [clip, clip, through_of_top htop, inf_eq_right.mpr hbox,
      inf_eq_right.mpr (hbox.trans (WithBot.coe_le_coe.mpr hfull))]

end WordShape

/-- A map that keeps joins still does with a bottom below. -/
private theorem map_sup_withBot {α β : Type} [SemilatticeSup α] [SemilatticeSup β] {g : α → β}
    (h : ∀ a b, g (a ⊔ b) = g a ⊔ g b) (p q : WithBot α) :
    (p ⊔ q).map g = p.map g ⊔ q.map g :=
  (SupHom.withBot ⟨g, h⟩).map_sup' p q

namespace Remnant

/-- What is left, tops replaced by intervals. -/
def through : Remnant limit (.int t) (some (.int s)) → Remnant limit (.int t) (some (.int s)) :=
  WithBot.map fun p => (p.1.through, WordShape.through p.2)

theorem through_sup (p q : Remnant limit (.int t) (some (.int s))) :
    (p ⊔ q).through = p.through ⊔ q.through :=
  map_sup_withBot (fun p q => Prod.ext (p.1.through_sup q.1) (WordShape.through_sup p.2 q.2)) p q

theorem through_joined {α : Type} (f : α → Remnant limit (.int t) (some (.int s))) (l : List α) :
    (joined f l).through = joined (fun i => (f i).through) l :=
  map_joined through rfl through_sup f l

theorem through_pair {p p' : WithBot (WordShape limit (.int t))}
    {q q' : WithBot (WordShape limit (.int s))}
    (hp : p.map WordShape.through = p'.map WordShape.through)
    (hq : q.map WordShape.through = q'.map WordShape.through) :
    (@pair limit (.int t) (some (.int s)) p q).through =
      (@pair limit (.int t) (some (.int s)) p' q').through := by
  have hpair : ∀ p : WithBot (WordShape limit (.int t)), ∀ q : WithBot (WordShape limit (.int s)),
      (@pair limit (.int t) (some (.int s)) p q).through =
        @pair limit (.int t) (some (.int s)) (p.map WordShape.through)
          (q.map WordShape.through) := by
    intro p q
    cases p <;> cases q <;> rfl
  calc (@pair limit (.int t) (some (.int s)) p q).through
    _ = pair (p.map WordShape.through) (q.map WordShape.through) := hpair p q
    _ = pair (p'.map WordShape.through) (q'.map WordShape.through) := by
        exact congrArg₂ (@pair limit (.int t) (some (.int s))) hp hq
    _ = (pair p' q').through := (hpair p' q').symm

theorem swap_swap (q : Remnant limit w (some u)) : q.swap.swap = q := by
  cases q <;> rfl

theorem swap_sup (p q : Remnant limit w (some u)) : (p ⊔ q).swap = p.swap ⊔ q.swap :=
  map_sup_withBot (fun _ _ => rfl) p q

theorem swap_joined {α : Type} (f : α → Remnant limit w (some u)) (l : List α) :
    (joined f l).swap = joined (fun i => (f i).swap) l :=
  map_joined swap rfl swap_sup f l

end Remnant

namespace Connective

open Remnant

/-- What a connective leaves does not depend on whether a top or the interval of all values is
given. -/
theorem leftover_through (c : Connective) (z : Element) (a : WordShape limit (.int t))
    (b : WordShape limit (.int s)) :
    (c.leftover z a.through b.through).through = (c.leftover z a b).through := by
  have hboth : ∀ zero, cutBoth zero a.through b.through = cutBoth zero a b := fun zero => by
    rw [cutBoth, cutBoth, a.part_through, b.part_through]
  have hone : ∀ zero, (cutOne zero a.through b.through).through = (cutOne zero a b).through := by
    intro zero
    rw [cutOne, cutOne, through_sup, through_sup, a.part_through, b.part_through]
    exact congrArg₂ (· ⊔ ·) (through_pair rfl b.through_coe) (through_pair a.through_coe rfl)
  rcases hk : z.knownBit? with _ | _ | _ <;> rcases c with _ | _ <;> simp only [leftover, hk]
  · exact through_pair a.through_coe b.through_coe
  · exact through_pair a.through_coe b.through_coe
  · exact hone true
  · rw [hboth]
  · rw [hboth]
  · exact hone false

end Connective

namespace Operation

/-- Nor does what any operation leaves of words that are not split. -/
theorem leftover_through (stops : Bool) (op : Operation) (z : WordShape limit out)
    (a : WordShape limit (.int t)) (b : WordShape limit (.int s)) :
    (op.leftover stops z a.through b.through).through = (op.leftover stops z a b).through := by
  have hranges : (op.leftoverOnRanges stops z a.through b.through).through =
      (op.leftoverOnRanges stops z a b).through := by
    rw [leftoverOnRanges, leftoverOnRanges]
    have ha := a.bounds_through
    have hb := b.bounds_through
    dsimp only [WordType.view] at *
    rw [ha, hb]
    generalize Narrowing.solve stops op _ = n
    cases n with
    | impossible => rfl
    | within r r' exact => exact Remnant.through_pair (a.clip_through r) (b.clip_through r')
  cases op with
  | connective c => exact c.leftover_through z.toElement a b
  | _ => exact hranges

/-- Nor does what is left when lists are split into their values. -/
theorem remains_through (stops : Bool) (op : Operation) (z : WordShape limit out)
    (a : WordShape limit (.int t)) (b : WordShape limit (.int s)) :
    (op.remains stops z a.through b.through).through = (op.remains stops z a b).through := by
  simp only [remains, Remnant.through_joined, WordShape.pieces_through, joined_map,
    leftover_through]

end Operation

/-! ### Either operand in charge -/

namespace Refinement

/-- Words solve on ranges, with one of them in charge, or decline because one of them is a list. -/
def RangesLeave (params : Params) (op : Operation) (z : Element) (slot : Slot)
    (a : WordShape limit w) (b : WordShape limit u) (q : Remnant limit w (some u)) : Prop :=
  LeavesOn params slot (fun x r => r.byRanges limit op z x) a.toElement (some b.toElement) q ∨
  (∀ r : Refinement, r.selector = slot → r.eval.argument = some b.toElement →
    (r.byRanges limit op z a.toElement).Returns (· = (false, r))) ∧
      HasList a.toElement (some b.toElement)

/-- The first word is in charge of the ranges. -/
theorem rangesLeave_first (h : op.Fits w (some u) out) (z : WordShape limit out)
    (a : WordShape limit w) (b : WordShape limit u) :
    RangesLeave params op z.toElement .first a b (op.remains params.stops z a b) := by
  rcases Finding.finds_remains params.stops h z a b with hfinds | ⟨hnone, hlist⟩
  · exact .inl (byRanges_leaves_first hfinds)
  · exact .inr ⟨fun r hselector hargument =>
      byRanges_declines (operands_first hselector hargument) (hnone _), hlist⟩

/-- The second word is in charge, which swaps what is left. -/
theorem rangesLeave_second (h : op.Fits w (some u) out) (z : WordShape limit out)
    (a : WordShape limit w) (b : WordShape limit u) :
    RangesLeave params op z.toElement .second b a (op.remains params.stops z a b).swap := by
  rcases Finding.finds_remains params.stops h z a b with hfinds | ⟨hnone, hlist⟩
  · exact .inl (byRanges_leaves_second hfinds)
  · exact .inr ⟨fun r hselector hargument =>
      byRanges_declines (operands_second hselector hargument) (hnone _), hlist.swap⟩

/-- What is left of two words, whichever of them is in charge and however lists are split. -/
structure Exchanges (limit : ℕ) (params : Params) (op : Operation) (z : Element) (slot : Slot)
    (R : WordShape limit w → WordShape limit u → Remnant limit w (some u)) : Prop where
  /-- It may be found value by value of the operand in charge. -/
  left : ∀ a b, R a b = joined (fun a' => R a' b) a.pieces
  /-- And of the other one. -/
  right : ∀ a b, R a b = joined (R a) b.pieces
  /-- It is left if the first word is in charge. -/
  own : ∀ a b, RangesLeave params op z slot a b (R a b)
  /-- And if the second one is. -/
  other : ∀ a b, RangesLeave params op z slot.inverse b a (R a b).swap

/-- What an operation leaves does not depend on the operand in charge. -/
theorem exchanges_first (params : Params) (h : op.Fits w (some u) out) (z : WordShape limit out) :
    Exchanges limit params op z.toElement .first (op.remains (w := w) (u := u) params.stops z) where
  left a b := op.remains_eq_joined_left params.stops z a b
  right a b := op.remains_eq_joined_right params.stops z a b
  own a b := rangesLeave_first h z a b
  other a b := rangesLeave_second h z a b

namespace Exchanges

variable {z : Element} {R : WordShape limit w → WordShape limit u → Remnant limit w (some u)}
  {deeper deepest : Option Refiner} {refiner : Refiner}

/-- The other operand may be named first. -/
theorem swap (h : Exchanges limit params op z slot R) :
    Exchanges limit params op z slot.inverse fun b a => (R a b).swap where
  left b a := (congrArg Remnant.swap (h.right a b)).trans (Remnant.swap_joined _ _)
  right b a := (congrArg Remnant.swap (h.left a b)).trans (Remnant.swap_joined _ _)
  own b a := h.other a b
  other b a := by
    have hslot : slot.inverse.inverse = slot := by cases slot <;> rfl
    rw [Remnant.swap_swap, hslot]
    exact h.own a b

end Exchanges

end Refinement

namespace Element

open Refinement

variable {z : Element} {deeper deepest : Option Refiner} {refiner : Refiner}

/-- A list in charge leaves what its values leave. -/
theorem byKind_leaves_list {R : WordShape limit w → WordShape limit u → Remnant limit w (some u)}
    {a : WordShape limit w} {b : WordShape limit u} (h : Exchanges limit params op z slot R)
    (hslot : slot ≠ .result) (ha : a.toElement.IsListed)
    (hrefiner : ∀ v, LeavesOn params slot refiner (WordShape.single limit w v).toElement
      (some b.toElement) (R (.single limit w v) b)) :
    LeavesOn params slot (byKind limit op z refiner) a.toElement (some b.toElement) (R a b) := by
  obtain ⟨vs, hvs⟩ := WordShape.exists_list ha
  rw [h.left a b, WordShape.pieces_of_shape_eq hvs, joined_map, WordShape.toElement, hvs]
  have hb : IsOperand limit (some u) (some b.toElement) := b.isWord
  refine leavesOn_list (q := fun v => R (.single limit w v) b) hb hslot fun v hv => ?_
  rw [← WordShape.single_toElement
    (WordShape.contains_of_mem ((WordShape.mem_values_iff_mem hvs).mpr hv))]
  exact hrefiner v

section

variable {R : WordShape limit (.int t) → WordShape limit (.int s) →
  Remnant limit (.int t) (some (.int s))} {a : WordShape limit (.int t)}
  {b : WordShape limit (.int s)}

/-- A word that is no list leaves what the ranges leave. If the other one is a list it may hand
over, and the values of the list do. -/
theorem attemptWith_leaves_unlisted (h : Exchanges limit params op z slot R)
    (hslot : slot ≠ .result) (ha : ¬a.toElement.IsListed)
    (hmembers : b.toElement.IsListed → ∀ v, LeavesOn params slot.inverse (enter op z deepest)
      (WordShape.single limit (.int s) v).toElement (some a.toElement)
      (R a (.single limit (.int s) v)).swap) :
    LeavesOn params slot (attemptWith limit op z deeper deepest) a.toElement (some b.toElement)
      (R a b) := by
  rcases h.own a b with hranges | ⟨hdeclines, hlist⟩
  · refine attemptWith_leaves fun r hr hparams hselector hargument => ?_
    rw [WordShape.toElement, byKind_word ha]
    exact hranges r hr hparams hselector hargument
  · have hb : b.toElement.IsListed := by
      rcases hlist with hl | ⟨_, ⟨⟩, hl⟩
      · exact absurd hl ha
      · exact hl
    have hthrough : b.toElement.throughInterval? = none := by
      obtain ⟨vs, hvs⟩ := WordShape.exists_list hb
      rw [WordShape.toElement, hvs]
      rfl
    rw [← (R a b).swap_swap]
    refine attemptWith_leaves_swap hslot hthrough (fun r hselector hargument => ?_)
      (byKind_leaves_list h.swap (Slot.inverse_ne_result hslot) hb (hmembers hb))
    rw [WordShape.toElement, byKind_word ha]
    exact hdeclines r hselector hargument

/-- Two levels of nesting are enough if the word in charge is no list. -/
theorem attempt_leaves_unlisted (n : ℕ) (h : Exchanges limit params op z slot R)
    (hslot : slot ≠ .result) (ha : ¬a.toElement.IsListed) :
    LeavesOn params slot (attempt limit op z (n + 2)) a.toElement (some b.toElement) (R a b) := by
  rw [attempt]
  refine attemptWith_leaves_unlisted h hslot ha fun hb v => enter_leaves rfl ?_
  obtain ⟨deeper, deepest, he, -⟩ := attempt_cases limit op z n
  rw [he]
  exact attemptWith_leaves_unlisted h.swap (Slot.inverse_ne_result hslot) (by rintro ⟨⟩)
    fun hl => absurd hl ha

/-- Three levels of nesting are enough for all words. -/
theorem attempt_leaves (n : ℕ) (h : Exchanges limit params op z slot R) (hslot : slot ≠ .result)
    (a : WordShape limit (.int t)) (b : WordShape limit (.int s)) :
    LeavesOn params slot (attempt limit op z (n + 3)) a.toElement (some b.toElement) (R a b) := by
  by_cases ha : a.toElement.IsListed
  · rw [attempt]
    refine attemptWith_leaves (byKind_leaves_list h hslot ha fun v => enter_leaves rfl ?_)
    exact attempt_leaves_unlisted n h hslot (by rintro ⟨⟩)
  · exact attempt_leaves_unlisted (n + 1) h hslot ha

end

end Element

/-! ### Exchange -/

namespace Refinement

variable {x x' y y' : Element} {r r' : Refinement}

/-- Two refinements of the same operands leave nothing, or the same values of each operand. -/
structure SameValues (x y : Element) (r r' : Refinement) : Prop where
  /-- Both leave nothing, or neither does. -/
  empty : r.eval.empty = r'.eval.empty
  /-- They leave the same values of the first operand. -/
  first : r.eval.empty = false → (r.first.getD x).values = (r'.first.getD x).values
  /-- And of the second one. -/
  second : r.eval.empty = false → (r.second.getD y).values = (r'.second.getD y).values

/-- The values that are left, read off operands with the same values. -/
theorem Left.values_eq {q : Remnant limit w (some u)} {p : Bool × Refinement}
    (h : Left .first x' (some y') q p) (hx : x'.values = x.values) (hy : y'.values = y.values) :
    (q = ⊥ ∧ p.2.eval.empty = true) ∨
      ∃ a : WordShape limit w, ∃ b : WordShape limit u, q = .words a b ∧ p.2.eval.empty = false ∧
        (p.2.first.getD x).values = a.toElement.values ∧
        (p.2.second.getD y).values = b.toElement.values := by
  have hvalues : ∀ {c : Option Element} {e e' : Element}, e'.values = e.values →
      (c.getD e).values = (c.getD e').values := by
    intro c e e' he
    cases c with
    | none => exact he.symm
    | some c => rfl
  obtain ⟨-, hleaves⟩ := h
  cases hleaves with
  | nothing hdead => exact .inl ⟨rfl, by simpa [found] using hdead⟩
  | @words a b hlive hfirst hsecond =>
    refine .inr ⟨a, b, rfl, by simpa [found] using hlive, ?_, ?_⟩
    · exact (hvalues hx).trans (congrArg Element.values hfirst)
    · exact (hvalues hy).trans (congrArg Element.values (Option.some.inj hsecond))

/-- What is left has the same values if it is the same but for tops. -/
theorem Left.sameValues {x₁ x₂ y₁ y₂ : Element} {q q' : Remnant limit (.int t) (some (.int s))}
    {p p' : Bool × Refinement} (h : Left .first x₁ (some y₁) q p)
    (h' : Left .first x₂ (some y₂) q' p') (hq : q.through = q'.through)
    (hx : x₁.values = x.values) (hx' : x₂.values = x.values)
    (hy : y₁.values = y.values) (hy' : y₂.values = y.values) : SameValues x y p.2 p'.2 := by
  rcases h.values_eq hx hy with ⟨rfl, hempty⟩ | ⟨a, b, rfl, hlive, hfirst, hsecond⟩ <;>
    rcases h'.values_eq hx' hy' with ⟨rfl, hempty'⟩ | ⟨a', b', rfl, hlive', hfirst', hsecond'⟩
  · exact ⟨hempty.trans hempty'.symm, by simp [hempty], by simp [hempty]⟩
  · cases hq
  · cases hq
  · have hwords := WithBot.coe_injective hq
    refine ⟨hlive.trans hlive'.symm, fun _ => ?_, fun _ => ?_⟩
    · rw [hfirst, hfirst', ← a.values_through, ← a'.values_through]
      exact congrArg (fun q => q.1.toElement.values) hwords
    · rw [hsecond, hsecond', ← b.values_through, ← b'.values_through]
      exact congrArg (fun q => (WordShape.toElement (w := .int s) q.2).values) hwords

end Refinement

namespace Element

open Refinement

variable {x y z : Element}

/-- The operand in charge does not matter. On integers, with at least four levels of nesting, a
backward refinement returns whichever operand is in charge, and both leave nothing, or they leave
the same values of each operand. -/
theorem constrain_exchanges (h : op.Accepts (.int t) (some (.int s)) out)
    (hx : x.IsWord limit (.int t)) (hy : y.IsWord limit (.int s)) (hz : z.IsWord limit out)
    (hdepth : 4 ≤ params.maxDepth) (argument : Option Element) :
    ∃ r r', (x.constrain limit op z (.start params (some y))).value = .ok (true, r) ∧
      (y.constrainTo limit op x z (.start params argument)).value = .ok (true, r') ∧
      SameValues x y r r' := by
  lift x to WordShape limit (.int t) using hx
  lift y to WordShape limit (.int s) using hy
  lift z to WordShape limit out using hz
  obtain ⟨n, hn⟩ : ∃ n, params.maxDepth = n + 3 + 1 := ⟨params.maxDepth - 4, by omega⟩
  let second : Refinement := { Refinement.start params argument with
    selector := .second
    eval := { Evaluation.start params argument with argument := some x.toElement } }
  have hoperand : IsOperand limit (some (.int s)) (some y.toElement) := y.isWord
  have htypes : checkTypes op x.toElement z.toElement (.start params (some y.toElement)) = .ok () :=
    checkTypes_eq_ok h x.isWord hoperand z.isWord rfl
  have htypes' : checkTypes op y.toElement z.toElement second = .ok () :=
    checkTypes_eq_ok h x.isWord hoperand z.isWord rfl
  -- each operand in charge goes through an interval, and the other one stays
  have hexchanges := exchanges_first (w := .int t) (u := .int s) params h.fits z
  have hfirst := constrainWithin_leaves (q := op.remains params.stops z x.through y)
    (x.through_toElement ▸ attempt_leaves n hexchanges (by simp) x.through y)
  have hsecond := constrainWithin_leaves (q := (op.remains params.stops z x y.through).swap)
    (y.through_toElement ▸ attempt_leaves n hexchanges.swap (by simp [Slot.inverse]) y.through x)
  obtain ⟨⟨_, r⟩, hr, hleft⟩ := constrainAs_returns htypes hn
    (hfirst _ (Refinement.fresh_start params (some y.toElement)) rfl rfl rfl)
  obtain ⟨⟨_, r'⟩, hr', hleft'⟩ := constrainAs_returns htypes' hn
    (hsecond second ⟨⟨rfl, rfl, rfl, rfl⟩, rfl, rfl⟩ rfl rfl rfl)
  cases hleft.handled
  cases hleft'.handled
  refine ⟨r, r', hr, hr', hleft.sameValues hleft'.swap ?_ (values_throughInterval _) rfl rfl
    (values_throughInterval _)⟩
  -- a top that stays and a top that goes through an interval leave the same
  rw [Remnant.swap_swap, ← op.remains_through params.stops z x.through y, x.through_through,
    ← op.remains_through params.stops z x y.through, y.through_through]

/-- The products of a list and a top, which stands for either operand. -/
theorem constrain_exchanges_times :
    let t : IntType := ⟨4, true, by decide, by decide⟩
    let x : Element := .word (.int t) .top
    let y : Element := .word (.int t) (.disjunction [-3, 0, 5])
    let z : Element := .word (.int t) (.interval ⟨-7, -2⟩)
    Operation.times.Accepts (.int t) (some (.int t)) (.int t) ∧ x.IsWord 8 (.int t) ∧
      y.IsWord 8 (.int t) ∧ z.IsWord 8 (.int t) ∧ 4 ≤ (Params.preset 4 .may .stop).maxDepth ∧
      ∃ r r', (x.constrain 8 .times z (.start (.preset 4 .may .stop) (some y))).value =
          .ok (true, r) ∧
        (y.constrainTo 8 .times x z (.start (.preset 4 .may .stop) none)).value = .ok (true, r') ∧
        SameValues x y r r' := by
  intro t x y z
  have h : Operation.times.Accepts (.int t) (some (.int t)) (.int t) := ⟨trivial, by decide, rfl⟩
  have hx : x.IsWord 8 (.int t) := by decide
  have hy : y.IsWord 8 (.int t) := by decide
  have hz : z.IsWord 8 (.int t) := by decide
  exact ⟨h, hx, hy, hz, le_rfl, constrain_exchanges h hx hy hz le_rfl none⟩

end Element

end ScalarDomain
