import ScalarDomain.Proofs.Backward.Remnant
import ScalarDomain.Proofs.Backward.Soundness
import ScalarDomain.Proofs.Forward.Pruning

/-!
# Errors that end executions only prune, forward and backward

A backward refinement solves for the operands whose execution gives the result. If errors end
executions there are fewer of them: results that wrap around are no targets, and divisors or amounts
that are not valid are out of the question. So the ranges of a solver whose errors end executions
lie within those of the solver whose errors do not (`Narrowing.solve_prunes`), or it rules out
everything. From there the order of remnants takes over: the join of what the values of a list
leave, and of the pairs that a trial keeps, is monotone.
-/

namespace ScalarDomain

variable {limit : ℕ} {op : Operation} {w u out : WordType} {arg : Option WordType} {x z c : Element}
  {y : Option Element} {params params' : Params} {slot : Slot} {r r' : Refinement}

/-! ### Solvers -/

namespace Narrowing

variable {stops exact exact' : Bool} {pieces pieces' : List Range}

theorem Prunes.refl (n : Narrowing) : n.Prunes n := by
  cases n with
  | impossible => exact .impossible _
  | within r s exact =>
    exact .within (fun q hq => ⟨q, hq, le_rfl, le_rfl⟩) fun q hq => ⟨q, hq, le_rfl, le_rfl⟩

/-- Nothing is ruled out by a solver that decides nothing. -/
theorem prunes_unknown (n : Narrowing) : n.Prunes unknown := by
  cases n with
  | impossible => exact .impossible _
  | within r s exact => exact .within (by rintro _ ⟨⟩) (by rintro _ ⟨⟩)

/-- Every piece lies within a piece. -/
def PiecesWithin (pieces pieces' : List Range) : Prop :=
  ∀ p ∈ pieces, ∃ p' ∈ pieces', p.Within p'

theorem PiecesWithin.map {g : Range → Range} (h : PiecesWithin pieces pieces')
    (hg : ∀ {p p' : Range}, p.Within p' → (g p).Within (g p')) :
    PiecesWithin (pieces.map g) (pieces'.map g) := by
  intro _ hmem
  obtain ⟨p, hp, rfl⟩ := List.mem_map.mp hmem
  obtain ⟨p', hp', hpp'⟩ := h p hp
  exact ⟨g p', List.mem_map_of_mem hp', hg hpp'⟩

/-- The hull of smaller pieces is within the hull of the larger ones. -/
theorem PiecesWithin.hull? {q : Range} (h : PiecesWithin pieces pieces')
    (hq : Bounds.hull? pieces = some q) : ∃ q', Bounds.hull? pieces' = some q' ∧ q.Within q' := by
  obtain ⟨⟨p, hp, hlo⟩, p₂, hp₂, hhi⟩ := Bounds.exists_ends_of_hull?_eq_some hq
  obtain ⟨p', hp', hpp'⟩ := h p hp
  obtain ⟨p₂', hp₂', hpp₂'⟩ := h p₂ hp₂
  obtain ⟨q', hq'⟩ := Bounds.exists_hull? hp'
  refine ⟨q', hq', ?_, ?_⟩
  · rw [← hlo]
    exact (Bounds.le_of_hull?_eq_some hq' hp').1.trans hpp'.1
  · rw [← hhi]
    exact hpp₂'.2.trans (Bounds.le_of_hull?_eq_some hq' hp₂').2

/-- Smaller pieces rule out more. -/
theorem ofPieces_prunes (h : PiecesWithin pieces pieces') :
    (ofPieces pieces exact).Prunes (ofPieces pieces' exact') := by
  rw [ofPieces]
  cases hq : Bounds.hull? pieces with
  | none => exact .impossible _
  | some q =>
    obtain ⟨q', hq', hwithin⟩ := h.hull? hq
    rw [ofPieces, hq']
    refine .within ?_ (by rintro _ ⟨⟩)
    rintro _ ⟨⟩
    exact ⟨q, rfl, hwithin⟩

/-- So do smaller pieces of both operands. -/
theorem ofPairs_prunes {pairs pairs' : List (Range × Range)}
    (hfirst : PiecesWithin (pairs.map (·.1)) (pairs'.map (·.1)))
    (hsecond : PiecesWithin (pairs.map (·.2)) (pairs'.map (·.2))) :
    (ofPairs pairs exact).Prunes (ofPairs pairs' exact') := by
  rw [ofPairs]
  cases hq : Bounds.hull? (pairs.map (·.1)) with
  | none => exact .impossible _
  | some q =>
    cases hp : Bounds.hull? (pairs.map (·.2)) with
    | none => exact .impossible _
    | some p =>
      obtain ⟨q', hq', hqq'⟩ := hfirst.hull? hq
      obtain ⟨p', hp', hpp'⟩ := hsecond.hull? hp
      rw [ofPairs, hq', hp']
      refine .within ?_ ?_
      · rintro _ ⟨⟩
        exact ⟨q, rfl, hqq'⟩
      · rintro _ ⟨⟩
        exact ⟨p, rfl, hpp'⟩

theorem PiecesWithin.of_subset (h : pieces ⊆ pieces') : PiecesWithin pieces pieces' :=
  fun p hp => ⟨p, h hp, le_rfl, le_rfl⟩

/-- A cut with a smaller range is smaller. -/
theorem meet?_within {span z p : Range} (z' : Range) (h : z.Within z')
    (hp : Bounds.meet? span z = some p) :
    ∃ p', Bounds.meet? span z' = some p' ∧ p.Within p' := by
  obtain ⟨hlo, hhi⟩ := h
  simp only [Bounds.meet?] at hp ⊢
  split at hp
  · next hle =>
    cases hp
    exact ⟨_, if_pos (by omega), max_le_max_left _ hlo, min_le_min_left _ hhi⟩
  · cases hp

/-- Results that do not wrap around are in the window that is not displaced. -/
theorem wrappedTargets_prunes (z : Range) (t : IntType) (span : Range) :
    PiecesWithin (wrappedTargets true z t span) (wrappedTargets false z t span) := by
  intro p hp
  simp only [wrappedTargets, if_true, Option.mem_toList] at hp
  have hle := Bounds.le_of_meet?_eq_some hp
  have hmem : ∀ v, v ∈ p ↔ v ∈ span ∧ v ∈ z := fun v => Bounds.mem_of_meet?_eq_some hp
  obtain ⟨hspan, hz⟩ := (hmem p.lo).mp ⟨le_rfl, hle⟩
  have hM := t.modulus_pos
  obtain ⟨hfirst, hlast⟩ := window_between (k := 0) (z := z) (t := t) hspan
    (by simpa using hz.1) (by simpa using hz.2)
  rw [wrappedTargets_false, if_neg (not_lt.mpr (hfirst.trans hlast))]
  split
  · -- the windows as one
    have hleft := mul_nonpos_of_nonpos_of_nonneg hfirst hM.le
    have hright := mul_nonneg hlast hM.le
    obtain ⟨p', hp', hwithin⟩ := meet?_within ⟨z.lo + firstWindow z t span * t.modulus,
      z.hi + lastWindow z t span * t.modulus⟩ ⟨by simp only; omega, by simp only; omega⟩ hp
    exact ⟨p', Option.mem_toList.mpr hp', hwithin⟩
  · next hfew =>
    refine ⟨p, List.mem_filterMap.mpr ⟨0, ?_, by simpa using hp⟩, le_rfl, le_rfl⟩
    exact (Bounds.mem_values_iff (by simpa using hfew)).mpr ⟨hfirst, hlast⟩

/-- A product that may wrap around says nothing when the execution goes on. -/
theorem times_prunes (f : Frame) : (times true f).Prunes (times false f) := by
  simp only [times]
  split
  · exact .refl _
  · next span _ =>
    cases !f.x.type.contains span.lo || !f.x.type.contains span.hi with
    | true => exact prunes_unknown _
    | false => exact .refl _

/-- Nor does a divisor that may be zero; otherwise only the division that wraps around is new. -/
theorem divide_prunes (f : Frame) : (divide true f).Prunes (divide false f) := by
  simp only [divide]
  cases f.second.hasZero with
  | true => exact prunes_unknown _
  | false =>
    simp only [Bool.false_and, Bool.false_eq_true, if_false, Bool.not_true, Bool.and_false,
      List.append_nil]
    exact ofPairs_prunes (.of_subset (by simp)) (.of_subset (by simp))

/-- Nor does a remainder by a divisor that may be zero. -/
theorem modulo_prunes (f : Frame) : (modulo true f).Prunes (modulo false f) := by
  simp only [modulo]
  cases f.second.hasZero with
  | true =>
    simp only [Bool.not_false, Bool.and_self, Bool.or_true, if_true]
    exact prunes_unknown _
  | false => exact .refl _

/-- Nor does an invalid amount. -/
theorem shift_prunes (d : Direction) (f : Frame) : (shift true d f).Prunes (shift false d f) := by
  simp only [shift]
  cases decide (f.second.lo < 0) || decide ((f.x.type.width : ℤ) ≤ f.second.hi) with
  | true => exact prunes_unknown _
  | false => exact .refl _

/-- The ranges of a solver whose errors end executions are within those of the same solver whose
errors do not. -/
theorem solve_prunes (op : Operation) (f : Frame) :
    (solve true op f).Prunes (solve false op f) := by
  have htargets := wrappedTargets_prunes
  cases op with
  | prev | next | opposite =>
    refine ofPieces_prunes ((htargets _ _ _).map fun h => ?_)
    have := h.1
    have := h.2
    constructor <;> simp only <;> omega
  | castInt dest => exact ofPieces_prunes (htargets _ _ _)
  | plus | minus =>
    refine ofPairs_prunes ?_ ?_ <;>
    · rw [List.map_map, List.map_map]
      refine (htargets _ _ _).map fun h => ?_
      have := h.1
      have := h.2
      constructor <;> simp only [Function.comp] <;> omega
  | times => exact times_prunes f
  | divide => exact divide_prunes f
  | modulo => exact modulo_prunes f
  | shift d => exact shift_prunes d f
  | _ => exact .refl _

end Narrowing

/-! ### Words -/

namespace Finding

/-- What words find out leaves something of the operands. -/
def Finds (limit : ℕ) (stops : Bool) (op : Operation) (z x : Element) (y : Option Element)
    (q : Remnant limit w arg) : Prop :=
  ∃ f, ofWords? limit stops op x y z = .ok (some f) ∧ f.Leaves x y q

/-- Words leave no more of the operands if errors end executions, or decline in any case because an
operand is a list. -/
def Prunes (limit : ℕ) (op : Operation) (z : Element) (w : WordType) (arg : Option WordType)
    (x : Element) (y : Option Element) : Prop :=
  (∃ q q' : Remnant limit w arg, q ≤ q' ∧ Finds limit true op z x y q ∧
    Finds limit false op z x y q') ∨
  (∀ stops, ofWords? limit stops op x y z = .ok none) ∧ HasList x y

/-- Every operation leaves no more of its operands where errors end executions. -/
theorem prunes_of_accepts (h : op.Accepts w arg out) (hx : x.IsWord limit w)
    (hy : IsOperand limit arg y) (hz : z.IsWord limit out) : Prunes limit op z w arg x y := by
  -- what does not depend on the policy leaves the same
  have hsame : (∀ stops, ofWords? limit stops op x y z = ofWords? limit true op x y z) →
      Prunes limit op z w arg x y := by
    intro hstops
    have hhandles : Handles limit true op z w arg _ False x y :=
      handles_of_accepts h False.elim hx hy hz False.elim
    rcases hhandles with ⟨f, hf, hsolves⟩ | ⟨hnone, hlist⟩
    · obtain ⟨q, hq⟩ := hsolves.exists_leaves
      exact .inl ⟨q, q, le_rfl, ⟨f, hf, hq⟩, f, (hstops false).trans hf, hq⟩
    · exact .inr ⟨fun stops => (hstops stops).trans hnone, hlist⟩
  have hranges : (∀ stops, OnRanges limit stops op x y z) → Prunes limit op z w arg x y := by
    intro hop
    cases hf : Frame.of? x y z with
    | none => exact hsame fun stops => by rw [hop, hop, hf]; rfl
    | some f =>
      obtain ⟨s, rfl, hs⟩ := hx
      obtain ⟨b, rfl⟩ := OperandShape.exists_toElement? hy
      have hfinds : ∀ stops, Finds limit stops op z (.word w s) b.toElement?
          ((Narrowing.solve stops op f).remnant (⟨s, hs⟩ : WordShape limit w) b) := by
        intro stops
        obtain ⟨g, hg, hleaves⟩ := (Narrowing.solve stops op f).finding_leaves f.convex
          (⟨s, hs⟩ : WordShape limit w) b
        refine ⟨g, ?_, hleaves⟩
        rw [hop, hf, Option.elim_some]
        exact congrArg (Except.map some) hg
      exact .inl ⟨_, _, (Narrowing.solve_prunes op f).remnant_le _ _, hfinds true, hfinds false⟩
  cases op with
  | logicalNegate | castBit | connective _ | castFloat _ => exact hsame fun _ => rfl
  | _ => exact hranges fun _ => onRanges trivial

end Finding

/-! ### Refinements -/

namespace Refinement

/-- Words settle on the finding of the ranges, with the first one in charge. -/
theorem byRanges_leaves_first {q : Remnant limit w arg}
    (h : Finding.Finds limit params.stops op z x y q) :
    LeavesOn params .first (fun x r => r.byRanges limit op z x) x y q := by
  intro r hr hparams hselector hargument
  obtain ⟨f, hf, hleaves⟩ := h
  exact byRanges_left hr (operands_first hselector hargument) (hparams ▸ hf) hleaves

/-- Or with the second one in charge. -/
theorem byRanges_leaves_second {o : Element} {q : Remnant limit w (some u)}
    (h : Finding.Finds limit params.stops op z x (some o) q) :
    LeavesOn params .second (fun x r => r.byRanges limit op z x) o (some x) q.swap := by
  intro r hr hparams hselector hargument
  obtain ⟨f, hf, hleaves⟩ := h
  exact (byRanges_left hr (operands_second hselector hargument) (hparams ▸ hf) hleaves).mono
    fun _ hleft => hleft.swap

/-- A refiner leaves no more of two operands under the first parameters than under the second. -/
def PrunesOn (limit : ℕ) (params params' : Params) (w : WordType) (arg : Option WordType)
    (slot : Slot) (refiner : Refiner) (x : Element) (y : Option Element) : Prop :=
  ∃ q q' : Remnant limit w arg, q ≤ q' ∧ LeavesOn params slot refiner x y q ∧
    LeavesOn params' slot refiner x y q'

/-- Words do on ranges, or decline because an operand is a list. -/
def RangesPrune (limit : ℕ) (params params' : Params) (op : Operation) (z : Element) (w : WordType)
    (arg : Option WordType) (slot : Slot) (x : Element) (y : Option Element) : Prop :=
  PrunesOn limit params params' w arg slot (fun x r => r.byRanges limit op z x) x y ∨
  (∀ r : Refinement, r.selector = slot → r.eval.argument = y →
    (r.byRanges limit op z x).Returns (· = (false, r))) ∧ HasList x y

section

variable (hstops : params.stops = true) (hstops' : params'.stops = false)

include hstops hstops'

theorem rangesPrune_first (h : Finding.Prunes limit op z w arg x y) :
    RangesPrune limit params params' op z w arg .first x y := by
  rcases h with ⟨q, q', hle, hq, hq'⟩ | ⟨hnone, hlist⟩
  · exact .inl ⟨q, q', hle, byRanges_leaves_first (hstops ▸ hq),
      byRanges_leaves_first (hstops' ▸ hq')⟩
  · exact .inr ⟨fun r hselector hargument =>
      byRanges_declines (operands_first hselector hargument) (hnone _), hlist⟩

theorem rangesPrune_second {o : Element} (h : Finding.Prunes limit op z w (some u) x (some o)) :
    RangesPrune limit params params' op z u (some w) .second o (some x) := by
  rcases h with ⟨q, q', hle, hq, hq'⟩ | ⟨hnone, hlist⟩
  · exact .inl ⟨q.swap, q'.swap, Remnant.swap_mono hle, byRanges_leaves_second (hstops ▸ hq),
      byRanges_leaves_second (hstops' ▸ hq')⟩
  · exact .inr ⟨fun r hselector hargument =>
      byRanges_declines (operands_second hselector hargument) (hnone _), hlist.swap⟩

theorem eitherRangesPrune_first (h : Finding.Prunes limit op z w arg x y) :
    EitherRanges (RangesPrune limit params params' op z) w arg .first x y where
  own := rangesPrune_first hstops hstops' h
  other := by
    rintro u o rfl rfl
    exact rangesPrune_second hstops hstops' h

theorem eitherRangesPrune_second {o : Element}
    (h : Finding.Prunes limit op z w (some u) x (some o)) :
    EitherRanges (RangesPrune limit params params' op z) u (some w) .second o (some x) where
  own := rangesPrune_second hstops hstops' h
  other := by
    rintro _ _ ⟨⟩ ⟨⟩
    exact rangesPrune_first hstops hstops' h

end

/-- A list is refined value by value, and so prunes if every value does. -/
theorem prunesOn_list {refiner : Refiner} {vs : List ℤ} (hslot : slot ≠ .result)
    (hy : IsOperand limit arg y)
    (h : ∀ v ∈ vs, PrunesOn limit params params' w arg slot refiner (.wordConstant w v) y) :
    PrunesOn limit params params' w arg slot (byKind limit op z refiner)
      (.word w (.disjunction vs)) y := by
  choose! q q' hle hq hq' using h
  refine ⟨_, _, ?_, leavesOn_list hy hslot hq, leavesOn_list hy hslot hq'⟩
  refine WordShape.foldl_sup_le.mpr fun p hp => ?_
  rcases List.mem_cons.mp hp with rfl | hp
  · exact bot_le
  · obtain ⟨v, hv, rfl⟩ := List.mem_map.mp hp
    exact (hle v hv).trans
      (WordShape.foldl_sup_le.mp le_rfl _ (List.mem_cons_of_mem _ (List.mem_map_of_mem hv)))

end Refinement

namespace Element

open Refinement

/-- What holds of the ranges holds of all nested refinements. -/
theorem prunesOn_nests (params params' : Params) :
    Nests limit op z (PrunesOn limit params params') (RangesPrune limit params params' op z) where
  session {w arg slot x y attempt} hslot hx hy hthrough h := by
    cases attempt with
    | none =>
      obtain ⟨s, rfl, hs⟩ := hx
      obtain ⟨b, rfl⟩ := OperandShape.exists_toElement? hy
      exact ⟨_, _, le_rfl, enter_none_leaves ⟨s, hs⟩ b hslot, enter_none_leaves ⟨s, hs⟩ b hslot⟩
    | some refiner =>
      obtain ⟨q, q', hle, hq, hq'⟩ := h refiner rfl
      exact ⟨q, q', hle, enter_leaves hthrough hq, enter_leaves hthrough hq'⟩
  run hslot _ hy h := prunesOn_list hslot hy h
  inCharge := by
    rintro w arg slot x y deeper deepest ⟨q, q', hle, hq, hq'⟩
    exact ⟨q, q', hle, attemptWith_leaves hq, attemptWith_leaves hq'⟩
  handOver {t s arg slot y deeper deepest} hlist hslot hx hy hranges hother := by
    rcases hranges with ⟨q, q', hle, hq, hq'⟩ | ⟨hdeclines, hl⟩
    · refine ⟨q, q', hle, attemptWith_leaves fun r hr hparams hselector hargument => ?_,
        attemptWith_leaves fun r hr hparams hselector hargument => ?_⟩
      · rw [byKind_word hlist]
        exact hq r hr hparams hselector hargument
      · rw [byKind_word hlist]
        exact hq' r hr hparams hselector hargument
    · obtain ⟨o, rfl, ho⟩ := hl.resolve_left hlist
      cases arg with
      | none => exact hy.elim
      | some u =>
        obtain ⟨p, rfl, -⟩ := hy
        cases p with
        | disjunction vs =>
          have hthrough : (word u (.disjunction vs)).throughInterval? = none := by
            cases u <;> rfl
          obtain ⟨q, q', hle, hq, hq'⟩ := hother u vs rfl rfl
          have hdeclines : ∀ r : Refinement, r.selector = slot →
              r.eval.argument = some (.word u (.disjunction vs)) →
                (byKind limit op z (enter op z deeper) (.word (.int t) s) r).Returns
                  (· = (false, r)) := by
            intro r hselector hargument
            rw [byKind_word hlist]
            exact hdeclines r hselector hargument
          exact ⟨q.swap, q'.swap, Remnant.swap_mono hle,
            attemptWith_leaves_swap hslot hthrough hdeclines hq,
            attemptWith_leaves_swap hslot hthrough hdeclines hq'⟩
        | _ => cases ho

end Element

/-! ### Bits -/

namespace Refinement

/-- Of two refinements of the same operands, the first leaves no more than the second. -/
def PrunesTo (limit : ℕ) (w : WordType) (arg : Option WordType) (x : Element) (y : Option Element)
    (m m' : Traced (Bool × Refinement)) : Prop :=
  ∃ q q' : Remnant limit w arg, q ≤ q' ∧ m.Returns (Left .first x y q) ∧
    m'.Returns (Left .first x y q')

section

variable (h : op.Accepts w arg out) (hz : z.IsWord limit out) (hx : x.IsWord limit w)
  (hy : IsOperand limit arg y) (hr : r.Fresh) (hr' : r'.Fresh)
  (hoperands : r.operands c = (x, y)) (hoperands' : r'.operands c = (x, y))
  (hbudget : 2 ≤ r.eval.budget) (hbudget' : 2 ≤ r'.eval.budget)
  (hstops : r.eval.params.stops = true) (hstops' : r'.eval.params.stops = false)

include h hz hx hy hr hr' hoperands hoperands' hbudget hbudget' hstops hstops'

/-- A trial keeps fewer pairs, since those that end in an error reach no result. -/
theorem byTrial_prunes :
    PrunesTo limit w arg x y (r.byTrial limit op z c) (r'.byTrial limit op z c) := by
  obtain ⟨s, rfl, hs⟩ := hx
  obtain ⟨b, rfl⟩ := OperandShape.exists_toElement? hy
  obtain ⟨p, hp, q, hleft, hsifted⟩ := byTrial_left h hz ⟨s, hs⟩ b hr hbudget hoperands
  obtain ⟨p', hp', q', hleft', hsifted'⟩ := byTrial_left h hz ⟨s, hs⟩ b hr' hbudget' hoperands'
  rw [hstops] at hsifted
  rw [hstops'] at hsifted'
  exact ⟨q, q', hsifted.mono hsifted' fun _ _ hR => hR.propagate, ⟨p, hp, hleft⟩, p', hp', hleft'⟩

/-- A bit in charge reads off a truth table, whatever becomes of errors, or tries all pairs. -/
theorem byKind_bit_prunes (refiner : Refiner) (hc : c.IsWord limit .bit)
    (hbit : w = .bit ∨ arg = some .bit) :
    PrunesTo limit w arg x y (byKind limit op z refiner c r) (byKind limit op z refiner c r') := by
  have htrial :=
    byTrial_prunes h hz hx hy hr hr' hoperands hoperands' hbudget hbudget' hstops hstops'
  rcases Element.bit_cases hc with ⟨b, rfl⟩ | rfl
  · have hsolves := Element.byKind_bit_solves refiner h hz hc hx hy hbit hr hoperands
    have htable : ∀ outcome, op.onBits? = some outcome → arg = some w →
        PrunesTo limit w arg x y (byKind limit op z refiner (.word .bit (.constant (bitOf b))) r)
          (byKind limit op z refiner (.word .bit (.constant (bitOf b))) r') := by
      rintro outcome hbits rfl
      obtain rfl : w = .bit := by simpa using hbit
      cases y with
      | none => exact hy.elim
      | some o =>
        obtain ⟨f, hf⟩ := byTable_settles op outcome z hx hy
        simp only [byKind, hbits, hf r _ hoperands, hf r' _ hoperands'] at hsolves ⊢
        obtain ⟨_, ⟨⟩, -, hfound, -⟩ := hsolves
        rw [found_settle hr] at hfound
        obtain ⟨q, hq⟩ := hfound.exists_leaves
        exact ⟨q, q, le_rfl, Traced.returns_pure (left_settle hr hq),
          Traced.returns_pure (left_settle hr' hq)⟩
    have hfits := h.fits
    cases op with
    | compare cmp => exact htable _ rfl hfits.1
    | connective con => exact htable _ rfl hfits.1
    | _ => exact htrial
  · exact htrial

/-- A bit is refined in a session of its own, which does not change what is left. -/
theorem constrainWithin_bit_prunes (n : ℕ) (hc : c.IsWord limit .bit)
    (hbit : w = .bit ∨ arg = some .bit) :
    PrunesTo limit w arg x y (Element.constrainWithin limit op z (n + 1) c r)
      (Element.constrainWithin limit op z (n + 1) c r') := by
  have hthrough : c.throughInterval? = none := by
    rcases Element.bit_cases hc with ⟨b, rfl⟩ | rfl <;> rfl
  obtain ⟨deeper, deepest, he, -⟩ := Element.attempt_cases limit op z n
  obtain ⟨q, q', hle, hleft, hleft'⟩ := byKind_bit_prunes h hz hx hy hr hr' hoperands hoperands'
    hbudget hbudget' hstops hstops' (Element.enter op z deeper) hc hbit
  rw [Element.constrainWithin, he]
  simp only [Element.enter, hthrough, Element.attemptWith]
  refine ⟨q, q', hle, Traced.returns_session (hleft.bind ?_),
    Traced.returns_session (hleft'.bind ?_)⟩
  all_goals
    rintro ⟨handled, s⟩ hleft
    cases hleft.handled
    exact Traced.returns_pure hleft

end

/-! ### Operands in charge -/

/-- What a refinement leaves of the operands, if anything, another one leaves as well. -/
structure Within (x : Element) (y : Option Element) (r r' : Refinement) : Prop where
  /-- The other refinement leaves something. -/
  empty : r.eval.empty = false → r'.eval.empty = false
  /-- It has all values that are left of the first operand. -/
  first : r.eval.empty = false → (r.first.getD x).values ⊆ (r'.first.getD x).values
  /-- And of the second one. -/
  second : r.eval.empty = false →
    operandValues (y.map r.second.getD) ⊆ operandValues (y.map r'.second.getD)

/-- Smaller remnants hold fewer values of both operands. -/
theorem Left.within {q q' : Remnant limit w arg} {p p' : Bool × Refinement}
    (h : Left .first x y q p) (h' : Left .first x y q' p') (hle : q ≤ q') :
    Within x y p.2 p'.2 := by
  obtain ⟨-, hleaves⟩ := h
  obtain ⟨-, hleaves'⟩ := h'
  cases hleaves with
  | nothing hdead =>
    have hempty : p.2.eval.empty = true := by simpa [found] using hdead
    constructor <;> simp [hempty]
  | words hlive hfirst hsecond =>
    obtain ⟨⟨a', b'⟩, rfl, hwords⟩ := WithBot.coe_le_iff.mp hle
    cases hleaves' with
    | words hlive' hfirst' hsecond' =>
      have hfirst : p.2.first.getD x = _ := hfirst
      have hfirst' : p'.2.first.getD x = _ := hfirst'
      have hsecond : y.map p.2.second.getD = _ := hsecond
      have hsecond' : y.map p'.2.second.getD = _ := hsecond'
      refine ⟨fun _ => by simpa [found] using hlive', fun _ => ?_, fun _ => ?_⟩
      · rw [hfirst, hfirst']
        exact Shape.Below.subset hwords.1
      · rw [hsecond, hsecond']
        exact OperandShape.values_mono hwords.2

/-- Only the values of the operands matter. -/
theorem Within.of_values_eq {x' : Element} {y' : Option Element} (h : Within x' y' r r')
    (hx : x'.values = x.values)
    (hy : ∀ c : Option Element, operandValues (y'.map c.getD) = operandValues (y.map c.getD)) :
    Within x y r r' := by
  have hfirst : ∀ c : Option Element, (c.getD x').values = (c.getD x).values := by
    intro c
    cases c with
    | none => exact hx
    | some c => rfl
  refine ⟨h.empty, fun hlive => ?_, fun hlive => ?_⟩
  · rw [← hfirst, ← hfirst]
    exact h.first hlive
  · rw [← hy, ← hy]
    exact h.second hlive

end Refinement

namespace Element

open Refinement

/-- The interval that a top goes through has the same values. -/
theorem values_throughInterval (x : Element) : (x.throughInterval?.getD x).values = x.values := by
  cases h : x.throughInterval? with
  | none => rfl
  | some full =>
    match x, h with
    | .word (.int t) .top, rfl => exact values_fullInterval t

/-- With a level of nesting left, a top goes through the interval of all values. -/
theorem constrainWithin_leaves {q : Remnant limit w arg} {n : ℕ}
    (h : LeavesOn params slot (attempt limit op z n) (x.throughInterval?.getD x) y q) :
    LeavesOn params slot (fun _ => constrainWithin limit op z (n + 1) x)
      (x.throughInterval?.getD x) y q := by
  intro r hr hparams hselector hargument
  refine Traced.returns_session ?_
  have hattempt := h r hr hparams hselector hargument
  cases hthrough : x.throughInterval? with
  | none =>
    rw [hthrough] at hattempt
    exact hattempt
  | some full =>
    rw [hthrough] at hattempt
    exact Traced.returns_session hattempt

/-- A refinement of a word of an integer type. -/
theorem constrainWithin_prunes {t : IntType} (n : ℕ) (hslot : slot ≠ .result)
    (hx : x.IsWord limit (.int t)) (hy : IsOperand limit arg y)
    (hleaf : ∀ x' y', IsPiece (.int t) (x.throughInterval?.getD x) x' → IsOperandPiece arg y y' →
      EitherRanges (RangesPrune limit params params' op z) (.int t) arg slot x' y') :
    PrunesOn limit params params' (.int t) arg slot (fun _ => constrainWithin limit op z (n + 1) x)
      (x.throughInterval?.getD x) y := by
  obtain ⟨q, q', hle, hq, hq'⟩ :=
    (prunesOn_nests params params').refines n hslot (isWord_piece hx (.inl rfl)) hy hleaf
  exact ⟨q, q', hle, constrainWithin_leaves hq, constrainWithin_leaves hq'⟩

/-- A refinement that passes the check of types. -/
theorem constrainAs_returns {P : Bool × Refinement → Prop} {n : ℕ}
    (htypes : checkTypes op c z r = .ok ()) (hn : r.eval.budget = n)
    (h : (constrainWithin limit op z n c r).Returns P) :
    (constrainAs limit op c z r).Returns P := by
  subst hn
  exact (Traced.returns_lift (P := fun _ => True) htypes trivial).bind fun _ _ => h

section

variable (hstops : params.stops = true) (hstops' : params'.stops = false)
  (hdepth : 2 ≤ params.maxDepth) (hsame : params'.maxDepth = params.maxDepth)

include hstops hstops' hdepth hsame

/-- Backward refinement with the first operand in charge, with two levels of nesting. -/
theorem constrain_prunes (h : op.Accepts w arg out) (hx : x.IsWord limit w)
    (hy : IsOperand limit arg y) (hz : z.IsWord limit out) :
    ∃ r r', (x.constrain limit op z (.start params y)).value = .ok (true, r) ∧
      (x.constrain limit op z (.start params' y)).value = .ok (true, r') ∧ Within x y r r' := by
  obtain ⟨n, hn⟩ : ∃ n, params.maxDepth = n + 1 := ⟨params.maxDepth - 1, by omega⟩
  have hdepth' : 2 ≤ params'.maxDepth := by omega
  have htypes : ∀ params, checkTypes op x z (.start params y) = .ok () := fun _ =>
    checkTypes_eq_ok h hx hy hz rfl
  have hfresh := fun params => Refinement.fresh_start params y
  obtain ⟨x', q, q', hvalues, hle, hq, hq'⟩ : ∃ x', ∃ q q' : Remnant limit w arg,
      x'.values = x.values ∧ q ≤ q' ∧
      (constrainWithin limit op z (n + 1) x (.start params y)).Returns (Left .first x' y q) ∧
      (constrainWithin limit op z (n + 1) x (.start params' y)).Returns (Left .first x' y q') := by
    cases w with
    | bit =>
      obtain ⟨q, q', hle, hq, hq'⟩ := constrainWithin_bit_prunes h hz hx hy (hfresh params)
        (hfresh params') rfl rfl hdepth hdepth' hstops hstops' n hx (.inl rfl)
      exact ⟨x, q, q', rfl, hle, hq, hq'⟩
    | int t =>
      obtain ⟨q, q', hle, hq, hq'⟩ := constrainWithin_prunes n (by simp) hx hy
        fun x' y' hx' hy' => eitherRangesPrune_first hstops hstops'
          (Finding.prunes_of_accepts h (isWord_piece hx hx') (isOperand_piece hy hy') hz)
      exact ⟨_, q, q', values_throughInterval x, hle, hq _ (hfresh _) rfl rfl rfl,
        hq' _ (hfresh _) rfl rfl rfl⟩
  obtain ⟨⟨_, r⟩, hr, hleft⟩ := constrainAs_returns (htypes params) hn hq
  obtain ⟨⟨_, r'⟩, hr', hleft'⟩ := constrainAs_returns (htypes params') (hsame.trans hn) hq'
  cases hleft.handled
  cases hleft'.handled
  exact ⟨r, r', hr, hr', (hleft.within hleft' hle).of_values_eq hvalues fun _ => rfl⟩

/-- Backward refinement with the second operand in charge. -/
theorem constrainTo_prunes {o : Element} (argument : Option Element) (h : op.Accepts w (some u) out)
    (hx : x.IsWord limit w) (ho : o.IsWord limit u) (hz : z.IsWord limit out) :
    ∃ r r', (o.constrainTo limit op x z (.start params argument)).value = .ok (true, r) ∧
      (o.constrainTo limit op x z (.start params' argument)).value = .ok (true, r') ∧
      Within x (some o) r r' := by
  obtain ⟨n, hn⟩ : ∃ n, params.maxDepth = n + 1 := ⟨params.maxDepth - 1, by omega⟩
  have hdepth' : 2 ≤ params'.maxDepth := by omega
  let start (params : Params) : Refinement := { Refinement.start params argument with
    selector := .second
    eval := { Evaluation.start params argument with argument := some x } }
  have htypes : ∀ params, checkTypes op o z (start params) = .ok () := fun _ =>
    checkTypes_eq_ok h hx (show IsOperand limit (some u) (some o) from ho) hz rfl
  have hfresh : ∀ params, (start params).Fresh := fun _ => ⟨⟨rfl, rfl, rfl, rfl⟩, rfl, rfl⟩
  obtain ⟨o', q, q', hvalues, hle, hq, hq'⟩ : ∃ o', ∃ q q' : Remnant limit w (some u),
      o'.values = o.values ∧ q ≤ q' ∧
      (constrainWithin limit op z (n + 1) o (start params)).Returns (Left .first x (some o') q) ∧
      (constrainWithin limit op z (n + 1) o (start params')).Returns
        (Left .first x (some o') q') := by
    cases u with
    | bit =>
      obtain ⟨q, q', hle, hq, hq'⟩ := constrainWithin_bit_prunes h hz hx
        (show IsOperand limit (some .bit) (some o) from ho) (hfresh params) (hfresh params') rfl rfl
        hdepth hdepth' hstops hstops' n ho (.inr rfl)
      exact ⟨o, q, q', rfl, hle, hq, hq'⟩
    | int t =>
      have hoperand : IsOperand limit (some w) (some x) := hx
      have hslot : Slot.second ≠ .result := by decide
      obtain ⟨q, q', hle, hq, hq'⟩ := constrainWithin_prunes n hslot ho hoperand
        fun o' x' ho' hx' => by
          -- both the operand in charge and the other one may be cut into single values
          have hword := isOperand_piece hoperand hx'
          cases x' with
          | none => exact hword.elim
          | some x' =>
            exact eitherRangesPrune_second hstops hstops'
              (Finding.prunes_of_accepts h hword (isWord_piece ho ho') hz)
      exact ⟨_, q.swap, q'.swap, values_throughInterval o, Remnant.swap_mono hle,
        (hq _ (hfresh _) rfl rfl rfl).mono fun _ hleft => hleft.swap,
        (hq' _ (hfresh _) rfl rfl rfl).mono fun _ hleft => hleft.swap⟩
  obtain ⟨⟨_, r⟩, hr, hleft⟩ := constrainAs_returns (htypes params) hn hq
  obtain ⟨⟨_, r'⟩, hr', hleft'⟩ := constrainAs_returns (htypes params') (hsame.trans hn) hq'
  cases hleft.handled
  cases hleft'.handled
  refine ⟨r, r', hr, hr', (hleft.within hleft' hle).of_values_eq rfl fun c => ?_⟩
  cases c with
  | none => exact hvalues
  | some c => rfl

end

/-! ### Forward and backward -/

/-- Errors that end executions only prune. With the usual parameters and at least three levels of
nesting, forward transfer returns under both error policies; if errors do not end executions there
is a result, and it has all values of the result if they do. Backward refinement returns as well,
whichever operand is in charge, and what it leaves of the operands if errors end executions lies
within what it leaves of them if they do not. -/
theorem stopping_prunes {depth : ℕ} (hdepth : 3 ≤ depth) (information : Information)
    (h : op.Accepts w arg out) (hx : x.IsWord limit w) (hy : IsOperand limit arg y) :
    (∃ e e',
      (x.apply limit op (.start (.preset depth information .stop) y)).value = .ok (true, e) ∧
      (x.apply limit op (.start (.preset depth information .propagate) y)).value = .ok (true, e') ∧
      (e.result = none ↔ e.empty = true) ∧ e'.empty = false ∧
      ∃ s', e'.result = some s' ∧ ∀ s, e.result = some s → s.values ⊆ s'.values) ∧
    ∀ z : Element, z.IsWord limit out →
      (∃ r r',
        (x.constrain limit op z (.start (.preset depth information .stop) y)).value =
          .ok (true, r) ∧
        (x.constrain limit op z (.start (.preset depth information .propagate) y)).value =
          .ok (true, r') ∧ Within x y r r') ∧
      ∀ o ∈ y, ∀ argument, ∃ r r',
        (o.constrainTo limit op x z (.start (.preset depth information .stop) argument)).value =
          .ok (true, r) ∧
        (o.constrainTo limit op x z
            (.start (.preset depth information .propagate) argument)).value =
          .ok (true, r') ∧ Within x y r r' := by
  have hstop : (Params.preset depth information .stop).stops = true := rfl
  have hpropagate : (Params.preset depth information .propagate).stops = false := rfl
  have hlevels : 2 ≤ (Params.preset depth information .stop).maxDepth := le_trans (by decide) hdepth
  refine ⟨apply_prunes h hdepth information hx hy, fun z hz => ⟨?_, ?_⟩⟩
  · exact constrain_prunes hstop hpropagate hlevels rfl h hx hy hz
  · rintro o ho argument
    obtain rfl := Option.mem_def.mp ho
    cases arg with
    | none => exact hy.elim
    | some u => exact constrainTo_prunes hstop hpropagate hlevels rfl argument h hx hy hz

/-- Quotients of an interval by a list with zero and minus one. -/
theorem stopping_prunes_divide :
    let t : IntType := ⟨4, true, by decide, by decide⟩
    let x : Element := .word (.int t) (.interval ⟨-8, 6⟩)
    let y : Element := .word (.int t) (.disjunction [-1, 0, 3])
    let z : Element := .word (.int t) (.interval ⟨-8, -2⟩)
    Operation.divide.Accepts (.int t) (some (.int t)) (.int t) ∧ x.IsWord 8 (.int t) ∧
      IsOperand 8 (some (.int t)) (some y) ∧ z.IsWord 8 (.int t) ∧
      (∃ e e', (x.apply 8 .divide (.start (.preset 4 .may .stop) (some y))).value = .ok (true, e) ∧
        (x.apply 8 .divide (.start (.preset 4 .may .propagate) (some y))).value = .ok (true, e') ∧
        (e.result = none ↔ e.empty = true) ∧ e'.empty = false ∧
        ∃ s', e'.result = some s' ∧ ∀ s, e.result = some s → s.values ⊆ s'.values) ∧
      (∃ r r', (x.constrain 8 .divide z (.start (.preset 4 .may .stop) (some y))).value =
          .ok (true, r) ∧
        (x.constrain 8 .divide z (.start (.preset 4 .may .propagate) (some y))).value =
          .ok (true, r') ∧ Within x (some y) r r') ∧
      ∃ r r', (y.constrainTo 8 .divide x z (.start (.preset 4 .may .stop) none)).value =
          .ok (true, r) ∧
        (y.constrainTo 8 .divide x z (.start (.preset 4 .may .propagate) none)).value =
          .ok (true, r') ∧ Within x (some y) r r' := by
  intro t x y z
  have h : Operation.divide.Accepts (.int t) (some (.int t)) (.int t) :=
    ⟨trivial, by decide, rfl⟩
  have hx : x.IsWord 8 (.int t) := by decide
  have hy : IsOperand 8 (some (.int t)) (some y) := by decide
  have hz : z.IsWord 8 (.int t) := by decide
  obtain ⟨hforward, hbackward⟩ := stopping_prunes (by decide : 3 ≤ 4) .may h hx hy
  exact ⟨h, hx, hy, hz, hforward, (hbackward z hz).1, (hbackward z hz).2 y rfl none⟩

end Element

end ScalarDomain
