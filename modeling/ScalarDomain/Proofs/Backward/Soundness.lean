import ScalarDomain.Proofs.Backward.Trial

/-!
# Backward refinements are sound, and exact verdicts true up to two blurs

The two statements about `Element.constrain` on words. It returns in every fresh refinement, and no
pair of operands whose execution may land in the result is lost. An exact verdict means that what is
left of the operands are the projections of those pairs, unless the refinement is blurred
(`Operation.Blurs`): a cast takes more than four wrap-arounds as one range, and a concatenation
loses the bounds of a signed second operand whose patterns cross the middle of its type.
-/

namespace ScalarDomain

variable {limit : ℕ} {op : Operation} {w out : WordType} {arg : Option WordType} {x z : Element}
  {y : Option Element} {stops : Bool} {params : Params}

open Element Refinement

/-! ### Pieces of the operands -/

/-- The pieces that a refinement works on are blurred only if the operands are. -/
private theorem Operation.Blurs.of_piece {t : IntType} {x' : Element} {y' : Option Element}
    (h : op.Accepts (.int t) arg out) (hx : x.IsWord limit (.int t)) (hy : IsOperand limit arg y)
    (hz : z.IsWord limit out) (hx' : IsPiece (.int t) (x.throughInterval?.getD x) x')
    (hy' : IsOperandPiece arg y y') (hb : op.Blurs stops x' y' z) : op.Blurs stops x y z := by
  obtain ⟨s₀, rfl, -⟩ := hx
  cases hb with
  | @cast dest w o s q hs hq hb =>
    obtain ⟨-, rfl⟩ := h.fits
    obtain ⟨q', hq', hproper⟩ := hz
    cases hq'
    have hnone : y = none := by
      rcases hy' with hy' | ⟨u, -, v, -, hy'⟩
      exacts [hy'.symm, nomatch hy']
    subst hnone
    rcases hx' with hx' | ⟨-, v, -, hx'⟩
    · cases s₀ with
      | top =>
        cases hx'
        exact .cast (s := .top) (by simp [Shape.precision]) hq hb
      | _ =>
        cases hx'
        exact .cast hs hq hb
    · -- a single value lands in one window at most
      have hpoint : word w s = word (.int t) (.constant v) := by
        simpa [wordConstant, WordType.rangeShape, Bounds.point] using hx'
      cases hpoint
      refine absurd hb (Narrowing.not_blurs_of_lt hproper.proper.bounds ?_)
      have := dest.modulus_pos
      simp only [Shape.bounds, Bounds.point, sub_self]
      omega
  | @concat t' u o s p q b hq hst hb hout =>
    rcases hy' with rfl | ⟨u', rfl, v, hv, hy'⟩
    · exact .concat hq hst hb hout
    · have hcontains : u'.view.contains v = true := hy.contains hv rfl
      rw [wordConstant_eq hcontains] at hy'
      cases hy'
      rw [Shape.contains_constant] at hb
      subst hb
      cases y with
      | none => exact hy.elim
      | some o' =>
        obtain ⟨p', rfl, -⟩ := hy
        exact .concat hq hst hv hout

/-- Pieces of a word are words. -/
theorem isWord_piece {t : IntType} {x' : Element} (hx : x.IsWord limit (.int t))
    (hx' : IsPiece (.int t) (x.throughInterval?.getD x) x') : x'.IsWord limit (.int t) := by
  have hword := hx
  obtain ⟨s, rfl, hs⟩ := hx
  have hthrough : ((word (.int t) s).throughInterval?.getD (word (.int t) s)).IsWord limit
      (.int t) := by
    cases s with
    | top => exact isWord_word (Shape.wellFormed_full t)
    | _ => exact hword
  rcases hx' with rfl | ⟨-, v, hv, rfl⟩
  · exact hthrough
  · obtain ⟨q, hq, hproper⟩ := hthrough
    rw [hq] at hv
    exact isWord_wordConstant (hproper.proper.contains hv)

/-- Pieces of a second operand are second operands. -/
theorem isOperand_piece {y' : Option Element} (hy : IsOperand limit arg y)
    (hy' : IsOperandPiece arg y y') : IsOperand limit arg y' := by
  rcases hy' with rfl | ⟨u, rfl, v, hv, rfl⟩
  · exact hy
  · exact isWord_wordConstant (hy.contains hv rfl)

/-! ### Solutions -/

/-- The types of an accepted operation and its result agree. -/
theorem checkTypes_eq_ok {c : Element} {r : Refinement} (h : op.Accepts w arg out)
    (hx : x.IsWord limit w) (hy : IsOperand limit arg y) (hz : z.IsWord limit out)
    (hoperands : r.operands c = (x, y)) : checkTypes op c z r = .ok () := by
  obtain ⟨s, rfl, -⟩ := hx
  obtain ⟨q, rfl, -⟩ := hz
  rw [checkTypes, hoperands]
  simp only [resultType_eq_ok h hy]
  exact if_pos rfl

/-- Whatever the pieces of the operands solve, a fresh refinement of an integer solves. -/
private theorem constrain_solves_of_pieces (params : Params) {t : IntType} {S : ℤ → ℤ → Prop}
    {P : Prop} (h : op.Accepts (.int t) arg out) (hx : x.IsWord limit (.int t))
    (hy : IsOperand limit arg y) (hz : z.IsWord limit out)
    (hleaf : ∀ x' y', IsPiece (.int t) (x.throughInterval?.getD x) x' → IsOperandPiece arg y y' →
      Finding.Handles limit params.stops op z (.int t) arg S P x' y') :
    (x.constrain limit op z (.start params y)).Returns
      (Solved limit (.int t) arg S P .first x y) := by
  have htypes : checkTypes op x z (.start params y) = .ok () := checkTypes_eq_ok h hx hy hz rfl
  refine (Traced.returns_lift (P := fun _ => True) htypes trivial).bind fun _ _ => ?_
  exact constrainWithin_solves _ (by simp) hx hy
    (fun x' y' hx' hy' => eitherRangesOn_first (hleaf x' y' hx' hy')) _ (fresh_start params y) rfl
    rfl rfl

/-- A fresh refinement of words solves the pairs that reach the result. -/
theorem constrain_solves (params : Params) (h : op.Accepts w arg out)
    (hx : x.IsWord limit w) (hy : IsOperand limit arg y) (hz : z.IsWord limit out) :
    (x.constrain limit op z (.start params y)).Returns (Solved limit w arg
      (op.Reaches params.stops w.view (arg.getD w).view out.view z.values)
      (2 ≤ params.maxDepth ∧ ¬op.Blurs params.stops x y z) .first x y) := by
  cases w with
  | bit =>
    have htypes : checkTypes op x z (.start params y) = .ok () := checkTypes_eq_ok h hx hy hz rfl
    refine (Traced.returns_lift (P := fun _ => True) htypes trivial).bind fun _ _ => ?_
    exact (constrainWithin_bit_solves h hz hx hx hy (.inl rfl) (fresh_start params y) rfl _).mono
      fun q hq => hq.weaken And.left
  | int t =>
    refine constrain_solves_of_pieces params h hx hy hz fun x' y' hx' hy' => ?_
    exact Finding.handles_of_accepts h (by simp) (isWord_piece hx hx') (isOperand_piece hy hy') hz
      fun hP hb => hP.2 (hb.of_piece h hx hy hz hx' hy')

namespace Element

/-! ### Soundness -/

/-- A backward refinement returns, and every pair of operands whose execution may land in the result
survives it. -/
theorem constrain_keeps_reaching_pairs (params : Params) (h : op.Accepts w arg out)
    (hx : x.IsWord limit w) (hy : IsOperand limit arg y) (hz : z.IsWord limit out) :
    ∃ r, (x.constrain limit op z (.start params y)).value = .ok (true, r) ∧
      ∀ a ∈ x.values, ∀ b ∈ operandValues y,
        op.Reaches params.stops w.view (arg.getD w).view out.view z.values a b →
          r.eval.empty = false ∧ a ∈ (r.first.getD x).values ∧
            b ∈ operandValues (y.map r.second.getD) := by
  obtain ⟨⟨handled, r⟩, hr, rfl, hsolves, -⟩ := constrain_solves params h hx hy hz
  refine ⟨r, hr, fun a ha b hb hreach => ?_⟩
  obtain ⟨hlive, h1, h2⟩ := hsolves.sound a ha b hb hreach
  exact ⟨by simpa [found] using hlive, h1, h2⟩

/-- A range of four-bit integers divided by a list with zero, errors going on with any value. -/
theorem constrain_keeps_reaching_pairs_divide :
    let t : IntType := ⟨4, true, by decide, by decide⟩
    let x : Element := .word (.int t) (.interval ⟨-8, 6⟩)
    let y : Element := .word (.int t) (.disjunction [-1, 0, 3])
    let z : Element := .word (.int t) (.interval ⟨-8, -2⟩)
    let params : Params := .preset 4 .sure .propagate
    Operation.divide.Accepts (.int t) (some (.int t)) (.int t) ∧ x.IsWord 8 (.int t) ∧
      IsOperand 8 (some (.int t)) (some y) ∧ z.IsWord 8 (.int t) ∧
      ∃ r, (x.constrain 8 .divide z (.start params (some y))).value = .ok (true, r) ∧
        ∀ a ∈ x.values, ∀ b ∈ operandValues (some y),
          Operation.divide.Reaches params.stops t t t z.values a b →
            r.eval.empty = false ∧ a ∈ (r.first.getD x).values ∧
              b ∈ operandValues ((some y).map r.second.getD) := by
  intro t x y z params
  have h : Operation.divide.Accepts (.int t) (some (.int t)) (.int t) :=
    ⟨trivial, by decide, rfl⟩
  have hx : x.IsWord 8 (.int t) := by decide
  have hy : IsOperand 8 (some (.int t)) (some y) := by decide
  have hz : z.IsWord 8 (.int t) := by decide
  exact ⟨h, hx, hy, hz, constrain_keeps_reaching_pairs params h hx hy hz⟩

/-! ### Exact verdicts -/

/-- A blurred cast leaves a value that does not land in the result. -/
private theorem exists_unpaired_of_cast {dest : IntType} {s q : Shape} {r : Refinement}
    (h : (Operation.castInt dest).Accepts w none (.int dest)) (hs : s.WellFormed limit w)
    (hq : q.WellFormed limit (.int dest)) (hlist : ¬(word w s).IsListed)
    (hb : Narrowing.Blurs params.stops (q.bounds dest) dest (s.bounds w.view))
    (hr : ((word w s).constrain limit (.castInt dest) (.word (.int dest) q)
      (.start params none)).value = .ok (true, r)) :
    ∃ a ∈ (r.first.getD (word w s)).values, ∀ b, ¬(Operation.castInt dest).Reaches params.stops
      w.view w.view dest (word (.int dest) q).values a b := by
  cases w with
  | bit =>
    -- two values are too few
    refine absurd hb (Narrowing.not_blurs_of_lt hq.proper.bounds ?_)
    have h1 := WordType.contains_view_bit.mp hs.proper.bounds.lo_mem
    have h2 := WordType.contains_view_bit.mp hs.proper.bounds.hi_mem
    have := dest.modulus_pos
    omega
  | int t =>
    obtain ⟨s', hs', hbounds, hthrough, hlist'⟩ : ∃ s' : Shape, s'.WellFormed limit (.int t) ∧
        s'.bounds t = s.bounds t ∧
        (word (.int t) s).throughInterval?.getD (word (.int t) s) = word (.int t) s' ∧
        ¬(word (.int t) s').IsListed := by
      cases s with
      | top =>
        exact ⟨.interval t.full, Shape.wellFormed_full t, rfl, rfl, nofun⟩
      | _ => exact ⟨_, hs, rfl, rfl, hlist⟩
    have hb' : Narrowing.Blurs params.stops (q.bounds dest) dest (s'.bounds t) := hbounds.symm ▸ hb
    have hy : IsOperand limit none none := trivial
    obtain ⟨⟨_, r'⟩, hr', -, hkept, -⟩ := constrain_solves_of_pieces params h (isWord_word hs) hy
      (isWord_word hq) fun x' y' hx' hy' => by
        rw [hthrough] at hx'
        obtain rfl := hx'.resolve_right fun hlisted => hlist' hlisted.1
        obtain rfl := hy'.resolve_right (by simp)
        exact Finding.cast_handles_of_blurs hs' hlist' hb'
    cases hr.symm.trans hr'
    obtain ⟨a, ha, hwindow, hlands⟩ := Narrowing.exists_gap_of_blurs hq.proper.bounds hb'
    have hax : a ∈ (word (.int t) s).values := by
      rw [values_of_not_isListed hlist]
      exact hbounds ▸ ha
    refine ⟨a, (hkept.sound a hax 0 rfl hwindow).2.1, fun b => ?_⟩
    rintro ⟨v, hv, hvalue⟩
    exact hlands ⟨v, hq.proper.mem_bounds hv, hvalue⟩

/-- A concatenation that straddles keeps values of the second operand that go with no first one, if
it keeps any. -/
private theorem exists_unpaired_of_concat {t : IntType} {u : WordType} {s p q : Shape} {b : ℤ}
    {r : Refinement} (h : Operation.concat.Accepts (.int t) (some u) out)
    (hs : s.WellFormed limit (.int t)) (hp : p.WellFormed limit u) (hq : q.WellFormed limit out)
    (hst : Narrowing.Straddles u.view (q.bounds out.view)) (hb : p.contains u.view b = true)
    (hout : u.view.toBits b ∉ (⟨(q.bounds out.view).lo % pow2 u.view.width,
      (q.bounds out.view).hi % pow2 u.view.width⟩ : Range))
    (hr : ((word (.int t) s).constrain limit .concat (.word out q)
      (.start params (some (.word u p)))).value = .ok (true, r))
    (hfirst : ∃ a ∈ (word (.int t) s).values, ∃ b ∈ (word u p).values,
      Operation.concat.Reaches params.stops t u.view out.view (word out q).values a b) :
    b ∈ (r.second.getD (word u p)).values ∧ ∀ a, ¬Operation.concat.Reaches params.stops t u.view
      out.view (word out q).values a b := by
  have hy : IsOperand limit (some u) (some (.word u p)) := isWord_word hp
  obtain ⟨⟨_, r'⟩, hr', -, hkept, -⟩ := constrain_solves_of_pieces params h (isWord_word hs) hy
    (isWord_word hq) fun x' y' hx' hy' => by
      have hoperand := isOperand_piece hy hy'
      cases y' with
      | none => exact hoperand.elim
      | some o' =>
        have hword := isWord_piece (isWord_word hs) hx'
        exact Finding.concat_handles_of_straddles hword hoperand hq hst
  cases hr.symm.trans hr'
  have hsplit : ∀ {a b}, Operation.concat.Reaches params.stops t u.view out.view
      (word out q).values a b → _ := fun ⟨v, hv, hvalue⟩ =>
    Narrowing.split_of_reaches_concat hst.1 ⟨v, hq.proper.mem_bounds hv, hvalue⟩
  obtain ⟨a, ha, b', -, hreach⟩ := hfirst
  exact ⟨(hkept.sound a ha b hb (hsplit hreach).1).2.2, fun a h => hout (hsplit h).2⟩

/-- An exact verdict on an empty refinement means that no pair of operands reaches the result. On
one that is not empty it means that what is left of the operands are the projections of the pairs
that do, if and only if the refinement is not blurred. -/
theorem refined_eq_projections_iff_of_exact (params : Params) (hdepth : 4 ≤ params.maxDepth)
    (h : op.Accepts w arg out) (hx : x.IsWord limit w) (hy : IsOperand limit arg y)
    (hz : z.IsWord limit out) :
    ∃ r, (x.constrain limit op z (.start params y)).value = .ok (true, r) ∧
      (r.eval.verdict = .exact →
        (r.eval.empty = true → ∀ a ∈ x.values, ∀ b ∈ operandValues y,
          ¬op.Reaches params.stops w.view (arg.getD w).view out.view z.values a b) ∧
        (r.eval.empty = false →
          ((r.first.getD x).values = {a | a ∈ x.values ∧ ∃ b ∈ operandValues y,
              op.Reaches params.stops w.view (arg.getD w).view out.view z.values a b} ∧
            operandValues (y.map r.second.getD) = {b | b ∈ operandValues y ∧ ∃ a ∈ x.values,
              op.Reaches params.stops w.view (arg.getD w).view out.view z.values a b} ↔
            ¬op.Blurs params.stops x y z))) := by
  obtain ⟨⟨handled, r⟩, hr, rfl, hsolves, -⟩ := constrain_solves params h hx hy hz
  refine ⟨r, hr, fun hverdict => ⟨fun hempty a ha b hb hreach => ?_, fun hlive => ⟨?_, ?_⟩⟩⟩
  · exact (hsolves.sound a ha b hb hreach).1 (by simp [found, hempty])
  · rintro ⟨hfirst, hsecond⟩ hblurs
    cases hblurs with
    | @cast dest w' o s q hs hq hb =>
      obtain ⟨rfl, rfl⟩ := h.fits
      obtain ⟨s', hs', hwf⟩ := hx
      cases hs'
      obtain ⟨q', hq', hqf⟩ := hz
      cases hq'
      obtain ⟨a, ha, hnone⟩ := exists_unpaired_of_cast h hwf hqf hs hb hr
      rw [hfirst] at ha
      obtain ⟨-, b, -, hreach⟩ := ha
      exact hnone b hreach
    | @concat t u o s p q b hq hst hb hout =>
      -- the refinement is not empty, so some pair reaches the result
      obtain ⟨a, ha⟩ := hsolves.first.nonempty
      have ha : a ∈ (r.first.getD (word (.int t) s)).values := ha
      rw [hfirst] at ha
      obtain ⟨hax, b', hb', hreach⟩ := ha
      obtain ⟨s', hs', hwf⟩ := hx
      cases hs'
      obtain ⟨q', hq', hqf⟩ := hz
      cases hq'
      cases arg with
      | none => exact hy.elim
      | some u' =>
        obtain ⟨p', hp', hpf⟩ := hy
        cases hp'
        obtain ⟨hkept, hnone⟩ := exists_unpaired_of_concat h hwf hpf hqf hst hb hout hr
          ⟨a, hax, b', hb', hreach⟩
        have hkept : b ∈ operandValues ((some (word u p)).map r.second.getD) := hkept
        rw [hsecond] at hkept
        obtain ⟨-, a, -, hreach⟩ := hkept
        exact hnone a hreach
  · intro hclear
    have htight := hsolves.tight ⟨by omega, hclear⟩ (by simp [found, hlive, hverdict])
    refine ⟨Set.ext fun a => ⟨htight.1 a, ?_⟩, Set.ext fun b => ⟨htight.2 b, ?_⟩⟩
    · rintro ⟨ha, b, hb, hreach⟩
      exact (hsolves.sound a ha b hb hreach).2.1
    · rintro ⟨hb, a, ha, hreach⟩
      exact (hsolves.sound a ha b hb hreach).2.2

/-- A cast over eight wrap-arounds. -/
theorem refined_eq_projections_iff_of_exact_cast :
    let t : IntType := ⟨4, false, by decide, by decide⟩
    let dest : IntType := ⟨1, false, by decide, by decide⟩
    let x : Element := .word (.int t) (.interval ⟨5, 13⟩)
    let z : Element := .word (.int dest) (.constant 1)
    let params : Params := .preset 4 .sure .propagate
    4 ≤ params.maxDepth ∧ (Operation.castInt dest).Accepts (.int t) none (.int dest) ∧
      x.IsWord 8 (.int t) ∧ IsOperand 8 none none ∧ z.IsWord 8 (.int dest) ∧
      ∃ r, (x.constrain 8 (.castInt dest) z (.start params none)).value = .ok (true, r) ∧
        (r.eval.verdict = .exact →
          (r.eval.empty = true → ∀ a ∈ x.values, ∀ b ∈ operandValues none,
            ¬(Operation.castInt dest).Reaches params.stops t t dest z.values a b) ∧
          (r.eval.empty = false →
            ((r.first.getD x).values = {a | a ∈ x.values ∧ ∃ b ∈ operandValues none,
                (Operation.castInt dest).Reaches params.stops t t dest z.values a b} ∧
              operandValues ((none : Option Element).map r.second.getD) =
                {b | b ∈ operandValues none ∧ ∃ a ∈ x.values,
                  (Operation.castInt dest).Reaches params.stops t t dest z.values a b} ↔
              ¬(Operation.castInt dest).Blurs params.stops x none z))) := by
  intro t dest x z params
  have hdepth : 4 ≤ params.maxDepth := by decide
  have h : (Operation.castInt dest).Accepts (.int t) none (.int dest) := ⟨trivial, by decide, rfl⟩
  have hx : x.IsWord 8 (.int t) := by decide
  have hy : IsOperand 8 none none := trivial
  have hz : z.IsWord 8 (.int dest) := by decide
  exact ⟨hdepth, h, hx, hy, hz, refined_eq_projections_iff_of_exact params hdepth h hx hy hz⟩

/-- Two exact verdicts that are not true. A cast to one bit keeps the even numbers of its operand
for an odd result, and a concatenation keeps the low bits `0` for results that all have other
ones. -/
theorem exact_refinements_with_gaps :
    (let t : IntType := ⟨4, false, by decide, by decide⟩
      let dest : IntType := ⟨1, false, by decide, by decide⟩
      let x : Element := .word (.int t) (.interval ⟨5, 13⟩)
      let z : Element := .word (.int dest) (.constant 1)
      ((x.constrain 8 (.castInt dest) z
          (.start (.preset 4 .sure .propagate) none)).value.toOption.map
            fun q => (q.1, q.2.eval.verdict, q.2.eval.empty, q.2.first)) =
              some (true, .exact, false, none) ∧
        6 ∈ x.values ∧
          ∀ b, ¬(Operation.castInt dest).Reaches false t t dest z.values 6 b) ∧
      (let t : IntType := ⟨2, false, by decide, by decide⟩
        let u : IntType := ⟨2, true, by decide, by decide⟩
        let out : IntType := ⟨4, false, by decide, by decide⟩
        let x : Element := .word (.int t) (.interval ⟨0, 3⟩)
        let y : Element := .word (.int u) (.interval ⟨-2, 1⟩)
        let z : Element := .word (.int out) (.interval ⟨1, 2⟩)
        ((x.constrain 8 .concat z (.start (.preset 4 .sure .stop) (some y))).value.toOption.map
            fun q => (q.1, q.2.eval.verdict, q.2.eval.empty, q.2.second)) =
              some (true, .exact, false, none) ∧
          0 ∈ y.values ∧
            ∀ a ∈ x.values, ¬Operation.concat.Reaches true t u out z.values a 0) := by
  refine ⟨⟨by rfl, rfl, ?_⟩, by rfl, rfl, ?_⟩
  · rintro b ⟨v, hv, hvalue⟩
    rw [mem_values_word, Shape.contains_constant] at hv
    subst hv
    cases hvalue
  · rintro a - ⟨v, hv, hvalue⟩
    rw [mem_values_word, Shape.contains_interval, Bounds.mem_mk] at hv
    rw [Operation.execute, Outcome.mem_values_value, IntType.toNat_append] at hvalue
    have hscale : pow2 2 = 4 := by decide
    have hzero : IntType.toBits ⟨2, true, by decide, by decide⟩ 0 = 0 := by decide
    rw [hscale, hzero] at hvalue
    omega

end Element

end ScalarDomain
