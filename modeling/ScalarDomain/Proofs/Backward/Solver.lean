import ScalarDomain.Proofs.Backward.BitField
import ScalarDomain.Proofs.Backward.Bitwise
import ScalarDomain.Proofs.Backward.Comparison
import ScalarDomain.Proofs.Backward.Division
import ScalarDomain.Proofs.Backward.Logic
import ScalarDomain.Backward.Constrain

/-!
# What words find out about their operands

The solvers of all operations put together. On words without gaps `Finding.ofWords?` finds a
solution of the pairs whose execution reaches the result; it declines only when an operand is a
list. Two operations may call it exact although it is blurred (`Operation.Blurs`): casts over many
windows, and concatenations whose second operand lost its bounds.
-/

namespace ScalarDomain

/-! ### Blurred operands -/

/-- The refinements that keep operands which cannot give the result, and may call themselves exact
all the same. -/
inductive Operation.Blurs (stops : Bool) : Operation → Element → Option Element → Element → Prop
  /-- A cast whose operand spans many windows of the result, which leave gaps. -/
  | cast {dest : IntType} {w o : WordType} {s q : Shape} (hs : s.precision ≠ .disjunction)
      (hq : q.precision ≠ .disjunction)
      (h : Narrowing.Blurs stops (q.bounds o.view) dest (s.bounds w.view)) :
      Blurs stops (.castInt dest) (.word w s) none (.word o q)
  /-- A concatenation whose results have the same high bits, and low bits on both sides of the
  middle of the second operand's type, where that operand has some other value. -/
  | concat {t : IntType} {u o : WordType} {s p q : Shape} {b : ℤ}
      (hq : q.precision ≠ .disjunction) (h : Narrowing.Straddles u.view (q.bounds o.view))
      (hb : p.contains u.view b = true)
      (hout : u.view.toBits b ∉ (⟨(q.bounds o.view).lo % pow2 u.view.width,
        (q.bounds o.view).hi % pow2 u.view.width⟩ : Range)) :
      Blurs stops .concat (.word (.int t) s) (some (.word u p)) (.word o q)

namespace Narrowing

variable {op : Operation} {w u out : WordType} {x y z : Range}

/-! ### Ranges -/

/-- The solver of an operation with one operand. -/
theorem solve_unary (stops c : Bool) (Y : Set ℤ) (h : op.Fits w none out) (hx : x.Proper w.view)
    (hz : z.Proper out.view) :
    (solve stops op ⟨⟨w.view, x⟩, none, ⟨out.view, z⟩, c⟩).Keeps
        (op.Reaches stops w.view w.view out.view z.toSet) x.toSet Y ∧
      ((∀ dest, op = .castInt dest → ¬Blurs stops z dest x) →
        (solve stops op ⟨⟨w.view, x⟩, none, ⟨out.view, z⟩, c⟩).IsTight
          (op.Reaches stops w.view w.view out.view z.toSet) x.toSet Y) ∧
      (solve stops op ⟨⟨w.view, x⟩, none, ⟨out.view, z⟩, c⟩).secondRange? = none := by
  -- all solvers but one are exact without a condition
  have hspec : ∀ {n : Narrowing} {R : ℤ → ℤ → Prop} {Q : Prop}, n.Inverts R x.toSet Y →
      n.secondRange? = none → n.Keeps R x.toSet Y ∧ (Q → n.IsTight R x.toSet Y) ∧
        n.secondRange? = none :=
    fun hi hs => ⟨hi.keeps, fun _ => hi.tight, hs⟩
  cases op with
  | prev =>
    obtain ⟨-, rfl⟩ := h
    exact hspec (prev_inverts hx hz) (by simp [solve, prev])
  | next =>
    obtain ⟨-, rfl⟩ := h
    exact hspec (next_inverts hx hz) (by simp [solve, next])
  | opposite =>
    obtain ⟨-, rfl⟩ := h
    exact hspec (opposite_inverts hx hz) (by simp [solve, opposite])
  | bitNegate =>
    obtain ⟨-, rfl⟩ := h
    exact hspec (bitNegate_inverts hx hz) (by simp [solve, bitNegate])
  | castInt dest =>
    obtain ⟨-, rfl⟩ := h
    exact ⟨castInt_keeps hz, fun hb => castInt_isTight hz (hb dest rfl), by simp [solve, castInt]⟩
  | extend fill bits =>
    obtain ⟨-, hpos, wide, rfl, hwidth, hsigned⟩ := h
    have hlt : w.view.width < wide.width := by omega
    exact hspec (extend_inverts hx hlt hsigned) (by simp [solve, extend])
  | reduce low high => exact hspec (reduce_inverts hx) (by simp [solve])
  | logicalNegate | castBit | castFloat dest =>
    exact ⟨keeps_unknown, fun _ => isTight_of_not_exact, rfl⟩
  | compare _ | plus | minus | times | divide | modulo | extremum _ | bitwise _ | shift _
  | rotate _ | connective _ => exact absurd h.1 (by simp)
  | concat =>
    obtain ⟨_, _, h, -⟩ := h
    cases h
  | bitSet low high =>
    obtain ⟨_, h, -⟩ := h
    cases h

/-- The solver of an operation with two operands. -/
theorem solve_binary (stops c : Bool) (h : op.Fits w (some u) out) (hx : x.Proper w.view)
    (hy : y.Proper u.view) (hz : z.Proper out.view) :
    (solve stops op ⟨⟨w.view, x⟩, some ⟨u.view, y⟩, ⟨out.view, z⟩, c⟩).Keeps
        (op.Reaches stops w.view u.view out.view z.toSet) x.toSet y.toSet ∧
      ((op = .concat → Straddles u.view z → ∀ b ∈ y, u.view.toBits b ∈
          (⟨z.lo % pow2 u.view.width, z.hi % pow2 u.view.width⟩ : Range)) →
        (solve stops op ⟨⟨w.view, x⟩, some ⟨u.view, y⟩, ⟨out.view, z⟩, c⟩).IsTight
          (op.Reaches stops w.view u.view out.view z.toSet) x.toSet y.toSet) := by
  have hspec : ∀ {n : Narrowing} {R : ℤ → ℤ → Prop} {Q : Prop}, n.Inverts R x.toSet y.toSet →
      n.Keeps R x.toSet y.toSet ∧ (Q → n.IsTight R x.toSet y.toSet) :=
    fun hi => ⟨hi.keeps, fun _ => hi.tight⟩
  cases op with
  | compare cmp =>
    obtain ⟨⟨⟩, rfl⟩ := h
    obtain ⟨h0, -, h1⟩ := hz.bounds
    exact hspec (compare_inverts cmp hx.le hy.le hz.le h0 h1)
  | plus =>
    obtain ⟨⟨⟩, rfl⟩ := h
    exact hspec (plus_inverts hx hy hz)
  | minus =>
    obtain ⟨⟨⟩, rfl⟩ := h
    exact hspec (minus_inverts hx hy hz)
  | times =>
    obtain ⟨⟨⟩, rfl⟩ := h
    exact hspec (times_inverts hz)
  | divide =>
    obtain ⟨⟨⟩, rfl⟩ := h
    exact hspec (divide_inverts hx hy hz)
  | modulo =>
    obtain ⟨⟨⟩, rfl⟩ := h
    exact hspec modulo_inverts
  | extremum e =>
    obtain ⟨⟨⟩, rfl⟩ := h
    exact hspec (extremum_inverts e)
  | bitwise bw =>
    obtain ⟨⟨⟩, rfl⟩ := h
    exact hspec (bitwise_inverts bw hx hy hz)
  | shift d =>
    obtain ⟨-, rfl⟩ := h
    exact hspec (shift_inverts d hx)
  | rotate d =>
    obtain ⟨-, rfl⟩ := h
    exact hspec (rotate_inverts d hx hz)
  | concat =>
    obtain ⟨_, t, ⟨⟩, rfl, hwidth, hsigned⟩ := h
    exact ⟨concat_keeps hx hy hz.le, fun hb => concat_isTight hz hwidth hsigned (hb rfl)⟩
  | bitSet low high =>
    obtain ⟨_, ⟨⟩, rfl, hl, hh, hu⟩ := h
    exact hspec (bitSet_inverts hl hh hu hx hy hz)
  | connective c => exact ⟨keeps_unknown, fun _ => isTight_of_not_exact⟩
  | castFloat dest => exact h.elim
  | prev | next | opposite | bitNegate | logicalNegate | castBit | castInt _ | extend _ _
  | reduce _ _ => exact absurd h.1 (by simp)

end Narrowing

/-! ### Words -/

section

variable {limit : ℕ} {op : Operation} {w out : WordType} {arg : Option WordType} {x z : Element}
  {y : Option Element} {stops : Bool} {R : ℤ → ℤ → Prop} {P : Prop}

/-- The element is a list of values. -/
def Element.IsListed (e : Element) : Prop :=
  e.precision = .disjunction

/-- One of the operands is a list of values. -/
def HasList (x : Element) (y : Option Element) : Prop :=
  x.IsListed ∨ ∃ o, y = some o ∧ o.IsListed

theorem HasList.swap {o : Element} (h : HasList x (some o)) : HasList o (some x) := by
  rcases h with hx | ⟨_, ⟨⟩, ho⟩
  · exact .inr ⟨x, rfl, hx⟩
  · exact .inl ho

theorem Frame.isConvex_iff {e : Element} : isConvex e = true ↔ ¬e.IsListed := by
  simp [isConvex, Element.IsListed]

/-- The values of a word that is no list are those between its ends. -/
theorem Element.values_of_not_isListed {s : Shape} (h : ¬(word w s).IsListed) :
    (word w s).values = (s.bounds w.view).toSet :=
  Set.ext fun _ => Shape.contains_iff_mem_bounds h

/-- The frame of one operand. -/
theorem frame_unary {s q : Shape} (h : ¬(Element.word w s).IsListed) :
    Frame.of? (.word w s) none (.word out q) =
      some ⟨⟨w.view, s.bounds w.view⟩, none, ⟨out.view, q.bounds out.view⟩,
        Frame.isConvex (.word out q)⟩ := by
  simp [Frame.of?, Frame.isConvex_iff.mpr h, Span.of?, Element.intBounds?]

/-- The frame of two operands. -/
theorem frame_binary {u : WordType} {s p q : Shape} (hs : ¬(Element.word w s).IsListed)
    (hp : ¬(Element.word u p).IsListed) :
    Frame.of? (.word w s) (some (.word u p)) (.word out q) =
      some ⟨⟨w.view, s.bounds w.view⟩, some ⟨u.view, p.bounds u.view⟩,
        ⟨out.view, q.bounds out.view⟩, Frame.isConvex (.word out q)⟩ := by
  simp [Frame.of?, Frame.isConvex_iff.mpr hs, Frame.isConvex_iff.mpr hp, Span.of?,
    Element.intBounds?]

theorem frame_none (h : HasList x y) : Frame.of? x y z = none := by
  have hx : ∀ {e : Element}, e.IsListed → Frame.isConvex e = false := fun he => by
    simp [Frame.isConvex, show _ = _ from he]
  rcases h with h | ⟨o, rfl, h⟩ <;> simp [Frame.of?, hx h]

/-- Words solve an operation on ranges, unless it tests for zero or makes floats. -/
def Operation.IsRanged : Operation → Prop
  | logicalNegate | castBit | connective _ | castFloat _ => False
  | _ => True

namespace Finding

/-- Words find a solution of a relation, or they decline because an operand is a list. -/
def Handles (limit : ℕ) (stops : Bool) (op : Operation) (z : Element) (w : WordType)
    (arg : Option WordType) (R : ℤ → ℤ → Prop) (P : Prop) (x : Element) (y : Option Element) :
    Prop :=
  (∃ f, ofWords? limit stops op x y z = .ok (some f) ∧ f.Solves limit w arg R P x y) ∨
    (ofWords? limit stops op x y z = .ok none ∧ HasList x y)

/-- An operation that is solved on ranges. -/
def OnRanges (limit : ℕ) (stops : Bool) (op : Operation) (x : Element) (y : Option Element)
    (z : Element) : Prop :=
  ofWords? limit stops op x y z = (Frame.of? x y z).elim (.ok none) fun f =>
    ((Narrowing.solve stops op f).finding limit f.convex x y).map some

theorem onRanges (hop : op.IsRanged) : OnRanges limit stops op x y z := by
  cases op with
  | logicalNegate | castBit | connective _ | castFloat _ => exact hop.elim
  | _ =>
    simp only [OnRanges, ofWords?]
    cases Frame.of? x y z <;> rfl

theorem handles_of_hasList (hop : OnRanges limit stops op x y z) (h : HasList x y) :
    Handles limit stops op z w arg R P x y :=
  .inr ⟨by rw [hop, frame_none h]; rfl, h⟩

/-- A solver that keeps the admitted pairs handles them. -/
theorem handles_of_frame {f : Frame} (hop : OnRanges limit stops op x y z)
    (hx : x.IsWord limit w) (hy : IsOperand limit arg y) (hf : Frame.of? x y z = some f)
    (hsecond : y = none → (Narrowing.solve stops op f).secondRange? = none)
    (hkeeps : (Narrowing.solve stops op f).Keeps R x.values (operandValues y))
    (htight : P → f.convex = true →
      (Narrowing.solve stops op f).IsTight R x.values (operandValues y)) :
    Handles limit stops op z w arg R P x y := by
  obtain ⟨g, hg, hsolves⟩ := Narrowing.finding_solves hx hy hsecond hkeeps htight
  refine .inl ⟨g, ?_, hsolves⟩
  rw [hop, hf, Option.elim_some, hg]
  rfl

/-- Operations on ranges handle the pairs whose execution reaches the result. -/
private theorem ranges_handle (hop : OnRanges limit stops op x y z) (h : op.Fits w arg out)
    (hw : P → w ≠ .bit) (hx : x.IsWord limit w) (hy : IsOperand limit arg y)
    (hz : z.IsWord limit out) (hclear : P → ¬op.Blurs stops x y z) :
    Handles limit stops op z w arg
      (op.Reaches stops w.view (arg.getD w).view out.view z.values) P x y := by
  by_cases hlist : HasList x y
  · exact handles_of_hasList hop hlist
  have hword := hx
  obtain ⟨s, rfl, hs⟩ := hx
  obtain ⟨q, rfl, hq⟩ := hz
  have hxl : ¬(Element.word w s).IsListed := fun h => hlist (.inl h)
  -- the result lies between its ends, and is all of it unless it is a list
  have hsub : ∀ {t u : IntType} a b,
      op.Reaches stops t u out.view (Element.word out q).values a b →
        op.Reaches stops t u out.view (q.bounds out.view).toSet a b := by
    rintro t u a b ⟨v, hv, hR⟩
    exact ⟨v, hq.proper.mem_bounds hv, hR⟩
  cases arg with
  | none =>
    cases y with
    | some y => exact hy.elim
    | none =>
      obtain ⟨hkeeps, htight, hsecond⟩ := Narrowing.solve_unary stops
        (Frame.isConvex (.word out q)) {0} h hs.proper.bounds hq.proper.bounds
      refine handles_of_frame hop hword hy (frame_unary hxl) (fun _ => hsecond) ?_ ?_
      · rw [Element.values_of_not_isListed hxl]
        exact hkeeps.mono hsub
      · intro hP hconvex
        have hzl := Frame.isConvex_iff.mp hconvex
        rw [Element.values_of_not_isListed hxl, Element.values_of_not_isListed hzl]
        refine htight fun dest hdest hblurs => hclear hP ?_
        subst hdest
        exact .cast hxl hzl hblurs
  | some u =>
    cases y with
    | none => exact hy.elim
    | some y =>
      have hoperand := hy
      obtain ⟨p, rfl, hp⟩ := hy
      have hpl : ¬(Element.word u p).IsListed := fun h => hlist (.inr ⟨_, rfl, h⟩)
      obtain ⟨hkeeps, htight⟩ := Narrowing.solve_binary stops (Frame.isConvex (.word out q)) h
        hs.proper.bounds hp.proper.bounds hq.proper.bounds
      refine handles_of_frame hop hword hoperand (frame_binary hxl hpl) (by simp) ?_ ?_
      · rw [operandValues, Element.values_of_not_isListed hxl, Element.values_of_not_isListed hpl]
        exact hkeeps.mono hsub
      · intro hP hconvex
        have hzl := Frame.isConvex_iff.mp hconvex
        rw [operandValues, Element.values_of_not_isListed hxl, Element.values_of_not_isListed hpl,
          Element.values_of_not_isListed hzl]
        refine htight fun hconcat hst b hb => ?_
        subst hconcat
        by_contra hout
        cases w with
        | bit => exact hw hP rfl
        | int t =>
          exact hclear hP (.concat hzl hst ((Shape.contains_iff_mem_bounds hpl).mpr hb) hout)

/-- Words handle the pairs whose execution reaches the result. -/
theorem handles_of_accepts (h : op.Accepts w arg out) (hw : P → w ≠ .bit) (hx : x.IsWord limit w)
    (hy : IsOperand limit arg y) (hz : z.IsWord limit out) (hclear : P → ¬op.Blurs stops x y z) :
    Handles limit stops op z w arg
      (op.Reaches stops w.view (arg.getD w).view out.view z.values) P x y := by
  have hfits := h.fits
  cases op with
  | logicalNegate =>
    obtain ⟨rfl, rfl⟩ := hfits
    cases y with
    | some y => exact hy.elim
    | none =>
      refine .inl ⟨_, rfl, zeroTest_solves hx hz fun a b => ?_⟩
      simp [Operation.Reaches, Operation.execute]
  | castBit =>
    obtain ⟨rfl, rfl⟩ := hfits
    cases y with
    | some y => exact hy.elim
    | none =>
      refine .inl ⟨_, rfl, zeroTest_solves hx hz fun a b => ?_⟩
      simp [Operation.Reaches, Operation.execute]
  | connective c =>
    obtain ⟨rfl, rfl⟩ := hfits
    cases y with
    | none => exact hy.elim
    | some y =>
      refine .inl ⟨_, rfl, connective_solves hx hy hz fun a b => ?_⟩
      simp [Operation.Reaches, Operation.execute]
  | castFloat dest => exact hfits.elim
  | _ => exact ranges_handle (onRanges trivial) hfits hw hx hy hz hclear

/-! ### What blurred refinements keep -/

/-- A blurred cast keeps everything from the first window of the result to the last one. -/
theorem cast_handles_of_blurs {dest : IntType} {s q : Shape} (hs : s.WellFormed limit w)
    (hlist : ¬(Element.word w s).IsListed)
    (hb : Narrowing.Blurs stops (q.bounds dest) dest (s.bounds w.view)) :
    Handles limit stops (.castInt dest) (.word (.int dest) q) w none
      (fun a _ =>
        (q.bounds dest).lo +
          Narrowing.firstWindow (q.bounds dest) dest (s.bounds w.view) * dest.modulus ≤ a ∧
        a ≤ (q.bounds dest).hi +
          Narrowing.lastWindow (q.bounds dest) dest (s.bounds w.view) * dest.modulus)
      False (.word w s) none := by
  refine handles_of_frame (onRanges trivial) (Element.isWord_word hs) trivial (frame_unary hlist)
    (fun _ => ?_) ?_ False.elim
  · simp [Narrowing.solve, Narrowing.castInt]
  · rw [Element.values_of_not_isListed hlist]
    exact Narrowing.castInt_keeps_of_blurs hb

/-- A concatenation that straddles keeps all of its second operand, next to the first operands that
have the high bits of the result. -/
theorem concat_handles_of_straddles {u : WordType} {o : Element} {q : Shape}
    (hx : x.IsWord limit w) (ho : o.IsWord limit u) (hq : q.WellFormed limit out)
    (hst : Narrowing.Straddles u.view (q.bounds out.view)) :
    Handles limit stops .concat (.word out q) w (some u)
      (fun a _ => w.view.toBits a = (q.bounds out.view).lo / pow2 u.view.width) False
      x (some o) := by
  have hop : OnRanges limit stops .concat x (some o) (.word out q) := onRanges trivial
  by_cases hlist : HasList x (some o)
  · exact handles_of_hasList hop hlist
  have hword := hx
  have hoperand := ho
  obtain ⟨s, rfl, hs⟩ := hx
  obtain ⟨p, rfl, hp⟩ := ho
  have hxl : ¬(Element.word w s).IsListed := fun h => hlist (.inl h)
  have hpl : ¬(Element.word u p).IsListed := fun h => hlist (.inr ⟨_, rfl, h⟩)
  refine handles_of_frame hop hword hoperand (frame_binary hxl hpl) (by simp) ?_ False.elim
  rw [operandValues, Element.values_of_not_isListed hxl, Element.values_of_not_isListed hpl]
  exact Narrowing.concat_keeps_of_straddles hs.proper.bounds hp.proper.bounds hq.proper.bounds.le
    hst

end Finding

end

end ScalarDomain
