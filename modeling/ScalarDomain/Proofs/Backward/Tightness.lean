import ScalarDomain.Proofs.Backward.Pruning

/-!
# Inverted windows are as tight as ranges can be

Steps, opposites, sums, differences and casts store a mathematical result that depends on the
operands by additions and changes of sign. Their solvers invert each window of the result on its
own, take the hull of what they find and leave the cut to the operand for the end. Nothing is lost
on the way: every piece meets the operand, and its ends, cut to the operand, belong to operands
whose result lands (`Bounds.EndsIn`). So do the ends of the hull, whatever the number of windows,
and a refinement of words without gaps ends in the smallest ranges around the pairs that reach the
result.
-/

namespace ScalarDomain

/-- The integers at the ends of a range cut to another one belong to a set. -/
def Bounds.EndsIn (q x : Range) (F : Set ℤ) : Prop :=
  max q.lo x.lo ∈ F ∧ min q.hi x.hi ∈ F

namespace Bounds

variable {F : Set ℤ} {x q : Range}

/-- A hull ends where some of its pieces end. -/
theorem endsIn_of_hull?_eq_some {pieces : List Range} (h : ∀ p ∈ pieces, p.EndsIn x F)
    (hq : hull? pieces = some q) : q.EndsIn x F := by
  obtain ⟨⟨p, hp, hlo⟩, p', hp', hhi⟩ := exists_ends_of_hull?_eq_some hq
  exact ⟨hlo ▸ (h p hp).1, hhi ▸ (h p' hp').2⟩

/-- A range that meets another one and has nothing but members of the set there. -/
theorem endsIn_of_forall {a : ℤ} (ha : a ∈ x) (haq : a ∈ q) (h : ∀ a ∈ x, a ∈ q → a ∈ F) :
    q.EndsIn x F := by
  obtain ⟨h1, h2⟩ := ha
  obtain ⟨h3, h4⟩ := haq
  refine ⟨h _ ⟨?_, ?_⟩ ⟨?_, ?_⟩, h _ ⟨?_, ?_⟩ ⟨?_, ?_⟩⟩ <;> omega

theorem endsIn_of_mem (hlo : q.lo ∈ x) (hhi : q.hi ∈ x) (hloF : q.lo ∈ F) (hhiF : q.hi ∈ F) :
    q.EndsIn x F :=
  ⟨(max_eq_left hlo.1).symm ▸ hloF, (min_eq_left hhi.2).symm ▸ hhiF⟩

/-- The values of a range within a range, if there is one. -/
theorem mem_cut {r : Option Range} {a : ℤ} :
    a ∈ (⟨max (r.getD x).lo x.lo, min (r.getD x).hi x.hi⟩ : Range) ↔ a ∈ x ∧ ∀ q ∈ r, a ∈ q := by
  cases r with
  | none => simp [mem_def]
  | some q =>
    simp only [mem_def, Option.getD_some, Option.mem_some_iff, forall_eq']
    omega

end Bounds

namespace Narrowing

variable {stops c exact : Bool} {t u : IntType} {x y z span p : Range} {R : ℤ → ℤ → Prop}
  {F : Set (ℤ × ℤ)}

/-- The pairs of operands that a relation admits. -/
def admitted (R : ℤ → ℤ → Prop) (X Y : Set ℤ) : Set (ℤ × ℤ) :=
  {p | p.1 ∈ X ∧ p.2 ∈ Y ∧ R p.1 p.2}

/-- Cut to the operands, the ranges of a narrowing end at operands of some pairs. -/
def IsSharp (F : Set (ℤ × ℤ)) (x y : Range) : Narrowing → Prop
  | impossible => True
  | within r s _ => (r.getD x).EndsIn x (Prod.fst '' F) ∧ (s.getD y).EndsIn y (Prod.snd '' F)

/-- Operands that are left belong to no pair only if there is none. -/
def IsLive (R : ℤ → ℤ → Prop) (X Y : Set ℤ) : Narrowing → Prop
  | impossible => True
  | within r s _ => ∀ a ∈ X, (∀ q ∈ r, a ∈ q) → ∀ b ∈ Y, (∀ q ∈ s, b ∈ q) →
      (admitted R X Y).Nonempty

/-- The ends of a range belong to pairs, so that there are some. -/
theorem IsSharp.isLive {X Y : Set ℤ} {n : Narrowing} (h : n.IsSharp (admitted R X Y) x y) :
    n.IsLive R X Y := by
  cases n with
  | impossible => trivial
  | within r s exact =>
    obtain ⟨p, hp, -⟩ := h.1.1
    exact fun _ _ _ _ _ _ => ⟨p, hp⟩

/-- Pieces that end at operands of pairs have a hull that does. -/
theorem isSharp_ofPieces {pieces : List Range} (h : ∀ q ∈ pieces, q.EndsIn x (Prod.fst '' F))
    (hy : F.Nonempty → y.EndsIn y (Prod.snd '' F)) : (ofPieces pieces exact).IsSharp F x y := by
  rw [ofPieces]
  split
  · next q hq =>
    have hends := Bounds.endsIn_of_hull?_eq_some h hq
    exact ⟨hends, hy (Set.image_nonempty.mp ⟨_, hends.1⟩)⟩
  · trivial

/-- So do pairs of pieces. -/
theorem isSharp_ofPairs {pairs : List (Range × Range)}
    (h : ∀ q ∈ pairs, q.1.EndsIn x (Prod.fst '' F) ∧ q.2.EndsIn y (Prod.snd '' F)) :
    (ofPairs pairs exact).IsSharp F x y := by
  rw [ofPairs]
  cases hr : Bounds.hull? (pairs.map (·.1)) with
  | none => trivial
  | some r =>
    cases hs : Bounds.hull? (pairs.map (·.2)) with
    | none => trivial
    | some s =>
      refine ⟨Bounds.endsIn_of_hull?_eq_some (fun q hq => ?_) hr,
        Bounds.endsIn_of_hull?_eq_some (fun q hq => ?_) hs⟩ <;>
        obtain ⟨p, hp, rfl⟩ := List.mem_map.mp hq
      exacts [(h p hp).1, (h p hp).2]

/-! ### Targets -/

/-- Targets lie in the span. -/
theorem mem_span_of_mem_wrappedTargets {m : ℤ} (hp : p ∈ wrappedTargets stops z t span)
    (hm : m ∈ p) : m ∈ span := by
  cases stops with
  | true =>
    simp only [wrappedTargets, if_true, Option.mem_toList] at hp
    exact ((Bounds.mem_of_meet?_eq_some hp).mp hm).1
  | false =>
    rw [wrappedTargets_false] at hp
    split_ifs at hp
    · cases hp
    · exact ((Bounds.mem_of_meet?_eq_some (Option.mem_toList.mp hp)).mp hm).1
    · obtain ⟨k, -, hk⟩ := List.mem_filterMap.mp hp
      exact ((Bounds.mem_of_meet?_eq_some hk).mp hm).1

/-- The ends of a target land in the result. If there are many windows, the lower end lies in the
first one and the upper end in the last one. -/
theorem lands_ends_of_mem_wrappedTargets (hz : z.Proper t)
    (hp : p ∈ wrappedTargets stops z t span) :
    Outcome.Lands stops t z p.lo ∧ Outcome.Lands stops t z p.hi := by
  have hle := le_of_mem_wrappedTargets hp
  by_cases hb : Blurs stops z t span
  · obtain ⟨rfl, hmany, -⟩ := hb
    have hnot : ¬lastWindow z t span < firstWindow z t span := by
      have : (0 : ℤ) ≤ maxPieces := Int.natCast_nonneg _
      omega
    rw [wrappedTargets_false, if_neg hnot, if_pos hmany, Option.mem_toList] at hp
    have hfirst := (ceilDiv_le_iff t.modulus_pos).mp (le_refl (firstWindow z t span))
    have hlast := (le_floorDiv_iff t.modulus_pos).mp (le_refl (lastWindow z t span))
    have hzle := hz.le
    simp only [Bounds.meet?] at hp
    split at hp
    · cases hp
      simp only [lands_false_iff hz]
      exact ⟨⟨firstWindow z t span, by omega, by omega⟩, lastWindow z t span, by omega, by omega⟩
    · cases hp
  · exact ⟨lands_of_mem_wrappedTargets hz hb hp ⟨le_rfl, hle⟩,
      lands_of_mem_wrappedTargets hz hb hp ⟨hle, le_rfl⟩⟩

/-! ### Solvers -/

/-- With no second operand, the one value that stands for it is taken if any pair is. -/
theorem endsIn_point (R : ℤ → ℤ → Prop) (X : Set ℤ) (h : (admitted R X {0}).Nonempty) :
    (Bounds.point 0).EndsIn (.point 0) (Prod.snd '' admitted R X {0}) := by
  obtain ⟨⟨a, b⟩, ha, rfl, hR⟩ := h
  exact ⟨⟨_, ⟨ha, rfl, hR⟩, rfl⟩, _, ⟨ha, rfl, hR⟩, rfl⟩

/-- The values that change into a target end at values that land in the result. -/
theorem Shifts.isSharp {g : ℤ → ℤ} {pre : Range → Range} (h : Shifts g x span pre)
    (hx : x.Proper t) (hz : z.Proper t) :
    (ofPieces ((wrappedTargets stops z t span).map pre) true).IsSharp
      (admitted (fun a _ => Outcome.Lands stops t z (g a)) x.toSet {0}) x (.point 0) := by
  refine isSharp_ofPieces (fun q hq => ?_) (endsIn_point _ _)
  obtain ⟨p, hp, rfl⟩ := List.mem_map.mp hq
  have hle := le_of_mem_wrappedTargets hp
  obtain ⟨a, ha, hga⟩ := (h.mem_span p.lo).mp (mem_span_of_mem_wrappedTargets hp ⟨le_rfl, hle⟩)
  refine Bounds.endsIn_of_forall ha ((h.mem_pre p a).mpr (hga ▸ ⟨le_rfl, hle⟩)) fun a ha haq => ?_
  exact ⟨(a, 0), ⟨ha, rfl, lands_of_mem_wrappedTargets hz (h.not_blurs hx hz) hp
    ((h.mem_pre p a).mp haq)⟩, rfl⟩

/-- So do the operands of a sum or difference. -/
theorem Combines.isSharp {g : ℤ → ℤ → ℤ} {first second : Range → Range}
    (h : Combines g x y span first second) (hx : x.Proper t) (hy : y.Proper t) (hz : z.Proper t) :
    (ofPairs ((wrappedTargets stops z t span).map fun r => (first r, second r)) true).IsSharp
      (admitted (fun a b => Outcome.Lands stops t z (g a b)) x.toSet y.toSet) x y := by
  refine isSharp_ofPairs fun q hq => ?_
  obtain ⟨p, hp, rfl⟩ := List.mem_map.mp hq
  have hle := le_of_mem_wrappedTargets hp
  have hlands := fun m => lands_of_mem_wrappedTargets (m := m) hz (h.not_blurs hx hy hz) hp
  -- the lower end of the target is a value of some pair, which lies in both ranges
  obtain ⟨a, ha, b, hb, hg⟩ :=
    (h.mem_span p.lo).mp (mem_span_of_mem_wrappedTargets hp ⟨le_rfl, hle⟩)
  have hmem : g a b ∈ p := hg ▸ ⟨le_rfl, hle⟩
  constructor
  · refine Bounds.endsIn_of_forall ha ((h.mem_first p hle a ha).mpr ⟨b, hb, hmem⟩)
      fun a ha haq => ?_
    obtain ⟨b, hb, hab⟩ := (h.mem_first p hle a ha).mp haq
    exact ⟨(a, b), ⟨ha, hb, hlands _ hab⟩, rfl⟩
  · refine Bounds.endsIn_of_forall hb ((h.mem_second p hle b hb).mpr ⟨a, ha, hmem⟩)
      fun b hb hbq => ?_
    obtain ⟨a, ha, hab⟩ := (h.mem_second p hle b hb).mp hbq
    exact ⟨(a, b), ⟨ha, hb, hlands _ hab⟩, rfl⟩

/-- The operands of a cast end in the first and the last window. -/
theorem castInt_isSharp {dest : IntType} (hz : z.Proper dest) :
    (castInt stops ⟨⟨t, x⟩, none, ⟨dest, z⟩, c⟩).IsSharp
      (admitted ((Operation.castInt dest).Reaches stops t u dest z.toSet) x.toSet {0}) x
      (.point 0) := by
  refine isSharp_ofPieces (fun q hq => ?_) (endsIn_point _ _)
  have hle := le_of_mem_wrappedTargets hq
  have hlo := mem_span_of_mem_wrappedTargets hq ⟨le_rfl, hle⟩
  have hhi := mem_span_of_mem_wrappedTargets hq ⟨hle, le_rfl⟩
  obtain ⟨hlands, hlands'⟩ := lands_ends_of_mem_wrappedTargets hz hq
  exact Bounds.endsIn_of_mem hlo hhi ⟨(q.lo, 0), ⟨hlo, rfl, hlands⟩, rfl⟩
    ⟨(q.hi, 0), ⟨hhi, rfl, hlands'⟩, rfl⟩

end Narrowing

/-- The operations that store a sum of the operands, their opposites and a constant. -/
def Operation.IsAffine : Operation → Prop
  | prev | next | opposite | castInt _ | plus | minus => True
  | _ => False

theorem Operation.IsAffine.isRanged {op : Operation} (hop : op.IsAffine) : op.IsRanged := by
  cases op with
  | prev | next | opposite | castInt _ | plus | minus => trivial
  | _ => exact hop.elim

/-- The operands of a binary one have the same type. -/
theorem Operation.IsAffine.arg_eq {op : Operation} {w out : WordType} {arg : Option WordType}
    {limit : ℕ} {o : Element} (hop : op.IsAffine) (h : op.Fits w arg out)
    (hy : IsOperand limit arg (some o)) : arg = some w := by
  cases op with
  | plus | minus => exact h.1
  | prev | next | opposite | castInt _ =>
    obtain ⟨rfl, -⟩ := h
    exact hy.elim
  | _ => exact hop.elim

namespace Narrowing

variable {op : Operation} {w u out : WordType} {x y z : Range}

theorem solve_isSharp_unary (stops c : Bool) (hop : op.IsAffine) (h : op.Fits w none out)
    (hx : x.Proper w.view) (hz : z.Proper out.view) :
    (solve stops op ⟨⟨w.view, x⟩, none, ⟨out.view, z⟩, c⟩).IsSharp
      (admitted (op.Reaches stops w.view w.view out.view z.toSet) x.toSet {0}) x (.point 0) := by
  cases op with
  | prev =>
    obtain ⟨-, rfl⟩ := h
    exact (shifts_prev x).isSharp hx hz
  | next =>
    obtain ⟨-, rfl⟩ := h
    exact (shifts_next x).isSharp hx hz
  | opposite =>
    obtain ⟨-, rfl⟩ := h
    exact (shifts_opposite x).isSharp hx hz
  | castInt dest =>
    obtain ⟨-, rfl⟩ := h
    exact castInt_isSharp hz
  | plus | minus => exact absurd h.1 (by simp)
  | _ => exact hop.elim

theorem solve_isSharp_binary (stops c : Bool) (hop : op.IsAffine) (h : op.Fits w (some u) out)
    (hx : x.Proper w.view) (hy : y.Proper u.view) (hz : z.Proper out.view) :
    (solve stops op ⟨⟨w.view, x⟩, some ⟨u.view, y⟩, ⟨out.view, z⟩, c⟩).IsSharp
      (admitted (op.Reaches stops w.view u.view out.view z.toSet) x.toSet y.toSet) x y := by
  cases op with
  | plus =>
    obtain ⟨⟨⟩, rfl⟩ := h
    exact (combines_plus hx.le hy.le).isSharp hx hy hz
  | minus =>
    obtain ⟨⟨⟩, rfl⟩ := h
    exact (combines_minus hx.le hy.le).isSharp hx hy hz
  | prev | next | opposite | castInt _ => exact absurd h.1 (by simp)
  | _ => exact hop.elim

end Narrowing

/-! ### Findings -/

section

open Narrowing

variable {limit : ℕ} {op : Operation} {w out : WordType} {arg : Option WordType} {x z : Element}
  {y : Option Element} {R : ℤ → ℤ → Prop} {rx ry : Range}

/-- A finding that is as tight as ranges can be: it is dead if there is no pair, and otherwise
leaves the smallest ranges that hold all pairs. -/
structure Finding.Tightens (F : Set (ℤ × ℤ)) (x : Element) (y : Option Element) (f : Finding) :
    Prop where
  /-- It is dead if there is no pair. -/
  dead : f.exactness = none ↔ F = ∅
  /-- It leaves the smallest ranges. -/
  ranges : f.exactness ≠ none → ∃ lhs rhs : Range, Encloses lhs rhs F ∧
    (f.firstOf x).values = lhs.toSet ∧ operandValues (f.secondOf y) = rhs.toSet

/-- A narrowing that keeps the admitted pairs and is sharp if there are any, applied to words
without gaps. -/
theorem Narrowing.finding_tightens {n : Narrowing} (convex : Bool) (hx : x.IsWord limit w)
    (hy : IsOperand limit arg y) (hrx : x.values = rx.toSet) (hry : operandValues y = ry.toSet)
    (hn : y = none → n.secondRange? = none) (hkeeps : n.Keeps R x.values (operandValues y))
    (hlive : n.IsLive R x.values (operandValues y))
    (hsharp : (admitted R x.values (operandValues y)).Nonempty →
      n.IsSharp (admitted R x.values (operandValues y)) rx ry) :
    ∃ f, n.finding limit convex x y = .ok f ∧
      f.Tightens (admitted R x.values (operandValues y)) x y := by
  cases n with
  | impossible =>
    refine ⟨.dead, rfl, ?_, fun h => absurd rfl h⟩
    refine iff_of_true rfl (Set.eq_empty_iff_forall_notMem.mpr ?_)
    rintro ⟨a, b⟩ ⟨ha, hb, hR⟩
    exact hkeeps a ha b hb hR
  | within r s exact =>
    obtain ⟨f, hf, hword, hoperand, ⟨hnone, hdead⟩ | ⟨hsome, -, h1, h2⟩⟩ :=
      finding_cuts r s exact convex hx hy hn
    · refine ⟨f, hf, iff_of_true hnone (Set.eq_empty_iff_forall_notMem.mpr ?_), (absurd hnone ·)⟩
      rintro ⟨a, b⟩ ⟨ha, hb, hR⟩
      exact hdead a ha b hb (hkeeps a ha b hb hR)
    obtain ⟨a, ha⟩ := hword.nonempty
    obtain ⟨b, hb⟩ := hoperand.nonempty
    have hne := hlive a ((h1 a).mp ha).1 ((h1 a).mp ha).2 b ((h2 b).mp hb).1 ((h2 b).mp hb).2
    obtain ⟨hfirst, hsecond⟩ := hsharp hne
    refine ⟨f, hf, iff_of_false (by simp [hsome]) hne.ne_empty, fun _ => ?_⟩
    refine ⟨⟨max (r.getD rx).lo rx.lo, min (r.getD rx).hi rx.hi⟩,
      ⟨max (s.getD ry).lo ry.lo, min (s.getD ry).hi ry.hi⟩, ?_, ?_, ?_⟩
    · -- the ends are taken, and the cut ranges hold all pairs
      have hmem : ∀ p ∈ admitted R x.values (operandValues y),
          p.1 ∈ (⟨max (r.getD rx).lo rx.lo, min (r.getD rx).hi rx.hi⟩ : Range) ∧
            p.2 ∈ (⟨max (s.getD ry).lo ry.lo, min (s.getD ry).hi ry.hi⟩ : Range) := by
        rintro ⟨a, b⟩ ⟨ha, hb, hR⟩
        have hkept := hkeeps a ha b hb hR
        exact ⟨Bounds.mem_cut.mpr ⟨hrx.le ha, hkept.1⟩, Bounds.mem_cut.mpr ⟨hry.le hb, hkept.2⟩⟩
      refine ⟨⟨hfirst.1, ?_⟩, ⟨hfirst.2, ?_⟩, ⟨hsecond.1, ?_⟩, ⟨hsecond.2, ?_⟩⟩ <;>
        rintro _ ⟨p, hp, rfl⟩
      exacts [(hmem p hp).1.1, (hmem p hp).1.2, (hmem p hp).2.1, (hmem p hp).2.2]
    · ext a
      rw [h1, hrx, Bounds.mem_toSet, Bounds.mem_toSet, Bounds.mem_cut]
    · ext b
      rw [h2, hry, Bounds.mem_toSet, Bounds.mem_toSet, Bounds.mem_cut]

/-- A sharp narrowing that keeps the admitted pairs, applied to words without gaps. -/
theorem Narrowing.IsSharp.finding {n : Narrowing}
    (hsharp : n.IsSharp (admitted R x.values (operandValues y)) rx ry) (convex : Bool)
    (hx : x.IsWord limit w) (hy : IsOperand limit arg y) (hrx : x.values = rx.toSet)
    (hry : operandValues y = ry.toSet) (hn : y = none → n.secondRange? = none)
    (hkeeps : n.Keeps R x.values (operandValues y)) :
    ∃ f, n.finding limit convex x y = .ok f ∧
      f.Tightens (admitted R x.values (operandValues y)) x y :=
  finding_tightens convex hx hy hrx hry hn hkeeps hsharp.isLive fun _ => hsharp

/-- One operand without gaps, whose solver is sharp. -/
theorem Finding.exists_tightens_unary {stops : Bool} {s q : Shape}
    (hranges : OnRanges limit stops op (.word w s) none (.word out q)) (h : op.Fits w none out)
    (hs : s.WellFormed limit w) (hq : q.WellFormed limit out)
    (hxl : ¬(Element.word w s).IsListed) (hzl : ¬(Element.word out q).IsListed)
    (hsharp : (solve stops op ⟨⟨w.view, s.bounds w.view⟩, none, ⟨out.view, q.bounds out.view⟩,
      Frame.isConvex (.word out q)⟩).IsSharp (admitted (op.Reaches stops w.view w.view out.view
        (q.bounds out.view).toSet) (s.bounds w.view).toSet {0}) (s.bounds w.view) (.point 0)) :
    ∃ f, ofWords? limit stops op (.word w s) none (.word out q) = .ok (some f) ∧
      f.Tightens (admitted (op.Reaches stops w.view w.view out.view (Element.word out q).values)
        (Element.word w s).values (operandValues none)) (.word w s) none := by
  have hxv := Element.values_of_not_isListed hxl
  have hzv := Element.values_of_not_isListed hzl
  obtain ⟨hkeeps, -, hsecond⟩ := solve_unary stops (Frame.isConvex (.word out q)) {0} h
    hs.proper.bounds hq.proper.bounds
  rw [← hxv, ← hzv] at hkeeps hsharp
  have hpoint : operandValues none = (Bounds.point 0).toSet := by
    ext v
    simp [operandValues]
  have hoperand : IsOperand limit none none := trivial
  obtain ⟨f, hf, htight⟩ := hsharp.finding (Frame.isConvex (.word out q)) (Element.isWord_word hs)
    hoperand hxv hpoint (fun _ => hsecond) hkeeps
  refine ⟨f, ?_, htight⟩
  rw [hranges, frame_unary hxl, Option.elim_some, hf]
  rfl

/-- Words without gaps find the smallest ranges around the pairs that reach the result. -/
theorem Finding.exists_tightens (stops : Bool) (hop : op.IsAffine) (h : op.Fits w arg out)
    (hx : x.IsWord limit w) (hy : IsOperand limit arg y) (hz : z.IsWord limit out)
    (hlist : ¬HasList x y) (hzl : ¬z.IsListed) :
    ∃ f, ofWords? limit stops op x y z = .ok (some f) ∧ f.Tightens (admitted
      (op.Reaches stops w.view (arg.getD w).view out.view z.values) x.values (operandValues y))
      x y := by
  have hranges : OnRanges limit stops op x y z := onRanges hop.isRanged
  have hword := hx
  have hoperand := hy
  obtain ⟨s, rfl, hs⟩ := hx
  obtain ⟨q, rfl, hq⟩ := hz
  have hxl : ¬(Element.word w s).IsListed := fun h => hlist (.inl h)
  cases arg with
  | none =>
    obtain rfl := hy.eq_none
    exact exists_tightens_unary hranges h hs hq hxl hzl
      (solve_isSharp_unary stops _ hop h hs.proper.bounds hq.proper.bounds)
  | some u =>
    obtain ⟨p, rfl, hp⟩ := hy.exists_word
    have hpl : ¬(Element.word u p).IsListed := fun h => hlist (.inr ⟨_, rfl, h⟩)
    have hxv := Element.values_of_not_isListed hxl
    have hyv := Element.values_of_not_isListed hpl
    have hzv := Element.values_of_not_isListed hzl
    obtain ⟨hkeeps, -⟩ := solve_binary stops (Frame.isConvex (.word out q)) h hs.proper.bounds
      hp.proper.bounds hq.proper.bounds
    have hsharp := solve_isSharp_binary stops (Frame.isConvex (.word out q)) hop h hs.proper.bounds
      hp.proper.bounds hq.proper.bounds
    rw [← hxv, ← hyv, ← hzv] at hkeeps hsharp
    obtain ⟨f, hf, htight⟩ := hsharp.finding (Frame.isConvex (.word out q)) hword hoperand hxv
      hyv (by simp) hkeeps
    refine ⟨f, ?_, htight⟩
    rw [hranges, frame_binary hxl hpl, Option.elim_some, hf]
    rfl

end

/-! ### Refinements -/

open Narrowing

variable {limit : ℕ} {op : Operation} {out : WordType} {arg : Option WordType} {c x z : Element}
  {y : Option Element} {t : IntType} {r : Refinement} {f : Finding} {F : Set (ℤ × ℤ)}

/-- A refinement that is as tight as ranges can be: it ends empty if there is no pair, and otherwise
leaves the smallest ranges that hold all pairs. -/
structure Refinement.Tightens (F : Set (ℤ × ℤ)) (x : Element) (y : Option Element)
    (r : Refinement) : Prop where
  /-- It ends empty if there is no pair. -/
  empty : r.eval.empty = true ↔ F = ∅
  /-- It leaves the smallest ranges. -/
  ranges : r.eval.empty = false → ∃ lhs rhs : Range, Encloses lhs rhs F ∧
    (r.first.getD x).values = lhs.toSet ∧ operandValues (y.map r.second.getD) = rhs.toSet

namespace Refinement

theorem tightens_settle (hr : r.Fresh) (h : f.Tightens F x y) : (r.settle f).Tightens F x y := by
  rw [← found_settle hr f] at h
  obtain ⟨hdead, hranges⟩ := h
  refine ⟨?_, fun hlive => hranges (by simp [found, hlive])⟩
  rw [← hdead]
  simp [found]

/-- Only the values of the operands matter. -/
theorem Tightens.of_values_eq {x' : Element} {y' : Option Element} (h : r.Tightens F x' y')
    (hx : x'.values = x.values)
    (hy : ∀ c : Option Element, operandValues (y'.map c.getD) = operandValues (y.map c.getD)) :
    r.Tightens F x y := by
  refine ⟨h.empty, fun hlive => ?_⟩
  obtain ⟨lhs, rhs, hF, h1, h2⟩ := h.ranges hlive
  refine ⟨lhs, rhs, hF, ?_, (hy _).symm.trans h2⟩
  rw [← h1]
  cases r.first with
  | none => exact hx.symm
  | some q => rfl

end Refinement

namespace Element

/-- A word of an integer type that is no list settles on what the ranges find, with a level of
nesting left. -/
theorem constrainWithin_settles (n : ℕ) (hc : c.IsWord limit (.int t)) (hlist : ¬c.IsListed)
    (hoperands : r.operands (c.throughInterval?.getD c) = (x, y))
    (hf : Finding.ofWords? limit r.eval.params.stops op x y z = .ok (some f)) :
    (constrainWithin limit op z (n + 1) c r).Returns (· = (true, r.settle f)) := by
  obtain ⟨s, rfl, -⟩ := hc
  obtain ⟨deeper, deepest, hattempt, -⟩ := attempt_cases limit op z n
  have hranges : ∀ {s : Shape}, ¬(word (.int t) s).IsListed →
      r.operands (word (.int t) s) = (x, y) →
        (attempt limit op z n (word (.int t) s) r).Returns (· = (true, r.settle f)) := by
    intro s hs hoperands
    have hrun : (r.byRanges limit op z (word (.int t) s)).Returns (· = (true, r.settle f)) := by
      rw [Refinement.byRanges, hoperands]
      refine (Traced.returns_lift hf rfl).bind ?_
      rintro _ rfl
      exact Traced.returns_pure rfl
    rw [hattempt, attemptWith, Refinement.byKind_word hs]
    refine hrun.bind ?_
    rintro _ rfl
    exact Traced.returns_pure rfl
  rw [constrainWithin]
  cases s with
  | top => exact Traced.returns_session (Traced.returns_session (hranges (by rintro ⟨⟩) hoperands))
  | _ => exact Traced.returns_session (hranges hlist hoperands)

theorem isListed_throughInterval (x : Element) :
    (x.throughInterval?.getD x).IsListed ↔ x.IsListed := by
  cases h : x.throughInterval? with
  | none => rfl
  | some full =>
    match x, h with
    | .word (.int t) .top, rfl => exact iff_of_false nofun nofun

/-- A first operand that is no list settles on what the ranges find. -/
theorem constrain_settles (params : Params) (hdepth : 1 ≤ params.maxDepth)
    (h : op.Accepts (.int t) arg out) (hx : x.IsWord limit (.int t)) (hy : IsOperand limit arg y)
    (hz : z.IsWord limit out) (hlist : ¬x.IsListed)
    (hf : Finding.ofWords? limit params.stops op (x.throughInterval?.getD x) y z = .ok (some f)) :
    (x.constrain limit op z (.start params y)).value =
      .ok (true, (Refinement.start params y).settle f) := by
  obtain ⟨n, hn⟩ : ∃ n, params.maxDepth = n + 1 := ⟨params.maxDepth - 1, by omega⟩
  have htypes : checkTypes op x z (.start params y) = .ok () := checkTypes_eq_ok h hx hy hz rfl
  obtain ⟨_, hr, rfl⟩ := constrainAs_returns htypes hn
    (constrainWithin_settles n (r := .start params y) hx hlist rfl hf)
  exact hr

/-- A fresh refinement of words without gaps, seen by the operand in charge. -/
theorem constrainAs_tightens {n : ℕ} {u : IntType} {x' : Element} {y' : Option Element}
    (hop : op.IsAffine) (h : op.Accepts (.int t) arg out) (hx : x'.IsWord limit (.int t))
    (hy : IsOperand limit arg y') (hz : z.IsWord limit out) (hlist : ¬HasList x' y')
    (hzl : ¬z.IsListed) (hr : r.Fresh) (hn : r.eval.budget = n + 1)
    (hc : c.IsWord limit (.int u)) (hcl : ¬c.IsListed) (htypes : checkTypes op c z r = .ok ())
    (hoperands : r.operands (c.throughInterval?.getD c) = (x', y')) :
    (constrainAs limit op c z r).Returns fun p => p.1 = true ∧ p.2.Tightens (admitted
      (op.Reaches r.eval.params.stops t (arg.getD (.int t)).view out.view z.values) x'.values
      (operandValues y')) x' y' := by
  obtain ⟨f, hf, htight⟩ :=
    Finding.exists_tightens r.eval.params.stops hop h.fits hx hy hz hlist hzl
  refine constrainAs_returns htypes hn ((constrainWithin_settles n hc hcl hoperands hf).mono ?_)
  rintro _ rfl
  exact ⟨rfl, Refinement.tightens_settle hr htight⟩

/-- Steps, opposites, sums, differences and casts of integers without gaps are refined to the
smallest ranges around the pairs of operands that reach a result without gaps, whichever operand is
in charge. The refinement ends empty exactly when there is no such pair. -/
theorem constrain_tightens (params : Params) (hdepth : 1 ≤ params.maxDepth) (hop : op.IsAffine)
    (h : op.Accepts (.int t) arg out) (hx : x.IsWord limit (.int t)) (hy : IsOperand limit arg y)
    (hz : z.IsWord limit out) (hlist : ¬HasList x y) (hzl : ¬z.IsListed) :
    (∃ r, (x.constrain limit op z (.start params y)).value = .ok (true, r) ∧
      r.Tightens (admitted (op.Reaches params.stops t (arg.getD (.int t)).view out.view z.values)
        x.values (operandValues y)) x y) ∧
    ∀ o ∈ y, ∀ argument,
      ∃ r, (o.constrainTo limit op x z (.start params argument)).value = .ok (true, r) ∧
        r.Tightens (admitted (op.Reaches params.stops t (arg.getD (.int t)).view out.view z.values)
          x.values (operandValues y)) x y := by
  obtain ⟨n, hn⟩ : ∃ n, params.maxDepth = n + 1 := ⟨params.maxDepth - 1, by omega⟩
  constructor
  · have htypes : checkTypes op x z (.start params y) = .ok () := checkTypes_eq_ok h hx hy hz rfl
    have hword : (x.throughInterval?.getD x).IsWord limit (.int t) := isWord_piece hx (.inl rfl)
    have hnot : ¬HasList (x.throughInterval?.getD x) y := fun hl =>
      hlist (hl.imp_left (isListed_throughInterval x).mp)
    obtain ⟨⟨_, r⟩, hr, rfl, htight⟩ := constrainAs_tightens hop h hword hy hz hnot hzl
      (Refinement.fresh_start params y) hn hx (fun hl => hlist (.inl hl)) htypes rfl
    rw [values_throughInterval] at htight
    exact ⟨r, hr, htight.of_values_eq (values_throughInterval x) fun _ => rfl⟩
  · rintro o ho argument
    obtain rfl := Option.mem_def.mp ho
    obtain rfl : arg = some (.int t) := hop.arg_eq h.fits hy
    let start : Refinement := { Refinement.start params argument with
      selector := .second
      eval := { Evaluation.start params argument with argument := some x } }
    have htypes : checkTypes op o z start = .ok () := checkTypes_eq_ok h hx hy hz rfl
    have hoperand : IsOperand limit (some (.int t)) (some (o.throughInterval?.getD o)) :=
      isWord_piece (x := o) hy (.inl rfl)
    have hnot : ¬HasList x (some (o.throughInterval?.getD o)) := by
      rintro (hl | ⟨_, ⟨⟩, hl⟩)
      · exact hlist (.inl hl)
      · exact hlist (.inr ⟨o, rfl, (isListed_throughInterval o).mp hl⟩)
    obtain ⟨⟨_, r⟩, hr, rfl, htight⟩ := constrainAs_tightens (r := start) hop h hx hoperand hz hnot
      hzl ⟨⟨rfl, rfl, rfl, rfl⟩, rfl, rfl⟩ hn hy (fun hl => hlist (.inr ⟨o, rfl, hl⟩)) htypes rfl
    rw [operandValues, values_throughInterval] at htight
    refine ⟨r, hr, htight.of_values_eq rfl fun c => ?_⟩
    cases c with
    | none => exact values_throughInterval o
    | some c => rfl

/-- A cast of six bits to two, whose operand spans fifteen windows of the result. -/
theorem constrain_tightens_cast :
    let t : IntType := ⟨6, false, by decide, by decide⟩
    let dest : IntType := ⟨2, true, by decide, by decide⟩
    let x : Element := .word (.int t) (.interval ⟨4, 61⟩)
    let z : Element := .word (.int dest) (.interval ⟨-2, -1⟩)
    let params : Params := .preset 1 .sure .propagate
    1 ≤ params.maxDepth ∧ (Operation.castInt dest).IsAffine ∧
      (Operation.castInt dest).Accepts (.int t) none (.int dest) ∧ x.IsWord 8 (.int t) ∧
      IsOperand 8 none none ∧ z.IsWord 8 (.int dest) ∧ ¬HasList x none ∧ ¬z.IsListed ∧
      ∃ r, (x.constrain 8 (.castInt dest) z (.start params none)).value = .ok (true, r) ∧
        r.Tightens (admitted ((Operation.castInt dest).Reaches false t t dest z.values) x.values
          (operandValues none)) x none := by
  intro t dest x z params
  have h : (Operation.castInt dest).Accepts (.int t) none (.int dest) :=
    ⟨trivial, by decide, rfl⟩
  have hx : x.IsWord 8 (.int t) := by decide
  have hz : z.IsWord 8 (.int dest) := by decide
  have hlist : ¬HasList x none := by rintro (⟨⟨⟩⟩ | ⟨_, ⟨⟩, _⟩)
  have hzl : ¬z.IsListed := by rintro ⟨⟩
  have hop : (Operation.castInt dest).IsAffine := trivial
  have hy : IsOperand 8 none none := trivial
  exact ⟨by decide, hop, h, hx, hy, hz, hlist, hzl,
    (constrain_tightens params (by decide) hop h hx hy hz hlist hzl).1⟩

end Element

end ScalarDomain
