import ScalarDomain.Proofs.Backward.Lockstep
import ScalarDomain.Proofs.Backward.Trial
import ScalarDomain.Proofs.Forward.Nesting

/-!
# How deep refinements nest

A refinement opens nested refinements for the members of a list in charge, and one for the other
operand if the operand in charge declines. The longest chain has two lists: a member of the list in
charge faces the other list, hands over to it, and its members are solved for on ranges. So four
levels are enough (`Element.constrainOver_alike`), and what would be run below them does not matter.
The transfers that try pairs of bits are opened by the topmost refinement only, and they take three
levels. With room for four levels the bound on the nesting therefore decides nothing.
-/

namespace ScalarDomain

variable {limit : ℕ} {op : Operation} {z : Element}

/-! ### Levels of a refinement -/

namespace Element

/-- One level of a refinement, on top of the nested refinements of members and of another operand
that takes over. -/
def attemptUsing (limit : ℕ) (op : Operation) (z : Element) (member other : Refiner) : Refiner
  | x, r => do
    let (handled, r) ← Refinement.byKind limit op z member x r
    match handled, r.eval.argument with
    | true, _ => return (true, r)
    | false, none => return (false, r)
    | false, some o => do
      let (handled, child) ← other o (r.fork (some x) r.selector.inverse)
      if handled then do
        Traced.record (.redirected op o.kind)
        return (true, r.absorb child)
      else return (false, r)

/-- Another operand that takes over: a top goes through the interval of all values. -/
def handOver (limit : ℕ) (op : Operation) (z : Element) (refiner member : Refiner) : Refiner
  | x, r =>
    match x.throughInterval? with
    | some full => refiner full r
    | none => Refinement.byKind limit op z member x r

/-- Levels of refinements over what is run below them: on a member, and on another operand that
takes over. -/
def levels (limit : ℕ) (op : Operation) (z : Element) (below : Refiner × Refiner) :
    ℕ → Refiner × Refiner
  | 0 => below
  | k + 1 =>
    let nested := levels limit op z below k
    let refiner := enter op z (some (attemptUsing limit op z nested.1 nested.2))
    (refiner, handOver limit op z refiner nested.1)

/-- What a refinement with some nesting left runs on a member and on another operand. -/
def nestedRefiners (limit : ℕ) (op : Operation) (z : Element) (n : ℕ) : Refiner × Refiner :=
  (constrainWithin limit op z n,
    handOver limit op z (constrainWithin limit op z n) (constrainWithin limit op z (n - 1)))

theorem attemptWith_eq_attemptUsing (deeper deepest : Option Refiner) :
    attemptWith limit op z deeper deepest = attemptUsing limit op z (enter op z deeper)
      (handOver limit op z (enter op z deeper) (enter op z deepest)) := by
  funext x r
  refine congrArg (Bind.bind _) (funext fun p => ?_)
  obtain ⟨handled, u⟩ := p
  cases handled with
  | true => rfl
  | false =>
    dsimp only
    cases u.eval.argument with
    | none => rfl
    | some o =>
      dsimp only [handOver]
      cases o.throughInterval? <;> rfl

theorem attempt_eq_attemptUsing (limit : ℕ) (op : Operation) (z : Element) (n : ℕ) :
    attempt limit op z n = attemptUsing limit op z (nestedRefiners limit op z n).1
      (nestedRefiners limit op z n).2 := by
  rcases n with _ | _ | n <;> rw [attempt, attemptWith_eq_attemptUsing] <;> rfl

theorem nestedRefiners_eq_levels (limit : ℕ) (op : Operation) (z : Element) (n k : ℕ) :
    nestedRefiners limit op z (n + k) = levels limit op z (nestedRefiners limit op z n) k := by
  induction k with
  | zero => rfl
  | succ k ih =>
    rw [levels, ← ih, ← attempt_eq_attemptUsing]
    rfl

end Element

/-! ### Kinds of operands -/

/-- The operands of a refinement are words, and so is the result, but for a conversion to a
float. -/
structure OnWords (op : Operation) (z x : Element) (y : Option Element) : Prop where
  /-- One operand. -/
  operand : ∃ w s, x = .word w s
  /-- The other one, if there is one. -/
  other : ∀ o ∈ y, ∃ u s, o = .word u s
  /-- The result of a conversion to a float is one. -/
  float : ∀ dest, op = .castFloat dest → ∃ f s, z = .float f s
  /-- All other results are words. -/
  word : (∀ dest, op ≠ .castFloat dest) → ∃ w s, z = .word w s

/-- The operands of a refinement are floats. -/
structure OnFloats (x : Element) (y : Option Element) : Prop where
  /-- One operand. -/
  operand : ∃ f s, x = .float f s
  /-- The other one, if there is one. -/
  other : ∀ o ∈ y, ∃ f s, o = .float f s

theorem OnWords.swap {x o : Element} (h : OnWords op z x (some o)) : OnWords op z o (some x) := by
  refine ⟨h.other o rfl, ?_, h.float, h.word⟩
  rintro _ ⟨⟩
  exact h.operand

theorem OnFloats.swap {x o : Element} (h : OnFloats x (some o)) : OnFloats o (some x) := by
  refine ⟨h.other o rfl, ?_⟩
  rintro _ ⟨⟩
  exact h.operand

/-- Only a conversion gives a float for words. -/
theorem Element.resultType_ne_float {w : WordType} {s : Shape} {second : Option Element}
    {f : FloatType} (hop : ∀ dest, op ≠ .castFloat dest) :
    Element.resultType op (.word w s) second ≠ .ok (.float f) := by
  have hint : ∀ width signed, (IntType.ofWidth width signed).map ScalarType.int ≠
      .ok (.float f) := by
    intro width signed h
    cases hw : IntType.ofWidth width signed <;> rw [hw] at h <;> cases h
  intro h
  unfold Element.resultType at h
  split_ifs at h
  split at h
  · next ty hty =>
    cases h
    cases op with
    | castFloat dest => exact hop dest rfl
    | _ =>
      simp only [Operation.checkedResultType, Operation.resultType, Element.type,
        ScalarType.view?, Except.ok.injEq] at hty
      grind
  · cases h
  · cases h

/-- Operands of accepted types are words or floats. -/
theorem onWords_or_onFloats {first : Element} {second : Option Element}
    (h : Element.resultType op first second = .ok z.type) (hop : op.arity = 0 → second = none) :
    OnWords op z first second ∨ OnFloats first second := by
  have harity : ∀ o ∈ second, op.arity ≠ 0 := by
    rintro o ho h0
    rw [hop h0] at ho
    cases ho
  cases first with
  | word w s =>
    refine .inl ⟨⟨w, s, rfl⟩, fun o ho => ?_, ?_, fun hne => ?_⟩
    · cases o with
      | word u s' => exact ⟨u, s', rfl⟩
      | float f q =>
        rw [Option.mem_def.mp ho] at h
        cases Element.view?_isSome_of_resultType (harity _ ho) h
    · rintro dest rfl
      cases z with
      | float f q => exact ⟨f, q, rfl⟩
      | word u s' => cases h
    · cases z with
      | word u s' => exact ⟨u, s', rfl⟩
      | float f q => exact absurd h (Element.resultType_ne_float hne)
  | float f q =>
    refine .inr ⟨⟨f, q, rfl⟩, fun o ho => ?_⟩
    cases o with
    | float f q => exact ⟨f, q, rfl⟩
    | word w s =>
      rw [Option.mem_def.mp ho] at h
      cases Element.view?_isSome_of_resultType (harity _ ho) h

/-- Words without gaps always find something. -/
theorem Finding.ofWords?_ne_none {stops : Bool} {first : Element} {second : Option Element}
    (h : OnWords op z first second) (hlist : ¬HasList first second) :
    ofWords? limit stops op first second z ≠ .ok none := by
  obtain ⟨w, s, rfl⟩ := h.operand
  have hs : ¬(Element.word w s).IsListed := fun hs => hlist (.inl hs)
  by_cases hcast : ∃ dest, op = .castFloat dest
  · obtain ⟨dest, rfl⟩ := hcast
    obtain ⟨f, q, rfl⟩ := h.float dest rfl
    intro h
    simp only [ofWords?, castFloat?, Element.floatSet?, Element.intBounds?] at h
    split at h
    · cases h
    · cases hn : (Element.word w s).narrow limit (Narrowing.castFloat dest (s.bounds w.view) _) with
      | error fault => rw [hn] at h; cases h
      | ok left => rw [hn] at h; cases left <;> cases h
  · obtain ⟨out, q, rfl⟩ := h.word fun dest hop => hcast ⟨dest, hop⟩
    have hframe : ∃ f, Frame.of? (.word w s) second (.word out q) = some f := by
      cases second with
      | none => exact ⟨_, frame_unary hs⟩
      | some o =>
        obtain ⟨u, p, rfl⟩ := h.other o rfl
        exact ⟨_, frame_binary hs fun hp => hlist (.inr ⟨_, rfl, hp⟩)⟩
    obtain ⟨f, hf⟩ := hframe
    cases op with
    | castFloat dest => exact absurd ⟨dest, rfl⟩ hcast
    | logicalNegate => intro h; cases h
    | castBit => intro h; cases h
    | connective c => intro h; cases h
    | _ =>
      simp only [ofWords?, hf]
      intro h
      cases hfinding : (Narrowing.solve stops _ f).finding limit f.convex (.word w s) second <;>
        rw [hfinding] at h <;> cases h

namespace Refinement

open Evaluation (Lockstep)

variable {x : Element} {y : Option Element} {r r' : Refinement}

/-- The operands in order are the operand in charge and the other one. -/
theorem operands_cases (r : Refinement) (x : Element) :
    r.operands x = (x, r.eval.argument) ∨
      ∃ o, r.eval.argument = some o ∧ r.operands x = (o, some x) := by
  unfold operands
  split
  · next o hslot hy => exact .inr ⟨o, hy, rfl⟩
  · exact .inl rfl

theorem Alike.eq (h : Alike (· = ·) r r') : r = r' := by
  cases r
  cases r'
  obtain ⟨heval, hselector, hfirst, hsecond⟩ := h
  cases heval
  cases hselector
  cases hfirst
  cases hsecond
  rfl

/-- Words without gaps solve on ranges. -/
theorem Alike.byRanges_of_not_hasList {R : Evaluation → Evaluation → Prop} (hR : Lockstep R)
    (hz : OnWords op z x r.eval.argument) (hlist : ¬HasList x r.eval.argument)
    (h : Alike R r r') :
    (r.byRanges limit op z x).Relates (AnswersAlike (· = true) R) (r'.byRanges limit op z x) := by
  refine (h.byRanges hR).mono ?_
  rintro a b (hab | ⟨-, -, hnone⟩)
  · exact hab
  · refine absurd hnone ?_
    rcases r.operands_cases x with heq | ⟨o, ho, heq⟩
    · rw [heq]
      exact Finding.ofWords?_ne_none hz hlist
    · rw [heq]
      rw [ho] at hz hlist
      exact Finding.ofWords?_ne_none hz.swap fun hl => hlist hl.swap

end Refinement

/-! ### Levels that are enough -/

namespace Element

open Evaluation (Lockstep)
open Refinement

section

variable {R : Evaluation → Evaluation → Prop} {P : Bool → Prop} {depth : ℕ} {slot : Slot}
  {x : Element} {y : Option Element} {member member' other other' refiner refiner' : Refiner}

/-- One level does the same if the operand in charge does, and if the other one does in case the
operand in charge declines. -/
theorem attemptUsing_alike (hR : Lockstep R) {D : Prop} (hP : P true)
    (hkind : ∀ r r', Alike R r r' → r.At depth slot y →
      (byKind limit op z member x r).Relates
        (fun a b => AnswersAlike (· = true) R a b ∨ (a = (false, r) ∧ b = (false, r') ∧ D))
        (byKind limit op z member' x r'))
    (hnone : D → y = none → P false)
    (hother : D → ∀ o ∈ y, RefinersAlike R P other other' (depth + 1) slot.inverse o (some x)) :
    RefinersAlike R P (attemptUsing limit op z member other)
      (attemptUsing limit op z member' other') depth slot x y := by
  intro r r' h hr
  refine (hkind r r' h hr).bind ?_
  rintro ⟨handled, u⟩ ⟨handled', u'⟩ (hab | ⟨ha, hb, hD⟩)
  · obtain ⟨rfl, rfl, hu⟩ := hab
    exact Traced.relates_pure ⟨rfl, hP, hu⟩
  · cases ha
    cases hb
    dsimp only
    rw [hR.argument h.eval, hr.argument, h.selector, hr.selector]
    cases y with
    | none => exact Traced.relates_pure ⟨rfl, hnone hD rfl, h⟩
    | some o =>
      refine (hother hD o rfl _ _ (h.fork hR _ _)
        ⟨congrArg (· + 1) hr.depth, rfl, rfl⟩).bind ?_
      rintro ⟨handled, child⟩ ⟨_, child'⟩ ⟨rfl, hknown, hchild⟩
      cases handled with
      | false => exact Traced.relates_pure ⟨rfl, hknown, h⟩
      | true =>
        exact (Traced.relates_refl _).bind fun _ _ _ =>
          Traced.relates_pure ⟨rfl, hP, h.absorb hR hchild⟩

/-- An operand in charge that never declines. -/
theorem attemptUsing_alike_of_byKind (hR : Lockstep R)
    (h : RefinersAlike R (· = true) (byKind limit op z member) (byKind limit op z member') depth
      slot x y) :
    RefinersAlike R (· = true) (attemptUsing limit op z member other)
      (attemptUsing limit op z member' other') depth slot x y :=
  attemptUsing_alike (D := False) hR rfl
    (fun r r' hr hat => (h r r' hr hat).mono fun _ _ hab => .inl hab) False.elim False.elim

theorem enter_alike {attempt attempt' : Refiner}
    (h : RefinersAlike R P attempt attempt' depth slot (x.throughInterval?.getD x) y) :
    RefinersAlike R P (enter op z (some attempt)) (enter op z (some attempt')) depth slot x y := by
  intro r r' hr hat
  have hrun := h r r' hr hat
  refine Traced.Relates.session ?_
  dsimp only
  cases hx : x.throughInterval? with
  | none =>
    rw [hx] at hrun
    exact hrun
  | some full =>
    rw [hx] at hrun
    exact hrun.session

theorem handOver_alike (hx : x.throughInterval? = none)
    (h : RefinersAlike R P (byKind limit op z member) (byKind limit op z member') depth slot x y) :
    RefinersAlike R P (handOver limit op z refiner member) (handOver limit op z refiner' member')
      depth slot x y := by
  intro r r' hr hat
  simp only [handOver, hx]
  exact h r r' hr hat

variable {t : IntType} {s : Shape}

/-- Two words that are no lists take one level. -/
theorem attemptUsing_plain_alike (hR : Lockstep R) (hz : OnWords op z (.word (.int t) s) y)
    (hlist : ¬HasList (.word (.int t) s) y) :
    RefinersAlike R (· = true) (attemptUsing limit op z member other)
      (attemptUsing limit op z member' other') depth slot (.word (.int t) s) y := by
  refine attemptUsing_alike_of_byKind hR fun r r' h hr => ?_
  have hx : ¬(word (.int t) s).IsListed := fun hs => hlist (.inl hs)
  obtain ⟨-, -, rfl⟩ := hr
  rw [byKind_word hx, byKind_word hx]
  exact h.byRanges_of_not_hasList hR hz hlist

/-- A list in charge takes the levels of its values. -/
theorem byKind_list_alike (hR : Lockstep R) {w : WordType} {vs : List ℤ}
    (h : ∀ v ∈ vs,
      RefinersAlike R (· = true) member member' (depth + 1) slot (wordConstant w v) y) :
    RefinersAlike R (· = true) (byKind limit op z member) (byKind limit op z member') depth slot
      (.word w (.disjunction vs)) y := by
  intro r r' hr hat
  have hmembers : ∀ x ∈ vs.map (wordConstant w),
      RefinersAlike R (· = true) member member' (depth + 1) slot x y := by
    intro x hx
    obtain ⟨v, hv, rfl⟩ := List.mem_map.mp hx
    exact h v hv
  cases w <;> exact Alike.byMembers (P := (· = true)) hR rfl _ hmembers {} hr hat

/-- A well-formed word, or a float, of which nothing is asked. -/
def WellFormed (limit : ℕ) : Element → Prop
  | .word w s => s.WellFormed limit w
  | .float _ _ => True

instance decidableWellFormed (limit : ℕ) (e : Element) : Decidable (e.WellFormed limit) :=
  match e with
  | .word w s => inferInstanceAs (Decidable (s.WellFormed limit w))
  | .float _ _ => inferInstanceAs (Decidable True)

variable {below below' : Refiner × Refiner}

/-- A list that takes over from a word that is no list takes two levels. -/
theorem handOver_list_alike (hR : Lockstep R) (k : ℕ) {u : IntType} {vs : List ℤ}
    (hz : OnWords op z (.word (.int t) s) (some (.word (.int u) (.disjunction vs))))
    (hs : ¬(word (.int t) s).IsListed) :
    RefinersAlike R (· = true) (levels limit op z below (k + 2)).2
      (levels limit op z below' (k + 2)).2 depth slot (.word (.int u) (.disjunction vs))
      (some (.word (.int t) s)) := by
  refine handOver_alike rfl (byKind_list_alike hR fun v _ => ?_)
  obtain ⟨b, hb⟩ := exists_wordConstant (.int u) v
  rw [hb]
  -- a value of the list faces the word, and neither is a list
  refine enter_alike (attemptUsing_plain_alike hR { hz.swap with operand := ⟨_, _, rfl⟩ } ?_)
  rintro (hl | ⟨_, ⟨⟩, hl⟩)
  · cases hl
  · exact hs hl

/-- A word that is no list takes two more levels for a list that it hands over to. -/
theorem attemptUsing_word_alike (hR : Lockstep R) (k : ℕ) (hz : OnWords op z (.word (.int t) s) y)
    (hs : ¬(word (.int t) s).IsListed) (hy : ∀ o ∈ y, o.WellFormed limit) :
    RefinersAlike R (· = true) (attemptUsing limit op z member (levels limit op z below (k + 2)).2)
      (attemptUsing limit op z member' (levels limit op z below' (k + 2)).2) depth slot
      (.word (.int t) s) y := by
  by_cases hlist : HasList (.word (.int t) s) y
  · obtain ⟨o, rfl, ho⟩ := hlist.resolve_left hs
    refine attemptUsing_alike (D := True) hR rfl (fun r r' h hr => ?_) (by rintro - ⟨⟩) ?_
    · rw [byKind_word hs, byKind_word hs]
      refine (h.byRanges hR).mono ?_
      rintro a b (hab | ⟨ha, hb, -⟩)
      exacts [.inl hab, .inr ⟨ha, hb, trivial⟩]
    · rintro - _ ⟨⟩
      have hwf := hy o rfl
      obtain ⟨u, p, rfl⟩ := hz.other o rfl
      cases p with
      | disjunction vs =>
        cases u with
        | bit => exact absurd rfl hwf.proper.1
        | int u => exact handOver_list_alike hR k hz hs
      | _ => cases ho
  · exact attemptUsing_plain_alike hR hz hlist

/-- A word of an integer type takes four levels. -/
theorem attemptUsing_int_alike (hR : Lockstep R) (hz : OnWords op z (.word (.int t) s) y)
    (hy : ∀ o ∈ y, o.WellFormed limit) :
    RefinersAlike R (· = true)
      (attemptUsing limit op z (levels limit op z below 3).1 (levels limit op z below 3).2)
      (attemptUsing limit op z (levels limit op z below' 3).1 (levels limit op z below' 3).2) depth
      slot (.word (.int t) s) y := by
  by_cases hs : (word (.int t) s).IsListed
  · cases s with
    | disjunction vs =>
      refine attemptUsing_alike_of_byKind hR (byKind_list_alike hR fun v _ => ?_)
      obtain ⟨b, hb⟩ := exists_wordConstant (.int t) v
      rw [hb]
      exact enter_alike (attemptUsing_word_alike hR 0 { hz with operand := ⟨_, _, rfl⟩ }
        (by rintro ⟨⟩) hy)
    | _ => cases hs
  · exact attemptUsing_word_alike hR 1 hz hs hy

/-- A float solves, or it declines at once. -/
theorem byKind_float_alike (hR : Lockstep R) (hx : ∃ f s, x = .float f s) {r r' : Refinement}
    (h : Alike R r r') :
    (byKind limit op z member x r).Relates
      (fun a b => AnswersAlike (· = true) R a b ∨ (a = (false, r) ∧ b = (false, r') ∧ True))
      (byKind limit op z member' x r') := by
  obtain ⟨f, s, rfl⟩ := hx
  rw [byKind, byKind]
  split_ifs
  · exact (h.byFloats hR).mono fun _ _ => .inl
  · exact Traced.relates_pure (.inr ⟨rfl, rfl, trivial⟩)

/-- Floats take one level and another one for a float that is handed over to. -/
theorem attemptUsing_float_alike (hR : Lockstep R) (k : ℕ) (hz : OnFloats x y) :
    RefinersAlike R (fun _ => True)
      (attemptUsing limit op z member (levels limit op z below (k + 1)).2)
      (attemptUsing limit op z member' (levels limit op z below' (k + 1)).2) depth slot x y := by
  refine attemptUsing_alike hR trivial (fun r r' h _ => byKind_float_alike hR hz.operand h)
    (fun _ _ => trivial) fun _ o ho => ?_
  have hfloat := hz.other o ho
  refine handOver_alike (by obtain ⟨f, s, rfl⟩ := hfloat; rfl) fun r r' h _ => ?_
  refine (byKind_float_alike hR hfloat h).mono ?_
  rintro a b (hab | ⟨rfl, rfl, -⟩)
  exacts [⟨hab.answer, trivial, hab.alike⟩, ⟨rfl, trivial, h⟩]

/-- Four levels are enough for all operands, whatever is run below them. -/
theorem levels_alike (hR : Lockstep R) (htrial : ∀ x y, TrialsAlike limit op R 1 x y)
    (hz : OnWords op z x y ∨ OnFloats x y) (hx : x.WellFormed limit)
    (hy : ∀ o ∈ y, o.WellFormed limit) (below below' : Refiner × Refiner) :
    RefinersAlike R (fun _ => True) (levels limit op z below 4).1 (levels limit op z below' 4).1 0
      slot x y := by
  refine enter_alike ?_
  rcases hz with hz | hz
  · obtain ⟨w, s, rfl⟩ := hz.operand
    have hmono : ∀ {x : Element} {refiner refiner' : Refiner},
        RefinersAlike R (· = true) refiner refiner' 0 slot x y →
          RefinersAlike R (fun _ => True) refiner refiner' 0 slot x y := fun h r r' hr hat =>
      (h r r' hr hat).mono fun _ _ hab => ⟨hab.answer, trivial, hab.alike⟩
    cases w with
    | int t =>
      cases s with
      | top => exact hmono (attemptUsing_int_alike hR { hz with operand := ⟨_, _, rfl⟩ } hy)
      | _ => exact hmono (attemptUsing_int_alike hR hz hy)
    | bit =>
      refine hmono (attemptUsing_alike_of_byKind hR fun r r' h hr => ?_)
      refine h.byKind_bit hR (fun x' y' _ => hr.depth ▸ htrial x' y') ?_
      rcases bit_cases (isWord_word hx) with ⟨b, hb⟩ | hb
      exacts [.inl ⟨_, hb⟩, .inr hb]
  · obtain ⟨f, s, rfl⟩ := hz.operand
    exact attemptUsing_float_alike hR 2 hz

end

/-! ### Whole refinements -/

/-- A refinement with some levels over what is run below them. -/
def constrainOver (limit : ℕ) (op : Operation) (x z : Element) (below : Refiner × Refiner) (k : ℕ)
    (r : Refinement) : Traced (Bool × Refinement) := do
  (checkTypes op x z r : Except Fault Unit)
  (levels limit op z below k).1 x r

variable {x : Element} {r r' : Refinement} {n m : ℕ}

theorem constrainAs_eq_constrainOver {k : ℕ} (hk : k ≤ r.eval.budget) :
    constrainAs limit op x z r =
      constrainOver limit op x z (nestedRefiners limit op z (r.eval.budget - k)) k r := by
  rw [constrainOver, ← nestedRefiners_eq_levels, Nat.sub_add_cancel hk]
  rfl

theorem resultType_of_checkTypes (h : checkTypes op x z r = .ok ()) :
    resultType op (r.operands x).1 (r.operands x).2 = .ok z.type := by
  unfold checkTypes at h
  generalize r.operands x = pair at h ⊢
  obtain ⟨first, second⟩ := pair
  dsimp only at h ⊢
  cases hty : resultType op first second with
  | error fault =>
    rw [hty] at h
    cases h
  | ok ty =>
    rw [hty] at h
    by_cases hz : ty = z.type
    · rw [hz]
    · cases h.symm.trans (if_neg hz)

/-- The operands of a refinement whose types agree are words or floats. -/
theorem onWords_or_onFloats_of_checkTypes (h : checkTypes op x z r = .ok ())
    (hop : op.arity = 0 → r.eval.argument = none) :
    OnWords op z x r.eval.argument ∨ OnFloats x r.eval.argument := by
  have htype := resultType_of_checkTypes h
  rcases r.operands_cases x with heq | ⟨o, ho, heq⟩
  · rw [heq] at htype
    exact onWords_or_onFloats htype hop
  · rw [heq] at htype
    rw [ho] at hop ⊢
    exact (onWords_or_onFloats htype fun h0 => by cases hop h0).imp OnWords.swap OnFloats.swap

/-- Four levels are enough for a refinement. -/
theorem constrainOver_alike {R : Evaluation → Evaluation → Prop} (hR : Lockstep R)
    (htrial : ∀ x y, TrialsAlike limit op R 1 x y) (hx : x.WellFormed limit)
    (hy : ∀ o ∈ r.eval.argument, o.WellFormed limit) (hop : op.arity = 0 → r.eval.argument = none)
    (h : Alike R r r') (hdepth : r.eval.depth = 0) (below below' : Refiner × Refiner) :
    (constrainOver limit op x z below 4 r).Relates (SameAnswer (Alike R))
      (constrainOver limit op x z below' 4 r') := by
  have htypes : checkTypes op x z r' = checkTypes op x z r := by
    rw [checkTypes, checkTypes, h.operands hR]
  rw [constrainOver, constrainOver, htypes]
  refine Traced.relates_lift_bind fun _ hok => ?_
  have hkinds := onWords_or_onFloats_of_checkTypes hok hop
  exact (levels_alike hR htrial hkinds hx hy below below' r r' h ⟨hdepth, rfl, rfl⟩).mono
    fun _ _ => AnswersAlike.same

/-- A refinement does not depend on the bound on its nesting, if there is room for four levels. -/
theorem constrainAs_alike (hx : x.WellFormed limit)
    (hy : ∀ o ∈ r.eval.argument, o.WellFormed limit) (hop : op.arity = 0 → r.eval.argument = none)
    (h : Alike (Evaluation.Deepened n m) r r') (hdepth : r.eval.depth = 0) (hn : 4 ≤ n)
    (hm : 4 ≤ m) :
    (constrainAs limit op x z r).Relates (SameAnswer (Alike (Evaluation.Deepened n m)))
      (constrainAs limit op x z r') := by
  have hR := Evaluation.lockstep_deepened n m
  have hbudget : 4 ≤ r.eval.budget := by
    rw [Evaluation.budget, h.eval.maxDepth, hdepth]
    exact hn
  have hbudget' : 4 ≤ r'.eval.budget := by
    rw [Evaluation.budget, h.eval.eq]
    change 4 ≤ m - r.eval.depth
    rw [hdepth]
    exact hm
  rw [constrainAs_eq_constrainOver hbudget, constrainAs_eq_constrainOver hbudget']
  refine constrainOver_alike hR (fun x' y' e e' he hd _ => ?_) hx hy hop h hdepth _ _
  exact (nestsWithin_three limit op x' e.argument).apply_alike he (by omega) (by omega)

/-- Nor does it depend on what would be run below them. -/
theorem constrainAs_eq_of_four_le (hx : x.WellFormed limit)
    (hy : ∀ o ∈ r.eval.argument, o.WellFormed limit) (hop : op.arity = 0 → r.eval.argument = none)
    (hdepth : r.eval.depth = 0) (hn : 4 ≤ r.eval.params.maxDepth) (below : Refiner × Refiner) :
    constrainAs limit op x z r = constrainOver limit op x z below 4 r := by
  have hbudget : 4 ≤ r.eval.budget := by
    rw [Evaluation.budget, hdepth]
    exact hn
  rw [constrainAs_eq_constrainOver hbudget]
  refine Traced.Relates.eq (Traced.Relates.mono (constrainOver_alike Evaluation.lockstep_eq ?_ hx hy
    hop ⟨rfl, rfl, rfl, rfl⟩ hdepth _ below) ?_)
  · rintro x' y' e _ rfl - -
    refine (Traced.relates_refl _).mono ?_
    rintro a _ rfl
    exact ⟨rfl, rfl⟩
  · rintro ⟨a, r⟩ ⟨_, r'⟩ ⟨rfl, h⟩
    exact congrArg (Prod.mk a) h.eq

/-- Runs of an operation, forward and backward, that only differ in the bounds on the nesting that
they show at their ends. -/
structure AlikeUnderBounds (limit : ℕ) (op : Operation) (params : Params) (x z : Element)
    (y : Option Element) (n m : ℕ) : Prop where
  /-- The transfer. -/
  apply : (x.apply limit op (.start (params.withMaxDepth n) y)).Relates
    (SameAnswer (Evaluation.Deepened n m)) (x.apply limit op (.start (params.withMaxDepth m) y))
  /-- The refinement with the first operand in charge. -/
  constrain : (x.constrain limit op z (.start (params.withMaxDepth n) y)).Relates
    (SameAnswer (Alike (Evaluation.Deepened n m)))
    (x.constrain limit op z (.start (params.withMaxDepth m) y))
  /-- The refinement with the second operand in charge. -/
  constrainTo : ∀ o ∈ y, ∀ argument,
    (o.constrainTo limit op x z (.start (params.withMaxDepth n) argument)).Relates
      (SameAnswer (Alike (Evaluation.Deepened n m)))
      (o.constrainTo limit op x z (.start (params.withMaxDepth m) argument))

/-- Runs of an operation, forward and backward, that open nothing at depth four: they do not depend
on what would be run there. -/
structure EndsBeforeFour (limit : ℕ) (op : Operation) (params : Params) (x z : Element)
    (y : Option Element) : Prop where
  /-- A transfer, and each transfer that a refinement opens to try a pair of values. -/
  apply : ∀ (beyond : Transfer) (x' : Element) (e : Evaluation), e.params = params → e.depth ≤ 1 →
    x'.apply limit op e = (applyOver limit op)^[4 - e.depth] beyond x' e
  /-- The refinement with the first operand in charge. -/
  constrain : ∀ below : Refiner × Refiner, x.constrain limit op z (.start params y) =
    constrainOver limit op x z below 4 (.start params y)
  /-- The refinement with the second operand in charge. -/
  constrainTo : ∀ o ∈ y, ∀ (argument : Option Element) (below : Refiner × Refiner),
    o.constrainTo limit op x z (.start params argument) =
      constrainOver limit op o z below 4
        { Refinement.start params (some x) with selector := .second }

/-- Once it is at least four, the bound on the nesting decides nothing: runs under two such bounds
find the same, and they open nothing at depth four. -/
theorem nesting_decides_nothing (params : Params) {y : Option Element} (hx : x.WellFormed limit)
    (hy : ∀ o ∈ y, o.WellFormed limit) (hop : op.arity = 0 → y = none) (hn : 4 ≤ n) (hm : 4 ≤ m) :
    AlikeUnderBounds limit op params x z y n m ∧
      EndsBeforeFour limit op (params.withMaxDepth n) x z y := by
  have hdeepened : ∀ y, Evaluation.Deepened n m (.start (params.withMaxDepth n) y)
      (.start (params.withMaxDepth m) y) := fun _ => ⟨rfl, rfl⟩
  have hsource : ∀ o ∈ some x, o.WellFormed limit := by
    rintro _ ⟨⟩
    exact hx
  have harity : ∀ o ∈ y, op.arity = 0 → some x = none := by
    rintro o ho h0
    cases ho.symm.trans (hop h0)
  refine ⟨⟨?_, ?_, fun o ho argument => ?_⟩, ⟨fun beyond x' e he hd => ?_, fun below => ?_,
    fun o ho argument below => ?_⟩⟩
  · exact (nestsWithin_three limit op x y).apply_alike (hdeepened y) (by change 0 + 3 ≤ n; omega)
      (by change 0 + 3 ≤ m; omega)
  · exact constrainAs_alike hx hy hop ⟨hdeepened y, rfl, rfl, rfl⟩ rfl hn hm
  · exact constrainAs_alike (hy o ho) hsource (harity o ho) ⟨hdeepened (some x), rfl, rfl, rfl⟩ rfl
      hn hm
  · have hnests : NestsWithin limit op (4 - e.depth) x' e.argument := by
      have hthree := nestsWithin_three limit op x' e.argument
      rcases Nat.le_one_iff_eq_zero_or_eq_one.mp hd with h0 | h1
      · rw [h0]
        exact hthree.succ
      · rw [h1]
        exact hthree
    refine hnests.apply_eq_iterate ?_ beyond
    rw [he]
    change e.depth + (4 - e.depth) ≤ n
    omega
  · exact constrainAs_eq_of_four_le hx hy hop rfl hn below
  · exact constrainAs_eq_of_four_le (hy o ho) hsource (harity o ho) rfl hn below

/-- Two lists without summands of ten: four levels find this out, and three levels do not. -/
theorem nesting_decides_nothing_plus :
    let t : IntType := ⟨8, true, by decide, by decide⟩
    let x : Element := .word (.int t) (.disjunction [1, 4])
    let y : Element := .word (.int t) (.disjunction [2, 7])
    let z : Element := .word (.int t) (.constant 10)
    let params : Params := .preset 4 .may .stop
    x.WellFormed 8 ∧ y.WellFormed 8 ∧ AlikeUnderBounds 8 .plus params x z (some y) 4 16 ∧
      EndsBeforeFour 8 .plus (params.withMaxDepth 4) x z (some y) ∧
      (x.constrain 8 .plus z (.start (params.withMaxDepth 4) (some y))).Returns
        (·.2.eval.empty = true) ∧
      (x.constrain 8 .plus z (.start (params.withMaxDepth 3) (some y))).Returns
        (·.2.eval.empty = false) := by
  intro t x y z params
  have hx : x.WellFormed 8 := by decide
  have hy : y.WellFormed 8 := by decide
  have hoperand : ∀ o ∈ some y, o.WellFormed 8 := by
    rintro _ ⟨⟩
    exact hy
  have hruns : AlikeUnderBounds 8 .plus params x z (some y) 4 16 ∧
      EndsBeforeFour 8 .plus (params.withMaxDepth 4) x z (some y) :=
    nesting_decides_nothing params hx hoperand (by rintro ⟨⟩) le_rfl (by decide)
  exact ⟨hx, hy, hruns.1, hruns.2, ⟨_, rfl, rfl⟩, ⟨_, rfl, rfl⟩⟩

end Element

end ScalarDomain
