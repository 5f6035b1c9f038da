import ScalarDomain.Proofs.Lattice.Laws

/-!
# Whichever element is asked

Each shape has its own way to merge, intersect and compare with others, and declines some of them. A
lattice operation asks the operand of higher rank, but some shapes also answer one of higher rank:
an interval knows lists and the top, and a list or an interval may be compared from either side.
These second answers are computed in another way and never differ: whatever a shape merges or
intersects is the join or the meet (`Shape.eq_join_of_merge?`, `Shape.eq_meet_of_intersect?`), and
every answer about containment is inclusion of the values. So it does not matter which element
carries out an operation, as long as it answers.
-/

namespace ScalarDomain

/-- Two parties asked for the same thing: at least one of them answers, and only with `v`. -/
structure Coherent {α : Type} (p q : Option α) (v : α) : Prop where
  /-- One of them answers. -/
  answered : p = some v ∨ q = some v
  /-- The first one gives no other answer. -/
  first : ∀ u, p = some u → u = v
  /-- Nor does the second one. -/
  second : ∀ u, q = some u → u = v

/-- Coherent answers stay coherent when they are read differently. -/
theorem Coherent.map {α β : Type} {p q : Option α} {v : α} (h : Coherent p q v) (f : α → β) :
    Coherent (p.map f) (q.map f) (f v) := by
  refine ⟨h.answered.imp (fun hp => by simp [hp]) (fun hq => by simp [hq]), fun u hu => ?_,
    fun u hu => ?_⟩ <;> obtain ⟨a, ha, rfl⟩ := Option.map_eq_some_iff.mp hu
  · rw [h.first a ha]
  · rw [h.second a ha]

/-- The one that is asked answers. -/
private theorem answered_of_ite {α : Type} {d : Prop} [Decidable d] {p q : Option α} {v : α}
    (h : (if d then p else q) = some v) : p = some v ∨ q = some v := by
  split at h
  · exact .inl h
  · exact .inr h

namespace Shape

variable {limit : ℕ} {w : WordType} {a b s : Shape}

/-- The pairs of shapes of which the second one has the higher rank. -/
theorem cases_of_not_drives (h : ¬a.drives b = true) :
    (∃ c, a = constant c ∧ ∀ d, b ≠ constant d) ∨
    (∃ r vs, a = interval r ∧ b = disjunction vs) ∨
    (∃ r, a = interval r ∧ b = top) ∨
    ∃ vs, a = disjunction vs ∧ b = top := by
  cases a <;> cases b <;> simp [drives, precision, Precision.rank] at h ⊢

/-! ### Merges -/

/-- What a shape merges is the join, whichever rank the other one has. -/
theorem eq_join_of_merge? (ha : a.WellFormed limit w) (hb : b.WellFormed limit w)
    (h : a.merge? w limit b = some s) : s = a.join w limit b := by
  have hjoin := merge?_eq_join ha.proper hb.proper
  by_cases hd : a.drives b = true
  · rw [if_pos hd, h] at hjoin
    exact Option.some.inj hjoin
  · rw [if_neg hd] at hjoin
    rcases cases_of_not_drives hd with
      ⟨c, rfl, hne⟩ | ⟨r, vs, rfl, rfl⟩ | ⟨r, rfl, rfl⟩ | ⟨vs, rfl, rfl⟩
    · cases b with
      | constant d => exact absurd rfl (hne d)
      | _ => cases h
    · obtain rfl := Option.some.inj h
      refine Option.some.inj (Eq.trans ?_ hjoin)
      simp only [merge?, min_comm, max_comm]
    · cases h
    · cases h

/-- Joins are symmetric, whichever shape drives them. -/
theorem join_comm (ha : a.WellFormed limit w) (hb : b.WellFormed limit w) :
    a.join w limit b = b.join w limit a := by
  let a' : WordShape limit w := ⟨a, ha⟩
  let b' : WordShape limit w := ⟨b, hb⟩
  exact congrArg WordShape.shape (sup_comm a' b')

/-- Two shapes merge coherently. -/
theorem merge?_coherent (ha : a.WellFormed limit w) (hb : b.WellFormed limit w) :
    Coherent (a.merge? w limit b) (b.merge? w limit a) (a.join w limit b) where
  answered := answered_of_ite (merge?_eq_join ha.proper hb.proper)
  first _ h := eq_join_of_merge? ha hb h
  second _ h := (eq_join_of_merge? hb ha h).trans (join_comm hb ha)

/-! ### Intersections -/

/-- What a shape intersects is the meet, whichever rank the other one has. -/
theorem eq_meet_of_intersect? {o : Option Shape} (ha : a.WellFormed limit w)
    (hb : b.WellFormed limit w) (h : a.intersect? w limit b = some o) : o = a.meet w limit b := by
  have hmeet := intersect?_eq_meet ha hb
  by_cases hd : a.drives b = true
  · rw [if_pos hd, h] at hmeet
    exact Option.some.inj hmeet
  · rw [if_neg hd] at hmeet
    rcases cases_of_not_drives hd with
      ⟨c, rfl, hne⟩ | ⟨r, vs, rfl, rfl⟩ | ⟨r, rfl, rfl⟩ | ⟨vs, rfl, rfl⟩
    · cases b with
      | constant d => exact absurd rfl (hne d)
      | _ => cases h
    · exact Option.some.inj (h.symm.trans hmeet)
    · cases w with
      | bit => exact absurd rfl ha.1.1
      | int t =>
        obtain rfl := Option.some.inj h
        refine Option.some.inj (Eq.trans ?_ hmeet)
        rw [WordType.rangeShape, if_neg (ha.2 r rfl).ne]
        rfl
    · cases h

/-- And so are meets. -/
theorem meet_comm (ha : a.WellFormed limit w) (hb : b.WellFormed limit w) :
    a.meet w limit b = b.meet w limit a := by
  let a' : WordShape limit w := ⟨a, ha⟩
  let b' : WordShape limit w := ⟨b, hb⟩
  have hmeet : a'.meet b' = b'.meet a' := inf_comm (a' : WithBot (WordShape limit w)) b'
  rcases WordShape.meet_cases a' b' with ⟨hn, h⟩ | ⟨m, hm, h⟩ <;>
    rcases WordShape.meet_cases b' a' with ⟨hn', h'⟩ | ⟨m', hm', h'⟩ <;>
    rw [h, h'] at hmeet
  · exact hn.trans hn'.symm
  · exact absurd hmeet WithBot.bot_ne_coe
  · exact absurd hmeet WithBot.coe_ne_bot
  · rw [WithBot.coe_inj] at hmeet
    exact hm.trans (hmeet ▸ hm'.symm)

/-- Two shapes intersect coherently. -/
theorem intersect?_coherent (ha : a.WellFormed limit w) (hb : b.WellFormed limit w) :
    Coherent (a.intersect? w limit b) (b.intersect? w limit a) (a.meet w limit b) where
  answered := answered_of_ite (intersect?_eq_meet ha hb)
  first _ h := eq_meet_of_intersect? ha hb h
  second _ h := (eq_meet_of_intersect? hb ha h).trans (meet_comm hb ha)

end Shape

namespace Element

variable {limit : ℕ} {w : WordType} {s t : Shape} {c : Bool} {x y : Element}

/-! ### Words answer as their shapes do -/

/-- Words merge as their shapes do. -/
theorem merge?_eq_map (hs : s.WellFormed limit w) (ht : t.WellFormed limit w) :
    (word w s).merge? limit (word w t) = .ok ((s.merge? w limit t).map (word w)) := by
  cases h : s.merge? w limit t with
  | some r =>
    refine merge?_word h ?_
    rw [Shape.eq_join_of_merge? hs ht h]
    exact (Shape.join_spec hs.proper ht.proper).1
  | none =>
    cases s with
    | constant a =>
      cases t with
      | constant b => cases h
      | _ => simp [merge?, comparable_self, h]
    | top => cases h
    | _ => simp [merge?, comparable_self, h, Shape.precision]

/-- Words intersect as their shapes do. -/
theorem intersect?_eq_map (hs : s.WellFormed limit w) (ht : t.WellFormed limit w) :
    (word w s).intersect? limit (word w t) =
      .ok ((s.intersect? w limit t).map (Option.map (word w))) := by
  cases h : s.intersect? w limit t with
  | some o =>
    refine intersect?_word h fun r hr => ?_
    rw [Shape.eq_meet_of_intersect? hs ht h] at hr
    exact (Shape.meet_eq_some hs ht hr).1
  | none =>
    cases s with
    | interval r => cases t <;> cases h
    | top => cases h
    | _ => simp [intersect?, comparable_self, h]

/-! ### Containment -/

/-- Whatever a word answers about the values of another one is right. -/
theorem contain?_iff (hs : s.WellFormed limit w) (ht : t.WellFormed limit w)
    (h : (word w s).contain? (word w t) = some c) : c = true ↔ t.toSet w.view ⊆ s.toSet w.view := by
  by_cases hd : s.drives t = true
  · obtain ⟨c', hc', hiff⟩ := Shape.contain?_spec hs ht hd
    cases (contain?_word hc').symm.trans h
    exact hiff
  · rcases Shape.cases_of_not_drives hd with
      ⟨d, rfl, hne⟩ | ⟨r, vs, rfl, rfl⟩ | ⟨r, rfl, rfl⟩ | ⟨vs, rfl, rfl⟩
    · cases t with
      | constant e => exact absurd rfl (hne e)
      | _ => simp [contain?, comparable_self, Shape.contain?] at h
    · have hends : (Shape.interval r).contain? w.view (.disjunction vs) = some c := by
        simpa [contain?, comparable_self] using h
      obtain rfl := Option.some.inj hends
      rw [Shape.toSet_subset_interval ht.1, Bool.and_eq_true, decide_eq_true_eq, decide_eq_true_eq]
    · obtain rfl := Option.some.inj h
      exact Shape.isExhaustive_iff hs
    · simp [contain?, comparable_self, Shape.contain?] at h

/-- Whatever a word answers about being held by another one is right. -/
theorem containTo?_iff (hs : s.WellFormed limit w) (ht : t.WellFormed limit w)
    (h : (word w t).containTo? (word w s) = some c) :
    c = true ↔ t.toSet w.view ⊆ s.toSet w.view := by
  by_cases htop : t = .top
  · subst htop
    obtain rfl := Option.some.inj h
    exact Shape.isExhaustive_iff hs
  by_cases hd : s.drives t = true
  · -- of a shape of no higher rank it only knows its own kind, and says what the other one says
    obtain ⟨c', hc', hiff⟩ := Shape.contain?_spec hs ht hd
    cases t with
    | constant d =>
      cases s with
      | constant e =>
        have hc : (d == e) = c := by simpa [containTo?, comparable_self, Shape.containTo?] using h
        rw [← hc, BEq.comm, Option.some.inj hc', hiff]
      | _ => simp [containTo?, comparable_self, Shape.containTo?] at h
    | interval q =>
      cases s with
      | interval r =>
        have hc : (Shape.interval q).containTo? (.interval r) = some c := by
          simpa [containTo?, comparable_self] using h
        cases hc.symm.trans hc'
        exact hiff
      | constant _ => simp [Shape.drives, Shape.precision, Precision.rank] at hd
      | _ => simp [containTo?, comparable_self, Shape.containTo?] at h
    | disjunction vs =>
      cases s with
      | constant _ | interval _ => simp [Shape.drives, Shape.precision, Precision.rank] at hd
      | _ => simp [containTo?, comparable_self, Shape.containTo?] at h
    | top => exact absurd rfl htop
  · obtain ⟨c', hc', hiff⟩ := Shape.containTo?_spec hs ht hd htop
    cases (containTo?_word htop hc').symm.trans h
    exact hiff

/-- A word and the one that holds it answer coherently. -/
theorem contain?_coherent (hx : x.IsWord limit w) (hy : y.IsWord limit w) :
    ∃ c, Coherent (x.contain? y) (y.containTo? x) c ∧ x.contains y = .ok c := by
  obtain ⟨c, hcontains, hc, hiff⟩ := contain?_words hx hy
  obtain ⟨s, rfl, hs⟩ := hx
  obtain ⟨t, rfl, ht⟩ := hy
  refine ⟨c, ⟨answered_of_ite hc, fun u hu => ?_, fun u hu => ?_⟩, hcontains⟩
  · exact Bool.eq_iff_iff.mpr ((contain?_iff hs ht hu).trans hiff.symm)
  · exact Bool.eq_iff_iff.mpr ((containTo?_iff hs ht hu).trans hiff.symm)

/-! ### The result does not depend on who is asked -/

/-- Two words of one type merge, intersect and compare coherently: of the two that can be asked at
least one answers, any answer is the join, the meet or the containment, and joins and meets are the
same in both orders. -/
theorem dispatch_coherent (hx : x.IsWord limit w) (hy : y.IsWord limit w) :
    (∃ p q j, x.merge? limit y = .ok p ∧ y.merge? limit x = .ok q ∧ Coherent p q j ∧
      x.join limit y = .ok j ∧ y.join limit x = .ok j) ∧
    (∃ p q m, x.intersect? limit y = .ok p ∧ y.intersect? limit x = .ok q ∧ Coherent p q m ∧
      x.meet limit y = .ok m ∧ y.meet limit x = .ok m) ∧
    ∃ c, Coherent (x.contain? y) (y.containTo? x) c ∧ x.contains y = .ok c := by
  refine ⟨?_, ?_, contain?_coherent hx hy⟩ <;> obtain ⟨s, rfl, hs⟩ := hx <;>
    obtain ⟨t, rfl, ht⟩ := hy
  · refine ⟨_, _, _, merge?_eq_map hs ht, merge?_eq_map ht hs,
      (Shape.merge?_coherent hs ht).map (word w), if_pos rfl, ?_⟩
    rw [Shape.join_comm hs ht]
    exact if_pos rfl
  · refine ⟨_, _, _, intersect?_eq_map hs ht, intersect?_eq_map ht hs,
      (Shape.intersect?_coherent hs ht).map (Option.map (word w)), if_pos rfl, ?_⟩
    rw [Shape.meet_comm hs ht]
    exact if_pos rfl

/-- A range and a list that both answer, each in its own way. -/
theorem dispatch_coherent_range_list :
    let t : IntType := ⟨4, true, by decide, by decide⟩
    let x : Element := .word (.int t) (.interval ⟨-2, 5⟩)
    let y : Element := .word (.int t) (.disjunction [-3, 1, 3])
    let j : Element := .word (.int t) (.interval ⟨-3, 5⟩)
    let m : Element := .word (.int t) (.disjunction [1, 3])
    x.IsWord 8 (.int t) ∧ y.IsWord 8 (.int t) ∧
      (x.merge? 8 y = .ok (some j) ∧ y.merge? 8 x = .ok (some j) ∧ x.join 8 y = .ok j) ∧
      (x.intersect? 8 y = .ok (some (some m)) ∧ y.intersect? 8 x = .ok (some (some m)) ∧
        x.meet 8 y = .ok (some m)) ∧
      x.contain? y = some false ∧ y.containTo? x = some false ∧ x.contains y = .ok false := by
  intro t x y j m
  have hx : x.IsWord 8 (.int t) := by decide
  have hy : y.IsWord 8 (.int t) := by decide
  obtain ⟨⟨p, q, _, hp, hq, hj, hjoin, -⟩, ⟨p', q', _, hp', hq', hm, hmeet, -⟩, c, hc, hcontains⟩ :=
    dispatch_coherent hx hy
  have hmerge : x.merge? 8 y = .ok (some j) := by cbv
  have hintersect : x.intersect? 8 y = .ok (some (some m)) := by cbv
  cases hmerge.symm.trans hp
  cases hintersect.symm.trans hp'
  obtain rfl := hj.first j rfl
  obtain rfl := hm.first (some m) rfl
  obtain rfl := hc.first false rfl
  exact ⟨hx, hy, ⟨hmerge, by cbv, hjoin⟩, ⟨hintersect, by cbv, hmeet⟩, rfl, rfl, hcontains⟩

end Element

end ScalarDomain
