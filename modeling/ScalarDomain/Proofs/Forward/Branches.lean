import ScalarDomain.Proofs.Forward.Flags
import ScalarDomain.Proofs.Lattice.Laws

/-!
# Joined branches

An evaluation that joins branches does not depend on their order. What an evaluation ends with is a
point of a lattice (`Upshot`): a word, the bottom if no value flows out, and the top if it was not
performed. Joining a branch is a supremum in this lattice (`Evaluation.Collects`), so a pruned
branch adds nothing and one that was not performed decides. The flags of the branches are sums that
only depend on which branches there are.
-/

namespace ScalarDomain

variable {limit : ℕ} {w : WordType} {params : Params} {e child : Evaluation}

/-! ### What evaluations end with -/

/-- What an evaluation ends with: a word, the bottom if no value flows out, or the top if nothing
was performed. -/
abbrev Upshot (limit : ℕ) (w : WordType) := WithTop (WithBot (WordShape limit w))

/-- Every word is below the one that may be any value. -/
instance : OrderTop (WordShape limit w) where
  top := ⟨.top, trivial, by simp⟩
  le_top a := by
    refine ⟨fun v hv => ?_, fun h => absurd h Shape.not_isEnumerated_top, fun _ => rfl⟩
    exact Shape.contains_top.mpr (a.wellFormed.proper.contains hv)

namespace Upshot

variable {o p : Upshot limit w} {os : List (Upshot limit w)}

/-- A word as an upshot. -/
abbrev word (z : WordShape limit w) : Upshot limit w :=
  ((z : WithBot (WordShape limit w)) : WithTop (WithBot (WordShape limit w)))

theorem word_ne_bot (z : WordShape limit w) : word z ≠ ⊥ := by
  simp [word, ← WithTop.coe_bot]

theorem word_le_word {a b : WordShape limit w} : word a ≤ word b ↔ a ≤ b :=
  WithTop.coe_le_coe.trans WithBot.coe_le_coe

/-- The result of an evaluation; only a word is one. -/
def element? : Upshot limit w → Option Element
  | ⊤ => none
  | (o : WithBot (WordShape limit w)) => WordShape.toElement? o

/-- A result is missing at both extremes: nothing was performed, or no value flows out. -/
theorem element?_eq_none_iff : o.element? = none ↔ o = ⊤ ∨ o = ⊥ := by
  cases o using WithTop.recTopCoe with
  | top => exact iff_of_true rfl (.inl rfl)
  | coe q =>
    cases q with
    | bot => exact iff_of_true rfl (.inr rfl)
    | coe z =>
      exact iff_of_false (Option.some_ne_none _) (not_or_intro WithTop.coe_ne_top (word_ne_bot z))

/-- A supremum is the bottom if all parts are. -/
theorem foldl_sup_eq_bot : os.foldl (· ⊔ ·) o = ⊥ ↔ ∀ p ∈ o :: os, p = ⊥ := by
  simp only [← le_bot_iff, WordShape.foldl_sup_le]

/-- Only a top makes a supremum the top. -/
theorem foldl_sup_eq_top : os.foldl (· ⊔ ·) o = ⊤ ↔ ∃ p ∈ o :: os, p = ⊤ := by
  have hsup : ∀ a b : Upshot limit w, a ⊔ b = ⊤ ↔ a = ⊤ ∨ b = ⊤ := by
    intro a b
    cases a using WithTop.recTopCoe <;> cases b using WithTop.recTopCoe <;> simp [← WithTop.coe_sup]
  induction os generalizing o with
  | nil => simp [eq_comm]
  | cons p os ih => simp [ih, hsup, or_assoc, eq_comm (a := ⊤)]

/-- A least upper bound is the top only of parts with the top: all others are below the word of any
value. -/
theorem eq_top_of_isLUB {A : Set (Upshot limit w)} (h : IsLUB A o) : o = ⊤ ↔ ⊤ ∈ A := by
  refine ⟨fun ho => ?_, fun hA => top_le_iff.mp (h.1 hA)⟩
  by_contra hA
  -- all else is below the word that may be any value
  have hle : o ≤ ((⊤ : WithBot (WordShape limit w)) : Upshot limit w) := by
    refine h.2 fun p hp => ?_
    cases p using WithTop.recTopCoe with
    | top => exact absurd hp hA
    | coe q => exact WithTop.coe_le_coe.mpr le_top
  rw [ho, top_le_iff] at hle
  exact WithTop.coe_ne_top hle

end Upshot

namespace Evaluation

variable {o p : Upshot limit w}

/-- The evaluation ends with a given upshot. -/
structure EndsWith (o : Upshot limit w) (e : Evaluation) : Prop where
  /-- The result is the word, if it is one. -/
  result : e.result = o.element?
  /-- No value flows out of the bottom only. -/
  empty : e.empty = true ↔ o = ⊥

/-- Nothing was performed, told by the fields of the evaluation. -/
theorem EndsWith.unperformed_iff (h : e.EndsWith o) :
    (e.result = none ∧ e.empty = false) ↔ o = ⊤ := by
  rw [h.result, Upshot.element?_eq_none_iff, ← Bool.not_eq_true, h.empty]
  constructor
  · rintro ⟨h1 | h1, h2⟩
    exacts [h1, absurd h1 h2]
  · rintro rfl
    exact ⟨.inl rfl, top_ne_bot⟩

/-- What the evaluation adds to a join: a result does not count if no value flows out. -/
structure Contributes (o : Upshot limit w) (e : Evaluation) : Prop where
  /-- No value flows out of the bottom only. -/
  empty : e.empty = true ↔ o = ⊥
  /-- If values flow out the result counts. -/
  result : e.empty = false → e.result = o.element?

/-- What an evaluation ends with is what it adds to a join. -/
theorem EndsWith.contributes (h : e.EndsWith o) : e.Contributes o :=
  ⟨h.empty, fun _ => h.result⟩

theorem Contributes.unperformed_iff (h : e.Contributes o) :
    (e.result = none ∧ e.empty = false) ↔ o = ⊤ := by
  constructor
  · rintro ⟨hresult, hempty⟩
    rw [h.result hempty, Upshot.element?_eq_none_iff] at hresult
    exact hresult.resolve_right fun hbot => by simp [h.empty.mpr hbot] at hempty
  · rintro rfl
    have hempty : e.empty = false := by
      rw [← Bool.not_eq_true, h.empty]
      exact top_ne_bot
    exact ⟨h.result hempty, hempty⟩

/-- Whatever has a well-formed result, or none, adds something to a join. -/
theorem exists_contributes (h : ∀ x, e.result = some x → x.IsWord limit w) :
    ∃ o : Upshot limit w, e.Contributes o := by
  cases hempty : e.empty with
  | true => exact ⟨⊥, iff_of_true hempty rfl, fun h => by simp [hempty] at h⟩
  | false =>
    have hnot : ¬e.empty = true := by simp [hempty]
    cases hresult : e.result with
    | none => exact ⟨⊤, iff_of_false hnot top_ne_bot, fun _ => hresult⟩
    | some x =>
      have hx := h x hresult
      lift x to WordShape limit w using hx
      exact ⟨.word x, iff_of_false hnot (Upshot.word_ne_bot x), fun _ => hresult⟩

/-! ### Joining -/

/-- The evaluation has joined branches, and the supremum of what they add is known. -/
structure Collects (params : Params) (o : Upshot limit w) (e : Evaluation) : Prop where
  /-- The parameters are known. -/
  params : e.params = params
  /-- The result is the join of the branches with one, and does not count once a branch was not
  performed. -/
  result : ∃ r : WithBot (WordShape limit w), e.result = WordShape.toElement? r ∧
    o = if e.incomplete = true then ⊤ else (r : Upshot limit w)
  /-- Values may flow out. -/
  empty : e.empty = false

/-- A fresh evaluation has joined nothing. -/
theorem Fresh.collects (h : e.Fresh) (hp : e.params = params) :
    e.Collects params (⊥ : Upshot limit w) :=
  ⟨hp, ⟨⊥, h.result, by simp [h.incomplete]⟩, h.empty⟩

/-- One more branch is joined in. -/
theorem Collects.finish (h : e.Collects params o) (hc : child.Contributes p) :
    ∃ e', e.finish limit child = .ok e' ∧ e'.Collects params (o ⊔ p) := by
  obtain ⟨hp, ⟨r, hr, rfl⟩, hempty⟩ := h
  have hfields : (e.absorbBranch child).result = e.result := rfl
  cases hce : child.empty with
  | true =>
    obtain rfl := hc.empty.mp hce
    exact ⟨_, if_pos hce, hp, ⟨r, hr, sup_bot_eq _⟩, hempty⟩
  | false =>
    have hresult := hc.result hce
    rw [Evaluation.finish, if_neg (by simp [hce]), hresult]
    cases p using WithTop.recTopCoe with
    | top => exact ⟨_, rfl, hp, ⟨r, hr, by simp⟩, hempty⟩
    | coe q =>
      cases q with
      | bot => simp [hc.empty.mpr rfl] at hce
      | coe z =>
        rw [hfields, hr]
        cases r with
        | bot =>
          refine ⟨_, rfl, hp, ⟨z, rfl, ?_⟩, hempty⟩
          change _ = if e.incomplete = true then _ else _
          split
          · exact top_sup_eq _
          · exact bot_sup_eq _
        | coe z' =>
          simp only [Upshot.element?, WordShape.toElement?, WordShape.join_toElement]
          have hkeep : ∀ (b : Bool) (e₁ : Evaluation),
              (if b = true then e₁ else e₁.conclude false).params = e₁.params ∧
              (if b = true then e₁ else e₁.conclude false).incomplete = e₁.incomplete ∧
              (if b = true then e₁ else e₁.conclude false).empty = e₁.empty := by
            intro b e₁
            cases b <;> exact ⟨rfl, rfl, rfl⟩
          obtain ⟨h1, h2, h3⟩ := hkeep (z'.toElement.isExactJoin limit z.toElement
            (z' ⊔ z).toElement) (e.absorbBranch child)
          refine ⟨_, rfl, h1.trans hp, ⟨(z' ⊔ z : WordShape limit w), rfl, ?_⟩, h3.trans hempty⟩
          rw [WithBot.coe_sup, WithTop.coe_sup]
          change _ = if (ite _ _ _ : Evaluation).incomplete = true then _ else _
          rw [h2]
          change _ = if e.incomplete = true then _ else _
          split
          · exact top_sup_eq _
          · rfl

/-- The joined branches make the result. -/
theorem Collects.sealJoin (h : e.Collects params o) : e.sealJoin.EndsWith o := by
  obtain ⟨-, ⟨r, hr, rfl⟩, hempty⟩ := h
  obtain ⟨h1, -, h3, h4⟩ := e.sealBranches_spec
  rw [hr] at h1
  rw [hempty] at h3
  rw [Evaluation.sealJoin, h1, h3, h4]
  cases hi : e.incomplete with
  | true => exact ⟨rfl, iff_of_false (by simp) top_ne_bot⟩
  | false =>
    cases r with
    | bot => exact ⟨rfl, iff_of_true rfl rfl⟩
    | coe z =>
      exact ⟨h1, iff_of_false (by simp [WordShape.toElement?, h3]) (Upshot.word_ne_bot z)⟩

/-- Branches are joined one after the other into the supremum of what they add. -/
theorem Collects.foldlM {f : Evaluation → Upshot limit w} (cs : List Evaluation)
    (h : e.Collects params o) (hcs : ∀ c ∈ cs, c.Contributes (f c)) :
    ∃ e', cs.foldlM (Evaluation.finish limit) e = .ok e' ∧
      e'.Collects params ((cs.map f).foldl (· ⊔ ·) o) := by
  induction cs generalizing e o with
  | nil => exact ⟨e, rfl, h⟩
  | cons c cs ih =>
    obtain ⟨e₁, he₁, h₁⟩ := h.finish (hcs c List.mem_cons_self)
    obtain ⟨e', he', h'⟩ := ih h₁ fun c hc => hcs c (List.mem_cons_of_mem _ hc)
    refine ⟨e', ?_, h'⟩
    rw [List.foldlM_cons, he₁]
    exact he'

end Evaluation

/-! ### Flags -/

namespace ErrorFlags

variable {f g : ErrorFlags} {fs gs : List ErrorFlags}

/-- Flags are known once it is known which errors are possible and which are certain. -/
theorem eq_of_kinds (hpossible : ∀ k, f.isPossible k = true ↔ g.isPossible k = true)
    (hcertain : ∀ k, f.isCertain k = true ↔ g.isCertain k = true) : f = g := by
  have hbits : ∀ a b : BitVec 5, (∀ k : ErrorKind, a.getLsbD k.index = b.getLsbD k.index) →
      a = b := by
    intro a b h
    refine BitVec.eq_of_getLsbD_eq fun i hi => ?_
    obtain ⟨k, rfl⟩ : ∃ k : ErrorKind, k.index = i := by
      interval_cases i
      exacts [⟨.positiveOverflow, rfl⟩, ⟨.negativeOverflow, rfl⟩, ⟨.underflow, rfl⟩,
        ⟨.divisionByZero, rfl⟩, ⟨.nan, rfl⟩]
    exact h k
  cases f
  cases g
  congr 1
  · exact hbits _ _ fun k => Bool.eq_iff_iff.mpr (hpossible k)
  · exact hbits _ _ fun k => Bool.eq_iff_iff.mpr (hcertain k)

/-- The flags of several branches only depend on which flags they are. -/
theorem Sums.eq_of_mem_iff (hf : f.Sums fs) (hg : g.Sums gs) (h : ∀ e, e ∈ fs ↔ e ∈ gs) :
    f = g := by
  refine eq_of_kinds (fun k => ?_) fun k => ?_
  · rw [hf.possible k, hg.possible k]
    simp only [h]
  · rw [hf.certain k, hg.certain k, ne_eq, ne_eq, List.eq_nil_iff_forall_not_mem,
      List.eq_nil_iff_forall_not_mem]
    simp only [h]

end ErrorFlags

namespace Evaluation

variable {fs : List ErrorFlags}

/-- The flags of branches that are joined one after the other are put together. -/
theorem Gathers.foldlM {e' : Evaluation} (cs : List Evaluation) (h : e.Gathers fs)
    (he' : cs.foldlM (Evaluation.finish limit) e = .ok e') :
    e'.Gathers (fs ++ cs.map (·.errors)) ∧
      (e'.unstable = true ↔ e.unstable = true ∨ ∃ c ∈ cs, c.unstable = true) := by
  induction cs generalizing e fs with
  | nil =>
    cases he'
    simpa using h
  | cons c cs ih =>
    rw [List.foldlM_cons] at he'
    cases he₁ : e.finish limit c with
    | error fault =>
      rw [he₁] at he'
      cases he'
    | ok e₁ =>
      rw [he₁] at he'
      obtain ⟨h1, h2⟩ := ih (h.finish he₁).1 he'
      refine ⟨by simpa using h1, h2.trans ?_⟩
      rw [(finish_fields he₁).2.2.2]
      simp [or_assoc]

theorem unstable_sealJoin (e : Evaluation) : e.sealJoin.unstable = e.unstable := by
  have hseal : e.sealBranches.unstable = e.unstable := by
    rw [sealBranches]
    split <;> rfl
  rw [sealJoin]
  split_ifs <;> exact hseal

/-- Finished evaluations joined one by one into a fresh one. -/
def joinBranches (limit : ℕ) (parent : Evaluation) (cs : List Evaluation) :
    Except Fault Evaluation :=
  (cs.foldlM (finish limit) parent.clear).map sealJoin

/-- The join of branches, by what each of them adds and flags. -/
theorem joinBranches_spec {f : Evaluation → Upshot limit w} {cs : List Evaluation}
    (parent : Evaluation) (hcs : ∀ c ∈ cs, c.Contributes (f c)) :
    ∃ e, joinBranches limit parent cs = .ok e ∧ e.EndsWith ((cs.map f).foldl (· ⊔ ·) ⊥) ∧
      e.errors.Sums (cs.map (·.errors)) ∧ (e.unstable = true ↔ ∃ c ∈ cs, c.unstable = true) := by
  have hfresh : parent.clear.Fresh := ⟨rfl, rfl, rfl, rfl⟩
  have hclean : parent.clear.Clean := ⟨rfl, rfl⟩
  obtain ⟨e, he, hcollects⟩ := (hfresh.collects rfl).foldlM cs hcs
  obtain ⟨hgathers, hunstable⟩ := hclean.gathers.foldlM cs he
  refine ⟨e.sealJoin, by rw [joinBranches, he]; rfl, hcollects.sealJoin, ?_, ?_⟩
  · simpa using hgathers.sealJoin
  · rw [unstable_sealJoin, hunstable]
    simp [clear, start]

/-- Branches are joined in any order into the same result, emptiness and flags. An error is possible
if it is possible in some branch, and certain if it is certain in all of them. The join is not
performed if some branch was not, and no value flows out if none flows out of any branch. -/
theorem joinBranches_perm {cs cs' : List Evaluation} (parent : Evaluation) (hne : cs ≠ [])
    (hperm : cs.Perm cs') (hcs : ∀ c ∈ cs, ∀ x, c.result = some x → x.IsWord limit w) :
    ∃ e e', joinBranches limit parent cs = .ok e ∧ joinBranches limit parent cs' = .ok e' ∧
      (e'.result = e.result ∧ e'.empty = e.empty ∧ e'.unstable = e.unstable ∧
        e'.errors = e.errors) ∧
      (∀ k, e.errors.isPossible k = true ↔ ∃ c ∈ cs, c.errors.isPossible k = true) ∧
      (∀ k, e.errors.isCertain k = true ↔ ∀ c ∈ cs, c.errors.isCertain k = true) ∧
      ((e.result = none ∧ e.empty = false) ↔ ∃ c ∈ cs, c.result = none ∧ c.empty = false) ∧
      (e.empty = true ↔ ∀ c ∈ cs, c.empty = true) := by
  choose! f hf using fun c hc => exists_contributes (hcs c hc)
  have hf' : ∀ c ∈ cs', c.Contributes (f c) := fun c hc => hf c (hperm.mem_iff.mpr hc)
  obtain ⟨e, he, hends, hsums, hunstable⟩ := joinBranches_spec parent hf
  obtain ⟨e', he', hends', hsums', hunstable'⟩ := joinBranches_spec parent hf'
  rw [← (hperm.map f).foldl_eq] at hends'
  refine ⟨e, e', he, he', ⟨?_, ?_, ?_, ?_⟩, fun k => ?_, fun k => ?_, ?_, ?_⟩
  · rw [hends'.result, hends.result]
  · rw [Bool.eq_iff_iff, hends'.empty, hends.empty]
  · rw [Bool.eq_iff_iff, hunstable', hunstable]
    simp only [hperm.mem_iff]
  · exact hsums'.eq_of_mem_iff hsums fun _ => (hperm.map _).mem_iff.symm
  · rw [hsums.possible k]
    simp
  · rw [hsums.certain k, and_iff_right (by simpa using hne)]
    simp
  · rw [hends.unperformed_iff, Upshot.foldl_sup_eq_top]
    simp only [List.mem_cons, List.mem_map, exists_eq_or_imp, bot_ne_top, false_or]
    constructor
    · rintro ⟨_, ⟨c, hc, rfl⟩, htop⟩
      exact ⟨c, hc, (hf c hc).unperformed_iff.mpr htop⟩
    · rintro ⟨c, hc, hnone⟩
      exact ⟨_, ⟨c, hc, rfl⟩, (hf c hc).unperformed_iff.mp hnone⟩
  · rw [hends.empty, Upshot.foldl_sup_eq_bot]
    simp only [List.mem_cons, List.mem_map, forall_eq_or_imp, true_and, forall_exists_index,
      and_imp, forall_apply_eq_imp_iff₂]
    exact forall₂_congr fun c hc => (hf c hc).empty.symm

/-- A constant, a list and a branch out of which no value flows: the join has one value more than a
list may have, and is widened in both orders. -/
theorem joinBranches_perm_widened :
    let t : IntType := ⟨4, true, by decide, by decide⟩
    let parent : Evaluation := .start (.preset 4 .sure .stop) none
    let a := (parent.spawn none).withResult (.word (.int t) (.constant 7))
    let b := (parent.spawn none).withEmpty.mark .divisionByZero true
    let c := ((parent.spawn none).withResult (.word (.int t) (.disjunction [-3, 1]))).withUnstable
    [a, b, c] ≠ [] ∧ [a, b, c].Perm [c, a, b] ∧
      (∀ d ∈ [a, b, c], ∀ x, d.result = some x → x.IsWord 2 (.int t)) ∧
      ∃ e e', joinBranches 2 parent [a, b, c] = .ok e ∧ joinBranches 2 parent [c, a, b] = .ok e' ∧
        (e'.result = e.result ∧ e'.empty = e.empty ∧ e'.unstable = e.unstable ∧
          e'.errors = e.errors) ∧
        (∀ k, e.errors.isPossible k = true ↔ ∃ d ∈ [a, b, c], d.errors.isPossible k = true) ∧
        (∀ k, e.errors.isCertain k = true ↔ ∀ d ∈ [a, b, c], d.errors.isCertain k = true) ∧
        ((e.result = none ∧ e.empty = false) ↔
          ∃ d ∈ [a, b, c], d.result = none ∧ d.empty = false) ∧
        (e.empty = true ↔ ∀ d ∈ [a, b, c], d.empty = true) := by
  intro t parent a b c
  have hperm : [a, b, c].Perm [c, a, b] :=
    (List.perm_append_comm : ([a, b] ++ [c]).Perm ([c] ++ [a, b]))
  have hword : ∀ d ∈ [a, b, c], ∀ x, d.result = some x → x.IsWord 2 (.int t) := by
    simp only [List.forall_mem_cons, List.not_mem_nil, false_imp_iff, implies_true, and_true]
    refine ⟨?_, ?_, ?_⟩
    · rintro _ ⟨⟩
      decide
    · rintro _ ⟨⟩
    · rintro _ ⟨⟩
      decide
  exact ⟨by simp, hperm, hword, joinBranches_perm parent (by simp) hperm hword⟩

end Evaluation

end ScalarDomain
