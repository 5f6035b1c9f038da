import ScalarDomain.Proofs.Forward.Interval
import ScalarDomain.Proofs.Lattice
import ScalarDomain.Forward.Apply

/-!
# Evaluations report results

What the state of an evaluation says about a set of executions (`Evaluation.Reports`), and how it
comes about. A step that covers the set is performed into a report; reports of several branches are
joined into one of their union, by an invariant on the evaluation that collects them
(`Evaluation.Joins`), kept by each `finish` and turned into a report by `sealJoin`.
-/

namespace ScalarDomain

/-! ### Computations that return -/

namespace Traced

variable {α β : Type} {x : Traced α} {P Q : α → Prop}

/-- The computation does not fault, and its value has a property. -/
def Returns (x : Traced α) (P : α → Prop) : Prop :=
  ∃ a, x.value = .ok a ∧ P a

theorem Returns.mono (h : x.Returns P) (hPQ : ∀ a, P a → Q a) : x.Returns Q := by
  obtain ⟨a, ha, hP⟩ := h
  exact ⟨a, ha, hPQ a hP⟩

theorem Returns.and (hP : x.Returns P) (hQ : x.Returns Q) : x.Returns fun a => P a ∧ Q a := by
  obtain ⟨a, ha, hP⟩ := hP
  obtain ⟨b, hb, hQ⟩ := hQ
  cases ha.symm.trans hb
  exact ⟨a, ha, hP, hQ⟩

theorem returns_pure {a : α} (h : P a) : (pure a : Traced α).Returns P := ⟨a, rfl, h⟩

/-- A computation that returns is followed by what returns from its value. -/
theorem Returns.bind {f : α → Traced β} {R : β → Prop} (h : x.Returns P)
    (hf : ∀ a, P a → (f a).Returns R) : (x >>= f).Returns R := by
  obtain ⟨a, ha, hP⟩ := h
  obtain ⟨b, hb, hR⟩ := hf a hP
  refine ⟨b, ?_, hR⟩
  change (x.andThen f).value = _
  rw [andThen, ha]
  exact hb

/-- A successful check returns. -/
theorem returns_lift {y : Except Fault α} {a : α} (hy : y = .ok a) (h : P a) :
    (liftM y : Traced α).Returns P := ⟨a, hy, h⟩

theorem returns_record (e : Event) : (record e).Returns fun _ => True := ⟨(), rfl, trivial⟩

theorem returns_session {a : Activity} (h : x.Returns P) : (session a x).Returns P := h

/-- The value of the computation has a property, unless it faults. -/
def Ensures (x : Traced α) (P : α → Prop) : Prop :=
  ∀ a, x.value = .ok a → P a

/-- What is ensured of a computation that returns holds of its value. -/
theorem Returns.and_ensures (hP : x.Returns P) (hQ : x.Ensures Q) :
    x.Returns fun a => P a ∧ Q a := by
  obtain ⟨a, ha, hP⟩ := hP
  exact ⟨a, ha, hP, hQ a ha⟩

theorem Returns.ensures (h : x.Returns P) : x.Ensures P := by
  obtain ⟨a, ha, hP⟩ := h
  rintro b hb
  cases ha.symm.trans hb
  exact hP

theorem Ensures.mono (h : x.Ensures P) (hPQ : ∀ a, P a → Q a) : x.Ensures Q :=
  fun a ha => hPQ a (h a ha)

theorem ensures_pure {a : α} (h : P a) : (pure a : Traced α).Ensures P := by
  rintro _ ⟨⟩
  exact h

/-- What is ensured of a computation may be used for what follows. -/
theorem Ensures.bind {f : α → Traced β} {R : β → Prop} (h : x.Ensures P)
    (hf : ∀ a, P a → (f a).Ensures R) : (x >>= f).Ensures R := by
  intro b hb
  change (x.andThen f).value = .ok b at hb
  rw [andThen] at hb
  cases hx : x.value with
  | error fault => simp [hx] at hb
  | ok a =>
    rw [hx] at hb
    exact hf a (h a hx) b hb

theorem ensures_lift {y : Except Fault α} (h : ∀ a, y = .ok a → P a) :
    (liftM y : Traced α).Ensures P := h

theorem ensures_record (e : Event) : (record e).Ensures fun _ => True := fun _ _ => trivial

theorem ensures_session {a : Activity} (h : x.Ensures P) : (session a x).Ensures P := h

end Traced

/-! ### Reports -/

namespace Verdict

/-- A merged verdict is exact when no part is degraded and some part is exact. -/
theorem merge_eq_exact {a b : Verdict} :
    a.merge b = .exact ↔ (a = .exact ∧ b ≠ .degraded) ∨ (b = .exact ∧ a ≠ .degraded) := by
  cases a <;> cases b <;> decide

/-- A merged verdict says that nothing was performed if both do. -/
theorem merge_eq_notPerformed {a b : Verdict} :
    a.merge b = .notPerformed ↔ a = .notPerformed ∧ b = .notPerformed := by
  cases a <;> cases b <;> decide

/-- A merged verdict is degraded if one of both is. -/
theorem merge_ne_degraded {a b : Verdict} :
    a.merge b ≠ .degraded ↔ a ≠ .degraded ∧ b ≠ .degraded := by
  cases a <;> cases b <;> decide

/-- A part of an exact verdict that was performed is exact. -/
theorem eq_exact_of_merge_left {a b : Verdict} (h : a.merge b = .exact) (ha : a ≠ .notPerformed) :
    a = .exact := by
  revert h ha
  cases a <;> cases b <;> decide

/-- What counts in an exact verdict is exact. -/
theorem eq_exact_of_merge_right {a b : Verdict} (h : a.merge b = .exact) (hb : b ≠ .notPerformed) :
    b = .exact := by
  revert h hb
  cases a <;> cases b <;> decide

theorem ofExact_ne_notPerformed {b : Bool} : ofExact b ≠ .notPerformed := by
  cases b <;> decide

theorem ofExact_eq_exact {b : Bool} : ofExact b = .exact ↔ b = true := by
  cases b <;> decide

end Verdict

namespace Evaluation

variable {limit : ℕ} {out : WordType} {S T : Set ℤ} {P Q : Prop} {e child : Evaluation}

/-- Nothing has been found yet. -/
structure Fresh (e : Evaluation) : Prop where
  /-- There is no result. -/
  result : e.result = none
  /-- Nothing was performed. -/
  verdict : e.verdict = .notPerformed
  /-- Values may flow out. -/
  empty : e.empty = false
  /-- No branch was left out. -/
  incomplete : e.incomplete = false

/-- An evaluation starts fresh, whatever its parameters. -/
theorem fresh_start (params : Params) (argument : Option Element) :
    (start params argument).Fresh := ⟨rfl, rfl, rfl, rfl⟩

/-- And so does a nested one. -/
theorem fresh_spawn (e : Evaluation) (argument : Option Element) : (e.spawn argument).Fresh :=
  ⟨rfl, rfl, rfl, rfl⟩

/-- What an evaluation says about the set of all results: it covers it, and an exact verdict means
that there is nothing else, provided that `P` holds. -/
structure Reports (limit : ℕ) (out : WordType) (S : Set ℤ) (P : Prop) (e : Evaluation) : Prop where
  /-- The result is a well-formed word of the type. -/
  word : ∀ x, e.result = some x → x.IsWord limit out
  /-- The result has all values. -/
  covers : ∀ x, e.result = some x → S ⊆ x.values
  /-- If no value flows out there is none, and no result. -/
  empty : e.empty = true → S = ∅ ∧ e.result = none
  /-- Without a result the operation was not performed. -/
  unperformed : e.result = none → e.empty = false → e.verdict = .notPerformed
  /-- With a result it was. -/
  performed : e.result ≠ none → e.verdict ≠ .notPerformed
  /-- That no value flows out is known because it was. -/
  pruned : e.empty = true → e.verdict ≠ .notPerformed
  /-- An exact result has no other values. -/
  tight : P → e.verdict = .exact → ∀ x, e.result = some x → x.values ⊆ S

/-- A report holds under stronger conditions. -/
theorem Reports.weaken (h : e.Reports limit out S P) (hQ : Q → P) : e.Reports limit out S Q :=
  { h with tight := fun hq => h.tight (hQ hq) }

/-- A report looks at the result, the verdict and the emptiness only. -/
theorem Reports.congr {e' : Evaluation} (h : e.Reports limit out S P) (hr : e'.result = e.result)
    (hv : e'.verdict = e.verdict) (he : e'.empty = e.empty) : e'.Reports limit out S P := by
  obtain ⟨h1, h2, h3, h4, h5, h6, h7⟩ := h
  constructor <;> simpa only [hr, hv, he]

/-- Values flow out when there is one to report. -/
theorem Reports.empty_eq_false {v : ℤ} (h : e.Reports limit out S P) (hv : v ∈ S) :
    e.empty = false := by
  by_contra hne
  rw [(h.empty (by simpa using hne)).1] at hv
  exact hv

/-- What was performed and is not empty has a result. -/
theorem Reports.exists_result (h : e.Reports limit out S P) (hv : e.verdict ≠ .notPerformed)
    (hempty : e.empty = false) : ∃ x, e.result = some x := by
  cases hres : e.result with
  | some x => exact ⟨x, rfl⟩
  | none => exact absurd (h.unperformed hres hempty) hv

/-- An evaluation whose single outcome is a word. -/
theorem reports_withResult {x : Element} {exact : Bool} (hx : x.IsWord limit out)
    (hcov : S ⊆ x.values) (htight : P → exact = true → e.verdict ≠ .degraded → x.values ⊆ S)
    (hempty : e.empty = false) : ((e.withResult x).conclude exact).Reports limit out S P where
  word y hy := by cases hy; exact hx
  covers y hy := by cases hy; exact hcov
  empty h := by
    change e.empty = true at h
    simp [hempty] at h
  unperformed h := by cases h
  performed _ h := Verdict.ofExact_ne_notPerformed (Verdict.merge_eq_notPerformed.mp h).2
  pruned _ h := Verdict.ofExact_ne_notPerformed (Verdict.merge_eq_notPerformed.mp h).2
  tight hP hv y hy := by
    cases hy
    rcases Verdict.merge_eq_exact.mp hv with ⟨h1, h2⟩ | ⟨h1, h2⟩
    · have h1 : e.verdict = .exact := h1
      refine htight hP ?_ (by simp [h1])
      cases exact with
      | true => rfl
      | false => exact absurd rfl h2
    · exact htight hP (Verdict.ofExact_eq_exact.mp h1) h2

/-- An evaluation out of which no value flows. -/
theorem reports_withEmpty (h : S = ∅) : (e.withEmpty.conclude true).Reports limit out S P where
  word y hy := by cases hy
  covers y hy := by cases hy
  empty _ := ⟨h, rfl⟩
  unperformed _ h := by cases h
  performed h := absurd rfl h
  pruned _ h := Verdict.ofExact_ne_notPerformed (Verdict.merge_eq_notPerformed.mp h).2
  tight _ _ y hy := by cases hy

/-- An evaluation that found nothing. -/
theorem Fresh.reports (h : e.Fresh) : e.Reports limit out S P where
  word y hy := by simp [h.result] at hy
  covers y hy := by simp [h.result] at hy
  empty he := by simp [h.empty] at he
  unperformed _ _ := h.verdict
  performed hr := absurd h.result hr
  pruned he := by simp [h.empty] at he
  tight _ _ y hy := by simp [h.result] at hy

/-! ### Performing a step -/

/-- The shape that a creation bound gives to a range is well formed and holds exactly the range. -/
theorem shape?_spec {bound : Creation} {ty : WordType} {r : Range} {s : Shape}
    (hr : r.Proper ty.view) (h : bound.shape? limit ty r = some s) :
    s.WellFormed limit ty ∧ ∀ v, s.contains ty.view v = true ↔ v ∈ r := by
  have hrange : (ty.rangeShape r).WellFormed limit ty ∧
      ∀ v, (ty.rangeShape r).contains ty.view v = true ↔ v ∈ r :=
    ⟨WordType.wellFormed_rangeShape hr, fun v => WordType.contains_rangeShape hr⟩
  have hle := hr.le
  cases ty with
  | bit =>
    cases h
    exact hrange
  | int t =>
    simp only [Creation.shape?] at h
    split at h
    · cases h
      exact hrange
    next hne =>
    split at h
    · next hfull =>
      cases h
      refine ⟨Shape.wellFormed_top, fun v => ?_⟩
      rw [Shape.contains_top, hfull.1, Bounds.mem_full]
      rfl
    split at h
    · cases h
      exact ⟨Shape.wellFormed_interval hr (by omega), fun v => Shape.contains_interval⟩
    split at h
    · next hfew =>
      cases h
      have hlen := Bounds.length_values r limit
      refine ⟨⟨⟨by simp, Bounds.pairwise_values r limit, fun v hv => ?_, by omega, by omega⟩,
        by simp⟩, fun v => ?_⟩
      · exact hr.contains (Bounds.mem_values.mp hv).1
      · rw [Shape.contains_disjunction]
        exact Bounds.mem_values_iff (by omega)
    · cases h

/-- Delivering to a fresh evaluation reports what the delivery describes. This is where a creation
bound may leave nothing performed. -/
private theorem deliver_reports {d : Delivery} (he : e.Fresh) (hcov : d.Covers out S)
    (htight : P → d.IsTight S) : (e.deliver limit d).Returns (Reports limit out S P) := by
  cases d with
  | nothing => exact Traced.returns_pure (reports_withEmpty hcov)
  | floats => exact hcov.elim
  | words ty r exact =>
    obtain ⟨rfl, hproper, hmem⟩ := hcov
    rw [deliver]
    split
    · next hempty =>
      refine Traced.returns_pure (reports_withEmpty (Set.eq_empty_of_forall_notMem fun v hv => ?_))
      obtain ⟨h1, h2⟩ := hmem v hv
      omega
    · next hle =>
      have hr := hproper (by omega)
      split
      · next s hs =>
        obtain ⟨hw, hc⟩ := shape?_spec hr hs
        refine (Traced.returns_lift (Element.checkedWord_eq_ok hw) rfl).bind fun x hx => ?_
        subst hx
        refine Traced.returns_pure (reports_withResult (Element.isWord_word hw) ?_ ?_ he.empty)
        · exact fun v hv => (hc v).mpr (hmem v hv)
        · exact fun hP hx _ v hv => htight hP hx v ((hc v).mp hv)
      · exact (Traced.returns_record _).bind fun _ _ => Traced.returns_pure he.reports

/-- Errors leave an evaluation fresh. -/
theorem Fresh.flags (he : e.Fresh) (errors : List (ErrorKind × Bool)) :
    (errors.foldl (fun e error => e.flag error.1 error.2) e).Fresh := by
  induction errors generalizing e with
  | nil => exact he
  | cons error errors ih => exact ih ⟨he.result, he.verdict, he.empty, he.incomplete⟩

/-- Flagging errors does not change the parameters. -/
theorem params_flags (e : Evaluation) (errors : List (ErrorKind × Bool)) :
    (errors.foldl (fun e error => e.flag error.1 error.2) e).params = e.params := by
  induction errors generalizing e with
  | nil => rfl
  | cons error errors ih => exact ih (e.flag error.1 error.2)

/-- A step that covers a set is performed into a report of it. -/
theorem perform_reports {s : Step} (he : e.Fresh) (hcov : s.delivery.Covers out S)
    (htight : P → s.delivery.IsTight S) : (e.perform limit s).Returns (Reports limit out S P) :=
  deliver_reports (he.flags s.errors) hcov htight

/-- The result has only values of a set, whatever the verdict; without a result, although values
flow out, the set has more than one. -/
structure Confined (S : Set ℤ) (e : Evaluation) : Prop where
  /-- The result has no other value. -/
  result : ∀ x, e.result = some x → x.values ⊆ S
  /-- A single value has a result. -/
  unperformed : e.result = none → e.empty = false → S.Nontrivial

/-- A step that delivers a set is performed into a result of it. -/
theorem perform_confined {s : Step} (he : e.Fresh) (h : s.delivery.Equals out S) :
    (e.perform limit s).Returns (Confined S) := by
  have hfresh := he.flags s.errors
  rw [perform]
  generalize s.errors.foldl (fun e error => e.flag error.1 error.2) e = e' at hfresh
  obtain ⟨errors, d⟩ := s
  cases d with
  | nothing => exact Traced.returns_pure ⟨nofun, nofun⟩
  | floats ty set exact => exact h.covers.elim
  | words ty r exact =>
    obtain ⟨⟨rfl, hproper, -⟩, hwithin⟩ := h
    simp only [deliver]
    split
    · exact Traced.returns_pure ⟨nofun, nofun⟩
    · next hle =>
      have hr := hproper (by omega)
      split
      · next q hq =>
        obtain ⟨hw, hc⟩ := shape?_spec hr hq
        refine (Traced.returns_lift (Element.checkedWord_eq_ok hw) rfl).bind ?_
        rintro _ rfl
        refine Traced.returns_pure ⟨?_, nofun⟩
        rintro _ ⟨⟩ v hv
        exact hwithin v ((hc v).mp hv)
      · next hq =>
        refine (Traced.returns_record _).bind fun _ _ => Traced.returns_pure ⟨?_, fun _ _ => ?_⟩
        · intro x hx
          simp [hfresh.result] at hx
        · -- a single value always has a shape
          refine ⟨r.lo, hwithin _ hr.lo_mem_self, r.hi, hwithin _ hr.hi_mem_self, fun heq => ?_⟩
          cases ty with
          | bit => cases hq
          | int t => simp [Creation.shape?, heq] at hq

/-! ### Joining branches -/

/-- What an evaluation knows of the branches that it has joined so far, whose results make up `T`,
unless one of them could not be performed. -/
structure Joins (limit : ℕ) (out : WordType) (T : Set ℤ) (P : Prop) (e : Evaluation) : Prop where
  /-- The result is a well-formed word of the type. -/
  word : ∀ x, e.result = some x → x.IsWord limit out
  /-- The result has all values. -/
  covers : e.incomplete = false → ∀ x, e.result = some x → T ⊆ x.values
  /-- Without a result all branches were pruned. -/
  pruned : e.incomplete = false → e.result = none → T = ∅
  /-- Values may flow out. -/
  empty : e.empty = false
  /-- With a result something was performed. -/
  performed : e.result ≠ none → e.verdict ≠ .notPerformed
  /-- An exact result has no other values. -/
  tight : P → e.incomplete = false → e.verdict = .exact →
    ∀ x, e.result = some x → x.values ⊆ T

/-- A fresh evaluation has joined no branch. -/
theorem Fresh.joins (h : e.Fresh) : e.Joins limit out ∅ P where
  word x hx := by simp [h.result] at hx
  covers _ x hx := by simp [h.result] at hx
  pruned _ _ := rfl
  empty := h.empty
  performed hr := absurd h.result hr
  tight _ _ _ x hx := by simp [h.result] at hx

/-- A report of one more branch is joined in. -/
theorem Joins.finish (h : e.Joins limit out T P) (hc : child.Reports limit out S P) :
    ∃ e', e.finish limit child = .ok e' ∧ e'.Joins limit out (T ∪ S) P ∧ e'.params = e.params := by
  rw [Evaluation.finish]
  split
  · next hempty =>
    -- a pruned branch only counts in the verdict
    obtain ⟨hS, hnone⟩ := hc.empty hempty
    refine ⟨_, rfl, ?_, rfl⟩
    rw [hS, Set.union_empty]
    refine ⟨h.word, h.covers, h.pruned, h.empty, fun hr hv => ?_, fun hP hi hv x hx => ?_⟩
    · exact h.performed hr (Verdict.merge_eq_notPerformed.mp hv).1
    · have hx : e.result = some x := hx
      exact h.tight hP hi (Verdict.eq_exact_of_merge_left hv (h.performed (by simp [hx]))) x hx
  split
  · next hnone =>
    -- a branch that was not performed leaves the join incomplete
    refine ⟨_, rfl, ⟨h.word, fun hi => (nomatch hi), fun hi => (nomatch hi), h.empty,
      fun hr hv => ?_, fun _ hi => (nomatch hi)⟩, rfl⟩
    exact h.performed hr (Verdict.merge_eq_notPerformed.mp hv).1
  · next x hx hnone =>
    have hresult : e.result = none := hnone
    refine ⟨_, rfl, ⟨fun y hy => ?_, fun hi y hy => ?_, fun _ hn => ?_, h.empty, fun _ hv => ?_,
      fun hP hi hv y hy => ?_⟩, rfl⟩
    · cases hy
      exact hc.word x hx
    · cases hy
      rw [h.pruned hi hresult, Set.empty_union]
      exact hc.covers x hx
    · cases hn
    · exact hc.performed (by simp [hx]) (Verdict.merge_eq_notPerformed.mp hv).2
    · cases hy
      rw [h.pruned hi hresult, Set.empty_union]
      exact hc.tight hP (Verdict.eq_exact_of_merge_right hv (hc.performed (by simp [hx]))) x hx
  · next x previous hx hprevious =>
    have hresult : e.result = some previous := hprevious
    obtain ⟨joined, hjoin, hword, hsup, hexact⟩ :=
      Element.join_words (h.word _ hresult) (hc.word x hx)
    rw [hjoin]
    -- the join is only called exact when it adds nothing
    have hverdict : ∀ e₁ : Evaluation,
        (if previous.isExactJoin limit x joined = true then e₁ else e₁.conclude false).verdict =
          .exact → previous.isExactJoin limit x joined = true ∧ e₁.verdict = .exact := by
      intro e₁ hv
      split at hv
      · next hj => exact ⟨hj, hv⟩
      · have := Verdict.merge_eq_exact.mp hv
        simp [Verdict.ofExact] at this
    have hfields : ∀ e₁ : Evaluation,
        let e₂ := if previous.isExactJoin limit x joined = true then e₁ else e₁.conclude false
        e₂.incomplete = e₁.incomplete ∧ e₂.empty = e₁.empty ∧ e₂.params = e₁.params ∧
          (e₂.verdict = .notPerformed → e₁.verdict = .notPerformed) := by
      intro e₁
      simp only
      split
      · exact ⟨rfl, rfl, rfl, id⟩
      · exact ⟨rfl, rfl, rfl, fun hv => (Verdict.merge_eq_notPerformed.mp hv).1⟩
    obtain ⟨hf1, hf2, hf3, hf4⟩ := hfields (e.absorbBranch child)
    refine ⟨_, rfl, ⟨fun y hy => ?_, fun hi y hy => ?_, fun _ hn => ?_, hf2.trans h.empty,
      fun _ hv => ?_, fun hP hi hv y hy => ?_⟩, hf3⟩
    · cases hy
      exact hword
    · cases hy
      exact (Set.union_subset_union (h.covers (hf1 ▸ hi) _ hresult) (hc.covers x hx)).trans hsup
    · cases hn
    · exact hc.performed (by simp [hx]) (Verdict.merge_eq_notPerformed.mp (hf4 hv)).2
    · cases hy
      obtain ⟨hj, hv⟩ := hverdict _ hv
      refine (hexact hj).trans (Set.union_subset_union ?_ ?_)
      · exact h.tight hP (hf1 ▸ hi) (Verdict.eq_exact_of_merge_left hv
          (h.performed (by simp [hresult]))) _ hresult
      · exact hc.tight hP (Verdict.eq_exact_of_merge_right hv (hc.performed (by simp [hx]))) x hx

/-- The errors of the branches change nothing else. -/
theorem sealBranches_spec (e : Evaluation) :
    e.sealBranches.result = e.result ∧ e.sealBranches.verdict = e.verdict ∧
      e.sealBranches.empty = e.empty ∧ e.sealBranches.incomplete = e.incomplete := by
  rw [sealBranches]
  split <;> exact ⟨rfl, rfl, rfl, rfl⟩

/-- The joined branches make a report of all their values. -/
theorem Joins.sealJoin (h : e.Joins limit out T P) : e.sealJoin.Reports limit out T P := by
  obtain ⟨h1, h2, h3, h4⟩ := e.sealBranches_spec
  rw [Evaluation.sealJoin]
  split
  · exact ⟨fun x hx => (nomatch hx), fun x hx => (nomatch hx),
      fun he => absurd he (by simp [h3.trans h.empty]), fun _ _ => rfl, fun hr => absurd rfl hr,
      fun he => absurd he (by simp [h3.trans h.empty]), fun _ _ x hx => (nomatch hx)⟩
  next hi =>
  have hi : e.incomplete = false := by simpa [h4] using hi
  split
  · next hn =>
    refine reports_withEmpty (h.pruned hi ?_)
    simpa [h1, h3, h.empty] using hn
  · next hn =>
    have hsome : e.result ≠ none := by
      intro hnone
      simp [h1, h3, h.empty, hnone] at hn
    refine Reports.congr (e := e) ?_ h1 h2 h3
    exact ⟨h.word, h.covers hi, fun he => absurd he (by simp [h.empty]), fun hr => absurd hr hsome,
      h.performed, fun he => absurd he (by simp [h.empty]), fun hP => h.tight hP hi⟩

/-- A transfer reports a set for two operands, in every fresh evaluation of given parameters. -/
def ReportsOn (limit : ℕ) (out : WordType) (params : Params) (transfer : Transfer)
    (operands : Element × Option Element) (S : Set ℤ) (P : Prop) : Prop :=
  ∀ e : Evaluation, e.Fresh → e.params = params → e.argument = operands.2 →
    (transfer operands.1 e).Returns fun r => r.1 = true ∧ r.2.Reports limit out S P

/-- A nested transfer is joined in. -/
theorem Joins.nested {params : Params} {transfer : Transfer} {x : Element} {y : Option Element}
    (h : e.Joins limit out T P) (hp : e.params = params)
    (hx : ReportsOn limit out params transfer (x, y) S P) :
    (e.nested limit transfer x y).Returns fun r =>
      r.1 = true ∧ r.2.Joins limit out (T ∪ S) P ∧ r.2.params = params := by
  refine (hx (e.spawn y) (fresh_spawn e y) hp rfl).bind ?_
  rintro ⟨handled, child⟩ ⟨hh, hc⟩
  obtain ⟨e', he', hj, hp'⟩ := h.finish hc
  refine (Traced.returns_lift he' rfl).bind ?_
  rintro _ rfl
  exact Traced.returns_pure ⟨hh, hj, hp'.trans hp⟩

/-- Nested transfers that all report are run one after the other into a report of the union. -/
theorem Joins.runAll {params : Params} {transfer : Transfer}
    {sets : Element × Option Element → Set ℤ} (cases : List (Element × Option Element))
    (h : e.Joins limit out T P) (hp : e.params = params)
    (hcases : ∀ c ∈ cases, ReportsOn limit out params transfer c (sets c) P) :
    (runAll limit transfer cases e).Returns fun r =>
      r.1 = true ∧ r.2.Reports limit out (T ∪ {v | ∃ c ∈ cases, v ∈ sets c}) P := by
  induction cases generalizing e T with
  | nil =>
    have hset : T ∪ {v | ∃ c ∈ ([] : List (Element × Option Element)), v ∈ sets c} = T := by simp
    rw [hset]
    exact Traced.returns_pure ⟨rfl, h.sealJoin⟩
  | cons c rest ih =>
    obtain ⟨x, y⟩ := c
    have hset : T ∪ {v | ∃ c ∈ (x, y) :: rest, v ∈ sets c} =
        T ∪ sets (x, y) ∪ {v | ∃ c ∈ rest, v ∈ sets c} := by
      ext v
      simp [or_assoc]
    rw [hset]
    refine (h.nested hp (hcases _ List.mem_cons_self)).bind ?_
    rintro ⟨handled, e'⟩ ⟨rfl, hj, hp'⟩
    exact ih hj hp' fun c hc => hcases c (List.mem_cons_of_mem _ hc)

/-! ### The end of a transfer -/

/-- The end of a transfer: another precision than that of the element is noted, and what was found
goes into the journal. -/
def concluded (op : Operation) (x : Element) (r : Bool × Evaluation) :
    Traced (Bool × Evaluation) := do
  let e := match r.2.result with
    | some y =>
      if r.1 && !op.isFresh && y.precision != x.precision then r.2.withUnstable else r.2
    | none => r.2
  Traced.record (.conclude e.verdict e.result e.empty)
  return (r.1, e)

/-- The end of a transfer changes nothing but the mark of an unstable result. -/
theorem returns_concluded {op : Operation} {x : Element} {r : Bool × Evaluation}
    {Q : Evaluation → Prop} (hQ : ∀ e, Q e → Q e.withUnstable) (h : r.1 = true ∧ Q r.2) :
    (concluded op x r).Returns fun r => r.1 = true ∧ Q r.2 := by
  refine (Traced.returns_record _).bind fun _ _ => Traced.returns_pure ⟨h.1, ?_⟩
  split
  · split
    · exact hQ _ h.2
    · exact h.2
  · exact h.2

end Evaluation

end ScalarDomain
