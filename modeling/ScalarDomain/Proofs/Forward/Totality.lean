import ScalarDomain.Proofs.Forward.Soundness

/-!
# Forward transfers always end properly

Once the types of the operands are accepted, a forward transfer cannot fail: it returns, says that
the operation is supported, and leaves the evaluation in one of three states (`Ending`). There is a
result, or it is known that no value flows out, or the creation bound forbade every shape and
nothing was done. A result that is there is a well-formed word of the type that the operation
promises.
-/

namespace ScalarDomain

/-- How an evaluation may end. -/
inductive Ending where
  /-- With a result. -/
  | performed
  /-- Without a value that could flow out. -/
  | pruned
  /-- Without anything done. -/
  | unperformed
deriving DecidableEq

namespace Evaluation

variable {limit : ℕ} {out : WordType} {S : Set ℤ} {P : Prop} {e : Evaluation} {k l : Ending}

/-- The result, the emptiness and the verdict of an evaluation that ended in a given way. -/
def EndsIn (e : Evaluation) : Ending → Prop
  | .performed => e.result.isSome = true ∧ e.empty = false ∧
      (e.verdict = .exact ∨ e.verdict = .degraded)
  | .pruned => e.result = none ∧ e.empty = true ∧ (e.verdict = .exact ∨ e.verdict = .degraded)
  | .unperformed => e.result = none ∧ e.empty = false ∧ e.verdict = .notPerformed

/-- An evaluation ends in at most one way. -/
theorem EndsIn.unique (hk : e.EndsIn k) (hl : e.EndsIn l) : k = l := by
  cases k <;> cases l <;> simp_all [EndsIn]

theorem Reports.exists_endsIn (h : e.Reports limit out S P) : ∃ k, e.EndsIn k := by
  have hverdict : e.verdict ≠ .notPerformed → e.verdict = .exact ∨ e.verdict = .degraded := by
    cases e.verdict <;> simp
  cases hempty : e.empty with
  | true => exact ⟨.pruned, (h.empty hempty).2, hempty, hverdict (h.pruned hempty)⟩
  | false =>
    cases hresult : e.result with
    | none => exact ⟨.unperformed, hresult, hempty, h.unperformed hresult hempty⟩
    | some x =>
      exact ⟨.performed, by rw [hresult]; rfl, hempty, hverdict (h.performed (by simp [hresult]))⟩

end Evaluation

namespace Element

variable {limit : ℕ} {op : Operation} {w out : WordType} {arg : Option WordType}
  {x : Element} {y : Option Element}

/-- A forward transfer on accepted types returns, is supported and ends in exactly one way, under
any parameters. Its result is a well-formed word of the type of the operation. -/
theorem apply_ends (params : Params) (h : op.Accepts w arg out) (hx : x.IsWord limit w)
    (hy : IsOperand limit arg y) :
    ∃ e, (x.apply limit op (.start params y)).value = .ok (true, e) ∧ (∃! k, e.EndsIn k) ∧
      ∀ r, e.result = some r → r.IsWord limit out ∧ r.type = .word out := by
  obtain ⟨⟨handled, e⟩, he, rfl, hr⟩ := apply_reports params h hx hy
  obtain ⟨k, hk⟩ := hr.exists_endsIn
  refine ⟨e, he, ⟨k, hk, fun l hl => hl.unique hk⟩, fun r hres => ?_⟩
  obtain ⟨s, rfl, hs⟩ := hr.word r hres
  exact ⟨isWord_word hs, rfl⟩

/-- Lists divided by each other under a bound that asks for lists: one quotient is pruned by zero,
one overflows, and the others are too many to be listed. -/
theorem apply_ends_divide :
    let t : IntType := ⟨4, true, by decide, by decide⟩
    let x : Element := .word (.int t) (.disjunction [-8, 3, 6])
    let y : Element := .word (.int t) (.disjunction [-1, 0, 2])
    let params : Params := ⟨.sure, .stop, ⟨.disjunction, .disjunction, le_rfl⟩, 3⟩
    Operation.divide.Accepts (.int t) (some (.int t)) (.int t) ∧ x.IsWord 3 (.int t) ∧
      IsOperand 3 (some (.int t)) (some y) ∧
      ∃ e, (x.apply 3 .divide (.start params (some y))).value = .ok (true, e) ∧
        (∃! k, e.EndsIn k) ∧
        ∀ r, e.result = some r → r.IsWord 3 (.int t) ∧ r.type = .word (.int t) := by
  intro t x y params
  have h : Operation.divide.Accepts (.int t) (some (.int t)) (.int t) :=
    ⟨trivial, by decide, rfl⟩
  have hx : x.IsWord 3 (.int t) := by decide
  have hy : IsOperand 3 (some (.int t)) (some y) := by decide
  exact ⟨h, hx, hy, apply_ends params h hx hy⟩

end Element

end ScalarDomain
