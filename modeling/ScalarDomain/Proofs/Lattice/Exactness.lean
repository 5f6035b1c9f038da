import ScalarDomain.Evaluation
import ScalarDomain.Proofs.Landmark
import ScalarDomain.Proofs.Lattice

/-!
# Verdicts of joins

Counting decides whether a join is exact: it is when it has as many values as the two elements
together, their common values counted once. A join holds the values of both, so the count is right
in both directions: the join is found exact if and only if its values are the union
(`Element.isExactJoin_iff`), whatever the shapes, and also when a list that grew too long was
widened to an interval without gaps.

A merge concludes with this verdict, and so does a guard whose condition may go either way. A
condition that is decided selects one branch, and nothing is joined.
-/

namespace ScalarDomain

namespace Element

variable {limit : ℕ} {w : WordType} {a b : Shape} {x y : Element}

/-- A join that holds no other values than those of the two elements is found exact. -/
theorem isExactJoin_of_forall (ha : a.WellFormed limit w) (hb : b.WellFormed limit w)
    (h : ∀ v, (a.join w limit b).contains w.view v = true →
      a.contains w.view v = true ∨ b.contains w.view v = true) :
    isExactJoin limit (word w a) (word w b) (word w (a.join w limit b)) = true := by
  obtain ⟨hj, hcov⟩ := Shape.join_spec ha.proper hb.proper
  have hset : (a.join w limit b).finset w.view = a.finset w.view ∪ b.finset w.view := by
    ext v
    rw [Finset.mem_union, Shape.mem_finset, Shape.mem_finset, Shape.mem_finset]
    exact ⟨h v, hcov v⟩
  have hcount := Finset.card_union_add_card_inter (a.finset w.view) (b.finset w.view)
  rw [isExactJoin, Bool.or_eq_true, Shape.cardinality?_word ha.proper,
    Shape.cardinality?_word hb.proper, Shape.cardinality?_word hj.proper]
  right
  simp only [commonCount_word ha hb, hset, beq_iff_eq]
  omega

/-- A join is found exact if and only if it holds the values of the two elements and no others. -/
theorem isExactJoin_iff (hx : x.IsWord limit w) (hy : y.IsWord limit w) :
    ∃ j, x.join limit y = .ok j ∧
      (x.isExactJoin limit y j = true ↔ j.values = x.values ∪ y.values) := by
  obtain ⟨s, rfl, hs⟩ := hx
  obtain ⟨t, rfl, ht⟩ := hy
  refine ⟨_, if_pos rfl, fun h => ?_, fun h => isExactJoin_of_forall hs ht fun v hv => h.le hv⟩
  refine Set.Subset.antisymm (fun v hv => contains_of_isExactJoin hs ht h hv) fun v hv => ?_
  exact (Shape.join_spec hs.proper ht.proper).2 v hv

end Element

namespace Evaluation

variable {limit : ℕ} {w : WordType} {x y j : Element} {e : Evaluation}

/-- An evaluation that delivered a join and says whether it lost precision. -/
structure DeliversJoin (x y j : Element) (e : Evaluation) : Prop where
  /-- The join is the result. -/
  result : e.result = some j
  /-- Values flow out. -/
  empty : e.empty = false
  /-- The verdict is exact if the join has the values of the two elements and no others. -/
  exact_iff : e.verdict = .exact ↔ j.values = x.values ∪ y.values
  /-- It is degraded otherwise. -/
  degraded_iff : e.verdict = .degraded ↔ j.values ≠ x.values ∪ y.values

/-- An evaluation that delivered a branch as it is, and no value if the branch is absent. -/
structure DeliversBranch (branch : Option Element) (e : Evaluation) : Prop where
  /-- The branch is the result. -/
  result : e.result = branch
  /-- No value flows out of an absent branch. -/
  empty : e.empty = branch.isNone
  /-- Nothing is lost. -/
  verdict : e.verdict = .exact

/-- The count gives the verdict. -/
theorem deliversJoin_of_verdict (hresult : e.result = some j) (hempty : e.empty = false)
    (hverdict : e.verdict = .ofExact (x.isExactJoin limit y j))
    (hexact : x.isExactJoin limit y j = true ↔ j.values = x.values ∪ y.values) :
    e.DeliversJoin x y j := by
  refine ⟨hresult, hempty, ?_, ?_⟩ <;> rw [hverdict]
  · rw [← hexact]
    cases x.isExactJoin limit y j <;> decide
  · rw [ne_eq, ← hexact]
    cases x.isExactJoin limit y j <;> decide

section

variable (params : Params) (argument : Option Element) (hj : x.join limit y = .ok j)
  (hexact : x.isExactJoin limit y j = true ↔ j.values = x.values ∪ y.values)

include hj hexact

theorem concludeJoin_delivers (changed : Element) :
    ∃ e, (start params argument).concludeJoin limit changed x y = .ok e ∧
      e.DeliversJoin x y j := by
  rw [concludeJoin, hj]
  refine ⟨_, rfl, deliversJoin_of_verdict rfl ?_ ?_ hexact⟩
  · split <;> rfl
  · split <;> cases x.isExactJoin limit y j <;> rfl

/-- A condition that may go either way joins its branches. -/
theorem guard_undecided {c : Element} (hc : c.truthiness = .undecided) :
    ∃ e, (start params argument).guard limit c (some x) (some y) = .ok e ∧
      e.DeliversJoin x y j := by
  simp only [guard, hc, List.filterMap_cons, List.filterMap_nil, id_eq, hj]
  refine ⟨_, rfl, deliversJoin_of_verdict rfl rfl ?_ hexact⟩
  cases x.isExactJoin limit y j <;> rfl

end

/-- A decided condition selects a branch. -/
theorem guard_decided (params : Params) (argument : Option Element) {c : Element}
    (p q : Option Element) :
    (c.truthiness = .true →
      ∃ e, (start params argument).guard limit c p q = .ok e ∧ e.DeliversBranch p) ∧
    (c.truthiness = .false →
      ∃ e, (start params argument).guard limit c p q = .ok e ∧ e.DeliversBranch q) := by
  constructor <;> intro hc
  · cases p <;> simp only [guard, hc, List.filterMap_cons, List.filterMap_nil, id_eq] <;>
      exact ⟨_, rfl, rfl, rfl, rfl⟩
  · cases q <;> simp only [guard, hc, List.filterMap_cons, List.filterMap_nil, id_eq] <;>
      exact ⟨_, rfl, rfl, rfl, rfl⟩

/-- A merge of two words of a type delivers their join, and its verdict tells whether the join lost
precision: it is exact if the values of the join are those of the two words, and degraded otherwise.
So does a guard of two branches whose condition may go either way; any other condition delivers the
selected branch as it is, and no value if the branch is absent. A condition is a word or a float;
that of a word is true when no value is zero, false when all are, and may else go either way. -/
theorem joins_tell_precision (params : Params) (argument : Option Element)
    (hx : x.IsWord limit w) (hy : y.IsWord limit w) :
    ∃ j, x.join limit y = .ok j ∧
      (∃ e, (start params argument).mergeWith limit x y = .ok e ∧ e.DeliversJoin x y j) ∧
      (∃ e, (start params argument).mergeWithTo limit x y = .ok e ∧ e.DeliversJoin x y j) ∧
      ∀ c : Element,
        (c.truthiness = .undecided →
          ∃ e, (start params argument).guard limit c (some x) (some y) = .ok e ∧
            e.DeliversJoin x y j) ∧
        (∀ p q,
          (c.truthiness = .true →
            ∃ e, (start params argument).guard limit c p q = .ok e ∧ e.DeliversBranch p) ∧
          (c.truthiness = .false →
            ∃ e, (start params argument).guard limit c p q = .ok e ∧ e.DeliversBranch q)) ∧
        ∀ u, c.IsWord limit u →
          (c.truthiness = .true ↔ ∀ v ∈ c.values, v ≠ 0) ∧
          (c.truthiness = .false ↔ ∀ v ∈ c.values, v = 0) ∧
          (c.truthiness = .undecided ↔ (∃ v ∈ c.values, v ≠ 0) ∧ ∃ v ∈ c.values, v = 0) := by
  obtain ⟨j, hj, hexact⟩ := Element.isExactJoin_iff hx hy
  refine ⟨j, hj, concludeJoin_delivers params argument hj hexact x,
    concludeJoin_delivers params argument hj hexact y, fun c => ⟨?_, ?_, fun u hc => ?_⟩⟩
  · exact guard_undecided params argument hj hexact
  · exact guard_decided params argument
  · exact ⟨Element.truthiness_eq_true_iff hc, Element.truthiness_eq_false_iff hc,
      Element.truthiness_eq_undecided_iff hc⟩

/-- Lists of five values together, of which at most four are listed: the join is widened to an
interval without gaps, under a condition that may go either way. -/
theorem joins_tell_precision_widened :
    let t : IntType := ⟨4, true, by decide, by decide⟩
    let x : Element := .word (.int t) (.disjunction [-2, -1, 0])
    let y : Element := .word (.int t) (.disjunction [1, 2])
    let c : Element := .word .bit .top
    let e : Evaluation := start (.preset 4 .sure .stop) none
    x.IsWord 4 (.int t) ∧ y.IsWord 4 (.int t) ∧ c.truthiness = .undecided ∧
      ∃ j, x.join 4 y = .ok j ∧
        (∃ e', e.mergeWith 4 x y = .ok e' ∧ e'.DeliversJoin x y j) ∧
        (∃ e', e.mergeWithTo 4 x y = .ok e' ∧ e'.DeliversJoin x y j) ∧
        ∃ e', e.guard 4 c (some x) (some y) = .ok e' ∧ e'.DeliversJoin x y j := by
  intro t x y c e
  have hx : x.IsWord 4 (.int t) := by decide
  have hy : y.IsWord 4 (.int t) := by decide
  have hc : c.truthiness = .undecided := by decide
  obtain ⟨j, hj, hmerge, hmerge', hguard⟩ :=
    joins_tell_precision (.preset 4 .sure .stop) none hx hy
  exact ⟨hx, hy, hc, j, hj, hmerge, hmerge', (hguard c).1 hc⟩

end Evaluation

end ScalarDomain
