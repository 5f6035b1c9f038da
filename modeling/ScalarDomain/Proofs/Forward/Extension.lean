import ScalarDomain.Proofs.Descriptor
import ScalarDomain.Proofs.Forward.Steps

/-!
# Extensions by any number of bits

An extension that is read from a description may have any number of bits. If it has a type at all,
then that type is wider by exactly these bits, and the transfer of a word ends with a word that has
all extended values (`Element.extend_widens`), with one exception: an extension by no zeros.

A constant is extended by reading its bits as a number, which in a wider type is the right value.
An extension by no bits keeps the type, and there the bits of a negative value are too large a
number: the transfer faults as soon as it comes to a negative constant (`Element.Misfolds`).
Intervals are extended by adding offsets to the halves of their type. These are zero if no bits are
added, so intervals stay what they are.
-/

namespace ScalarDomain

/-- A bit pattern with new high bits. -/
def Extension.widen {m : ℕ} (fill : Extension) (n : ℕ) (x : BitVec m) : BitVec n :=
  match fill with
  | zero => x.setWidth n
  | sign => x.signExtend n

namespace IntType

variable {t wide : IntType} {fill : Extension} {a : ℤ}

theorem eq_of_width_of_signed (hw : wide.width = t.width) (hs : wide.signed = t.signed) :
    wide = t := by
  cases wide
  cases t
  simp_all

/-- The value of a wider type whose bits are those of `a` with new high bits. -/
def widened (t : IntType) (fill : Extension) (wide : IntType) (a : ℤ) : ℤ :=
  wide.read (fill.widen wide.width (t.bits a))

/-- New high bits give a value of the wider type. -/
theorem contains_widened (t : IntType) (fill : Extension) (wide : IntType) (a : ℤ) :
    wide.contains (t.widened fill wide a) = true :=
  contains_read _ _

/-- For sign extension the two descriptions of the wider value always agree. -/
theorem widened_sign (t wide : IntType) (a : ℤ) :
    t.widened .sign wide a = t.extended .sign wide a :=
  read_signExtend t wide a

/-- For an extension by at least one bit they agree as well. -/
theorem widened_of_lt (h : t.width < wide.width) (fill : Extension) (a : ℤ) :
    t.widened fill wide a = t.extended fill wide a := by
  cases fill with
  | zero => exact read_setWidth h a
  | sign => exact widened_sign t wide a

/-- Nothing changes if no bits are added. -/
theorem widened_self (fill : Extension) (ha : t.contains a = true) : t.widened fill t a = a := by
  cases fill with
  | zero => rw [widened, Extension.widen, BitVec.setWidth_eq, read_bits ha]
  | sign => rw [widened, Extension.widen, BitVec.signExtend_eq, read_bits ha]

/-- A constant is extended to the right value, unless it is negative and no zeros are added. -/
theorem extended_eq_widened {bits : ℕ} (hw : wide.width = t.width + bits)
    (hs : wide.signed = t.signed) (ha : t.contains a = true)
    (h : fill = .sign ∨ 0 < bits ∨ 0 ≤ a) : t.extended fill wide a = t.widened fill wide a := by
  by_cases hbits : 0 < bits
  · exact (widened_of_lt (by omega) fill a).symm
  · obtain rfl : wide = t := eq_of_width_of_signed (by omega) hs
    cases fill with
    | sign => exact (widened_sign _ _ a).symm
    | zero =>
      have h0 : 0 ≤ a := by simpa [hbits] using h
      rw [widened_self .zero ha]
      exact toBits_of_nonneg ha h0

/-- The bits of a negative value are no value of the type. -/
theorem contains_toBits_of_neg (ha : t.contains a = true) (h : a < 0) :
    t.contains (t.toBits a) = false := by
  have hm := t.modulus_eq_two_mul
  rw [← Bool.not_eq_true, toBits_of_neg ha h, contains_iff]
  rw [contains_iff] at ha
  rcases t.layout with ⟨-, hmin, hmax⟩ | ⟨-, hmin, hmax⟩ <;> omega

/-- An extension by no bits adds nothing on either half of the type. -/
theorem extensionSegments_self (t : IntType) (fill : Extension) :
    t.extensionSegments fill t =
      [(⟨0, t.half - 1⟩, 0), (⟨t.ofBits t.half, t.ofBits (t.modulus - 1)⟩, 0)] := by
  have hpos := t.half_pos
  have h0 : t.ofBits 0 = 0 := ofBits_of_lt hpos
  have h1 : t.ofBits (t.half - 1) = t.half - 1 := ofBits_of_lt (by omega)
  have hhalf : pow2 (t.width - 1) = t.half := rfl
  cases fill <;> simp [extensionSegments, hhalf, h0, h1]

/-- The segments of an extension by no bit hold every value. -/
theorem exists_extensionSegment_self (fill : Extension) (ha : t.contains a = true) :
    ∃ p ∈ t.extensionSegments fill t, a ∈ p.1 := by
  have hpos := t.half_pos
  have hm := t.modulus_eq_two_mul
  rw [contains_iff] at ha
  simp only [extensionSegments_self, List.mem_cons, List.not_mem_nil, or_false, exists_eq_or_imp,
    exists_eq_left, Bounds.mem_mk]
  rcases t.layout with ⟨hs, hmin, hmax⟩ | ⟨hs, hmin, hmax⟩
  · rw [ofBits_of_le hs le_rfl, ofBits_of_le hs (by omega)]
    omega
  · rw [ofBits_of_unsigned hs, ofBits_of_unsigned hs]
    omega

end IntType

/-! ### The steps of an extension -/

namespace Step

variable {fill : Extension} {bits : ℕ} {w : WordType} {wide : IntType} {r : Range} {v : ℤ}

/-- An extension is folded to the extended value. -/
theorem foldWord_extend (stops : Bool) (fill : Extension) (bits : ℕ) (w arg : WordType)
    (wide : IntType) (v b : ℤ) :
    foldWord stops (.extend fill bits) w arg (.word (.int wide)) v b =
      words (.int wide) (.point (w.view.extended fill wide v)) true := by
  cases fill <;> rfl

/-- An extension by no bit covers the range that it starts from. -/
theorem extendRange_covers_self (fill : Extension) (hr : r.Proper w.view) :
    (extendRange w.view fill (.int w.view) r).delivery.Covers (.int w.view) r.toSet := by
  have hzero : ∀ p ∈ w.view.extensionSegments fill w.view, p.2 = 0 := by
    simp [IntType.extensionSegments_self]
  refine hullStep_covers ?_ ?_
  · intro i hi
    obtain ⟨p, hp, s, hm, rfl⟩ := mem_extend_images.mp hi
    have hle := Bounds.le_of_meet?_eq_some hm
    have hlo := (Bounds.mem_of_meet?_eq_some hm).mp ⟨le_rfl, hle⟩
    have hhi := (Bounds.mem_of_meet?_eq_some hm).mp ⟨hle, le_rfl⟩
    rw [hzero p hp, add_zero, add_zero]
    exact ⟨hle, hr.contains hlo.2, hr.contains hhi.2⟩
  · intro v hv
    obtain ⟨p, hp, hvp⟩ := IntType.exists_extensionSegment_self fill (hr.contains hv)
    obtain ⟨s, hm, hvs⟩ := Bounds.exists_meet? hvp hv
    refine ⟨_, mem_extend_images.mpr ⟨p, hp, s, hm, rfl⟩, ?_⟩
    rw [hzero p hp, add_zero, add_zero]
    exact hvs

/-- An extension of a range by any number of bits, none included, loses no value. -/
theorem extendRange_covers (fill : Extension) (hw : wide.width = w.view.width + bits)
    (hs : wide.signed = w.view.signed) (hr : r.Proper w.view) :
    (extendRange w.view fill (.int wide) r).delivery.Covers (.int wide)
      (w.view.widened fill wide '' r.toSet) := by
  by_cases hbits : 0 < bits
  · have hlt : w.view.width < wide.width := by omega
    have hset : w.view.widened fill wide '' r.toSet =
        (Operation.extend fill bits).results true w.view w.view wide r.toSet {0} := by
      ext v
      constructor
      · rintro ⟨a, ha, rfl⟩
        exact ⟨a, ha, 0, rfl, (mem_values_extend hlt).mpr (IntType.widened_of_lt hlt fill a)⟩
      · rintro ⟨a, ha, b, -, hv⟩
        exact ⟨a, ha, (IntType.widened_of_lt hlt fill a).trans ((mem_values_extend hlt).mp hv).symm⟩
    rw [hset]
    exact (extend_describes hr hlt hs).covers
  · obtain rfl : wide = w.view := IntType.eq_of_width_of_signed (by omega) hs
    have hset : w.view.widened fill w.view '' r.toSet = id '' r.toSet :=
      Set.image_congr fun a ha => IntType.widened_self fill (hr.contains ha)
    rw [hset, Set.image_id]
    exact extendRange_covers_self fill hr

end Step

namespace Traced

variable {α β : Type} {x : Traced α} {f : α → Traced β}

/-- A value is passed on. -/
theorem value_bind_ok {a : α} (h : x.value = .ok a) : (x >>= f).value = (f a).value := by
  change (x.andThen f).value = _
  rw [andThen, h]

/-- A fault ends the computation. -/
theorem value_bind_error {fault : Fault} (h : x.value = .error fault) :
    (x >>= f).value = .error fault := by
  change (x.andThen f).value = _
  rw [andThen, h]

end Traced

/-- A single integer becomes a constant under any creation bound. -/
theorem Evaluation.deliver_point (limit : ℕ) (e : Evaluation) (t : IntType) (v : ℤ) (exact : Bool) :
    e.deliver limit (.words (.int t) (.point v) exact) =
      ((Element.checkedWord (.int t) (.constant v) : Except Fault Element) : Traced Element) >>=
        fun x => pure ((e.withResult x).conclude exact) := by
  have hshape : e.params.creationBound.shape? limit (.int t) (.point v) = some (.constant v) := by
    simp [Creation.shape?, WordType.rangeShape, Bounds.point]
  have hle : ¬(Bounds.point v).hi < (Bounds.point v).lo := lt_irrefl _
  rw [deliver, if_neg hle, hshape]

/-! ### Unary transfers that end with a word -/

/-- What is neither extreme is a word. -/
theorem Upshot.exists_word {limit : ℕ} {out : WordType} {o : Upshot limit out} (htop : o ≠ ⊤)
    (hbot : o ≠ ⊥) : ∃ z : WordShape limit out, o = .word z := by
  cases o using WithTop.recTopCoe with
  | top => exact absurd rfl htop
  | coe q =>
    cases q with
    | bot => exact absurd rfl hbot
    | coe z => exact ⟨z, rfl⟩

/-- A delivery of some value becomes a word if the bound allows intervals. -/
theorem Delivery.Covers.exists_word (limit : ℕ) {out : WordType} {V : Set ℤ} {d : Delivery}
    {bound : Creation} (h : d.Covers out V) (hV : V.Nonempty)
    (hbound : bound.allows .interval = true) :
    ∃ z : WordShape limit out, d.Becomes bound (.word z) ∧ V ⊆ z.shape.toSet out.view := by
  obtain ⟨v, hv⟩ := hV
  obtain ⟨o, ho⟩ : ∃ o : Upshot limit out, d.Becomes bound o := h.exists_becomes bound
  have hsub := h.subset_values
  have hne := ho.ne_top hbound
  cases ho with
  | nothing => exact absurd (hsub hv) (Set.notMem_empty v)
  | empty hlt => exact absurd ((hsub hv).1.trans (hsub hv).2) (not_le.mpr hlt)
  | word z hr hz =>
    exact ⟨z, .word z hr hz, fun u hu => ((Evaluation.shape?_spec hr hz).2 u).mpr (hsub hu)⟩
  | forbidden => exact absurd rfl hne

namespace Element

variable {limit budget : ℕ} {op : Operation} {params : Params} {x : Element} {out : WordType}
  {V : Set ℤ}

/-- With the given nesting left, a unary transfer ends with a word that has the given values. -/
def Yields (limit : ℕ) (op : Operation) (params : Params) (budget : ℕ) (x : Element)
    (out : WordType) (V : Set ℤ) : Prop :=
  ∃ z : WordShape limit out, V ⊆ z.shape.toSet out.view ∧
    Evaluation.EndsOn params (applyWithin limit op budget) (x, none) (.word z)

/-- Without nesting left the result is a top. -/
theorem yields_zero (hres : resultType op x none = .ok (.word out))
    (hV : ∀ v ∈ V, out.view.contains v = true) : Yields limit op params 0 x out V := by
  refine ⟨⊤, fun v hv => Shape.contains_top.mpr (hV v hv), fun e he _ hargument => ?_⟩
  rw [applyWithin, hargument]
  refine (Traced.returns_lift hres rfl).bind ?_
  rintro _ rfl
  refine Traced.returns_session ((Traced.returns_record _).bind fun _ _ => ?_)
  exact Traced.returns_pure ⟨rfl, Evaluation.endsWith_withResult ⊤ he.empty⟩

/-- A step that delivers some value is performed if the bound allows intervals. -/
theorem yields_step {step : Step} (hres : resultType op x none = .ok (.word out))
    (hplan : Plan.of limit params.stops op (.word out) x none = .step step)
    (hcov : step.delivery.Covers out V) (hV : V.Nonempty)
    (hbound : params.creationBound.allows .interval = true) :
    Yields limit op params (budget + 1) x out V := by
  obtain ⟨z, hz, hsub⟩ := hcov.exists_word limit hV hbound
  refine ⟨z, hsub, endsOn_succ hres hplan fun e he hp _ => .inl ?_⟩
  subst hp
  exact (Evaluation.perform_endsWith he hz).bind fun _ h => Traced.returns_pure ⟨rfl, h⟩

/-- A run over several elements ends with a word that has the values of each. -/
theorem yields_members {xs : List Element} {W : Element → Set ℤ}
    (hres : resultType op x none = .ok (.word out))
    (hplan : Plan.of limit params.stops op (.word out) x none = .members xs) (hne : xs ≠ [])
    (hxs : ∀ x ∈ xs, Yields limit op params budget x out (W x)) :
    Yields limit op params (budget + 1) x out {v | ∃ x ∈ xs, v ∈ W x} := by
  choose! z hz hends using hxs
  let runs : List (Element × Option Element) := xs.map fun x => (x, none)
  let f : Element × Option Element → Upshot limit out := fun c => .word (z c.1)
  have hmem : ∀ x ∈ xs, Upshot.word (z x) ∈ ⊥ :: runs.map f := fun x hx =>
    List.mem_cons_of_mem _ (List.mem_map_of_mem (List.mem_map_of_mem hx))
  -- a join of words, of at least one, is a word
  obtain ⟨s, hs⟩ : ∃ s : WordShape limit out, (runs.map f).foldl (· ⊔ ·) ⊥ = .word s := by
    refine Upshot.exists_word (by simp [Upshot.foldl_sup_eq_top, f]) fun h => ?_
    obtain ⟨x, hx⟩ := List.exists_mem_of_ne_nil xs hne
    exact Upshot.word_ne_bot (z x) (Upshot.foldl_sup_eq_bot.mp h _ (hmem x hx))
  refine ⟨s, ?_, endsOn_succ hres hplan fun e he hp hargument => .inl ?_⟩
  · rintro v ⟨x, hx, hv⟩
    have hle : Upshot.word (z x) ≤ .word s := WordShape.foldl_sup_le.mp hs.le _ (hmem x hx)
    exact (Upshot.word_le_word.mp hle).1 (hz x hx hv)
  · have hruns : ∀ c ∈ runs, Evaluation.EndsOn params (applyWithin limit op budget) c (f c) := by
      intro c hc
      obtain ⟨x, hx, rfl⟩ := List.mem_map.mp hc
      exact hends x hx
    have hrun := (he.collects hp).runAll runs hruns
    rw [hs] at hrun
    rw [Evaluation.runPlan, hargument]
    exact hrun

/-- A coarser shape takes over. -/
theorem yields_promoted {promoted : Element} (hres : resultType op x none = .ok (.word out))
    (hplan : Plan.of limit params.stops op (.word out) x none = .declined)
    (hpromote : x.promote? = some promoted) (h : Yields limit op params budget promoted out V) :
    Yields limit op params (budget + 1) x out V := by
  obtain ⟨z, hz, hends⟩ := h
  refine ⟨z, hz, endsOn_succ hres hplan fun e he hp hargument => .inr ⟨rfl, ?_⟩⟩
  exact he.runPromoted hp hargument hpromote hends

/-! ### Extensions of words -/

/-- Fewer values are covered as well. -/
theorem Yields.mono {V' : Set ℤ} (h : Yields limit op params budget x out V) (hsub : V' ⊆ V) :
    Yields limit op params budget x out V' := by
  obtain ⟨z, hz, hends⟩ := h
  exact ⟨z, hsub.trans hz, hends⟩

/-- No zeros are added, and the nesting suffices to come to a negative constant. -/
def Misfolds (fill : Extension) (bits depth : ℕ) (x : Element) : Prop :=
  fill = .zero ∧ bits = 0 ∧
    ((∃ w v, x = .word w (.constant v) ∧ v < 0 ∧ 1 ≤ depth) ∨
      ∃ w vs, x = .word w (.disjunction vs) ∧ (∃ v ∈ vs, v < 0) ∧ 2 ≤ depth)

end Element

/-- The type of an extension is wider by exactly the bits that are added. -/
theorem Operation.checkedResultType_extend_iff {fill : Extension} {bits : ℕ} {w : WordType}
    {T : ScalarType} :
    (extend fill bits).checkedResultType (.word w) none = .ok (.ok T) ↔
      ∃ wide : IntType, T = .int wide ∧ wide.width = w.view.width + bits ∧
        wide.signed = w.view.signed := by
  have hview : (ScalarType.word w).view? = some w.view := by cases w <;> rfl
  have htype : (extend fill bits).resultType (.word w) none =
      (IntType.ofWidth (w.view.width + bits) w.view.signed).map .int := by
    simp only [resultType, hview]
  have hiff : (extend fill bits).resultType (.word w) none = .ok T ↔
      ∃ wide : IntType, T = .int wide ∧ wide.width = w.view.width + bits ∧
        wide.signed = w.view.signed := by
    rw [htype, map_eq_ok_iff]
    simp only [IntType.ofWidth_eq_ok_iff]
    constructor
    · rintro ⟨wide, h, rfl⟩
      exact ⟨wide, rfl, h⟩
    · rintro ⟨wide, rfl, h⟩
      exact ⟨wide, h, rfl⟩
  simp only [checkedResultType, hview]
  split_ifs with hlt
  · rw [← hiff]
    exact ⟨Except.ok.inj, congrArg _⟩
  · -- the widths of types are far below the number of bits that can be held
    constructor
    · rintro ⟨⟩
    · rintro ⟨wide, -, hw, -⟩
      have := wide.width_le_max
      rw [bitCountLimit, twoPow_eq, ← hw] at hlt
      norm_num [maxIntWidth] at this hlt
      omega

namespace Element

variable {limit budget : ℕ} {params : Params} {x : Element}

section Extend

variable {fill : Extension} {bits : ℕ} {w : WordType} {wide : IntType} {s : Shape} {v : ℤ}
  (hw : wide.width = w.view.width + bits) (hs : wide.signed = w.view.signed)

include hw hs

/-- The result type of an extension of a word, as its transfer looks it up. -/
theorem resultType_extend :
    resultType (.extend fill bits) (.word w s) none = .ok (.word (.int wide)) := by
  have htype : (word w s).type = .word w := rfl
  have harity : ¬((Operation.extend fill bits).arity = 1 ∧ (none : Option Element).isNone = true) :=
    by simp [Operation.arity]
  simp only [resultType, if_neg harity, htype, Option.map_none,
    Operation.checkedResultType_extend_iff.mpr ⟨wide, rfl, hw, hs⟩]

/-- Without nesting left, the result of an extension is a top. -/
theorem yields_extend_zero : Yields limit (.extend fill bits) params 0 (.word w s) (.int wide)
    (w.view.widened fill wide '' s.toSet w.view) := by
  refine yields_zero (resultType_extend hw hs) ?_
  rintro _ ⟨a, -, rfl⟩
  exact IntType.contains_widened _ _ _ a

/-- A constant is extended as its bits are, unless zeros are to be added to a negative one and there
are none. -/
theorem yields_extend_constant (hbound : params.creationBound.allows .interval = true)
    (hv : w.view.contains v = true) (h : budget = 0 ∨ fill = .sign ∨ 0 < bits ∨ 0 ≤ v) :
    Yields limit (.extend fill bits) params budget (.word w (.constant v)) (.int wide)
      (w.view.widened fill wide '' (Shape.constant v).toSet w.view) := by
  cases budget with
  | zero => exact yields_extend_zero hw hs
  | succ budget =>
    have heq := IntType.extended_eq_widened hw hs hv (h.resolve_left (Nat.succ_ne_zero budget))
    have hplan : Plan.of limit params.stops (.extend fill bits) (.word (.int wide))
        (.word w (.constant v)) none =
          .step (.words (.int wide) (.point (w.view.widened fill wide v)) true) := by
      rw [← heq, ← Step.foldWord_extend params.stops fill bits w w wide v 0]
      cases w <;> rfl
    refine yields_step (resultType_extend hw hs) hplan ?_ ⟨_, v, ?_, rfl⟩ hbound
    · refine (Step.point_describes (IntType.contains_widened _ _ _ v) fun u => ⟨?_, ?_⟩).covers
      · rintro ⟨a, ha, rfl⟩
        obtain rfl := Shape.contains_constant.mp ha
        rfl
      · rintro rfl
        exact ⟨v, Shape.contains_constant.mpr rfl, rfl⟩
    · exact Shape.contains_constant.mpr rfl

/-- An interval is extended segment by segment. -/
theorem yields_extend_interval {r : Range} (hbound : params.creationBound.allows .interval = true)
    (hr : (Shape.interval r).Proper limit w) :
    Yields limit (.extend fill bits) params budget (.word w (.interval r)) (.int wide)
      (w.view.widened fill wide '' (Shape.interval r).toSet w.view) := by
  cases budget with
  | zero => exact yields_extend_zero hw hs
  | succ budget =>
    have hset : (Shape.interval r).toSet w.view = r.toSet := by
      ext v
      exact Shape.contains_interval
    rw [hset]
    have hcov := Step.extendRange_covers fill hw hs hr.2
    refine yields_step (resultType_extend hw hs) ?_ hcov ?_ hbound
    · cases w <;> rfl
    · exact ⟨_, r.lo, ⟨le_rfl, hr.2.le⟩, rfl⟩

/-- The values of the first operand one by one. -/
theorem yields_extend_listed {vs : List ℤ} (hbound : params.creationBound.allows .interval = true)
    (hplan : Plan.of limit params.stops (.extend fill bits) (.word (.int wide)) (.word w s) none =
      .members (vs.map (wordConstant w)))
    (hne : vs ≠ []) (hvs : ∀ v, v ∈ vs ↔ s.contains w.view v = true)
    (hmem : ∀ v ∈ vs, w.view.contains v = true)
    (h : ∀ v ∈ vs, budget = 0 ∨ fill = .sign ∨ 0 < bits ∨ 0 ≤ v) :
    Yields limit (.extend fill bits) params (budget + 1) (.word w s) (.int wide)
      (w.view.widened fill wide '' s.toSet w.view) := by
  have hcases : ∀ x ∈ vs.map (wordConstant w), Yields limit (.extend fill bits) params budget x
      (.int wide) (w.view.widened fill wide '' x.values) := by
    intro x hx
    obtain ⟨v, hv, rfl⟩ := List.mem_map.mp hx
    rw [wordConstant_eq (hmem v hv)]
    exact yields_extend_constant hw hs hbound (hmem v hv) (h v hv)
  refine (yields_members (resultType_extend hw hs) hplan (by simpa using hne) hcases).mono ?_
  rintro _ ⟨a, ha, rfl⟩
  have hav := (hvs a).mpr ha
  refine ⟨_, List.mem_map_of_mem hav, a, ?_, rfl⟩
  rw [wordConstant_eq (hmem a hav), mem_values_word, Shape.contains_constant]

/-- Whatever does not misfold ends with a word that has all extended values. -/
theorem yields_extend (hbound : params.creationBound.allows .interval = true)
    (hwell : s.WellFormed limit w) (h : ¬(word w s).Misfolds fill bits budget) :
    Yields limit (.extend fill bits) params budget (.word w s) (.int wide)
      (w.view.widened fill wide '' s.toSet w.view) := by
  have hfolds : ∀ (n : ℕ) (v : ℤ), ¬(fill = .zero ∧ bits = 0 ∧ v < 0 ∧ 1 ≤ n) →
      n = 0 ∨ fill = .sign ∨ 0 < bits ∨ 0 ≤ v := by
    intro n v hv
    cases fill with
    | sign => exact .inr (.inl rfl)
    | zero =>
      simp only [true_and] at hv
      omega
  cases s with
  | constant v =>
    refine yields_extend_constant hw hs hbound hwell.proper (hfolds budget v ?_)
    rintro ⟨hfill, hbits, hneg, hn⟩
    exact h ⟨hfill, hbits, .inl ⟨w, v, rfl, hneg, hn⟩⟩
  | interval r => exact yields_extend_interval hw hs hbound hwell.proper
  | disjunction vs =>
    cases budget with
    | zero => exact yields_extend_zero hw hs
    | succ budget =>
      refine yields_extend_listed hw hs hbound (by cases w <;> rfl) ?_
        (fun v => Shape.contains_disjunction.symm) hwell.proper.2.2.1
        fun v hv => hfolds budget v ?_
      · rintro rfl
        simpa using hwell.proper.2.2.2.1
      · rintro ⟨hfill, hbits, hneg, hn⟩
        exact h ⟨hfill, hbits, .inr ⟨w, vs, rfl, ⟨v, hv, hneg⟩, Nat.succ_le_succ hn⟩⟩
  | top =>
    cases budget with
    | zero => exact yields_extend_zero hw hs
    | succ budget =>
      cases w with
      | bit =>
        have hbit : ∀ v, v ∈ [0, 1] ↔ (WordType.bit).view.contains v = true := fun v => by
          rw [WordType.contains_view_bit]
          simp
        have hplan : Plan.of limit params.stops (.extend fill bits) (.word (.int wide))
            (.word .bit .top) none = .members ([0, 1].map (wordConstant .bit)) := rfl
        refine yields_extend_listed hw hs hbound hplan (by simp)
          (fun v => (hbit v).trans Shape.contains_top.symm) (fun v hv => (hbit v).mp hv) ?_
        intro v hv
        rcases List.mem_pair.mp hv with rfl | rfl <;> simp
      | int t =>
        have hfull : (Shape.interval t.full).Proper limit (.int t) := ⟨by simp, .full t⟩
        refine yields_promoted (resultType_extend hw hs) rfl rfl
          ((yields_extend_interval hw hs hbound hfull).mono ?_)
        exact Set.image_mono (values_fullInterval t).ge

end Extend

/-! ### Extensions that fault -/

/-- A negative constant cannot be extended by no zeros. -/
theorem applyWithin_constant_faults {t : IntType} {v : ℤ} {e : Evaluation}
    (hv : t.contains v = true) (hneg : v < 0) (hargument : e.argument = none) :
    (applyWithin limit (.extend .zero 0) (budget + 1) (.word (.int t) (.constant v)) e).value =
      .error (.outOfRange (t.toBits v) t) := by
  have hres : resultType (.extend .zero 0) (.word (.int t) (.constant v)) e.argument =
      .ok (.word (.int t)) := by
    rw [hargument]
    exact resultType_extend (w := .int t) rfl rfl
  have hchecked : checkedWord (.int t) (.constant (t.toBits v)) =
      .error (.outOfRange (t.toBits v) t) := by
    rw [checkedWord, IntType.contains_toBits_of_neg hv hneg]
    rfl
  have hplan : Plan.of limit e.params.stops (.extend .zero 0) (.word (.int t))
      (.word (.int t) (.constant v)) e.argument =
        .step (.words (.int t) (.point (t.toBits v)) true) := by
    rw [hargument]
    rfl
  rw [applyWithin, Traced.value_bind_ok hres]
  refine Traced.value_bind_error ?_
  rw [hplan, Evaluation.runPlan]
  refine Traced.value_bind_error ?_
  change (e.deliver limit (.words (.int t) (.point (t.toBits v)) true)).value = _
  rw [Evaluation.deliver_point]
  exact Traced.value_bind_error hchecked

/-- Neither can a list that starts with one. -/
theorem applyWithin_list_faults {t : IntType} {v : ℤ} {vs : List ℤ} {e : Evaluation}
    (hv : t.contains v = true) (hneg : v < 0) (hargument : e.argument = none) :
    (applyWithin limit (.extend .zero 0) (budget + 2) (.word (.int t) (.disjunction (v :: vs)))
      e).value = .error (.outOfRange (t.toBits v) t) := by
  have hres : resultType (.extend .zero 0) (.word (.int t) (.disjunction (v :: vs))) e.argument =
      .ok (.word (.int t)) := by
    rw [hargument]
    exact resultType_extend (w := .int t) rfl rfl
  have hfirst : (applyWithin limit (.extend .zero 0) (budget + 1) (wordConstant (.int t) v)
      (e.spawn e.argument)).value = .error (.outOfRange (t.toBits v) t) := by
    rw [wordConstant_eq (w := .int t) hv]
    exact applyWithin_constant_faults hv hneg hargument
  rw [applyWithin, Traced.value_bind_ok hres]
  refine Traced.value_bind_error ?_
  rw [Plan.of, Evaluation.runPlan, List.map_cons, List.map_cons, Evaluation.runAll]
  exact Traced.value_bind_error (Traced.value_bind_error hfirst)

/-- What misfolds, faults. -/
theorem Misfolds.faults {fill : Extension} {bits : ℕ} {w : WordType} {wide : IntType}
    {e : Evaluation} (h : x.Misfolds fill bits budget) (hx : x.IsWord limit w)
    (hw : wide.width = w.view.width + bits) (hs : wide.signed = w.view.signed)
    (hargument : e.argument = none) :
    ∃ v, (applyWithin limit (.extend fill bits) budget x e).value =
      .error (.outOfRange v wide) := by
  obtain ⟨s, rfl, hwell⟩ := hx
  obtain ⟨rfl, rfl, h⟩ := h
  obtain rfl : wide = w.view := IntType.eq_of_width_of_signed hw hs
  have hint : ∀ v : ℤ, w.view.contains v = true → v < 0 → w = .int w.view := by
    intro v hv hneg
    cases w with
    | bit => rcases WordType.contains_view_bit.mp hv with rfl | rfl <;> omega
    | int t => rfl
  rcases h with ⟨u, v, heq, hneg, hdepth⟩ | ⟨u, vs, heq, ⟨v, hv, hneg⟩, hdepth⟩
  · cases heq
    have hv : w.view.contains v = true := hwell.proper
    obtain ⟨n, rfl⟩ : ∃ n, budget = n + 1 := ⟨budget - 1, by omega⟩
    rw [hint v hv hneg]
    exact ⟨_, applyWithin_constant_faults hv hneg hargument⟩
  · cases heq
    obtain ⟨-, hsorted, hmem, -⟩ := hwell.proper
    obtain ⟨n, rfl⟩ : ∃ n, budget = n + 2 := ⟨budget - 2, by omega⟩
    rw [hint v (hmem v hv) hneg]
    cases vs with
    | nil => cases hv
    | cons a vs =>
      -- the first value is the least
      have ha : a < 0 := by
        rcases List.mem_cons.mp hv with rfl | hv
        · exact hneg
        · exact (List.rel_of_pairwise_cons hsorted hv).trans hneg
      exact ⟨_, applyWithin_list_faults (hmem a List.mem_cons_self) ha hargument⟩

/-- An extension by any number of bits that has a type at all has one that is wider by exactly these
bits. The transfer of a word ends with a word of this type that has, for each value, the value whose
bits are extended, unless it misfolds; then it faults. -/
theorem extend_widens {fill : Extension} {bits : ℕ} {w : WordType} {T : ScalarType} (maxDepth : ℕ)
    (hT : (Operation.extend fill bits).checkedResultType (.word w) none = .ok (.ok T))
    (hx : x.IsWord limit w) :
    ∃ wide : IntType, T = .int wide ∧ wide.width = w.view.width + bits ∧
      wide.signed = w.view.signed ∧
      ((∃ e r, (x.apply limit (.extend fill bits)
            (.start (.preset maxDepth .exact .stop) none)).value = .ok (true, e) ∧
          e.result = some r ∧ e.empty = false ∧ r.IsWord limit (.int wide) ∧ r.type = T ∧
          ∀ v ∈ x.values, wide.read (fill.widen wide.width (w.view.bits v)) ∈ r.values) ↔
        ¬x.Misfolds fill bits maxDepth) ∧
      (x.Misfolds fill bits maxDepth → ∃ v, (x.apply limit (.extend fill bits)
        (.start (.preset maxDepth .exact .stop) none)).value = .error (.outOfRange v wide)) := by
  obtain ⟨wide, rfl, hw, hs⟩ := Operation.checkedResultType_extend_iff.mp hT
  let start : Evaluation := .start (.preset maxDepth .exact .stop) none
  have hfault : x.Misfolds fill bits maxDepth →
      ∃ v, (x.apply limit (.extend fill bits) start).value = .error (.outOfRange v wide) :=
    fun h => h.faults hx hw hs rfl
  refine ⟨wide, rfl, hw, hs, ⟨?_, fun h => ?_⟩, hfault⟩
  · rintro ⟨e, -, he, -⟩ h
    obtain ⟨v, hv⟩ := hfault h
    cases he.symm.trans hv
  · obtain ⟨s, rfl, hwell⟩ := hx
    have hbound : start.params.creationBound.allows .interval = true := rfl
    obtain ⟨z, hz, hends⟩ := yields_extend hw hs hbound hwell h
    obtain ⟨⟨_, e⟩, he, rfl, hword⟩ := hends start (Evaluation.fresh_start _ _) rfl rfl
    refine ⟨e, z.toElement, he, hword.result, ?_, isWord_word z.wellFormed, rfl, ?_⟩
    · rw [← Bool.not_eq_true, hword.empty]
      exact Upshot.word_ne_bot z
    · exact fun v hv => hz ⟨v, hv, rfl⟩

/-- A range with negative values stays what it is when no zeros are added. -/
theorem extend_widens_by_nothing :
    let t : IntType := ⟨8, true, by decide, by decide⟩
    let x : Element := .word (.int t) (.interval ⟨-5, 9⟩)
    let start : Evaluation := .start (.preset 16 .exact .stop) none
    (Operation.extend .zero 0).checkedResultType (.word (.int t)) none = .ok (.ok (.int t)) ∧
      x.IsWord 8 (.int t) ∧ ¬x.Misfolds .zero 0 16 ∧
      ∃ e r, (x.apply 8 (.extend .zero 0) start).value = .ok (true, e) ∧ e.result = some r ∧
        r.type = .int t ∧ -5 ∈ r.values := by
  intro t x start
  have hT : (Operation.extend .zero 0).checkedResultType (.word (.int t)) none =
      .ok (.ok (.int t)) := by rfl
  have hx : x.IsWord 8 (.int t) := by decide
  have hsafe : ¬x.Misfolds .zero 0 16 := by simp [Misfolds, x]
  have hread : t.read (Extension.zero.widen t.width (t.bits (-5))) = -5 := by decide
  obtain ⟨wide, hwide, -, -, hiff, -⟩ := extend_widens 16 hT hx
  cases hwide
  obtain ⟨e, r, he, hr, -, -, htype, hvalues⟩ := hiff.mpr hsafe
  exact ⟨hT, hx, hsafe, e, r, he, hr, htype,
    hread ▸ hvalues (-5) (Shape.contains_interval.mpr ⟨by decide, by decide⟩)⟩

/-- A constant is lost although none of its bits changes. -/
theorem negative_constant_lost :
    let t : IntType := ⟨8, true, by decide, by decide⟩
    let x : Element := .word (.int t) (.constant (-1))
    (Operation.extend .zero 0).checkedResultType (.word (.int t)) none = .ok (.ok (.int t)) ∧
      t.read (Extension.zero.widen t.width (t.bits (-1))) = -1 ∧
      (x.apply 8 (.extend .zero 0) (.start (.preset 16 .exact .stop) none)).value =
        .error (.outOfRange 255 t) :=
  ⟨rfl, by decide, rfl⟩

end Element

end ScalarDomain
