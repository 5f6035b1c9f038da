import ScalarDomain.Proofs.Forward.Extension
import ScalarDomain.Proofs.Range.Tiling

/-!
# Extensions by segments

Ranges are extended by adding a constant to each half of their type, constants by writing out their
bits. Both are the same function of the value. The two halves tile the type, so that every value has
one offset, and adding it gives the value whose bits are extended
(`Step.segments_extend_constants`).

Cutting off the new bits undoes an extension. So distinct values stay distinct, and the images of
the two halves do not meet.
-/

namespace ScalarDomain

/-- Cutting off the new bits gives the old ones back. -/
theorem Extension.setWidth_widen {m n : ℕ} (fill : Extension) (h : m ≤ n) (x : BitVec m) :
    (fill.widen n x).setWidth m = x := by
  cases fill with
  | zero => exact (BitVec.setWidth_setWidth_of_le x h).trans (BitVec.setWidth_eq x)
  | sign =>
    ext i hi
    have hn : i < n := by omega
    simp [widen, hi, hn, BitVec.getElem_signExtend]

namespace IntType

open Bounds

variable {t wide : IntType} {fill : Extension}

theorem injOn_widened (fill : Extension) (h : t.width ≤ wide.width) :
    Set.InjOn (t.widened fill wide) t.full.toSet := by
  have hback : Set.LeftInvOn (fun v => t.read ((wide.bits v).setWidth t.width))
      (t.widened fill wide) t.full.toSet := by
    intro a ha
    simp only [widened, bits_read, fill.setWidth_widen h, read_bits (mem_full.mp ha)]
  exact hback.injOn

section

variable (h : t.width < wide.width) (hs : wide.signed = t.signed)

include h hs

/-- The two halves of a type are what an extension is split into. -/
theorem tiles_extensionSegments (fill : Extension) :
    Tiles ((t.extensionSegments fill wide).map (·.1)) t.full.toSet where
  le := by
    intro q hq
    obtain ⟨p, hp, rfl⟩ := List.mem_map.mp hq
    exact (extended_of_mem_segment h hs hp).1.le
  disjoint := by
    obtain ⟨s, offset, he, -, hmem, -⟩ := extensionSegments_cases t fill h hs
    rw [he]
    exact List.pairwise_pair.mpr (Set.disjoint_left.mpr fun a h0 ha => ((hmem a).mp ha).2 h0)
  mem_iff := by
    intro v
    rw [mem_toSet, mem_full]
    constructor
    · rintro ⟨q, hq, hv⟩
      obtain ⟨p, hp, rfl⟩ := List.mem_map.mp hq
      exact (extended_of_mem_segment h hs hp).1.contains hv
    · intro hv
      obtain ⟨p, hp, hvp⟩ : ∃ p ∈ t.extensionSegments fill wide, v ∈ p.1 :=
        exists_extensionSegment h hs hv
      exact ⟨p.1, List.mem_map_of_mem hp, hvp⟩

theorem widened_of_mem_segment {p : Range × ℤ} (hp : p ∈ t.extensionSegments fill wide) {v : ℤ}
    (hv : v ∈ p.1) : t.widened fill wide v = v + p.2 :=
  (widened_of_lt h fill v).trans ((extended_of_mem_segment h hs hp).2 v hv)

/-- The images of the halves do not meet. -/
theorem pairwise_disjoint_images (fill : Extension) :
    (t.extensionSegments fill wide).Pairwise fun p q =>
      Disjoint ((· + p.2) '' p.1.toSet) ((· + q.2) '' q.1.toSet) := by
  have htiles := tiles_extensionSegments h hs fill
  have himage : ∀ p ∈ t.extensionSegments fill wide,
      (· + p.2) '' p.1.toSet = t.widened fill wide '' p.1.toSet := fun p hp =>
    Set.image_congr fun v hv => (widened_of_mem_segment h hs hp hv).symm
  refine (List.pairwise_map.mp htiles.disjoint).imp_of_mem fun {p q} hp hq hpq => ?_
  rw [himage p hp, himage q hq]
  exact hpq.image (injOn_widened fill h.le) (htiles.subset (List.mem_map_of_mem hp))
    (htiles.subset (List.mem_map_of_mem hq))

end

end IntType

namespace Step

/-- The fold of an extension ends with the constant whose bits are extended. -/
theorem perform_foldWord_extend {w : WordType} {wide : IntType} (limit bits : ℕ) (e : Evaluation)
    (fill : Extension) (h : w.view.width < wide.width) (v : ℤ) :
    (e.perform limit (.foldWord e.params.stops (.extend fill bits) w w (.int wide) v 0)).value =
      .ok ((e.withResult (.word (.int wide) (.constant (w.view.widened fill wide v)))).conclude
        true) := by
  have hchecked : Element.checkedWord (.int wide) (.constant (w.view.widened fill wide v)) =
      .ok (.word (.int wide) (.constant (w.view.widened fill wide v))) :=
    if_pos (IntType.contains_widened _ _ _ v)
  rw [foldWord_extend, ← IntType.widened_of_lt h]
  change (e.deliver limit (.words (.int wide) (.point _) true)).value = _
  rw [Evaluation.deliver_point]
  exact Traced.value_bind_ok hchecked

/-- An extension by at least one bit into a type of the same sign has two segments. Every value of
the narrow type lies in exactly one of them. The value plus the offset of its segment is the
constant that the extension of the constant ends with, and the value whose bits are extended. The
images of the segments have no value in common. -/
theorem segments_extend_constants (w : WordType) (fill : Extension) (bits : ℕ) (wide : IntType)
    (hbits : 1 ≤ bits) (hw : wide.width = w.view.width + bits)
    (hs : wide.signed = w.view.signed) :
    (Operation.extend fill bits).checkedResultType (.word w) none = .ok (.ok (.int wide)) ∧
    (w.view.extensionSegments fill wide).length = 2 ∧
    (∀ v, w.view.contains v = true → ∃ p,
      (w.view.extensionSegments fill wide).filter (fun p => p.1.contains v) = [p] ∧
      v + p.2 = wide.read (fill.widen wide.width (w.view.bits v)) ∧
      ∀ limit (e : Evaluation),
        (e.perform limit (.foldWord e.params.stops (.extend fill bits) w w (.int wide) v 0)).value =
          .ok ((e.withResult (.word (.int wide) (.constant (v + p.2)))).conclude true)) ∧
    (w.view.extensionSegments fill wide).Pairwise fun p q =>
      Disjoint ((· + p.2) '' p.1.toSet) ((· + q.2) '' q.1.toSet) := by
  have hlt : w.view.width < wide.width := by omega
  refine ⟨Operation.checkedResultType_extend_iff.mpr ⟨wide, rfl, hw, hs⟩, rfl, fun v hv => ?_,
    IntType.pairwise_disjoint_images hlt hs fill⟩
  obtain ⟨p, hp⟩ := (IntType.tiles_extensionSegments hlt hs fill).exists_filter_eq
    (Bounds.mem_full.mpr hv)
  have hmem := List.mem_filter.mp (hp ▸ List.mem_singleton_self p)
  have hadd := IntType.widened_of_mem_segment hlt hs hmem.1 (Bounds.contains_iff.mp hmem.2)
  refine ⟨p, hp, hadd.symm, fun limit e => ?_⟩
  rw [perform_foldWord_extend limit bits e fill hlt v, hadd]

/-- A bit has one value in each segment, and a bit that is set is extended by ones. -/
theorem segments_extend_constants_bit :
    let wide : IntType := ⟨4, false, by decide, by decide⟩
    (WordType.bit).view.extensionSegments .sign wide = [(⟨0, 0⟩, 0), (⟨1, 1⟩, 14)] ∧
      (WordType.bit).view.contains 1 = true ∧
      wide.read (Extension.sign.widen wide.width ((WordType.bit).view.bits 1)) = 15 ∧
      ((Evaluation.start (.preset 1 .sure .stop) none).perform 8 (.foldWord true (.extend .sign 3)
          .bit .bit (.int wide) 1 0)).value =
        .ok (((Evaluation.start (.preset 1 .sure .stop) none).withResult
          (.word (.int wide) (.constant 15))).conclude true) := by
  intro wide
  have hsegments : (WordType.bit).view.extensionSegments .sign wide =
      [(⟨0, 0⟩, 0), (⟨1, 1⟩, 14)] := by decide
  have hv : (WordType.bit).view.contains 1 = true := by decide
  obtain ⟨-, -, hvalues, -⟩ := segments_extend_constants .bit .sign 3 wide (by decide) rfl rfl
  obtain ⟨p, hp, hread, hfold⟩ := hvalues 1 hv
  rw [hsegments] at hp
  obtain rfl : ((⟨1, 1⟩ : Range), (14 : ℤ)) = p := List.head_eq_of_cons_eq hp
  exact ⟨hsegments, hv, hread.symm, hfold 8 _⟩

end Step

end ScalarDomain
