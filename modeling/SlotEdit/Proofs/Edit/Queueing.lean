import Mathlib.Data.List.FinRange
import Mathlib.Logic.Equiv.Defs
import SlotEdit.Proofs.Edit.Overlaps

/-!
# Proofs/Edit/Queueing — what the order of the queue decides

A batch is sorted by where its edits stand, and only edits at one place keep the order of the queue.
So two queues of the same edits that agree on the order at each place are sorted alike
(`placed_eq_of_forall_filter`), and if the batch is accepted the only places with several edits are
points where texts are put in (`edited_requeued`).
-/

namespace SlotEdit

variable {d : Document} {edits edits' : List TextEdit}

/-! ## Sorted edits are told by the edits of each place -/

/-- Edits that stand before each other stand at one place. -/
theorem Placed.span_eq_of_le {a b : Placed} (hab : a.le b = true) (hba : b.le a = true) : a.span = b.span := by
  simp only [le, Bool.or_eq_true, Bool.and_eq_true, decide_eq_true_eq, beq_iff_eq] at hab hba
  have hstart : a.span.start = b.span.start := by omega
  have hstop : a.span.stop = b.span.stop := by omega
  exact congrArg₂ Span.mk hstart hstop

/-- **Batches with the same edits, in the same order, at each place** are sorted alike. -/
theorem placed_eq_of_forall_filter
    (h : ∀ s, edits.filter (fun e => d.spanOf e.range = s) = edits'.filter fun e => d.spanOf e.range = s) :
    placed d edits = placed d edits' := by
  have hplace (edits : List TextEdit) (s : Span) : (placed d edits).filter (fun p => p.span = s) =
      (edits.filter fun e => d.spanOf e.range = s).map fun e => ⟨d.spanOf e.range, e⟩ := by
    rw [filter_placed_of_span fun a _ b _ ha hb =>
      (of_decide_eq_true ha).trans (of_decide_eq_true hb).symm, located, List.filter_map]
    rfl
  refine eq_of_forall_filter Placed.span (fun _ _ => Placed.span_eq_of_le) (pairwise_placed d edits)
    (pairwise_placed d edits') fun s => ?_
  rw [hplace, hplace, h]

/-! ## Queues of the same edits -/

/-- **Two queues of the same edits**: `place i` is where edit `i` of the one comes in the other.  Of two
edits that stand at one place of the document, the earlier comes first in both if the place is one of
those that are `kept`. -/
def Requeued (d : Document) (kept : Span → Prop) (edits edits' : List TextEdit) : Prop :=
  ∃ place : Fin edits.length ≃ Fin edits'.length, (∀ i, edits'.get (place i) = edits.get i) ∧
    ∀ i j, i < j → d.spanOf (edits.get i).range = d.spanOf (edits.get j).range →
      kept (d.spanOf (edits.get i).range) → place i < place j

/-- Every place keeps the order of its edits. -/
abbrev everyPlace : Span → Prop := fun _ => True

/-- The place is a point, where edits only put texts in. -/
abbrev Span.IsPoint (s : Span) : Prop := s.start = s.stop

namespace Requeued

variable {kept : Span → Prop}

/-- The places of a list that pass a test, moved to where they come in another, are those of the other. -/
theorem map_filter_finRange {n m : Nat} (place : Fin n ≃ Fin m) {P : Fin n → Bool} {Q : Fin m → Bool}
    (hpass : ∀ i, Q (place i) = P i) (hkeep : ∀ i j, i < j → P i = true → P j = true → place i < place j) :
    ((List.finRange n).filter P).map place = (List.finRange m).filter Q := by
  have hsorted (n : Nat) (P : Fin n → Bool) : ((List.finRange n).filter P).Pairwise (· < ·) :=
    (List.pairwise_lt_finRange n).filter P
  have hmoved : (((List.finRange n).filter P).map place).Pairwise (· < ·) :=
    List.pairwise_map.mpr ((hsorted n P).imp_of_mem fun hi hj hlt =>
      hkeep _ _ hlt (List.mem_filter.mp hi).2 (List.mem_filter.mp hj).2)
  refine List.Perm.eq_of_pairwise (fun _ _ _ _ hlt hgt => absurd hgt hlt.asymm) hmoved (hsorted m Q)
    ((List.perm_ext_iff_of_nodup (hmoved.imp fun h => h.ne) ((hsorted m Q).imp fun h => h.ne)).mpr fun k => ?_)
  simp only [List.mem_map, List.mem_filter, List.mem_finRange, true_and]
  constructor
  · rintro ⟨i, hi, rfl⟩
    exact (hpass i).trans hi
  · intro hk
    exact ⟨place.symm k, (hpass _).symm.trans (by rwa [place.apply_symm_apply]), place.apply_symm_apply k⟩

/-- The edits of a queue that pass a test, by their places. -/
theorem filter_eq_map_finRange (edits : List TextEdit) (P : TextEdit → Bool) :
    edits.filter P = ((List.finRange edits.length).filter fun i => P (edits.get i)).map edits.get := by
  conv_lhs => rw [← List.map_get_finRange edits, List.filter_map]
  rfl

/-- **At a place that is kept** both queues have the same edits in the same order. -/
theorem filter_eq (h : Requeued d everyPlace edits edits') (s : Span) :
    edits.filter (fun e => d.spanOf e.range = s) = edits'.filter fun e => d.spanOf e.range = s := by
  obtain ⟨place, hget, hkeep⟩ := h
  rw [filter_eq_map_finRange, filter_eq_map_finRange edits',
    ← map_filter_finRange place (P := fun i => d.spanOf (edits.get i).range = s) (fun i => by rw [hget])
      fun i j hlt hi hj => hkeep i j hlt ((of_decide_eq_true hi).trans (of_decide_eq_true hj).symm) trivial,
    List.map_map]
  exact List.map_congr_left fun i _ => (hget i).symm

theorem perm (h : Requeued d kept edits edits') : edits.Perm edits' := by
  obtain ⟨place, hget, -⟩ := h
  have hplaces : ((List.finRange edits.length).map place).Perm (List.finRange edits'.length) :=
    (List.perm_ext_iff_of_nodup ((List.nodup_finRange _).map place.injective) (List.nodup_finRange _)).mpr
      fun k => iff_of_true (List.mem_map.mpr ⟨place.symm k, List.mem_finRange _, place.apply_symm_apply k⟩)
        (List.mem_finRange k)
  have hedits := hplaces.map edits'.get
  rwa [List.map_map, List.map_get_finRange, show edits'.get ∘ place = edits.get from funext hget,
    List.map_get_finRange] at hedits

/-- **In a batch without overlaps** several edits stand at one place only if it is a point. -/
theorem everyPlace_of_points (h : Requeued d Span.IsPoint edits edits')
    (hapart : edits.Pairwise fun e f => ¬ Span.Overlaps (d.spanOf e.range) (d.spanOf f.range)) :
    Requeued d everyPlace edits edits' := by
  obtain ⟨place, hget, hkeep⟩ := h
  refine ⟨place, hget, fun i j hlt hsame _ => hkeep i j hlt hsame ?_⟩
  have hnot := List.pairwise_iff_get.mp hapart i j hlt
  rw [← hsame, Span.Overlaps, and_self, Nat.not_lt] at hnot
  exact Nat.le_antisymm (d.spanOf_start_le_stop (edits.get i).range) hnot

end Requeued

/-- An overlap is found whatever the order of the queue. -/
theorem firstOverlap?_placed_perm (h : edits.Perm edits') :
    firstOverlap? (placed d edits) = none ↔ firstOverlap? (placed d edits') = none := by
  rw [firstOverlap?_placed_eq_none, firstOverlap?_placed_eq_none]
  exact h.pairwise_iff fun h => mt Span.Overlaps.symm h

/-- **The order of the queue only matters between insertions at one point.**  Take two queues of the same
edits that agree on the order of those at each point.  Then both batches are refused or both give the same
text, whether the texts to be put in hold halves of surrogate pairs or not.  If the queues also agree on the
order of edits that stand at one and the same piece of the text, even the fault is the same. -/
theorem edited_requeued (h : Requeued d Span.IsPoint edits edits') :
    (∀ content, edited d edits = .ok content ↔ edited d edits' = .ok content) ∧
    (∀ text, editedText d edits = .ok text ↔ editedText d edits' = .ok text) ∧
    (Requeued d everyPlace edits edits' →
      edited d edits = edited d edits' ∧ editedText d edits = editedText d edits') := by
  have hsame (h : Requeued d everyPlace edits edits') :
      edited d edits = edited d edits' ∧ editedText d edits = editedText d edits' := by
    rw [edited, edited, editedText, editedText, placed_eq_of_forall_filter h.filter_eq]
    exact ⟨rfl, rfl⟩
  by_cases hover : firstOverlap? (placed d edits) = none
  · obtain ⟨hedited, htext⟩ := hsame (h.everyPlace_of_points (firstOverlap?_placed_eq_none.mp hover))
    exact ⟨fun content => by rw [hedited], fun text => by rw [htext], hsame⟩
  · have hover' := mt (firstOverlap?_placed_perm h.perm).mpr hover
    refine ⟨fun content => iff_of_false ?_ ?_, fun text => iff_of_false ?_ ?_, hsame⟩
    · exact fun h => hover (edited_eq_ok.mp h).1
    · exact fun h => hover' (edited_eq_ok.mp h).1
    · exact fun h => hover (splice_eq_ok.mp (map_eq_ok.mp h).choose_spec.1).1
    · exact fun h => hover' (splice_eq_ok.mp (map_eq_ok.mp h).choose_spec.1).1

/-- A replacement that is queued behind two insertions at one point, or before them. -/
theorem edited_requeued_insertions : ∃ (d : Document) (first second replacement : TextEdit),
    Requeued d Span.IsPoint [first, second, replacement] [replacement, first, second] ∧
      edited d [first, second, replacement] = .ok "axyb\nz" ∧ edited d [replacement, first, second] = .ok "axyb\nz" := by
  let d : Document := ⟨"ab\ncd", ⟨"Plain text", "plaintext", "plaintext", some .plainText⟩⟩
  let first : TextEdit := .insert ⟨0, 1⟩ (.str "x")
  let second : TextEdit := .insert ⟨0, 1⟩ (.str "y")
  let replacement : TextEdit := .replace (.between ⟨1, 0⟩ ⟨1, 2⟩) (.str "z")
  have hrequeued : Requeued d Span.IsPoint [first, second, replacement] [replacement, first, second] := by
    refine ⟨finRotate 3, fun i => ?_, fun i j hlt hsame _ => ?_⟩
    · fin_cases i <;> rfl
    · have hpoint : d.spanOf first.range = ⟨1, 1⟩ := by cbv
      have hpiece : d.spanOf replacement.range = ⟨3, 5⟩ := by cbv
      have hapart : d.spanOf first.range ≠ d.spanOf replacement.range := by
        rw [hpoint, hpiece]
        decide
      have hcases : ∀ i j : Fin 3, i < j → i = 0 ∧ j = 1 ∨ i = 0 ∧ j = 2 ∨ i = 1 ∧ j = 2 := by decide
      obtain ⟨rfl, rfl⟩ | ⟨rfl, rfl⟩ | ⟨rfl, rfl⟩ := hcases i j hlt
      · decide
      · exact absurd hsame hapart
      · exact absurd hsame hapart
  have hedited : edited d [first, second, replacement] = .ok "axyb\nz" := by cbv
  exact ⟨d, first, second, replacement, hrequeued, hedited, ((edited_requeued hrequeued).1 _).mp hedited⟩

end SlotEdit
