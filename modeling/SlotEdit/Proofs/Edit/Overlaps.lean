import Mathlib.Tactic.Push
import Mathlib.Tactic.TFAE
import SlotEdit.Proofs.Edit.Splicing

/-!
# Proofs/Edit/Overlaps — which batches are refused

A batch is checked after its edits are sorted, and only neighbours are compared, by offsets.  This
finds every overlap there is: a batch is refused just when the ranges of two of its edits, moved into
the document, overlap (`tfae_refused`).  For edits in order the check says that all pairs stand apart,
and standing apart does not depend on the order.
-/

namespace SlotEdit

/-! ## Spans that overlap -/

/-- Two spans overlap when each starts before the other ends. -/
def Span.Overlaps (a b : Span) : Prop := a.start < b.stop ∧ b.start < a.stop

/-- Two spans have a character in common. -/
def Span.Shares (a b : Span) : Prop := ∃ o, (a.start ≤ o ∧ o < a.stop) ∧ b.start ≤ o ∧ o < b.stop

/-- An empty span lies strictly inside another. -/
def Span.Splits (a b : Span) : Prop := a.start = a.stop ∧ b.start < a.start ∧ a.stop < b.stop

namespace Span

variable {a b : Span}

theorem Overlaps.symm (h : Overlaps a b) : Overlaps b a := ⟨h.2, h.1⟩

/-- **Spans overlap** when they have a character in common, or an empty one lies strictly inside the
other. -/
theorem overlaps_iff (ha : a.start ≤ a.stop) (hb : b.start ≤ b.stop) :
    Overlaps a b ↔ Shares a b ∨ Splits a b ∨ Splits b a := by
  constructor
  · rintro ⟨hab, hba⟩
    rcases Nat.eq_or_lt_of_le ha with ha | ha
    · exact .inr (.inl ⟨ha, by omega, by omega⟩)
    rcases Nat.eq_or_lt_of_le hb with hb | hb
    · exact .inr (.inr ⟨hb, by omega, by omega⟩)
    · exact .inl ⟨max a.start b.start, by omega, by omega⟩
  · rintro (⟨o, hoa, hob⟩ | ⟨hempty, hstart, hstop⟩ | ⟨hempty, hstart, hstop⟩)
    · exact ⟨by omega, by omega⟩
    · exact ⟨by omega, by omega⟩
    · exact ⟨by omega, by omega⟩

end Span

/-! ## Ranges moved into a document -/

namespace Document

/-- **A range moved into a document**: each end goes to the nearest place of the text. -/
def clamped (d : Document) (r : TextRange) : TextRange where
  start := d.lines.positionAt (d.lines.offsetAt r.start)
  stop := d.lines.positionAt (d.lines.offsetAt r.stop)
  start_le_stop := d.sound_lines.positionAt_le_positionAt
    (Int.ofNat_le.mpr (d.sound_lines.offsetAt_le_offsetAt r.start_le_stop))

/-- Offsets of a text are in the order of their positions. -/
theorem positionAt_lt_positionAt (d : Document) {a b : Nat} (ha : a ≤ d.lines.length) (hb : b ≤ d.lines.length) :
    d.lines.positionAt a < d.lines.positionAt b ↔ a < b := by
  rw [d.sound_lines.positionAt_lt_positionAt, LineTable.clamp_of_le ha, LineTable.clamp_of_le hb]

/-- **Ranges overlap in a document** when the offsets they stand on do. -/
theorem overlaps_clamped_iff (d : Document) (r s : TextRange) :
    (d.clamped r).overlaps (d.clamped s) = true ↔ Span.Overlaps (d.spanOf r) (d.spanOf s) := by
  have hinside (p : Position) : d.lines.offsetAt p ≤ d.lines.length := d.sound_lines.offsetAt_le_length p
  rw [TextRange.overlaps, decide_eq_true_eq]
  exact and_congr (d.positionAt_lt_positionAt (hinside _) (hinside _))
    (d.positionAt_lt_positionAt (hinside _) (hinside _))

theorem spanOf_start_le_stop (d : Document) (r : TextRange) : (d.spanOf r).start ≤ (d.spanOf r).stop :=
  d.sound_lines.offsetAt_le_offsetAt r.start_le_stop

end Document

/-! ## Batches that are refused -/

/-- Edits in order stand apart when they do not overlap, and only then. -/
theorem Placed.apart_iff {a b : Placed} (hle : a.le b = true) (hb : b.span.start ≤ b.span.stop) :
    a.span.stop ≤ b.span.start ↔ ¬ Span.Overlaps a.span b.span := by
  simp only [le, Bool.or_eq_true, Bool.and_eq_true, decide_eq_true_eq, beq_iff_eq] at hle
  rw [Span.Overlaps]
  omega

section Splicing

variable {α : Type} {read : Value → Option (List α)} {s : List α} {ps : List Placed} {a b : TextRange}

/-- Putting in what cannot be read is no overlap. -/
theorem spliceFrom_ne_overlap (offset : Nat) : spliceFrom read s offset ps ≠ .error (.overlap a b) := by
  induction ps generalizing offset with
  | nil => rintro ⟨⟩
  | cons p rest ih =>
    rw [spliceFrom]
    cases read p.edit.text with
    | none => rintro ⟨⟩
    | some cs =>
      dsimp only
      cases hmore : spliceFrom read s p.span.stop rest with
      | ok more => rintro ⟨⟩
      | error fault => exact fun h => ih p.span.stop (hmore.trans h)

/-- **Edits are refused for an overlap** when the check of neighbours finds one. -/
theorem exists_overlap_iff {β : Type} (f : List α → β) :
    (∃ a b, (splice read s ps).map f = .error (.overlap a b)) ↔ firstOverlap? ps ≠ none := by
  rw [splice]
  cases firstOverlap? ps with
  | some pair => exact iff_of_true ⟨_, _, rfl⟩ (Option.some_ne_none pair)
  | none =>
    refine iff_of_false ?_ fun h => h rfl
    rintro ⟨a, b, h⟩
    dsimp only at h
    cases hfrom : spliceFrom read s 0 ps with
    | ok t =>
      rw [hfrom] at h
      cases h
    | error fault =>
      rw [hfrom] at h
      exact spliceFrom_ne_overlap 0 (hfrom.trans (congrArg Except.error (Except.error.inj h)))

end Splicing

section Refused

variable {d : Document} {edits : List TextEdit}

/-- The check of neighbours passes when no two edits of the batch overlap, and only then. -/
theorem firstOverlap?_placed_eq_none :
    firstOverlap? (placed d edits) = none ↔
      edits.Pairwise fun e f => ¬ Span.Overlaps (d.spanOf e.range) (d.spanOf f.range) := by
  have hspan {p : Placed} (hp : p ∈ placed d edits) : p.span.start ≤ p.span.stop :=
    (located_inside ((placed_perm d edits).mem_iff.mp hp)).1
  have hsorted := pairwise_placed d edits
  calc firstOverlap? (placed d edits) = none
      ↔ (placed d edits).Pairwise fun a b => a.span.stop ≤ b.span.start :=
        ⟨fun h => pairwise_of_firstOverlap? h fun p => hspan, firstOverlap?_of_pairwise⟩
    _ ↔ (placed d edits).Pairwise fun a b => ¬ Span.Overlaps a.span b.span :=
        ⟨fun h => (hsorted.and h).imp_of_mem fun _ hb hab => (Placed.apart_iff hab.1 (hspan hb)).mp hab.2,
          fun h => (hsorted.and h).imp_of_mem fun _ hb hab => (Placed.apart_iff hab.1 (hspan hb)).mpr hab.2⟩
    _ ↔ (located d edits).Pairwise fun a b => ¬ Span.Overlaps a.span b.span :=
        (placed_perm d edits).pairwise_iff fun h => mt Span.Overlaps.symm h
    _ ↔ edits.Pairwise fun e f => ¬ Span.Overlaps (d.spanOf e.range) (d.spanOf f.range) := List.pairwise_map

/-- Two edits of a batch, at different places in the queue, are in a relation. -/
def SomePair (R : TextEdit → TextEdit → Prop) (edits : List TextEdit) : Prop :=
  ∃ (i j : Nat) (hi : i < edits.length) (hj : j < edits.length), i ≠ j ∧ R edits[i] edits[j]

theorem SomePair.congr {R S : TextEdit → TextEdit → Prop} (h : ∀ e f, R e f ↔ S e f) :
    SomePair R edits ↔ SomePair S edits := by
  simp only [SomePair, h]

theorem somePair_iff {R : TextEdit → TextEdit → Prop} (hsymm : ∀ e f, R e f → R f e) :
    SomePair R edits ↔ ¬ edits.Pairwise fun e f => ¬ R e f := by
  rw [List.pairwise_iff_getElem, SomePair]
  push Not
  constructor
  · rintro ⟨i, j, hi, hj, hne, h⟩
    rcases Nat.lt_or_gt_of_ne hne with hlt | hlt
    · exact ⟨i, j, hi, hj, hlt, h⟩
    · exact ⟨j, i, hj, hi, hlt, hsymm _ _ h⟩
  · rintro ⟨i, j, hi, hj, hlt, h⟩
    exact ⟨i, j, hi, hj, hlt.ne, h⟩

/-- **A batch is refused for an overlap exactly when two of its edits overlap**, whether the texts to be
put in hold halves of surrogate pairs or not: the ranges of the two, moved into the document, overlap,
or what is the same, the offsets they stand on share a character, or one of the two is empty and lies
strictly inside the other. -/
theorem tfae_refused (d : Document) (edits : List TextEdit) :
    [∃ a b, edited d edits = .error (.overlap a b),
      ∃ a b, editedText d edits = .error (.overlap a b),
      SomePair (fun e f => (d.clamped e.range).overlaps (d.clamped f.range) = true) edits,
      SomePair (fun e f => Span.Shares (d.spanOf e.range) (d.spanOf f.range) ∨
        Span.Splits (d.spanOf e.range) (d.spanOf f.range) ∨ Span.Splits (d.spanOf f.range) (d.spanOf e.range))
        edits].TFAE := by
  have hpair : firstOverlap? (placed d edits) ≠ none ↔
      SomePair (fun e f => Span.Overlaps (d.spanOf e.range) (d.spanOf f.range)) edits :=
    (not_congr firstOverlap?_placed_eq_none).trans (somePair_iff fun e f h => h.symm).symm
  have hranges := hpair.trans (SomePair.congr fun e f => (d.overlaps_clamped_iff e.range f.range).symm)
  have hspans := hpair.trans (SomePair.congr fun e f =>
    Span.overlaps_iff (d.spanOf_start_le_stop e.range) (d.spanOf_start_le_stop f.range))
  tfae_have 1 ↔ 3 := (exists_overlap_iff String.ofList).trans hranges
  tfae_have 2 ↔ 3 := (exists_overlap_iff LooseText.mk).trans hranges
  tfae_have 3 ↔ 4 := hranges.symm.trans hspans
  tfae_finish

end Refused

end SlotEdit
