import Mathlib
import SlotEdit.Document
import SlotEdit.Proofs.Text.Offsets

/-!
# Proofs/Text/Conversions — positions are ordered as the offsets they stand for

Positions form a linear order.  Offsets and positions of a text convert into each other without
changing the order, and each way back is the identity on what lies in the text
(`Document.positionAt_and_offsetAt`).  So the text in the range of two offsets is the one between
them (`Document.contentIn_of_positions`).
-/

namespace SlotEdit

instance Position.instLinearOrder : LinearOrder Position where
  le_refl := le_refl
  le_trans _ _ _ := le_trans
  le_antisymm _ _ := le_antisymm
  le_total := le_total
  lt_iff_le_not_ge p q := by rw [lt_def, le_def, le_def]; omega
  toDecidableLE := inferInstance
  toDecidableEq := inferInstance
  toDecidableLT := inferInstance

namespace LineTable

variable {t : LineTable}

/-- **A position that leads back to itself** is the position of an offset. -/
theorem Sound.positionAt_offsetAt_iff (h : t.Sound) {p : Position} :
    t.positionAt (t.offsetAt p) = p ↔ p ∈ Set.range t.positionAt := by
  refine ⟨fun heq => ⟨_, heq⟩, ?_⟩
  rintro ⟨o, rfl⟩
  rw [h.offsetAt_positionAt, positionAt_clamp]

/-- Two offsets in order have a range. -/
theorem Sound.rangeOfOffsets_of_le (h : t.Sound) {a b : Int} (hab : a ≤ b) :
    t.rangeOfOffsets a b = .ok ⟨t.positionAt a, t.positionAt b, h.positionAt_le_positionAt hab⟩ := by
  rw [rangeOfOffsets, if_neg (Int.not_lt.mpr hab)]
  exact dif_pos _

/-- **Only reversed offsets have no range.** -/
theorem Sound.rangeOfOffsets_eq_error (h : t.Sound) {a b : Int} {fault : RangeFault} :
    t.rangeOfOffsets a b = .error fault ↔ b < a ∧ fault = .startAfterEnd a b := by
  rcases Int.lt_or_le b a with hlt | hle
  · rw [rangeOfOffsets, if_pos hlt, Except.error.injEq, eq_comm]
    exact (and_iff_right hlt).symm
  · rw [h.rangeOfOffsets_of_le hle]
    exact iff_of_false nofun fun hlt => absurd hlt.1 (Int.not_lt.mpr hle)

end LineTable

namespace Document

/-- The text in a range is what stands between the offsets of its ends. -/
theorem contentIn_eq (d : Document) (r : TextRange) :
    d.contentIn r = slice d.content (d.lines.offsetAt r.start) (d.lines.offsetAt r.stop) := rfl

/-- **The text in the range of two positions** of offsets is what stands between these. -/
theorem contentIn_of_positions (d : Document) {r : TextRange} {a b : Nat}
    (hstart : r.start = d.lines.positionAt a) (hstop : r.stop = d.lines.positionAt b)
    (hb : b ≤ d.content.toList.length) (hab : a ≤ b) : d.contentIn r = slice d.content a b := by
  have hsound : d.lines.Sound := LineTable.sound_ofList _
  rw [contentIn_eq, hstart, hstop, hsound.offsetAt_positionAt, hsound.offsetAt_positionAt,
    LineTable.clamp_of_le (t := d.lines) hb, LineTable.clamp_of_le (t := d.lines) (hab.trans hb)]

end Document

/-- **Offsets and positions of a text convert into each other.**  The position of an offset leads back to it,
moved into the text; both ways keep the order, and offsets in the text are told apart; a position leads back
to itself just when it is that of an offset.  So only reversed offsets have no range, and the text in the
range of two offsets is the one between them. -/
theorem Document.positionAt_and_offsetAt (d : Document) :
    (∀ o : Int, (d.lines.offsetAt (d.lines.positionAt o) : Int) = max 0 (min o d.content.length)) ∧
    Monotone d.lines.positionAt ∧
    StrictMonoOn d.lines.positionAt (Set.Icc 0 (d.content.length : Int)) ∧
    Monotone d.lines.offsetAt ∧
    (∀ p, d.lines.positionAt (d.lines.offsetAt p) = p ↔ p ∈ Set.range d.lines.positionAt) ∧
    (∀ (a b : Int) fault, d.lines.rangeOfOffsets a b = .error fault ↔ b < a ∧ fault = .startAfterEnd a b) ∧
    ∀ a b : Nat, a ≤ b → b ≤ d.content.length →
      ∃ r, d.lines.rangeOfOffsets a b = .ok r ∧ d.contentIn r = slice d.content a b := by
  have hsound : d.lines.Sound := LineTable.sound_ofList _
  have hlength : d.lines.length = d.content.length := String.length_toList
  refine ⟨fun o => ?_, fun a b => hsound.positionAt_le_positionAt, fun a ha b hb hab => ?_,
    fun p q => hsound.offsetAt_le_offsetAt, fun p => hsound.positionAt_offsetAt_iff,
    fun a b fault => hsound.rangeOfOffsets_eq_error, fun a b hab hb => ?_⟩
  · rw [hsound.offsetAt_positionAt, LineTable.clamp, hlength]
    omega
  · have ha := ha.1
    have hb := hb.2
    rw [hsound.positionAt_lt_positionAt, LineTable.clamp, LineTable.clamp, hlength]
    omega
  · exact ⟨_, hsound.rangeOfOffsets_of_le (Int.ofNat_le.mpr hab),
      d.contentIn_of_positions rfl rfl (String.length_toList ▸ hb) hab⟩

end SlotEdit
