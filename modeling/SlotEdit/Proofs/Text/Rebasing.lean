import SlotEdit.Proofs.Text.Conversions

/-!
# Proofs/Text/Rebasing — positions seen from another one

The position of an offset is where a walk over the text in front of it ends: a line feed opens a row,
any other character a column (`positionAt_eq_walk`).  A walk that begins at a position is, seen from
there, the walk that begins at `(0, 0)`, so positions made relative to one of a text are those of the
text behind it.  Re-basing keeps the order of all positions, and with it every relation of ranges
(`relativeTo_rebases`).
-/

namespace SlotEdit

namespace Position

/-! ## Walks over a text -/

/-- The position behind a character. -/
def advance (p : Position) (c : Char) : Position :=
  if c = '\n' then ⟨p.row + 1, 0⟩ else ⟨p.row, p.column + 1⟩

/-- **Where a walk over a text ends** that begins at a position. -/
def walk (p : Position) (s : List Char) : Position := s.foldl advance p

@[simp] theorem walk_nil (p : Position) : p.walk [] = p := rfl

theorem walk_cons (p : Position) (c : Char) (s : List Char) : p.walk (c :: s) = (p.advance c).walk s := rfl

theorem walk_append (p : Position) (s t : List Char) : p.walk (s ++ t) = (p.walk s).walk t :=
  List.foldl_append

theorem row_le_row_advance (p : Position) (c : Char) : p.row ≤ (p.advance c).row := by
  rw [advance]
  split <;> (dsimp only; omega)

/-! ## Seen from another position -/

variable {p q origin : Position}

@[simp] theorem relativeTo_self (p : Position) : p.relativeTo p = ⟨0, 0⟩ := by
  rw [relativeTo, if_pos rfl, Int.sub_self]

/-- A step is seen as the same step when its position is not above the origin. -/
theorem relativeTo_advance (h : origin.row ≤ p.row) (c : Char) :
    (p.advance c).relativeTo origin = (p.relativeTo origin).advance c := by
  rw [advance, advance]
  split
  · rw [relativeTo, if_neg (by dsimp only; omega), relativeTo]
    split <;> (rw [Position.mk.injEq]; dsimp only; omega)
  · rw [relativeTo, relativeTo]
    dsimp only
    split <;> (rw [Position.mk.injEq]; dsimp only; omega)

/-- A walk is seen as the same walk when it does not begin above the origin. -/
theorem relativeTo_walk (h : origin.row ≤ p.row) (s : List Char) :
    (p.walk s).relativeTo origin = (p.relativeTo origin).walk s := by
  induction s generalizing p with
  | nil => rfl
  | cons c s ih => rw [walk_cons, walk_cons, ← relativeTo_advance h, ih (h.trans (row_le_row_advance p c))]

/-- **Re-basing keeps the order of positions**, wherever they and the origin lie. -/
theorem relativeTo_le_relativeTo : p.relativeTo origin ≤ q.relativeTo origin ↔ p ≤ q := by
  rw [relativeTo, relativeTo]
  split <;> split <;> (rw [le_def, le_def]; dsimp only; omega)

theorem relativeTo_lt_relativeTo : p.relativeTo origin < q.relativeTo origin ↔ p < q :=
  lt_iff_lt_of_le_iff_le relativeTo_le_relativeTo

theorem relativeTo_inj : p.relativeTo origin = q.relativeTo origin ↔ p = q := by
  rw [le_antisymm_iff, le_antisymm_iff, relativeTo_le_relativeTo, relativeTo_le_relativeTo]

end Position

namespace TextRange

/-- A range as seen from an origin, its ends still in order. -/
def rebased (r : TextRange) (origin : Position) : TextRange :=
  ⟨r.start.relativeTo origin, r.stop.relativeTo origin, Position.relativeTo_le_relativeTo.mpr r.start_le_stop⟩

/-- **Every range can be re-based.** -/
theorem relativeTo_eq (r : TextRange) (origin : Position) : r.relativeTo origin = .ok (r.rebased origin) :=
  dif_pos _

end TextRange

/-! ## Positions of a text are ends of walks -/

/-- **Where a walk ends**: with the lines of a text that begin at or before an offset, `start` being where the
line of its first character begins, it ends in the last of them, as many rows further down as there are more. -/
theorem walk_take (s : List Char) {n offset start : Nat} (row : Int) (hn : n ≤ s.length) (hstart : start ≤ offset) :
    ∃ (front : List Nat) (last : Nat), (start :: lineStartsFrom offset s).takeWhile (· ≤ offset + n) = front ++ [last] ∧
      (⟨row, offset - start⟩ : Position).walk (s.take n) = ⟨row + front.length, (offset + n : Nat) - (last : Int)⟩ := by
  induction n generalizing s offset start row with
  | zero =>
    have hnone : (lineStartsFrom offset s).takeWhile (· ≤ offset + 0) = [] := by
      refine List.takeWhile_eq_nil_iff.mpr fun hpos hle => ?_
      have := (lt_of_mem_lineStartsFrom (List.get_mem _ ⟨0, hpos⟩)).1
      simp only [decide_eq_true_eq] at hle
      omega
    refine ⟨[], start, ?_, by simp⟩
    rw [List.takeWhile_cons_of_pos (by simpa using hstart), hnone, List.nil_append]
  | succ n ih =>
    cases s with
    | nil => cases hn
    | cons c s =>
      have hn : n ≤ s.length := Nat.le_of_succ_le_succ hn
      have hnext : offset + (n + 1) = offset + 1 + n := by omega
      rw [List.take_succ_cons, Position.walk_cons, Position.advance, lineStartsFrom, hnext]
      split
      · obtain ⟨front, last, hlines, hwalk⟩ := ih s (row + 1) hn (Nat.le_refl (offset + 1))
        refine ⟨start :: front, last, ?_, ?_⟩
        · rw [List.takeWhile_cons_of_pos (by simp; omega), hlines, List.cons_append]
        · rw [Int.sub_self] at hwalk
          rw [hwalk, List.length_cons, Int.natCast_add_one]
          exact Position.ext (by dsimp only; omega) rfl
      · obtain ⟨front, last, hlines, hwalk⟩ := ih s row hn (Nat.le_succ_of_le hstart)
        refine ⟨front, last, hlines, ?_⟩
        rw [← hwalk]
        exact congrArg (Position.walk · _) (Position.ext rfl (by dsimp only; omega))

/-- **The position of an offset** is where the walk over the text in front of it ends. -/
theorem LineTable.positionAt_eq_walk {s : List Char} {o : Nat} (h : o ≤ s.length) :
    (ofList s).positionAt o = (⟨0, 0⟩ : Position).walk (s.take o) := by
  obtain ⟨front, last, hlines, hwalk⟩ := walk_take s 0 h (Nat.le_refl 0)
  rw [Nat.zero_add] at hlines hwalk
  have hrow : (ofList s).rowAt o = front.length := by
    rw [rowAt, show (ofList s).starts = 0 :: lineStartsFrom 0 s from rfl, hlines, List.length_append,
      List.length_singleton, Nat.add_sub_cancel]
  have hstart : (ofList s).starts.getD front.length 0 = last := by
    rw [show (ofList s).starts = 0 :: lineStartsFrom 0 s from rfl,
      ← List.takeWhile_append_dropWhile (p := fun x => decide (x ≤ o)) (l := 0 :: lineStartsFrom 0 s), hlines]
    simp
  rw [positionAt, clamp_of_le (t := ofList s) h, hrow, hstart]
  exact (hwalk.trans (by rw [Int.zero_add])).symm

/-! ## The text behind an offset -/

/-- **Re-basing.**  The position of an offset, made relative to that of an earlier one, is its position in the
text behind the earlier one.  Seen from any origin, positions keep their order, also where they or the origin
lie outside every text; so every range can be re-based, and is empty, holds a position or a range, or overlaps
one, just when it does so seen from the origin. -/
theorem relativeTo_rebases (text : String) (origin : Position) :
    (∀ a b : Nat, a ≤ b → b ≤ text.length →
      ((LineTable.ofText text).positionAt b).relativeTo ((LineTable.ofText text).positionAt a) =
        (LineTable.ofText (slice text a text.length)).positionAt (b - a)) ∧
    (∀ p q : Position, (p.relativeTo origin ≤ q.relativeTo origin ↔ p ≤ q) ∧
      (p.relativeTo origin < q.relativeTo origin ↔ p < q)) ∧
    ∀ r : TextRange, ∃ r', r.relativeTo origin = .ok r' ∧ r'.isEmpty = r.isEmpty ∧
      (∀ p : Position, r'.containsPosition (p.relativeTo origin) = r.containsPosition p) ∧
      ∀ s s', s.relativeTo origin = .ok s' → r'.contains s' = r.contains s ∧ r'.overlaps s' = r.overlaps s := by
  refine ⟨fun a b hab hb => ?_, fun p q => ⟨Position.relativeTo_le_relativeTo, Position.relativeTo_lt_relativeTo⟩,
    fun r => ⟨r.rebased origin, r.relativeTo_eq origin, ?_, fun p => ?_, fun s s' hs => ?_⟩⟩
  · have hb : b ≤ text.toList.length := String.length_toList ▸ hb
    have hbehind : (slice text a text.length).toList = text.toList.drop a := by
      rw [toList_slice, sliceList, ← String.length_toList, ← List.length_drop, List.take_length]
    have hba : b - a ≤ (text.toList.drop a).length := by
      rw [List.length_drop]
      exact Nat.sub_le_sub_right hb a
    -- The walk to `b` is the walk to `a` and, from there, the one over what stands between them.
    rw [LineTable.ofText, LineTable.ofText, hbehind, LineTable.positionAt_eq_walk hb,
      LineTable.positionAt_eq_walk (hab.trans hb), ← Int.ofNat_sub hab, LineTable.positionAt_eq_walk hba,
      ← take_append_sliceList text.toList hab, Position.walk_append,
      Position.relativeTo_walk (Int.le_refl _), Position.relativeTo_self, sliceList]
  · exact decide_eq_decide.mpr Position.relativeTo_inj
  · exact decide_eq_decide.mpr (and_congr Position.relativeTo_le_relativeTo Position.relativeTo_le_relativeTo)
  · cases (s.relativeTo_eq origin).symm.trans hs
    exact ⟨decide_eq_decide.mpr (and_congr Position.relativeTo_le_relativeTo Position.relativeTo_le_relativeTo),
      decide_eq_decide.mpr (and_congr Position.relativeTo_lt_relativeTo Position.relativeTo_lt_relativeTo)⟩

end SlotEdit
