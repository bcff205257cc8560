import SlotEdit.Text.Cursor

/-!
# Proofs/Text/Cursors — reading moves along one text

A cursor *reaches* another when that one stands no earlier in the same text: no character is passed
twice, and none is passed without being counted.  Every step of a reader keeps this.
-/

namespace SlotEdit.Cursor

/-- **A cursor further along** in the same text. -/
structure Reaches (c c' : Cursor) : Prop where
  suffix : c'.rest <:+ c.rest
  total : c'.offset + c'.rest.length = c.offset + c.rest.length

variable {a b c : Cursor}

theorem Reaches.offset_le (h : a.Reaches b) : a.offset ≤ b.offset := by
  have hle := h.suffix.length_le
  have htotal := h.total
  omega

@[grind .] theorem Reaches.refl (c : Cursor) : c.Reaches c := ⟨List.suffix_refl _, rfl⟩

@[grind →] theorem Reaches.trans (h : a.Reaches b) (k : b.Reaches c) : a.Reaches c :=
  ⟨k.suffix.trans h.suffix, k.total.trans h.total⟩

/-- **What a cursor of a text shows** stands in the text at its offset. -/
theorem Reaches.getElem?_offset {text : String} (h : (ofText text).Reaches c) : text.toList[c.offset]? = c.peek? := by
  obtain ⟨front, hfront⟩ := h.suffix
  have hlength : front.length = c.offset := by
    have htotal := h.total
    rw [← hfront, List.length_append] at htotal
    simp only [ofText] at htotal
    omega
  have htext : text.toList = front ++ c.rest := hfront.symm
  rw [peek?, List.head?_eq_getElem?, htext, ← hlength, List.getElem?_append_right (Nat.le_refl _), Nat.sub_self]

/-- Every cursor is one of some text. -/
theorem exists_reaches (c : Cursor) : ∃ text : String, (ofText text).Reaches c := by
  refine ⟨.ofList (List.replicate c.offset ' ' ++ c.rest), ?_, ?_⟩
  · rw [ofText, String.toList_ofList]
    exact List.suffix_append _ _
  · rw [ofText, String.toList_ofList, List.length_append, List.length_replicate, Nat.zero_add]

theorem reaches_drop (n : Nat) (c : Cursor) : c.Reaches (c.drop n) where
  suffix := List.drop_suffix n c.rest
  total := by
    simp only [drop, List.length_drop]
    omega

theorem reaches_skipWhile (p : Char → Bool) (c : Cursor) : c.Reaches (c.skipWhile p) :=
  ⟨List.dropWhile_suffix p, offset_skipWhile p c⟩

grind_pattern reaches_drop => c.drop n
grind_pattern reaches_skipWhile => c.skipWhile p

theorem reaches_skipMark (c : Cursor) : c.Reaches c.skipMark := by
  rw [skipMark]
  split
  · exact reaches_drop 1 c
  · exact Reaches.refl c

@[grind →] theorem reaches_of_accept? {expected : String} (h : a.accept? expected = some b) : a.Reaches b := by
  rw [accept?] at h
  split at h
  · exact Option.some.inj h ▸ reaches_drop _ a
  · cases h

/-- A cursor that a character follows moves when one is dropped. -/
theorem offset_lt_drop (h : c.rest ≠ []) {n : Nat} (hn : 0 < n) : c.offset < (c.drop n).offset :=
  Nat.lt_add_of_pos_right (Nat.lt_min.mpr ⟨hn, List.length_pos_iff.mpr h⟩)

end SlotEdit.Cursor
