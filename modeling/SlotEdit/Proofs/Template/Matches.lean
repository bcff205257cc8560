import SlotEdit.Proofs.Regex.LookArounds
import SlotEdit.Proofs.Template.Faithful

/-!
# Proofs/Template/Matches — a slot of a match is a piece of it

A template of a regular expression gives each match the slots of its groups.  The slot of a group that
stands in no look-around is a piece of the match (`Subject.exists_piece`), so whatever it is given, the
document around the match stays as it is (`slot_within_match`).
-/

namespace SlotEdit

variable {d : Document}

/-- The range of a piece is contained in the range of what it is a piece of. -/
theorem Document.contains_rangeOf (d : Document) {a a' b' b : Nat} (ha : a ≤ a') (hab : a' ≤ b') (hb : b' ≤ b) :
    (d.lines.rangeOf a b).contains (d.lines.rangeOf a' b') = true := by
  have hmono {m n : Nat} (h : m ≤ n) : d.lines.positionAt m ≤ d.lines.positionAt n :=
    d.sound_lines.positionAt_le_positionAt (Int.ofNat_le.mpr h)
  rw [LineTable.rangeOf, LineTable.rangeOf, TextRange.between_of_le (hmono (ha.trans (hab.trans hb))),
    TextRange.between_of_le (hmono hab)]
  exact decide_eq_true ⟨hmono ha, hmono hb⟩

/-- **A piece of a fragment**: the document is cut into what stands in front of the fragment, the fragment's
own text with the piece in it, and what stands behind. -/
structure Fragment.Piece (d : Document) (f : Fragment) (range : TextRange) (raw before left right behind : String) :
    Prop where
  contains : f.range.contains range = true
  text : f.text = left ++ raw ++ right
  content : d.content = before ++ f.text ++ behind
  span : d.spanOf f.range = ⟨before.length, before.length + f.text.length⟩
  piece : d.spanOf range = ⟨before.length + left.length, before.length + left.length + raw.length⟩

/-- **An edit of a piece** puts its text between the parts of the fragment that it leaves. -/
theorem Fragment.Piece.edited {f : Fragment} {range : TextRange} {raw before left right behind text : String}
    (h : f.Piece d range raw before left right behind) {e : TextEdit} (hrange : e.range = range)
    (htext : e.text = .str text) : edited d [e] = .ok (before ++ (left ++ text ++ right) ++ behind) := by
  have hcontent : d.content.toList = (before ++ left).toList ++ raw.toList ++ (right ++ behind).toList := by
    rw [h.content, h.text]
    simp only [String.toList_append, List.append_assoc]
  rw [edited_singleton htext ?_ hcontent]
  · simp only [← String.toList_append, String.ofList_toList, String.append_assoc]
  · rw [hrange, h.piece, String.length_toList, String.length_toList, String.length_append]

/-- The offsets of a piece, as the texts around it. -/
theorem Fragment.exists_piece {f : Fragment} {a a' b' b : Nat} (hrange : f.range = d.lines.rangeOf a b)
    (htext : f.text = slice d.content a b) (ha : a ≤ a') (hab : a' ≤ b') (hb : b' ≤ b) (hlength : b ≤ d.content.length) :
    ∃ before left right behind, f.Piece d (d.lines.rangeOf a' b') (slice d.content a' b') before left right behind := by
  rw [← String.length_toList] at hlength
  have hall : a ≤ b := ha.trans (hab.trans hb)
  have hslice {m n : Nat} (hmn : m ≤ n) (hn : n ≤ d.content.toList.length) : (slice d.content m n).length = n - m := by
    rw [slice, String.length_ofList, length_sliceList _ hn]
  have hbefore : (String.ofList (d.content.toList.take a)).length = a := by
    rw [String.length_ofList, List.length_take_of_le (hall.trans hlength)]
  refine ⟨.ofList (d.content.toList.take a), slice d.content a a', slice d.content b' b,
    .ofList (d.content.toList.drop b), hrange ▸ d.contains_rangeOf ha hab hb, ?_, ?_, ?_, ?_⟩
  · rw [htext, ← String.toList_inj]
    simp only [String.toList_append, toList_slice]
    have hdrop {m n : Nat} (hmn : m ≤ n) (hnb : n ≤ b) :
        sliceList d.content.toList m n ++ sliceList d.content.toList n b = sliceList d.content.toList m b := by
      refine @List.append_cancel_right _ _ (d.content.toList.drop b) _ ?_
      rw [List.append_assoc, sliceList_append_drop _ hnb, sliceList_append_drop _ hmn, sliceList_append_drop _ (hmn.trans hnb)]
    rw [List.append_assoc, hdrop hab hb, hdrop ha (hab.trans hb)]
  · rw [htext, ← String.toList_inj]
    simp only [String.toList_append, toList_slice, String.toList_ofList]
    rw [take_append_sliceList _ hall, List.take_append_drop]
  · rw [hrange, d.spanOf_rangeOf hall hlength, hbefore, htext, hslice hall hlength, Nat.add_sub_cancel' hall]
  · rw [d.spanOf_rangeOf hab (hb.trans hlength), hbefore, hslice ha ((hab.trans hb).trans hlength),
      hslice hab (hb.trans hlength), Nat.add_sub_cancel' ha, Nat.add_sub_cancel' hab]

/-! ## Slots of matches -/

/-- **The slot of a group that stands in no look-around** is a piece of its match. -/
theorem Subject.exists_piece [Interpreter] {finder : Regex.Finder} {spec : SlotSpecification} {bound : List Bound}
    {b : Bound} {s : Slot}
    (h : (Subject.groups finder).bound spec d = .ok bound) (hb : b ∈ bound) (hs : s ∈ b.slots)
    (hlooked : ¬finder.expression.Looked s.key) :
    ∃ before left right behind, b.fragment.Piece d s.range s.raw before left right behind := by
  obtain rfl := Except.ok.inj h
  obtain ⟨f, hf, rfl⟩ := List.mem_map.mp hb
  obtain ⟨⟨key, v⟩, -, hs⟩ := List.mem_filterMap.mp hs
  obtain ⟨g, hg, rfl⟩ := Option.map_eq_some_iff.mp hs
  rw [Fragment.group?] at hg
  obtain rfl : g.name = key := by simpa using List.find?_some hg
  have hmem : g ∈ f.groups := List.mem_of_find?_eq_some hg
  rw [Regex.Finder.fragments] at hf
  split at hf
  · cases hf
  · obtain ⟨m, hm, rfl⟩ := List.mem_map.mp hf
    obtain ⟨group, hgroup, rfl⟩ := List.mem_map.mp hmem
    have hscan : Regex.Scan finder.expression d.content.toList.toArray 0 (finder.findAll d.content) :=
      Regex.scan_findAllFrom (by rw [Nat.zero_add])
    have hlength : m.span.stop ≤ d.content.length := String.length_toList ▸ (hscan.inside m hm).2.2
    obtain ⟨hstart, hstop⟩ := Regex.inside_of_mem_findAll hm hgroup hlooked
    exact Fragment.exists_piece rfl rfl hstart (Regex.within_of_mem_findAll hm hgroup).1 hstop hlength

/-- **A slot stays inside its match** when its group stands in no look-around: its range is contained in that of
the fragment, and whatever it is given, an edit that can be applied puts a text in its place and leaves all that
stands in front of the fragment and behind it. -/
theorem slot_within_match [Interpreter] {t t' : Template} {finder : Regex.Finder}
    (hsubject : t.subject = .groups finder)
    (hcompute : t.compute d = .ok t') {h : Handle} {b : Bound} (hb : t'.boundOf h = .ok b) {key : String} {s : Slot}
    (hs : Template.findSlot? b.slots key = some s) (hlooked : ¬finder.expression.Looked key) :
    b.fragment.range.contains s.range = true ∧
    ∃ before left right behind, d.content = before ++ b.fragment.text ++ behind ∧ b.fragment.text = left ++ s.raw ++ right ∧
      d.spanOf b.fragment.range = ⟨before.length, before.length + b.fragment.text.length⟩ ∧
      ∀ v edit, t'.commit h key v = .ok edit → ∀ {ω : Type} (e : Editor ω), e.document = d → e.pending = [] →
        (∀ text, edit.text = .str text → ∃ e' applied, (e.add edit).apply = .ok (e', applied) ∧
          e'.document = d.withContent (before ++ (left ++ text ++ right) ++ behind)) ∧
        ∀ e' applied, (e.add edit).apply = .ok (e', applied) → ∃ text, edit.text = .str text := by
  have hslot : t'.slotOf h key = .ok (some s) := by
    rw [Template.slotOf, Template.slotsOf, hb]
    exact congrArg _ hs
  have hcommit (v : Value) := (Template.commit_of_slotOf hcompute hslot v).2
  rw [Template.findSlot?] at hs
  have hmem : s ∈ b.slots := List.mem_of_find?_eq_some hs
  obtain rfl : s.key = key := by simpa using List.find?_some hs
  obtain ⟨bound, hbound, rfl⟩ := Template.compute_eq_ok_iff.mp hcompute
  rw [hsubject] at hbound
  obtain ⟨before, left, right, behind, hpiece⟩ := Subject.exists_piece hbound (Template.mem_of_boundOf hb) hmem hlooked
  refine ⟨hpiece.contains, before, left, right, behind, hpiece.content, hpiece.text, hpiece.span,
    fun v edit hedit ω e hd hpending => ?_⟩
  subst hd
  -- the edit stands on the slot, whatever its value is written as
  have hrange : edit.range = s.range := by
    obtain ⟨written, -, heq⟩ := map_eq_ok.mp (mapError_eq_ok.mp ((hcommit v).symm.trans hedit))
    exact heq ▸ rfl
  refine ⟨fun text htext => ⟨_, _, Template.apply_add hpending (hpiece.edited hrange htext), rfl⟩,
    fun e' applied happly => ?_⟩
  exact exists_text_of_edited (Editor.edited_of_apply happly).1 _ (List.mem_append_right _ List.mem_cons_self)

/-- A group between two look-arounds, one of which looks at a group of its own. -/
theorem slot_within_match_between : ∃ (finder : Regex.Finder) (t' : Template) (d : Document) (b : Bound) (s : Slot),
    Regex.Finder.ofPattern "(?<=(?P<u>a))b(?P<v>c+)(?=d)" [] = .ok finder ∧ finder.expression.Looked "u" ∧
    (Template.ofSubject (.groups finder) [("v", .text)] (.named "pieces")).compute d = .ok t' ∧
    t'.boundOf ⟨1, 0⟩ = .ok b ∧ Template.findSlot? b.slots "v" = some s ∧
    d.content = "abccd" ∧ b.fragment.text = "bcc" ∧ s.raw = "cc" ∧ b.fragment.range.contains s.range = true := by
  let pattern := "(?<=(?P<u>a))b(?P<v>c+)(?=d)"
  let d : Document := ⟨"abccd", ⟨"Plain text", "plaintext", "txt", none⟩⟩
  have hlooked : (Regex.Finder.ofPattern pattern []).toOption.map (fun finder =>
      (decide (finder.expression.Looked "u"), decide (finder.expression.Looked "v"))) = some (true, false) := by
    decide +kernel
  have hread : (Regex.Finder.ofPattern pattern []).toOption.map (fun finder => (finder.fragments d).map fun f =>
      (f.text, (f.group? "v").map MatchedGroup.value)) = some [("bcc", some "cc")] := by decide +kernel
  cases hfinder : Regex.Finder.ofPattern pattern [] with
  | error fault => rw [hfinder] at hlooked; cases hlooked
  | ok finder =>
    rw [hfinder] at hlooked hread
    obtain ⟨hu, hv⟩ := Prod.mk.inj (Option.some.inj hlooked)
    obtain ⟨f, hf, hpair⟩ := List.map_eq_singleton_iff.mp (Option.some.inj hread)
    obtain ⟨htext, hgroup⟩ := Prod.mk.inj hpair
    obtain ⟨g, hg, hvalue⟩ := Option.map_eq_some_iff.mp hgroup
    let t : Template := .ofSubject (.groups finder) [("v", .text)] (.named "pieces")
    let b : Bound := ⟨f, [⟨"v", g.value, g.range, .text⟩]⟩
    have hbound : (Subject.groups finder).bound [("v", .text)] d = .ok [b] := by
      simp [Subject.bound, hf, hg, b]
    let t' : Template := { t with pass := 1, document := some d, bound := [b] }
    have hcompute : t.compute d = .ok t' := Template.compute_eq_ok_iff.mpr ⟨_, hbound, rfl⟩
    have hb : t'.boundOf ⟨1, 0⟩ = .ok b := rfl
    exact ⟨finder, t', d, b, _, rfl, of_decide_eq_true hu, hcompute, hb, rfl, rfl, htext, hvalue,
      (slot_within_match rfl hcompute hb rfl (of_decide_eq_false hv)).1⟩

end SlotEdit
