import Mathlib
import SlotEdit.Edit.Editor
import SlotEdit.Proofs.Results
import SlotEdit.Proofs.Text.Offsets
import SlotEdit.Proofs.Sorting

/-!
# Proofs/Edit/Splicing — a batch is its edits, one at a time from the last to the first

Applying a batch cuts the text once and never edits an edited text.  What comes out is what
splicing the edits in one by one gives, the last one first (`foldr_splice`, `toList_of_edited`):
behind the cursor the text is still the old one, so no splice moves the place of the next.
`Precedes` is the order in which the edits stand; `weave` lists what is kept and what is put in.

When every edit of a batch either puts a text in at one point or starts before that point, the
insertions come last and keep the order of the queue (`placed_eq_append`), and together they put in
their texts one after another (`foldr_insertions`).
-/

namespace SlotEdit

namespace Placed

/-- The text an edit puts in; none when its value is no text. -/
def chars (p : Placed) : List Char :=
  match p.edit.text with
  | .str s => s.toList
  | _ => []

/-- **One edit on its own**: its text in the place of its span. -/
def splice (p : Placed) (s : List Char) : List Char :=
  s.take p.span.start ++ p.chars ++ s.drop p.span.stop

/-- An edit that stands on a piece of a text puts its own in the place of the piece. -/
theorem splice_append {p : Placed} {a b c : List Char} (h : p.span = ⟨a.length, a.length + b.length⟩) :
    p.splice (a ++ b ++ c) = a ++ p.chars ++ c := by
  rw [splice, h, List.append_assoc a b c, List.take_left, ← List.append_assoc a b c, ← List.length_append,
    List.drop_left]

/-- The characters of a text that an edit takes away. -/
def cut (s : List Char) (p : Placed) : List Char := sliceList s p.span.start p.span.stop

end Placed

/-- Edits of a text stand in order: each is a span of the text, and none starts before an earlier
one ends. -/
structure InOrder (length : Nat) (ps : List Placed) : Prop where
  apart : ps.Pairwise fun a b => a.span.stop ≤ b.span.start
  inside : ∀ p ∈ ps, p.span.start ≤ p.span.stop ∧ p.span.stop ≤ length

theorem InOrder.tail {n : Nat} {p : Placed} {ps : List Placed} (h : InOrder n (p :: ps)) :
    InOrder n ps :=
  ⟨h.apart.of_cons, fun q hq => h.inside q (List.mem_cons_of_mem p hq)⟩

theorem InOrder.stop_le_start {n : Nat} {p q : Placed} {ps : List Placed}
    (h : InOrder n (p :: ps)) (hq : q ∈ ps) : p.span.stop ≤ q.span.start :=
  (List.pairwise_cons.mp h.apart).1 q hq

/-! ## What is kept between the edits -/

/-- The pieces of a text, from an offset on, that no edit takes away: before, between and behind
the edits. -/
def gaps (s : List Char) (offset : Nat) : List Placed → List (List Char)
  | [] => [s.drop offset]
  | p :: rest => sliceList s offset p.span.start :: gaps s p.span.stop rest

/-- Gaps with one piece between each two. -/
def weave : List (List Char) → List (List Char) → List Char
  | gap :: gaps, piece :: pieces => gap ++ piece ++ weave gaps pieces
  | gaps, _ => gaps.flatten

/-- **The gaps and what is cut are the old text.** -/
theorem weave_gaps_cut {s : List Char} {ps : List Placed} (h : InOrder s.length ps) {offset : Nat}
    (ho : ∀ p ∈ ps, offset ≤ p.span.start) :
    weave (gaps s offset ps) (ps.map (Placed.cut s)) = s.drop offset := by
  induction ps generalizing offset with
  | nil => simp [gaps, weave]
  | cons p rest ih =>
    have hp := h.inside p List.mem_cons_self
    rw [gaps, List.map_cons, weave, ih h.tail fun q hq => h.stop_le_start hq, List.append_assoc,
      Placed.cut, sliceList_append_drop s hp.1, sliceList_append_drop s (ho p List.mem_cons_self)]

/-! ## Splicing from the last to the first -/

/-- **The cursor invariant of a batch**: once the edits behind an offset are in, the text before it
is still the old one, and the edits' texts stand between the gaps. -/
theorem foldr_splice {s : List Char} {ps : List Placed} (h : InOrder s.length ps) {offset : Nat}
    (ho : ∀ p ∈ ps, offset ≤ p.span.start) :
    ps.foldr Placed.splice s = s.take offset ++ weave (gaps s offset ps) (ps.map Placed.chars) := by
  induction ps generalizing offset with
  | nil => simp [gaps, weave]
  | cons p rest ih =>
    have hp := h.inside p List.mem_cons_self
    have hstart := ho p List.mem_cons_self
    have hlen : (s.take p.span.stop).length = p.span.stop := List.length_take_of_le hp.2
    have hkept : (s.take p.span.stop).take p.span.start = s.take p.span.start := by
      rw [List.take_take, Nat.min_eq_left hp.1]
    rw [List.foldr_cons, ih h.tail fun q hq => h.stop_le_start hq, Placed.splice,
      List.take_append_of_le_length (by omega), hkept, ← take_append_sliceList s hstart,
      List.drop_append_of_le_length (by omega), List.drop_eq_nil_of_le (Nat.le_of_eq hlen),
      List.nil_append, gaps, List.map_cons, weave]
    simp only [List.append_assoc]

theorem Value.chars?_eq_some {v : Value} {cs : List Char} : v.chars? = some cs ↔ v = .str (String.ofList cs) := by
  constructor
  · intro h
    cases v with
    | str s => rw [← Option.some.inj h, String.ofList_toList]
    | _ => cases h
  · rintro rfl
    rw [chars?, String.toList_ofList]

theorem Placed.chars_of_chars? {p : Placed} {cs : List Char} (h : p.edit.text.chars? = some cs) : p.chars = cs := by
  rw [chars, Value.chars?_eq_some.mp h]
  exact String.toList_ofList

/-- What cutting a text gives, behind the first edit. -/
theorem spliceFrom_cons_eq_ok {α : Type} {read : Value → Option (List α)} {s t : List α} {p : Placed}
    {rest : List Placed} {offset : Nat} :
    spliceFrom read s offset (p :: rest) = .ok t ↔
      ∃ cs more, read p.edit.text = some cs ∧ spliceFrom read s p.span.stop rest = .ok more ∧
        t = sliceList s offset p.span.start ++ cs ++ more := by
  rw [spliceFrom]
  cases read p.edit.text with
  | none => exact ⟨fun h => (nomatch h), fun ⟨_, _, h, _⟩ => nomatch h⟩
  | some cs =>
    simp only [bind_eq_ok, pure_eq_ok, Option.some.injEq, exists_and_left, exists_eq_left', eq_comm (b := t)]

/-- Cutting the text once weaves the edits' texts into its gaps. -/
theorem spliceFrom_eq_ok {s t : List Char} {ps : List Placed} {offset : Nat}
    (h : spliceFrom Value.chars? s offset ps = .ok t) :
    t = weave (gaps s offset ps) (ps.map Placed.chars) := by
  induction ps generalizing offset t with
  | nil =>
    rw [spliceFrom] at h
    injection h with h
    simp [gaps, weave, h]
  | cons p rest ih =>
    obtain ⟨cs, more, hcs, hmore, rfl⟩ := spliceFrom_cons_eq_ok.mp h
    rw [gaps, List.map_cons, weave, ← ih hmore, Placed.chars_of_chars? hcs]

/-- Only texts are put in. -/
theorem exists_text_of_spliceFrom {s t : List Char} {ps : List Placed} {offset : Nat}
    (h : spliceFrom Value.chars? s offset ps = .ok t) : ∀ p ∈ ps, ∃ text, p.edit.text = .str text := by
  induction ps generalizing offset t with
  | nil => exact fun p hp => nomatch hp
  | cons p rest ih =>
    obtain ⟨cs, more, hcs, hmore, -⟩ := spliceFrom_cons_eq_ok.mp h
    exact List.forall_mem_cons.mpr ⟨⟨_, Value.chars?_eq_some.mp hcs⟩, ih hmore⟩

/-- Edits that all put in texts are put in. -/
theorem exists_spliceFrom {ps : List Placed} (h : ∀ p ∈ ps, ∃ text, p.edit.text = .str text) (s : List Char)
    (offset : Nat) : ∃ t, spliceFrom Value.chars? s offset ps = .ok t := by
  induction ps generalizing offset with
  | nil => exact ⟨_, rfl⟩
  | cons p rest ih =>
    rw [List.forall_mem_cons] at h
    obtain ⟨text, htext⟩ := h.1
    obtain ⟨more, hmore⟩ := ih h.2 p.span.stop
    exact ⟨_, spliceFrom_cons_eq_ok.mpr ⟨text.toList, more, by rw [htext, Value.chars?], hmore, rfl⟩⟩

/-! ## The edits of a batch, placed -/

section Batch

variable {d : Document} {edits : List TextEdit}

/-- The edits of a batch with their offsets, as they were queued. -/
def located (d : Document) (edits : List TextEdit) : List Placed :=
  edits.map fun e => ⟨⟨d.lines.offsetAt e.range.start, d.lines.offsetAt e.range.stop⟩, e⟩

theorem Document.sound_lines (d : Document) : d.lines.Sound := LineTable.sound_ofList _

theorem Placed.le_trans (a b c : Placed) : Placed.le a b → Placed.le b c → Placed.le a c := by
  simp only [Placed.le, Bool.or_eq_true, Bool.and_eq_true, decide_eq_true_eq, beq_iff_eq]
  omega

theorem Placed.le_total (a b : Placed) : (Placed.le a b || Placed.le b a) = true := by
  simp only [Placed.le, Bool.or_eq_true, Bool.and_eq_true, decide_eq_true_eq, beq_iff_eq]
  omega

theorem placed_perm (d : Document) (edits : List TextEdit) : (placed d edits).Perm (located d edits) :=
  List.mergeSort_perm _ _

theorem pairwise_placed (d : Document) (edits : List TextEdit) :
    (placed d edits).Pairwise fun a b => Placed.le a b :=
  List.pairwise_mergeSort Placed.le_trans Placed.le_total _

/-- **Edits at one place keep the order of the queue**, and so do those that pass a test which only edits
at one place pass. -/
theorem filter_placed_of_span {P : Placed → Bool}
    (h : ∀ a ∈ located d edits, ∀ b ∈ located d edits, P a = true → P b = true → a.span = b.span) :
    (placed d edits).filter P = (located d edits).filter P :=
  filter_mergeSort Placed.le_trans Placed.le_total fun a ha b hb hPa hPb => by
    rw [Placed.le, h a ha b hb hPa hPb]
    simp

/-- Every edit of a batch stands on a span of the text, wherever its range lies. -/
theorem located_inside {p : Placed} (h : p ∈ located d edits) :
    p.span.start ≤ p.span.stop ∧ p.span.stop ≤ d.content.toList.length := by
  obtain ⟨e, -, rfl⟩ := List.mem_map.mp h
  exact ⟨d.sound_lines.offsetAt_le_offsetAt e.range.start_le_stop,
    d.sound_lines.offsetAt_le_length e.range.stop⟩

/-- Edits no two of which stand on characters between them in the wrong order pass the check of
neighbours, and then all pairs do. -/
theorem pairwise_of_firstOverlap? {ps : List Placed} (h : firstOverlap? ps = none)
    (hspan : ∀ p ∈ ps, p.span.start ≤ p.span.stop) :
    ps.Pairwise fun a b => a.span.stop ≤ b.span.start := by
  induction ps with
  | nil => exact List.Pairwise.nil
  | cons a rest ih =>
    cases rest with
    | nil => exact List.pairwise_singleton _ _
    | cons b rest =>
      rw [firstOverlap?] at h
      split at h
      · cases h
      · next hab =>
        have hrest := ih h fun p hp => hspan p (List.mem_cons_of_mem a hp)
        refine List.pairwise_cons.mpr ⟨fun c hc => ?_, hrest⟩
        rcases List.mem_cons.mp hc with rfl | hc
        · omega
        · have hb := hspan b (List.mem_cons_of_mem a List.mem_cons_self)
          have hbc := (List.pairwise_cons.mp hrest).1 c hc
          omega

theorem firstOverlap?_of_pairwise {ps : List Placed}
    (h : ps.Pairwise fun a b => a.span.stop ≤ b.span.start) : firstOverlap? ps = none := by
  induction ps with
  | nil => rfl
  | cons a rest ih =>
    cases rest with
    | nil => rfl
    | cons b rest =>
      have hab := (List.pairwise_cons.mp h).1 b List.mem_cons_self
      rw [firstOverlap?, if_neg (by omega), ih h.of_cons]

/-- A text is cut when no edit starts before another ends. -/
theorem splice_eq_ok {α : Type} {read : Value → Option (List α)} {s t : List α} {ps : List Placed} :
    SlotEdit.splice read s ps = .ok t ↔ firstOverlap? ps = none ∧ spliceFrom read s 0 ps = .ok t := by
  rw [SlotEdit.splice]
  cases firstOverlap? ps with
  | none => simp only [true_and]
  | some ab => exact ⟨fun h => (nomatch h), fun h => nomatch h.1⟩

theorem edited_eq_ok {content : String} :
    edited d edits = .ok content ↔ firstOverlap? (placed d edits) = none ∧
      spliceFrom Value.chars? d.content.toList 0 (placed d edits) = .ok content.toList := by
  rw [edited, map_eq_ok, ← splice_eq_ok]
  constructor
  · rintro ⟨t, ht, rfl⟩
    rwa [String.toList_ofList]
  · exact fun h => ⟨_, h, String.ofList_toList⟩

/-- **An accepted batch stands in order.** -/
theorem inOrder_placed {content : String} (h : edited d edits = .ok content) :
    InOrder d.content.toList.length (placed d edits) := by
  have inside : ∀ p ∈ placed d edits,
      p.span.start ≤ p.span.stop ∧ p.span.stop ≤ d.content.toList.length :=
    fun p hp => located_inside ((placed_perm d edits).mem_iff.mp hp)
  exact ⟨pairwise_of_firstOverlap? (edited_eq_ok.mp h).1 fun p hp => (inside p hp).1, inside⟩

/-- **The text of an accepted batch**: the edits' texts between the gaps of the old text. -/
theorem weave_of_edited {content : String} (h : edited d edits = .ok content) :
    content.toList = weave (gaps d.content.toList 0 (placed d edits))
      ((placed d edits).map Placed.chars) :=
  spliceFrom_eq_ok (edited_eq_ok.mp h).2

/-- **An accepted batch is its edits spliced in one at a time**, the last one first. -/
theorem toList_of_edited {content : String} (h : edited d edits = .ok content) :
    content.toList = (placed d edits).foldr Placed.splice d.content.toList := by
  rw [weave_of_edited h, foldr_splice (inOrder_placed h) fun p _ => Nat.zero_le p.span.start,
    List.take_zero, List.nil_append]

/-- **A batch whose edits stand apart and put in texts** is accepted. -/
theorem exists_edited (hapart : (placed d edits).Pairwise fun a b => a.span.stop ≤ b.span.start)
    (htexts : ∀ e ∈ edits, ∃ text, e.text = .str text) : ∃ content, edited d edits = .ok content := by
  have hplaced : ∀ p ∈ placed d edits, ∃ text, p.edit.text = .str text := fun p hp => by
    obtain ⟨e, he, rfl⟩ := List.mem_map.mp ((placed_perm d edits).mem_iff.mp hp)
    exact htexts e he
  obtain ⟨t, ht⟩ := exists_spliceFrom hplaced d.content.toList 0
  exact ⟨String.ofList t, edited_eq_ok.mpr ⟨firstOverlap?_of_pairwise hapart, by rw [ht, String.toList_ofList]⟩⟩

/-! ## One edit -/

/-- The range between two offsets of a text stands on them. -/
theorem Document.spanOf_rangeOf (d : Document) {a b : Nat} (hab : a ≤ b)
    (hb : b ≤ d.content.toList.length) : d.spanOf (d.lines.rangeOf a b) = ⟨a, b⟩ := by
  have hle := d.sound_lines.positionAt_le_positionAt (Int.ofNat_le.mpr hab)
  rw [Document.spanOf, LineTable.rangeOf, TextRange.between_of_le hle]
  simp only [d.sound_lines.offsetAt_positionAt]
  rw [LineTable.clamp_of_le (t := d.lines) hb, LineTable.clamp_of_le (t := d.lines) (hab.trans hb)]

/-- The empty range at an offset of a text stands on it. -/
theorem Document.spanOf_single (d : Document) {a : Nat} (ha : a ≤ d.content.toList.length) :
    d.spanOf (TextRange.single (d.lines.positionAt a)) = ⟨a, a⟩ := by
  rw [Document.spanOf, TextRange.single]
  simp only [d.sound_lines.offsetAt_positionAt]
  rw [LineTable.clamp_of_le (t := d.lines) ha]

/-- Without edits the text stays. -/
theorem edited_nil (d : Document) : edited d [] = .ok d.content := by
  have hplaced : placed d [] = [] := List.mergeSort_nil
  exact edited_eq_ok.mpr ⟨by rw [hplaced]; rfl, by rw [hplaced]; rfl⟩

/-- One edit puts what it holds between what stands before and behind it, if that can be read. -/
theorem splice_singleton {α : Type} {read : Value → Option (List α)} {s t : List α} {p : Placed} :
    SlotEdit.splice read s [p] = .ok t ↔ ∃ text, read p.edit.text = some text ∧
      t = sliceList s 0 p.span.start ++ text ++ s.drop p.span.stop := by
  rw [splice_eq_ok, spliceFrom_cons_eq_ok]
  constructor
  · rintro ⟨-, text, more, htext, hmore, rfl⟩
    obtain rfl := Except.ok.inj hmore
    exact ⟨text, htext, rfl⟩
  · rintro ⟨text, htext, rfl⟩
    exact ⟨rfl, text, _, htext, rfl, rfl⟩

/-- What stands before and behind an edit of a piece of a text. -/
theorem around_of_span {α : Type} {front cut : List α} (back : List α) {span : Span}
    (hspan : span = ⟨front.length, front.length + cut.length⟩) :
    sliceList (front ++ cut ++ back) 0 span.start = front ∧ (front ++ cut ++ back).drop span.stop = back := by
  subst hspan
  rw [sliceList, List.drop_zero, Nat.sub_zero, List.append_assoc, List.take_left, ← List.append_assoc,
    ← List.length_append, List.drop_left]
  exact ⟨rfl, rfl⟩

/-- **One edit whose value is a text** puts it in the place of what it stands on. -/
theorem edited_singleton {e : TextEdit} {text : String} {front cut back : List Char}
    (htext : e.text = .str text) (hspan : d.spanOf e.range = ⟨front.length, front.length + cut.length⟩)
    (hcontent : d.content.toList = front ++ cut ++ back) :
    edited d [e] = .ok (String.ofList (front ++ text.toList ++ back)) := by
  have hplaced : placed d [e] = [⟨d.spanOf e.range, e⟩] := List.mergeSort_singleton _
  obtain ⟨hfront, hback⟩ := around_of_span back hspan
  rw [edited, hplaced, hcontent, map_eq_ok]
  refine ⟨_, splice_singleton.mpr ⟨text.toList, by rw [htext, Value.chars?], rfl⟩, ?_⟩
  rw [hfront, hback]

/-- **One edit whose value may hold halves of surrogate pairs** puts it among the characters of the
text. -/
theorem editedText_singleton {e : TextEdit} {t : LooseText} : editedText d [e] = .ok t ↔
    ∃ text, e.text.text? = some text ∧ t = .ofChars (sliceList d.content.toList 0 (d.spanOf e.range).start) ++ text ++
      .ofChars (d.content.toList.drop (d.spanOf e.range).stop) := by
  have hplaced : placed d [e] = [⟨d.spanOf e.range, e⟩] := List.mergeSort_singleton _
  rw [editedText, hplaced, LooseText.letters_ofString, map_eq_ok]
  constructor
  · rintro ⟨ls, hls, rfl⟩
    obtain ⟨letters, hletters, rfl⟩ := splice_singleton.mp hls
    obtain ⟨text, htext, rfl⟩ := Option.map_eq_some_iff.mp hletters
    refine ⟨text, htext, LooseText.ext_iff.mpr ?_⟩
    simp only [LooseText.letters_append, LooseText.ofChars, sliceList, List.map_take, List.map_drop]
  · rintro ⟨text, htext, rfl⟩
    refine ⟨_, splice_singleton.mpr ⟨text.letters, congrArg (Option.map LooseText.letters) htext, rfl⟩, ?_⟩
    rw [LooseText.ext_iff]
    simp only [LooseText.letters_append, LooseText.ofChars, sliceList, List.map_take, List.map_drop]

/-! ## The order of a batch -/

/-- The edits of a batch with their offsets and their places in the queue. -/
def queued (d : Document) (edits : List TextEdit) : List (Placed × Nat) := (located d edits).zipIdx

/-- **The order in which edits stand**: by where they start, then by where they end, then by the
queue. -/
def Precedes (a b : Placed × Nat) : Prop :=
  a.1.span.start < b.1.span.start ∨ a.1.span.start = b.1.span.start ∧
    (a.1.span.stop < b.1.span.stop ∨ a.1.span.stop = b.1.span.stop ∧ a.2 < b.2)

theorem precedes_of_zipIdxLE {a b : Placed × Nat} (h : List.zipIdxLE Placed.le a b = true)
    (hne : a.2 ≠ b.2) : Precedes a b := by
  simp only [List.zipIdxLE, Placed.le, Bool.or_eq_true, Bool.and_eq_true, decide_eq_true_eq,
    beq_iff_eq] at h
  unfold Precedes
  split at h
  · split at h
    · have := of_decide_eq_true h
      omega
    · omega
  · cases h

/-- The queue can be ordered, and the sorted edits of the batch are that order. -/
theorem exists_ordered (d : Document) (edits : List TextEdit) :
    ∃ l : List (Placed × Nat), l.Perm (queued d edits) ∧ l.Pairwise Precedes ∧
      l.map Prod.fst = placed d edits := by
  have hperm := List.mergeSort_perm (queued d edits) (List.zipIdxLE Placed.le)
  have hsorted := List.pairwise_mergeSort (List.zipIdxLE_trans Placed.le_trans)
    (List.zipIdxLE_total Placed.le_total) (queued d edits)
  have hindices : (((queued d edits).mergeSort (List.zipIdxLE Placed.le)).map Prod.snd).Nodup := by
    refine (hperm.map Prod.snd).nodup_iff.mpr ?_
    rw [queued, List.zipIdx_map_snd]
    exact List.nodup_range'
  refine ⟨_, hperm, ?_, List.mergeSort_zipIdx⟩
  exact (hsorted.and (List.pairwise_map.mp hindices)).imp fun h => precedes_of_zipIdxLE h.1 h.2

theorem exists_text_of_edited {content : String} (h : edited d edits = .ok content) :
    ∀ e ∈ edits, ∃ text, e.text = .str text := by
  intro e he
  have hmem : (⟨⟨d.lines.offsetAt e.range.start, d.lines.offsetAt e.range.stop⟩, e⟩ : Placed) ∈
      placed d edits :=
    (placed_perm d edits).mem_iff.mpr (List.mem_map_of_mem he)
  exact exists_text_of_spliceFrom (edited_eq_ok.mp h).2 _ hmem

/-- **Batch application refines sequential splicing.**  In the one order there is, the edits spliced
in from the last to the first give the text of the batch; no two of them share a character; the old
text is the gaps with what is cut between them, the new one the same gaps with the edits' texts. -/
theorem edited_refines_splicing {content : String} (h : edited d edits = .ok content) :
    ∃ l : List (Placed × Nat), l.Perm (queued d edits) ∧ l.Pairwise Precedes ∧
      content.toList = (l.map Prod.fst).foldr Placed.splice d.content.toList ∧
      InOrder d.content.toList.length (l.map Prod.fst) ∧
      (∀ e ∈ edits, ∃ text, e.text = .str text) ∧
      d.content.toList = weave (gaps d.content.toList 0 (l.map Prod.fst))
        (l.map fun p => p.1.cut d.content.toList) ∧
      content.toList = weave (gaps d.content.toList 0 (l.map Prod.fst)) (l.map fun p => p.1.chars) := by
  obtain ⟨l, hperm, hsorted, hplaced⟩ := exists_ordered d edits
  have hcut : l.map (fun p => p.1.cut d.content.toList)
      = (placed d edits).map (Placed.cut d.content.toList) := by rw [← hplaced, List.map_map]; rfl
  have hchars : l.map (fun p => p.1.chars) = (placed d edits).map Placed.chars := by
    rw [← hplaced, List.map_map]; rfl
  refine ⟨l, hperm, hsorted, ?_⟩
  rw [hplaced, hcut, hchars]
  exact ⟨toList_of_edited h, inOrder_placed h, exists_text_of_edited h,
    (weave_gaps_cut (inOrder_placed h) fun p _ => Nat.zero_le p.span.start).symm,
    weave_of_edited h⟩

end Batch

/-- Two insertions behind the last line, a deletion that starts above the text and a replacement
that ends past its line. -/
theorem edited_refines_splicing_clamped :
    ∃ d : Document, ∃ edits : List TextEdit, edited d edits = .ok "c\nX12" ∧
      ∃ l : List (Placed × Nat), l.Perm (queued d edits) ∧ l.Pairwise Precedes ∧
        "c\nX12".toList = (l.map Prod.fst).foldr Placed.splice d.content.toList ∧
        InOrder d.content.toList.length (l.map Prod.fst) ∧
        (∀ e ∈ edits, ∃ text, e.text = .str text) ∧
        d.content.toList = weave (gaps d.content.toList 0 (l.map Prod.fst))
          (l.map fun p => p.1.cut d.content.toList) ∧
        "c\nX12".toList = weave (gaps d.content.toList 0 (l.map Prod.fst))
          (l.map fun p => p.1.chars) := by
  let d : Document := ⟨"abc\nde", ⟨"Plain text", "plaintext", "plaintext", some .plainText⟩⟩
  let edits : List TextEdit := [.insert ⟨7, 0⟩ (.str "1"), .replace (.between ⟨1, -4⟩ ⟨1, 9⟩) (.str "X"),
    .delete (.between ⟨-2, 5⟩ ⟨0, 2⟩), .insert ⟨1, 40⟩ (.str "2")]
  have h : edited d edits = .ok "c\nX12" := by cbv
  exact ⟨d, edits, h, edited_refines_splicing h⟩

/-- What one edit makes when its value is a text. -/
theorem editedText_of_edited {e : TextEdit} {content : String} (h : edited d [e] = .ok content) :
    editedText d [e] = .ok content := by
  have hplaced : placed d [e] = [⟨d.spanOf e.range, e⟩] := List.mergeSort_singleton _
  rw [edited, hplaced] at h
  obtain ⟨cs, hcs, rfl⟩ := map_eq_ok.mp h
  obtain ⟨text, htext, rfl⟩ := splice_singleton.mp hcs
  refine editedText_singleton.mpr ⟨.ofChars text, ?_, ?_⟩
  · rw [Value.chars?_eq_some.mp htext, Value.text?, LooseText.ofString_ofList]
  · rw [LooseText.ofString_ofList, LooseText.ext_iff]
    simp only [LooseText.letters_append, LooseText.ofChars, List.map_append]

/-! ## What an editor holds -/

/-- An editor whose edits make a text applies them and holds it. -/
theorem Editor.exists_apply {ω : Type} {e : Editor ω} {content : String} (h : SlotEdit.edited e.document e.pending = .ok content) :
    ∃ applied, e.apply = .ok (⟨e.document.withContent content, [], e.observers⟩, applied) := by
  obtain ⟨document, pending, observers⟩ := e
  rw [Editor.apply]
  split
  · next hnone =>
    obtain rfl : pending = [] := List.isEmpty_iff.mp hnone
    obtain rfl := Except.ok.inj ((edited_nil document).symm.trans h)
    exact ⟨_, rfl⟩
  · exact ⟨_, bind_eq_ok.mpr ⟨content, h, rfl⟩⟩

/-- An editor whose edits are applied holds the text they make. -/
theorem Editor.edited_of_apply {ω : Type} {e e' : Editor ω} {applied : Applied ω} (h : e.apply = .ok (e', applied)) :
    SlotEdit.edited e.document e.pending = .ok e'.document.content ∧
      e'.document = e.document.withContent e'.document.content := by
  rw [Editor.apply] at h
  split at h
  · next hnone =>
    obtain ⟨rfl, -⟩ := Prod.mk.inj (Except.ok.inj h)
    refine ⟨?_, rfl⟩
    rw [List.isEmpty_iff.mp hnone]
    exact edited_nil _
  · obtain ⟨content, hedited, h⟩ := bind_eq_ok.mp h
    obtain ⟨rfl, -⟩ := Prod.mk.inj (Except.ok.inj h)
    exact ⟨hedited, rfl⟩

/-! ## Batches that add at one point and cut before it -/

section

theorem eq_filter_append_of_pairwise {α : Type} {f : α → Nat} {e : Nat} {l : List α}
    (h : l.Pairwise fun a b => f a ≤ f b) :
    l = (l.filter fun a => f a < e) ++ l.filter fun a => !decide (f a < e) := by
  induction l with
  | nil => rfl
  | cons a l ih =>
    obtain ⟨ha, hl⟩ := List.pairwise_cons.mp h
    by_cases hlt : f a < e
    · rw [List.filter_cons_of_pos (by simpa using hlt), List.filter_cons_of_neg (by simpa using hlt),
        List.cons_append, ← ih hl]
    · have hnone : (l.filter fun a => decide (f a < e)) = [] :=
        List.filter_eq_nil_iff.mpr fun b hb => by
          have := ha b hb
          simp only [decide_eq_true_eq]
          omega
      have hall : (l.filter fun a => !decide (f a < e)) = l := by
        have heq := ih hl
        rwa [hnone, List.nil_append, eq_comm] at heq
      rw [List.filter_cons_of_neg (by simpa using hlt), List.filter_cons_of_pos (by simpa using hlt),
        hnone, hall, List.nil_append]

variable {d : Document} {edits : List TextEdit} {e : Nat} {cuts : List Placed}

theorem Placed.start_le_of_le {a b : Placed} (h : Placed.le a b) : a.span.start ≤ b.span.start := by
  simp only [Placed.le, Bool.or_eq_true, Bool.and_eq_true, decide_eq_true_eq, beq_iff_eq] at h
  omega

/-- The edits at a point keep the order of the queue. -/
theorem filter_placed (h : ∀ p ∈ located d edits, p.span.start < e ∨ p.span = ⟨e, e⟩) :
    (placed d edits).filter (fun p => !decide (p.span.start < e)) =
      (located d edits).filter fun p => !decide (p.span.start < e) := by
  have hpoint : ∀ p ∈ located d edits, (!decide (p.span.start < e)) = true → p.span = ⟨e, e⟩ :=
    fun p hp hge => (h p hp).resolve_left (by simpa using hge)
  exact filter_placed_of_span fun a ha b hb hPa hPb => (hpoint a ha hPa).trans (hpoint b hb hPb).symm

/-- **The order of a batch that adds at one point**: first what starts before the point, then the
insertions in the order of the queue. -/
theorem placed_eq_append (h : ∀ p ∈ located d edits, p.span.start < e ∨ p.span = ⟨e, e⟩)
    (hcuts : ((located d edits).filter fun p => p.span.start < e).Perm cuts)
    (hapart : cuts.Pairwise fun a b => a.span.start < b.span.start) :
    placed d edits = cuts ++ (located d edits).filter fun p => !decide (p.span.start < e) := by
  have hsorted := pairwise_placed d edits
  have hperm : ((placed d edits).filter fun p => p.span.start < e).Perm cuts :=
    ((placed_perm d edits).filter _).trans hcuts
  have hle : cuts.Pairwise fun a b => Placed.le a b = true := hapart.imp fun {a b} hab => by
    rw [Placed.le, decide_eq_true hab, Bool.true_or]
  have hfirst : (placed d edits).filter (fun p => p.span.start < e) = cuts := by
    refine @List.Perm.eq_of_pairwise _ (fun a b => Placed.le a b = true) _ _ ?_
      (hsorted.filter _) hle hperm
    intro a b ha hb hab hba
    have hstart := Nat.le_antisymm (Placed.start_le_of_le hab) (Placed.start_le_of_le hba)
    have hne : cuts.Pairwise fun a b => a.span.start ≠ b.span.start := hapart.imp Nat.ne_of_lt
    have : Std.Symm fun a b : Placed => a.span.start ≠ b.span.start := ⟨fun _ _ => Ne.symm⟩
    exact Classical.byContradiction fun heq => hne.forall (hperm.mem_iff.mp ha) hb heq hstart
  rw [eq_filter_append_of_pairwise (e := e) (hsorted.imp Placed.start_le_of_le), hfirst, filter_placed h]

/-- **Insertions at one point** put in their texts one after another. -/
theorem foldr_insertions {front back : List Char} {ps : List Placed}
    (h : ∀ p ∈ ps, p.span = ⟨front.length, front.length⟩) :
    ps.foldr Placed.splice (front ++ back) = front ++ (ps.flatMap Placed.chars ++ back) := by
  induction ps with
  | nil => rfl
  | cons p ps ih =>
    rw [List.forall_mem_cons] at h
    rw [List.foldr_cons, ih h.2, Placed.splice, h.1, List.take_left, List.drop_left, List.flatMap_cons]
    simp only [List.append_assoc]

end

end SlotEdit
