import SlotEdit.Proofs.Json.Nodes

/-!
# Proofs/Json/Whole — the syntax tree of a JSON text

A text has a tree just when it is a `Whole`: one value with blanks around it, perhaps behind a byte
order mark (`ofText_eq_ok`).  The tree is then the node of that value at its place.
-/

namespace SlotEdit.Json

/-- **A text with a phrase in it**: perhaps a byte order mark, blanks, a phrase, blanks. -/
structure Whole where
  mark : List Char
  lead : List Char
  phrase : Phrase
  trail : List Char

namespace Whole

/-- The text. -/
def text (w : Whole) : List Char := w.mark ++ (w.lead ++ (w.phrase.render ++ w.trail))

/-- Where the phrase starts. -/
def start (w : Whole) : Nat := (w.mark ++ w.lead).length

/-- The tree of the text. -/
def root (w : Whole) : Node := w.phrase.node w.start

/-- The text with another phrase in it. -/
def holding (w : Whole) (p : Phrase) : Whole := { w with phrase := p }

/-- The text before and behind a place in the phrase stays what it is. -/
theorem text_fill {w : Whole} {place : Place} {p : Phrase} (h : w.phrase = place.fill p) :
    w.text = (w.mark ++ w.lead ++ place.before) ++ p.render ++ (place.behind ++ w.trail) := by
  rw [text, h, Place.render_fill]
  simp only [List.append_assoc]

/-- The text is one of the grammar. -/
structure Shaped (w : Whole) : Prop where
  mark : w.mark = [] ∨ w.mark = ['\ufeff']
  lead : Blank w.lead
  phrase : w.phrase.Shaped
  isValue : w.phrase.isMember = false
  trail : Blank w.trail

/-- **The text has a tree**: besides, its literals decode and it does not nest too deep. -/
structure Sound [Interpreter] (w : Whole) : Prop extends w.Shaped where
  readable : w.phrase.Readable
  frames : w.phrase.frames ≤ treeFrames

end Whole

namespace Grammar

theorem skipMark_mark {mark s : List Char} (hmark : mark = [] ∨ mark = ['\ufeff'])
    (hs : s.head? ≠ some '\ufeff') :
    (⟨0, mark ++ s⟩ : Cursor).skipMark = ⟨mark.length, s⟩ := by
  rcases hmark with rfl | rfl
  · exact if_neg hs
  · exact Cursor.drop_one 0 '\ufeff' s

theorem head?_lead {lead s : List Char} (hlead : Blank lead) (hs : s.head? ≠ some '\ufeff') :
    (lead ++ s).head? ≠ some '\ufeff' := by
  cases lead with
  | nil => exact hs
  | cons c lead =>
    intro h
    obtain rfl := Option.some.inj h
    exact absurd (hlead _ List.mem_cons_self) (by decide)

/-- **One value of a text**: it is read behind the blanks, and then what follows it. -/
theorem values_lead {lead s : List Char} (hlead : Blank lead) (hs : Quiet s) (hne : s ≠ [])
    (depth turns o : Nat) : values depth (turns + 1) ⟨o, lead ++ s⟩ =
      (value depth ⟨o + lead.length, s⟩).bind fun (t, after) =>
        (values depth turns after).map (t :: ·) := by
  rw [values]
  simp only [skipExtras_blank o hlead hs, Cursor.atEnd, List.isEmpty_eq_false_iff.mpr hne,
    Bool.false_eq_true, if_false, List.nil_append, Option.bind_eq_bind]
  refine Option.bind_congr fun (t, after) _ => ?_
  rw [Option.map_eq_bind]
  rfl

theorem values_trail {trail : List Char} (htrail : Blank trail) (depth turns o : Nat) :
    values depth turns ⟨o, trail⟩ = some [] := by
  have hskip := skipExtras_blank o htrail (r := []) (fun _ h => nomatch h)
  rw [List.append_nil] at hskip
  rw [values.eq_def]
  simp only [hskip]
  rfl

/-- What is left behind the last value is blank. -/
theorem blank_of_values {depth turns : Nat} {c : Cursor} (h : values depth turns c = some []) :
    Blank c.rest := by
  rw [values.eq_def] at h
  simp only at h
  split at h
  · next hend =>
    have hnil : (skipExtras c).1 = [] := Option.some.inj h
    obtain ⟨ws, hws, hrest, -⟩ := blank_of_skipExtras (Prod.ext hnil rfl)
    rw [Cursor.atEnd, List.isEmpty_iff] at hend
    rw [hrest, hend, List.append_nil]
    exact hws
  · split at h
    · cases h
    · obtain ⟨⟨t, after⟩, -, h⟩ := Option.bind_eq_some_iff.mp h
      obtain ⟨rest, -, h⟩ := Option.bind_eq_some_iff.mp h
      exact absurd (Option.some.inj h) (by simp)

theorem written_of_values {depth turns : Nat} {c : Cursor} {t : GrammarTree}
    (h : values depth turns c = some [t]) (hclean : Clean t) :
    ∃ (lead : List Char) (p : Phrase) (trail : List Char), Blank lead ∧ p.Shaped ∧ p.isMember = false ∧ Blank trail ∧
      c.rest = lead ++ (p.render ++ trail) ∧ t = p.tree (c.offset + lead.length) := by
  rw [values.eq_def] at h
  simp only at h
  split at h
  · have hcomment : t ∈ (skipExtras c).1 := by rw [Option.some.inj h]; exact List.mem_singleton_self t
    exact absurd hclean (not_clean_of_mem_extras hcomment)
  · split at h
    · cases h
    · obtain ⟨⟨v, after⟩, hv, h⟩ := Option.bind_eq_some_iff.mp h
      obtain ⟨rest, hrest, h⟩ := Option.bind_eq_some_iff.mp h
      rcases List.append_eq_singleton_iff.mp (Option.some.inj h) with ⟨hnil, h⟩ | ⟨-, h⟩
      · injection h with h hnil'
        subst h hnil'
        obtain ⟨lead, hlead, hrest₁, hoffset⟩ := blank_of_skipExtras (Prod.ext hnil rfl)
        obtain ⟨p, hp, hkind, hrest₂, ht, -⟩ := written_of_value hv hclean
        exact ⟨lead, p, after.rest, hlead, hp, hkind, blank_of_values hrest, by rw [hrest₁, hrest₂],
          by rw [ht, hoffset]⟩
      · cases h

theorem isNamed_of_values {depth turns : Nat} {c : Cursor} {ts : List GrammarTree}
    (h : values depth turns c = some ts) (hclean : ∀ t ∈ ts, Clean t) :
    ∀ t ∈ ts, t.isNamed = true := by
  induction turns generalizing c ts with
  | zero =>
    rw [values.eq_def] at h
    simp only at h
    split at h
    · obtain rfl := Option.some.inj h
      exact fun t ht => absurd (hclean t ht) (not_clean_of_mem_extras ht)
    · cases h
  | succ turns ih =>
    rw [values.eq_def] at h
    simp only at h
    split at h
    · obtain rfl := Option.some.inj h
      exact fun t ht => absurd (hclean t ht) (not_clean_of_mem_extras ht)
    · obtain ⟨⟨v, after⟩, hv, h⟩ := Option.bind_eq_some_iff.mp h
      obtain ⟨rest, hrest, h⟩ := Option.bind_eq_some_iff.mp h
      obtain rfl := Option.some.inj h
      rw [List.forall_mem_append, List.forall_mem_cons] at hclean ⊢
      obtain ⟨p, -, -, -, rfl, -⟩ := written_of_value hv hclean.2.1
      exact ⟨fun t ht => absurd (hclean.1 t ht) (not_clean_of_mem_extras ht), Phrase.isNamed_tree p _,
        ih hrest hclean.2.2⟩

end Grammar

namespace Phrase

theorem height_le_length (p : Phrase) : p.height ≤ p.render.length := by
  induction p with
  | word name => exact Nat.zero_le _
  | string body => exact Nat.zero_le _
  | number digits => exact Nat.zero_le _
  | member key before after content ih =>
    rw [height, render, List.length_append]
    exact ih.trans (Nat.le_add_left _ _)
  | group bracket items trail ih =>
    have hitems : ∀ separator, heightItems items ≤ (renderItems separator items).length := by
      induction items with
      | nil => exact fun _ => Nat.le_refl 0
      | cons i rest ihrest =>
        obtain ⟨gap, lead, p⟩ := i
        rw [List.forall_mem_cons] at ih
        intro separator
        have hp := ih.1
        have hrest := ihrest ih.2 [',']
        simp only [heightItems, renderItems, List.length_append] at hp ⊢
        omega
    have := hitems []
    simp only [height, render, List.length_append, List.length_cons]
    omega

end Phrase

open Grammar

variable {w : Whole} {text : String}

theorem Whole.Shaped.head? (h : w.Shaped) : (w.lead ++ (w.phrase.render ++ w.trail)).head? ≠ some '\ufeff' := by
  obtain ⟨c, s, hc, hopen⟩ := exists_opening h.phrase
  refine head?_lead h.lead ?_
  rw [hc]
  exact fun heq => ne_of_isOpening hopen rfl (Option.some.inj heq)

/-- **The grammar reads a text with one value in it** as just that value. -/
theorem Whole.Shaped.grammarTree?_eq (h : w.Shaped) (htext : text.toList = w.text) :
    grammarTree? text = some (.named "document" ⟨0, text.toList.length⟩ [w.phrase.tree w.start]) := by
  have hmark : (Cursor.ofText text).skipMark
      = ⟨w.mark.length, w.lead ++ (w.phrase.render ++ w.trail)⟩ := by
    rw [Cursor.ofText, htext]
    exact skipMark_mark h.mark h.head?
  have hlen : w.mark.length + (w.lead ++ (w.phrase.render ++ w.trail)).length = text.toList.length := by
    rw [htext]
    exact List.length_append.symm
  have hstart : w.start = w.mark.length + w.lead.length := List.length_append
  have hheight : w.phrase.height < (w.lead ++ (w.phrase.render ++ w.trail)).length + 1 := by
    have := w.phrase.height_le_length
    simp only [List.length_append]
    omega
  have hreads := reads_reader h.phrase hheight (w.mark.length + w.lead.length) w.trail
    (List.append_nil w.trail ▸ stops_blank h.trail stops_nil)
  have hne : w.phrase.render ++ w.trail ≠ [] := List.append_ne_nil_of_left_ne_nil (render_ne_nil h.phrase) _
  rw [reader, h.isValue, if_neg Bool.false_ne_true] at hreads
  rw [grammarTree?, hmark]
  simp only [hlen, values_lead h.lead (quiet_render h.phrase w.trail) hne, hreads, Option.bind_some,
    values_trail h.trail, Option.map_some, hstart]

theorem exists_mark (text : String) : ∃ mark, (mark = [] ∨ mark = ['\ufeff']) ∧
    text.toList = mark ++ (Cursor.ofText text).skipMark.rest ∧
    (Cursor.ofText text).skipMark.offset = mark.length := by
  rw [Cursor.skipMark]
  split
  · next hpeek =>
    obtain ⟨hrest, hoffset⟩ := drop_one_of_peek? hpeek
    exact ⟨['\ufeff'], Or.inr rfl, hrest, hoffset⟩
  · exact ⟨[], Or.inl rfl, rfl, rfl⟩

/-- A text the grammar reads as one value without a comment has that value in it. -/
theorem exists_whole {document v : GrammarTree} (h : grammarTree? text = some document)
    (hclean : Clean document) (hone : document.namedChildren = [v]) :
    ∃ w : Whole, w.Shaped ∧ text.toList = w.text ∧ v = w.phrase.tree w.start := by
  obtain ⟨ts, hread, rfl⟩ := Option.map_eq_some_iff.mp h
  have hclean := (clean_node.mp hclean).2
  have hnamed : ts.filter GrammarTree.isNamed = ts :=
    List.filter_eq_self.mpr (isNamed_of_values hread hclean)
  obtain rfl : ts = [v] := hnamed.symm.trans hone
  obtain ⟨lead, p, trail, hlead, hp, hkind, htrail, hrest, rfl⟩ :=
    written_of_values hread (hclean v (List.mem_singleton_self v))
  obtain ⟨mark, hmark, htext, hoffset⟩ := exists_mark text
  refine ⟨⟨mark, lead, p, trail⟩, ⟨hmark, hlead, hp, hkind, htrail⟩, ?_, ?_⟩
  · rw [htext, hrest, Whole.text]
  · rw [hoffset, Whole.start, List.length_append]

/-- **Which texts have a tree**, and which tree it is. -/
theorem ofText_eq_ok [Interpreter] {n : Node} :
    ofText text = .ok n ↔ ∃ w : Whole, w.Sound ∧ text.toList = w.text ∧ n = w.root := by
  have hnode (w : Whole) (hw : w.Shaped) (htext : text.toList = w.text) :
      valueNode text.toList treeFrames (w.phrase.tree w.start) = .ok n ↔
        w.phrase.Readable ∧ w.phrase.frames ≤ treeFrames ∧ n = w.root := by
    have htree := @toNode_tree _ _ hw.phrase _ treeFrames _ _ n
      (by rw [htext, Whole.text]; simp only [List.append_assoc] :
        text.toList = w.mark ++ w.lead ++ w.phrase.render ++ w.trail)
    rwa [hw.isValue] at htree
  rw [ofText, ofTextBy]
  constructor
  · intro h
    split at h
    · cases h
    · next document hdocument =>
      rw [ofGrammar] at h
      split at h
      · cases h
      · next hnone =>
        have hclean : Clean document := fun s hs heq =>
          List.find?_eq_none.mp hnone s hs (beq_iff_eq.mpr heq)
        split at h
        · cases h
        · next v hone =>
          obtain ⟨w, hw, htext, rfl⟩ := exists_whole hdocument hclean hone
          obtain ⟨hread, hframes, hn⟩ := (hnode w hw htext).mp h
          exact ⟨w, ⟨hw, hread, hframes⟩, htext, hn⟩
        · cases h
  · rintro ⟨w, hw, htext, hn⟩
    have hfind : (GrammarTree.named "document" ⟨0, text.toList.length⟩
        [w.phrase.tree w.start]).walk.find? (fun t => t.construct == "comment") = none := by
      have hclean : Clean (GrammarTree.named "document" ⟨0, text.toList.length⟩
          [w.phrase.tree w.start]) :=
        clean_node.mpr ⟨by decide, List.forall_mem_singleton.mpr (clean_tree hw.phrase _)⟩
      exact List.find?_eq_none.mpr fun t ht heq => hclean t ht (beq_iff_eq.mp heq)
    have hone : (GrammarTree.named "document" ⟨0, text.toList.length⟩
        [w.phrase.tree w.start]).namedChildren = [w.phrase.tree w.start] :=
      List.filter_cons_of_pos (Phrase.isNamed_tree _ _)
    rw [hw.grammarTree?_eq htext]
    simp only [ofGrammar, hfind, hone]
    exact (hnode w hw.toShaped htext).mpr ⟨hw.readable, hw.frames, hn⟩

end SlotEdit.Json
