import SlotEdit.Css.Declarations
import SlotEdit.Proofs.Css.Bodies

/-!
# Proofs/Css/Deletion — what goes with a declaration that is taken out

With a declaration go spaces and tabs, and the line break when it is alone on its lines
(`takes_deletionSpan`).  No piece next to a declaration starts or ends with such a character, so every
other piece of the style sheet stays (`IsBodyOf.spares`), and the stretches that two declarations of a
block take with them are apart (`IsBodyOf.apart`).
-/

namespace SlotEdit.Css

open SlotEdit.Css.Grammar

/-! ## What is taken with a piece of a text -/

/-- A line starts here. -/
def LineStart (s : List Char) (n : Nat) : Prop := n = 0 ∨ ∃ m, n = m + 1 ∧ s[m]? = some '\n'

/-- **A piece that is alone on its lines**: nothing but spaces and tabs stands before it and behind it, up to a line
break. -/
structure Alone (s : List Char) (piece : Span) : Prop where
  before : ∃ n ≤ piece.start, LineStart s n ∧ ∀ x ∈ sliceList s n piece.start, isIndent x = true
  behind : ∃ n, piece.stop ≤ n ∧ s[n]? = some '\n' ∧ ∀ x ∈ sliceList s piece.stop n, isIndent x = true

/-- **What is taken with a piece**: spaces and tabs around it, and the line break when it is alone on its lines; then
all that stands before it on its line goes, else nothing before it does. -/
structure Takes (s : List Char) (piece taken : Span) : Prop where
  start_le : taken.start ≤ piece.start
  le_stop : piece.stop ≤ taken.stop
  stop_le_length : taken.stop ≤ s.length
  before : ∀ x ∈ sliceList s taken.start piece.start, isIndent x = true
  behind : ∃ blanks lineBreak, sliceList s piece.stop taken.stop = blanks ++ lineBreak ∧
    (∀ x ∈ blanks, isIndent x = true) ∧ (lineBreak = [] ∨ lineBreak = ['\n']) ∧ (lineBreak = ['\n'] ↔ Alone s piece)
  lineStart : Alone s piece → LineStart s taken.start
  start_eq : ¬Alone s piece → taken.start = piece.start

section

variable {s : List Char} {n k : Nat}

theorem sliceList_succ {x : Char} (h : n ≤ k) (hx : s[k]? = some x) : sliceList s n (k + 1) = sliceList s n k ++ [x] := by
  rw [sliceList, sliceList, Nat.succ_sub h, List.take_add_one, List.getElem?_drop, Nat.add_sub_cancel' h, hx]
  rfl

/-- The blanks behind a place. -/
theorem sliceList_takeWhile (s : List Char) (f : Char → Bool) (n : Nat) :
    sliceList s n (n + ((s.drop n).takeWhile f).length) = (s.drop n).takeWhile f := by
  rw [sliceList, Nat.add_sub_cancel_left]
  exact (List.prefix_iff_eq_take.mp (List.takeWhile_prefix f)).symm

/-- The text up to a place ends in the blanks before the place. -/
theorem take_eq_append_blanks (hn : n ≤ s.length) (f : Char → Bool) :
    s.take (n - ((s.take n).reverse.takeWhile f).length) = ((s.take n).reverse.dropWhile f).reverse ∧
      sliceList s (n - ((s.take n).reverse.takeWhile f).length) n = ((s.take n).reverse.takeWhile f).reverse := by
  have hcut : s.take n = ((s.take n).reverse.dropWhile f).reverse ++ ((s.take n).reverse.takeWhile f).reverse := by
    rw [← List.reverse_append, List.takeWhile_append_dropWhile, List.reverse_reverse]
  have hlength := congrArg List.length hcut
  rw [List.length_take_of_le hn, List.length_append, List.length_reverse, List.length_reverse] at hlength
  refine List.append_inj ((take_append_sliceList s (Nat.sub_le n _)).trans hcut) ?_
  rw [List.length_take_of_le (by omega), List.length_reverse]
  omega

/-- The blanks from the start of a line up to a place. -/
theorem length_indent_of_lineStart (hk : k ≤ n) (hn : n ≤ s.length) (hline : LineStart s k)
    (hblank : ∀ x ∈ sliceList s k n, isIndent x = true) : ((s.take n).reverse.takeWhile isIndent).length = n - k := by
  have hfront : (s.take k).reverse.takeWhile isIndent = [] := by
    obtain rfl | ⟨m, rfl, hm⟩ := hline
    · rfl
    · rw [List.take_add_one, hm, Option.toList_some, List.reverse_concat]
      exact List.takeWhile_cons_of_neg (by decide)
  rw [← take_append_sliceList s hk, List.reverse_append,
    List.takeWhile_append_of_pos fun x hx => hblank x (List.mem_reverse.mp hx), hfront, List.append_nil,
    List.length_reverse, length_sliceList s hn]

/-- The blanks from a place up to the end of the line. -/
theorem length_blanks_of_lineBreak (hk : n ≤ k) (hbreak : s[k]? = some '\n')
    (hblank : ∀ x ∈ sliceList s n k, isIndent x = true) : ((s.drop n).takeWhile isIndent).length = k - n := by
  obtain ⟨hlt, hx⟩ := List.getElem?_eq_some_iff.mp hbreak
  rw [← sliceList_append_drop s hk, List.takeWhile_append_of_pos hblank, List.drop_eq_getElem_cons hlt, hx,
    List.takeWhile_cons_of_neg (by decide), List.append_nil, length_sliceList s hlt.le]

/-- What stands at the end of the front part of a text tells whether a line starts behind it. -/
theorem lineStart_iff {r : List Char} (hk : k ≤ s.length) (h : s.take k = r.reverse) :
    (r.head?.map (· == '\n')).getD true = true ↔ LineStart s k := by
  have hlength := congrArg List.length h
  rw [List.length_take_of_le hk, List.length_reverse] at hlength
  cases r with
  | nil => exact iff_of_true rfl (.inl hlength)
  | cons x r =>
    obtain rfl : k = r.length + 1 := hlength
    have hx : s[r.length]? = some x := by
      rw [← List.getElem?_take_of_lt (Nat.lt_succ_self r.length), h, List.reverse_cons,
        List.getElem?_append_right (by rw [List.length_reverse]), List.length_reverse, Nat.sub_self]
      rfl
    rw [LineStart, List.head?_cons, Option.map_some, Option.getD_some, beq_iff_eq]
    constructor
    · rintro rfl
      exact .inr ⟨_, rfl, hx⟩
    · rintro (h | ⟨m, hm, hbreak⟩)
      · cases h
      · obtain rfl := Nat.succ.inj hm
        exact Option.some.inj (hx.symm.trans hbreak)

/-- The test whether the blanks before a place reach to the start of the line. -/
theorem startsLine_iff (hn : n ≤ s.length) :
    (((s.take n).reverse.drop ((s.take n).reverse.takeWhile isIndent).length).head?.map (· == '\n')).getD true = true ↔
      LineStart s (n - ((s.take n).reverse.takeWhile isIndent).length) := by
  have hdrop : (s.take n).reverse.drop ((s.take n).reverse.takeWhile isIndent).length = (s.take n).reverse.dropWhile isIndent :=
    calc (s.take n).reverse.drop ((s.take n).reverse.takeWhile isIndent).length
        = ((s.take n).reverse.takeWhile isIndent ++ (s.take n).reverse.dropWhile isIndent).drop
            ((s.take n).reverse.takeWhile isIndent).length := by rw [List.takeWhile_append_dropWhile]
      _ = (s.take n).reverse.dropWhile isIndent := List.drop_left
  rw [hdrop]
  exact lineStart_iff ((Nat.sub_le _ _).trans hn) (take_eq_append_blanks hn isIndent).1

/-- **With a declaration go the blanks around it**, and its line when nothing else is on it. -/
theorem takes_deletionSpan {piece : Span} (hle : piece.start ≤ piece.stop) (hlength : piece.stop ≤ s.length) :
    Takes s piece (deletionSpan s piece) := by
  have hstart : piece.start ≤ s.length := hle.trans hlength
  have hindent : ∀ x ∈ sliceList s (piece.start - ((s.take piece.start).reverse.takeWhile isIndent).length) piece.start,
      isIndent x = true := by
    rw [(take_eq_append_blanks hstart isIndent).2]
    exact fun x hx => List.all_eq_true.mp List.all_takeWhile x (List.mem_reverse.mp hx)
  have hblanks : ∀ x ∈ sliceList s piece.stop (piece.stop + ((s.drop piece.stop).takeWhile isIndent).length),
      isIndent x = true := by
    rw [sliceList_takeWhile]
    exact List.all_eq_true.mp List.all_takeWhile
  have hstop : piece.stop + ((s.drop piece.stop).takeWhile isIndent).length ≤ s.length := by
    have hsub := (List.takeWhile_sublist isIndent (l := s.drop piece.stop)).length_le
    rw [List.length_drop] at hsub
    omega
  rw [deletionSpan]
  split
  · next hcond =>
    rw [Bool.and_eq_true, startsLine_iff hstart, beq_iff_eq, List.head?_drop] at hcond
    obtain ⟨hline, hbreak⟩ := hcond
    have halone : Alone s piece := ⟨⟨_, Nat.sub_le _ _, hline, hindent⟩, _, Nat.le_add_right _ _, hbreak, hblanks⟩
    obtain ⟨hlt, hx⟩ := List.getElem?_eq_some_iff.mp hbreak
    refine ⟨Nat.sub_le _ _, (Nat.le_add_right _ _).trans (Nat.le_succ _), hlt, hindent, ?_, fun _ => hline, fun h => absurd halone h⟩
    exact ⟨_, ['\n'], sliceList_succ (Nat.le_add_right _ _) hbreak, hblanks, .inr rfl, iff_of_true rfl halone⟩
  · next hcond =>
    have hnot : ¬Alone s piece := by
      rintro ⟨⟨k, hk, hline, hbefore⟩, m, hm, hbreak, hbehind⟩
      refine hcond ?_
      rw [Bool.and_eq_true, startsLine_iff hstart, beq_iff_eq, List.head?_drop, length_indent_of_lineStart hk hstart hline hbefore,
        length_blanks_of_lineBreak hm hbreak hbehind, Nat.sub_sub_self hk, Nat.add_sub_cancel' hm]
      exact ⟨hline, hbreak⟩
    refine ⟨Nat.le_refl _, Nat.le_add_right _ _, hstop, ?_, ⟨_, [], (List.append_nil _).symm, hblanks, .inl rfl, ?_⟩,
      fun h => absurd h hnot, fun _ => rfl⟩
    · rw [sliceList, Nat.sub_self]
      exact List.forall_mem_nil _
    · exact iff_of_false (List.cons_ne_nil _ _).symm hnot

theorem mem_sliceList {a b i : Nat} {x : Char} (ha : a ≤ i) (hb : i < b) (hx : s[i]? = some x) : x ∈ sliceList s a b := by
  refine List.mem_of_getElem? (i := i - a) ?_
  rw [sliceList, List.getElem?_take_of_lt (by omega), List.getElem?_drop, Nat.add_sub_cancel' ha, hx]

theorem isAsciiBlank_of_isIndent {x : Char} (h : isIndent x = true) : isAsciiBlank x = true := by
  rw [isIndent, Bool.or_eq_true, beq_iff_eq, beq_iff_eq] at h
  obtain rfl | rfl := h <;> rfl

end

/-! ## What is next to a piece that is taken -/

namespace Takes

variable {s : List Char} {piece taken piece' taken' : Span} {n k : Nat}

/-- What ends in no blank in front of a piece stays. -/
theorem le_start (h : Takes s piece taken) (hshuts : Shuts s n) (hn : n ≤ piece.start) : n ≤ taken.start := by
  obtain ⟨m, rfl, x, hx, hblank⟩ := hshuts
  refine Nat.le_of_not_lt fun hlt => ?_
  have hindent := h.before x (mem_sliceList (Nat.le_of_lt_succ hlt) hn hx)
  exact absurd (isAsciiBlank_of_isIndent hindent) (by rw [hblank]; exact Bool.false_ne_true)

/-- What starts with no blank behind a piece stays. -/
theorem stop_le (h : Takes s piece taken) (hopens : Opens s n) (hn : piece.stop ≤ n) : taken.stop ≤ n := by
  obtain ⟨x, hx, hblank⟩ := hopens
  refine Nat.le_of_not_lt fun hlt => ?_
  obtain ⟨blanks, lineBreak, hslice, hblanks, hbreak, -⟩ := h.behind
  have hmem := mem_sliceList hn hlt hx
  rw [hslice, List.mem_append] at hmem
  refine absurd (?_ : isAsciiBlank x = true) (by rw [hblank]; exact Bool.false_ne_true)
  rcases hmem with hmem | hmem
  · exact isAsciiBlank_of_isIndent (hblanks x hmem)
  · rcases hbreak with rfl | rfl
    · cases hmem
    · rw [List.mem_singleton.mp hmem]
      rfl

/-- **What two pieces take is apart** when no blank ends what is between them, and none starts it. -/
theorem apart (h : Takes s piece taken) (h' : Takes s piece' taken') (hshuts : Shuts s k) (hk : piece.stop ≤ k)
    (hk' : k ≤ piece'.start) (hopens : Opens s n) (hn : piece.stop ≤ n) (hn' : n ≤ piece'.start) :
    taken.stop ≤ taken'.start := by
  by_cases halone : Alone s piece'
  · -- the line break in front of the second line is left, so the first piece takes nothing behind it
    have hle := h'.le_start hshuts hk'
    obtain ⟨m, rfl, x, hx, hblank⟩ := hshuts
    obtain hzero | ⟨b, hb, hbreak⟩ := h'.lineStart halone
    · omega
    have hne : m ≠ b := by
      rintro rfl
      obtain rfl := Option.some.inj (hx.symm.trans hbreak)
      cases hblank
    refine Nat.le_of_not_lt fun hlt => ?_
    obtain ⟨blanks, lineBreak, hslice, hblanks, hshort, -⟩ := h.behind
    have hlength := congrArg List.length hslice
    rw [length_sliceList s h.stop_le_length, List.length_append] at hlength
    have hlineBreak : lineBreak.length ≤ 1 := by obtain rfl | rfl := hshort <;> decide
    have hmem : '\n' ∈ blanks := by
      refine List.mem_of_getElem? (i := b - piece.stop) ?_
      have hget := congrArg (·[b - piece.stop]?) hslice
      simp only [sliceList] at hget
      rw [List.getElem?_take_of_lt (by omega), List.getElem?_drop, Nat.add_sub_cancel' (by omega), hbreak,
        List.getElem?_append_left (by omega)] at hget
      exact hget.symm
    exact absurd (hblanks _ hmem) (by decide)
  · rw [h'.start_eq halone]
    exact (h.stop_le hopens hn).trans hn'

end Takes

/-! ## Deletions from a block -/

namespace IsBodyOf

variable {text : String} {sheet body t t' u : GrammarTree} {front back : List GrammarTree} {block : Node} {taken taken' : Span}

/-- A declaration is none of the pieces that may follow the last item of a block. -/
theorem not_trailing (ht : t.construct = "declaration") : t.construct ∉ trailingConstructs := by
  rw [ht]
  decide

/-- **The pieces around a declaration stay**: those in front of it and those behind. -/
theorem neighbours (h : IsBodyOf text body block) (hbody : body.WellNested (Solid text)) (ht : t.construct = "declaration")
    (hchildren : body.children = front ++ t :: back) (htakes : Takes text.toList t.span taken) :
    (∀ u ∈ front, u.span.stop ≤ taken.start) ∧ ∀ u ∈ back, taken.stop ≤ u.span.start := by
  have horder := hbody.inOrder
  have hopens := (hbody.property.enclosed h.construct).outlined.opens
  rw [hchildren] at horder hopens
  rw [List.map_append, List.map_cons] at horder
  obtain ⟨hfront, -, hback⟩ := horder.of_append
  refine ⟨fun u hu => ?_, fun u hu => ?_⟩
  · exact htakes.le_start (h.shuts hbody hchildren (not_trailing ht) u hu) (hfront.mem (List.mem_map_of_mem hu)).2.2
  · exact htakes.stop_le (hopens u (List.mem_append_right _ (List.mem_cons_of_mem _ hu)))
      (hback.mem (List.mem_map_of_mem hu)).1

/-- **What goes with a declaration is inside the braces** of the block. -/
theorem inside (h : IsBodyOf text body block) (hbody : body.WellNested (Solid text)) (ht : t.construct = "declaration")
    (hmem : t ∈ body.children) (htakes : Takes text.toList t.span taken) :
    body.span.start ≤ taken.start ∧ taken.stop ≤ body.span.stop := by
  obtain ⟨front, back, hchildren⟩ := List.append_of_mem hmem
  obtain ⟨hfront, hback⟩ := h.neighbours hbody ht hchildren htakes
  have henclosed := hbody.property.enclosed h.construct
  have hspan {u : GrammarTree} (hu : u ∈ body.children) := hbody.inOrder.mem (List.mem_map_of_mem hu)
  constructor
  · have hfirst := henclosed.first
    rw [hchildren] at hfirst
    cases front with
    | nil => exact absurd (ht.symm.trans (Option.some.inj hfirst)) (by decide)
    | cons first front =>
      obtain ⟨hstart, hle, -⟩ := hspan (hchildren ▸ List.mem_append_left _ List.mem_cons_self : first ∈ body.children)
      exact hstart.trans (hle.trans (hfront first List.mem_cons_self))
  · have hlast := henclosed.last
    rw [hchildren] at hlast
    rcases List.eq_nil_or_concat' back with rfl | ⟨back, last, rfl⟩
    · rw [List.getLast?_concat] at hlast
      exact absurd (ht.symm.trans (Option.some.inj hlast)) (by decide)
    · have hlast : last ∈ back ++ [last] := List.mem_append_right _ List.mem_cons_self
      obtain ⟨-, hle, hstop⟩ := hspan (hchildren ▸ List.mem_append_right _ (List.mem_cons_of_mem _ hlast) : last ∈ body.children)
      exact (hback last hlast).trans (hle.trans hstop)

/-- **Every other piece of a style sheet stays**: one that the declaration is not in, and that is not in the
declaration, ends before what is taken or starts behind it. -/
theorem spares (h : IsBodyOf text body block) (hsheet : sheet.WellNested (Solid text)) (hbody : body ∈ sheet.walk)
    (ht : t.construct = "declaration") (hmem : t ∈ body.children) (htakes : Takes text.toList t.span taken) :
    ∀ u ∈ sheet.walk, t ∈ u.walk ∨ u ∈ t.walk ∨ u.span.stop ≤ taken.start ∨ taken.stop ≤ u.span.start := by
  intro u hu
  have hnested := hsheet.of_mem_walk hbody
  obtain ⟨hstart, hstop⟩ := h.inside hnested ht hmem htakes
  have hinside : t ∈ body.walk := GrammarTree.mem_walk_of_mem_children hmem
  rcases hsheet.nested_or_apart hu hbody with hwalk | hwalk | hle | hle
  · rcases GrammarTree.mem_walk.mp hwalk with rfl | ⟨v, hv, huv⟩
    · exact .inl hinside
    -- the piece is in a child of the body, which is the declaration or next to it
    have hspan := (hnested.of_mem_children hv).span_le u huv
    obtain ⟨front, back, hchildren⟩ := List.append_of_mem hmem
    obtain ⟨hfront, hback⟩ := h.neighbours hnested ht hchildren htakes
    rw [hchildren, List.mem_append, List.mem_cons] at hv
    rcases hv with hv | rfl | hv
    · exact .inr (.inr (.inl (hspan.2.trans (hfront v hv))))
    · exact .inr (.inl huv)
    · exact .inr (.inr (.inr ((hback v hv).trans hspan.1)))
  · exact .inl (GrammarTree.walk_subset hwalk hinside)
  · exact .inr (.inr (.inl (hle.trans hstart)))
  · exact .inr (.inr (.inr (hstop.trans hle)))

theorem stop_le_start (h : IsBodyOf text body block) (hbody : body.WellNested (Solid text)) (ht' : t'.construct = "declaration")
    (hchildren : body.children = front ++ t :: back) (hmem : t' ∈ back) (htakes : Takes text.toList t.span taken)
    (htakes' : Takes text.toList t'.span taken') : taken.stop ≤ taken'.start := by
  obtain ⟨middle, rest, rfl⟩ := List.append_of_mem hmem
  have hbetween : body.children = (front ++ t :: middle) ++ t' :: rest := by
    rw [hchildren, List.append_assoc, List.cons_append]
  have hopens := (hbody.property.enclosed h.construct).outlined.opens t' (hchildren ▸ List.mem_append_right _ (List.mem_cons_of_mem _ hmem))
  have hfront : t ∈ front ++ t :: middle := List.mem_append_right _ List.mem_cons_self
  have horder := hbody.inOrder
  rw [hbetween, List.map_append, List.map_cons] at horder
  have hle := (horder.of_append.1.mem (List.mem_map_of_mem hfront)).2.2
  exact htakes.apart htakes' (h.shuts hbody hbetween (not_trailing ht') t hfront) (Nat.le_refl _) hle hopens hle (Nat.le_refl _)

/-- **What two declarations of a block take is apart.** -/
theorem apart (h : IsBodyOf text body block) (hbody : body.WellNested (Solid text)) (ht : t.construct = "declaration")
    (ht' : t'.construct = "declaration") (hmem : t ∈ body.children) (hmem' : t' ∈ body.children) (hne : t ≠ t')
    (htakes : Takes text.toList t.span taken) (htakes' : Takes text.toList t'.span taken') :
    taken.stop ≤ taken'.start ∨ taken'.stop ≤ taken.start := by
  obtain ⟨front, back, hchildren⟩ := List.append_of_mem hmem
  have hsplit := hmem'
  rw [hchildren, List.mem_append, List.mem_cons] at hsplit
  rcases hsplit with hfront | rfl | hback
  · obtain ⟨front, middle, rfl⟩ := List.append_of_mem hfront
    rw [List.append_assoc, List.cons_append] at hchildren
    exact .inr (h.stop_le_start hbody ht hchildren (List.mem_append_right _ List.mem_cons_self) htakes' htakes)
  · exact absurd rfl hne
  · exact .inl (h.stop_le_start hbody ht' hchildren hback htakes htakes')

end IsBodyOf

/-- **The deletion of a property from a block**: it takes the last declaration of the property with its semicolon,
and of what is not in this declaration and does not hold it, it takes nothing. -/
structure Deletes (text : String) (sheet : GrammarTree) (block : Node) (property : String) (declaration : Node)
    (taken : Span) : Prop where
  last : ((declarations block).filter fun n => propertyName text n == property).getLast? = some declaration
  takes : Takes text.toList declaration.span taken
  semicolon : hasSemicolon declaration = true → ∃ m, declaration.span.stop = m + 1 ∧ text.toList[m]? = some ';'
  spares : ∃ t ∈ sheet.walk, t.construct = "declaration" ∧ declaration.span = t.span ∧
    ∀ u ∈ sheet.walk, t ∈ u.walk ∨ u ∈ t.walk ∨ u.span.stop ≤ taken.start ∨ taken.stop ≤ u.span.start

section

variable {text property property' : String} {sheet body : GrammarTree} {block n n' : Node}

theorem declaration?_eq (text : String) (block : Node) (property : String) : declaration? text block property =
    ((declarations block).filter fun n => propertyName text n == property).getLast? := by
  rw [declaration?, ← List.head?_filter, List.filter_reverse, List.head?_reverse]

theorem of_declaration? (h : declaration? text block property = some n) :
    n ∈ declarations block ∧ propertyName text n = property := by
  rw [declaration?_eq] at h
  obtain ⟨hmem, hname⟩ := List.mem_filter.mp (List.mem_of_getLast? h)
  exact ⟨hmem, eq_of_beq hname⟩

/-- A declaration of the concrete syntax is a stretch of the text. -/
theorem takes_of_mem_walk {t : GrammarTree} (hsheet : grammarTree? text = some sheet) (ht : t ∈ sheet.walk) :
    Takes text.toList t.span (deletionSpan text.toList t.span) := by
  obtain ⟨hnested, hspan⟩ := wellNested_grammarTree? hsheet
  refine takes_deletionSpan (hnested.of_mem_walk ht).inOrder.le ?_
  have hstop := (hnested.span_le t ht).2
  rwa [hspan] at hstop

theorem Deletes.le {taken : Span} (h : Deletes text sheet block property n taken) (hsheet : grammarTree? text = some sheet) :
    taken.start ≤ taken.stop := by
  obtain ⟨t, ht, -, hspan, -⟩ := h.spares
  have hle := ((wellNested_grammarTree? hsheet).1.of_mem_walk ht).inOrder.le
  rw [← hspan] at hle
  exact h.takes.start_le.trans (hle.trans h.takes.le_stop)

/-- **The deletion of a property** that the block of a rule has. -/
theorem IsBodyOf.deletes (h : IsBodyOf text body block) (hsheet : grammarTree? text = some sheet) (hbody : body ∈ sheet.walk)
    (hn : declaration? text block property = some n) :
    Deletes text sheet block property n (deletionSpan text.toList n.span) := by
  have hnested := (wellNested_grammarTree? hsheet).1
  obtain ⟨t, ht, hconstruct, -, hspan, hsemicolon⟩ := h.exists_declaration (hnested.of_mem_walk hbody) (of_declaration? hn).1
  have hmem := GrammarTree.walk_subset hbody (GrammarTree.mem_walk_of_mem_children ht)
  have htakes := takes_of_mem_walk hsheet hmem
  refine ⟨declaration?_eq text block property ▸ hn, hspan ▸ htakes, hsemicolon, t, hmem, hconstruct, hspan, ?_⟩
  rw [hspan]
  exact h.spares hnested hbody hconstruct ht htakes

/-- **The deletions of two properties are apart.** -/
theorem IsBodyOf.deletions_apart (h : IsBodyOf text body block) (hsheet : grammarTree? text = some sheet) (hbody : body ∈ sheet.walk)
    (hn : declaration? text block property = some n) (hn' : declaration? text block property' = some n')
    (hne : property ≠ property') :
    (deletionSpan text.toList n.span).stop ≤ (deletionSpan text.toList n'.span).start ∨
      (deletionSpan text.toList n'.span).stop ≤ (deletionSpan text.toList n.span).start := by
  have hnested := (wellNested_grammarTree? hsheet).1.of_mem_walk hbody
  obtain ⟨hmem, hname⟩ := of_declaration? hn
  obtain ⟨hmem', hname'⟩ := of_declaration? hn'
  obtain ⟨t, ht, hconstruct, hnode, hspan, -⟩ := h.exists_declaration hnested hmem
  obtain ⟨t', ht', hconstruct', hnode', hspan', -⟩ := h.exists_declaration hnested hmem'
  have hdistinct : t ≠ t' := by
    rintro rfl
    obtain rfl := Except.ok.inj (hnode.symm.trans hnode')
    exact hne (hname.symm.trans hname')
  have htakes {t : GrammarTree} (ht : t ∈ body.children) :=
    takes_of_mem_walk hsheet (GrammarTree.walk_subset hbody (GrammarTree.mem_walk_of_mem_children ht))
  rw [hspan, hspan']
  exact h.apart hnested hconstruct hconstruct' ht ht' hdistinct (htakes ht) (htakes ht')

end

end SlotEdit.Css
