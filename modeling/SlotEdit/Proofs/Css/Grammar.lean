import SlotEdit.Css.Grammar
import SlotEdit.Proofs.Css.Outlines
import SlotEdit.Proofs.Syntax.Readings

/-!
# Proofs/Css/Grammar — pieces of a style sheet are laid in order

A piece lays its nodes between the cursor it is given and the one it gives (`Lays`).  Leaves and marks
do since extents advance; every other piece is put together of pieces that do, so blocks nested to
any depth are laid, and so is a whole style sheet (`wellNested_grammarTree?`).  An item of a block ends
in a character that is no blank (`Closes`), or it is a declaration in front of the closing brace; so the
pieces of every block are outlined.
-/

namespace SlotEdit.Css.Grammar

open Cursor

/-- Pieces in braces, outlined. -/
structure Enclosed (text : String) (ts : List GrammarTree) : Prop where
  outlined : Outlined text.toList ts
  first : ts.head?.map GrammarTree.construct = some "\x7b"
  last : ts.getLast?.map GrammarTree.construct = some "\x7d"

/-- A declaration reaches from its name to its last value or to the semicolon, which is then its last character. -/
structure Spanned (text : String) (t : GrammarTree) : Prop where
  first : ∃ name, t.children.head? = some name ∧ name.construct = "property_name" ∧ name.span.start = t.span.start
  last : ∃ u, t.children.getLast? = some u ∧ u.construct ∈ ["plain_value", ";"] ∧ u.span.stop = t.span.stop ∧
    (u.construct = ";" → ∃ m, t.span.stop = m + 1 ∧ text.toList[m]? = some ';')

/-- Blocks and colons are never empty, blocks are outlined, and declarations reach as far as their pieces. -/
structure Solid (text : String) (t : GrammarTree) : Prop where
  start_lt_stop : t.construct ∈ ["block", ":"] → t.span.start < t.span.stop
  enclosed : t.construct = "block" → Enclosed text t.children
  spanned : t.construct = "declaration" → Spanned text t

/-- **A piece that lays its nodes** between two cursors of a text. -/
def Lays (piece : Piece) : Prop :=
  ∀ ⦃text c ts c'⦄, (Cursor.ofText text).Reaches c → piece c = some (ts, c') → Laid (Solid text) c ts c'

/-- A piece that takes at least one character. -/
def Proceeds (piece : Piece) : Prop := ∀ ⦃c ts c'⦄, piece c = some (ts, c') → c.offset < c'.offset

variable {text : String} {c c' : Cursor} {t : GrammarTree} {ts : List GrammarTree}

/-- A piece that moves along the text. -/
def Reaching (piece : Piece) : Prop := ∀ ⦃c ts c'⦄, piece c = some (ts, c') → c.Reaches c'

theorem Lays.reaching {piece : Piece} (h : Lays piece) : Reaching piece := fun c _ _ hpiece =>
  (exists_reaches c).elim fun _ hc => (h hc hpiece).reaches

/-- A piece behind what is laid. -/
theorem Lays.after {piece : Piece} {d : Cursor} {us : List GrammarTree} (hp : Lays piece) (hc : (Cursor.ofText text).Reaches c)
    (hts : Laid (Solid text) c ts d) (h : piece d = some (us, c')) : Laid (Solid text) c (ts ++ us) c' :=
  hts.append (hp (hc.trans hts.reaches) h)

theorem solid_of_not_mem (h : t.construct ∉ ["block", ":", "declaration"]) : Solid text t := by
  simp only [List.mem_cons, List.not_mem_nil, or_false, not_or] at h
  obtain ⟨hblock, hcolon, hdeclaration⟩ := h
  refine ⟨fun hmem => ?_, fun hmem => absurd hmem hblock, fun hmem => absurd hmem hdeclaration⟩
  simp only [List.mem_cons, List.not_mem_nil, or_false] at hmem
  exact absurd hmem (by simp only [hblock, hcolon, or_self, not_false_eq_true])

theorem solid_of_lt (h : t.span.start < t.span.stop) (hne : t.construct ∉ ["block", "declaration"]) : Solid text t := by
  simp only [List.mem_cons, List.not_mem_nil, or_false, not_or] at hne
  exact ⟨fun _ => h, fun hmem => absurd hmem hne.1, fun hmem => absurd hmem hne.2⟩

/-! ## Pieces in general -/

theorem laid_leaf {construct : String} (h : construct ∉ ["block", ":", "declaration"]) (hc : c.Reaches c') :
    Laid (Solid text) c [.named construct ⟨c.offset, c'.offset⟩ []] c' :=
  (Laid.nil hc).node (solid_of_not_mem h)

theorem lays_leaf {construct : String} (h : construct ∉ ["block", ":", "declaration"]) {extent : Extent}
    (he : Advances extent) : Lays (leaf construct extent) := by
  intro text c ts c' _ hleaf
  obtain ⟨after, hafter, heq⟩ := Option.map_eq_some_iff.mp hleaf
  obtain ⟨rfl, rfl⟩ := Prod.mk.inj heq
  exact laid_leaf h (he.reaches hafter)

theorem mark_eq_some {x : Char} : mark x c = some (ts, c') ↔
    c.peek? = some x ∧ ts = [.token (String.singleton x) ⟨c.offset, (c.drop 1).offset⟩] ∧ c' = c.drop 1 := by
  rw [mark, char?]
  split
  · next hpeek =>
    rw [Option.map_some, Option.some.injEq, Prod.mk.injEq, eq_comm (b := ts), eq_comm (b := c')]
    exact (and_iff_right hpeek).symm
  · next hpeek => exact iff_of_false (Option.some_ne_none _).symm fun h => hpeek h.1

theorem mark_eq_none {x : Char} : mark x c = none ↔ c.peek? ≠ some x := by
  rw [mark, Option.map_eq_none_iff, char?, ite_eq_right_iff]
  exact ⟨fun h hx => Option.some_ne_none _ (h hx), fun h hx => absurd hx h⟩

theorem proceeds_mark (expected : Char) : Proceeds (mark expected) := by
  intro c ts c' h
  obtain ⟨hpeek, -, rfl⟩ := mark_eq_some.mp h
  exact offset_drop_one hpeek ▸ Nat.lt_succ_self _

theorem lays_mark (expected : Char) : Lays (mark expected) := by
  intro text c ts c' _ h
  have hlt := proceeds_mark expected h
  obtain ⟨-, rfl, rfl⟩ := mark_eq_some.mp h
  refine (Laid.nil (reaches_drop 1 c)).node (solid_of_lt hlt fun hmem => ?_)
  -- a mark is one character
  have hlength : ∀ name ∈ ["block", "declaration"], name.length ≠ 1 := by decide
  exact hlength _ hmem String.length_singleton

theorem laid_comment? (h : comment? c = some (t, c')) : Laid (Solid text) c [t] c' := by
  have hreaches := reaches_of_comment? h
  rw [comment?] at h
  split at h
  · obtain ⟨n, -, heq⟩ := Option.map_eq_some_iff.mp h
    obtain ⟨rfl, rfl⟩ := Prod.mk.inj heq
    exact laid_leaf (by decide) hreaches
  · obtain ⟨rfl, rfl⟩ := Prod.mk.inj (Option.some.inj h)
    exact laid_leaf (by decide) hreaches
  · cases h

theorem laid_extrasFrom (inValue : Bool) (turns : Nat) (c : Cursor) :
    Laid (Solid text) c (extrasFrom inValue turns c).1 (extrasFrom inValue turns c).2 := by
  fun_induction extrasFrom with
  | case1 turns c next => exact Laid.nil (reaches_skipWhile _ c)
  | case2 c next _ turns comment after hcomment more last hmore ih =>
    rw [hmore] at ih
    exact ((laid_comment? hcomment).cons ih).behind (reaches_skipWhile _ c)
  | case3 => exact Laid.nil (reaches_skipWhile _ _)

theorem laid_extras (c : Cursor) : Laid (Solid text) c (extras c).1 (extras c).2 := laid_extrasFrom _ _ c

theorem laid_valueExtras (c : Cursor) : Laid (Solid text) c (valueExtras c).1 (valueExtras c).2 := laid_extrasFrom _ _ c

section

variable {first second piece : Piece}

theorem exists_of_andThen (h : andThen first second c = some (ts, c')) : ∃ a middle b, first c = some (a, middle) ∧
    second (skip middle) = some (b, c') ∧ ts = a ++ (extras middle).1 ++ b := by
  obtain ⟨⟨a, middle⟩, ha, h⟩ := Option.bind_eq_some_iff.mp h
  obtain ⟨⟨b, after⟩, hb, h⟩ := Option.bind_eq_some_iff.mp h
  obtain ⟨rfl, rfl⟩ := Prod.mk.inj (Option.some.inj h)
  exact ⟨a, middle, b, ha, hb, rfl⟩

/-- What the second piece takes follows the first, with the comments between them. -/
theorem laid_of_andThen (hs : Lays second) (h : andThen first second c = some (ts, c')) :
    ∃ a middle b, first c = some (a, middle) ∧ ts = a ++ b ∧
      ((Cursor.ofText text).Reaches middle → Laid (Solid text) middle b c') := by
  obtain ⟨a, middle, b, ha, hb, rfl⟩ := exists_of_andThen h
  have hextras : Laid (Solid text) middle _ _ := laid_extras middle
  exact ⟨a, middle, _, ha, List.append_assoc .., fun hc => hs.after hc hextras hb⟩

theorem exists_of_andThenValue (h : andThenValue first second c = some (ts, c')) : ∃ a middle b, first c = some (a, middle) ∧
    second (skipToValue middle) = some (b, c') ∧ ts = a ++ (valueExtras middle).1 ++ b := by
  obtain ⟨⟨a, middle⟩, ha, h⟩ := Option.bind_eq_some_iff.mp h
  obtain ⟨⟨b, after⟩, hb, h⟩ := Option.bind_eq_some_iff.mp h
  obtain ⟨rfl, rfl⟩ := Prod.mk.inj (Option.some.inj h)
  exact ⟨a, middle, b, ha, hb, rfl⟩

theorem laid_of_andThenValue (hs : Lays second) (h : andThenValue first second c = some (ts, c')) :
    ∃ a middle b, first c = some (a, middle) ∧ ts = a ++ b ∧
      ((Cursor.ofText text).Reaches middle → Laid (Solid text) middle b c') := by
  obtain ⟨a, middle, b, ha, hb, rfl⟩ := exists_of_andThenValue h
  have hextras : Laid (Solid text) middle _ _ := laid_valueExtras middle
  exact ⟨a, middle, _, ha, List.append_assoc .., fun hc => hs.after hc hextras hb⟩

theorem lays_andThen (hf : Lays first) (hs : Lays second) : Lays (andThen first second) := by
  intro text c ts c' hc h
  obtain ⟨a, middle, b, ha, rfl, hb⟩ := laid_of_andThen hs h
  have ha := hf hc ha
  exact ha.append (hb (hc.trans ha.reaches))

theorem lays_andThenValue (hf : Lays first) (hs : Lays second) : Lays (andThenValue first second) := by
  intro text c ts c' hc h
  obtain ⟨a, middle, b, ha, rfl, hb⟩ := laid_of_andThenValue hs h
  have ha := hf hc ha
  exact ha.append (hb (hc.trans ha.reaches))

theorem lays_orElse (hf : Lays first) (hs : Lays second) : Lays (orElse first second) := by
  intro text c ts c' hc h
  rcases Option.or_eq_some_iff.mp h with h | ⟨-, h⟩
  · exact hf hc h
  · exact hs hc h

/-- A node over a piece, which says of it what must hold of such a node. -/
theorem lays_wrapped {construct : String} (hp : Lays piece)
    (h : construct ∈ ["block", ":", "declaration"] → ∀ ⦃text c ts c'⦄, (Cursor.ofText text).Reaches c → piece c = some (ts, c') →
      Solid text (.named construct ⟨c.offset, c'.offset⟩ ts)) : Lays (wrapped construct piece) := by
  intro text c ts c' hc hwrapped
  obtain ⟨⟨children, after⟩, hpiece, heq⟩ := Option.map_eq_some_iff.mp hwrapped
  obtain ⟨rfl, rfl⟩ := Prod.mk.inj heq
  refine (hp hc hpiece).node ?_
  by_cases hmem : construct ∈ ["block", ":", "declaration"]
  · exact h hmem hc hpiece
  · exact solid_of_not_mem hmem

end

/-! ## Declarations -/

theorem laid_declarationColon? {turns : Nat} (h : declarationColon? turns c = some (ts, c')) :
    Laid (Solid text) c ts c' := by
  fun_induction declarationColon? turns c generalizing ts with
  | case3 | case5 =>
    obtain ⟨rfl, rfl⟩ := Prod.mk.inj (Option.some.inj h)
    exact Laid.nil (reaches_skipWhile _ _)
  | case6 c next turns comment after hcomment =>
    rename_i ih
    obtain ⟨⟨more, colon⟩, hmore, heq⟩ := Option.map_eq_some_iff.mp h
    obtain ⟨rfl, rfl⟩ := Prod.mk.inj heq
    exact ((laid_comment? hcomment).cons (ih hmore)).behind (reaches_skipWhile _ c)
  | _ => cases h

section

variable {value : Extent}

/-- **More values**: none, or one behind what may stand between two, and then more. -/
theorem moreValues_cases {turns : Nat} (h : moreValues value turns c = some (ts, c')) : (ts = [] ∧ c' = c) ∨
    ∃ turns' before start v after more, turns = turns' + 1 ∧
      (∀ text, (Cursor.ofText text).Reaches c → Laid (Solid text) c before start) ∧
      leaf "plain_value" value start = some (v, after) ∧ moreValues value turns' after = some (more, c') ∧
      ts = before ++ v ++ more := by
  cases turns with
  | zero =>
    obtain ⟨rfl, rfl⟩ := Prod.mk.inj (Option.some.inj h)
    exact .inl ⟨rfl, rfl⟩
  | succ turns =>
    rw [moreValues] at h
    simp only at h
    -- whatever stands before the next value, the value and all behind it follow
    have hitem {before : List GrammarTree} {start : Cursor}
        (hbefore : ∀ text, (Cursor.ofText text).Reaches c → Laid (Solid text) c before start) (h : ((leaf "plain_value" value start).bind fun x => (moreValues value turns x.2).bind fun y =>
          some (before ++ x.1 ++ y.1, y.2)) = some (ts, c')) : ∃ turns' before start v after more, turns + 1 = turns' + 1 ∧
            (∀ text, (Cursor.ofText text).Reaches c → Laid (Solid text) c before start) ∧
            leaf "plain_value" value start = some (v, after) ∧ moreValues value turns' after = some (more, c') ∧
            ts = before ++ v ++ more := by
      obtain ⟨⟨v, after⟩, hv, h⟩ := Option.bind_eq_some_iff.mp h
      obtain ⟨⟨more, last⟩, hmore, h⟩ := Option.bind_eq_some_iff.mp h
      obtain ⟨rfl, rfl⟩ := Prod.mk.inj (Option.some.inj h)
      exact ⟨turns, before, start, v, after, more, rfl, hbefore, hv, hmore, rfl⟩
    split at h
    · next comma after hcomma =>
      exact .inr (hitem (fun text hc =>
        ((lays_mark ',').after hc (laid_valueExtras c) hcomma).append (laid_valueExtras after)) h)
    · split at h
      · exact .inr (hitem (fun text _ => laid_valueExtras c) h)
      · split at h
        · next after hoperator =>
          refine .inr (hitem (fun text _ => ?_) h)
          have htoken : Laid (Solid text) (valueExtras c).2 [.token "operator" ⟨(valueExtras c).2.offset, after.offset⟩]
              after := (Laid.nil (passes_of_operator? hoperator).reaches).node
                (solid_of_not_mem (show "operator" ∉ ["block", ":", "declaration"] by decide))
          exact ((laid_valueExtras c).append htoken).append (laid_valueExtras after)
        · obtain ⟨rfl, rfl⟩ := Prod.mk.inj (Option.some.inj h)
          exact .inl ⟨rfl, rfl⟩

theorem lays_moreValues (hv : Advances value) (turns : Nat) : Lays (moreValues value turns) := by
  induction turns with
  | zero =>
    intro text c ts c' hc h
    obtain ⟨rfl, rfl⟩ := Prod.mk.inj (Option.some.inj h)
    exact Laid.nil (Reaches.refl c)
  | succ turns ih =>
    intro text c ts c' hc h
    obtain ⟨rfl, rfl⟩ | ⟨_, before, start, v, after, more, hturns, hbefore, hplain, hmore, rfl⟩ := moreValues_cases h
    · exact Laid.nil (Reaches.refl _)
    · obtain rfl := Nat.succ.inj hturns
      exact ih.after hc ((lays_leaf (by decide) hv).after hc (hbefore text hc) hplain) hmore

/-- The last piece is a value, and nothing stands behind it. -/
def EndsInValue (ts : List GrammarTree) (c : Cursor) : Prop :=
  ∃ v, ts.getLast? = some v ∧ v.construct = "plain_value" ∧ v.span.stop = c.offset

theorem endsInValue_leaf {before v : List GrammarTree} (h : leaf "plain_value" value c = some (v, c')) :
    EndsInValue (before ++ v) c' := by
  obtain ⟨after, hafter, heq⟩ := Option.map_eq_some_iff.mp h
  obtain ⟨rfl, rfl⟩ := Prod.mk.inj heq
  exact ⟨_, List.getLast?_concat, rfl, rfl⟩

theorem endsInValue_of_moreValues {turns : Nat} (hts : EndsInValue ts c) {more : List GrammarTree}
    (h : moreValues value turns c = some (more, c')) : EndsInValue (ts ++ more) c' := by
  induction turns generalizing c ts more with
  | zero =>
    obtain ⟨rfl, rfl⟩ := Prod.mk.inj (Option.some.inj h)
    rwa [List.append_nil]
  | succ turns ih =>
    obtain ⟨rfl, rfl⟩ | ⟨_, before, start, v, after, more, hturns, -, hplain, hmore, rfl⟩ := moreValues_cases h
    · rwa [List.append_nil]
    · obtain rfl := Nat.succ.inj hturns
      rw [← List.append_assoc, ← List.append_assoc]
      exact ih (endsInValue_leaf hplain) hmore

/-- **A declaration** starts with a name; a semicolon closes it, or the closing brace of the block is next. -/
theorem exists_of_declaration (hv : Advances value) {inBlock : Bool} (hc : (Cursor.ofText text).Reaches c)
    (h : declaration value inBlock c = some (ts, c')) : c.rest ≠ [] ∧ ∃ children last, Laid (Solid text) c children last ∧
      (∃ name, children.head? = some name ∧ name.construct = "property_name" ∧ name.span.start = c.offset) ∧
      EndsInValue children last ∧
      ((∃ semicolon, mark ';' (skip last) = some (semicolon, c') ∧
          ts = [.named "declaration" ⟨c.offset, c'.offset⟩ (children ++ (extras last).1 ++ semicolon)]) ∨
        ((skip last).peek? = some '\x7d' ∧ c' = last ∧ ts = [.named "declaration" ⟨c.offset, c'.offset⟩ children])) := by
  obtain ⟨⟨name, afterName⟩, hname, h⟩ := Option.bind_eq_some_iff.mp h
  obtain ⟨⟨before, atColon⟩, hbefore, h⟩ := Option.bind_eq_some_iff.mp h
  obtain ⟨⟨colon, afterColon⟩, hcolon, h⟩ := Option.bind_eq_some_iff.mp h
  obtain ⟨⟨first, afterFirst⟩, hfirst, h⟩ := Option.bind_eq_some_iff.mp h
  obtain ⟨⟨more, last⟩, hmore, h⟩ := Option.bind_eq_some_iff.mp h
  have hplain : Lays (leaf "plain_value" value) := lays_leaf (by decide) hv
  have hne : c.rest ≠ [] := fun hnil => by
    rw [leaf, ident?, hnil, show identLength [] = 0 from rfl] at hname
    cases hname
  have hlaid : Laid (Solid text) c name afterName := lays_leaf (by decide) (fun _ _ => passes_of_ident?) hc hname
  have hcolon := (lays_mark ':').after hc (hlaid.append (laid_declarationColon? hbefore)) hcolon
  have hvalue := hplain.after hc (hcolon.append (laid_valueExtras afterColon)) hfirst
  have hhead : ∃ t, name = [t] ∧ t.construct = "property_name" ∧ t.span.start = c.offset := by
    obtain ⟨_, -, heq⟩ := Option.map_eq_some_iff.mp hname
    exact ⟨_, (Prod.mk.inj heq).1.symm, rfl, rfl⟩
  refine ⟨hne, _, last, (lays_moreValues hv _).after hc hvalue hmore, ?_,
    endsInValue_of_moreValues (endsInValue_leaf hfirst) hmore, ?_⟩
  · obtain ⟨t, ht, hconstruct, hstart⟩ := hhead
    rw [ht]
    exact ⟨t, rfl, hconstruct, hstart⟩
  simp only at h
  split at h
  · next semicolon after hsemicolon =>
    obtain ⟨rfl, rfl⟩ := Prod.mk.inj (Option.some.inj h)
    exact .inl ⟨semicolon, hsemicolon, rfl⟩
  · split at h
    · next hbrace =>
      obtain ⟨rfl, rfl⟩ := Prod.mk.inj (Option.some.inj h)
      exact .inr ⟨eq_of_beq (Bool.and_eq_true_iff.mp hbrace).2, rfl, rfl⟩
    · cases h

theorem lays_declaration (hv : Advances value) (inBlock : Bool) : Lays (declaration value inBlock) := by
  intro text c ts c' hc h
  obtain ⟨-, children, last, hchildren, ⟨name, hname, hfirst⟩, ⟨v, hv, hconstruct, hstop⟩, hends⟩ :=
    exists_of_declaration hv hc h
  have hnode {children : List GrammarTree} (hspanned : Spanned text (.named "declaration" ⟨c.offset, c'.offset⟩ children)) :
      Solid text (.named "declaration" ⟨c.offset, c'.offset⟩ children) :=
    ⟨fun hmem => absurd hmem (show "declaration" ∉ ["block", ":"] by decide),
      fun hblock => absurd hblock (show "declaration" ≠ "block" by decide), fun _ => hspanned⟩
  obtain ⟨semicolon, hsemicolon, rfl⟩ | ⟨-, rfl, rfl⟩ := hends
  · refine ((lays_mark ';').after hc (hchildren.append (laid_extras last)) hsemicolon).node (hnode ?_)
    obtain ⟨hpeek, rfl, rfl⟩ := mark_eq_some.mp hsemicolon
    have hskip := hc.trans (hchildren.reaches.trans (passes_skip last).reaches)
    refine ⟨⟨name, ?_, hfirst⟩, _, List.getLast?_concat, List.mem_cons_of_mem _ List.mem_cons_self, rfl, fun _ =>
      ⟨_, offset_drop_one hpeek, hskip.getElem?_offset.trans hpeek⟩⟩
    rw [GrammarTree.named, GrammarTree.children, List.append_assoc, List.head?_append, hname, Option.some_or]
  · refine hchildren.node (hnode ⟨⟨name, hname, hfirst⟩, v, hv, hconstruct ▸ List.mem_cons_self, hstop, fun hmark => ?_⟩)
    exact absurd (hconstruct.symm.trans hmark) (by decide)

end

/-! ## Rules -/

/-- Readers that advance. -/
structure Readers.Advance (readers : Readers) : Prop where
  value : Advances readers.value
  selector : Advances readers.selector
  query : Advances readers.query

theorem Readers.advance_ofSize (size : Nat) : (Readers.ofSize size).Advance :=
  have hv := advances_atom (size + 1)
  have hs := advances_selector hv (size + 1)
  ⟨hv, hs, advances_query hv hs (size + 1)⟩

section

variable {readers : Readers} {block piece : Piece} {query : Extent}

theorem lays_ruleSet (hr : readers.Advance) (hb : Lays block) : Lays (ruleSet readers block) :=
  lays_wrapped (lays_andThen (lays_leaf (by decide) (advances_selectors hr.selector)) hb)
    fun hmem => absurd hmem (by decide)

theorem lays_queries (hq : Advances query) (turns : Nat) : Lays (queries query turns) := by
  induction turns with
  | zero => exact fun _ _ _ _ _ h => nomatch h
  | succ turns ih =>
    intro text c ts c' hc h
    obtain ⟨⟨first, after⟩, hfirst, h⟩ := Option.bind_eq_some_iff.mp h
    have hfirst : Laid (Solid text) c first after := lays_leaf (by decide) hq hc hfirst
    simp only at h
    split at h
    · obtain ⟨⟨more, last⟩, hmore, h⟩ := Option.bind_eq_some_iff.mp h
      obtain ⟨rfl, rfl⟩ := Prod.mk.inj (Option.some.inj h)
      exact (lays_andThen (lays_mark ',') ih).after hc (hfirst.append (laid_extras after)) hmore
    · obtain ⟨rfl, rfl⟩ := Prod.mk.inj (Option.some.inj h)
      exact hfirst

theorem lays_queriesThen (hq : Advances query) (hp : Lays piece) : Lays (queriesThen query piece) := by
  intro text c ts c' hc h
  rw [queriesThen] at h
  split at h
  · exact lays_andThen (lays_queries hq _) hp hc h
  · exact hp hc h

theorem advances_keyframeSelector : Advances keyframeSelector := by
  intro c c' h
  rw [keyframeSelector] at h
  rcases Option.or_eq_some_iff.mp h with h | ⟨-, h⟩
  · grind
  · obtain ⟨after, hafter, rfl⟩ := Option.map_eq_some_iff.mp h
    have hinteger := passes_lexeme (fun _ _ => integerLength_append) integerLength_le c
    exact (passes_of_taken? hinteger hafter).trans
      (passes_lexeme (fun _ _ => unitLength_append) unitLength_le after)

theorem lays_keyframeHead (hb : Lays block) (turns : Nat) : Lays (keyframeHead block turns) := by
  induction turns with
  | zero => exact fun _ _ _ _ _ h => nomatch h
  | succ turns ih =>
    exact fun text c => lays_andThen (lays_leaf (by decide) advances_keyframeSelector)
      (lays_orElse hb (lays_andThen (lays_mark ',') ih)) (c := c)

/-- Items up to a brace: the brace is next, or an item and then more of them. -/
theorem itemsUntilBrace_cases {turns : Nat} (h : itemsUntilBrace piece turns c = some (ts, c')) :
    (∃ brace, mark '\x7d' (skip c) = some (brace, c') ∧ ts = (extras c).1 ++ brace) ∨
      ∃ turns' node after more, turns = turns' + 1 ∧ (skip c).peek? ≠ some '\x7d' ∧ piece (skip c) = some (node, after) ∧
        itemsUntilBrace piece turns' after = some (more, c') ∧ ts = (extras c).1 ++ node ++ more := by
  rw [itemsUntilBrace.eq_def] at h
  simp only at h
  split at h
  · next brace after hmark =>
    obtain ⟨rfl, rfl⟩ := Prod.mk.inj (Option.some.inj h)
    exact .inl ⟨brace, hmark, rfl⟩
  · next hmark =>
    cases turns with
    | zero => cases h
    | succ turns =>
      obtain ⟨⟨node, after⟩, hnode, h⟩ := Option.bind_eq_some_iff.mp h
      obtain ⟨⟨more, last⟩, hmore, h⟩ := Option.bind_eq_some_iff.mp h
      obtain ⟨rfl, rfl⟩ := Prod.mk.inj (Option.some.inj h)
      exact .inr ⟨turns, node, after, more, rfl, mark_eq_none.mp hmark, hnode, hmore, rfl⟩

theorem laid_itemsUntilBrace (hp : Lays piece) {turns : Nat} (hc : (Cursor.ofText text).Reaches c)
    (h : itemsUntilBrace piece turns c = some (ts, c')) : Laid (Solid text) c ts c' := by
  induction turns generalizing c ts with
  | zero =>
    obtain ⟨brace, hbrace, rfl⟩ | ⟨_, _, _, _, hturns, -⟩ := itemsUntilBrace_cases h
    · exact (lays_mark _).after hc (laid_extras c) hbrace
    · cases hturns
  | succ turns ih =>
    obtain ⟨brace, hbrace, rfl⟩ | ⟨_, node, after, more, hturns, -, hnode, hmore, rfl⟩ := itemsUntilBrace_cases h
    · exact (lays_mark _).after hc (laid_extras c) hbrace
    · obtain rfl := Nat.succ.inj hturns
      have hitem := hp.after hc (laid_extras c) hnode
      exact hitem.append (ih (hc.trans hitem.reaches) hmore)

/-- What is read as an item of a block: one node on all of it, which ends in a character that is no blank
unless the closing brace is next. -/
structure IsItem (text : String) (c : Cursor) (ts : List GrammarTree) (c' : Cursor) : Prop where
  single : ∃ t, ts = [t] ∧ t.span = ⟨c.offset, c'.offset⟩
  ne_nil : c.rest ≠ []
  ends : Shuts text.toList c'.offset ∨ (skip c').peek? = some '\x7d'

/-- A piece that reads items of blocks. -/
def Items (piece : Piece) : Prop :=
  ∀ ⦃text c ts c'⦄, (Cursor.ofText text).Reaches c → piece c = some (ts, c') → IsItem text c ts c'

/-- Up to a brace that is next there are only comments. -/
theorem trailing_of_itemsUntilBrace {turns : Nat} (hc : (Cursor.ofText text).Reaches c) (hbrace : (skip c).peek? = some '\x7d')
    (h : itemsUntilBrace piece turns c = some (ts, c')) : ∀ t ∈ ts, t.construct ∈ trailingConstructs := by
  obtain ⟨brace, hmark, rfl⟩ | ⟨_, _, _, _, -, hne, -⟩ := itemsUntilBrace_cases h
  · obtain ⟨-, rfl, -⟩ := mark_eq_some.mp hmark
    refine List.forall_mem_append.mpr ⟨fun t ht => List.mem_append_left _ (outline_of_mem_extras hc t ht).1, ?_⟩
    exact List.forall_mem_singleton.mpr (List.mem_append_right commentConstructs List.mem_cons_self)
  · exact absurd hbrace hne

/-- **Items up to a brace are outlined**, and the brace is the last of them. -/
theorem outlined_itemsUntilBrace (hp : Lays piece) (hi : Items piece) {turns : Nat} (hc : (Cursor.ofText text).Reaches c)
    (h : itemsUntilBrace piece turns c = some (ts, c')) :
    Outlined text.toList ts ∧ ts.getLast?.map GrammarTree.construct = some "\x7d" := by
  have hcomments {c : Cursor} (hc : (Cursor.ofText text).Reaches c) : ∀ t ∈ (extras c).1,
      Opens text.toList t.span.start ∧ Closed text.toList t := fun t ht => (outline_of_mem_extras hc t ht).2
  have hlast {c : Cursor} {brace : List GrammarTree} (hc : (Cursor.ofText text).Reaches c)
      (hmark : mark '\x7d' (skip c) = some (brace, c')) : Outlined text.toList ((extras c).1 ++ brace) ∧
        ((extras c).1 ++ brace).getLast?.map GrammarTree.construct = some "\x7d" := by
    obtain ⟨hpeek, rfl, -⟩ := mark_eq_some.mp hmark
    refine ⟨.append (hcomments hc) (.cons (opens_of_peek? (hc.trans (passes_skip c).reaches) hpeek rfl) .nil (.inr nofun)), ?_⟩
    rw [List.getLast?_concat]
    rfl
  induction turns generalizing c ts with
  | zero =>
    obtain ⟨brace, hmark, rfl⟩ | ⟨_, _, _, _, hturns, -⟩ := itemsUntilBrace_cases h
    · exact hlast hc hmark
    · cases hturns
  | succ turns ih =>
    obtain ⟨brace, hmark, rfl⟩ | ⟨_, node, after, more, hturns, -, hnode, hmore, rfl⟩ := itemsUntilBrace_cases h
    · exact hlast hc hmark
    · obtain rfl := Nat.succ.inj hturns
      have hskip := hc.trans (passes_skip c).reaches
      have hafter := hskip.trans (hp hskip hnode).reaches
      obtain ⟨hmoreOutlined, hmoreLast⟩ := ih hafter hmore
      obtain ⟨⟨t, rfl, hspan⟩, hne, hends⟩ := hi hskip hnode
      -- no blank is left in front of the item
      obtain ⟨x, hx⟩ : ∃ x, (skip c).peek? = some x :=
        Option.isSome_iff_exists.mp (List.isSome_head?.mpr hne)
      have hopens : Opens text.toList t.span.start := by
        rw [hspan]
        exact opens_of_peek? hskip hx (isAsciiBlank_of_peek?_extrasFrom _ _ hx)
      rw [List.append_assoc]
      refine ⟨.append (hcomments hc) (.cons hopens hmoreOutlined ?_), ?_⟩
      · rw [Closed, hspan]
        exact hends.imp .inr fun hbrace => trailing_of_itemsUntilBrace hafter hbrace hmore
      · obtain ⟨last, hmem, hconstruct⟩ := Option.map_eq_some_iff.mp hmoreLast
        rw [← List.append_assoc, List.getLast?_append, hmem, Option.some_or, Option.map_some, hconstruct]

/-- Items in braces take at least the braces, and those of a block are outlined. -/
theorem lays_braced {construct : String} (hne : construct ≠ "declaration") (hp : Lays piece)
    (hi : construct = "block" → Items piece) : Lays (braced construct piece) := by
  have hlaid {text : String} {c c' : Cursor} {ts : List GrammarTree} (hc : (Cursor.ofText text).Reaches c)
      (h : ((mark '\x7b' c).bind fun x => (itemsUntilBrace piece x.2.rest.length x.2).bind fun y =>
        some (x.1 ++ y.1, y.2)) = some (ts, c')) :
      Laid (Solid text) c ts c' ∧ c.offset < c'.offset ∧ (construct = "block" → Enclosed text ts) := by
    obtain ⟨⟨brace, inside⟩, hbrace, h⟩ := Option.bind_eq_some_iff.mp h
    obtain ⟨⟨items, after⟩, hitems, h⟩ := Option.bind_eq_some_iff.mp h
    obtain ⟨rfl, rfl⟩ := Prod.mk.inj (Option.some.inj h)
    have hopen := lays_mark _ hc hbrace
    have hinside := laid_itemsUntilBrace hp (hc.trans hopen.reaches) hitems
    refine ⟨hopen.append hinside, Nat.lt_of_lt_of_le (proceeds_mark _ hbrace) hinside.reaches.offset_le, fun hblock => ?_⟩
    obtain ⟨houtlined, hlast⟩ := outlined_itemsUntilBrace hp (hi hblock) (hc.trans hopen.reaches) hitems
    obtain ⟨hpeek, rfl, rfl⟩ := mark_eq_some.mp hbrace
    refine ⟨.cons (opens_of_peek? hc hpeek rfl) houtlined (.inl (.inr (shuts_drop_one hc hpeek rfl))), rfl, ?_⟩
    obtain ⟨last, hmem, hconstruct⟩ := Option.map_eq_some_iff.mp hlast
    rw [List.getLast?_append, hmem, Option.some_or, Option.map_some, hconstruct]
  exact lays_wrapped (fun _ _ _ _ hc h => (hlaid hc h).1)
    fun _ _ _ _ _ hc h => ⟨fun _ => (hlaid hc h).2.1, (hlaid hc h).2.2, fun hdeclaration => absurd hdeclaration hne⟩

theorem lays_scopeHead (hs : Advances query) (hb : Lays block) : Lays (scopeHead query block) := by
  have hlimit {p : Piece} (hp : Lays p) : Lays (andThen (mark '(')
      (andThen (leaf "selectors" (selectors query)) (andThen (mark ')') p))) :=
    lays_andThen (lays_mark _) (lays_andThen (lays_leaf (by decide) (advances_selectors hs))
      (lays_andThen (lays_mark _) hp))
  have hto : Lays (leaf "to" (keyword? "to")) := lays_leaf (by decide) fun _ _ => passes_of_keyword?
  have hlower := lays_orElse (lays_andThen hto (hlimit hb)) hb
  exact lays_orElse (hlimit hlower) hlower

end

/-! ## At-rules and blocks -/

section

variable {readers : Readers} {block piece : Piece}

theorem advances_namespaceTarget {value : Extent} (hv : Advances value) : Advances (namespaceTarget value) := by
  unfold Advances at *
  grind [namespaceTarget]

theorem lays_atRuleBody (hr : readers.Advance) (hb : Lays block) (keyword : String) :
    Lays (atRuleBody readers block keyword) := by
  have hvalue : Lays (leaf "value" (single readers.value)) := lays_leaf (by decide) (advances_single hr.value)
  have hname {construct : String} (h : construct ∉ ["block", ":", "declaration"]) : Lays (leaf construct ident?) :=
    lays_leaf h fun _ _ => passes_of_ident?
  unfold atRuleBody
  split
  · exact lays_andThen hvalue (lays_queriesThen hr.query (lays_mark ';'))
  · exact lays_andThen hvalue (lays_mark ';')
  · have htarget : Lays (leaf "value" (namespaceTarget readers.value)) :=
      lays_leaf (by decide) (advances_namespaceTarget hr.value)
    exact lays_andThen (lays_orElse htarget (lays_andThenValue (hname (by decide)) htarget)) (lays_mark ';')
  · exact fun _ c => lays_andThen (lays_queries hr.query _) hb (c := c)
  · exact lays_andThen (lays_leaf (by decide) hr.query) hb
  · exact lays_scopeHead hr.selector hb
  · split
    · refine lays_andThen (hname (by decide)) (lays_braced (by decide) (fun _ c => ?_)
        fun hblock => absurd hblock (by decide))
      exact lays_wrapped (lays_keyframeHead hb _)
        (fun hmem => absurd hmem (show "keyframe_block" ∉ ["block", ":", "declaration"] by decide)) (c := c)
    · exact lays_queriesThen hr.query (lays_orElse (lays_mark ';') hb)

theorem atKeywordLength_le (s : List Char) : atKeywordLength s ≤ s.length := by
  fun_cases atKeywordLength s with
  | case2 rest hn =>
    have hsub := List.takeWhile_sublist (fun c => isAsciiLetter c || c == '-' || c == '_') (l := rest)
    exact Nat.succ_le_succ hsub.length_le
  | _ => exact Nat.zero_le _

/-- In front of an at-keyword stands an at sign. -/
theorem head?_of_atKeywordLength {s : List Char} (h : atKeywordLength s ≠ 0) : s.head? = some '@' := by
  rw [atKeywordLength.eq_def] at h
  split at h
  · rfl
  · exact absurd rfl h

theorem laid_atKeyword {n : Nat} (h : n ≤ c.rest.length) (hn : n ≠ 0) (hx : c.rest.head? = some '@') :
    Laid (Solid text) c [.token (String.ofList (c.rest.take n)) ⟨c.offset, c.offset + n⟩] (c.drop n) := by
  have hoffset : c.offset + n = (c.drop n).offset := by
    simp only [drop, Nat.min_eq_left h]
  rw [hoffset]
  refine (Laid.nil (reaches_drop n c)).node (solid_of_lt (hoffset ▸ Nat.lt_add_of_pos_right (Nat.pos_of_ne_zero hn)) ?_)
  -- the keyword starts with an at sign, which the names of other constructs do not
  have hat : ∀ name ∈ ["block", "declaration"], name.toList.head? ≠ some '@' := by decide
  intro hmem
  refine hat _ hmem ?_
  obtain ⟨k, rfl⟩ := Nat.exists_eq_succ_of_ne_zero hn
  rw [GrammarTree.construct, String.toList_ofList, List.head?_take, if_neg (Nat.succ_ne_zero k), hx]

/-- At-rules take at least their keyword. -/
theorem lays_atRule (hr : readers.Advance) (hb : Lays block) : Lays (atRule readers block) := by
  intro text c ts c' hc h
  rw [atRule] at h
  simp only at h
  split at h
  · cases h
  · next hn =>
    obtain ⟨⟨children, after⟩, hwhole, heq⟩ := Option.map_eq_some_iff.mp h
    obtain ⟨rfl, rfl⟩ := Prod.mk.inj heq
    have hbody := lays_atRuleBody hr hb (String.ofList (c.rest.take (atKeywordLength c.rest)))
    have hparts : ∃ a middle b, atKeyword (atKeywordLength c.rest) c = some (a, middle) ∧ children = a ++ b ∧
        ((Cursor.ofText text).Reaches middle → Laid (Solid text) middle b after) := by
      split at hwhole
      · exact laid_of_andThenValue hbody hwhole
      · exact laid_of_andThen hbody hwhole
    obtain ⟨keyword, middle, pieces, hkeyword, rfl, hpieces⟩ := hparts
    obtain ⟨rfl, rfl⟩ := Prod.mk.inj (Option.some.inj hkeyword)
    have hlaid : Laid (Solid text) c _ _ := laid_atKeyword (atKeywordLength_le c.rest) hn (head?_of_atKeywordLength hn)
    have hpieces := hpieces (hc.trans hlaid.reaches)
    have hproceeds : c.offset < (c.drop (atKeywordLength c.rest)).offset :=
      offset_lt_drop (fun hnil => hn (by rw [hnil]; rfl)) (Nat.pos_of_ne_zero hn)
    refine (hlaid.append hpieces).node (solid_of_lt (Nat.lt_of_lt_of_le hproceeds hpieces.reaches.offset_le) ?_)
    exact show "at_rule" ∉ ["block", "declaration"] by decide

theorem lays_item (hr : readers.Advance) (hb : Lays block) (inBlock : Bool) : Lays (item readers block inBlock) := by
  intro text c ts c' hc h
  rw [item] at h
  split at h
  · exact lays_atRule hr hb hc h
  · split at h
    · exact lays_declaration hr.value inBlock hc h
    · exact lays_ruleSet hr hb hc h

end

/-! ## How items end -/

/-- **A piece that ends in a character that is no blank.** -/
def Closes (piece : Piece) : Prop :=
  ∀ ⦃text c ts c'⦄, (Cursor.ofText text).Reaches c → piece c = some (ts, c') → Shuts text.toList c'.offset

section

variable {first second piece block : Piece} {query : Extent} {readers : Readers}

theorem reaching_leaf {construct : String} {extent : Extent} (he : Advances extent) : Reaching (leaf construct extent) := by
  intro c ts c' h
  obtain ⟨after, hafter, heq⟩ := Option.map_eq_some_iff.mp h
  obtain ⟨rfl, rfl⟩ := Prod.mk.inj heq
  exact he.reaches hafter

theorem reaching_atKeyword (n : Nat) : Reaching (atKeyword n) := by
  intro c ts c' h
  obtain ⟨rfl, rfl⟩ := Prod.mk.inj (Option.some.inj h)
  exact reaches_drop n c

theorem closes_mark {x : Char} (hx : isAsciiBlank x = false) : Closes (mark x) := by
  intro text c ts c' hc h
  obtain ⟨hpeek, -, rfl⟩ := mark_eq_some.mp h
  exact shuts_drop_one hc hpeek hx

theorem closes_andThen (hf : Reaching first) (hs : Closes second) : Closes (andThen first second) := by
  intro text c ts c' hc h
  obtain ⟨a, middle, b, ha, hb, -⟩ := exists_of_andThen h
  exact hs (hc.trans ((hf ha).trans (passes_skip middle).reaches)) hb

theorem closes_andThenValue (hf : Reaching first) (hs : Closes second) : Closes (andThenValue first second) := by
  intro text c ts c' hc h
  obtain ⟨a, middle, b, ha, hb, -⟩ := exists_of_andThenValue h
  exact hs (hc.trans ((hf ha).trans (passes_skipToValue middle).reaches)) hb

theorem closes_orElse (hf : Closes first) (hs : Closes second) : Closes (orElse first second) := by
  intro text c ts c' hc h
  rcases Option.or_eq_some_iff.mp h with h | ⟨-, h⟩
  · exact hf hc h
  · exact hs hc h

theorem closes_wrapped {construct : String} (hp : Closes piece) : Closes (wrapped construct piece) := by
  intro text c ts c' hc h
  obtain ⟨⟨children, after⟩, hpiece, heq⟩ := Option.map_eq_some_iff.mp h
  obtain ⟨rfl, rfl⟩ := Prod.mk.inj heq
  exact hp hc hpiece

theorem closes_itemsUntilBrace (hp : Reaching piece) (turns : Nat) : Closes (itemsUntilBrace piece turns) := by
  have hbrace : Closes (mark '\x7d') := closes_mark rfl
  induction turns with
  | zero =>
    intro text c ts c' hc h
    obtain ⟨brace, hmark, -⟩ | ⟨_, _, _, _, hturns, -⟩ := itemsUntilBrace_cases h
    · exact hbrace (hc.trans (passes_skip c).reaches) hmark
    · cases hturns
  | succ turns ih =>
    intro text c ts c' hc h
    have hskip := hc.trans (passes_skip c).reaches
    obtain ⟨brace, hmark, -⟩ | ⟨_, node, after, more, hturns, -, hnode, hmore, -⟩ := itemsUntilBrace_cases h
    · exact hbrace hskip hmark
    · obtain rfl := Nat.succ.inj hturns
      exact ih (hskip.trans (hp hnode)) hmore

theorem closes_braced {construct : String} (hp : Reaching piece) : Closes (braced construct piece) := by
  refine closes_wrapped fun text c ts c' hc h => ?_
  obtain ⟨⟨brace, inside⟩, hbrace, h⟩ := Option.bind_eq_some_iff.mp h
  obtain ⟨⟨items, after⟩, hitems, h⟩ := Option.bind_eq_some_iff.mp h
  obtain ⟨rfl, rfl⟩ := Prod.mk.inj (Option.some.inj h)
  exact closes_itemsUntilBrace hp _ (hc.trans ((lays_mark _).reaching hbrace)) hitems

theorem closes_queriesThen (hq : Advances query) (hp : Closes piece) : Closes (queriesThen query piece) := by
  intro text c ts c' hc h
  rw [queriesThen] at h
  split at h
  · exact closes_andThen (lays_queries hq _).reaching hp hc h
  · exact hp hc h

theorem closes_scopeHead (hs : Advances query) (hb : Closes block) : Closes (scopeHead query block) := by
  have hmark (x : Char) : Reaching (mark x) := (lays_mark x).reaching
  have hlimit {p : Piece} (hp : Closes p) : Closes (andThen (mark '(')
      (andThen (leaf "selectors" (selectors query)) (andThen (mark ')') p))) :=
    closes_andThen (hmark _) (closes_andThen (reaching_leaf (advances_selectors hs)) (closes_andThen (hmark _) hp))
  have hto : Reaching (leaf "to" (keyword? "to")) := reaching_leaf fun _ _ => passes_of_keyword?
  have hlower := closes_orElse (closes_andThen hto (hlimit hb)) hb
  exact closes_orElse (hlimit hlower) hlower

theorem closes_atRuleBody (hr : readers.Advance) (hl : Lays block) (hb : Closes block) (keyword : String) :
    Closes (atRuleBody readers block keyword) := by
  have hsemicolon : Closes (mark ';') := closes_mark rfl
  have hvalue : Reaching (leaf "value" (single readers.value)) := reaching_leaf (advances_single hr.value)
  have hname {construct : String} : Reaching (leaf construct ident?) := reaching_leaf fun _ _ => passes_of_ident?
  unfold atRuleBody
  split
  · exact closes_andThen hvalue (closes_queriesThen hr.query hsemicolon)
  · exact closes_andThen hvalue hsemicolon
  · have htarget : Lays (leaf "value" (namespaceTarget readers.value)) :=
      lays_leaf (by decide) (advances_namespaceTarget hr.value)
    have hnamed : Lays (leaf "namespace_name" ident?) := lays_leaf (by decide) fun _ _ => passes_of_ident?
    exact closes_andThen (lays_orElse htarget (lays_andThenValue hnamed htarget)).reaching hsemicolon
  · exact fun _ c => closes_andThen (lays_queries hr.query _).reaching hb (c := c)
  · exact closes_andThen (reaching_leaf hr.query) hb
  · exact closes_scopeHead hr.selector hb
  · split
    · refine closes_andThen hname (closes_braced fun c _ _ h => ?_)
      exact (lays_wrapped (lays_keyframeHead hl _)
        fun hmem => absurd hmem (show "keyframe_block" ∉ ["block", ":", "declaration"] by decide)).reaching h
    · exact closes_queriesThen hr.query (closes_orElse hsemicolon hb)

theorem closes_atRule (hr : readers.Advance) (hl : Lays block) (hb : Closes block) : Closes (atRule readers block) := by
  intro text c ts c' hc h
  rw [atRule] at h
  simp only at h
  split at h
  · cases h
  · have hbody := closes_atRuleBody hr hl hb (String.ofList (c.rest.take (atKeywordLength c.rest)))
    refine closes_wrapped (fun text c ts c' hc h => ?_) hc h
    split at h
    · exact closes_andThenValue (reaching_atKeyword _) hbody hc h
    · exact closes_andThen (reaching_atKeyword _) hbody hc h

theorem single_of_wrapped {construct : String} (h : wrapped construct piece c = some (ts, c')) :
    ∃ t, ts = [t] ∧ t.span = ⟨c.offset, c'.offset⟩ := by
  obtain ⟨⟨children, after⟩, -, heq⟩ := Option.map_eq_some_iff.mp h
  obtain ⟨rfl, rfl⟩ := Prod.mk.inj heq
  exact ⟨_, rfl, rfl⟩

/-- In front of a block stands its brace. -/
theorem rest_ne_nil_of_block {depth : Nat} (h : Grammar.block readers depth c = some (ts, c')) : c.rest ≠ [] := by
  cases depth with
  | zero => cases h
  | succ depth =>
    obtain ⟨_, h, -⟩ := Option.map_eq_some_iff.mp h
    obtain ⟨_, hbrace, -⟩ := Option.bind_eq_some_iff.mp h
    have hpeek := (mark_eq_some.mp hbrace).1
    exact fun hnil => by rw [peek?, hnil] at hpeek; cases hpeek

/-- **What stands in a block is read as items**: at-rules and rules are closed, and so are declarations that are
not the last item. -/
theorem items_item (hr : readers.Advance) (hl : Lays block) (hb : Closes block)
    (hne : ∀ ⦃c ts c'⦄, block c = some (ts, c') → c.rest ≠ []) (inBlock : Bool) : Items (item readers block inBlock) := by
  intro text c ts c' hc h
  rw [item] at h
  split at h
  · refine ⟨?_, ?_, .inl (closes_atRule hr hl hb hc h)⟩
    · rw [atRule] at h
      simp only at h
      split at h
      · cases h
      · exact single_of_wrapped h
    · rintro hnil
      rw [atRule, hnil] at h
      cases h
  · split at h
    · obtain ⟨hrest, children, last, hchildren, -, -, ⟨semicolon, hsemicolon, rfl⟩ | ⟨hbrace, rfl, rfl⟩⟩ :=
        exists_of_declaration hr.value hc h
      · have hskip := hc.trans (hchildren.reaches.trans (passes_skip last).reaches)
        exact ⟨⟨_, rfl, rfl⟩, hrest, .inl (closes_mark rfl hskip hsemicolon)⟩
      · exact ⟨⟨_, rfl, rfl⟩, hrest, .inr hbrace⟩
    · have hselectors : Reaching (leaf "selectors" (selectors readers.selector)) :=
        reaching_leaf (advances_selectors hr.selector)
      refine ⟨single_of_wrapped h, ?_, .inl (closes_wrapped (closes_andThen hselectors hb) hc h)⟩
      obtain ⟨_, h, -⟩ := Option.map_eq_some_iff.mp h
      obtain ⟨a, middle, b, ha, hblock, -⟩ := exists_of_andThen h
      have hreach := (hselectors ha).trans (passes_skip middle).reaches
      exact fun hnil => hne hblock (List.suffix_nil.mp (hnil ▸ hreach.suffix))

/-- Blocks are laid and closed, however deep they nest. -/
theorem lays_and_closes_block (hr : readers.Advance) (depth : Nat) :
    Lays (Grammar.block readers depth) ∧ Closes (Grammar.block readers depth) := by
  induction depth with
  | zero => exact ⟨fun _ _ _ _ _ h => (nomatch h), fun _ _ _ _ _ h => nomatch h⟩
  | succ depth ih =>
    have hitem := lays_item hr ih.1 true
    exact ⟨fun _ c => lays_braced (by decide) hitem (fun _ => items_item hr ih.1 ih.2 (fun _ _ _ => rest_ne_nil_of_block) true)
      (c := c), fun _ c => closes_braced hitem.reaching (c := c)⟩

/-- **Blocks are laid.** -/
theorem lays_block (hr : readers.Advance) (depth : Nat) : Lays (Grammar.block readers depth) :=
  (lays_and_closes_block hr depth).1

/-- Items up to the end of the text are laid up to there. -/
theorem laid_itemsUntilEnd (hp : Lays piece) {turns : Nat} (hc : (Cursor.ofText text).Reaches c)
    (h : itemsUntilEnd piece turns c = some ts) : ∃ last, Laid (Solid text) c ts last ∧ last.rest = [] := by
  induction turns generalizing c ts with
  | zero =>
    rw [itemsUntilEnd] at h
    simp only at h
    split at h
    · next hend => exact Option.some.inj h ▸ ⟨_, laid_extras c, List.isEmpty_iff.mp hend⟩
    · cases h
  | succ turns ih =>
    rw [itemsUntilEnd] at h
    simp only at h
    split at h
    · next hend => exact Option.some.inj h ▸ ⟨_, laid_extras c, List.isEmpty_iff.mp hend⟩
    · obtain ⟨⟨node, after⟩, hnode, h⟩ := Option.bind_eq_some_iff.mp h
      obtain ⟨more, hmore, h⟩ := Option.bind_eq_some_iff.mp h
      obtain rfl := Option.some.inj h
      have hitem := hp.after hc (laid_extras c) hnode
      obtain ⟨last, hlast, hend⟩ := ih (hc.trans hitem.reaches) hmore
      exact ⟨last, hitem.append hlast, hend⟩

end

/-- **The concrete tree of a style sheet is well nested** and spans the text. -/
theorem wellNested_grammarTree? {text : String} {sheet : GrammarTree} (h : grammarTree? text = some sheet) :
    sheet.WellNested (Solid text) ∧ sheet.span = ⟨0, text.toList.length⟩ := by
  obtain ⟨children, hchildren, rfl⟩ := Option.map_eq_some_iff.mp h
  have hmark := reaches_skipMark (Cursor.ofText text)
  obtain ⟨last, hlaid, hend⟩ := laid_itemsUntilEnd
    (lays_item (Readers.advance_ofSize _) (lays_block (Readers.advance_ofSize _) _) false) hmark hchildren
  have hstop : last.offset = (Cursor.ofText text).skipMark.offset + (Cursor.ofText text).skipMark.rest.length := by
    have htotal := hlaid.reaches.total
    rwa [hend] at htotal
  have htext : (Cursor.ofText text).skipMark.offset + (Cursor.ofText text).skipMark.rest.length = text.toList.length :=
    hmark.total.trans (Nat.zero_add _)
  have hsheet := hlaid.behind hmark
  refine ⟨GrammarTree.wellNested_node.mpr ⟨⟨?_, ?_⟩, hsheet.wellNested⟩, ?_⟩
  · exact hstop ▸ hsheet.inOrder
  · exact solid_of_not_mem (show "stylesheet" ∉ ["block", ":", "declaration"] by decide)
  · exact congrArg (Span.mk 0) htext

end SlotEdit.Css.Grammar
