import SlotEdit.Proofs.Css.Extent

/-!
# Proofs/Css/Outlines — where the pieces of a block start and end

No piece of a block starts with a blank, and what another item follows does not end in one unless it is a
comment that takes its whole line (`Outlined`).  So the blanks around an item belong to no other piece.
-/

namespace SlotEdit.Css

open Cursor

/-- A character that is no blank stands here. -/
def Opens (s : List Char) (n : Nat) : Prop := ∃ x, s[n]? = some x ∧ isAsciiBlank x = false

/-- What ends here ends in a character that is no blank. -/
def Shuts (s : List Char) (n : Nat) : Prop := ∃ m, n = m + 1 ∧ Opens s m

/-- The constructs of comments. -/
def commentConstructs : List String := ["comment", "js_comment"]

/-- What may follow an item that is not closed. -/
def trailingConstructs : List String := commentConstructs ++ ["\x7d"]

/-- A piece that ends in a character that is no blank, if it is no comment up to the end of its line. -/
def Closed (s : List Char) (t : GrammarTree) : Prop :=
  (t.construct = "js_comment" ∧ t.isNamed = true ∧ t.children = []) ∨ Shuts s t.span.stop

/-- **The pieces of a block**, braces included: none starts with a blank, and what is not closed is followed by
nothing but comments and the closing brace. -/
structure Outlined (s : List Char) (ts : List GrammarTree) : Prop where
  opens : ∀ t ∈ ts, Opens s t.span.start
  parted : ts.Pairwise fun t u => Closed s t ∨ u.construct ∈ trailingConstructs

variable {text : String} {c c' : Cursor} {t : GrammarTree} {ts us : List GrammarTree} {x : Char}

namespace Outlined

variable {s : List Char}

theorem nil : Outlined s [] := ⟨nofun, .nil⟩

/-- A piece with more behind it. -/
theorem cons (ht : Opens s t.span.start) (hts : Outlined s ts)
    (hparted : Closed s t ∨ ∀ u ∈ ts, u.construct ∈ trailingConstructs) : Outlined s (t :: ts) where
  opens := List.forall_mem_cons.mpr ⟨ht, hts.opens⟩
  parted := .cons (fun u hu => hparted.imp_right fun h => h u hu) hts.parted

/-- Closed pieces with more behind them. -/
theorem append (hts : ∀ t ∈ ts, Opens s t.span.start ∧ Closed s t) (hus : Outlined s us) :
    Outlined s (ts ++ us) := by
  induction ts with
  | nil => exact hus
  | cons t ts ih =>
    obtain ⟨⟨hopens, hclosed⟩, hts⟩ := List.forall_mem_cons.mp hts
    exact cons hopens (ih hts) (.inl hclosed)

end Outlined

/-! ## Places of cursors -/

theorem opens_of_peek? (hc : (Cursor.ofText text).Reaches c) (h : c.peek? = some x) (hx : isAsciiBlank x = false) :
    Opens text.toList c.offset :=
  ⟨x, hc.getElem?_offset.trans h, hx⟩

/-- A character that is passed is where the cursor behind it stands. -/
theorem offset_drop_one (h : c.peek? = some x) : (c.drop 1).offset = c.offset + 1 := by
  obtain ⟨s, hs⟩ := List.head?_eq_some_iff.mp h
  simp only [Cursor.drop, hs, List.length_cons]
  omega

theorem shuts_drop_one (hc : (Cursor.ofText text).Reaches c) (h : c.peek? = some x) (hx : isAsciiBlank x = false) :
    Shuts text.toList (c.drop 1).offset :=
  ⟨c.offset, offset_drop_one h, opens_of_peek? hc h hx⟩

/-! ## Comments -/

/-- A block comment ends in a slash. -/
theorem getElem?_of_blockEnd? {s : List Char} {n : Nat} (h : blockEnd? s = some n) :
    ∃ m, n = m + 1 ∧ s[m]? = some '/' := by
  fun_induction blockEnd? s generalizing n with
  | case1 => exact ⟨1, (Option.some.inj h).symm, rfl⟩
  | case2 x rest _ ih =>
    obtain ⟨k, hk, rfl⟩ := Option.map_eq_some_iff.mp h
    obtain ⟨m, rfl, hm⟩ := ih hk
    exact ⟨m + 1, rfl, hm⟩
  | case3 => cases h

/-- **A comment** starts with a slash, and a block comment ends in one. -/
theorem outline_of_comment? (hc : (Cursor.ofText text).Reaches c) (h : comment? c = some (t, c')) :
    t.construct ∈ commentConstructs ∧ Opens text.toList t.span.start ∧ Closed text.toList t := by
  have hopens := opens_of_peek? hc (peek?_of_comment? h) rfl
  rw [comment?] at h
  split at h
  · next rest hrest =>
    obtain ⟨n, hn, heq⟩ := Option.map_eq_some_iff.mp h
    obtain ⟨rfl, rfl⟩ := Prod.mk.inj heq
    refine ⟨List.mem_cons_self, hopens, .inr ?_⟩
    obtain ⟨m, rfl, hm⟩ := getElem?_of_blockEnd? hn
    have hle := blockEnd?_le hn
    -- the slash is the last character that is dropped
    have hlast : (c.drop (m + 2)).peek? = some '/' := by
      rw [peek?, Cursor.drop, hrest, List.head?_eq_getElem?, List.getElem?_drop]
      exact hm
    have hdrop : (c.drop (m + 1 + 2)) = (c.drop (m + 2)).drop 1 := by rw [drop_drop]
    exact ⟨_, (congrArg Cursor.offset hdrop).trans (offset_drop_one hlast),
      opens_of_peek? (hc.trans (reaches_drop _ c)) hlast rfl⟩
  · obtain ⟨rfl, rfl⟩ := Prod.mk.inj (Option.some.inj h)
    exact ⟨List.mem_cons_of_mem _ List.mem_cons_self, hopens, .inl ⟨rfl, rfl, rfl⟩⟩
  · cases h

theorem outline_of_mem_extrasFrom (inValue : Bool) (turns : Nat) (hc : (Cursor.ofText text).Reaches c) :
    ∀ t ∈ (extrasFrom inValue turns c).1,
      t.construct ∈ commentConstructs ∧ Opens text.toList t.span.start ∧ Closed text.toList t := by
  fun_induction extrasFrom inValue turns c with
  | case2 c next _ turns comment after hcomment more last hmore ih =>
    have hnext := hc.trans (reaches_skipWhile isAsciiBlank c)
    rw [hmore] at ih
    exact List.forall_mem_cons.mpr ⟨outline_of_comment? hnext hcomment, ih (hnext.trans (reaches_of_comment? hcomment))⟩
  | _ => exact List.forall_mem_nil _

/-- **Comments between two pieces** are closed, and none starts with a blank. -/
theorem outline_of_mem_extras (hc : (Cursor.ofText text).Reaches c) : ∀ t ∈ (extras c).1,
    t.construct ∈ commentConstructs ∧ Opens text.toList t.span.start ∧ Closed text.toList t :=
  outline_of_mem_extrasFrom _ _ hc

theorem isAsciiBlank_of_peek?_skipWhile (h : (c.skipWhile isAsciiBlank).peek? = some x) : isAsciiBlank x = false := by
  have hstop := List.head?_dropWhile_not isAsciiBlank c.rest
  rw [peek?, skipWhile] at h
  rw [h] at hstop
  simpa using hstop

/-- **No blank follows the blanks and comments** that are passed over. -/
theorem isAsciiBlank_of_peek?_extrasFrom (inValue : Bool) (turns : Nat)
    (h : (extrasFrom inValue turns c).2.peek? = some x) : isAsciiBlank x = false := by
  fun_induction extrasFrom inValue turns c with
  | case2 c next _ turns comment after hcomment more last hmore ih =>
    rw [hmore] at ih
    exact ih h
  | _ => exact isAsciiBlank_of_peek?_skipWhile h

end SlotEdit.Css
