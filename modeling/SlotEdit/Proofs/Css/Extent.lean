import SlotEdit.Proofs.Css.Lexis
import SlotEdit.Proofs.Text.Cursors

/-!
# Proofs/Css/Extent — extents move along the text

Everything an extent passes is counted, and no brace is passed but in a string, in a comment or
behind a backslash (`Passes`).  That holds for every extent built from extents of which it holds, so it
holds of values, selectors and queries nested to any depth (`Advances`).
-/

namespace SlotEdit.Css

open Cursor

attribute [grind =] Option.bind_eq_some_iff Option.map_eq_some_iff Option.or_eq_some_iff
  Option.filter_eq_some_iff Option.getD_some

variable {c c' c'' : Cursor} {y t : List Char} {n : Nat}

/-! ## Passing a text -/

/-- A text without quotes, slashes and backslashes. -/
def Plain (s : List Char) : Prop := ∀ x ∈ s, x ∉ ['"', '\'', '/', '\\']

theorem Plain.of_suffix {s s' : List Char} (h : Plain s) (hs : s' <:+ s) : Plain s' := fun x hx => h x (hs.mem hx)

theorem suffix_of_append {a b s : List Char} (h : a ++ s <:+ b ++ s) : a <:+ b := by
  obtain ⟨x, hx⟩ := h
  exact ⟨x, List.append_cancel_right ((List.append_assoc x a s).trans hx)⟩

/-- **A cursor further along** that stands in front of a brace as the first one did, when the text up
to the brace is plain. -/
structure Passes (c c' : Cursor) : Prop where
  reaches : c.Reaches c'
  stays : ∀ y t, Plain y → c.rest = y ++ '\x7b' :: t → ∃ z, c'.rest = z ++ '\x7b' :: t

@[grind .] theorem Passes.refl (c : Cursor) : Passes c c := ⟨Reaches.refl c, fun y _ _ h => ⟨y, h⟩⟩

@[grind →] theorem Passes.trans (h : Passes c c') (k : Passes c' c'') : Passes c c'' where
  reaches := h.reaches.trans k.reaches
  stays y t hy hc := by
    obtain ⟨z, hz⟩ := h.stays y t hy hc
    have hsuffix := h.reaches.suffix
    rw [hc, hz] at hsuffix
    exact k.stays z t (hy.of_suffix (suffix_of_append hsuffix)) hz

/-- Characters are passed that stand in front of the brace. -/
theorem passes_drop (h : ∀ y t, Plain y → c.rest = y ++ '\x7b' :: t → n ≤ y.length) : Passes c (c.drop n) where
  reaches := reaches_drop n c
  stays y t hy hc := ⟨y.drop n, by rw [drop, hc, List.drop_append_of_le_length (h y t hy hc)]⟩

theorem drop_drop (m n : Nat) (c : Cursor) : (c.drop m).drop n = c.drop (m + n) := by
  simp only [drop, List.length_drop, List.drop_drop, Cursor.mk.injEq, and_true]
  omega

@[grind →] theorem passes_drop_one {x : Char} (h : c.peek? = some x) (hx : x ≠ '\x7b') : Passes c (c.drop 1) := by
  refine passes_drop fun y t _ hc => ?_
  cases y with
  | nil =>
    rw [peek?, hc] at h
    exact absurd (Option.some.inj h).symm hx
  | cons => exact Nat.succ_le_succ (Nat.zero_le _)

@[grind →] theorem passes_drop_cons {x : Char} {s : List Char} (h : c.rest = x :: s) (hx : x ≠ '\x7b') :
    Passes c (c.drop 1) :=
  passes_drop_one (x := x) (by rw [peek?, h]; rfl) hx

@[grind →] theorem passes_drop_colons {s : List Char} (h : c.rest = ':' :: ':' :: s) : Passes c (c.drop 2) := by
  refine passes_drop fun y t _ hc => ?_
  rw [h] at hc
  match y with
  | [] => cases hc
  | [_] => cases hc
  | _ :: _ :: y => exact Nat.le_add_left 2 y.length

/-- A lexeme that a brace stops does not pass it. -/
theorem passes_lexeme {length : List Char → Nat} (happend : ∀ p s, Stops s → length (p ++ s) = length p)
    (hle : ∀ s, length s ≤ s.length) (c : Cursor) : Passes c (c.drop (length c.rest)) :=
  passes_drop fun y t _ hc => by rw [hc, happend y _ (stops_cons rfl)]; exact hle y

theorem identLength_le_of_plain (hy : Plain y) : identLength (y ++ '\x7b' :: t) ≤ y.length := by
  have halike : Alike y [] ('\x7b' :: t) := .inr fun hmem => hy _ hmem (by decide)
  have hle := identLength_le y
  rwa [identLength_append stops_nil.endsName (stops_cons rfl).endsName halike (by rwa [List.append_nil]), List.append_nil]

/-! ## Words, comments and blanks -/

@[grind →] theorem passes_of_char? {expected : Char} (hne : expected ≠ '\x7b') (h : char? expected c = some c') :
    Passes c c' := by
  rw [char?] at h
  split at h
  · next hpeek => exact Option.some.inj h ▸ passes_drop_one hpeek hne
  · cases h

theorem reaches_of_taken? (h : taken? c n = some c') : c.Reaches c' := by
  grind [taken?]

theorem passes_of_taken? (hn : Passes c (c.drop n)) (h : taken? c n = some c') : Passes c c' := by
  rw [taken?] at h
  split at h
  · cases h
  · exact Option.some.inj h ▸ hn

theorem passes_ident (c : Cursor) : Passes c (c.drop (identLength c.rest)) :=
  passes_drop fun _ _ hy hc => hc ▸ identLength_le_of_plain hy

@[grind →] theorem passes_of_ident? (h : ident? c = some c') : Passes c c' := passes_of_taken? (passes_ident c) h

@[grind →] theorem passes_of_keyword? {word : String} (h : keyword? word c = some c') : Passes c c' := by
  rw [keyword?] at h
  split at h
  · next hword =>
    rw [Bool.and_eq_true, beq_iff_eq] at hword
    exact Option.some.inj h ▸ hword.2 ▸ passes_ident c
  · cases h

@[grind →] theorem passes_of_operator? (h : operator? c = some c') : Passes c c' := by
  rw [operator?] at h
  split at h
  · next o hpeek =>
    split at h
    · next ho => exact Option.some.inj h ▸ passes_drop_one hpeek (by rintro rfl; simp at ho)
    · cases h
  · cases h

/-- A string and a comment start with a character no plain text has. -/
theorem not_plain_of_head? {x : Char} (hc : c.rest = y ++ '\x7b' :: t) (hx : x ∈ ['"', '\'', '/', '\\'])
    (h : c.peek? = some x) : ¬Plain y := by
  intro hy
  rw [peek?, hc] at h
  cases y with
  | nil =>
    obtain rfl := Option.some.inj h
    simp at hx
  | cons z y =>
    obtain rfl := Option.some.inj h
    exact hy z List.mem_cons_self hx

theorem passes_of_peek? {x : Char} (hx : x ∈ ['"', '\'', '/', '\\']) (h : c.peek? = some x) (hc : c.Reaches c') :
    Passes c c' :=
  ⟨hc, fun _ _ hy hrest => absurd hy (not_plain_of_head? hrest hx h)⟩

theorem reaches_of_comment? {t : GrammarTree} (h : comment? c = some (t, c')) : c.Reaches c' := by
  grind [comment?]

theorem peek?_of_comment? {t : GrammarTree} (h : comment? c = some (t, c')) : c.peek? = some '/' := by
  rw [comment?] at h
  rw [peek?]
  split at h
  · next hrest => rw [hrest]; rfl
  · next hrest => rw [hrest]; rfl
  · cases h

@[grind →] theorem passes_of_comment? {t : GrammarTree} (h : comment? c = some (t, c')) : Passes c c' :=
  passes_of_peek? (by decide) (peek?_of_comment? h) (reaches_of_comment? h)

/-- A class of characters without the brace. -/
theorem passes_skipWhile {f : Char → Bool} (hf : f '\x7b' = false) (c : Cursor) : Passes c (c.skipWhile f) where
  reaches := reaches_skipWhile f c
  stays y t _ hc := by
    refine ⟨y.dropWhile f, ?_⟩
    rw [skipWhile, hc, List.dropWhile_append]
    split
    · next hall =>
      rw [List.isEmpty_iff.mp hall]
      exact List.dropWhile_cons_of_neg (by rw [hf]; exact Bool.false_ne_true)
    · rfl

theorem passes_skipBlanks (c : Cursor) : Passes c (c.skipWhile isAsciiBlank) := passes_skipWhile rfl c

grind_pattern passes_skipBlanks => c.skipWhile isAsciiBlank

theorem passes_extrasFrom (inValue : Bool) (turns : Nat) (c : Cursor) :
    Passes c (extrasFrom inValue turns c).2 := by
  fun_induction extrasFrom <;> grind

theorem passes_skip (c : Cursor) : Passes c (skip c) := passes_extrasFrom _ _ _

theorem passes_skipToValue (c : Cursor) : Passes c (skipToValue c) := passes_extrasFrom _ _ _

grind_pattern passes_skip => skip c
grind_pattern passes_skipToValue => skipToValue c

/-- A text without a brace that follows stands in front of the brace. -/
theorem passes_of_accept? {expected : String} (hne : '\x7b' ∉ expected.toList) (h : c.accept? expected = some c') :
    Passes c c' := by
  rw [accept?] at h
  split at h
  · next hstarts =>
    refine Option.some.inj h ▸ passes_drop fun y t _ hc => ?_
    rw [startsWith, List.isPrefixOf_iff_prefix, hc] at hstarts
    rcases Nat.lt_or_ge y.length expected.length with hlt | hle
    · have hlt' : y.length < expected.toList.length := String.length_toList ▸ hlt
      have hbrace : expected.toList[y.length] = '\x7b' := by
        rw [hstarts.getElem hlt', List.getElem_append_right (Nat.le_refl _)]
        simp only [Nat.sub_self, List.getElem_cons_zero]
      exact absurd (List.getElem_mem hlt') (hbrace ▸ hne)
    · exact hle
  · cases h

/-- **An extent that moves along the text.** -/
def Advances (extent : Extent) : Prop := ∀ ⦃c c'⦄, extent c = some c' → Passes c c'

theorem Advances.reaches {extent : Extent} (h : Advances extent) (hc : extent c = some c') : c.Reaches c' :=
  (h hc).reaches


/-! ## Values -/

section Values

variable {atom item : Extent}

theorem advances_operands (ha : Advances atom) (turns : Nat) : Advances (operands atom turns) := by
  unfold Advances at ha
  intro c c' h
  fun_induction operands atom turns c generalizing c' <;> grind

theorem advances_single (ha : Advances atom) : Advances (single atom) := by
  intro c c' h
  obtain ⟨after, hafter, h⟩ := Option.bind_eq_some_iff.mp h
  exact (ha hafter).trans (advances_operands ha _ h)

theorem advances_another? (ha : Advances atom) : Advances (another? atom) := by
  unfold Advances at *
  grind [another?]

theorem passes_run (ha : Advances atom) (turns : Nat) (c : Cursor) : Passes c (run atom turns c) := by
  have hanother := advances_another? ha
  unfold Advances at hanother
  fun_induction run atom turns c <;> grind

theorem advances_values (ha : Advances atom) : Advances (values atom) := by
  intro c c' h
  obtain ⟨after, hafter, rfl⟩ := Option.map_eq_some_iff.mp h
  exact (ha hafter).trans (passes_run ha _ after)

variable {separators : List Char} {close : Char}

theorem advances_separated (hi : Advances item) (hseparators : '\x7b' ∉ separators) (hclose : close ≠ '\x7b')
    (turns : Nat) : Advances (separated item separators close turns) := by
  intro c c' h
  induction turns generalizing c with
  | zero => cases h
  | succ turns ih =>
    obtain ⟨last, hlast, h⟩ := Option.bind_eq_some_iff.mp h
    have hitem := hi hlast
    have hnext := passes_skipToValue last
    simp only at h
    split at h
    · next x hpeek =>
      have hdrop := fun hne => passes_drop_one hpeek hne
      grind
    · cases h

theorem advances_bracketed (hi : Advances item) (hseparators : '\x7b' ∉ separators) (hclose : close ≠ '\x7b')
    (mayBeEmpty : Bool) : Advances (bracketed item separators close mayBeEmpty) := by
  intro c c' h
  have hnext := passes_skipToValue c
  rw [bracketed] at h
  split at h
  · next hempty =>
    rw [Bool.and_eq_true, beq_iff_eq] at hempty
    exact Option.some.inj h ▸ hnext.trans (passes_drop_one hempty.2 hclose)
  · exact hnext.trans (advances_separated hi hseparators hclose _ h)

theorem advances_wordOrCall (hi : Advances item) : Advances (wordOrCall item) := by
  intro c c' h
  rw [wordOrCall] at h
  split at h
  · cases h
  · split at h
    · next hcall =>
      refine Passes.trans ?_ (hi h)
      rw [← drop_drop]
      exact (passes_ident c).trans (passes_drop_one hcall.2 (by decide))
    · refine Option.some.inj h ▸ passes_drop fun y t hy hc => ?_
      have hword := wordLength_append (stops_cons (s := t) (c := '\x7b') rfl) y
      rw [hc, hword]
      exact Nat.max_le.mpr ⟨identLength_le_of_plain hy, wordLength_le y⟩

/-- **Values advance**, however deep they nest. -/
theorem advances_atom (depth : Nat) : Advances (Css.atom depth) := by
  induction depth with
  | zero => exact fun _ _ h => nomatch h
  | succ depth ih =>
    intro c c' h
    rw [Css.atom] at h
    simp only at h
    split at h
    · cases h
    · exact passes_of_accept? (by decide) h
    · exact passes_of_taken? (passes_lexeme (fun _ _ => colorLength_append) colorLength_le c) h
    · next hpeek => exact passes_of_peek? (by decide) hpeek (reaches_of_taken? h)
    · next hpeek => exact passes_of_peek? (by decide) hpeek (reaches_of_taken? h)
    · next hpeek =>
      exact (passes_drop_one hpeek (by decide)).trans
        (advances_bracketed (advances_single ih) (by decide) (by decide) _ h)
    · next hpeek =>
      exact (passes_drop_one hpeek (by decide)).trans
        (advances_bracketed (advances_single ih) (by decide) (by decide) _ h)
    · split at h
      · exact advances_wordOrCall (advances_bracketed (advances_values ih) (by decide) (by decide) _) h
      · have hnumber := passes_lexeme (fun _ _ => numberLength_append) numberLength_le c
        exact Option.some.inj h ▸ hnumber.trans (passes_lexeme (fun _ _ => unitLength_append) unitLength_le _)

end Values

/-! ## Selectors -/

section Selectors

variable {selector value : Extent}

/-- A comma or a closing parenthesis follows. -/
def endsArgument (after : Cursor) : Bool := (skip after).peek? == some ',' || (skip after).peek? == some ')'

/-- One argument of a pseudo-class: a selector, or values with perhaps a selector behind `of`. -/
def argument (selector value : Extent) : Extent := fun c =>
  ((selector c).filter endsArgument).or ((values value c).bind fun after =>
    if endsArgument after then some after
    else ((keyword? "of" (skip after)).bind fun behind => selector (skip behind)).filter endsArgument)

theorem advances_argument (hs : Advances selector) (hv : Advances value) : Advances (argument selector value) := by
  intro c c' h
  rcases Option.or_eq_some_iff.mp h with h | ⟨-, h⟩
  · exact hs (Option.filter_eq_some_iff.mp h).1
  · obtain ⟨after, hafter, h⟩ := Option.bind_eq_some_iff.mp h
    refine (advances_values hv hafter).trans ?_
    split at h
    · exact Option.some.inj h ▸ Passes.refl after
    · obtain ⟨behind, hbehind, h⟩ := Option.bind_eq_some_iff.mp (Option.filter_eq_some_iff.mp h).1
      have hlast := hs h
      grind

theorem advances_pseudoArguments (hs : Advances selector) (hv : Advances value) :
    Advances (pseudoArguments selector value) :=
  advances_bracketed (advances_argument hs hv) (by decide) (by decide) _

theorem advances_qualifiedName : Advances qualifiedName := by
  have hname {c c' : Cursor} (h : (ident? c).or (char? '*' c) = some c') : Passes c c' := by grind
  intro c c' h
  rw [qualifiedName] at h
  simp only at h
  split at h
  · next after hafter =>
    obtain rfl := Option.some.inj h
    refine (hname hafter).trans ?_
    split
    · cases hbar : (ident? (skip ((skip after).drop 1))).or (char? '*' (skip ((skip after).drop 1))) with
      | none => exact Passes.refl after
      | some last =>
        have hlast := hname hbar
        grind
    · exact Passes.refl after
  · split at h
    · have hlast := hname h
      grind
    · cases h

@[grind →] theorem passes_of_comparison? (h : comparison? c = some c') : Passes c c' := by
  obtain ⟨mark, hmem, hmark⟩ := List.exists_of_findSome?_eq_some h
  have hne : ∀ m ∈ ["=", "~=", "^=", "|=", "*=", "$="], '\x7b' ∉ m.toList := by decide
  exact passes_of_accept? (hne mark hmem) hmark

theorem advances_attributeTest (hv : Advances value) : Advances (attributeTest value) := by
  intro c c' h
  obtain ⟨named, hnamed, h⟩ := Option.bind_eq_some_iff.mp h
  have hname := advances_qualifiedName hnamed
  simp only at h
  split at h
  · obtain ⟨tested, htested, h⟩ := Option.bind_eq_some_iff.mp h
    have hvalue := advances_single hv htested
    grind
  · grind

theorem advances_qualification (hs : Advances selector) (hv : Advances value) :
    Advances (qualification selector value) := by
  have htest := advances_attributeTest hv
  have harguments := advances_pseudoArguments hs hv
  intro c c' h
  have hbehind {after : Cursor} (h : (if after.peek? = some '(' then pseudoArguments selector value (after.drop 1)
      else some after) = some c') : Passes after c' := by
    split at h
    · next hpeek => exact (passes_drop_one hpeek (by decide)).trans (harguments h)
    · exact Option.some.inj h ▸ Passes.refl after
  rw [qualification] at h
  simp only at h
  split at h
  · next hrest => grind
  · next hrest => grind
  · next hrest => exact (passes_drop_cons hrest (by decide)).trans (htest h)
  · next hrest =>
    obtain ⟨after, hafter, h⟩ := Option.bind_eq_some_iff.mp h
    exact (passes_drop_colons hrest).trans ((passes_skip _).trans ((passes_of_ident? hafter).trans (hbehind h)))
  · next hrest =>
    split at h
    · obtain ⟨after, hafter, h⟩ := Option.bind_eq_some_iff.mp h
      exact (passes_drop_cons hrest (by decide)).trans
        ((passes_skip _).trans ((passes_of_ident? hafter).trans (hbehind h)))
    · cases h
  · cases h

/-- The cursor at the next part of a selector, wherever it is joined. -/
def Joint.next? : Joint → Option Cursor
  | .descendant next | .combinator next | .qualified next | .bar next => some next
  | .done => none

theorem passes_of_joint (turns : Nat) (h : (joint turns c).next? = some c') : Passes c c' := by
  fun_induction joint turns c <;> grind [Joint.next?]

theorem advances_simple (hs : Advances selector) (hv : Advances value) : Advances (simple selector value) := by
  have hqualification := advances_qualification hs hv
  intro c c' h
  rw [simple] at h
  split at h
  · next hrest => exact Option.some.inj h ▸ passes_drop_cons hrest (by decide)
  · next hrest => exact Option.some.inj h ▸ passes_drop_cons hrest (by decide)
  · next hrest => exact passes_of_peek? (x := '"') (by decide) (by rw [peek?, hrest]; rfl) (reaches_of_taken? h)
  · next hrest => exact passes_of_peek? (x := '\'') (by decide) (by rw [peek?, hrest]; rfl) (reaches_of_taken? h)
  · cases h
  · rcases Option.or_eq_some_iff.mp h with h | ⟨-, h⟩
    · exact passes_of_ident? h
    · exact hqualification h

theorem passes_combinators (turns : Nat) (c : Cursor) : Passes c (moreParts.combinators turns c) := by
  fun_induction moreParts.combinators turns c <;> grind

theorem advances_moreParts (hs : Advances selector) (hv : Advances value) (turns : Nat) :
    Advances (moreParts selector value turns) := by
  have hsimple := advances_simple hs hv
  have hqualification := advances_qualification hs hv
  intro c c' h
  induction turns generalizing c with
  | zero => exact Option.some.inj h ▸ Passes.refl c
  | succ turns ih =>
    have hjoint := @passes_of_joint c
    rw [moreParts] at h
    split at h
    · exact Option.some.inj h ▸ Passes.refl c
    all_goals obtain ⟨after, hafter, h⟩ := Option.bind_eq_some_iff.mp h
    · next hnext _ => exact (hjoint _ (congrArg Joint.next? hnext)).trans ((hsimple hafter).trans (ih h))
    · next hnext _ => exact (hjoint _ (congrArg Joint.next? hnext)).trans ((hqualification hafter).trans (ih h))
    · next next hnext _ =>
      exact (hjoint _ (congrArg Joint.next? hnext)).trans ((passes_skip next).trans ((hsimple hafter).trans (ih h)))
    · next next hnext _ =>
      exact (hjoint _ (congrArg Joint.next? hnext)).trans
        ((passes_combinators turns next).trans ((hsimple hafter).trans (ih h)))

/-- **Selectors advance**, however deep they nest. -/
theorem advances_selector (hv : Advances value) (depth : Nat) : Advances (Css.selector value depth) := by
  induction depth with
  | zero => exact fun _ _ h => nomatch h
  | succ depth ih =>
    have hsimple := advances_simple ih hv
    have hparts := advances_moreParts ih hv
    intro c c' h
    have hstart := passes_combinators c.rest.length c
    rw [Css.selector] at h
    unfold Advances at hsimple hparts
    grind

theorem advances_selectorsFrom (hs : Advances selector) (turns : Nat) : Advances (selectorsFrom selector turns) := by
  intro c c' h
  induction turns generalizing c with
  | zero => cases h
  | succ turns ih =>
    obtain ⟨after, hafter, h⟩ := Option.bind_eq_some_iff.mp h
    have hone := hs hafter
    grind

theorem advances_selectors (hs : Advances selector) : Advances (selectors selector) :=
  fun _ _ h => advances_selectorsFrom hs _ h

end Selectors

/-! ## Queries -/

section Queries

variable {value selector primary : Extent}

theorem advances_feature (hv : Advances value) : Advances (feature value) := by
  intro c c' h
  obtain ⟨named, hnamed, h⟩ := Option.bind_eq_some_iff.mp h
  obtain ⟨colon, hcolon, h⟩ := Option.bind_eq_some_iff.mp h
  obtain ⟨after, hafter, h⟩ := Option.bind_eq_some_iff.mp h
  have hvalues := advances_values hv hafter
  grind

theorem advances_joinedQueries (hp : Advances primary) (turns : Nat) : Advances (joinedQueries primary turns) := by
  unfold Advances at hp
  intro c c' h
  fun_induction joinedQueries primary turns c generalizing c' <;> grind

theorem advances_primaryQuery {inner : Extent} (hv : Advances value) (hs : Advances selector)
    (hi : Advances inner) : Advances (primaryQuery value selector inner) := by
  intro c c' h
  rw [primaryQuery] at h
  split at h
  · next after hafter =>
    have hinner := hi h
    grind
  · split at h
    · obtain ⟨inside, hinside, h⟩ := Option.bind_eq_some_iff.mp h
      obtain ⟨behind, hbehind, h⟩ := Option.bind_eq_some_iff.mp h
      have hselector := hs hbehind
      grind
    · split at h
      · rcases Option.or_eq_some_iff.mp h with h | ⟨-, h⟩
        · next hpeek _ => exact (passes_drop_one hpeek (by decide)).trans (advances_feature hv h)
        · obtain ⟨behind, hbehind, h⟩ := Option.bind_eq_some_iff.mp h
          have hinner := hi hbehind
          grind
      · exact passes_of_ident? h

/-- **Queries advance**, however deep they nest. -/
theorem advances_query (hv : Advances value) (hs : Advances selector) (depth : Nat) :
    Advances (query value selector depth) := by
  induction depth with
  | zero => exact fun _ _ h => nomatch h
  | succ depth ih =>
    have hprimary := advances_primaryQuery hv hs ih
    intro c c' h
    obtain ⟨after, hafter, h⟩ := Option.bind_eq_some_iff.mp h
    exact (hprimary hafter).trans (advances_joinedQueries hprimary _ h)

end Queries

end SlotEdit.Css
