import Mathlib.Data.Bool.AllAny
import SlotEdit.Json.Grammar
import SlotEdit.Proofs.Json.Literals
import SlotEdit.Proofs.Syntax.Readings

/-!
# Proofs/Json/Reading — the grammar reads what a phrase writes

`tree` is the concrete syntax tree of a phrase at some offset.  The readers of the grammar find
exactly these trees: `reads_reader` says that a written phrase is read, whatever follows it, and
`written_of_value` that whatever is read without a comment in it is a written phrase.
-/

namespace SlotEdit.Json

namespace Phrase

mutual
/-- **The concrete syntax tree of a phrase** that stands at an offset. -/
def tree : Phrase → Nat → GrammarTree
  | .word name, o => .named name (span (.word name) o) []
  | .string body, o => .named "string" (span (.string body) o) []
  | .number digits, o => .named "number" (span (.number digits) o) []
  | .member key before after content, o =>
    .named "pair" (span (.member key before after content) o)
      [(GrammarTree.named "string" (span (.string key) o) []).withRole "key",
        (tree content (valueStart key before after o)).withRole "value"]
  | .group bracket items trail, o =>
    .named bracket.construct (span (.group bracket items trail) o) (trees [] (o + 1) items)

/-- The trees of items, the first item behind a separator. -/
def trees (separator : List Char) (offset : Nat) : List (Item Phrase) → List GrammarTree
  | [] => []
  | ⟨gap, lead, p⟩ :: rest =>
    let start := offset + (gap ++ separator ++ lead).length
    tree p start :: trees [','] (start + p.render.length) rest
end

theorem trees_eq (separator : List Char) (offset : Nat) (items : List (Item Phrase)) :
    trees separator offset items = (spots separator offset items).map fun s => s.2.tree s.1 := by
  induction items generalizing separator offset with
  | nil => rfl
  | cons i rest ih =>
    obtain ⟨gap, lead, p⟩ := i
    rw [trees, spots, List.map_cons, ih]

theorem isNamed_tree (p : Phrase) (o : Nat) : (p.tree o).isNamed = true := by
  cases p <;> rfl

end Phrase

namespace Grammar

open Phrase

/-! ## How a phrase starts -/

/-- A character a value or a member can start with. -/
def isOpening (c : Char) : Bool :=
  c == '"' || c == '[' || c == '\x7b' || c == 't' || c == 'f' || c == 'n' || c == '-' || isAsciiDigit c

theorem eq_of_isAsciiBlank {c : Char} (h : isAsciiBlank c = true) :
    c ∈ [' ', '\t', '\n', '\x0b', '\x0c', '\r'] := by
  have hofNat : c = Char.ofNat c.toNat := (Char.ofNat_toNat c).symm
  simp only [isAsciiBlank, Bool.or_eq_true, beq_iff_eq, Bool.and_eq_true, decide_eq_true_eq] at h
  rcases h with rfl | ⟨hlow, hhigh⟩
  · decide
  · rw [hofNat]
    obtain hn | hn | hn | hn | hn :
        c.toNat = 9 ∨ c.toNat = 10 ∨ c.toNat = 11 ∨ c.toNat = 12 ∨ c.toNat = 13 := by omega
    all_goals
      rw [hn]
      decide

theorem isAsciiBlank_of_isOpening {c : Char} (h : isOpening c = true) : isAsciiBlank c = false := by
  by_contra hblank
  have hmem := eq_of_isAsciiBlank (Bool.not_eq_false _ ▸ hblank)
  have hnot : ∀ d ∈ [' ', '\t', '\n', '\x0b', '\x0c', '\r'], isOpening d = false :=
    List.all_iff_forall_prop.mp rfl
  rw [hnot c hmem] at h
  cases h

theorem ne_of_isOpening {c d : Char} (h : isOpening c = true) (hd : isOpening d = false) : c ≠ d := by
  rintro rfl
  rw [h] at hd
  cases hd

theorem quiet_of_isOpening {c : Char} (h : isOpening c = true) (s : List Char) : Quiet (c :: s) := by
  intro d hd
  obtain rfl := Option.some.inj hd
  exact ⟨isAsciiBlank_of_isOpening h, ne_of_isOpening h rfl⟩

theorem isOpening_of_numberLength {c : Char} {s : List Char} (h : numberLength (c :: s) ≠ 0) :
    c = '-' ∨ isAsciiDigit c = true := by
  by_cases hminus : c = '-'
  · exact Or.inl hminus
  · have hlen : minusLength (c :: s) = 0 := by simp [minusLength, hminus]
    rw [numberLength_eq, signed, hlen, List.drop_zero] at h
    have hwhole : wholeLength (c :: s) ≠ 0 := fun h0 => h (by rw [unsignedLength, if_pos h0, if_pos rfl])
    rw [wholeLength] at hwhole
    split at hwhole
    · next hc => exact Or.inr (by obtain rfl := Option.some.inj hc; rfl)
    · refine Or.inr ?_
      by_contra hc
      exact hwhole (by rw [digitsLength, List.takeWhile_cons_of_neg hc]; rfl)

theorem exists_opening {p : Phrase} (h : p.Shaped) :
    ∃ c s, p.render = c :: s ∧ isOpening c = true := by
  cases h with
  | word h =>
    simp only [List.mem_cons, List.not_mem_nil, or_false] at h
    rcases h with rfl | rfl | rfl <;> exact ⟨_, _, rfl, rfl⟩
  | string _ => exact ⟨_, _, rfl, rfl⟩
  | @number digits hne hlen =>
    cases digits with
    | nil => exact absurd rfl hne
    | cons c s =>
      refine ⟨c, s, rfl, ?_⟩
      rcases isOpening_of_numberLength (c := c) (s := s) (by rw [hlen]; simp) with rfl | hd
      · rfl
      · rw [isOpening, hd, Bool.or_true]
  | member _ _ _ _ _ => exact ⟨_, _, rfl, rfl⟩
  | @group bracket _ _ _ _ _ _ _ => exact ⟨bracket.opening, _, rfl, by cases bracket <;> rfl⟩

/-- A number of the grammar is written with the characters of numbers. -/
theorem isNumberChar_of_mem {digits : List Char} (h : (Phrase.number digits).Shaped) :
    ∀ c ∈ digits, isNumberChar c = true := by
  cases h with
  | number hne hlen =>
    have hchars := local_numberLength.chars digits
    rwa [hlen, List.take_length] at hchars

theorem render_ne_nil {p : Phrase} (h : p.Shaped) : p.render ≠ [] := by
  obtain ⟨c, t, hc, -⟩ := exists_opening h
  rw [hc]
  exact List.cons_ne_nil c t

theorem quiet_render {p : Phrase} (h : p.Shaped) (s : List Char) : Quiet (p.render ++ s) := by
  obtain ⟨c, t, hc, hopen⟩ := exists_opening h
  rw [hc]
  exact quiet_of_isOpening hopen _

/-! ## What follows -/

theorem quiet_cons {c : Char} (s : List Char) (h : isAsciiBlank c = false ∧ c ≠ '/') : Quiet (c :: s) := by
  intro d hd
  obtain rfl := Option.some.inj hd
  exact h

theorem stops_nil : Stops [] := fun _ h => nomatch h

theorem stops_cons {c : Char} (s : List Char)
    (h : isAsciiDigit c = false ∧ c ≠ '.' ∧ c ≠ 'e' ∧ c ≠ 'E' ∧ c ≠ '-') : Stops (c :: s) := by
  intro d hd
  obtain rfl := Option.some.inj hd
  exact h

/-- Blanks do not go on with a number, and neither does what follows them. -/
theorem stops_blank {ws s : List Char} (hws : Blank ws) (hs : Stops s) : Stops (ws ++ s) := by
  cases ws with
  | nil => exact hs
  | cons c ws =>
    have hstop : ∀ d ∈ [' ', '\t', '\n', '\x0b', '\x0c', '\r'],
        isAsciiDigit d = false ∧ d ≠ '.' ∧ d ≠ 'e' ∧ d ≠ 'E' ∧ d ≠ '-' := List.all_iff_forall_prop.mp rfl
    exact stops_cons _ (hstop c (eq_of_isAsciiBlank (hws c List.mem_cons_self)))

theorem stops_closing (bracket : Bracket) (s : List Char) : Stops (bracket.closing :: s) :=
  stops_cons s (by cases bracket <;> decide)

theorem closing_ne_comma (bracket : Bracket) : bracket.closing ≠ ',' := by
  cases bracket <;> decide

theorem quiet_closing (bracket : Bracket) (s : List Char) : Quiet (bracket.closing :: s) :=
  quiet_cons s (by cases bracket <;> decide)

/-- Items behind a comma do not go on with a number. -/
theorem stops_renderItems {items : List (Item Phrase)} (h : ∀ i ∈ items, Blank i.gap) {s : List Char}
    (hs : Stops s) : Stops (renderItems [','] items ++ s) := by
  cases items with
  | nil => exact hs
  | cons i rest =>
    obtain ⟨gap, lead, p⟩ := i
    rw [renderItems]
    simp only [List.append_assoc, List.cons_append]
    exact stops_blank (h _ List.mem_cons_self) (stops_cons _ (by decide))

/-! ## Reading what was written -/

/-- A reader reads a phrase, whatever follows that does not go on with a number. -/
def Reads (reader : Reader GrammarTree) (p : Phrase) : Prop :=
  ∀ o s, Stops s → reader ⟨o, p.render ++ s⟩ = some (p.tree o, ⟨o + p.render.length, s⟩)

/-- The reader of members, or of values. -/
def reader (depth : Nat) (members : Bool) : Reader GrammarTree :=
  if members then pair (value depth) else value depth

theorem string_render {body : List Char} (h : stringEnd? body = some body.length) (o : Nat)
    (s : List Char) : string ⟨o, '"' :: body ++ s⟩ =
      some ((Phrase.string body).tree o, ⟨o + ('"' :: body).length, s⟩) := by
  have hdrop := Cursor.drop_append o ('"' :: body) s
  rw [string, List.cons_append]
  simp only [stringEnd?_append h s, Option.map_some]
  rw [← List.cons_append, ← List.length_cons (a := '"'), hdrop]
  rfl

theorem value_cons {c : Char} (h : c ≠ '"' ∧ c ≠ '[' ∧ c ≠ '\x7b') (depth o : Nat) (s : List Char) :
    value (depth + 1) ⟨o, c :: s⟩ = (word ⟨o, c :: s⟩).or (number ⟨o, c :: s⟩) := by
  rw [value]
  simp only [Cursor.peek?, List.head?_cons]
  split
  · next heq => exact absurd (Option.some.inj heq) h.1
  · next heq => exact absurd (Option.some.inj heq) h.2.1
  · next heq => exact absurd (Option.some.inj heq) h.2.2
  · rfl

theorem word_eq_none {c : Char} (h : c ≠ 't' ∧ c ≠ 'f' ∧ c ≠ 'n') (o : Nat) (s : List Char) :
    word ⟨o, c :: s⟩ = none := by
  rw [word, List.findSome?_eq_none_iff]
  intro name hname
  simp only [List.mem_cons, List.not_mem_nil, or_false] at hname
  rw [Option.map_eq_none_iff]
  rcases hname with rfl | rfl | rfl
  · exact Cursor.accept?_eq_none rfl h.1 o s
  · exact Cursor.accept?_eq_none rfl h.2.1 o s
  · exact Cursor.accept?_eq_none rfl h.2.2 o s

theorem word_render {name : String} (h : name ∈ ["true", "false", "null"]) (o : Nat) (s : List Char) :
    word ⟨o, name.toList ++ s⟩ =
      some ((Phrase.word name).tree o, ⟨o + name.toList.length, s⟩) := by
  have haccept := Cursor.accept?_append o name s
  simp only [List.mem_cons, List.not_mem_nil, or_false] at h
  rw [word]
  rcases h with rfl | rfl | rfl
  · rw [List.findSome?_cons, haccept]
    rfl
  · have htrue : (⟨o, "false".toList ++ s⟩ : Cursor).accept? "true" = none :=
      Cursor.accept?_eq_none (c := 'f') rfl (by decide) o _
    rw [List.findSome?_cons, htrue, Option.map_none, List.findSome?_cons, haccept]
    rfl
  · have htrue : (⟨o, "null".toList ++ s⟩ : Cursor).accept? "true" = none :=
      Cursor.accept?_eq_none (c := 'n') rfl (by decide) o _
    have hfalse : (⟨o, "null".toList ++ s⟩ : Cursor).accept? "false" = none :=
      Cursor.accept?_eq_none (c := 'n') rfl (by decide) o _
    rw [List.findSome?_cons, htrue, Option.map_none, List.findSome?_cons, hfalse, Option.map_none,
      List.findSome?_cons, haccept]
    rfl

theorem reads_word {name : String} (h : name ∈ ["true", "false", "null"]) (depth : Nat) :
    Reads (value (depth + 1)) (.word name) := by
  intro o s _
  obtain ⟨c, t, hname, hc⟩ : ∃ c t, name.toList = c :: t ∧ c ≠ '"' ∧ c ≠ '[' ∧ c ≠ '\x7b' := by
    simp only [List.mem_cons, List.not_mem_nil, or_false] at h
    rcases h with rfl | rfl | rfl <;> exact ⟨_, _, rfl, by decide⟩
  have hword := word_render h o s
  rw [render]
  rw [hname] at hword ⊢
  rw [List.cons_append] at hword ⊢
  rw [value_cons hc, hword]
  rfl

theorem reads_string {body : List Char} (h : stringEnd? body = some body.length) (depth : Nat) :
    Reads (value (depth + 1)) (.string body) := by
  intro o s _
  exact string_render h o s

theorem number_render {digits s : List Char} (hne : digits ≠ []) (hlen : numberLength digits = digits.length)
    (hs : Stops s) (o : Nat) : number ⟨o, digits ++ s⟩ =
      some ((Phrase.number digits).tree o, ⟨o + digits.length, s⟩) := by
  rw [number]
  simp only [local_numberLength.append hs, hlen]
  split
  · next h0 => exact absurd (List.length_eq_zero_iff.mp h0) hne
  · rw [Cursor.drop_append]
    rfl

theorem reads_number {digits : List Char} (hne : digits ≠ [])
    (hlen : numberLength digits = digits.length) (depth : Nat) :
    Reads (value (depth + 1)) (.number digits) := by
  intro o s hs
  have hnumber := number_render hne hlen hs o
  rw [render]
  cases digits with
  | nil => exact absurd rfl hne
  | cons c t =>
    have hc : c ≠ '"' ∧ c ≠ '[' ∧ c ≠ '\x7b' ∧ c ≠ 't' ∧ c ≠ 'f' ∧ c ≠ 'n' := by
      rcases isOpening_of_numberLength (c := c) (s := t) (by rw [hlen]; simp) with rfl | hd
      · decide
      · refine ⟨?_, ?_, ?_, ?_, ?_, ?_⟩ <;>
          · rintro rfl
            exact absurd hd (by decide)
    rw [List.cons_append] at hnumber ⊢
    rw [value_cons ⟨hc.1, hc.2.1, hc.2.2.1⟩, word_eq_none hc.2.2.2, hnumber]
    rfl

theorem reads_pair {key before after : List Char} {content : Phrase} {depth : Nat}
    (h : (Phrase.member key before after content).Shaped) (hcontent : Reads (value depth) content) :
    Reads (pair (value depth)) (.member key before after content) := by
  intro o s hs
  cases h with
  | member hkey hbefore hafter _ hshaped =>
    have hcolon : Quiet (':' :: (after ++ (content.render ++ s))) := quiet_cons _ (by decide)
    have htext : (Phrase.member key before after content).render ++ s
        = '"' :: key ++ (before ++ ':' :: (after ++ (content.render ++ s))) := by
      simp only [render, List.append_assoc, List.cons_append]
    have hstart : valueStart key before after o
        = o + ('"' :: key).length + before.length + 1 + after.length := by
      simp only [valueStart, List.length_append, List.length_cons]
      omega
    have hstop : o + (Phrase.member key before after content).render.length
        = valueStart key before after o + content.render.length := by
      simp only [render, valueStart, List.length_append, List.length_cons]
      omega
    rw [htext, pair, string_render hkey]
    simp only [Option.bind_eq_bind, Option.bind_some, skipExtras_blank _ hbefore hcolon,
      Cursor.peek?, List.head?_cons, if_true, Cursor.drop_one,
      skipExtras_blank _ hafter (quiet_render hshaped s), ← hstart, hcontent _ s hs,
      List.append_nil, hstop, tree, span]
    rfl

/-! ## Lists -/

/-- What is left to read of a list behind one of its items. -/
def afterItem (item : Reader GrammarTree) (close : Char) (turns : Nat) (c : Cursor) :
    Option (List GrammarTree × Cursor) :=
  let (comments, after) := skipExtras c
  if after.peek? = some close then some (comments, after.drop 1)
  else if after.peek? = some ',' then
    let (more, after) := skipExtras (after.drop 1)
    (commaSeparated item close turns after).map fun (rest, last) => (comments ++ more ++ rest, last)
  else none

theorem commaSeparated_succ (item : Reader GrammarTree) (close : Char) (turns : Nat) (c : Cursor) :
    commaSeparated item close (turns + 1) c = (item c).bind fun (node, after) =>
      (afterItem item close turns after).map fun (rest, last) => (node :: rest, last) := by
  rw [commaSeparated, Option.bind_eq_bind]
  refine Option.bind_congr fun (node, after) _ => ?_
  simp only [afterItem]
  split
  · rfl
  · split
    · rw [Option.map_map, Option.bind_eq_bind, Option.map_eq_bind]
      rfl
    · rfl

variable {item : Reader GrammarTree} {items : List (Item Phrase)}

/-- **Items behind a comma are read one after another**, and then what follows them. -/
theorem afterItem_renderItems (hreads : ∀ i ∈ items, Reads item i.content)
    (hquiet : ∀ i ∈ items, ∀ s, Quiet (i.content.render ++ s))
    (hblank : ∀ i ∈ items, Blank i.gap ∧ Blank i.lead) {close : Char} (hclose : close ≠ ',')
    (turns o : Nat) {s : List Char} (hs : Stops s) :
    afterItem item close (turns + items.length) ⟨o, renderItems [','] items ++ s⟩ =
      (afterItem item close turns ⟨o + (renderItems [','] items).length, s⟩).map fun (rest, last) =>
        (trees [','] o items ++ rest, last) := by
  induction items generalizing o with
  | nil => simp [renderItems, trees]
  | cons i rest ih =>
    obtain ⟨gap, lead, p⟩ := i
    rw [List.forall_mem_cons] at hreads hquiet hblank
    have hgap : Quiet (',' :: (lead ++ (p.render ++ (renderItems [','] rest ++ s)))) :=
      quiet_cons _ (by decide)
    have htext : renderItems [','] (⟨gap, lead, p⟩ :: rest) ++ s
        = gap ++ ',' :: (lead ++ (p.render ++ (renderItems [','] rest ++ s))) := by
      simp only [renderItems, List.append_assoc, List.cons_append, List.nil_append]
    have hstart : o + gap.length + 1 + lead.length = o + (gap ++ [','] ++ lead).length := by
      simp only [List.length_append, List.length_cons, List.length_nil]
      omega
    have hstop : o + (renderItems [','] (⟨gap, lead, p⟩ :: rest)).length
        = o + (gap ++ [','] ++ lead).length + p.render.length + (renderItems [','] rest).length := by
      simp only [renderItems, List.length_append, List.length_cons, List.length_nil]
      omega
    have hread := hreads.1 (o + (gap ++ [','] ++ lead).length) (renderItems [','] rest ++ s)
      (stops_renderItems (fun i hi => (hblank.2 i hi).1) hs)
    rw [htext, afterItem]
    simp only [skipExtras_blank _ hblank.1.1 hgap, Cursor.peek?, List.head?_cons, Option.some.injEq,
      Ne.symm hclose, if_false, if_true, Cursor.drop_one, skipExtras_blank _ hblank.1.2 (hquiet.1 _),
      hstart, List.length_cons, ← Nat.add_assoc, commaSeparated_succ, hread, Option.bind_some,
      ih hreads.2 hquiet.2 hblank.2, Option.map_map, trees, List.nil_append, hstop]
    rfl

/-- The end of a list: blanks and the closing bracket. -/
theorem afterItem_closing {trail s : List Char} (htrail : Blank trail) (bracket : Bracket)
    (turns o : Nat) : afterItem item bracket.closing turns ⟨o, trail ++ bracket.closing :: s⟩ =
      some ([], ⟨o + (trail ++ [bracket.closing]).length, s⟩) := by
  rw [afterItem]
  simp only [skipExtras_blank _ htrail (quiet_closing bracket s), Cursor.peek?, List.head?_cons,
    if_true, Cursor.drop_one, List.length_append, List.length_cons, List.length_nil, Nat.add_assoc]

theorem length_le_renderItems (separator : List Char)
    (h : ∀ i ∈ items, i.content.render ≠ []) : items.length ≤ (renderItems separator items).length := by
  induction items generalizing separator with
  | nil => exact Nat.le_refl _
  | cons i rest ih =>
    obtain ⟨gap, lead, p⟩ := i
    rw [List.forall_mem_cons] at h
    have hrest := ih [','] h.2
    have hp := List.length_pos_iff.mpr h.1
    simp only [renderItems, List.length_append, List.length_cons] at hp ⊢
    omega

/-- **The inside of a bracketed list is read item by item**: what is left to read behind its items
decides. -/
theorem bracketed_render {bracket : Bracket} (hreads : ∀ i ∈ items, Reads item i.content)
    (hshaped : ∀ i ∈ items, i.content.Shaped) (hblank : ∀ i ∈ items, Blank i.gap ∧ Blank i.lead)
    (hfirst : ∀ i ∈ items.head?, i.gap = []) (hne : items ≠ []) (o : Nat) {s : List Char}
    (hs : Stops s) : ∃ turns,
    bracketed bracket.construct item bracket.closing
        ⟨o, bracket.opening :: (renderItems [] items ++ s)⟩ =
      (afterItem item bracket.closing turns ⟨o + 1 + (renderItems [] items).length, s⟩).map
        fun (rest, last) => (.named bracket.construct ⟨o, last.offset⟩
          (trees [] (o + 1) items ++ rest), last) := by
  cases items with
  | nil => exact absurd rfl hne
  | cons i rest =>
    obtain ⟨gap, lead, p⟩ := i
    obtain rfl : gap = [] := hfirst _ rfl
    rw [List.forall_mem_cons] at hreads hshaped hblank
    have hlen := length_le_renderItems [','] fun i hi => render_ne_nil (hshaped.2 i hi)
    have hinside : (p.render ++ (renderItems [','] rest ++ s)).length + 1
        = (p.render.length + (renderItems [','] rest).length - rest.length + s.length)
          + rest.length + 1 := by
      simp only [List.length_append]
      omega
    have htext : renderItems [] (⟨[], lead, p⟩ :: rest) ++ s
        = lead ++ (p.render ++ (renderItems [','] rest ++ s)) := by
      simp only [renderItems, List.append_assoc, List.nil_append]
    have hstop : o + 1 + (renderItems [] (⟨[], lead, p⟩ :: rest)).length
        = o + 1 + lead.length + p.render.length + (renderItems [','] rest).length := by
      simp only [renderItems, List.length_append, List.length_nil]
      omega
    have hpeek : (p.render ++ (renderItems [','] rest ++ s)).head? ≠ some bracket.closing := by
      obtain ⟨c, t, hc, hopen⟩ := exists_opening hshaped.1
      rw [hc]
      exact fun h => ne_of_isOpening hopen (by cases bracket <;> rfl) (Option.some.inj h)
    have hread := hreads.1 (o + 1 + lead.length) (renderItems [','] rest ++ s)
      (stops_renderItems (fun i hi => (hblank.2 i hi).1) hs)
    refine ⟨p.render.length + (renderItems [','] rest).length - rest.length + s.length, ?_⟩
    rw [htext, bracketed]
    simp only [Cursor.drop_one, skipExtras_blank _ hblank.1.2 (quiet_render hshaped.1 _), Cursor.peek?,
      hpeek, if_false, hinside, commaSeparated_succ, hread, Option.bind_some,
      afterItem_renderItems hreads.2 (fun i hi => quiet_render (hshaped.2 i hi)) hblank.2
        (closing_ne_comma bracket) _ _ hs, Option.map_map, Option.bind_eq_bind, trees, hstop,
      List.append_nil, List.nil_append]
    cases afterItem item bracket.closing _ _ <;> rfl

theorem value_opening (bracket : Bracket) (depth o : Nat) (s : List Char) :
    value (depth + 1) ⟨o, bracket.opening :: s⟩ =
      bracketed bracket.construct (reader depth bracket.holdsMembers) bracket.closing
        ⟨o, bracket.opening :: s⟩ := by
  cases bracket <;> rfl

theorem reads_group {bracket : Bracket} {trail : List Char} {depth : Nat}
    (h : (Phrase.group bracket items trail).Shaped)
    (hreads : ∀ i ∈ items, Reads (reader depth bracket.holdsMembers) i.content) :
    Reads (value (depth + 1)) (.group bracket items trail) := by
  intro o s _
  cases h with
  | group htrail hfirst hblank _ hshaped =>
    have hopening : (Phrase.group bracket items trail).render ++ s
        = bracket.opening :: (renderItems [] items ++ (trail ++ bracket.closing :: s)) := by
      simp only [render, List.append_assoc, List.cons_append, List.nil_append]
    have hstop : o + (Phrase.group bracket items trail).render.length
        = o + 1 + (renderItems [] items).length + (trail ++ [bracket.closing]).length := by
      simp only [render, List.length_append, List.length_cons, List.length_nil]
      omega
    rw [hopening, value_opening]
    rcases eq_or_ne items [] with rfl | hne
    · rw [bracketed]
      simp only [renderItems, List.nil_append, Cursor.drop_one,
        skipExtras_blank _ htrail (quiet_closing bracket s), Cursor.peek?, List.head?_cons, if_true,
        hstop, tree, trees, span, List.length_nil, List.length_append, List.length_cons, Nat.add_zero,
        Nat.zero_add, Nat.add_assoc]
    · obtain ⟨turns, hread⟩ := bracketed_render hreads hshaped hblank hfirst hne o
        (stops_blank htrail (stops_closing bracket s))
      rw [hread, afterItem_closing htrail, tree, span, hstop]
      simp only [Option.map_some, List.append_nil]

/-- **A written phrase is read**, whatever follows it, when the depth suffices. -/
theorem reads_reader {p : Phrase} (h : p.Shaped) {depth : Nat} (hdepth : p.height < depth) :
    Reads (reader depth p.isMember) p := by
  induction p generalizing depth with
  | word name =>
    obtain ⟨depth, rfl⟩ : ∃ d, depth = d + 1 := ⟨depth - 1, by omega⟩
    cases h with
    | word h => exact reads_word h depth
  | string body =>
    obtain ⟨depth, rfl⟩ : ∃ d, depth = d + 1 := ⟨depth - 1, by omega⟩
    cases h with
    | string h => exact reads_string h depth
  | number digits =>
    obtain ⟨depth, rfl⟩ : ∃ d, depth = d + 1 := ⟨depth - 1, by omega⟩
    cases h with
    | number hne h => exact reads_number hne h depth
  | member key before after content ih =>
    rw [height] at hdepth
    have hmember := h
    cases h with
    | member _ _ _ hvalue hcontent =>
      have hreads := ih hcontent hdepth
      rw [hvalue] at hreads
      exact reads_pair hmember hreads
  | group bracket items trail ih =>
    obtain ⟨depth, rfl⟩ : ∃ d, depth = d + 1 := ⟨depth - 1, by omega⟩
    rw [height] at hdepth
    have hgroup := h
    cases h with
    | group _ _ _ hkind hshaped =>
      refine reads_group hgroup fun i hi => ?_
      have hheight := heightItems_le_iff.mp (Nat.le_refl _) i hi
      exact hkind i hi ▸ ih i hi (hshaped i hi) (by omega)

/-! ## Writing what was read -/

/-- No comment anywhere in a tree. -/
def Clean (t : GrammarTree) : Prop := ∀ s ∈ t.walk, s.construct ≠ "comment"

theorem clean_node {construct : String} {named : Bool} {role : String} {span : Span}
    {ts : List GrammarTree} : Clean (.node construct named role span ts) ↔
      construct ≠ "comment" ∧ ∀ t ∈ ts, Clean t :=
  GrammarTree.forall_mem_walk

theorem clean_withRole {role : String} {t : GrammarTree} : Clean (t.withRole role) ↔ Clean t := by
  obtain ⟨construct, named, role', span, ts⟩ := t
  rw [GrammarTree.withRole, clean_node, clean_node]

/-- No comment stands in the tree of a phrase. -/
theorem clean_tree {p : Phrase} (h : p.Shaped) (o : Nat) : Clean (p.tree o) := by
  induction p generalizing o with
  | word name =>
    cases h with
    | word h => exact clean_node.mpr ⟨by rintro rfl; exact absurd h (by decide), by simp⟩
  | string body => exact clean_node.mpr ⟨by decide, by simp⟩
  | number digits => exact clean_node.mpr ⟨by decide, by simp⟩
  | member key before after content ih =>
    cases h with
    | member _ _ _ _ h =>
      refine clean_node.mpr ⟨by decide, ?_⟩
      rw [List.forall_mem_cons, List.forall_mem_singleton, clean_withRole, clean_withRole]
      exact ⟨clean_node.mpr ⟨by decide, by simp⟩, ih h _⟩
  | group bracket items trail ih =>
    cases h with
    | group _ _ _ _ h =>
      refine clean_node.mpr ⟨by cases bracket <;> decide, fun t ht => ?_⟩
      rw [trees_eq] at ht
      obtain ⟨s, hs, rfl⟩ := List.mem_map.mp ht
      obtain ⟨i, hi, hcontent⟩ := content_of_mem_spots hs
      exact hcontent ▸ ih i hi (h i hi) _

/-- Only comments are kept of what is passed over. -/
theorem not_clean_of_mem_extras {turns : Nat} {c : Cursor} {t : GrammarTree}
    (h : t ∈ (extras turns c).1) : ¬ Clean t := by
  induction turns generalizing c with
  | zero => rw [extras.eq_def] at h; cases h
  | succ turns ih =>
    rw [extras.eq_def] at h
    cases hcomment : comment? (c.skipWhile isAsciiBlank) with
    | none => simp only [hcomment, List.not_mem_nil] at h
    | some after =>
      simp only [hcomment] at h
      rcases List.mem_cons.mp h with rfl | h
      · exact fun hclean => (clean_node.mp hclean).1 rfl
      · exact ih h

theorem skipExtras_eq_nil {c : Cursor} (h : ∀ t ∈ (skipExtras c).1, Clean t) : (skipExtras c).1 = [] :=
  List.eq_nil_iff_forall_not_mem.mpr fun t ht => not_clean_of_mem_extras ht (h t ht)

/-- What a reader gave is the tree of a written phrase. -/
def Written (members : Bool) (c : Cursor) (t : GrammarTree) (c' : Cursor) : Prop :=
  ∃ p : Phrase, p.Shaped ∧ p.isMember = members ∧ c.rest = p.render ++ c'.rest ∧
    t = p.tree c.offset ∧ c'.offset = c.offset + p.render.length

theorem blank_of_clean {c : Cursor} (h : ∀ t ∈ (skipExtras c).1, Clean t) :
    ∃ ws, Blank ws ∧ c.rest = ws ++ (skipExtras c).2.rest ∧
      (skipExtras c).2.offset = c.offset + ws.length :=
  blank_of_skipExtras (Prod.ext (skipExtras_eq_nil h) rfl)

theorem drop_one_of_peek? {c : Cursor} {d : Char} (h : c.peek? = some d) :
    c.rest = d :: (c.drop 1).rest ∧ (c.drop 1).offset = c.offset + 1 := by
  obtain ⟨o, s⟩ := c
  cases s with
  | nil => cases h
  | cons e s =>
    obtain rfl := Option.some.inj h
    rw [Cursor.drop_one]
    exact ⟨rfl, rfl⟩

theorem drop_length {c : Cursor} {n : Nat} (h : n ≤ c.rest.length) :
    c.rest = c.rest.take n ++ (c.drop n).rest ∧ (c.drop n).offset = c.offset + (c.rest.take n).length := by
  rw [Cursor.drop, List.length_take, Nat.min_eq_left h]
  exact ⟨(List.take_append_drop n c.rest).symm, rfl⟩

theorem written_of_string {c c' : Cursor} {t : GrammarTree} (h : string c = some (t, c')) :
    ∃ body, stringEnd? body = some body.length ∧ c.rest = '"' :: body ++ c'.rest ∧
      t = (Phrase.string body).tree c.offset ∧ c'.offset = c.offset + ('"' :: body).length := by
  obtain ⟨o, s⟩ := c
  rw [string] at h
  split at h
  · next rest heq =>
    simp only at heq
    subst heq
    obtain ⟨n, hn, h⟩ := Option.map_eq_some_iff.mp h
    obtain ⟨hle, htake⟩ := stringEnd?_take hn
    injection h with ht hc
    have hdrop := drop_length (c := ⟨o, '"' :: rest⟩) (n := n + 1) (by simpa using hle)
    have hlen : (rest.take n).length = n := List.length_take_of_le hle
    rw [hc, List.take_succ_cons] at hdrop
    refine ⟨rest.take n, by rw [htake, hlen], hdrop.1, ?_, hdrop.2⟩
    rw [← ht, hc, hdrop.2]
    rfl
  · cases h

theorem rest_of_accept? {c after : Cursor} {name : String} (h : c.accept? name = some after) :
    c.rest = name.toList ++ after.rest ∧ after.offset = c.offset + name.toList.length := by
  rw [Cursor.accept?] at h
  split at h
  · next hprefix =>
    obtain ⟨s, hs⟩ := List.isPrefixOf_iff_prefix.mp hprefix
    have hle : name.length ≤ c.rest.length := by
      rw [← hs, List.length_append, String.length_toList]
      exact Nat.le_add_right _ _
    have hdrop := drop_length hle
    have htake : c.rest.take name.length = name.toList := by
      rw [← hs, ← String.length_toList, List.take_left]
    rw [htake, Option.some.inj h] at hdrop
    exact hdrop
  · cases h

theorem written_of_word {c c' : Cursor} {t : GrammarTree} (h : word c = some (t, c')) :
    Written false c t c' := by
  rw [word] at h
  obtain ⟨name, hname, h⟩ := List.exists_of_findSome?_eq_some h
  obtain ⟨after, haccept, h⟩ := Option.map_eq_some_iff.mp h
  injection h with ht hc
  subst hc
  obtain ⟨hrest, hoffset⟩ := rest_of_accept? haccept
  refine ⟨.word name, .word hname, rfl, hrest, ?_, hoffset⟩
  rw [← ht, hoffset]
  rfl

theorem written_of_number {c c' : Cursor} {t : GrammarTree} (h : number c = some (t, c')) :
    Written false c t c' := by
  rw [number] at h
  split at h
  · cases h
  · next n hn =>
    injection h with h
    injection h with ht hc
    have hlen := local_numberLength.le c.rest
    have hdrop := drop_length hlen
    have htake := local_numberLength.take (s := c.rest) (Nat.le_refl _)
    have hlength : (c.rest.take (numberLength c.rest)).length = numberLength c.rest :=
      List.length_take_of_le hlen
    have hne : c.rest.take (numberLength c.rest) ≠ [] := fun h => hn (by rw [← hlength, h]; rfl)
    rw [hc] at hdrop
    refine ⟨.number _, .number hne (htake.trans hlength.symm), rfl, hdrop.1, ?_, hdrop.2⟩
    rw [← ht, tree, span, render, hlength]

theorem written_of_pair {depth : Nat}
    (hvalue : ∀ c t c', value depth c = some (t, c') → Clean t → Written false c t c')
    {c c' : Cursor} {t : GrammarTree} (h : pair (value depth) c = some (t, c')) (hclean : Clean t) :
    Written true c t c' := by
  rw [pair] at h
  obtain ⟨⟨key, c₁⟩, hkey, h⟩ := Option.bind_eq_some_iff.mp h
  obtain ⟨body, hbody, hrest₁, rfl, hoffset₁⟩ := written_of_string hkey
  simp only at h
  split at h
  · next hcolon =>
    obtain ⟨⟨v, c₄⟩, hv, h⟩ := Option.bind_eq_some_iff.mp h
    injection h with h
    injection h with ht hc
    subst hc ht
    obtain ⟨-, hclean⟩ := clean_node.mp hclean
    simp only [List.forall_mem_cons, List.forall_mem_append, List.cons_append] at hclean
    obtain ⟨-, ⟨hbefore, hafter⟩, hv', -⟩ := hclean
    obtain ⟨before, hblank₁, hrest₂, hoffset₂⟩ := blank_of_clean hbefore
    obtain ⟨hrest₃, hoffset₃⟩ := drop_one_of_peek? hcolon
    obtain ⟨after, hblank₂, hrest₄, hoffset₄⟩ := blank_of_clean hafter
    obtain ⟨p, hp, hkind, hrest₅, rfl, hoffset₅⟩ := hvalue _ _ _ hv (clean_withRole.mp hv')
    have hstart : valueStart body before after c.offset
        = (skipExtras ((skipExtras c₁).2.drop 1)).2.offset := by
      rw [hoffset₄, hoffset₃, hoffset₂, hoffset₁, valueStart]
      simp only [List.length_append, List.length_cons]
      omega
    have hstop : c.offset + (Phrase.member body before after p).render.length = c₄.offset := by
      rw [hoffset₅, ← hstart, render, valueStart]
      simp only [List.length_append, List.length_cons]
      omega
    refine ⟨.member body before after p, .member hbody hblank₁ hblank₂ hkind hp, rfl, ?_, ?_, hstop.symm⟩
    · rw [hrest₁, hrest₂, hrest₃, hrest₄, hrest₅, render]
      simp only [List.append_assoc, List.cons_append]
    · simp only [tree, span, hstop, hstart, skipExtras_eq_nil hbefore, skipExtras_eq_nil hafter]
      rfl
  · cases h

/-- Behind an item a list ends, or a comma and one more item follow. -/
theorem afterItem_inv {close : Char} {turns : Nat} {c c' : Cursor} {ts : List GrammarTree}
    (h : afterItem item close turns c = some (ts, c')) (hclean : ∀ t ∈ ts, Clean t) :
    (∃ trail, Blank trail ∧ c.rest = trail ++ close :: c'.rest ∧
      c'.offset = c.offset + trail.length + 1 ∧ ts = []) ∨
    (∃ gap lead c₁ t c₂ turns' rest, Blank gap ∧ Blank lead ∧
      c.rest = gap ++ ',' :: (lead ++ c₁.rest) ∧
      c₁.offset = c.offset + (gap ++ [','] ++ lead).length ∧ turns = turns' + 1 ∧
      item c₁ = some (t, c₂) ∧ afterItem item close turns' c₂ = some (rest, c') ∧ ts = t :: rest) := by
  rw [afterItem] at h
  simp only at h
  split at h
  · next hclose =>
    injection h with h
    injection h with hts hc
    subst hc hts
    obtain ⟨trail, htrail, hrest, hoffset⟩ := blank_of_clean hclean
    obtain ⟨hrest', hoffset'⟩ := drop_one_of_peek? hclose
    exact Or.inl ⟨trail, htrail, by rw [hrest, hrest'], by rw [hoffset', hoffset],
      skipExtras_eq_nil hclean⟩
  · split at h
    · next hcomma =>
      obtain ⟨⟨rest, c₃⟩, hrest, h⟩ := Option.map_eq_some_iff.mp h
      injection h with hts hc
      subst hc hts
      rw [List.forall_mem_append, List.forall_mem_append] at hclean
      obtain ⟨gap, hgap, hrest₁, hoffset₁⟩ := blank_of_clean hclean.1.1
      obtain ⟨hrest₂, hoffset₂⟩ := drop_one_of_peek? hcomma
      obtain ⟨lead, hlead, hrest₃, hoffset₃⟩ := blank_of_clean hclean.1.2
      cases turns with
      | zero => cases hrest
      | succ turns =>
        rw [commaSeparated_succ] at hrest
        obtain ⟨⟨t, c₂⟩, ht, hrest⟩ := Option.bind_eq_some_iff.mp hrest
        obtain ⟨⟨rest', c₄⟩, hrest', heq⟩ := Option.map_eq_some_iff.mp hrest
        injection heq with hts hc
        subst hc hts
        refine Or.inr ⟨gap, lead, _, t, c₂, turns, rest', hgap, hlead, ?_, ?_, rfl, ht, hrest', ?_⟩
        · rw [hrest₁, hrest₂, hrest₃]
        · rw [hoffset₃, hoffset₂, hoffset₁]
          simp only [List.length_append, List.length_cons, List.length_nil]
          omega
        · rw [skipExtras_eq_nil hclean.1.1, skipExtras_eq_nil hclean.1.2]
          rfl
    · cases h

/-- What is read of a list behind one of its items: items behind commas, blanks and the closing
bracket. -/
theorem written_of_afterItem {members : Bool}
    (hitem : ∀ c t c', item c = some (t, c') → Clean t → Written members c t c') {close : Char}
    {turns : Nat} {c c' : Cursor} {ts : List GrammarTree}
    (h : afterItem item close turns c = some (ts, c')) (hclean : ∀ t ∈ ts, Clean t) :
    ∃ (items : List (Item Phrase)) (trail : List Char), Blank trail ∧
      (∀ i ∈ items, Blank i.gap ∧ Blank i.lead) ∧ (∀ i ∈ items, i.content.isMember = members) ∧
      (∀ i ∈ items, i.content.Shaped) ∧
      c.rest = renderItems [','] items ++ (trail ++ close :: c'.rest) ∧
      ts = trees [','] c.offset items ∧
      c'.offset = c.offset + (renderItems [','] items).length + trail.length + 1 := by
  induction turns generalizing c ts with
  | zero =>
    rcases afterItem_inv h hclean with
      ⟨trail, htrail, hrest, hoffset, rfl⟩ | ⟨_, _, _, _, _, _, _, _, _, _, _, hturns, _⟩
    · exact ⟨[], trail, htrail, by simp, by simp, by simp, hrest, rfl, hoffset⟩
    · cases hturns
  | succ turns ih =>
    rcases afterItem_inv h hclean with ⟨trail, htrail, hrest, hoffset, rfl⟩ |
      ⟨gap, lead, c₁, t, c₂, turns', rest, hgap, hlead, hrest, hoffset, hturns, ht, hmore, rfl⟩
    · exact ⟨[], trail, htrail, by simp, by simp, by simp, hrest, rfl, hoffset⟩
    · obtain rfl := Nat.succ.inj hturns
      rw [List.forall_mem_cons] at hclean
      obtain ⟨p, hp, hkind, hrest₁, rfl, hoffset₁⟩ := hitem c₁ t c₂ ht hclean.1
      obtain ⟨items, trail, htrail, hblank, hkinds, hshaped, hrest₂, rfl, hoffset₂⟩ :=
        ih hmore hclean.2
      refine ⟨⟨gap, lead, p⟩ :: items, trail, htrail, ?_, ?_, ?_, ?_, ?_, ?_⟩
      · exact List.forall_mem_cons.mpr ⟨⟨hgap, hlead⟩, hblank⟩
      · exact List.forall_mem_cons.mpr ⟨hkind, hkinds⟩
      · exact List.forall_mem_cons.mpr ⟨hp, hshaped⟩
      · rw [hrest, hrest₁, hrest₂, renderItems]
        simp only [List.append_assoc, List.cons_append, List.nil_append]
      · rw [trees, hoffset₁, hoffset]
      · rw [hoffset₂, hoffset₁, hoffset, renderItems]
        simp only [List.length_append]
        omega

theorem written_of_bracketed (bracket : Bracket)
    (hitem : ∀ c t c', item c = some (t, c') → Clean t → Written bracket.holdsMembers c t c')
    {c c' : Cursor} {t : GrammarTree} (hopening : c.peek? = some bracket.opening)
    (h : bracketed bracket.construct item bracket.closing c = some (t, c')) (hclean : Clean t) :
    Written false c t c' := by
  obtain ⟨hrest₀, hoffset₀⟩ := drop_one_of_peek? hopening
  rw [bracketed] at h
  simp only at h
  split at h
  · next hclose =>
    injection h with h
    injection h with ht hc
    subst hc ht
    have hclean := (clean_node.mp hclean).2
    obtain ⟨trail, htrail, hrest₁, hoffset₁⟩ := blank_of_clean hclean
    obtain ⟨hrest₂, hoffset₂⟩ := drop_one_of_peek? hclose
    have hstop : c.offset + (Phrase.group bracket [] trail).render.length
        = ((skipExtras (c.drop 1)).2.drop 1).offset := by
      rw [hoffset₂, hoffset₁, hoffset₀]
      simp only [render, renderItems, List.length_append, List.length_cons, List.length_nil]
      omega
    refine ⟨.group bracket [] trail, .group htrail (by simp) (by simp) (by simp) (by simp), rfl, ?_, ?_,
      hstop.symm⟩
    · rw [hrest₀, hrest₁, hrest₂, render, renderItems]
      simp only [List.append_assoc, List.cons_append, List.nil_append]
    · simp only [tree, trees, span, hstop, skipExtras_eq_nil hclean]
  · obtain ⟨⟨ts, c₃⟩, hread, h⟩ := Option.bind_eq_some_iff.mp h
    injection h with h
    injection h with ht hc
    subst hc ht
    have hclean := (clean_node.mp hclean).2
    rw [List.forall_mem_append] at hclean
    obtain ⟨lead, hlead, hrest₁, hoffset₁⟩ := blank_of_clean hclean.1
    rw [commaSeparated_succ] at hread
    obtain ⟨⟨t, c₂⟩, ht, hread⟩ := Option.bind_eq_some_iff.mp hread
    obtain ⟨⟨rest, c₄⟩, hmore, heq⟩ := Option.map_eq_some_iff.mp hread
    injection heq with hts hc
    subst hc hts
    rw [List.forall_mem_cons] at hclean
    obtain ⟨p, hp, hkind, hrest₂, rfl, hoffset₂⟩ := hitem _ t c₂ ht hclean.2.1
    obtain ⟨items, trail, htrail, hblank, hkinds, hshaped, hrest₃, rfl, hoffset₃⟩ :=
      written_of_afterItem hitem hmore hclean.2.2
    have hstop : c.offset + (Phrase.group bracket (⟨[], lead, p⟩ :: items) trail).render.length
        = c₄.offset := by
      rw [hoffset₃, hoffset₂, hoffset₁, hoffset₀]
      simp only [render, renderItems, List.length_append, List.length_cons, List.length_nil]
      omega
    refine ⟨.group bracket (⟨[], lead, p⟩ :: items) trail, .group htrail ?_ ?_ ?_ ?_, rfl, ?_, ?_,
      hstop.symm⟩
    · intro i hi
      obtain rfl := Option.some.inj hi
      rfl
    · exact List.forall_mem_cons.mpr ⟨⟨fun x hx => absurd hx List.not_mem_nil, hlead⟩, hblank⟩
    · exact List.forall_mem_cons.mpr ⟨hkind, hkinds⟩
    · exact List.forall_mem_cons.mpr ⟨hp, hshaped⟩
    · rw [hrest₀, hrest₁, hrest₂, hrest₃, render, renderItems]
      simp only [List.append_assoc, List.cons_append, List.nil_append]
    · simp only [tree, trees, span, hstop, skipExtras_eq_nil hclean.1, hoffset₂, hoffset₁, hoffset₀,
        List.nil_append]

/-- **What is read without a comment is a written phrase.** -/
theorem written_of_value {depth : Nat} {c c' : Cursor} {t : GrammarTree}
    (h : value depth c = some (t, c')) (hclean : Clean t) : Written false c t c' := by
  induction depth generalizing c c' t with
  | zero => cases h
  | succ depth ih =>
    rw [value] at h
    split at h
    · obtain ⟨body, hbody, hrest, rfl, hoffset⟩ := written_of_string h
      exact ⟨.string body, .string hbody, rfl, hrest, rfl, hoffset⟩
    · next hopening =>
      exact written_of_bracketed .array (fun _ _ _ => ih) hopening h hclean
    · next hopening =>
      exact written_of_bracketed .object
        (fun _ _ _ => written_of_pair fun _ _ _ => ih) hopening h hclean
    · rcases Option.or_eq_some_iff.mp h with h | ⟨-, h⟩
      · exact written_of_word h
      · exact written_of_number h

end Grammar

end SlotEdit.Json
