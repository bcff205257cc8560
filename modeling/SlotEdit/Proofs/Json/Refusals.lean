import SlotEdit.Proofs.Json.Acceptance
import SlotEdit.Proofs.Json.Editing

/-!
# Proofs/Json/Refusals — which written values have no tree

A floating-point number without digits is written as a word, and a great one with a plus in its
exponent.  The grammar knows neither: a text that holds such a value has a character outside its
strings that no text with a tree has (`exists_refused`).
-/

namespace SlotEdit.Json

open Phrase

/-- Characters that stand outside strings in no text with a tree. -/
def isRefused (c : Char) : Bool := c == '+' || c == 'N' || c == 'I'

theorem parsed_within_refused [Interpreter] : Lexis.parsed.Within fun c => !isRefused c where
  blank c h := by
    have hall : [' ', '\t', '\n', '\x0b', '\x0c', '\r'].all (fun c => !isRefused c) = true := rfl
    exact List.all_eq_true.mp hall c (Grammar.eq_of_isAsciiBlank h)
  word name h := by
    have hall : (["true", "false", "null"].all fun n => n.toList.all fun c => !isRefused c) = true := rfl
    exact List.all_eq_true.mp (List.all_eq_true.mp hall _ h)
  number digits h c hc := by
    rw [Bool.not_eq_true', Bool.eq_false_iff, isRefused]
    intro hrefused
    simp only [Bool.or_eq_true, beq_iff_eq] at hrefused
    rcases hrefused with (rfl | rfl) | rfl <;> cases Grammar.isNumberChar_of_mem h.1 _ hc
  punctuation := List.all_eq_true.mp rfl

/-! ## What values are written with -/

/-- **What values are written with**, among the tokens of the grammar: the words of decoding too, and numbers
with a plus. -/
def Lexis.written [Interpreter] : Lexis where
  blank := isAsciiBlank
  word name := name ∈ words.map Prod.fst
  string body := Grammar.stringEnd? body = some body.length
  number digits := ∃ v, Denotes digits v
  blank_quote := Lexis.parsed.blank_quote
  word_quote := Lexis.decoded.word_quote
  string_ends h := h
  number_quote := Lexis.decoded.number_quote

theorem parsed_sub_written [Interpreter] : Lexis.parsed.Sub .written fun _ => True where
  infix_closed _ _ := trivial
  blank _ h _ := h
  word name h _ := by
    have hsub : ["true", "false", "null"] ⊆ words.map Prod.fst := by decide
    exact hsub h
  string _ h := h.1
  number _ h _ := ⟨_, denotes_of_decode h.1 h.2.choose_spec⟩

/-- Phrases in a list with one blank between comma and phrase. -/
theorem over_spaced [Interpreter] {bracket : Bracket} {ps : List Phrase}
    (hkind : ∀ p ∈ ps, p.isMember = bracket.holdsMembers)
    (h : ∀ p ∈ ps, p.Over .written) : (Phrase.group bracket (spaced [] ps) []).Over .written :=
  have hblank (i : Item Phrase) (hi : i ∈ spaced [] ps) : Blank i.gap ∧ Blank i.lead :=
    (spaces_of_mem_spaced spaces_nil hi).imp Spaces.blank Spaces.blank
  .group spaces_nil.blank (head?_spaced [] ps) hblank
    (fun _ hi => hkind _ (content_mem_of_mem_spaced hi)) fun _ hi => h _ (content_mem_of_mem_spaced hi)

theorem over_word [Interpreter] {name : String} (h : name ∈ words.map Prod.fst) :
    (Phrase.word name).Over .written := .word h

theorem over_ofFloat [Interpreter] {x : Binary64} (h : x.Canonical) : (ofFloat x).Over .written := by
  cases x with
  | finite negative m e =>
    obtain ⟨whole, tail, hnumeral, hchars, hvalue⟩ := exists_numeral_chars negative h
    exact .number ⟨_, whole, tail, hnumeral, hvalue, hchars⟩
  | infinite negative =>
    cases negative
    · exact over_word (by decide)
    · exact over_word (by decide)
  | nan => exact over_word (by decide)

theorem over_ofValue [Interpreter] {v : Value} (h : v.IsPlain) (hfits : v.Fits) : (ofValue v).Over .written := by
  induction h with
  | null => exact over_word (by decide)
  | bool b => exact over_word (by cases b <;> decide)
  | int n =>
    have hshaped : (Phrase.number (intText n)).Shaped := .number (intText_ne_nil n) (Grammar.numberLength_intText n)
    obtain ⟨v, hv⟩ := readable_ofValue (.int n) hfits _ List.mem_cons_self
    exact .number ⟨v, denotes_of_decode hshaped hv⟩
  | float hcanonical => exact over_ofFloat hcanonical
  | str s => exact .string (stringEnd?_escaped s)
  | list h ih =>
    rw [fits_list] at hfits
    rw [ofValue, ofItems_eq]
    exact over_spaced (List.forall_mem_map.mpr fun v _ => isMember_ofValue v)
      (List.forall_mem_map.mpr fun v hv => ih v hv (hfits v hv))
  | dict distinct h ih =>
    rw [fits_dict, List.forall_mem_map] at hfits
    rw [ofValue, ofEntries_eq, List.map_map]
    refine over_spaced (List.forall_mem_map.mpr fun e _ => rfl) (List.forall_mem_map.mpr fun e he => ?_)
    exact .member (stringEnd?_escaped e.1) spaces_nil.blank (List.forall_mem_singleton.mpr rfl) (isMember_ofValue e.2)
      (ih e he (hfits e he))

/-! ## Refused characters -/

theorem exists_refused_ofFloat {x : Binary64} (h : ¬ Regular x) : ∃ c ∈ (ofFloat x).bare, isRefused c = true := by
  cases x with
  | finite negative m e =>
    have hplus : '+' ∈ (Binary64.finite negative m e).chars := by
      by_contra hplus
      exact h ⟨⟨negative, m, e, rfl⟩, hplus⟩
    exact ⟨'+', hplus, rfl⟩
  | infinite negative => exact ⟨'I', by cases negative <;> decide, rfl⟩
  | nan => exact ⟨'N', by decide, rfl⟩

theorem bare_infix_spaced {bracket : Bracket} {ps : List Phrase} {p : Phrase} (h : p ∈ ps) :
    p.bare <:+: (Phrase.group bracket (spaced [] ps) []).bare := by
  have hmem := h
  rw [← map_content_spaced [] ps] at hmem
  obtain ⟨i, hi, rfl⟩ := List.mem_map.mp hmem
  refine (infix_bareItems hi []).2.2.trans ⟨[bracket.opening], [bracket.closing], ?_⟩
  rw [bare, List.append_nil]
  rfl

/-- **A value with a number that the grammar has no form for** is written with a refused character. -/
theorem exists_refused {v : Value} (h : v.IsPlain) (hstrict : ¬ v.Strict) :
    ∃ c ∈ (ofValue v).bare, isRefused c = true := by
  induction h with
  | float _ => exact exists_refused_ofFloat fun h => hstrict (List.forall_mem_singleton.mpr h)
  | @list items _ ih =>
    rw [strict_list] at hstrict
    push Not at hstrict
    obtain ⟨v, hv, hnot⟩ := hstrict
    obtain ⟨c, hc, hrefused⟩ := ih v hv hnot
    rw [ofValue, ofItems_eq]
    exact ⟨c, (bare_infix_spaced (List.mem_map_of_mem hv)).subset hc, hrefused⟩
  | @dict entries _ _ ih =>
    rw [strict_dict, List.forall_mem_map] at hstrict
    push Not at hstrict
    obtain ⟨e, he, hnot⟩ := hstrict
    obtain ⟨c, hc, hrefused⟩ := ih e he hnot
    rw [ofValue, ofEntries_eq, List.map_map]
    refine ⟨c, (bare_infix_spaced (List.mem_map_of_mem he)).subset ?_, hrefused⟩
    exact List.mem_append_right _ hc
  | _ => exact absurd (fun x hx => nomatch hx) hstrict

/-! ## A value in its place -/

variable {L : Lexis}

/-- A hole takes every phrase of the kind that fits. -/
theorem Place.over_fill {place : Place} {p q : Phrase} (h : (place.fill p).Over L) (hq : q.Over L)
    (hkind : q.isMember = p.isMember) : (place.fill q).Over L := by
  induction place with
  | here => exact hq
  | inMember key before after place ih =>
    cases h with
    | member hkey hbefore hafter hvalue h =>
      exact .member hkey hbefore hafter (isMember_fill place hkind ▸ hvalue) (ih h)
  | inGroup bracket front gap lead place back trail ih =>
    cases h with
    | group htrail hfirst hblank hitems h =>
      rw [List.forall_mem_append, List.forall_mem_cons] at hblank hitems h
      have hvalue := (isMember_fill place hkind).trans hitems.2.1
      refine .group htrail ?_ ?_ ?_ ?_
      · intro i hi
        cases front with
        | nil =>
          obtain rfl := Option.some.inj hi
          exact hfirst ⟨gap, lead, place.fill p⟩ rfl
        | cons j front => exact hfirst i hi
      · exact List.forall_mem_append.mpr ⟨hblank.1, List.forall_mem_cons.mpr hblank.2⟩
      · exact List.forall_mem_append.mpr ⟨hitems.1, List.forall_mem_cons.mpr ⟨hvalue, hitems.2.2⟩⟩
      · exact List.forall_mem_append.mpr ⟨h.1, List.forall_mem_cons.mpr ⟨ih h.2.1, h.2.2⟩⟩

theorem over_of_fill {place : Place} {p : Phrase} (h : (place.fill p).Over L) : p.Over L := by
  induction place with
  | here => exact h
  | inMember key before after place ih =>
    cases h with
    | member _ _ _ _ h => exact ih h
  | inGroup bracket front gap lead place back trail ih =>
    cases h with
    | group _ _ _ _ h => exact ih (h _ (List.mem_append_right front List.mem_cons_self))

/-- What stands in a place stands in the whole. -/
theorem Place.bare_infix_fill (place : Place) (p : Phrase) : p.bare <:+: (place.fill p).bare := by
  induction place with
  | here => exact List.infix_rfl
  | inMember key before after place ih =>
    rw [fill, bare]
    exact ih.trans (List.suffix_append _ _).isInfix
  | inGroup bracket front gap lead place back trail ih =>
    have hitem := (infix_bareItems (List.mem_append_right front (List.mem_cons_self (a := (⟨gap, lead, place.fill p⟩ : Item Phrase))
      (l := back))) []).2.2
    rw [fill, bare]
    refine ih.trans (hitem.trans ⟨[bracket.opening], trail ++ [bracket.closing], ?_⟩)
    simp only [List.append_assoc, List.cons_append, List.nil_append]

namespace Sets

variable {k : String} {p : Phrase} {items items' : List (Item Phrase)} {trail : List Char}

/-- The object stays one of what values are written with. -/
theorem over_written [Interpreter] (hs : Sets k p items items') (h : (Phrase.group .object items trail).Over .written)
    (hp : p.Over .written) (hvalue : p.isMember = false) : (Phrase.group .object items' trail).Over .written := by
  cases hs with
  | replaced front back gap lead key before after old hkey hback =>
    have hplace : (valuePlace front gap lead key before after back trail).fill old =
        .group .object (front ++ ⟨gap, lead, .member key before after old⟩ :: back) trail := rfl
    rw [← hplace] at h
    have hold : old.isMember = false := by
      cases h with
      | group _ _ _ _ h =>
        cases h _ (List.mem_append_right front List.mem_cons_self) with
        | member _ _ _ hvalue _ => exact hvalue
    exact Place.over_fill h hp (hvalue.trans hold.symm)
  | appended _ layout hlayout _ =>
    cases h with
    | group htrail hfirst hblank hkind h =>
      have hnew : (added layout k p).content.Over .written :=
        .member (stringEnd?_escaped k) (fun c hc => nomatch hc) (List.forall_mem_singleton.mpr rfl) hvalue hp
      refine .group htrail ?_ ?_ ?_ ?_
      · intro i hi
        cases items with
        | nil =>
          obtain rfl := Option.some.inj hi
          rfl
        | cons j items => exact hfirst i hi
      · exact List.forall_mem_append.mpr
          ⟨hblank, List.forall_mem_singleton.mpr ⟨fun c hc => (nomatch hc), hlayout.blank⟩⟩
      · exact List.forall_mem_append.mpr ⟨hkind, List.forall_mem_singleton.mpr rfl⟩
      · exact List.forall_mem_append.mpr ⟨h, List.forall_mem_singleton.mpr hnew⟩

/-- What the key is set to stands in the object. -/
theorem bare_infix (hs : Sets k p items items') (trail : List Char) :
    p.bare <:+: (Phrase.group .object items' trail).bare := by
  cases hs with
  | replaced front back gap lead key before after old hkey hback =>
    exact (valuePlace front gap lead key before after back trail).bare_infix_fill p
  | appended _ layout hlayout _ =>
    exact (valuePlace items [] layout (escaped k) [] [' '] [] trail).bare_infix_fill p

end Sets

/-- **A text that holds a value with a refused character has no tree.** -/
theorem not_refused_of_ofText [Interpreter] {w : Whole} (h : w.Over .written) {text : String}
    (htext : text.toList = w.text)
    {root : Node} (hroot : ofText text = .ok root) {p : Phrase} (hp : p.bare <:+: w.phrase.bare) :
    ∀ c ∈ p.bare, isRefused c = false := by
  obtain ⟨w', hw', htext', -⟩ := ofText_eq_ok.mp hroot
  have hparsed := (Whole.sound_iff_over.mp hw').1
  have hmark : ∀ c ∈ w'.mark, (!isRefused c) = true := by
    rcases hparsed.mark with hmark | hmark <;> rw [hmark]
    · exact fun c hc => nomatch hc
    · exact List.forall_mem_singleton.mpr rfl
  have hbare : w.bare = w'.bare := by rw [← h.outside_text, ← htext, htext', hparsed.outside_text]
  intro c hc
  have hmem : c ∈ w.bare :=
    List.mem_append_right _ (List.mem_append_right _ (List.mem_append_left _ (hp.subset hc)))
  exact (Bool.not_eq_true' _).mp (hparsed.forall_bare parsed_within_refused hmark c (hbare ▸ hmem))

end SlotEdit.Json
