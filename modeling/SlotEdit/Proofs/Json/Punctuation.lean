import SlotEdit.Proofs.Json.Nesting

/-!
# Proofs/Json/Punctuation — where commas and quotes may stand

`punctuated` goes over the characters of any text and knows only whether a value may start: it
refuses a string that starts where none may, and a comma where a value is missing.  A text with a
tree passes (`punctuated_text`); what stands in front of a place is passed over (`punctuated_before`),
so a text that fails inside a place has no tree.
-/

namespace SlotEdit.Json

open Phrase

/-- A character that says nothing about what may come next: a blank or a byte order mark. -/
def isSilent (c : Char) : Bool := isAsciiBlank c || c == '\ufeff'

/-- A character behind which a value may start. -/
def isStarter (c : Char) : Bool := c == '[' || c == '\x7b' || c == ',' || c == ':'

/-- **Commas and quotes stand where they may** in the rest of a text; `free` says whether a value may
start. -/
def punctuated : Mode → Bool → List Char → Bool
  | _, _, [] => true
  | .escaped, free, _ :: s => punctuated .quoted free s
  | .quoted, free, c :: s =>
    if c = '\\' then punctuated .escaped free s
    else if c = '"' then punctuated .plain free s
    else punctuated .quoted free s
  | .plain, free, c :: s =>
    if isSilent c then punctuated .plain free s
    else if c = '"' then free && punctuated .quoted false s
    else if c = ',' then !free && punctuated .plain true s
    else punctuated .plain (isStarter c) s

variable {s : List Char}

theorem punctuated_blank {a : List Char} (ha : ∀ c ∈ a, isSilent c = true) (free : Bool) (s : List Char) :
    punctuated .plain free (a ++ s) = punctuated .plain free s := by
  induction a with
  | nil => rfl
  | cons c a ih =>
    rw [List.forall_mem_cons] at ha
    rw [List.cons_append, punctuated, if_pos ha.1, ih ha.2]

theorem isSilent_of_blank {a : List Char} (ha : Blank a) : ∀ c ∈ a, isSilent c = true := fun c hc => by
  rw [isSilent, ha c hc, Bool.true_or]

/-- A string is passed over. -/
theorem punctuated_quoted {body : List Char} (h : Grammar.stringEnd? body = some body.length) (free : Bool)
    (s : List Char) : punctuated .quoted free (body ++ s) = punctuated .plain free s := by
  fun_induction Grammar.stringEnd? body with
  | case1 => cases h
  | case2 rest =>
    have hnil : rest = [] := List.length_eq_zero_iff.mp (Nat.succ.inj (Option.some.inj h).symm)
    rw [hnil]
    rfl
  | case3 e rest he ih =>
    obtain ⟨n, hn, hlen⟩ := Option.map_eq_some_iff.mp h
    rw [List.cons_append, List.cons_append, punctuated, if_pos rfl, punctuated]
    exact ih (hn.trans (congrArg some (Nat.add_right_cancel hlen)))
  | case4 e rest he => cases h
  | case5 c rest h1 h2 h3 => cases h
  | case6 c rest hquote h2 h3 ih =>
    obtain ⟨n, hn, hlen⟩ := Option.map_eq_some_iff.mp h
    rw [not_or] at h3
    rw [List.cons_append, punctuated, if_neg h3.1, if_neg hquote]
    exact ih (hn.trans (congrArg some (Nat.add_right_cancel hlen)))

/-- A string where a value may start. -/
theorem punctuated_string {body : List Char} (h : Grammar.stringEnd? body = some body.length) (s : List Char) :
    punctuated .plain true ('"' :: (body ++ s)) = punctuated .plain false s := by
  rw [← punctuated_quoted h false s]
  rfl

/-- A character of a word or of a number. -/
def isDull (c : Char) : Bool := !isSilent c && c != '"' && c != ',' && !isStarter c

theorem punctuated_dull {a : List Char} (hne : a ≠ []) (ha : ∀ c ∈ a, isDull c = true) (free : Bool)
    (s : List Char) : punctuated .plain free (a ++ s) = punctuated .plain false s := by
  induction a generalizing free with
  | nil => exact absurd rfl hne
  | cons c a ih =>
    rw [List.forall_mem_cons] at ha
    have hc := ha.1
    simp only [isDull, Bool.and_eq_true, Bool.not_eq_true', bne_iff_ne] at hc
    rw [List.cons_append, punctuated, hc.1.1.1, if_neg Bool.false_ne_true, if_neg hc.1.1.2, if_neg hc.1.2, hc.2]
    cases a with
    | nil => rfl
    | cons c' a => exact ih (List.cons_ne_nil c' a) ha.2 false

theorem isDull_of_isNumberChar {c : Char} (h : Grammar.isNumberChar c = true) : isDull c = true := by
  have hnot : ∀ d ∈ [' ', '\t', '\n', '\x0b', '\x0c', '\r'] ++ ['\ufeff', '"', ',', '[', '\x7b', ':'],
      Grammar.isNumberChar d = false := List.all_iff_forall_prop.mp rfl
  have hne (d : Char)
      (hd : d ∈ [' ', '\t', '\n', '\x0b', '\x0c', '\r'] ++ ['\ufeff', '"', ',', '[', '\x7b', ':']) : c ≠ d := by
    rintro rfl
    rw [hnot _ hd] at h
    cases h
  have hsilent : isSilent c = false := by
    rw [isSilent, Bool.or_eq_false_iff, beq_eq_false_iff_ne]
    refine ⟨Bool.eq_false_iff.mpr fun hblank => ?_, hne _ (by decide)⟩
    exact hne c (List.mem_append_left _ (Grammar.eq_of_isAsciiBlank hblank)) rfl
  have hstarter : isStarter c = false := by
    simp only [isStarter, Bool.or_eq_false_iff, beq_eq_false_iff_ne]
    exact ⟨⟨⟨hne _ (by decide), hne _ (by decide)⟩, hne _ (by decide)⟩, hne _ (by decide)⟩
  rw [isDull, hsilent, hstarter]
  simp only [Bool.not_false, Bool.true_and, Bool.and_true, Bool.and_eq_true, bne_iff_ne]
  exact ⟨hne _ (by decide), hne _ (by decide)⟩

/-- What stands before an item: blanks, and a comma when an item comes before it. -/
theorem punctuated_lead {gap separator lead : List Char} {free : Bool} (hgap : Blank gap) (hlead : Blank lead)
    (hseparator : separator = [] ∧ free = true ∨ separator = [','] ∧ free = false) (s : List Char) :
    punctuated .plain free (gap ++ separator ++ lead ++ s) = punctuated .plain true s := by
  rw [List.append_assoc, List.append_assoc, punctuated_blank (isSilent_of_blank hgap)]
  rcases hseparator with ⟨rfl, rfl⟩ | ⟨rfl, rfl⟩
  · exact punctuated_blank (isSilent_of_blank hlead) true s
  · exact punctuated_blank (isSilent_of_blank hlead) true s

theorem punctuated_renderItems {items : List (Item Phrase)}
    (h : ∀ i ∈ items, ∀ s, punctuated .plain true (i.content.render ++ s) = punctuated .plain false s)
    (hblank : ∀ i ∈ items, Blank i.gap ∧ Blank i.lead) {separator : List Char} {free : Bool}
    (hseparator : separator = [] ∧ free = true ∨ separator = [','] ∧ free = false) (s : List Char) :
    punctuated .plain free (renderItems separator items ++ s) =
      punctuated .plain (free && items.isEmpty) s := by
  induction items generalizing separator free with
  | nil => rw [List.isEmpty_nil, Bool.and_true]; rfl
  | cons i rest ih =>
    obtain ⟨gap, lead, p⟩ := i
    rw [List.forall_mem_cons] at h hblank
    rw [renderItems, List.append_assoc, List.append_assoc, punctuated_lead hblank.1.1 hblank.1.2 hseparator,
      h.1, ih h.2 hblank.2 (.inr ⟨rfl, rfl⟩), List.isEmpty_cons, Bool.and_false, Bool.false_and]

/-- Behind what opens a bracketed list, a value may start. -/
theorem punctuated_opening (bracket : Bracket) (free : Bool) (s : List Char) :
    punctuated .plain free (bracket.opening :: s) = punctuated .plain true s := by
  cases bracket <;> rfl

theorem punctuated_closing (bracket : Bracket) (free : Bool) (s : List Char) :
    punctuated .plain free (bracket.closing :: s) = punctuated .plain false s := by
  cases bracket <;> rfl

/-- Behind the colon of a member, its value may start. -/
theorem punctuated_colon {key before after : List Char} (hkey : Grammar.stringEnd? key = some key.length)
    (hbefore : Blank before) (hafter : Blank after) (s : List Char) :
    punctuated .plain true ('"' :: key ++ before ++ ':' :: after ++ s) = punctuated .plain true s := by
  simp only [List.append_assoc, List.cons_append]
  rw [punctuated_string hkey, punctuated_blank (isSilent_of_blank hbefore)]
  exact punctuated_blank (isSilent_of_blank hafter) true s

/-- **A phrase is passed over** where a value may start; behind it none may. -/
theorem punctuated_render {p : Phrase} (h : p.Shaped) (s : List Char) :
    punctuated .plain true (p.render ++ s) = punctuated .plain false s := by
  induction p generalizing s with
  | word name =>
    cases h with
    | word h =>
      have hdull : ∀ n ∈ ["true", "false", "null"], n.toList ≠ [] ∧ n.toList.all isDull = true :=
        List.all_iff_forall_prop.mp rfl
      exact punctuated_dull (hdull name h).1 (List.all_eq_true.mp (hdull name h).2) true s
  | string body =>
    cases h with
    | string h => exact punctuated_string h s
  | number digits =>
    cases h with
    | number hne h =>
      have hchars := Grammar.local_numberLength.chars digits
      rw [h, List.take_length] at hchars
      exact punctuated_dull hne (fun c hc => isDull_of_isNumberChar (hchars c hc)) true s
  | member key before after content ih =>
    cases h with
    | member hkey hbefore hafter _ h =>
      rw [render, List.append_assoc _ content.render, punctuated_colon hkey hbefore hafter, ih h]
  | group bracket items trail ih =>
    cases h with
    | group htrail _ hblank _ h =>
      have hitems := punctuated_renderItems (fun i hi => ih i hi (h i hi)) hblank
        (.inl ⟨rfl, rfl⟩) (trail ++ bracket.closing :: s)
      rw [render_group]
      simp only [List.append_assoc, List.cons_append, List.nil_append]
      rw [punctuated_opening, hitems, punctuated_blank (isSilent_of_blank htrail), punctuated_closing]

/-- **What stands before a place is passed over**; in the place a value may start. -/
theorem punctuated_before {place : Place} {p : Phrase} (h : (place.fill p).Shaped) (s : List Char) :
    punctuated .plain true (place.before ++ s) = punctuated .plain true s := by
  induction place generalizing s with
  | here => rfl
  | inMember key before after place ih =>
    cases h with
    | member hkey hbefore hafter _ h =>
      rw [Place.before, List.append_assoc _ place.before, punctuated_colon hkey hbefore hafter, ih h]
  | inGroup bracket front gap lead place back trail ih =>
    cases h with
    | group _ hfirst hblank _ h =>
      rw [List.forall_mem_append, List.forall_mem_cons] at hblank h
      have hfront := punctuated_renderItems (fun i hi => punctuated_render (h.1 i hi)) hblank.1
        (.inl ⟨rfl, rfl⟩) (gap ++ separatorAfter [] front ++ lead ++ (place.before ++ s))
      have hseparator : separatorAfter [] front = [] ∧ (true && front.isEmpty) = true ∨
          separatorAfter [] front = [','] ∧ (true && front.isEmpty) = false := by
        cases front with
        | nil => exact .inl ⟨rfl, rfl⟩
        | cons i front => exact .inr ⟨rfl, rfl⟩
      rw [punctuated_lead hblank.2.1.1 hblank.2.1.2 hseparator, ih h.2.1] at hfront
      rw [← hfront, Place.before]
      simp only [List.append_assoc, List.cons_append]
      exact punctuated_opening bracket true _

theorem punctuated_mark {w : Whole} (h : w.Shaped) (s : List Char) :
    punctuated .plain true (w.mark ++ w.lead ++ s) = punctuated .plain true s := by
  have hmark : ∀ c ∈ w.mark, isSilent c = true := by
    rcases h.mark with hmark | hmark <;> rw [hmark]
    · exact fun c hc => nomatch hc
    · exact List.forall_mem_singleton.mpr rfl
  rw [List.append_assoc, punctuated_blank hmark, punctuated_blank (isSilent_of_blank h.lead)]

/-- **A text with a tree has its commas and quotes where they may stand.** -/
theorem punctuated_text {w : Whole} (h : w.Shaped) : punctuated .plain true w.text = true := by
  rw [Whole.text, ← List.append_assoc, punctuated_mark h, punctuated_render h.phrase,
    ← List.append_nil w.trail, punctuated_blank (isSilent_of_blank h.trail)]
  rfl

end SlotEdit.Json
