import Mathlib.Data.List.Infix
import SlotEdit.Proofs.Json.Nesting

/-!
# Proofs/Json/Lexis — what phrases are made of

A `Lexis` says which blanks, words, strings and numbers a reader of JSON knows, and `Phrase.Over`
which phrases are made of them.  Two readers that build phrases alike and know different tokens are
told apart by the characters a text has outside its strings (`Phrase.Over.of_bare`).
-/

namespace SlotEdit.Json

/-- The rest of a text without its strings, quotes included. -/
def unquoted : Mode → List Char → List Char
  | _, [] => []
  | .escaped, _ :: s => unquoted .quoted s
  | .quoted, c :: s =>
    if c = '\\' then unquoted .escaped s
    else if c = '"' then unquoted .plain s
    else unquoted .quoted s
  | .plain, c :: s => if c = '"' then unquoted .quoted s else c :: unquoted .plain s

/-- **The characters of a text that stand outside its strings.** -/
def outside (s : List Char) : List Char := unquoted .plain s

theorem outside_append {a : List Char} (ha : '"' ∉ a) (s : List Char) : outside (a ++ s) = a ++ outside s := by
  induction a with
  | nil => rfl
  | cons c a ih =>
    rw [List.mem_cons, not_or] at ha
    rw [List.cons_append, outside, unquoted, if_neg (Ne.symm ha.1), ← outside, ih ha.2, List.cons_append]

/-- A string is left out. -/
theorem outside_string {body : List Char} (h : Grammar.stringEnd? body = some body.length) (s : List Char) :
    outside ('"' :: body ++ s) = outside s := by
  rw [List.cons_append, outside, unquoted, if_pos rfl]
  fun_induction Grammar.stringEnd? body with
  | case1 => cases h
  | case2 rest =>
    have hnil : rest = [] := List.length_eq_zero_iff.mp (Nat.succ.inj (Option.some.inj h).symm)
    rw [hnil]
    rfl
  | case3 e rest he ih =>
    obtain ⟨n, hn, hlen⟩ := Option.map_eq_some_iff.mp h
    rw [List.cons_append, List.cons_append, unquoted, if_pos rfl, unquoted]
    exact ih (hn.trans (congrArg some (Nat.add_right_cancel hlen)))
  | case4 e rest he => cases h
  | case5 c rest h1 h2 h3 => cases h
  | case6 c rest hquote h2 h3 ih =>
    obtain ⟨n, hn, hlen⟩ := Option.map_eq_some_iff.mp h
    rw [not_or] at h3
    rw [List.cons_append, unquoted, if_neg h3.1, if_neg hquote]
    exact ih (hn.trans (congrArg some (Nat.add_right_cancel hlen)))

/-- **The tokens a reader of JSON knows**; none but strings has a quote in it. -/
structure Lexis where
  blank : Char → Bool
  word : String → Prop
  string : List Char → Prop
  number : List Char → Prop
  blank_quote : blank '"' = false
  word_quote {name : String} : word name → '"' ∉ name.toList
  string_ends {body : List Char} : string body → Grammar.stringEnd? body = some body.length
  number_quote {digits : List Char} : number digits → '"' ∉ digits

namespace Phrase

variable {L L' : Lexis}

/-- **A phrase made of the tokens of a lexis.** -/
inductive Over (L : Lexis) : Phrase → Prop
  | word {name : String} (h : L.word name) : Over L (.word name)
  | string {body : List Char} (h : L.string body) : Over L (.string body)
  | number {digits : List Char} (h : L.number digits) : Over L (.number digits)
  | member {key before after : List Char} {content : Phrase} (hkey : L.string key)
      (hbefore : ∀ c ∈ before, L.blank c = true) (hafter : ∀ c ∈ after, L.blank c = true)
      (hvalue : content.isMember = false) (h : Over L content) : Over L (.member key before after content)
  | group {bracket : Bracket} {items : List (Item Phrase)} {trail : List Char}
      (htrail : ∀ c ∈ trail, L.blank c = true) (hfirst : ∀ i ∈ items.head?, i.gap = [])
      (hblank : ∀ i ∈ items, (∀ c ∈ i.gap, L.blank c = true) ∧ ∀ c ∈ i.lead, L.blank c = true)
      (hkind : ∀ i ∈ items, i.content.isMember = bracket.holdsMembers)
      (h : ∀ i ∈ items, Over L i.content) : Over L (.group bracket items trail)

mutual
/-- The text of a phrase without its strings. -/
def bare : Phrase → List Char
  | .word name => name.toList
  | .string _ => []
  | .number digits => digits
  | .member _ before after content => before ++ ':' :: after ++ bare content
  | .group bracket items trail => bracket.opening :: (bareItems [] items ++ trail) ++ [bracket.closing]

/-- The text of items without their strings, the first item behind a separator. -/
def bareItems (separator : List Char) : List (Item Phrase) → List Char
  | [] => []
  | ⟨gap, lead, p⟩ :: rest => gap ++ separator ++ lead ++ bare p ++ bareItems [','] rest
end

theorem quote_not_mem_blank {s : List Char} (h : ∀ c ∈ s, L.blank c = true) : '"' ∉ s := fun hmem =>
  Bool.eq_false_iff.mp L.blank_quote (h _ hmem)

theorem outside_renderItems {items : List (Item Phrase)}
    (h : ∀ i ∈ items, ∀ s, outside (i.content.render ++ s) = i.content.bare ++ outside s)
    (hblank : ∀ i ∈ items, (∀ c ∈ i.gap, L.blank c = true) ∧ ∀ c ∈ i.lead, L.blank c = true)
    (separator : List Char) (hseparator : '"' ∉ separator) (s : List Char) :
    outside (renderItems separator items ++ s) = bareItems separator items ++ outside s := by
  induction items generalizing separator s with
  | nil => rfl
  | cons i rest ih =>
    obtain ⟨gap, lead, p⟩ := i
    rw [List.forall_mem_cons] at h hblank
    have hplain : '"' ∉ gap ++ separator ++ lead := by
      rw [List.mem_append, List.mem_append, not_or, not_or]
      exact ⟨⟨quote_not_mem_blank hblank.1.1, hseparator⟩, quote_not_mem_blank hblank.1.2⟩
    rw [renderItems, List.append_assoc, List.append_assoc, outside_append hplain, h.1, ih h.2 hblank.2 [','] (by decide),
      bareItems]
    simp only [List.append_assoc]

/-- **A phrase without its strings** is what its text has outside them. -/
theorem Over.outside_render {p : Phrase} (h : p.Over L) (s : List Char) :
    outside (p.render ++ s) = p.bare ++ outside s := by
  induction p generalizing s with
  | word name =>
    cases h with
    | word h => exact outside_append (L.word_quote h) s
  | string body =>
    cases h with
    | string h => exact outside_string (L.string_ends h) s
  | number digits =>
    cases h with
    | number h => exact outside_append (L.number_quote h) s
  | member key before after content ih =>
    cases h with
    | member hkey hbefore hafter _ h =>
      have hcolon : '"' ∉ ':' :: after := by
        rw [List.mem_cons, not_or]
        exact ⟨by decide, quote_not_mem_blank hafter⟩
      rw [render, bare, List.append_assoc, List.append_assoc, List.append_assoc, outside_string (L.string_ends hkey),
        outside_append (quote_not_mem_blank hbefore), outside_append hcolon, ih h, List.append_assoc,
        List.append_assoc]
  | group bracket items trail ih =>
    cases h with
    | group htrail _ hblank _ h =>
      have hopening : '"' ∉ [bracket.opening] := by cases bracket <;> decide
      have hclosing : '"' ∉ [bracket.closing] := by cases bracket <;> decide
      have hitems := outside_renderItems (fun i hi => ih i hi (h i hi)) hblank [] (by decide)
        (trail ++ ([bracket.closing] ++ s))
      have htext : (Phrase.group bracket items trail).render ++ s
          = [bracket.opening] ++ (renderItems [] items ++ (trail ++ ([bracket.closing] ++ s))) := by
        simp only [render, List.append_assoc, List.cons_append, List.nil_append]
      rw [htext, outside_append hopening, hitems, outside_append (quote_not_mem_blank htrail),
        outside_append hclosing, bare]
      simp only [List.append_assoc, List.cons_append, List.nil_append]

end Phrase

/-! ## Two lexes -/

/-- The tokens are written with characters of a class, and so is the punctuation. -/
structure Lexis.Within (L : Lexis) (f : Char → Bool) : Prop where
  blank (c : Char) : L.blank c = true → f c = true
  word (name : String) : L.word name → ∀ c ∈ name.toList, f c = true
  number (digits : List Char) : L.number digits → ∀ c ∈ digits, f c = true
  punctuation : ∀ c ∈ [':', ',', '[', ']', '\x7b', '\x7d'], f c = true

/-- The tokens whose text has a property are ones of another lexis; the property is one that what
stands inside a text shares with it. -/
structure Lexis.Sub (L L' : Lexis) (P : List Char → Prop) : Prop where
  infix_closed {s t : List Char} : s <:+: t → P t → P s
  blank (c : Char) : L.blank c = true → P [c] → L'.blank c = true
  word (name : String) : L.word name → P name.toList → L'.word name
  string (body : List Char) : L.string body → L'.string body
  number (digits : List Char) : L.number digits → P digits → L'.number digits

theorem Lexis.Sub.blanks {L L' : Lexis} {P : List Char → Prop} (hL : L.Sub L' P) {s : List Char} (h : ∀ c ∈ s, L.blank c = true) (hs : P s) :
    ∀ c ∈ s, L'.blank c = true := fun c hc =>
  hL.blank c (h c hc) (hL.infix_closed ((List.singleton_infix_iff c s).mpr hc) hs)

namespace Phrase

variable {L L' : Lexis} {f : Char → Bool} {P : List Char → Prop}

/-- What an item is made of stands in the text of the items. -/
theorem infix_bareItems {items : List (Item Phrase)} {i : Item Phrase} (h : i ∈ items) (separator : List Char) :
    i.gap <:+: bareItems separator items ∧ i.lead <:+: bareItems separator items ∧
      i.content.bare <:+: bareItems separator items := by
  induction items generalizing separator with
  | nil => cases h
  | cons j rest ih =>
    obtain ⟨gap, lead, p⟩ := j
    rw [bareItems]
    rcases List.mem_cons.mp h with rfl | h
    · refine ⟨⟨[], separator ++ lead ++ p.bare ++ bareItems [','] rest, ?_⟩,
        ⟨gap ++ separator, p.bare ++ bareItems [','] rest, ?_⟩, List.infix_append _ _ _⟩
      · simp only [List.append_assoc, List.nil_append]
      · simp only [List.append_assoc]
    · have hrest : bareItems [','] rest <:+: gap ++ separator ++ lead ++ p.bare ++ bareItems [','] rest :=
        (List.suffix_append _ _).isInfix
      obtain ⟨h₁, h₂, h₃⟩ := ih h [',']
      exact ⟨h₁.trans hrest, h₂.trans hrest, h₃.trans hrest⟩

theorem bareItems_forall {items : List (Item Phrase)} (separator : List Char)
    (hseparator : ∀ c ∈ separator, f c = true) (hcomma : f ',' = true)
    (h : ∀ i ∈ items, (∀ c ∈ i.gap, f c = true) ∧ (∀ c ∈ i.lead, f c = true) ∧ ∀ c ∈ i.content.bare, f c = true) :
    ∀ c ∈ bareItems separator items, f c = true := by
  induction items generalizing separator with
  | nil => exact fun c hc => nomatch hc
  | cons i rest ih =>
    obtain ⟨gap, lead, p⟩ := i
    rw [List.forall_mem_cons] at h
    simp only [bareItems, List.forall_mem_append]
    exact ⟨⟨⟨⟨h.1.1, hseparator⟩, h.1.2.1⟩, h.1.2.2⟩, ih [','] (List.forall_mem_singleton.mpr hcomma) h.2⟩

/-- A phrase has no other characters outside its strings than its tokens and the punctuation. -/
theorem Over.forall_bare {p : Phrase} (h : p.Over L) (hL : L.Within f) : ∀ c ∈ p.bare, f c = true := by
  induction p with
  | word name =>
    cases h with
    | word h => exact hL.word name h
  | string body => exact fun c hc => nomatch hc
  | number digits =>
    cases h with
    | number h => exact hL.number digits h
  | member key before after content ih =>
    cases h with
    | member _ hbefore hafter _ h =>
      rw [bare, List.forall_mem_append, List.forall_mem_append, List.forall_mem_cons]
      exact ⟨⟨fun c hc => hL.blank c (hbefore c hc), hL.punctuation _ (by decide),
        fun c hc => hL.blank c (hafter c hc)⟩, ih h⟩
  | group bracket items trail ih =>
    cases h with
    | group htrail _ hblank _ h =>
      have hitems := bareItems_forall [] (fun c hc => nomatch hc) (hL.punctuation _ (by decide))
        fun i hi => ⟨fun c hc => hL.blank c ((hblank i hi).1 c hc), fun c hc => hL.blank c ((hblank i hi).2 c hc),
          ih i hi (h i hi)⟩
      rw [bare, List.forall_mem_append, List.forall_mem_cons, List.forall_mem_append, List.forall_mem_singleton]
      exact ⟨⟨hL.punctuation _ (by cases bracket <;> decide), hitems, fun c hc => hL.blank c (htrail c hc)⟩,
        hL.punctuation _ (by cases bracket <;> decide)⟩

/-- **A phrase is over another lexis** when its text outside strings says that its tokens are. -/
theorem Over.of_bare {p : Phrase} (h : p.Over L) (hL : L.Sub L' P) (hp : P p.bare) : p.Over L' := by
  induction p with
  | word name =>
    cases h with
    | word h => exact .word (hL.word name h hp)
  | string body =>
    cases h with
    | string h => exact .string (hL.string body h)
  | number digits =>
    cases h with
    | number h => exact .number (hL.number digits h hp)
  | member key before after content ih =>
    cases h with
    | member hkey hbefore hafter hvalue h =>
      have hfront : before <:+: before ++ ':' :: after ++ content.bare :=
        ((List.prefix_append _ _).trans (List.prefix_append _ _)).isInfix
      have hmiddle : after <:+: before ++ ':' :: after ++ content.bare :=
        ⟨before ++ [':'], content.bare, by simp only [List.append_assoc, List.cons_append, List.nil_append]⟩
      have hback : content.bare <:+: before ++ ':' :: after ++ content.bare := (List.suffix_append _ _).isInfix
      exact .member (hL.string key hkey) (hL.blanks hbefore (hL.infix_closed hfront hp))
        (hL.blanks hafter (hL.infix_closed hmiddle hp)) hvalue (ih h (hL.infix_closed hback hp))
  | group bracket items trail ih =>
    cases h with
    | group htrail hfirst hblank hkind h =>
      have hitems {s : List Char} (hs : s <:+: bareItems [] items) : P s := by
        refine hL.infix_closed (hs.trans ⟨[bracket.opening], trail ++ [bracket.closing], ?_⟩) hp
        rw [bare]
        simp only [List.append_assoc, List.cons_append, List.nil_append]
      have htext : trail <:+: (Phrase.group bracket items trail).bare := by
        refine ⟨bracket.opening :: bareItems [] items, [bracket.closing], ?_⟩
        rw [bare]
        simp only [List.append_assoc, List.cons_append]
      refine .group (hL.blanks htrail (hL.infix_closed htext hp)) hfirst (fun i hi => ?_) hkind fun i hi =>
        ih i hi (h i hi) (hitems (infix_bareItems hi []).2.2)
      exact ⟨hL.blanks (hblank i hi).1 (hitems (infix_bareItems hi []).1),
        hL.blanks (hblank i hi).2 (hitems (infix_bareItems hi []).2.1)⟩

end Phrase

end SlotEdit.Json
