import SlotEdit.Proofs.Json.Lexis
import SlotEdit.Proofs.Json.Numerals
import SlotEdit.Proofs.Json.Objects

/-!
# Proofs/Json/Acceptance — a tree of a text and its decoded value

The tree of a text and decoding read the same phrases and differ in what these are made of: trees
allow more white space and a byte order mark in front, decoding allows the words for numbers without
digits and a plus in exponents.  Where a text has none of these outside its strings, it has a tree
just when it decodes, and the tree stands for the decoded value.
-/

namespace SlotEdit.Json

open Phrase

/-- **What trees are made over**: the tokens of the grammar, with literals that decode. -/
def Lexis.parsed [Interpreter] : Lexis where
  blank := isAsciiBlank
  word name := name ∈ ["true", "false", "null"]
  string body := Grammar.stringEnd? body = some body.length ∧ ∃ v, decode (String.ofList ('"' :: body)) = .ok v
  number digits := (Phrase.number digits).Shaped ∧ ∃ v, decode (String.ofList digits) = .ok v
  blank_quote := rfl
  word_quote h hmem := by
    have hall : (["true", "false", "null"].all fun n => n.toList.all (· != '"')) = true := rfl
    cases List.all_eq_true.mp (List.all_eq_true.mp hall _ h) _ hmem
  string_ends h := h.1
  number_quote h hmem := by cases Grammar.isNumberChar_of_mem h.1 _ hmem

/-- **What decoding knows.** -/
def Lexis.decoded : Lexis where
  blank := isSpace
  word name := name ∈ words.map Prod.fst
  string body := ∃ cs, Inside body cs
  number digits := ∃ v, Denotes digits v
  blank_quote := rfl
  word_quote h hmem := by
    have hall : ((words.map Prod.fst).all fun n => n.toList.all (· != '"')) = true := rfl
    cases List.all_eq_true.mp (List.all_eq_true.mp hall _ h) _ hmem
  string_ends h := h.elim fun _ hb => hb.ends
  number_quote h hmem := by
    obtain ⟨v, whole, tail, hnumeral, -, rfl⟩ := h
    rcases hnumeral.chars _ hmem with hc | hc <;> cases hc

/-- A phrase over these tokens is what has a node. -/
theorem over_parsed [Interpreter] {p : Phrase} : p.Over .parsed ↔ p.Shaped ∧ p.Readable := by
  constructor
  · intro h
    induction p with
    | word name =>
      cases h with
      | word h => exact ⟨.word h, fun s hs => nomatch hs⟩
    | string body =>
      cases h with
      | string h => exact ⟨.string h.1, List.forall_mem_singleton.mpr h.2⟩
    | number digits =>
      cases h with
      | number h => exact ⟨h.1, List.forall_mem_singleton.mpr h.2⟩
    | member key before after content ih =>
      cases h with
      | member hkey hbefore hafter hvalue h =>
        exact ⟨.member hkey.1 hbefore hafter hvalue (ih h).1, readable_member.mpr ⟨hkey.2, (ih h).2⟩⟩
    | group bracket items trail ih =>
      cases h with
      | group htrail hfirst hblank hkind h =>
        exact ⟨.group htrail hfirst hblank hkind fun i hi => (ih i hi (h i hi)).1,
          readable_group.mpr fun i hi => (ih i hi (h i hi)).2⟩
  · rintro ⟨h, hread⟩
    induction h with
    | word h => exact .word h
    | string h => exact .string ⟨h, hread _ List.mem_cons_self⟩
    | number hne h => exact .number ⟨.number hne h, hread _ List.mem_cons_self⟩
    | member hkey hbefore hafter hvalue _ ih =>
      rw [readable_member] at hread
      exact .member ⟨hkey, hread.1⟩ hbefore hafter hvalue (ih hread.2)
    | group htrail hfirst hblank hkind _ ih =>
      rw [readable_group] at hread
      exact .group htrail hfirst hblank hkind fun i hi => ih i hi (hread i hi)

/-! ## Where they differ -/

/-- The characters that trees pass over outside strings and decoding does not. -/
def refusedBlanks : List Char := ['\ufeff', '\x0b', '\x0c']

/-- The text has no word for a number without digits. -/
def ConstantFree (s : List Char) : Prop := ¬ "NaN".toList <:+: s ∧ ¬ "Infinity".toList <:+: s

theorem ConstantFree.mono {s t : List Char} (h : s <:+: t) (ht : ConstantFree t) : ConstantFree s :=
  ⟨fun hs => ht.1 (hs.trans h), fun hs => ht.2 (hs.trans h)⟩

theorem decoded_within : Lexis.decoded.Within fun c => c ∉ refusedBlanks where
  blank c h := by
    simp only [Lexis.decoded, isSpace, Bool.or_eq_true, beq_iff_eq] at h
    rcases h with ((rfl | rfl) | rfl) | rfl <;> rfl
  word name h := by
    have hall : ((words.map Prod.fst).all fun n => n.toList.all fun c => c ∉ refusedBlanks) = true := rfl
    exact List.all_eq_true.mp (List.all_eq_true.mp hall _ h)
  number digits h c hc := by
    obtain ⟨v, whole, tail, hnumeral, -, rfl⟩ := h
    have hall : (refusedBlanks.all fun d => !Grammar.isNumberChar d && d != '+') = true := rfl
    refine decide_eq_true fun hmem => ?_
    have hnot := List.all_eq_true.mp hall c hmem
    rcases hnumeral.chars c hc with hc | rfl
    · rw [hc] at hnot
      cases hnot
    · cases hnot
  punctuation := List.all_eq_true.mp rfl

theorem parsed_within [Interpreter] : Lexis.parsed.Within (· != '+') where
  blank c h := by
    have hall : [' ', '\t', '\n', '\x0b', '\x0c', '\r'].all (· != '+') = true := rfl
    exact List.all_eq_true.mp hall c (Grammar.eq_of_isAsciiBlank h)
  word name h := by
    have hall : (["true", "false", "null"].all fun n => n.toList.all (· != '+')) = true := rfl
    exact List.all_eq_true.mp (List.all_eq_true.mp hall _ h)
  number digits h c hc := by
    rw [bne_iff_ne]
    rintro rfl
    cases Grammar.isNumberChar_of_mem h.1 _ hc
  punctuation := List.all_eq_true.mp rfl

theorem parsed_sub_decoded [Interpreter] : Lexis.parsed.Sub .decoded fun s => ∀ c ∈ s, c ∉ refusedBlanks where
  infix_closed h ht c hc := ht c (h.subset hc)
  blank c h hc := by
    have hall : ([' ', '\t', '\n', '\x0b', '\x0c', '\r'].all fun d => decide (d ∈ refusedBlanks) || isSpace d) = true :=
      rfl
    have hspace := List.all_eq_true.mp hall c (Grammar.eq_of_isAsciiBlank h)
    rwa [decide_eq_false (hc c (List.mem_singleton_self c)), Bool.false_or] at hspace
  word name h _ := by
    have hsub : ["true", "false", "null"] ⊆ words.map Prod.fst := by decide
    exact hsub h
  string body h := exists_inside_of_decode h.1 h.2.choose_spec
  number digits h _ := ⟨_, denotes_of_decode h.1 h.2.choose_spec⟩

theorem decoded_sub_parsed [Interpreter] : Lexis.decoded.Sub .parsed fun s => ConstantFree s ∧ '+' ∉ s where
  infix_closed h ht := ⟨ht.1.mono h, fun hs => ht.2 (h.subset hs)⟩
  blank c h _ := isAsciiBlank_of_isSpace h
  word name h hname := by
    obtain ⟨⟨hnan, hinfinity⟩, -⟩ := hname
    have hall : ((words.map Prod.fst).all fun n => decide ("NaN".toList <:+: n.toList) ||
      decide ("Infinity".toList <:+: n.toList) || decide (n ∈ ["true", "false", "null"])) = true := by decide
    have hword := List.all_eq_true.mp hall name h
    rw [decide_eq_false hnan, decide_eq_false hinfinity, Bool.false_or, Bool.false_or] at hword
    exact (of_decide_eq_true hword : name ∈ ["true", "false", "null"])
  string body h := h.elim fun _ hb => ⟨hb.ends, _, hb.decode_eq⟩
  number digits h hplus := by
    obtain ⟨v, hdigits⟩ := h
    have hshaped : (Phrase.number digits).Shaped := by
      obtain ⟨whole, tail, hnumeral, -, rfl⟩ := hdigits
      refine .number (List.append_ne_nil_of_left_ne_nil hnumeral.whole.ne_nil tail) ?_
      exact Grammar.numberLength_numeral hnumeral fun hmem => hplus.2 (List.mem_append_right whole hmem)
    exact ⟨hshaped, v, hdigits.decode_eq hshaped⟩

/-! ## Reading what decodes -/

/-- What is read in front of a text is a phrase, of a member or of a value. -/
def Front (members : Bool) (s s' : List Char) : Prop :=
  ∃ p : Phrase, p.Over .decoded ∧ p.isMember = members ∧ s = p.render ++ s'

/-- The rest of a bracketed list from one of its items on, up to and over the closing bracket. -/
def Listed (bracket : Bracket) (s s' : List Char) : Prop :=
  ∃ p rest trail, (group bracket (⟨[], [], p⟩ :: rest) trail).Over .decoded ∧
    s = p.render ++ (renderItems [','] rest ++ (trail ++ bracket.closing :: s'))

theorem spaces_skipped (c : Cursor) : ∃ ws, Spaces ws ∧ c.rest = ws ++ (c.skipWhile isSpace).rest :=
  ⟨c.rest.takeWhile isSpace, List.all_eq_true.mp List.all_takeWhile, List.takeWhile_append_dropWhile.symm⟩

variable {bracket : Bracket} {s s' : List Char} {after c c' : Cursor}

theorem Front.last (h : Front bracket.holdsMembers s after.rest)
    (hclose : (after.skipWhile isSpace).peek? = some bracket.closing) :
    Listed bracket s ((after.skipWhile isSpace).drop 1).rest := by
  obtain ⟨p, hp, hkind, rfl⟩ := h
  obtain ⟨trail, htrail, hrest⟩ := spaces_skipped after
  refine ⟨p, [], trail, .group htrail ?_ ?_ ?_ ?_, ?_⟩
  · exact fun i hi => Option.some.inj hi ▸ rfl
  · exact List.forall_mem_singleton.mpr ⟨spaces_nil, spaces_nil⟩
  · exact List.forall_mem_singleton.mpr hkind
  · exact List.forall_mem_singleton.mpr hp
  · rw [hrest, (Grammar.drop_one_of_peek? hclose).1]
    rfl

theorem Front.cons (h : Front bracket.holdsMembers s after.rest)
    (hcomma : (after.skipWhile isSpace).peek? = some ',')
    (hrest : Listed bracket (((after.skipWhile isSpace).drop 1).skipWhile isSpace).rest s') :
    Listed bracket s s' := by
  obtain ⟨p, hp, hkind, rfl⟩ := h
  obtain ⟨gap, hgap, hafter⟩ := spaces_skipped after
  obtain ⟨lead, hlead, hnext⟩ := spaces_skipped ((after.skipWhile isSpace).drop 1)
  obtain ⟨q, rest, trail, hover, hlist⟩ := hrest
  cases hover with
  | group htrail _ hblank hkinds hovers =>
    rw [List.forall_mem_cons] at hblank hkinds hovers
    refine ⟨p, ⟨gap, lead, q⟩ :: rest, trail, .group htrail ?_ ?_ ?_ ?_, ?_⟩
    · exact fun i hi => Option.some.inj hi ▸ rfl
    · exact List.forall_mem_cons.mpr ⟨⟨spaces_nil, spaces_nil⟩, List.forall_mem_cons.mpr ⟨⟨hgap, hlead⟩, hblank.2⟩⟩
    · exact List.forall_mem_cons.mpr ⟨hkind, List.forall_mem_cons.mpr hkinds⟩
    · exact List.forall_mem_cons.mpr ⟨hp, List.forall_mem_cons.mpr hovers⟩
    · rw [hafter, (Grammar.drop_one_of_peek? hcomma).1, hnext, hlist]
      simp only [renderItems, List.append_assoc, List.cons_append, List.nil_append]

/-- A list is read from its opening bracket on. -/
theorem Listed.front (h : Listed bracket ((c.drop 1).skipWhile isSpace).rest s')
    (hopen : c.peek? = some bracket.opening) : Front false c.rest s' := by
  obtain ⟨p, rest, trail, hover, hlist⟩ := h
  obtain ⟨lead, hlead, hrest⟩ := spaces_skipped (c.drop 1)
  cases hover with
  | group htrail _ hblank hkinds hovers =>
    rw [List.forall_mem_cons] at hblank hkinds hovers
    refine ⟨.group bracket (⟨[], lead, p⟩ :: rest) trail, .group htrail ?_ ?_ ?_ ?_, rfl, ?_⟩
    · exact fun i hi => Option.some.inj hi ▸ rfl
    · exact List.forall_mem_cons.mpr ⟨⟨spaces_nil, hlead⟩, hblank.2⟩
    · exact List.forall_mem_cons.mpr hkinds
    · exact List.forall_mem_cons.mpr hovers
    · rw [(Grammar.drop_one_of_peek? hopen).1, hrest, hlist, render]
      simp only [renderItems, List.append_assoc, List.cons_append, List.nil_append]

theorem front_empty (bracket : Bracket) (hopen : c.peek? = some bracket.opening)
    (hclose : ((c.drop 1).skipWhile isSpace).peek? = some bracket.closing) :
    Front false c.rest (((c.drop 1).skipWhile isSpace).drop 1).rest := by
  have hnone {P : Item Phrase → Prop} : ∀ i ∈ ([] : List (Item Phrase)), P i := fun i hi => nomatch hi
  obtain ⟨trail, htrail, hrest⟩ := spaces_skipped (c.drop 1)
  refine ⟨.group bracket [] trail, .group htrail (fun i hi => nomatch hi) hnone hnone hnone, rfl, ?_⟩
  rw [(Grammar.drop_one_of_peek? hopen).1, hrest, (Grammar.drop_one_of_peek? hclose).1, render, renderItems,
    List.nil_append, List.append_assoc, List.cons_append]
  rfl

/-- A reader of values reads phrases. -/
def ReadsFront (reader : Reader Value) : Prop :=
  ∀ {c c' : Cursor} {v : Value}, reader c = .ok (v, c') → Front false c.rest c'.rest

variable {reader : Reader Value} {turns : Nat}

theorem listed_of_readItems (hreader : ReadsFront reader) {vs : List Value}
    (h : readItems reader turns c = .ok (vs, c')) : Listed .array c.rest c'.rest := by
  induction turns generalizing c vs with
  | zero => cases h
  | succ turns ih =>
    obtain ⟨⟨v, after⟩, hread, h⟩ := bind_eq_ok.mp h
    have hfront : Front Bracket.array.holdsMembers c.rest after.rest := hreader hread
    dsimp only at h
    split at h
    · next hclose =>
      obtain ⟨-, rfl⟩ := Prod.mk.inj (Except.ok.inj h)
      exact hfront.last hclose
    · next hcomma =>
      obtain ⟨⟨rest, last⟩, hitems, h⟩ := bind_eq_ok.mp h
      obtain ⟨-, rfl⟩ := Prod.mk.inj (Except.ok.inj h)
      exact hfront.cons hcomma (ih hitems)
    · cases h

theorem listed_of_readMembers (hreader : ReadsFront reader) {es : List (Value × Value)}
    (h : readMembers reader turns c = .ok (es, c')) : Listed .object c.rest c'.rest := by
  induction turns generalizing c es with
  | zero => cases h
  | succ turns ih =>
    rw [readMembers] at h
    split at h
    · next hquote =>
      obtain ⟨⟨key, behind⟩, hkey, h⟩ := bind_eq_ok.mp h
      dsimp only at h
      split at h
      · next hcolon =>
        obtain ⟨⟨v, after⟩, hread, h⟩ := bind_eq_ok.mp h
        have hfront : Front Bracket.object.holdsMembers c.rest after.rest := by
          obtain ⟨body, hbody, hrest⟩ := exists_inside hkey
          obtain ⟨before, hbefore, hrest₁⟩ := spaces_skipped behind
          obtain ⟨lead, hlead, hrest₂⟩ := spaces_skipped ((behind.skipWhile isSpace).drop 1)
          obtain ⟨p, hp, hkind, hrest₃⟩ := hreader hread
          refine ⟨.member body before lead p, .member ⟨key, hbody⟩ hbefore hlead hkind hp, rfl, ?_⟩
          change (c.drop 1).rest = body ++ behind.rest at hrest
          rw [(Grammar.drop_one_of_peek? hquote).1, hrest, hrest₁, (Grammar.drop_one_of_peek? hcolon).1, hrest₂, hrest₃,
            render]
          simp only [List.append_assoc, List.cons_append]
        dsimp only at h
        split at h
        · next hclose =>
          obtain ⟨-, rfl⟩ := Prod.mk.inj (Except.ok.inj h)
          exact hfront.last hclose
        · next hcomma =>
          obtain ⟨⟨rest, last⟩, hmembers, h⟩ := bind_eq_ok.mp h
          obtain ⟨-, rfl⟩ := Prod.mk.inj (Except.ok.inj h)
          exact hfront.cons hcomma (ih hmembers)
        · cases h
      · cases h
    · cases h

/-- **What decodes is a phrase** over the tokens that decoding knows. -/
theorem front_of_scanString {c c' : Cursor} {v : Value} (hquote : c.peek? = some '"')
    (h : (scanString c.offset (c.offset + 1) (c.rest.drop 1) >>= fun (cs, after) =>
      pure (Value.ofText ⟨cs⟩, after)) = .ok (v, c')) : Front false c.rest c'.rest := by
  obtain ⟨⟨cs, after⟩, hscan, h⟩ := bind_eq_ok.mp h
  obtain ⟨-, rfl⟩ := Prod.mk.inj (Except.ok.inj h)
  obtain ⟨body, hbody, hrest⟩ := exists_inside hscan
  change (c.drop 1).rest = body ++ after.rest at hrest
  exact ⟨.string body, .string ⟨cs, hbody⟩, rfl, by rw [(Grammar.drop_one_of_peek? hquote).1, hrest]; rfl⟩

theorem readsFront_readValue (depth : Nat) : ReadsFront (readValue depth) := by
  have hscalar {c c' : Cursor} {v : Value} (h : readScalar c = .ok (v, c')) : Front false c.rest c'.rest := by
    rcases readScalar_eq_ok h with ⟨name, hname, hrest⟩ | ⟨digits, hdigits, hrest⟩
    · exact ⟨.word name, .word hname, rfl, hrest⟩
    · exact ⟨.number digits, .number ⟨v, hdigits⟩, rfl, hrest⟩
  induction depth with
  | zero =>
    intro c c' v h
    rw [readValue.eq_def] at h
    dsimp only at h
    split at h
    · next hquote => exact front_of_scanString hquote h
    · cases h
    · cases h
    · exact hscalar h
  | succ depth ih =>
    intro c c' v h
    rw [readValue.eq_def] at h
    dsimp only at h
    split at h
    · next hquote => exact front_of_scanString hquote h
    · next hopen =>
      rw [readList] at h
      dsimp only at h
      split at h
      · next hclose =>
        obtain ⟨-, rfl⟩ := Prod.mk.inj (Except.ok.inj h)
        exact front_empty .array hopen hclose
      · obtain ⟨⟨vs, last⟩, hitems, h⟩ := bind_eq_ok.mp h
        obtain ⟨-, rfl⟩ := Prod.mk.inj (Except.ok.inj h)
        exact (listed_of_readItems ih hitems).front hopen
    · next hopen =>
      rw [readObject] at h
      dsimp only at h
      split at h
      · next hclose =>
        obtain ⟨-, rfl⟩ := Prod.mk.inj (Except.ok.inj h)
        exact front_empty .object hopen hclose
      · obtain ⟨⟨es, last⟩, hmembers, h⟩ := bind_eq_ok.mp h
        obtain ⟨-, rfl⟩ := Prod.mk.inj (Except.ok.inj h)
        exact (listed_of_readMembers ih hmembers).front hopen
    · exact hscalar h

/-! ## Decoding phrases -/

/-- **A phrase over both kinds of tokens decodes** to what it stands for, unless it nests too deep. -/
theorem decodes_of_over {p : Phrase} (h : p.Over .decoded) (hp : p.Shaped) {depth : Nat}
    (hdepth : p.height ≤ depth) : if p.isMember then MemberDecodes (readValue depth) p else Decodes (readValue depth) p := by
  induction p generalizing depth with
  | word name =>
    cases hp with
    | word hp => exact decodes_word hp depth
  | string body =>
    cases h with
    | string h => exact h.choose_spec.decodes depth
  | number digits =>
    cases h with
    | number h => exact h.choose_spec.decodes hp depth
  | member key before after content ih =>
    cases h with
    | member hkey hbefore hafter hvalue h =>
      cases hp with
      | member _ _ _ _ hp =>
        have hcontent := ih h hp hdepth
        rw [hvalue] at hcontent
        exact ⟨hkey.choose_spec.keyDecodes, hbefore, hafter, hp, hcontent⟩
  | group bracket items trail ih =>
    cases h with
    | group htrail _ hblank hkind h =>
      have hitems := hp
      cases hitems with
      | group _ _ _ _ hshaped =>
        rw [height] at hdepth
        obtain ⟨depth, rfl⟩ := Nat.exists_eq_add_of_le' (Nat.one_le_of_lt (Nat.lt_of_succ_le hdepth))
        have hle := heightItems_le_iff.mp (Nat.le_of_succ_le_succ hdepth)
        cases bracket with
        | array =>
          refine decodes_array hp htrail hblank fun i hi => ?_
          have hcontent := ih i hi (h i hi) (hshaped i hi) (hle i hi)
          rwa [hkind i hi] at hcontent
        | object =>
          refine decodes_object hp htrail hblank fun i hi => ?_
          have hcontent := ih i hi (h i hi) (hshaped i hi) (hle i hi)
          rwa [hkind i hi] at hcontent

/-! ## Texts -/

namespace Whole

/-- The text outside the strings of its phrase. -/
def bare (w : Whole) : List Char := w.mark ++ (w.lead ++ (w.phrase.bare ++ w.trail))

/-- **A text over the tokens of a lexis**, perhaps behind a byte order mark. -/
structure Over (L : Lexis) (w : Whole) : Prop where
  mark : w.mark = [] ∨ w.mark = ['\ufeff']
  lead : ∀ c ∈ w.lead, L.blank c = true
  phrase : w.phrase.Over L
  isValue : w.phrase.isMember = false
  trail : ∀ c ∈ w.trail, L.blank c = true

variable {L L' : Lexis} {w : Whole}

theorem Over.outside_text (h : w.Over L) : outside w.text = w.bare := by
  have hmark : '"' ∉ w.mark := by
    rcases h.mark with hmark | hmark <;> rw [hmark] <;> decide
  have htrail := outside_append (quote_not_mem_blank h.trail) []
  rw [List.append_nil] at htrail
  rw [text, outside_append hmark, outside_append (quote_not_mem_blank h.lead), h.phrase.outside_render, htrail, bare]
  exact congrArg (fun s => w.mark ++ (w.lead ++ (w.phrase.bare ++ s))) (List.append_nil w.trail)

theorem Over.of_bare {P : List Char → Prop} (h : w.Over L) (hL : L.Sub L' P) (hP : P w.bare) : w.Over L' := by
  have hlead : w.lead <:+: w.bare := ⟨w.mark, w.phrase.bare ++ w.trail, by rw [bare, List.append_assoc]⟩
  have hphrase : w.phrase.bare <:+: w.bare := ⟨w.mark ++ w.lead, w.trail, by simp only [bare, List.append_assoc]⟩
  have htrail : w.trail <:+: w.bare :=
    ⟨w.mark ++ w.lead ++ w.phrase.bare, [], by simp only [bare, List.append_assoc, List.append_nil]⟩
  exact ⟨h.mark, hL.blanks h.lead (hL.infix_closed hlead hP), h.phrase.of_bare hL (hL.infix_closed hphrase hP),
    h.isValue, hL.blanks h.trail (hL.infix_closed htrail hP)⟩

theorem Over.forall_bare {f : Char → Bool} (h : w.Over L) (hL : L.Within f) (hmark : ∀ c ∈ w.mark, f c = true) :
    ∀ c ∈ w.bare, f c = true := by
  rw [bare, List.forall_mem_append, List.forall_mem_append, List.forall_mem_append]
  exact ⟨hmark, fun c hc => hL.blank c (h.lead c hc), h.phrase.forall_bare hL, fun c hc => hL.blank c (h.trail c hc)⟩

theorem sound_iff_over [Interpreter] : w.Sound ↔ w.Over .parsed ∧ w.phrase.frames ≤ treeFrames :=
  ⟨fun h => ⟨⟨h.mark, h.lead, over_parsed.mpr ⟨h.phrase, h.readable⟩, h.isValue, h.trail⟩, h.frames⟩,
    fun ⟨h, hframes⟩ => ⟨⟨h.mark, h.lead, (over_parsed.mp h.phrase).1, h.isValue, h.trail⟩,
      (over_parsed.mp h.phrase).2, hframes⟩⟩

/-- A text over the tokens of both decodes to what its phrase stands for. -/
theorem Over.decode_eq [Interpreter] {text : String} (h : w.Over .decoded) (hw : w.Sound) (hmark : w.mark = [])
    (htext : text.toList = w.text) : decode text = .ok w.phrase.value := by
  have htext : text.toList = w.lead ++ (w.phrase.render ++ w.trail) := by rw [htext, Whole.text, hmark, List.nil_append]
  have hhead := hw.toShaped.head?
  have hskip : (Cursor.ofText text).skipWhile isSpace = ⟨0 + w.lead.length, w.phrase.render ++ w.trail⟩ := by
    rw [Cursor.ofText, htext]
    exact skipWhile_spaces 0 h.lead (Grammar.quiet_render hw.phrase w.trail)
  have hread := decodes_of_over h.phrase hw.phrase (height_le_nestingLimit hw.frames)
  rw [h.isValue] at hread
  have hread : readValue nestingLimit ⟨0 + w.lead.length, w.phrase.render ++ w.trail⟩ = _ :=
    hread _ w.trail (List.append_nil w.trail ▸ Grammar.stops_blank (Spaces.blank h.trail) Grammar.stops_nil)
  rw [decode, if_neg (htext ▸ hhead), hskip]
  refine bind_eq_ok.mpr ⟨_, hread, ?_⟩
  have hend := skipWhile_spaces (0 + w.lead.length + w.phrase.render.length) h.trail (s := []) (fun c hc => (by cases hc))
  rw [List.append_nil] at hend
  simp only [hend]
  rfl

end Whole

/-- A text that decodes is one over the tokens that decoding knows. -/
theorem exists_whole_of_decode [Interpreter] {text : String} {v : Value} (h : decode text = .ok v) :
    ∃ w : Whole, w.Over .decoded ∧ w.mark = [] ∧ text.toList = w.text := by
  rw [decode] at h
  split at h
  · cases h
  · obtain ⟨⟨u, after⟩, hread, h⟩ := bind_eq_ok.mp h
    obtain ⟨lead, hlead, hrest⟩ := spaces_skipped (Cursor.ofText text)
    obtain ⟨p, hp, hkind, hrest'⟩ := readsFront_readValue _ hread
    obtain ⟨trail, htrail, hrest''⟩ := spaces_skipped after
    dsimp only at h
    split at h
    · next hend =>
      rw [Cursor.atEnd, List.isEmpty_iff] at hend
      rw [hend, List.append_nil] at hrest''
      refine ⟨⟨[], lead, p, trail⟩, ⟨.inl rfl, hlead, hp, hkind, htrail⟩, rfl, ?_⟩
      exact hrest.trans (by rw [hrest', hrest'']; rfl)
    · cases h

/-- **A tree stands for the decoded value** of its text, and the text decodes just when it has no
byte order mark, vertical tab or form feed outside its strings. -/
theorem decode_of_ofText [Interpreter] {text : String} {root : Node} (h : ofText text = .ok root) :
    ∃ v, value? root = some v ∧
      ∀ u, decode text = .ok u ↔ u = v ∧ ∀ c ∈ outside text.toList, c ∉ refusedBlanks := by
  obtain ⟨w, hw, htext, rfl⟩ := ofText_eq_ok.mp h
  have hvalue := value?_node hw.phrase w.start
  rw [inner_of_isMember hw.isValue] at hvalue
  have hparsed := (Whole.sound_iff_over.mp hw).1
  have hdecodes (hblanks : ∀ c ∈ outside text.toList, c ∉ refusedBlanks) : decode text = .ok w.phrase.value := by
    rw [htext, hparsed.outside_text] at hblanks
    refine (hparsed.of_bare parsed_sub_decoded hblanks).decode_eq hw (hw.mark.resolve_right fun hmark => ?_) htext
    have hmem : '\ufeff' ∈ w.bare := by
      rw [Whole.bare, hmark]
      exact List.mem_cons_self
    exact hblanks _ hmem (by decide)
  refine ⟨w.phrase.value, hvalue, fun u => ⟨fun hu => ?_, fun ⟨hu, hblanks⟩ => hu ▸ hdecodes hblanks⟩⟩
  obtain ⟨w', hw', hmark, htext'⟩ := exists_whole_of_decode hu
  have hblanks : ∀ c ∈ outside text.toList, c ∉ refusedBlanks := by
    have hmark' : ∀ c ∈ w'.mark, decide (c ∉ refusedBlanks) = true := by
      rw [hmark]
      exact fun c hc => nomatch hc
    rw [htext', hw'.outside_text]
    exact fun c hc => of_decide_eq_true (hw'.forall_bare decoded_within hmark' c hc)
  exact ⟨Except.ok.inj (hu.symm.trans (hdecodes hblanks)), hblanks⟩

/-- A form feed between brackets: an empty array for the tree, and nothing that decodes. -/
theorem decode_of_ofText_formFeed :
    ∃ root, ofText "[\x0c]" = .ok root ∧ value? root = some (.list []) ∧ ¬ ∃ v, decode "[\x0c]" = .ok v := by
  have hroot : ofText "[\x0c]" = .ok (.mk (.json .array) ⟨0, 3⟩ []) := by cbv
  obtain ⟨_, -, hdecode⟩ := decode_of_ofText hroot
  refine ⟨_, hroot, rfl, ?_⟩
  rintro ⟨v, hv⟩
  exact ((hdecode v).mp hv).2 '\x0c' (by decide) (by decide)

/-- **A text that decodes without constants has a tree**, unless it nests too deep, just when it has
no plus outside its strings; and the tree stands for the decoded value. -/
theorem ofText_of_decode [Interpreter] {text : String} {v : Value} (h : decode text = .ok v)
    (hconstants : ConstantFree (outside text.toList)) (hdepth : nesting text.toList ≤ treeFrames) :
    ((∃ root, ofText text = .ok root) ↔ '+' ∉ outside text.toList) ∧
      ∀ root, ofText text = .ok root → value? root = some v := by
  obtain ⟨w, hw, hmark, htext⟩ := exists_whole_of_decode h
  refine ⟨⟨?_, fun hplus => ?_⟩, fun root hroot => ?_⟩
  · rintro ⟨root, hroot⟩ hplus
    obtain ⟨w', hw', htext', -⟩ := ofText_eq_ok.mp hroot
    have hparsed := (Whole.sound_iff_over.mp hw').1
    have hmark' : ∀ c ∈ w'.mark, (c != '+') = true := by
      rcases hparsed.mark with hmark' | hmark' <;> rw [hmark']
      · exact fun c hc => nomatch hc
      · exact List.forall_mem_singleton.mpr rfl
    rw [htext', hparsed.outside_text] at hplus
    cases hparsed.forall_bare parsed_within hmark' _ hplus
  · rw [htext, hw.outside_text] at hconstants hplus
    have hparsed := hw.of_bare decoded_sub_parsed ⟨hconstants, hplus⟩
    have hshaped : w.Shaped :=
      ⟨hparsed.mark, hparsed.lead, (over_parsed.mp hparsed.phrase).1, hparsed.isValue, hparsed.trail⟩
    rw [htext, nesting_text hshaped] at hdepth
    exact ⟨w.root, ofText_eq_ok.mpr ⟨w, Whole.sound_iff_over.mpr ⟨hparsed, hdepth⟩, htext, rfl⟩⟩
  · obtain ⟨u, hu, hdecode⟩ := decode_of_ofText hroot
    rw [hu, ((hdecode v).mp h).1]

/-- A plus in an exponent: a number that decodes, and no tree. -/
theorem ofText_of_decode_plus :
    (∃ v, decode "1e+5" = .ok v) ∧ ConstantFree (outside "1e+5".toList) ∧ nesting "1e+5".toList ≤ treeFrames ∧
      ¬ ∃ root, ofText "1e+5" = .ok root := by
  have hdigit (c : Char) (hc : isAsciiDigit c = true) : Digits [c] := List.forall_mem_singleton.mpr hc
  have hexponent : Exponent ['e', '+', '5'] :=
    @Exponent.digits 'e' ['+'] ['5'] (.inl rfl) (.inr (.inl rfl)) (by decide) (hdigit '5' rfl)
  have hnumeral : Numeral ['1'] ['e', '+', '5'] :=
    ⟨.plain (.digits (by decide) (by decide) (hdigit '1' rfl)), [], _, .none, hexponent, rfl⟩
  have hdigits : Denotes "1e+5".toList _ := ⟨['1'], ['e', '+', '5'], hnumeral, rfl, rfl⟩
  have hdecode : decode "1e+5" = .ok _ :=
    bind_eq_ok.mpr ⟨_, hdigits.readValue_eq nestingLimit 0 Grammar.stops_nil, rfl⟩
  have hconstants : ConstantFree (outside "1e+5".toList) := ⟨by decide, by decide⟩
  have htree := (ofText_of_decode hdecode hconstants (by decide)).1
  exact ⟨⟨_, hdecode⟩, hconstants, by decide, fun hroot => htree.mp hroot (by decide)⟩

end SlotEdit.Json
