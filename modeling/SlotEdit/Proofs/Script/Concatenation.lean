import SlotEdit.Proofs.Script.Spacing
import SlotEdit.Proofs.Script.Statements
import SlotEdit.Proofs.Text.Offsets

/-!
# Proofs/Script/Concatenation — string literals side by side in parentheses

Literals side by side have the value that theirs have side by side (`Concatenates`).  The grammar reads them as one
string whatever stands between them in parentheses (`exists_parenthesis`), but their value is read from their text
alone, where a line ends an expression (`literalValue_of_staysOnLine`, `exists_literalValue_eq_error`).
-/

namespace SlotEdit.Script

variable {s t text : List Char} {c : Char} {o turns line : Nat} {v value : Value}

/-! ## Literals with what stands between them -/

/-- A literal and its value, with what stands in front of it. -/
structure Part where
  gap : List Char
  text : List Char
  value : Value

/-- **A part is a literal behind a gap.** -/
structure Part.IsProper [Interpreter] (part : Part) : Prop where
  isGap : IsGap part.gap
  apart : part.gap ≠ []
  isLiteral : IsLiteral part.text part.value

/-- The text of some parts. -/
def textOf (parts : List Part) : List Char := parts.flatMap fun part => part.gap ++ part.text

theorem textOf_cons (part : Part) (parts : List Part) :
    textOf (part :: parts) = part.gap ++ (part.text ++ textOf parts) := by
  rw [textOf, List.flatMap_cons, List.append_assoc]
  rfl

/-- The value of several texts, or of several sequences of bytes, side by side.  Halves of surrogate pairs in the
texts stay apart. -/
inductive Concatenates : List Value → Value → Prop
  | str (ts : List LooseText) : Concatenates (ts.map .ofText) (.ofText ⟨(ts.map LooseText.letters).flatten⟩)
  | bytes (bs : List (List UInt8)) : Concatenates (bs.map .bytes) (.bytes bs.flatten)

/-! ## The values of literals side by side -/

theorem unifyBreaks_textOf [Interpreter] {part : Part} {parts : List Part} (h : part.IsProper) :
    unifyBreaks (textOf (part :: parts)) =
      unifyBreaks part.gap ++ (unifyBreaks part.text ++ unifyBreaks (textOf parts)) := by
  obtain ⟨c, rest, htext, hc⟩ := h.isLiteral.exists_startsLiteral
  rw [textOf_cons, unifyBreaks_append, h.isLiteral.unifyBreaks_append]
  rw [htext]
  exact fun _ heq => (ne_of_startsLiteral hc).1 (Option.some.inj heq)

theorem isQuote_eq_false_of_parts [Interpreter] {parts : List Part} (h : ∀ part ∈ parts, part.IsProper) :
    ∀ c ∈ (unifyBreaks (textOf parts)).head?, isQuote c = false := by
  cases parts with
  | nil => exact nofun
  | cons part parts =>
    have hpart := h part List.mem_cons_self
    rw [unifyBreaks_textOf hpart]
    exact hpart.isGap.isQuote_unifyBreaks_eq_false hpart.apart

/-- Pieces have values, whatever line those are asked for on. -/
def HaveValues [Interpreter] (pieces : List StringPiece) (values : List Value) : Prop :=
  ∀ line, pieces.mapM (pieceValue line) = .ok values

theorem HaveValues.cons [Interpreter] {piece : StringPiece} {pieces : List StringPiece} {values : List Value}
    (hpiece : ∀ line, pieceValue line piece = .ok value) (h : HaveValues pieces values) :
    HaveValues (piece :: pieces) (value :: values) :=
  fun line => mapM_cons_eq_ok.mpr ⟨value, values, hpiece line, h line, rfl⟩

/-- **A literal behind what stays on the line** is read. -/
theorem exists_piece_of_staysOnLine [Interpreter] (line : Nat) {part : Part} {parts : List Part} (hpart : part.IsProper)
    (hparts : ∀ part ∈ parts, part.IsProper) (hline : staysOnLine part.gap = true)
    (hturns : (unifyBreaks (textOf (part :: parts))).length < turns) :
    ∃ piece turns' last, (∀ line, pieceValue line piece = .ok part.value) ∧
      (unifyBreaks (textOf parts)).length < turns' ∧
      piecesOnLine turns line (unifyBreaks (textOf (part :: parts))) =
        (piecesOnLine turns' last (unifyBreaks (textOf parts))).map fun (more, rest, end_) =>
          (piece :: more, rest, end_) := by
  rw [unifyBreaks_textOf hpart] at hturns ⊢
  obtain ⟨turns, line, hturns, heq⟩ := piecesOnLine_of_staysOnLine line hline hturns
  cases turns with
  | zero => exact absurd hturns (Nat.not_lt_zero _)
  | succ turns =>
    obtain ⟨kind, body, hvalue, hread⟩ := hpart.isLiteral.exists_piece
    obtain ⟨last, hread⟩ := hread turns line _ (isQuote_eq_false_of_parts hparts)
    refine ⟨⟨kind, body, line, last⟩, turns, last, fun line => hvalue _ _ _, ?_, heq.trans hread⟩
    obtain ⟨c, rest, htext, -⟩ := hpart.isLiteral.exists_unifyBreaks
    rw [htext, List.length_append, List.length_cons] at hturns
    omega

/-- **Literals apart by what stays on the line** are all read. -/
theorem exists_pieces [Interpreter] (line : Nat) {parts : List Part} (h : ∀ part ∈ parts, part.IsProper)
    (hline : ∀ part ∈ parts, staysOnLine part.gap = true) (hturns : (unifyBreaks (textOf parts)).length < turns) :
    ∃ pieces last, piecesOnLine turns line (unifyBreaks (textOf parts)) = .ok (pieces, .textEnd, last) ∧
      HaveValues pieces (parts.map Part.value) := by
  induction parts generalizing turns line with
  | nil =>
    cases turns with
    | zero => exact absurd hturns (Nat.not_lt_zero _)
    | succ turns => exact ⟨[], line, piecesOnLine_nil, fun _ => rfl⟩
  | cons part parts ih =>
    obtain ⟨hpart, hparts⟩ := List.forall_mem_cons.mp h
    obtain ⟨hpartLine, hpartsLine⟩ := List.forall_mem_cons.mp hline
    obtain ⟨piece, turns', last, hvalue, hturns', heq⟩ :=
      exists_piece_of_staysOnLine line hpart hparts hpartLine hturns
    obtain ⟨pieces, end_, hpieces, hvalues⟩ := ih last hparts hpartsLine hturns'
    refine ⟨piece :: pieces, end_, ?_, hvalues.cons hvalue⟩
    rw [heq, hpieces]
    rfl

/-- **Literals apart by anything else** are not. -/
theorem exists_breaks [Interpreter] (line : Nat) {parts : List Part} (h : ∀ part ∈ parts, part.IsProper)
    (hline : ∃ part ∈ parts, staysOnLine part.gap = false) (hturns : (unifyBreaks (textOf parts)).length < turns) :
    ∃ pieces rest last,
      piecesOnLine turns line (unifyBreaks (textOf parts)) = .ok (pieces, rest, last) ∧ rest.Breaks := by
  induction parts generalizing turns line with
  | nil =>
    obtain ⟨part, hmem, -⟩ := hline
    cases hmem
  | cons part parts ih =>
    obtain ⟨hpart, hparts⟩ := List.forall_mem_cons.mp h
    cases hpartLine : staysOnLine part.gap with
    | true =>
      obtain ⟨piece, turns', last, -, hturns', heq⟩ :=
        exists_piece_of_staysOnLine line hpart hparts hpartLine hturns
      obtain ⟨other, hmem, hother⟩ := hline
      have hrest : other ∈ parts := (List.mem_cons.mp hmem).resolve_left fun hsame =>
        Bool.false_ne_true (hother.symm.trans (hsame ▸ hpartLine))
      obtain ⟨pieces, rest, end_, hpieces, hbreaks⟩ := ih last hparts ⟨other, hrest, hother⟩ hturns'
      refine ⟨piece :: pieces, rest, end_, ?_, hbreaks⟩
      rw [heq, hpieces]
      rfl
    | false =>
      obtain ⟨c, rest, htext, hc⟩ := hpart.isLiteral.exists_unifyBreaks
      rw [unifyBreaks_textOf hpart, htext, List.cons_append] at hturns ⊢
      exact ⟨[], exists_piecesOnLine_of_not_staysOnLine hpart.isGap hpartLine hc hturns⟩

theorem foldlM_pieces [Interpreter] {pieces : List StringPiece} {values : List Value} (start : Value)
    (h : pieces.mapM (pieceValue line) = .ok values) :
    pieces.foldlM (fun value piece => do joinValues line value (← pieceValue line piece)) start =
      values.foldlM (joinValues line) start := by
  induction pieces generalizing start values with
  | nil =>
    rw [mapM_nil_eq_ok.mp h]
    rfl
  | cons piece pieces ih =>
    obtain ⟨value, rest, hvalue, hrest, rfl⟩ := mapM_cons_eq_ok.mp h
    rw [List.foldlM_cons, List.foldlM_cons, hvalue]
    exact bind_congr fun joined => ih joined hrest

theorem joinValues_ofText (s t : LooseText) :
    joinValues line (.ofText s) (.ofText t) = .ok (.ofText ⟨s.letters ++ t.letters⟩) := by
  rw [joinValues.eq_def, Value.text?_ofText, Value.text?_ofText]
  rfl

theorem foldlM_str (t : LooseText) (ts : List LooseText) :
    (ts.map Value.ofText).foldlM (joinValues line) (.ofText t) =
      .ok (.ofText ⟨t.letters ++ (ts.map LooseText.letters).flatten⟩) := by
  induction ts generalizing t with
  | nil =>
    rw [List.map_nil, List.map_nil, List.flatten_nil, List.append_nil]
    rfl
  | cons a ts ih =>
    rw [List.map_cons, List.foldlM_cons, joinValues_ofText, List.map_cons, List.flatten_cons, ← List.append_assoc]
    exact ih ⟨t.letters ++ a.letters⟩

theorem foldlM_bytes (s : List UInt8) (ss : List (List UInt8)) :
    (ss.map Value.bytes).foldlM (joinValues line) (.bytes s) = .ok (.bytes (s ++ ss.flatten)) := by
  induction ss generalizing s with
  | nil => rw [List.flatten_nil, List.append_nil]; rfl
  | cons a ss ih => rw [List.flatten_cons, ← List.append_assoc]; exact ih (s ++ a)

/-- **The value of pieces side by side** is what their values are side by side. -/
theorem piecesValue_of_concatenates [Interpreter] {piece : StringPiece} {pieces : List StringPiece}
    {values : List Value}
    (h : HaveValues (piece :: pieces) values) (hv : Concatenates values v) :
    piecesValue line (piece :: pieces) = .ok v := by
  obtain ⟨value, rest, hvalue, hrest, rfl⟩ := mapM_cons_eq_ok.mp (h line)
  rw [piecesValue, hvalue]
  refine (foldlM_pieces value hrest).trans ?_
  generalize hvalues : value :: rest = values at hv
  cases hv with
  | str ts =>
    cases ts with
    | nil => cases hvalues
    | cons a ts =>
      obtain ⟨rfl, rfl⟩ := List.cons.inj hvalues
      rw [foldlM_str, List.map_cons, List.flatten_cons]
  | bytes bs =>
    cases bs with
    | nil => cases hvalues
    | cons a bs =>
      obtain ⟨rfl, rfl⟩ := List.cons.inj hvalues
      rw [foldlM_bytes, List.flatten_cons]

/-- The value of the literals of a line in front of what is behind them. -/
def valueBefore (rest : LineRest) (line : Nat) (value : Value) : Except LiteralFault Value :=
  match rest with
  | .textEnd => pure value
  | .other => .error ⟨.invalidSyntax, line⟩
  | .lineBreak behind =>
    match behindFault? behind.length (line + 1) false behind with
    | some fault => .error fault
    | none => pure value

theorem LineRest.Breaks.exists_error {rest : LineRest} (h : rest.Breaks) (line : Nat) (value : Value) :
    ∃ fault, valueBefore rest line value = .error fault := by
  cases rest with
  | textEnd => exact h.elim
  | lineBreak behind =>
    obtain ⟨fault, hfault⟩ := Option.isSome_iff_exists.mp (h (line + 1))
    exact ⟨fault, by rw [valueBefore, hfault]⟩
  | other => exact ⟨_, rfl⟩

section

variable [Interpreter] {parts : List Part} (htext : IsLiteral text value) (hparts : ∀ part ∈ parts, part.IsProper)

include htext hparts

/-- **The first of some literals** is read in front of the others. -/
theorem exists_literalValue_eq : ∃ piece turns last, (∀ line, pieceValue line piece = .ok value) ∧
    (unifyBreaks (textOf parts)).length < turns ∧
    literalValue (String.ofList (text ++ textOf parts)) =
      (piecesOnLine turns last (unifyBreaks (textOf parts))).bind fun (pieces, rest, line) =>
        (piecesValue line (piece :: pieces)).bind (valueBefore rest line) := by
  obtain ⟨c, front, hfront, hc⟩ := htext.exists_startsLiteral
  obtain ⟨d, unified, hunified, -⟩ := htext.exists_unifyBreaks
  obtain ⟨kind, body, hvalue, hread⟩ := htext.exists_piece
  obtain ⟨last, hread⟩ := hread (unifyBreaks (text ++ textOf parts)).length 1 _ (isQuote_eq_false_of_parts hparts)
  refine ⟨⟨kind, body, 1, last⟩, (unifyBreaks (text ++ textOf parts)).length, last, fun _ => hvalue _ _ _, ?_, ?_⟩
  · rw [htext.unifyBreaks_append, hunified, List.length_append, List.length_cons]
    omega
  · have hstrings : literalValue (String.ofList (text ++ textOf parts)) = stringsValue (text ++ textOf parts) := by
      rw [hfront, List.cons_append, literalValue_of_startsLiteral hc]
    rw [htext.unifyBreaks_append] at hread
    rw [hstrings, stringsValue]
    dsimp only
    rw [htext.unifyBreaks_append, hread]
    cases piecesOnLine _ last (unifyBreaks (textOf parts)) with
    | error fault => rfl
    | ok found => rfl

/-- **Literals side by side on a line** have the value that theirs have side by side. -/
theorem literalValue_of_staysOnLine (hline : ∀ part ∈ parts, staysOnLine part.gap = true)
    (hv : Concatenates (value :: parts.map Part.value) v) :
    literalValue (String.ofList (text ++ textOf parts)) = .ok v := by
  obtain ⟨piece, turns, last, hvalue, hturns, heq⟩ := exists_literalValue_eq htext hparts
  obtain ⟨pieces, end_, hpieces, hvalues⟩ := exists_pieces last hparts hline hturns
  rw [heq, hpieces]
  refine bind_eq_ok.mpr ⟨_, rfl, bind_eq_ok.mpr ⟨v, ?_, rfl⟩⟩
  exact piecesValue_of_concatenates (hvalues.cons hvalue) hv

/-- **Literals side by side that a line end parts** have no value. -/
theorem exists_literalValue_eq_error (hline : ∃ part ∈ parts, staysOnLine part.gap = false) :
    ∃ fault, literalValue (String.ofList (text ++ textOf parts)) = .error fault := by
  obtain ⟨piece, turns, last, hvalue, hturns, heq⟩ := exists_literalValue_eq htext hparts
  obtain ⟨pieces, rest, end_, hpieces, hbreaks⟩ := exists_breaks last hparts hline hturns
  rw [heq, hpieces]
  cases hvalue : piecesValue end_ (piece :: pieces) with
  | error fault => exact ⟨fault, bind_eq_error.mpr (.inr ⟨_, rfl, bind_eq_error.mpr (.inl hvalue)⟩)⟩
  | ok value =>
    obtain ⟨fault, hfault⟩ := hbreaks.exists_error end_ value
    exact ⟨fault, bind_eq_error.mpr (.inr ⟨_, rfl, bind_eq_error.mpr (.inr ⟨value, hvalue, hfault⟩)⟩)⟩

end

/-! ## What the grammar makes of literals side by side -/

variable {r : Readers} {p : Place} {parts : List Part}

/-- No part of a tree says that it is formatted. -/
def Unformatted (source : String) (t : GrammarTree) : Prop :=
  ∀ u ∈ t.walk, u.construct = "string_start" → ∀ c ∈ (slice source u.span.start u.span.stop).toList, c ≠ 'f' ∧ c ≠ 'F'

theorem isFormatted_eq_false {source : String} {t : GrammarTree} (h : Unformatted source t) :
    isFormatted source t = false := by
  rw [isFormatted, List.any_eq_false]
  intro u hu hformatted
  rw [Bool.and_eq_true, beq_iff_eq, List.any_eq_true] at hformatted
  obtain ⟨hstart, c, hc, hletter⟩ := hformatted
  have hne := h u hu hstart c hc
  rw [Bool.or_eq_true, beq_iff_eq, beq_iff_eq] at hletter
  exact hletter.elim hne.1 hne.2

theorem unformatted_literal (t pre : List Char) (span : Span) {front : List Char} (hfront : front <+: text)
    (hf : 'f' ∉ front) (hF : 'F' ∉ front) : Unformatted (String.ofList (pre ++ (text ++ t)))
      (.named "string" span [.named "string_start" ⟨pre.length, pre.length + front.length⟩ []]) := by
  obtain ⟨rest, rfl⟩ := hfront
  have hslice :
      (slice (String.ofList (pre ++ (front ++ rest ++ t))) pre.length (pre.length + front.length)).toList = front := by
    rw [toList_slice, String.toList_ofList, List.append_assoc, ← List.append_assoc, sliceList_append_append]
  intro u hu hstart c hc
  simp only [GrammarTree.named, GrammarTree.walk, GrammarTree.walkAll, List.append_nil, List.mem_cons, List.not_mem_nil,
    or_false] at hu
  rcases hu with rfl | rfl
  · exact absurd hstart (show "string" ≠ "string_start" by decide)
  · rw [GrammarTree.span, hslice] at hc
    exact ⟨fun heq => hf (heq ▸ hc), fun heq => hF (heq ▸ hc)⟩

/-- What follows a literal is no quote. -/
theorem isQuote_eq_false_of_tail [Interpreter] (hparts : ∀ part ∈ parts, part.IsProper) {back rest : List Char}
    (hback : IsGap back) :
    ∀ c ∈ (textOf parts ++ (back ++ ')' :: rest)).head?, isQuote c = false := by
  cases parts with
  | nil =>
    cases back with
    | nil => exact fun c hc => Option.some.inj hc ▸ by decide
    | cons d back => exact hback.isQuote_eq_false (List.cons_ne_nil _ _)
  | cons part parts =>
    have hpart := hparts part List.mem_cons_self
    rw [textOf_cons, List.append_assoc]
    exact hpart.isGap.isQuote_eq_false hpart.apart

theorem startsToken_closing (rest : List Char) : StartsToken (')' :: rest) :=
  fun c hc => Option.some.inj hc ▸ by decide

theorem moreStrings_eq_nil {after : Cursor}
    (h : ∀ c, onwardString? p after = some c → stringLiteral (interpolation r p c.rest.length) c = none) :
    moreStrings r p turns after = ([], after) := by
  have hnone : (onwardString? p after).bind (fun c => stringLiteral (interpolation r p c.rest.length) c) = none := by
    cases honward : onwardString? p after with
    | none => rfl
    | some c => exact h c honward
  rw [moreStrings.eq_def]
  dsimp only
  rw [hnone]
  cases turns <;> rfl

theorem moreStrings_cons {after c behind : Cursor} {tree : GrammarTree} (hc : onwardString? p after = some c)
    (htree : stringLiteral (interpolation r p c.rest.length) c = some (tree, behind)) :
    moreStrings r p (turns + 1) after =
      (tree :: (moreStrings r p turns behind).1, (moreStrings r p turns behind).2) := by
  rw [moreStrings.eq_def]
  dsimp only
  rw [hc, Option.bind_some, htree]

/-- **The literals behind one** are read up to the closing parenthesis. -/
theorem exists_moreStrings [Interpreter] (r : Readers) (rest : List Char) (hp : p.InBrackets)
    (hparts : ∀ part ∈ parts, part.IsProper) {back : List Char} (hback : IsGap back) (hturns : parts.length ≤ turns) (pre : List Char) :
    ∃ trees, moreStrings r p turns ⟨pre.length, textOf parts ++ (back ++ ')' :: rest)⟩ =
        (trees, ⟨pre.length + (textOf parts).length, back ++ ')' :: rest⟩) ∧ trees.length = parts.length ∧
      ∀ t ∈ trees, Unformatted (String.ofList (pre ++ (textOf parts ++ (back ++ ')' :: rest)))) t := by
  induction parts generalizing turns pre with
  | nil =>
    refine ⟨[], moreStrings_eq_nil fun c hc => ?_, rfl, nofun⟩
    rw [textOf, List.flatMap_nil, List.nil_append, onwardString?_of_isGap hp hback (startsToken_closing rest)] at hc
    obtain rfl := Option.some.inj hc
    rw [stringLiteral, quoting?_eq_none (by decide)]
    rfl
  | cons part parts ih =>
    obtain ⟨hpart, hparts⟩ := List.forall_mem_cons.mp hparts
    cases turns with
    | zero => exact absurd hturns (Nat.not_succ_le_zero _)
    | succ turns =>
      obtain ⟨c, front, htext, hc⟩ := hpart.isLiteral.exists_startsLiteral
      obtain ⟨start, hstart, hf, hF, hread⟩ := hpart.isLiteral.exists_stringLiteral
      obtain ⟨trees, hmore, hlength, htrees⟩ := ih hparts (Nat.le_of_succ_le_succ hturns) (pre ++ part.gap ++ part.text)
      have honward : onwardString? p ⟨pre.length, textOf (part :: parts) ++ (back ++ ')' :: rest)⟩ =
          some ⟨pre.length + part.gap.length, part.text ++ (textOf parts ++ (back ++ ')' :: rest))⟩ := by
        rw [textOf_cons, List.append_assoc, List.append_assoc]
        refine onwardString?_of_isGap hp hpart.isGap ?_
        rw [htext]
        exact startsToken_of_startsLiteral hc
      have hsource : pre ++ part.gap ++ part.text ++ (textOf parts ++ (back ++ ')' :: rest)) =
          pre ++ (textOf (part :: parts) ++ (back ++ ')' :: rest)) := by
        rw [textOf_cons]
        simp only [List.append_assoc]
      have hlast : (pre ++ part.gap ++ part.text).length + (textOf parts).length =
          pre.length + (textOf (part :: parts)).length := by
        simp only [textOf_cons, List.length_append, Nat.add_assoc]
      rw [hlast, List.length_append, List.length_append] at hmore
      rw [moreStrings_cons honward (hread _ _ _ (isQuote_eq_false_of_tail hparts hback)), hmore]
      refine ⟨_, rfl, congrArg Nat.succ hlength, List.forall_mem_cons.mpr ⟨?_, hsource ▸ htrees⟩⟩
      rw [← List.length_append, ← hsource, List.append_assoc (pre ++ part.gap)]
      exact unformatted_literal _ _ _ hstart hf hF

/-- A string over a span that is not formatted. -/
structure IsString (source : String) (span : Span) (t : GrammarTree) : Prop where
  isNode : ∃ construct children, t = .named construct span children ∧ construct ∈ ["string", "concatenated_string"]
  unformatted : Unformatted source t

theorem length_le_textOf [Interpreter] (hparts : ∀ part ∈ parts, part.IsProper) :
    parts.length ≤ (textOf parts).length := by
  induction parts with
  | nil => exact Nat.zero_le _
  | cons part parts ih =>
    obtain ⟨hpart, hparts⟩ := List.forall_mem_cons.mp hparts
    have hgap := List.length_pos_iff.mpr hpart.apart
    have hrest := ih hparts
    rw [textOf_cons, List.length_cons, List.length_append, List.length_append]
    omega

theorem Unformatted.node {source construct : String} {span : Span} {ts : List GrammarTree}
    (hts : ∀ t ∈ ts, Unformatted source t) (hc : construct ≠ "string_start") :
    Unformatted source (.named construct span ts) := by
  intro u hu hstart
  rw [GrammarTree.named, GrammarTree.walk, List.mem_cons, GrammarTree.mem_walkAll] at hu
  rcases hu with rfl | ⟨t, ht, hu⟩
  · exact absurd hstart hc
  · exact hts t ht u hu hstart

/-- **Literals side by side** are one string up to the closing parenthesis. -/
theorem exists_strings [Interpreter] (r : Readers) (rest : List Char) (hp : p.InBrackets) (htext : IsLiteral text value)
    (hparts : ∀ part ∈ parts, part.IsProper) {back : List Char} (hback : IsGap back) (pre : List Char) :
    ∃ tree, strings r p ⟨pre.length, text ++ (textOf parts ++ (back ++ ')' :: rest))⟩ =
        some (tree, ⟨pre.length + (text ++ textOf parts).length, back ++ ')' :: rest⟩) ∧
      IsString (String.ofList (pre ++ (text ++ (textOf parts ++ (back ++ ')' :: rest)))))
        ⟨pre.length, pre.length + (text ++ textOf parts).length⟩ tree := by
  obtain ⟨start, hstart, hf, hF, hread⟩ := htext.exists_stringLiteral
  have hturns : parts.length ≤ (textOf parts ++ (back ++ ')' :: rest)).length :=
    Nat.le_trans (length_le_textOf hparts) (by rw [List.length_append]; exact Nat.le_add_right _ _)
  obtain ⟨trees, hmore, hlength, htrees⟩ := exists_moreStrings r rest hp hparts hback hturns (pre ++ text)
  have hlast : (pre ++ text).length + (textOf parts).length = pre.length + (text ++ textOf parts).length := by
    simp only [List.length_append, Nat.add_assoc]
  have hfirst (span : Span) := unformatted_literal (textOf parts ++ (back ++ ')' :: rest)) pre span hstart hf hF
  rw [hlast, show (pre ++ text).length = pre.length + text.length from List.length_append] at hmore
  rw [List.append_assoc] at htrees
  rw [strings, hread _ _ _ (isQuote_eq_false_of_tail hparts hback)]
  dsimp only [Option.bind_eq_bind, Option.bind_some]
  rw [hmore]
  cases trees with
  | nil =>
    obtain rfl := List.length_eq_zero_iff.mp hlength.symm
    refine ⟨_, rfl, ?_⟩
    rw [show textOf [] = [] from rfl, List.append_nil]
    exact ⟨⟨"string", _, rfl, by simp⟩, hfirst _⟩
  | cons t ts =>
    exact ⟨_, rfl, ⟨_, _, rfl, by simp⟩, .node (List.forall_mem_cons.mpr ⟨hfirst _, htrees⟩) (by decide)⟩

/-! ## An expression that is one operand -/

theorem word_eq_nil {rest : List Char} (hc : isNameStart c = false) : word ⟨o, c :: rest⟩ = [] := by
  rw [word]
  dsimp only
  rw [hc, if_neg Bool.false_ne_true]

theorem word_literal {letters rest : List Char} (hletters : ∀ c ∈ letters, isQuotingLetter c = true)
    (hc : isQuote c = true) :
    word ⟨o, letters ++ c :: rest⟩ = letters := by
  have hquote : isNameStart c = false ∧ isNameContinue c = false := by
    rw [isQuote_iff] at hc
    fin_cases hc <;> decide
  have hletter : ∀ c, isQuotingLetter c = true → isNameStart c = true ∧ isNameContinue c = true := by
    intro c hc
    rw [isQuotingLetter_iff] at hc
    fin_cases hc <;> decide
  cases letters with
  | nil => exact word_eq_nil hquote.1
  | cons d letters =>
    obtain ⟨hd, hletters⟩ := List.forall_mem_cons.mp hletters
    rw [List.cons_append, word]
    dsimp only
    rw [if_pos (hletter d hd).1, takeWhile_run fun c hc => (hletter c (hletters c hc)).2]
    exact fun c hc => Option.some.inj hc ▸ hquote.2

/-- The words that lead or join expressions. -/
def expressionWords : List String :=
  ["yield", "not", "lambda", "await", "and", "or", "as", "if", "in", "is", "for", "async"]

theorem keyword?_eq_none {expected : String} {after : Cursor} (hword : ∀ c ∈ word after, isQuotingLetter c = true)
    (h : expected ∈ expressionWords) : keyword? expected after = none := by
  rw [keyword?, if_neg]
  intro heq
  rw [heq] at hword
  simp only [expressionWords, List.mem_cons, List.not_mem_nil, or_false] at h
  rcases h with rfl | rfl | rfl | rfl | rfl | rfl | rfl | rfl | rfl | rfl | rfl | rfl
  all_goals simp [isQuotingLetter] at hword

theorem keyword?_closing {expected : String} (h : expected ∈ expressionWords) {rest : List Char} :
    keyword? expected ⟨o, ')' :: rest⟩ = none :=
  keyword?_eq_none (by rw [word_eq_nil (by decide)]; exact nofun) h

theorem arithmeticOperator?_closing (o : Nat) (rest : List Char) : arithmeticOperator? ⟨o, ')' :: rest⟩ = none := by
  simp [arithmeticOperator?, arithmeticOperators, Cursor.startsWith]

theorem comparisonMark?_closing (o : Nat) (rest : List Char) : comparisonMark? ⟨o, ')' :: rest⟩ = none := by
  simp [comparisonMark?, comparisonMarks, Cursor.startsWith, Cursor.accept?]

/-- **An expression ends here**: the line does, or a closing parenthesis follows. -/
def Ends (p : Place) (after : Cursor) : Prop :=
  ∀ next, onward? p after = some next → ∃ o rest, next = ⟨o, ')' :: rest⟩

section

variable {tree : GrammarTree} {after first : Cursor} (h : Ends p after)

include h

theorem bind_onward?_eq_none {α : Type} {read : Cursor → Option α} (hread : ∀ o rest, read ⟨o, ')' :: rest⟩ = none) :
    (onward? p after).bind read = none := by
  cases honward : onward? p after with
  | none => rfl
  | some next =>
    obtain ⟨o, rest, rfl⟩ := h next honward
    exact hread o rest

theorem accesses_of_ends : accesses r p turns first tree after = some (tree, after) := by
  rw [accesses.eq_def]
  cases honward : onward? p after with
  | none => cases turns <;> rfl
  | some next =>
    obtain ⟨o, rest, rfl⟩ := h next honward
    cases turns <;> rfl

theorem operations_of_ends {strength : Nat} : operations r strength p turns first tree after = some (tree, after) := by
  have hnone := bind_onward?_eq_none h arithmeticOperator?_closing
  rw [operations.eq_def, hnone]
  cases turns <;> rfl

theorem comparands_of_ends : comparands r p turns after = some ([], after) := by
  have hnone : (onward? p after).bind (comparisonOperator? p) = none := bind_onward?_eq_none h fun o rest => by
    rw [comparisonOperator?, comparisonMark?_closing]
    dsimp only
    rw [keyword?_closing (by simp [expressionWords]), keyword?_closing (by simp [expressionWords]),
      keyword?_closing (by simp [expressionWords])]
    rfl
  rw [comparands.eq_def, hnone]
  cases turns <;> rfl

theorem joinedRest_of_ends {tier : Nat} : joinedRest r tier p turns first tree after = some (tree, after) := by
  rw [joinedRest.eq_def]
  cases honward : onward? p after with
  | none => cases turns <;> rfl
  | some next =>
    obtain ⟨o, rest, rfl⟩ := h next honward
    cases turns with
    | zero => rfl
    | succ turns =>
      dsimp only
      rw [keyword?_closing (by simp [expressionWords]), keyword?_closing (by simp [expressionWords]),
        keyword?_closing (by simp [expressionWords]), keyword?_closing (by simp [expressionWords])]

end

/-- **No sign, star or word stands in front of an operand.** -/
structure Bare (p : Place) (c : Cursor) : Prop where
  sign : ∀ mark ∈ ["-", "+", "~", "*"], c.startsWith mark = false
  word : ∀ d ∈ word c, isQuotingLetter d = true
  named : ∀ name after, identifier? c = some (name, after) → (onward? p after).bind (mark? ":=") = none

/-- **An operand alone** is an expression. -/
theorem expression_of_atom {tree : GrammarTree} {first after : Cursor} {tier : Nat} (hbare : Bare p first)
    (hatom : atom r p first = some (tree, after)) (hends : Ends p after) :
    expression r tier p first = some (tree, after) := by
  have hkeyword {expected : String} (hmem : expected ∈ expressionWords) : keyword? expected first = none :=
    keyword?_eq_none hbare.word hmem
  have hprimary : primary r p first = some (tree, after) := by
    rw [primary, hbare.sign "*" (by simp), Bool.false_and, if_neg Bool.false_ne_true, hatom]
    exact accesses_of_ends hends
  have hsigned : signed r p first = some (tree, after) := by
    rw [signed, hbare.sign "-" (by simp), hbare.sign "+" (by simp), hbare.sign "~" (by simp)]
    dsimp only
    rw [hkeyword (by simp [expressionWords]), hprimary]
    rfl
  have hcomparison : comparison r p first = some (tree, after) := by
    have harithmetic : arithmetic r comparisonStrength p first = some (tree, after) := by
      rw [arithmetic, if_neg (by decide), hsigned]
      exact operations_of_ends hends
    rw [comparison, harithmetic]
    dsimp only [Option.bind_eq_bind, Option.bind_some]
    rw [comparands_of_ends hends]
    rfl
  have hprefixed : prefixed r p first = some (tree, after) := by
    rw [prefixed, hkeyword (by simp [expressionWords])]
    dsimp only
    have hlambda : lambdaExpression r p first = none := by
      rw [lambdaExpression, hkeyword (by simp [expressionWords])]
      rfl
    have hnamed : namedExpression r p first = none := by
      rw [namedExpression]
      cases hname : identifier? first with
      | none => rfl
      | some found =>
        obtain ⟨name, behind⟩ := found
        dsimp only [Option.bind_eq_bind, Option.bind_some]
        rw [hbare.named name behind hname]
        rfl
    rw [hlambda, hnamed, hcomparison]
    rfl
  rw [expression, hprefixed]
  exact joinedRest_of_ends hends

theorem startsWith_eq_false {mark : String} {d : Char} {rest : List Char} (hmark : mark.toList.head? = some d)
    (hne : d ≠ c) : Cursor.startsWith ⟨o, c :: rest⟩ mark = false := by
  obtain ⟨ds, hds⟩ := List.head?_eq_some_iff.mp hmark
  rw [Cursor.startsWith, hds, List.isPrefixOf_cons_cons, beq_false_of_ne hne, Bool.false_and]

theorem startsWith_sign_eq_false {rest : List Char} (hc : c ∉ ['-', '+', '~', '*']) :
    ∀ mark ∈ ["-", "+", "~", "*"], Cursor.startsWith ⟨o, c :: rest⟩ mark = false := by
  simp only [List.mem_cons, List.not_mem_nil, or_false, not_or] at hc
  simp only [List.forall_mem_cons]
  exact ⟨startsWith_eq_false (d := '-') (by simp) (Ne.symm hc.1),
    startsWith_eq_false (d := '+') (by simp) (Ne.symm hc.2.1),
    startsWith_eq_false (d := '~') (by simp) (Ne.symm hc.2.2.1),
    startsWith_eq_false (d := '*') (by simp) (Ne.symm hc.2.2.2), nofun⟩

/-! ## Literals in parentheses -/

theorem not_mark_of_startsLiteral (h : startsLiteral c = true) :
    c ∉ ['-', '+', '~', '*', '.', ':', '(', ')', '[', '\x7b'] := by
  rw [startsLiteral_iff] at h
  fin_cases h <;> decide

section

variable [Interpreter] (htext : IsLiteral text value)

include htext

theorem bare_literal (hp : p.InBrackets) : Bare p ⟨o, text ++ t⟩ := by
  obtain ⟨letters, quote, rest, rfl, hletters, hquote⟩ := htext.exists_letters
  obtain ⟨c, front, hfront, hc⟩ := htext.exists_startsLiteral
  have hmarks := not_mark_of_startsLiteral hc
  have hword : word ⟨o, letters ++ quote :: rest ++ t⟩ = letters := by
    rw [List.append_assoc]
    exact word_literal hletters hquote
  refine ⟨fun mark hmark => ?_, fun d hd => hletters d (hword ▸ hd), fun name after hname => ?_⟩
  · rw [hfront]
    exact startsWith_sign_eq_false (fun hmem => hmarks (List.mem_append_left _ hmem)) mark hmark
  · rw [identifier?] at hname
    obtain ⟨behind, hbehind, heq⟩ := Option.map_eq_some_iff.mp hname
    obtain ⟨-, rfl⟩ := Prod.mk.inj heq
    rw [name?] at hbehind
    split at hbehind
    · cases hbehind
    · have hliteral : startsLiteral quote = true := by rw [startsLiteral, hquote, Bool.or_true]
      have hcolon : ':' ≠ quote := by
        rintro rfl
        exact absurd hquote (by decide)
      have honward := onward?_of_isGap (o := o + letters.length) hp .nil
        (startsToken_of_startsLiteral (s := rest ++ t) hliteral)
      obtain rfl := Option.some.inj hbehind
      rw [hword, List.append_assoc, drop_cursor (Nat.le_refl _), List.drop_length]
      rw [List.nil_append] at honward
      rw [List.nil_append, List.cons_append, honward, Option.bind_some, mark?, Cursor.accept?,
        startsWith_eq_false (by simp) hcolon, if_neg Bool.false_ne_true]

theorem atom_literal (ht : ∀ c ∈ t.head?, isQuote c = false) :
    atom r p ⟨o, text ++ t⟩ = strings r p ⟨o, text ++ t⟩ := by
  obtain ⟨start, -, -, -, hread⟩ := htext.exists_stringLiteral
  have hquoting : (quoting? ⟨o, text ++ t⟩).isSome = true := by
    have hliteral := hread (fun _ => none) o t ht
    rw [stringLiteral] at hliteral
    obtain ⟨found, hfound, -⟩ := Option.bind_eq_some_iff.mp hliteral
    rw [hfound]
    rfl
  obtain ⟨c, front, rfl, hc⟩ := htext.exists_startsLiteral
  have hmarks := not_mark_of_startsLiteral hc
  simp only [List.mem_cons, List.not_mem_nil, or_false, not_or] at hmarks
  obtain ⟨-, -, -, -, hdot, -, hround, -, hsquare, hcurly⟩ := hmarks
  have hdots : Cursor.startsWith ⟨o, c :: front ++ t⟩ "..." = false := startsWith_eq_false (by simp) (Ne.symm hdot)
  rw [atom.eq_def]
  split
  · next heq => exact absurd (Option.some.inj heq) hround
  · next heq => exact absurd (Option.some.inj heq) hsquare
  · next heq => exact absurd (Option.some.inj heq) hcurly
  · rw [hdots, if_neg Bool.false_ne_true, if_pos hquoting]

end

theorem ends_closing (hp : p.InBrackets) {back rest : List Char} (hback : IsGap back) :
    Ends p ⟨o, back ++ ')' :: rest⟩ := by
  intro next hnext
  rw [onward?_of_isGap hp hback (startsToken_closing rest)] at hnext
  exact ⟨_, rest, (Option.some.inj hnext).symm⟩

/-- **An item alone in parentheses** is read up to the closing one. -/
theorem bracketed_of_closing {item : ExpressionReader} {first after : Cursor} {construct : String} {span : Span}
    {children : List GrammarTree} (hconstruct : construct ≠ "list_splat")
    (hafter : onward? p.bracketed after = some ⟨o, ')' :: t⟩) :
    bracketed r ⟨")", "generator_expression", "tuple"⟩ item p first (.named construct span children) after =
      some (.named "parenthesized_expression" ⟨first.offset, o + 1⟩ [.named construct span children], ⟨o + 1, t⟩) := by
  have hclauses : clausesUntil? r ")" p after = none := by
    rw [clausesUntil?, hafter]
    dsimp only [Option.bind_eq_bind, Option.bind_some]
    rw [forClause, keyword?_closing (by simp [expressionWords])]
    dsimp only [Option.bind_eq_bind, Option.bind_some]
    rw [keyword?_closing (by simp [expressionWords])]
    rfl
  have hclosing : closing? p ")" after = some ⟨o + 1, t⟩ := by
    rw [closing?, hafter, Option.bind_some, mark?, Cursor.accept?, if_pos (by simp [Cursor.startsWith])]
    exact congrArg some (drop_cursor (s := [')']) (Nat.le_refl 1))
  rw [bracketed, hclauses]
  dsimp only
  have hitems : itemsBehind item ")" p after.rest.length after = some ([], false, ⟨o + 1, t⟩) := by
    rw [itemsBehind.eq_def, hclosing]
  rw [hitems]
  dsimp only [Option.bind_eq_bind, Option.bind_some]
  rw [GrammarTree.named, GrammarTree.construct, bne_iff_ne.mpr hconstruct]
  rfl

/-- A text in parentheses, with what stands in front of it and behind it. -/
def inParentheses (front text back : List Char) : List Char := '(' :: (front ++ (text ++ (back ++ [')'])))

/-- **Literals in parentheses** are one string in a parenthesized expression. -/
theorem exists_parenthesis [Interpreter] (htext : IsLiteral text value) (hparts : ∀ part ∈ parts, part.IsProper)
    {front back : List Char} (hfront : IsGap front) (hback : IsGap back) (depth : Nat) :
    ∃ tree, parenthesis (readersTo (depth + 1)) p ⟨0, inParentheses front (text ++ textOf parts) back⟩ =
        some (.named "parenthesized_expression" ⟨0, (inParentheses front (text ++ textOf parts) back).length⟩ [tree],
          ⟨(inParentheses front (text ++ textOf parts) back).length, []⟩) ∧
      IsString (String.ofList (inParentheses front (text ++ textOf parts) back))
        ⟨front.length + 1, front.length + 1 + (text ++ textOf parts).length⟩ tree := by
  have hbrackets : p.bracketed.InBrackets := ⟨rfl, rfl⟩
  obtain ⟨c, rest, hfirst, hc⟩ := htext.exists_startsLiteral
  obtain ⟨tree, htree, hstring⟩ := exists_strings (readersTo depth) [] hbrackets htext hparts hback ('(' :: front)
  have hsource : inParentheses front (text ++ textOf parts) back =
      '(' :: front ++ (text ++ (textOf parts ++ (back ++ [')']))) := by
    rw [inParentheses, List.append_assoc, List.cons_append]
  have hstart : operandAt? p true (Cursor.drop 1 ⟨0, inParentheses front (text ++ textOf parts) back⟩) =
      some ⟨('(' :: front).length, text ++ (textOf parts ++ (back ++ [')']))⟩ := by
    have hdrop : Cursor.drop 1 ⟨0, '(' :: front ++ (text ++ (textOf parts ++ (back ++ [')'])))⟩ =
        ⟨1, front ++ (text ++ (textOf parts ++ (back ++ [')'])))⟩ :=
      drop_cursor (s := ['(']) (Nat.le_refl 1)
    rw [hsource, hdrop, operandAt?_of_isGap hfront, Nat.add_comm]
    · rfl
    · rw [hfirst]
      exact startsToken_of_startsLiteral hc
  have hbare : Bare p.bracketed ⟨('(' :: front).length, text ++ (textOf parts ++ (back ++ [')']))⟩ :=
    bare_literal htext hbrackets
  have helement : element (readersTo (depth + 1)) p.bracketed
      ⟨('(' :: front).length, text ++ (textOf parts ++ (back ++ [')']))⟩ =
      some (tree, ⟨('(' :: front).length + (text ++ textOf parts).length, back ++ [')']⟩) := by
    rw [element, keyword?_eq_none hbare.word (by simp [expressionWords]), hbare.sign "*" (by simp)]
    refine expression_of_atom hbare ?_ (ends_closing hbrackets hback)
    rw [atom_literal htext (isQuote_eq_false_of_tail hparts hback), htree]
  have hopen : mark? ")" ⟨('(' :: front).length, text ++ (textOf parts ++ (back ++ [')']))⟩ = none := by
    have hround : ')' ≠ c := fun heq => not_mark_of_startsLiteral hc (heq ▸ by simp)
    rw [hfirst, List.cons_append, mark?, Cursor.accept?, startsWith_eq_false (by simp) hround,
      if_neg Bool.false_ne_true]
  refine ⟨tree, ?_, hsource ▸ hstring⟩
  rw [parenthesis, hstart]
  dsimp only [Option.bind_eq_bind, Option.bind_some]
  rw [hopen]
  dsimp only
  rw [helement]
  dsimp only [Option.bind_some]
  obtain ⟨construct, children, rfl, hconstruct⟩ := hstring.isNode
  have hne : construct ≠ "list_splat" := by
    rintro rfl
    exact absurd hconstruct (by simp)
  have hlength : ('(' :: front).length + (text ++ textOf parts).length + back.length + 1 =
      (inParentheses front (text ++ textOf parts) back).length := by
    simp only [inParentheses, List.length_cons, List.length_append, List.length_nil]
    omega
  rw [bracketed_of_closing hne (onward?_of_isGap hbrackets hback (startsToken_closing [])), hlength]

/-! ## A text that is one expression in parentheses -/

/-- The place of the statements of a text. -/
def topPlace : Place := ⟨0, false, true, false⟩

theorem onward?_atEnd : onward? topPlace ⟨o, []⟩ = none := rfl

theorem lineEnd?_atEnd : lineEnd? topPlace ⟨o, []⟩ = some ⟨o, []⟩ := rfl

theorem boundary_atEnd : boundary topPlace ⟨o, []⟩ = .token ⟨o, []⟩ := rfl

theorem boundary_opening : boundary topPlace ⟨o, '(' :: t⟩ = .token ⟨o, '(' :: t⟩ := by
  have hskip : Cursor.skipWhile isSpacing ⟨o, '(' :: t⟩ = ⟨o, '(' :: t⟩ :=
    skipWhile_of_head fun c hc => Option.some.inj hc ▸ by decide
  have hmeasure : measure? true ('(' :: t) = some ⟨false, 0, none, some '('⟩ := by
    rw [measure?, measureFrom.eq_def]
    rfl
  rw [boundary, gap, List.length_cons, gapFrom, hskip, show (_ || _ || _) = true from rfl, hmeasure]
  rfl

theorem word_opening : word ⟨o, '(' :: t⟩ = [] := word_eq_nil (by decide)

theorem bare_opening : Bare p ⟨o, '(' :: t⟩ := by
  refine ⟨startsWith_sign_eq_false (by decide), by rw [word_opening]; exact nofun, fun name after hname => ?_⟩
  rw [identifier?, name?, word_opening] at hname
  cases hname

theorem atom_opening : atom r p ⟨o, '(' :: t⟩ = parenthesis r p ⟨o, '(' :: t⟩ := rfl

section

variable {tree : GrammarTree} {n depth : Nat}

theorem expressionStatement_of_parenthesis
    (h : parenthesis (readersTo (depth + 1)) topPlace ⟨o, '(' :: t⟩ = some (tree, ⟨n, []⟩)) :
    expressionStatement (readersTo (depth + 2)) topPlace ⟨o, '(' :: t⟩ =
      some (.named "expression_statement" ⟨o, n⟩ [tree], ⟨n, []⟩) := by
  have hyield : yieldExpression (readersTo (depth + 2)) topPlace ⟨o, '(' :: t⟩ = none := by
    rw [yieldExpression, keyword?_eq_none (bare_opening (p := topPlace)).word (by simp [expressionWords])]
    rfl
  have hwhole : (readersTo (depth + 2)).whole topPlace ⟨o, '(' :: t⟩ = some (tree, ⟨n, []⟩) :=
    expression_of_atom bare_opening (atom_opening.trans h) fun next hnext => by cases hnext
  have hlist : (readersTo (depth + 2)).list topPlace ⟨o, '(' :: t⟩ = some ⟨[tree], false, false, ⟨n, []⟩⟩ := by
    rw [Readers.list, several_eq, hwhole, Option.bind_some]
    dsimp only
    rw [onward?_atEnd]
    rfl
  rw [expressionStatement, hyield]
  dsimp only
  rw [hlist]
  rfl

theorem simpleStatements_opening :
    simpleStatements r p ⟨o, '(' :: t⟩ = (expressionStatement r p ⟨o, '(' :: t⟩).toList := by
  rw [simpleStatements]
  dsimp only
  rw [word_opening, String.ofList_nil]
  rfl

theorem compound?_opening (block : BlockReader) : compound? r block p ⟨o, '(' :: t⟩ = none := by
  rw [compound?]
  dsimp only
  rw [word_opening, String.ofList_nil]
  rfl

theorem statement_of_parenthesis (block : BlockReader)
    (h : parenthesis (readersTo (depth + 1)) topPlace ⟨o, '(' :: t⟩ = some (tree, ⟨n, []⟩)) :
    statement (readersTo (depth + 2)) block topPlace ⟨o, '(' :: t⟩ =
      some ([.named "expression_statement" ⟨o, n⟩ [tree]], ⟨n, []⟩) := by
  have hends : endsStatement topPlace ⟨n, []⟩ = true := by rw [endsStatement, lineEnd?_atEnd]; rfl
  rw [statement, compound?_opening]
  dsimp only
  rw [statementLine_eq, simpleStatements_opening, expressionStatement_of_parenthesis h, Option.toList_some]
  simp only [List.find?_cons, hends, Option.bind_some, lineEnd?_atEnd]

/-- **A text that is one expression in parentheses.** -/
theorem grammarTree?_of_parenthesis
    (h : parenthesis (readersTo (t.length + 2)) topPlace ⟨0, '(' :: t⟩ = some (tree, ⟨n, []⟩)) :
    grammarTree? (String.ofList ('(' :: t)) =
      some (.named "module" ⟨0, n⟩ [.named "expression_statement" ⟨0, n⟩ [tree]]) := by
  have hstatement (block : BlockReader) := statement_of_parenthesis block h
  rw [grammarTree?, Cursor.ofText, String.toList_ofList]
  dsimp only [List.length_cons]
  rw [show (⟨0, false, true, false⟩ : Place) = topPlace from rfl, statements.eq_def, boundary_opening]
  have hgoes : ¬ (⟨0, '(' :: t⟩ : Cursor).atEnd = true := Bool.false_ne_true
  dsimp only
  rw [if_neg hgoes, hstatement]
  dsimp only [Option.bind_eq_bind, Option.bind_some]
  rw [statements.eq_def, boundary_atEnd]
  rfl

end

/-! ## The tree of literals in parentheses -/

theorem nodesOf_singleton [Interpreter] {source : String} {levels : Nat} {tree : GrammarTree}
    (h : Kept.all.keeps tree = true) :
    nodesOf source levels .all [tree] = groupOf source levels tree := by
  rw [nodesOf_cons, if_pos h, nodesOf]
  cases groupOf source levels tree with
  | error fault => rfl
  | ok ns => exact congrArg Except.ok (List.append_nil ns)

theorem groupOf_of_givesWay [Interpreter] {source construct : String} {levels : Nat} {span : Span}
    {ts : List GrammarTree}
    (h : givesWay construct = true) :
    groupOf source (levels + 1) (.named construct span ts) = nodesOf source levels .all ts := by
  rw [groupOf, if_neg, if_neg (Nat.succ_ne_zero _), Nat.add_sub_cancel]
  · rfl
  · rw [GrammarTree.named, GrammarTree.construct, h]
    exact Bool.false_ne_true

theorem IsString.groupOf [Interpreter] {source : String} {span : Span} {tree : GrammarTree}
    (h : IsString source span tree)
    (levels : Nat) : groupOf source (levels + 2) tree =
      (valueOf source tree).bind fun value => .ok [.mk (.python (.string value)) span []] := by
  obtain ⟨⟨construct, children, rfl, hconstruct⟩, hunformatted⟩ := h
  have hplain := isFormatted_eq_false hunformatted
  have hlevels : ¬ levels + 2 < 2 := Nat.not_lt.mpr (Nat.le_add_left _ _)
  simp only [List.mem_cons, List.not_mem_nil, or_false] at hconstruct
  rcases hconstruct with rfl | rfl
  all_goals
    rw [GrammarTree.named] at hplain ⊢
    rw [Script.groupOf, if_pos (by rw [GrammarTree.construct]; decide), nodeOf.eq_def]
    dsimp only
    rw [if_neg hlevels, hplain, if_neg Bool.false_ne_true]
    cases valueOf source _ <;> rfl

theorem IsString.keeps {source : String} {span : Span} {tree : GrammarTree} (h : IsString source span tree) :
    Kept.all.keeps tree = true ∧ tree.span = span := by
  obtain ⟨⟨construct, children, rfl, hconstruct⟩, -⟩ := h
  refine ⟨?_, rfl⟩
  simp only [List.mem_cons, List.not_mem_nil, or_false] at hconstruct
  rcases hconstruct with rfl | rfl
  all_goals
    rw [Kept.keeps, GrammarTree.named, GrammarTree.isNamed, GrammarTree.construct]
    decide

/-- Parentheses and statements give way to the string in them. -/
theorem nodesOf_parenthesized [Interpreter] {source : String} {span whole : Span} {tree : GrammarTree}
    (h : IsString source span tree) :
    nodesOf source levelLimit .all
        [.named "expression_statement" whole [.named "parenthesized_expression" whole [tree]]] =
      (valueOf source tree).bind fun value => .ok [.mk (.python (.string value)) span []] := by
  obtain ⟨levels, hlevels⟩ := Nat.exists_eq_add_of_le' Interpreter.four_le_scriptFrames
  have hkeeps {construct : String} {ts : List GrammarTree} (hc : isSkipped construct = false) :
      Kept.all.keeps (.named construct whole ts) = true := by
    rw [Kept.keeps, GrammarTree.named, GrammarTree.construct, hc]
    rfl
  rw [nodesOf_singleton (hkeeps rfl), show levelLimit = levels + 2 + 1 + 1 from hlevels,
    groupOf_of_givesWay (by decide), nodesOf_singleton (hkeeps rfl), groupOf_of_givesWay (by decide),
    nodesOf_singleton h.keeps.1, h.groupOf]

theorem slice_inParentheses (front inner back : List Char) :
    slice (String.ofList (inParentheses front inner back)) (front.length + 1) (front.length + 1 + inner.length) =
      String.ofList inner := by
  have htext : inParentheses front inner back = '(' :: front ++ inner ++ (back ++ [')']) := by
    rw [inParentheses, List.append_assoc, List.cons_append]
  rw [slice, String.toList_ofList, htext]
  exact congrArg String.ofList (sliceList_append_append ('(' :: front) inner _)

/-- **The tree of a text that is a string in parentheses** is that of the string's value, if it has one. -/
theorem ofText_inParentheses [Interpreter] {front inner back : List Char} {tree : GrammarTree}
    (hparenthesis : parenthesis (readersTo ((front ++ (inner ++ (back ++ [')']))).length + 2)) topPlace
      ⟨0, inParentheses front inner back⟩ =
        some (.named "parenthesized_expression" ⟨0, (inParentheses front inner back).length⟩ [tree],
          ⟨(inParentheses front inner back).length, []⟩))
    (hstring : IsString (String.ofList (inParentheses front inner back))
      ⟨front.length + 1, front.length + 1 + inner.length⟩ tree) :
    ofText (String.ofList (inParentheses front inner back)) =
      ((literalValue (String.ofList inner)).mapError fun fault =>
        .literal (String.ofList inner) fault (front.length + 1)).bind fun value =>
          .ok (.mk (.python .module) ⟨0, (inParentheses front inner back).length⟩
            [.mk (.python (.string value)) ⟨front.length + 1, front.length + 1 + inner.length⟩ []]) := by
  have htree : grammarTree? (String.ofList (inParentheses front inner back)) = _ :=
    grammarTree?_of_parenthesis hparenthesis
  have hvalue : valueOf (String.ofList (inParentheses front inner back)) tree =
      (literalValue (String.ofList inner)).mapError fun fault =>
        .literal (String.ofList inner) fault (front.length + 1) := by
    rw [valueOf, hstring.keeps.2, slice_inParentheses]
  have hlast : front.length + 1 + inner.length ≤ (inParentheses front inner back).length := by
    simp only [inParentheses, List.length_cons, List.length_append]
    omega
  have hspan (value : Value) : covering ⟨0, (inParentheses front inner back).length⟩
      [.mk (.python (.string value)) ⟨front.length + 1, front.length + 1 + inner.length⟩ []] =
        ⟨0, (inParentheses front inner back).length⟩ :=
    congrArg (Span.mk 0) (Nat.max_eq_left hlast)
  rw [ofText, ofTextBy, htree]
  dsimp only [ofGrammar, GrammarTree.named, GrammarTree.children]
  rw [← GrammarTree.named, ← GrammarTree.named, nodesOf_parenthesized hstring, hvalue, String.length_ofList]
  cases (literalValue (String.ofList inner)).mapError fun fault =>
    TreeFault.literal (String.ofList inner) fault (front.length + 1) with
  | error fault => rfl
  | ok value => exact congrArg (fun span => Except.ok (Node.mk _ span _)) (hspan value)

/-- **Literals side by side in parentheses** are a string with the value that theirs have side by side, unless a line
ends between two of them; then the text has no tree. -/
theorem ofText_literals [Interpreter] {front back : List Char} (htext : IsLiteral text value)
    (hparts : ∀ part ∈ parts, part.IsProper) (hfront : IsGap front) (hback : IsGap back)
    (hv : Concatenates (value :: parts.map Part.value) v) :
    ((∀ part ∈ parts, staysOnLine part.gap = true) →
      ofText (String.ofList (inParentheses front (text ++ textOf parts) back)) =
        .ok (.mk (.python .module) ⟨0, (inParentheses front (text ++ textOf parts) back).length⟩
          [.mk (.python (.string v)) ⟨front.length + 1, front.length + 1 + (text ++ textOf parts).length⟩ []])) ∧
    ((∃ part ∈ parts, staysOnLine part.gap = false) → ∃ fault,
      ofText (String.ofList (inParentheses front (text ++ textOf parts) back)) =
        .error (.literal (String.ofList (text ++ textOf parts)) fault (front.length + 1))) := by
  obtain ⟨tree, hparenthesis, hstring⟩ := exists_parenthesis (p := topPlace) htext hparts hfront hback
    ((front ++ (text ++ textOf parts ++ (back ++ [')']))).length + 1)
  have hroot := ofText_inParentheses hparenthesis hstring
  constructor
  · intro hline
    rw [hroot, literalValue_of_staysOnLine htext hparts hline hv]
    rfl
  · intro hline
    obtain ⟨fault, hfault⟩ := exists_literalValue_eq_error htext hparts hline
    refine ⟨fault, ?_⟩
    rw [hroot, hfault]
    rfl

/-- A blank joins half of a surrogate pair and a character that is called by its name, and a line break does not. -/
theorem ofText_literals_apart :
    ofText "(\"\\ud83d\" '\\N\x7bBULLET\x7d')" = .ok (.mk (.python .module) ⟨0, 23⟩
      [.mk (.python (.string (.loose ⟨[.half 0xd83d, .char '•']⟩))) ⟨1, 22⟩ []]) ∧
    ∃ fault, ofText "(\"\\ud83d\"\n'\\N\x7bBULLET\x7d')" =
      .error (.literal "\"\\ud83d\"\n'\\N\x7bBULLET\x7d'" fault 1) := by
  have hfirst : IsLiteral "\"\\ud83d\"".toList (.ofText ⟨[.half 0xd83d]⟩) :=
    ⟨⟨_, _, _, _, rfl, rfl⟩, by decide, rfl⟩
  have hsecond : IsLiteral "'\\N\x7bBULLET\x7d'".toList (.ofText "•") :=
    ⟨⟨_, _, _, _, rfl, rfl⟩, by decide, rfl⟩
  have hparts (gap : List Char) (hgap : IsGap gap) (hne : gap ≠ []) :
      ∀ part ∈ [(⟨gap, "'\\N\x7bBULLET\x7d'".toList, .ofText "•"⟩ : Part)], part.IsProper :=
    List.forall_mem_singleton.mpr ⟨hgap, hne, hsecond⟩
  have hblank := ofText_literals hfirst (hparts [' '] (.blank (by decide) .nil) (by decide)) .nil .nil
    (.str [⟨[.half 0xd83d]⟩, "•"])
  have hbreak := ofText_literals hfirst (hparts ['\n'] (.blank (by decide) .nil) (by decide)) .nil .nil
    (.str [⟨[.half 0xd83d]⟩, "•"])
  exact ⟨hblank.1 (by decide), hbreak.2 (by decide)⟩

end SlotEdit.Script
