import SlotEdit.Syntax.PlainText
import SlotEdit.Proofs.Syntax.WellNested
import SlotEdit.Language
import SlotEdit.Proofs.Text.ByteOffsets
import SlotEdit.Proofs.Json.WellNested
import SlotEdit.Proofs.Css.WellNested
import SlotEdit.Proofs.Math.WellNested
import SlotEdit.Proofs.Script.Statements

/-!
# Proofs/Language — what holds of the trees of all languages

Every node of every tree is in its place in the text, whichever grammar has read it, and also where
none could (`SyntaxTree.inPlace_of_mem_walk`).  Where concrete trees come from a reader that counts bytes,
each grammar assumes of them that they are well nested, and one thing more (`Grammar.Expects`): that what
belongs in front stands in front, or that what is never empty is not.  Of a plain text, the lines stand
in order.
-/

namespace SlotEdit.PlainText

/-- **The lines of a text stand in order**, from where the first starts to the end of the text. -/
theorem inOrder_lineNodes (cs : List Char) (index offset : Nat) :
    Span.InOrder offset (offset + cs.length) ((lineNodes index offset (linesOf cs)).map Node.span) := by
  induction cs generalizing index offset with
  | nil => exact Span.inOrder_singleton (Nat.le_refl _) (Nat.le_refl _) (Nat.le_refl _)
  | cons c rest ih =>
    rw [linesOf, List.length_cons]
    split
    · have hrest := ih (index + 1) (offset + 1)
      rw [Nat.add_assoc, Nat.add_comm 1] at hrest
      exact ⟨Nat.le_refl _, Nat.le_refl _, hrest.widen (Nat.le_succ _) (Nat.le_refl _)⟩
    · have hrest := ih index (offset + 1)
      cases hlines : linesOf rest with
      | nil =>
        refine Span.inOrder_singleton (Nat.le_refl _) (Nat.le_add_right _ _) ?_
        exact Nat.add_le_add_left (Nat.succ_le_succ (Nat.zero_le _)) offset
      | cons line lines =>
        -- the first line has one more character in front; all others stand where they stood
        rw [hlines, lineNodes, Nat.add_assoc, Nat.add_comm 1, Nat.add_assoc offset 1, Nat.add_comm 1] at hrest
        exact ⟨Nat.le_refl _, Nat.le_add_right _ _, hrest.2.2⟩

theorem wellNested_lineNodes {lines : List (List Char)} {index offset : Nat} :
    ∀ n ∈ lineNodes index offset lines, n.WellNested := by
  induction lines generalizing index offset with
  | nil => exact fun _ hn => nomatch hn
  | cons line lines ih =>
    exact List.forall_mem_cons.mpr ⟨Node.wellNested_leaf (Nat.le_add_right offset line.length), ih⟩

/-- **The tree of a plain text is well nested.** -/
theorem wellNested_ofText (text : String) : (ofText text).WellNested :=
  Node.wellNested_mk.mpr ⟨Nat.zero_add text.toList.length ▸ inOrder_lineNodes text.toList 0 0, wellNested_lineNodes⟩

end SlotEdit.PlainText

namespace SlotEdit

/-- **What a grammar takes for granted** of the nodes of a concrete tree, besides their order. -/
def Grammar.Expects : Grammar → GrammarTree → Prop
  | .json => Json.KeysFirst
  | .css => Css.Tangible
  | .python => Script.DecoratorsFirst
  | .math | .plainText => fun _ => True

instance : (g : Grammar) → DecidablePred g.Expects
  | .json => fun t => inferInstanceAs (Decidable (Json.KeysFirst t))
  | .css => fun t => inferInstanceAs (Decidable (Css.Tangible t))
  | .python => fun t => inferInstanceAs (Decidable (Script.DecoratorsFirst t))
  | .math | .plainText => fun _ => isTrue trivial

/-- A root that is made is well nested and inside the text, when the concrete tree is. -/
theorem Grammar.wellNested_rootNodeBy [Interpreter] {read : ConcreteReader} {g : Grammar} {text : String} {root : Node}
    (hread : ∀ raw, read g text = some raw → raw.WellNested g.Expects ∧ raw.span.stop ≤ text.length)
    (h : g.rootNodeBy read text = .ok root) : root.WellNested ∧ root.span.stop ≤ text.length := by
  cases g with
  | json =>
    have h := mapError_eq_ok.mp h
    rw [Json.ofTextBy] at h
    split at h
    · cases h
    · next raw hraw => exact Json.wellNested_ofGrammar (hread raw hraw).1 (hread raw hraw).2 h
  | css =>
    have h := mapError_eq_ok.mp h
    rw [Css.ofTextBy] at h
    split at h
    · cases h
    · next raw hraw => exact Css.wellNested_ofGrammar (hread raw hraw).1 (hread raw hraw).2 h
  | math => exact String.length_toList (s := text) ▸ Math.wellNested_ofText (mapError_eq_ok.mp h)
  | python =>
    have h := mapError_eq_ok.mp h
    rw [Script.ofTextBy] at h
    split at h
    · cases h
    · next raw hraw => exact Script.wellNested_ofGrammar (hread raw hraw).1 (hread raw hraw).2 h
  | plainText =>
    obtain rfl := Except.ok.inj h
    exact ⟨PlainText.wellNested_ofText text, (String.length_toList (s := text)).le⟩

namespace SyntaxTree

variable {read : ConcreteReader} {g : Grammar} {text : String}

/-- A root that is well nested and inside the text where one is made is so in any case. -/
theorem wellNested_ofTextBy [Interpreter] (h : ∀ root, g.rootNodeBy read text = .ok root →
    root.WellNested ∧ root.span.stop ≤ text.length) :
    (ofTextBy read g text).root.WellNested ∧ (ofTextBy read g text).root.span.stop ≤ text.length := by
  rw [ofTextBy]
  split
  · next root hroot => exact h root hroot
  · exact ⟨Node.wellNested_leaf (Nat.zero_le _), Nat.le_refl _⟩

/-- **The root of every text** is well nested and inside the text. -/
theorem wellNested_root [Interpreter] (g : Grammar) (text : String) :
    (ofText g text).root.WellNested ∧ (ofText g text).root.span.stop ≤ text.length := by
  refine wellNested_ofTextBy fun root hroot => ?_
  cases g with
  | json => exact Json.wellNested_ofText (mapError_eq_ok.mp hroot)
  | css => exact Css.wellNested_ofText (mapError_eq_ok.mp hroot)
  | python => exact Grammar.wellNested_rootNodeBy (fun _ => Script.wellNested_grammarTree?) hroot
  | math | plainText => exact Grammar.wellNested_rootNodeBy (fun _ hraw => by cases hraw) hroot

end SyntaxTree

/-- Bytes inside a text lead to characters inside it. -/
theorem ByteOffsets.charOffset_le_length {text : String} {b : Nat}
    (h : b ≤ (ByteOffsets.ofText text).encoded.length) : (ByteOffsets.ofText text).charOffset b ≤ text.length := by
  have hproper : ∀ l ∈ (LooseText.ofString text).letters, l.IsProper := by
    rw [LooseText.letters_ofString, List.forall_mem_map]
    exact fun _ _ => trivial
  have hend := (charOffset_and_textOn (LooseText.ofString text) hproper).1 _ (Nat.le_refl _)
  rw [List.take_length] at hend
  calc (ByteOffsets.ofText text).charOffset b
      ≤ (ByteOffsets.ofText text).charOffset (encodeLetters (LooseText.ofString text).letters).length := charOffset_mono h
    _ = text.length := by rw [hend, LooseText.letters_ofString, List.length_map, String.length_toList]

/-- **Every node of every tree is in its place**, and so is the one node of a text that does not fit: of the
trees made by the readers at hand, and of those made of whatever well-nested trees a reader that counts bytes
gives. -/
theorem SyntaxTree.inPlace_of_mem_walk [Interpreter] (read : ConcreteReader) (g : Grammar) (text : String)
    (hread : ∀ raw, read g text = some raw →
      raw.WellNested (fun t => g.Expects (t.mapOffsets (ByteOffsets.ofText text).charOffset)) ∧
        raw.span.stop ≤ (ByteOffsets.ofText text).encoded.length) :
    (∀ n ∈ (SyntaxTree.ofTextBy read.inCharacters g text).root.walk, n.InPlace text) ∧
      ∀ n ∈ (SyntaxTree.ofText g text).root.walk, n.InPlace text := by
  have hraw : ∀ raw, read.inCharacters g text = some raw → raw.WellNested g.Expects ∧ raw.span.stop ≤ text.length := by
    intro raw hraw
    obtain ⟨bytes, hbytes, rfl⟩ := Option.map_eq_some_iff.mp hraw
    obtain ⟨hnested, hstop⟩ := hread bytes hbytes
    refine ⟨hnested.mapOffsets fun _ _ => ByteOffsets.charOffset_mono, ?_⟩
    rw [GrammarTree.span_mapOffsets]
    exact ByteOffsets.charOffset_le_length hstop
  obtain ⟨hnested, hstop⟩ := SyntaxTree.wellNested_ofTextBy fun _ => Grammar.wellNested_rootNodeBy hraw
  obtain ⟨hnested', hstop'⟩ := SyntaxTree.wellNested_root g text
  exact ⟨hnested.inPlace hstop, hnested'.inPlace hstop'⟩

/-- A decorated function as a reader that counts bytes gives it; the comment holds two letters of two bytes. -/
def Script.commentedFunction : GrammarTree :=
  .named "module" ⟨0, 37⟩ [
    .named "decorated_definition" ⟨0, 37⟩ [
      .named "decorator" ⟨0, 5⟩ [.token "@" ⟨0, 1⟩, .named "identifier" ⟨1, 5⟩ []],
      .named "comment" ⟨6, 14⟩ [],
      .node "function_definition" true "definition" ⟨15, 37⟩ [
        .token "def" ⟨15, 18⟩,
        .node "identifier" true "name" ⟨19, 20⟩ [],
        .node "parameters" true "parameters" ⟨20, 23⟩ [
          .token "(" ⟨20, 21⟩, .named "identifier" ⟨21, 22⟩ [], .token ")" ⟨22, 23⟩],
        .token ":" ⟨23, 24⟩,
        .node "block" true "body" ⟨29, 37⟩ [
          .named "return_statement" ⟨29, 37⟩ [.token "return" ⟨29, 35⟩, .named "identifier" ⟨36, 37⟩ []]]]]]

theorem SyntaxTree.inPlace_of_mem_walk_commentedFunction :
    let text := "@wrap\n# déjà\ndef f(a):\n    return a"
    let read : ConcreteReader := fun _ _ => some Script.commentedFunction
    (SyntaxTree.ofTextBy read.inCharacters .python text).root.walk.map Node.span =
        [⟨0, 35⟩, ⟨0, 35⟩, ⟨1, 5⟩, ⟨19, 20⟩, ⟨27, 35⟩, ⟨34, 35⟩] ∧
      ∀ n ∈ (SyntaxTree.ofTextBy read.inCharacters .python text).root.walk, n.InPlace text := by
  intro text read
  have hread : ∀ raw, read .python text = some raw →
      raw.WellNested (fun t => Grammar.python.Expects (t.mapOffsets (ByteOffsets.ofText text).charOffset)) ∧
        raw.span.stop ≤ (ByteOffsets.ofText text).encoded.length := by
    rintro raw ⟨⟩
    decide +kernel
  exact ⟨by decide +kernel, (SyntaxTree.inPlace_of_mem_walk read .python text hread).1⟩

end SlotEdit
