import SlotEdit.Proofs.Json.Objects
import SlotEdit.Proofs.Edit.Splicing

/-!
# Proofs/Json/Editing — what adding and deleting properties makes of an object

A property is added as one more item behind the last one, with blanks in front of it and a comma
when there is an item before it (`exists_layout`).
-/

namespace SlotEdit.Json

open Phrase

theorem spaces_append {s t : List Char} (hs : Spaces s) (ht : Spaces t) : Spaces (s ++ t) :=
  List.forall_mem_append.mpr ⟨hs, ht⟩

theorem spaces_lineIndentation (text : List Char) (o : Nat) : Spaces (lineIndentation text o).toList := by
  intro c hc
  rw [lineIndentation, String.toList_ofList] at hc
  have hindent := List.mem_takeWhile_imp hc
  rw [isIndent] at hindent
  rw [isSpace, hindent]
  rfl

/-- A text of blanks. -/
def BlankText (t : LooseText) : Prop := ∃ s : String, t = s ∧ Spaces s.toList

theorem exists_strings_blank {indentation : Option LooseText} (h : ∀ t ∈ indentation, BlankText t) :
    ∃ blank : Option String, indentation = blank.map LooseText.ofString ∧ ∀ s ∈ blank, Spaces s.toList := by
  cases indentation with
  | none => exact ⟨none, rfl, nofun⟩
  | some t =>
    obtain ⟨s, rfl, hs⟩ := h t rfl
    refine ⟨some s, rfl, fun s' hs' => ?_⟩
    obtain rfl := Option.some.inj hs'
    exact hs

/-- A property is written as a member. -/
theorem member_render (k : String) (p : Phrase) : Json.member k (String.ofList p.render)
    = String.ofList (Phrase.member (escaped k) [] [' '] p).render := by
  rw [Json.member, LooseText.ofString_append, LooseText.ofString_append, LooseText.ofString_inj, ← String.toList_inj]
  simp only [encodeString, escaped, String.toList_append, String.toList_ofList, render,
    List.append_assoc, List.cons_append, List.nil_append]
  rfl

variable {items : List (Item Phrase)} {trail : List Char}

/-- The last property of an object ends where its items end. -/
theorem getLast?_nodes (items : List (Item Phrase)) (o : Nat) :
    match (nodes [] (o + 1) items).getLast? with
    | none => items = []
    | some n => items ≠ [] ∧ n.span.stop = o + 1 + (renderItems [] items).length := by
  have hlast := getLast?_spots [] (o + 1) items
  rw [nodes_eq, List.getLast?_map]
  cases h : (spots [] (o + 1) items).getLast? with
  | none =>
    rw [h] at hlast
    exact hlast
  | some s =>
    rw [h] at hlast
    refine ⟨hlast.1, ?_⟩
    rw [← hlast.2, span_node]
    rfl

/-- **Where and how a property is added**: behind the items of the object, with a comma if there are
any, and blanks. -/
theorem exists_layout (d : Document) (o : Nat) (items : List (Item Phrase)) (trail : List Char) (k : String)
    (p : Phrase) {indentation : Option LooseText} {lineBreak : String} (hindentation : ∀ t ∈ indentation, BlankText t)
    (hbreak : Spaces lineBreak.toList) :
    ∃ layout text, Spaces layout ∧
      text.toList = separatorAfter [] items ++ layout ++ (Phrase.member (escaped k) [] [' '] p).render ∧
      insertionEdit d ((Phrase.group .object items trail).node o) k (String.ofList p.render)
          indentation lineBreak =
        .insert (d.lines.positionAt (o + 1 + (renderItems [] items).length : Nat)) (.str text) := by
  obtain ⟨blank, rfl, hblank⟩ := exists_strings_blank hindentation
  have hindent (fallback : String) (h : Spaces fallback.toList) :
      Spaces (lineBreak.toList ++ (blank.getD fallback).toList) := by
    cases blank with
    | none => exact spaces_append hbreak h
    | some s => exact spaces_append hbreak (hblank s rfl)
  have hdeeper (text : List Char) (at' : Nat) : Spaces (lineIndentation text at' ++ deeper).toList := by
    rw [String.toList_append]
    exact spaces_append (spaces_lineIndentation text at')
      (List.all_eq_true.mp (show deeper.toList.all isSpace = true from rfl))
  have hlast := getLast?_nodes items o
  rw [insertionEdit, Phrase.node, Node.children]
  simp only [member_render, LooseText.ofString_append, Option.getD_map]
  generalize (Phrase.member (escaped k) [] [' '] p).render = written
  cases hcase : (nodes [] (o + 1) items).getLast? with
  | none =>
    rw [hcase] at hlast
    simp only at hlast
    subst hlast
    cases isMultiline d.content.toList
        (.mk (.json Bracket.object.form) ((Phrase.group .object [] trail).span o) (nodes [] (o + 1) [])) with
    | false => exact ⟨[], _, spaces_nil, String.toList_ofList, congrArg (TextEdit.insert _) (Value.ofText_ofString _)⟩
    | true =>
      refine ⟨_, lineBreak ++ blank.getD
          (lineIndentation d.content.toList (((Phrase.group .object [] trail).span o).stop - 1) ++ deeper)
            ++ String.ofList written,
        hindent _ (hdeeper d.content.toList (((Phrase.group .object [] trail).span o).stop - 1)), ?_,
        congrArg (TextEdit.insert _) (Value.ofText_ofString _)⟩
      rw [String.toList_append, String.toList_append, String.toList_ofList]
      rfl
  | some n =>
    rw [hcase] at hlast
    have hcomma : separatorAfter [] items = [','] := by
      rw [separatorAfter, List.isEmpty_eq_false_iff.mpr hlast.1]
      rfl
    rw [hcomma, ← hlast.2]
    cases isMultiline d.content.toList
        (.mk (.json Bracket.object.form) ((Phrase.group .object items trail).span o) (nodes [] (o + 1) items)) with
    | false =>
      refine ⟨[' '], ", " ++ String.ofList written, List.forall_mem_singleton.mpr rfl, ?_,
        congrArg (TextEdit.insert _) (Value.ofText_ofString _)⟩
      simp only [String.toList_append, String.toList_ofList]
      rfl
    | true =>
      refine ⟨_, "," ++ lineBreak ++ blank.getD (lineIndentation d.content.toList n.span.start)
          ++ String.ofList written, hindent _ (spaces_lineIndentation d.content.toList n.span.start), ?_,
        congrArg (TextEdit.insert _) (Value.ofText_ofString _)⟩
      simp only [String.toList_append, String.toList_ofList, List.append_assoc]
      rfl

theorem append_member (layout : LooseText) (k : String) (t : LooseText) :
    layout ++ member k t = layout ++ LooseText.ofString (encodeString k ++ ": ") ++ t := by
  rw [member, LooseText.ofString_append, LooseText.ext_iff]
  simp only [LooseText.letters_append, List.append_assoc]

/-- A property is added as a text in front of its value, and the value; a half stands in front of the value only
if the indentation that is given has one. -/
theorem exists_text_insertionEdit (d : Document) (object : Node) (k : String) (t : LooseText)
    (indentation : Option LooseText) (lineBreak : String) :
    ∃ front : LooseText, (insertionEdit d object k t indentation lineBreak).text = .ofText (front ++ t) ∧
      (front.toString? = none → ∃ i ∈ indentation, i.toString? = none) := by
  have hplain (layout : String) : (LooseText.ofString layout ++ LooseText.ofString (encodeString k ++ ": ")).toString? =
      none → ∃ i ∈ indentation, i.toString? = none := by
    rw [LooseText.ofString_append, LooseText.toString?_ofString]
    exact nofun
  have hindented (layout fallback : String) : (LooseText.ofString layout ++ indentation.getD fallback ++
      LooseText.ofString (encodeString k ++ ": ")).toString? = none → ∃ i ∈ indentation, i.toString? = none := by
    simp only [LooseText.toString?_append_eq_none, LooseText.toString?_ofString, reduceCtorEq, false_or, or_false]
    cases indentation with
    | none => simp
    | some i => exact fun h => ⟨i, rfl, h⟩
  rw [insertionEdit]
  cases object.children.getLast? <;> cases isMultiline d.content.toList object <;>
    simp only [Bool.false_eq_true, if_false, if_true, LooseText.ofString_append, TextEdit.insert]
  · exact ⟨_, congrArg Value.ofText ((LooseText.empty_append _).symm.trans (append_member "" k t)), hplain ""⟩
  · exact ⟨_, congrArg Value.ofText (append_member _ k t), hindented lineBreak _⟩
  · exact ⟨_, congrArg Value.ofText (append_member _ k t), hplain ", "⟩
  · exact ⟨_, congrArg Value.ofText (append_member _ k t), hindented ("," ++ lineBreak) _⟩

/-! ## Setting a key -/

/-- **A key set to a value** in a list of keys and values: the value of the last entry with the key
is replaced, or an entry is added behind the others. -/
inductive Put {α β : Type} (k : α) (v : β) : List (α × β) → List (α × β) → Prop
  | replaced (front back : List (α × β)) (old : β) (hback : ∀ e ∈ back, e.1 ≠ k) :
      Put k v (front ++ (k, old) :: back) (front ++ (k, v) :: back)
  | appended (entries : List (α × β)) (h : ∀ e ∈ entries, e.1 ≠ k) :
      Put k v entries (entries ++ [(k, v)])

/-- A member as it is added, behind some blanks. -/
def added (layout : List Char) (k : String) (p : Phrase) : Item Phrase :=
  ⟨[], layout, .member (escaped k) [] [' '] p⟩

/-- **A key set to a value** among the members of an object, with all other text kept. -/
inductive Sets (k : String) (p : Phrase) : List (Item Phrase) → List (Item Phrase) → Prop
  | replaced (front back : List (Item Phrase)) (gap lead key before after : List Char) (old : Phrase)
      (hkey : textOf key = k) (hback : ∀ i ∈ back, i.content.key ≠ k) :
      Sets k p (front ++ ⟨gap, lead, .member key before after old⟩ :: back)
        (front ++ ⟨gap, lead, .member key before after p⟩ :: back)
  | appended (items : List (Item Phrase)) (layout : List Char) (hlayout : Spaces layout)
      (h : ∀ i ∈ items, i.content.key ≠ k) : Sets k p items (items ++ [added layout k p])

/-- The text of an added member. -/
theorem renderItems_added (separator layout : List Char) (k : String) (p : Phrase) :
    renderItems separator [added layout k p] =
      separator ++ layout ++ (Phrase.member (escaped k) [] [' '] p).render := by
  rw [added, renderItems_singleton, List.nil_append]

theorem key_added (layout : List Char) (k : String) (p : Phrase) : (added layout k p).content.key = k :=
  textOf_escaped k

theorem shaped_append_added {layout : List Char} {p : Phrase} (h : (Phrase.group .object items trail).Shaped)
    (hlayout : Spaces layout) (k : String) (hp : p.Shaped) (hvalue : p.isMember = false) :
    (Phrase.group .object (items ++ [added layout k p]) trail).Shaped := by
  cases h with
  | group htrail hfirst hblank hkind h =>
    have hnew : (added layout k p).content.Shaped :=
      .member (stringEnd?_escaped k) (fun c hc => nomatch hc) (List.forall_mem_singleton.mpr rfl) hvalue hp
    refine .group htrail ?_ ?_ ?_ ?_
    · intro i hi
      cases items with
      | nil =>
        obtain rfl := Option.some.inj hi
        rfl
      | cons j items => exact hfirst i hi
    · exact List.forall_mem_append.mpr ⟨hblank, List.forall_mem_singleton.mpr ⟨fun c hc => (nomatch hc), hlayout.blank⟩⟩
    · exact List.forall_mem_append.mpr ⟨hkind, List.forall_mem_singleton.mpr rfl⟩
    · exact List.forall_mem_append.mpr ⟨h, List.forall_mem_singleton.mpr hnew⟩

theorem readable_added [Interpreter] {layout : List Char} {p : Phrase} (k : String) (hp : p.Readable) :
    (added layout k p).content.Readable := by
  have hread := readValue_quote nestingLimit 0 k []
  rw [List.append_nil] at hread
  exact readable_member.mpr ⟨⟨_, decode_of_readValue (p := .string (escaped k)) (.string (stringEnd?_escaped k)) hread⟩, hp⟩

namespace Sets

variable {k : String} {p : Phrase} {items' : List (Item Phrase)}

/-- The object stays well-formed. -/
theorem shaped (hs : Sets k p items items') (h : (Phrase.group .object items trail).Shaped) (hp : p.Shaped)
    (hvalue : p.isMember = false) : (Phrase.group .object items' trail).Shaped := by
  cases hs with
  | appended _ layout hlayout _ => exact shaped_append_added h hlayout k hp hvalue
  | replaced front back gap lead key before after old hkey hback =>
    have hplace : (valuePlace front gap lead key before after back trail).fill old =
        .group .object (front ++ ⟨gap, lead, .member key before after old⟩ :: back) trail := rfl
    rw [← hplace] at h
    have hold : old.isMember = false := by
      cases h with
      | group _ _ _ _ h =>
        cases h _ (List.mem_append_right front List.mem_cons_self) with
        | member _ _ _ hvalue _ => exact hvalue
    exact Place.shaped_fill h hp (hvalue.trans hold.symm)

/-- Its literals still decode. -/
theorem readable [Interpreter] (hs : Sets k p items items') (h : (Phrase.group .object items trail).Readable)
    (hp : p.Readable) :
    (Phrase.group .object items' trail).Readable := by
  cases hs with
  | appended _ layout hlayout _ =>
    exact readable_group.mpr (List.forall_mem_append.mpr
      ⟨readable_group.mp h, List.forall_mem_singleton.mpr (readable_added k hp)⟩)
  | replaced front back gap lead key before after old hkey hback =>
    exact Place.readable_fill (valuePlace front gap lead key before after back trail) h hp

/-- The key finds the new value. -/
theorem lastMember?_self (hs : Sets k p items items') : (lastMember? k items').map inner = some p := by
  cases hs with
  | appended _ layout hlayout _ =>
    rw [lastMember?_append, lastMember?_singleton, key_added, if_pos (beq_self_eq_true (k : LooseText))]
    rfl
  | replaced front back gap lead key before after old hkey hback =>
    rw [lastMember?_append, ← List.singleton_append, lastMember?_append, lastMember?_singleton,
      lastMember?_eq_none.mpr hback, Phrase.key, if_pos (beq_iff_eq.mpr hkey)]
    rfl

/-- Every other key finds what it found. -/
theorem lastMember?_of_ne (hs : Sets k p items items') {k' : String} (hne : k' ≠ k) :
    lastMember? k' items' = lastMember? k' items := by
  cases hs with
  | appended _ layout hlayout _ =>
    rw [lastMember?_append, lastMember?_singleton, key_added, if_neg (by simpa [LooseText.ofString_inj] using hne.symm), Option.none_or]
  | replaced front back gap lead key before after old hkey hback =>
    have hkey' (q : Phrase) : lastMember? k' [⟨gap, lead, .member key before after q⟩] = none := by
      rw [lastMember?_singleton, Phrase.key, hkey, if_neg (by simpa [LooseText.ofString_inj] using hne.symm)]
    rw [lastMember?_append, ← List.singleton_append, lastMember?_append, hkey', lastMember?_append,
      ← List.singleton_append (l := back), lastMember?_append, hkey']

/-- **The property list** is the old one with the key set. -/
theorem put (hs : Sets k p items items') : Put (Value.str k) p.value (items.map fun i => entry i.content)
    (items'.map fun i => entry i.content) := by
  have hother {items : List (Item Phrase)} (h : ∀ i ∈ items, i.content.key ≠ k) :
      ∀ e ∈ items.map fun i => entry i.content, e.1 ≠ Value.str k :=
    List.forall_mem_map.mpr fun i hi heq => h i hi (Value.ofText_eq_str.mp heq)
  cases hs with
  | appended _ layout hlayout h =>
    rw [List.map_append, List.map_singleton, entry, key_added, Value.ofText_ofString]
    exact .appended _ (hother h)
  | replaced front back gap lead key before after old hkey hback =>
    rw [List.map_append, List.map_append, List.map_cons, List.map_cons, entry, entry, Phrase.key, Phrase.key, hkey,
      Value.ofText_ofString]
    exact .replaced _ _ _ (hother hback)

end Sets

/-! ## One edit of an object -/

section Edits

variable {d : Document} {front back : List Char}

/-- The range of a node stands on the text of its phrase. -/
theorem spanOf_range_node {p : Phrase} (htext : d.content.toList = front ++ p.render ++ back) :
    d.spanOf ((p.node front.length).range d.lines) = ⟨front.length, front.length + p.render.length⟩ := by
  rw [Node.range, span_node, Phrase.span]
  refine d.spanOf_rangeOf (Nat.le_add_right _ _) ?_
  rw [htext]
  simp only [List.length_append]
  omega

/-- **Replacing the value of a member** puts the new value in its place. -/
theorem edited_replacement {xs ys : List (Item Phrase)} {gap lead key before after : List Char}
    {old p : Phrase} (htext : d.content.toList = front ++
      (Phrase.group .object (xs ++ ⟨gap, lead, .member key before after old⟩ :: ys) trail).render ++ back) :
    edited d [.replace ((old.node (front.length +
        (valuePlace xs gap lead key before after ys trail).before.length)).range d.lines)
          (.str (String.ofList p.render))] =
      .ok (String.ofList (front ++ (Phrase.group .object
        (xs ++ ⟨gap, lead, .member key before after p⟩ :: ys) trail).render ++ back)) := by
  have hfill (q : Phrase) :
      front ++ (Phrase.group .object (xs ++ ⟨gap, lead, .member key before after q⟩ :: ys) trail).render
          ++ back =
        front ++ (valuePlace xs gap lead key before after ys trail).before ++ q.render
          ++ ((valuePlace xs gap lead key before after ys trail).behind ++ back) := by
    have h := Place.render_fill (valuePlace xs gap lead key before after ys trail) q
    rw [valuePlace, Place.fill, Place.fill, Place.fill] at h
    rw [h, valuePlace]
    simp only [List.append_assoc]
  rw [hfill] at htext ⊢
  rw [← List.length_append]
  exact (edited_singleton (e := .replace _ _) rfl (spanOf_range_node htext) htext).trans
    (by rw [String.toList_ofList])

/-- **Adding a member** puts it behind the others. -/
theorem exists_edited_insertion
    (htext : d.content.toList = front ++ (Phrase.group .object items trail).render ++ back) (k : String)
    (p : Phrase) {indentation : Option LooseText} {lineBreak : String}
    (hindentation : ∀ t ∈ indentation, BlankText t) (hbreak : Spaces lineBreak.toList) :
    ∃ layout, Spaces layout ∧
      edited d [insertionEdit d ((Phrase.group .object items trail).node front.length) k
          (String.ofList p.render) indentation lineBreak] =
        .ok (String.ofList (front ++ (Phrase.group .object (items ++ [added layout k p]) trail).render
          ++ back)) := by
  obtain ⟨layout, text, hlayout, hrender, hedit⟩ :=
    exists_layout d front.length items trail k p hindentation hbreak
  refine ⟨layout, hlayout, ?_⟩
  have hsplit : d.content.toList = front ++ ['\x7b'] ++ renderItems [] items ++ []
      ++ (trail ++ ['\x7d'] ++ back) := by
    rw [htext, render, Bracket.opening, Bracket.closing]
    simp only [List.append_assoc, List.cons_append, List.nil_append]
  have hstart : front.length + 1 + (renderItems [] items).length
      = (front ++ ['\x7b'] ++ renderItems [] items).length := by
    simp only [List.length_append, List.length_singleton]
  rw [hedit, hstart]
  refine (edited_singleton (e := .insert _ _) rfl ?_ hsplit).trans ?_
  · refine d.spanOf_single ?_
    rw [hsplit]
    simp only [List.length_append]
    omega
  · rw [hrender, render_group, renderItems_append, renderItems_added, Bracket.opening, Bracket.closing]
    simp only [List.append_assoc, List.cons_append, List.nil_append]

end Edits

end SlotEdit.Json
