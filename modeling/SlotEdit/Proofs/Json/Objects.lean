import Mathlib.Data.List.Basic
import SlotEdit.Json.Properties
import SlotEdit.Proofs.Json.Encoding
import SlotEdit.Proofs.Json.Assignments
import SlotEdit.Proofs.Text.Offsets

/-!
# Proofs/Json/Objects — the properties of an object, read off its text

The node of an object is read like the items of its phrase: what a key finds (`property?_node`), the
text of a property's value (`text_propertyValue?`), the list of keys and values (`entries?_nodes`).
-/

namespace SlotEdit.Json

namespace Phrase

/-- The value of a member. -/
def inner : Phrase → Phrase
  | .member _ _ _ content => content
  | p => p

theorem inner_of_isMember {p : Phrase} (h : p.isMember = false) : p.inner = p := by
  cases p with
  | member => cases h
  | _ => rfl

/-- **The last member with a key** among some items. -/
def lastMember? (key : String) (items : List (Item Phrase)) : Option Phrase :=
  (items.reverse.find? fun i => i.content.key == (key : LooseText)).map Item.content

theorem lastMember?_append (key : String) (xs ys : List (Item Phrase)) :
    lastMember? key (xs ++ ys) = (lastMember? key ys).or (lastMember? key xs) := by
  rw [lastMember?, List.reverse_append, List.find?_append, lastMember?, lastMember?]
  cases ys.reverse.find? fun i => i.content.key == (key : LooseText) <;> rfl

theorem lastMember?_singleton (key : String) (i : Item Phrase) :
    lastMember? key [i] = if i.content.key == key then some i.content else none := by
  rw [lastMember?, List.reverse_singleton, List.find?_singleton]
  split <;> rfl

theorem lastMember?_eq_none {key : String} {items : List (Item Phrase)} :
    lastMember? key items = none ↔ ∀ i ∈ items, i.content.key ≠ key := by
  simp [lastMember?, List.find?_eq_none]

/-- The last member with a key, with what stands before and behind it. -/
theorem exists_of_lastMember? {key : String} {items : List (Item Phrase)} {m : Phrase}
    (h : lastMember? key items = some m) :
    ∃ front gap lead, ∃ back : List (Item Phrase), items = front ++ ⟨gap, lead, m⟩ :: back ∧ m.key = key ∧
      ∀ i ∈ back, i.content.key ≠ key := by
  induction items with
  | nil => cases h
  | cons i rest ih =>
    rw [← List.singleton_append, lastMember?_append] at h
    cases hrest : lastMember? key rest with
    | some m' =>
      rw [hrest] at h
      obtain ⟨front, gap, lead, back, rfl, hm, hback⟩ := ih (hrest.trans h)
      exact ⟨i :: front, gap, lead, back, rfl, hm, hback⟩
    | none =>
      rw [hrest, Option.none_or, lastMember?_singleton] at h
      split at h
      · next hkey =>
        obtain rfl := Option.some.inj h
        exact ⟨[], i.gap, i.lead, rest, rfl, beq_iff_eq.mp hkey, lastMember?_eq_none.mp hrest⟩
      · cases h

/-- An object holds members. -/
theorem isMember_of_shaped {items : List (Item Phrase)} {trail : List Char}
    (h : (Phrase.group .object items trail).Shaped) : ∀ i ∈ items, i.content.isMember = true := by
  cases h with
  | group _ _ _ hkind _ => exact hkind

/-! ## Where items stand -/

/-- The last item of a list ends where the list ends. -/
theorem getLast?_spots (separator : List Char) (o : Nat) (items : List (Item Phrase)) :
    match (spots separator o items).getLast? with
    | none => items = []
    | some s => items ≠ [] ∧ s.1 + s.2.render.length = o + (renderItems separator items).length := by
  rcases List.eq_nil_or_concat' items with rfl | ⟨front, ⟨gap, lead, p⟩, rfl⟩
  · rfl
  · rw [spots_append, spots, spots, List.getLast?_append, List.getLast?_singleton, renderItems_append,
      renderItems, renderItems]
    refine ⟨by simp, ?_⟩
    simp only [List.length_append, List.append_nil]
    omega

theorem text_node {p : Phrase} {content : String} {front back : List Char}
    (h : content.toList = front ++ p.render ++ back) :
    (p.node front.length).text content = String.ofList p.render := by
  rw [Node.text, span_node, slice, Phrase.span, h, sliceList_append_append]

/-! ## Reading an object -/

variable {key : String} {items : List (Item Phrase)}

theorem hasKey_of_mem_nodes {key : LooseText} (h : ∀ i ∈ items, i.content.key ≠ key) {separator : List Char} {o : Nat}
    {n : Node} (hn : n ∈ nodes separator o items) : hasKey key n = false := by
  rw [nodes_eq] at hn
  obtain ⟨s, hs, rfl⟩ := List.mem_map.mp hn
  obtain ⟨i, hi, hcontent⟩ := content_of_mem_spots hs
  rw [hasKey_node, ← hcontent, beq_eq_false_iff_ne.mpr (h i hi), Bool.and_false]

/-- A key that no member has finds nothing. -/
theorem property?_eq_none (h : ∀ i ∈ items, i.content.key ≠ key) (trail : List Char) (o : Nat) :
    property? ((Phrase.group .object items trail).node o) key = none := by
  refine List.find?_eq_none.mpr fun n hn => ?_
  rw [hasKey_of_mem_nodes h (List.mem_reverse.mp hn)]
  exact Bool.false_ne_true

/-- **A key finds the last member that has it.** -/
theorem property?_eq_some {front back : List (Item Phrase)} (gap lead : List Char) {m : Phrase}
    (hm : m.isMember = true) (hkey : m.key = key) (hback : ∀ i ∈ back, i.content.key ≠ key)
    (trail : List Char) (o : Nat) :
    property? ((Phrase.group .object (front ++ ⟨gap, lead, m⟩ :: back) trail).node o) key =
      some (m.node (o + 1 + (renderItems [] front).length
        + (gap ++ separatorAfter [] front ++ lead).length)) := by
  have hfirst (n : Node) (hn : n ∈ (nodes [','] (o + 1 + (renderItems [] front).length
      + (gap ++ separatorAfter [] front ++ lead).length + m.render.length) back).reverse) :
      ¬ hasKey key n = true := by
    rw [hasKey_of_mem_nodes hback (List.mem_reverse.mp hn)]
    exact Bool.false_ne_true
  have hlast (o : Nat) : hasKey key (m.node o) = true := by
    rw [hasKey_node, hm, hkey, Bool.true_and]
    exact beq_self_eq_true (key : LooseText)
  rw [property?, Phrase.node, Node.children, nodes_append, nodes, List.reverse_append,
    List.reverse_cons, List.append_assoc, List.find?_append, List.find?_eq_none.mpr hfirst,
    Option.none_or, List.singleton_append, List.find?_cons_of_pos (hlast _)]

theorem exists_member {m : Phrase} (h : m.isMember = true) :
    ∃ k before after content, m = .member k before after content := by
  cases m with
  | member k before after content => exact ⟨k, before, after, content, rfl⟩
  | _ => cases h

/-- The place of a member's value in its object. -/
def valuePlace (front : List (Item Phrase)) (gap lead k before after : List Char)
    (back : List (Item Phrase)) (trail : List Char) : Place :=
  .inGroup .object front gap lead (.inMember k before after .here) back trail

/-- The value node a key finds stands in the place of the member's value. -/
theorem propertyValue?_eq_some {front back : List (Item Phrase)} {gap lead k before after : List Char}
    {content : Phrase} (hkey : textOf k = key) (hback : ∀ i ∈ back, i.content.key ≠ key)
    (trail : List Char) (o : Nat) :
    (property? ((Phrase.group .object (front ++ ⟨gap, lead, .member k before after content⟩ :: back)
        trail).node o) key).bind propertyValue? =
      some (content.node (o + (valuePlace front gap lead k before after back trail).before.length)) := by
  have hstart : valueStart k before after (o + 1 + (renderItems [] front).length
        + (gap ++ separatorAfter [] front ++ lead).length)
      = o + (valuePlace front gap lead k before after back trail).before.length := by
    simp only [valueStart, valuePlace, Place.before, List.length_append, List.length_cons, List.length_nil]
    omega
  rw [property?_eq_some (m := .member k before after content) gap lead rfl hkey hback, Option.bind_some,
    Phrase.node, hstart]
  rfl

/-- **The text of the value a key finds** is that of the last member with the key. -/
theorem text_propertyValue? (hmembers : ∀ i ∈ items, i.content.isMember = true) {trail : List Char}
    {text : String} {front back : List Char}
    (htext : text.toList = front ++ (Phrase.group .object items trail).render ++ back) (key : String) :
    ((property? ((Phrase.group .object items trail).node front.length) key).bind propertyValue?).map
        (fun n => n.text text) =
      (lastMember? key items).map fun m => String.ofList m.inner.render := by
  cases h : lastMember? key items with
  | none =>
    rw [property?_eq_none (lastMember?_eq_none.mp h)]
    rfl
  | some m =>
    obtain ⟨before, gap, lead, after, rfl, hkey, hback⟩ := exists_of_lastMember? h
    obtain ⟨k, b, a, content, rfl⟩ :=
      exists_member (hmembers ⟨gap, lead, m⟩ (List.mem_append_right before List.mem_cons_self))
    have hplace : text.toList = front ++ (valuePlace before gap lead k b a after trail).before
        ++ content.render ++ ((valuePlace before gap lead k b a after trail).behind ++ back) := by
      have hfill := Place.render_fill (valuePlace before gap lead k b a after trail) content
      rw [valuePlace, Place.fill, Place.fill, Place.fill] at hfill
      rw [htext, hfill]
      simp only [List.append_assoc, valuePlace]
    rw [propertyValue?_eq_some hkey hback, Option.map_some, Option.map_some, ← List.length_append,
      text_node hplace]
    rfl

/-! ## The values of an object -/

theorem values?_nodes (h : ∀ i ∈ items, ∀ o, value? (i.content.node o) = some i.content.value)
    (separator : List Char) (o : Nat) :
    values? (nodes separator o items) = some (items.map fun i => i.content.value) := by
  induction items generalizing separator o with
  | nil => rfl
  | cons i rest ih =>
    obtain ⟨gap, lead, p⟩ := i
    rw [List.forall_mem_cons] at h
    rw [nodes, values?, h.1, ih h.2]
    rfl

/-- The keys and values of members whose values are read. -/
theorem entries?_of_values (hmembers : ∀ i ∈ items, i.content.isMember = true)
    (h : ∀ i ∈ items, ∀ o, value? (i.content.inner.node o) = some i.content.inner.value)
    (separator : List Char) (o : Nat) :
    entries? (nodes separator o items) = some (items.map fun i => entry i.content) := by
  induction items generalizing separator o with
  | nil => rfl
  | cons i rest ih =>
    obtain ⟨gap, lead, p⟩ := i
    rw [List.forall_mem_cons] at h hmembers
    obtain ⟨k, before, after, content, rfl⟩ := exists_member hmembers.1
    have hcontent := h.1 (valueStart k before after (o + (gap ++ separator ++ lead).length))
    simp only [inner] at hcontent
    rw [nodes, Phrase.node, entries?, hcontent, ih hmembers.2 h.2]
    rfl

/-- **The node of a value stands for what its phrase stands for.** -/
theorem value?_node {p : Phrase} (h : p.Shaped) (o : Nat) :
    value? (p.inner.node o) = some p.inner.value := by
  induction p generalizing o with
  | word name =>
    rw [inner_of_isMember rfl, Phrase.node, Phrase.value, wordForm.eq_def, wordValue.eq_def]
    split <;> rfl
  | string body => rfl
  | number digits => rfl
  | member k before after content ih =>
    cases h with
    | member _ _ _ hkind h =>
      have hvalue := ih h o
      rwa [inner_of_isMember hkind] at hvalue
  | group bracket items trail ih =>
    cases h with
    | group _ _ _ hkind h =>
      rw [inner_of_isMember rfl, Phrase.node]
      cases bracket with
      | array =>
        have hitems (i : Item Phrase) (hi : i ∈ items) (o : Nat) :
            value? (i.content.node o) = some i.content.value := by
          have hvalue := ih i hi (h i hi) o
          rwa [inner_of_isMember (hkind i hi)] at hvalue
        rw [Bracket.form, value?, values?_nodes hitems, Phrase.value, fields_eq, List.map_map]
        rfl
      | object =>
        rw [Bracket.form, value?, entries?_of_values hkind fun i hi o => ih i hi (h i hi) o, Phrase.value,
          fields_eq, List.map_map]
        rfl

/-- **The list of keys and values of an object.** -/
theorem entries?_nodes (h : ∀ i ∈ items, i.content.Shaped)
    (hmembers : ∀ i ∈ items, i.content.isMember = true) (separator : List Char) (o : Nat) :
    entries? (nodes separator o items) = some (items.map fun i => entry i.content) :=
  entries?_of_values hmembers (fun i hi => value?_node (h i hi)) separator o

end Phrase

end SlotEdit.Json
