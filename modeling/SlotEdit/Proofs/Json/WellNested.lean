import SlotEdit.Proofs.Syntax.Converted
import SlotEdit.Proofs.Json.Whole

/-!
# Proofs/Json/WellNested — JSON trees are well nested

A value has a node on all of its characters, and a member one from its key to the end of its value, where
no key stands behind the value (`KeysFirst`).  So the tree of any concrete tree that is nested as it should
be is well nested (`wellNested_ofGrammar`); the concrete tree of a phrase is.
-/

namespace SlotEdit.Json

open Phrase

/-- **No key of a member stands behind its value.** -/
def KeysFirst (t : GrammarTree) : Prop :=
  t.construct = "pair" → ∀ c ∈ t.children.dropWhile fun c => c.role != "value", c.role ≠ "key"

instance (t : GrammarTree) : Decidable (KeysFirst t) :=
  inferInstanceAs (Decidable (_ → ∀ c ∈ _, _))

variable {text : List Char} {frames : Nat} {t : GrammarTree} {n : Node}

/-! ## Nodes of concrete trees -/

theorem eq_of_stringNode [Interpreter] {s : Span} (h : stringNode text s = .ok n) :
    ∃ key, n = .mk (.json (.string key)) s [] := by
  obtain ⟨v, -, h⟩ := bind_eq_ok.mp h
  split at h
  · exact ⟨_, (pure_eq_ok.mp h).symm⟩
  · cases h

/-- The key and the value of a member stand in this order. -/
theorem sublist_of_roles {key value : GrammarTree} (hfirst : KeysFirst t) (hpair : t.construct = "pair")
    (hkey : t.childWithRole? "key" = some key) (hvalue : t.childWithRole? "value" = some value) :
    [key, value].Sublist t.children := by
  rw [GrammarTree.childWithRole?] at hkey hvalue
  have hsplit := List.takeWhile_append_dropWhile (p := fun c => c.role != "value") (l := t.children)
  rw [List.find?_eq_head?_dropWhile_not] at hvalue
  obtain ⟨behind, hdrop⟩ := List.head?_eq_some_iff.mp hvalue
  have hbehind := hfirst hpair
  rw [show t.children.dropWhile (fun c => c.role != "value") = value :: behind from hdrop] at hsplit hbehind
  -- the key is in front of the value since it is not behind it
  have hmem : key ∈ t.children.takeWhile fun c => c.role != "value" := by
    have hall := hsplit ▸ List.mem_of_find?_eq_some hkey
    have hrole := List.find?_some hkey
    exact (List.mem_append.mp hall).resolve_right fun hback => hbehind key hback (beq_iff_eq.mp hrole)
  rw [← hsplit]
  exact (List.singleton_sublist.mpr hmem).append (List.cons_sublist_cons.mpr (List.nil_sublist behind))

/-- The maker of nodes that stand on all of a value. -/
def KeepsPlace (make : GrammarTree → Except TreeFault Node) : Prop :=
  ∀ ⦃t n⦄, t.WellNested KeysFirst → make t = .ok n → n.WellNested ∧ n.span = t.span

theorem KeepsPlace.inside {make : GrammarTree → Except TreeFault Node} (hmake : KeepsPlace make)
    (ht : t.WellNested KeysFirst) (h : make t = .ok n) : n.Inside t := by
  obtain ⟨hnested, hspan⟩ := hmake ht h
  exact ⟨hnested, hspan ▸ Nat.le_refl _, hspan ▸ Nat.le_refl _⟩

/-- **A member has a node from its key to the end of its value.** -/
theorem inside_propertyNode [Interpreter] {value : GrammarTree → Except TreeFault Node} (hvalue : KeepsPlace value)
    (ht : t.WellNested KeysFirst) (h : propertyNode text value t = .ok n) : n.Inside t := by
  rw [propertyNode] at h
  split at h
  · next key v hkey hv =>
    split at h
    · cases h
    · next hpair =>
      split at h
      · cases h
      · obtain ⟨keyNode, hkeyNode, h⟩ := bind_eq_ok.mp h
        obtain ⟨valueNode, hvalueNode, h⟩ := bind_eq_ok.mp h
        obtain rfl := pure_eq_ok.mp h
        obtain ⟨literal, rfl⟩ := eq_of_stringNode hkeyNode
        obtain ⟨hnested, hspan⟩ := hvalue (ht.of_mem_children (List.mem_of_find?_eq_some hv)) hvalueNode
        have hsublist := sublist_of_roles ht.property (by simpa using hpair) hkey hv
        obtain ⟨hstart, hkeySpan, hmiddle, hvalueSpan, hstop⟩ := ht.inOrder.sublist (hsublist.map _)
        refine ⟨Node.wellNested_mk.mpr ⟨?_, ?_⟩, hstart, (congrArg Span.stop hspan).le.trans hstop⟩
        · rw [List.map_cons, List.map_singleton, hspan]
          exact ⟨Nat.le_refl _, hkeySpan, hmiddle, hvalueSpan, Nat.le_refl _⟩
        · exact List.forall_mem_cons.mpr ⟨Node.wellNested_leaf hkeySpan, List.forall_mem_singleton.mpr hnested⟩
  · cases h

/-- A node over the nodes of the named children. -/
theorem keepsPlace_group {make : GrammarTree → Except TreeFault Node} {form : Form} {ns : List Node}
    (hmake : ∀ s ∈ t.children, ∀ n, make s = .ok n → n.Inside s) (ht : t.WellNested KeysFirst)
    (h : t.namedChildren.mapM make = .ok ns) : (Node.mk form t.span ns).WellNested := by
  have horder : Span.InOrder t.span.start t.span.stop (t.namedChildren.map GrammarTree.span) :=
    ht.inOrder.sublist (List.filter_sublist.map _)
  exact Node.wellNested_mk.mpr (Node.inOrder_of_mapM (fun s hs => hmake s (List.mem_filter.mp hs).1) horder h)

/-- **A value has a node on all of its characters**, by induction on the frames left for it. -/
theorem keepsPlace_valueNode [Interpreter] (frames : Nat) : KeepsPlace (valueNode text frames) := by
  induction frames using Nat.strongRecOn with
  | _ frames ih =>
    intro t n ht h
    rw [valueNode.eq_def] at h
    have hleaf : t.span.start ≤ t.span.stop := ht.inOrder.le
    split at h
    · split at h
      · next less =>
        obtain ⟨ns, hns, h⟩ := bind_eq_ok.mp h
        obtain rfl := pure_eq_ok.mp h
        exact ⟨keepsPlace_group (fun s hs n hn =>
          inside_propertyNode (ih less (by omega)) (ht.of_mem_children hs) hn) ht hns, rfl⟩
      · cases h
    · split at h
      · next less =>
        obtain ⟨ns, hns, h⟩ := bind_eq_ok.mp h
        obtain rfl := pure_eq_ok.mp h
        exact ⟨keepsPlace_group (fun s hs n hn => (ih less (by omega)).inside (ht.of_mem_children hs) hn) ht hns, rfl⟩
      · cases h
    · obtain ⟨literal, rfl⟩ := eq_of_stringNode h
      exact ⟨Node.wellNested_leaf hleaf, rfl⟩
    · obtain ⟨v, -, h⟩ := bind_eq_ok.mp h
      obtain rfl := pure_eq_ok.mp h
      exact ⟨Node.wellNested_leaf hleaf, rfl⟩
    · obtain rfl := pure_eq_ok.mp h
      exact ⟨Node.wellNested_leaf hleaf, rfl⟩
    · obtain rfl := pure_eq_ok.mp h
      exact ⟨Node.wellNested_leaf hleaf, rfl⟩
    · obtain rfl := pure_eq_ok.mp h
      exact ⟨Node.wellNested_leaf hleaf, rfl⟩
    · cases h

/-- **The tree of a concrete tree is well nested** when that is, inside the text. -/
theorem wellNested_ofGrammar [Interpreter] {text : String} {raw : GrammarTree} {root : Node}
    (hraw : raw.WellNested KeysFirst)
    (hstop : raw.span.stop ≤ text.length) (h : ofGrammar text raw = .ok root) :
    root.WellNested ∧ root.span.stop ≤ text.length := by
  rw [ofGrammar] at h
  split at h
  · cases h
  · split at h
    · cases h
    · next value hone =>
      have hmem : value ∈ raw.children := by
        have hmem : value ∈ raw.namedChildren := hone ▸ List.mem_singleton_self value
        exact (List.mem_filter.mp hmem).1
      obtain ⟨hnested, hspan⟩ := keepsPlace_valueNode treeFrames (hraw.of_mem_children hmem) h
      have hinside := hraw.inOrder.mem (List.mem_map_of_mem hmem)
      exact ⟨hnested, (congrArg Span.stop hspan).le.trans (hinside.2.2.trans hstop)⟩
    · cases h

/-! ## Concrete trees of phrases -/

namespace Phrase

theorem span_tree (p : Phrase) (o : Nat) : (p.tree o).span = p.span o := by
  cases p <;> rfl

/-- The items of a group stand in order over their text. -/
theorem inOrder_trees (items : List (Item Phrase)) (separator : List Char) (offset : Nat) :
    Span.InOrder offset (offset + (renderItems separator items).length)
      ((trees separator offset items).map GrammarTree.span) := by
  induction items generalizing separator offset with
  | nil => exact Nat.le_add_right _ _
  | cons i rest ih =>
    obtain ⟨gap, lead, p⟩ := i
    have hrest := ih [','] (offset + (gap ++ separator ++ lead).length + p.render.length)
    rw [trees, List.map_cons, span_tree, renderItems]
    refine ⟨Nat.le_add_right _ _, Nat.le_add_right _ _, hrest.widen (Nat.le_refl _) ?_⟩
    simp only [List.length_append]
    omega

theorem exists_of_mem_trees {items : List (Item Phrase)} {separator : List Char} {offset : Nat} {t : GrammarTree}
    (h : t ∈ trees separator offset items) : ∃ i ∈ items, ∃ o, t = i.content.tree o := by
  induction items generalizing separator offset with
  | nil => cases h
  | cons i rest ih =>
    obtain ⟨gap, lead, p⟩ := i
    rcases List.mem_cons.mp h with rfl | h
    · exact ⟨⟨gap, lead, p⟩, List.mem_cons_self, _, rfl⟩
    · obtain ⟨i, hi, ht⟩ := ih h
      exact ⟨i, List.mem_cons_of_mem _ hi, ht⟩

theorem wellNested_withRole {t : GrammarTree} (role : String) (h : t.WellNested KeysFirst) :
    (t.withRole role).WellNested KeysFirst := by
  obtain ⟨construct, named, role', s, ts⟩ := t
  obtain ⟨⟨horder, hfirst⟩, hchildren⟩ := GrammarTree.wellNested_node.mp h
  exact GrammarTree.wellNested_node.mpr ⟨⟨horder, hfirst⟩, hchildren⟩

theorem wellNested_leaf (construct : String) {s : Span} (hs : s.start ≤ s.stop) (hpair : construct ≠ "pair") :
    (GrammarTree.named construct s []).WellNested KeysFirst :=
  GrammarTree.wellNested_node.mpr ⟨⟨hs, fun h => absurd h hpair⟩, nofun⟩

/-- **The concrete tree of a phrase is well nested**, wherever the phrase stands. -/
theorem wellNested_tree {p : Phrase} (hp : p.Shaped) (offset : Nat) : (p.tree offset).WellNested KeysFirst := by
  induction p generalizing offset with
  | word name =>
    refine wellNested_leaf name (Nat.le_add_right _ _) ?_
    cases hp with
    | word hname =>
      rintro rfl
      exact absurd hname (by decide)
  | string body => exact wellNested_leaf "string" (Nat.le_add_right _ _) (by decide)
  | number digits => exact wellNested_leaf "number" (Nat.le_add_right _ _) (by decide)
  | member key before after content ih =>
    cases hp with
    | member _ _ _ _ hcontent =>
      have hkey : (GrammarTree.named "string" ((Phrase.string key).span offset) []).WellNested KeysFirst :=
        wellNested_leaf "string" (Nat.le_add_right _ _) (by decide)
      have hvalue := ih hcontent (valueStart key before after offset)
      have hspan (role : String) (t : GrammarTree) : (t.withRole role).span = t.span := by cases t; rfl
      refine GrammarTree.wellNested_node.mpr ⟨⟨?_, fun _ => ?_⟩, List.forall_mem_cons.mpr
        ⟨wellNested_withRole "key" hkey, List.forall_mem_singleton.mpr (wellNested_withRole "value" hvalue)⟩⟩
      · rw [List.map_cons, List.map_singleton, hspan, hspan, span_tree]
        refine ⟨Nat.le_refl _, Nat.le_add_right _ _, Span.inOrder_singleton ?_ (Nat.le_add_right _ _) ?_⟩
        · simp only [GrammarTree.named, GrammarTree.span, span, valueStart, render, List.length_append, List.length_cons]
          omega
        · simp only [span, valueStart, render, List.length_append, List.length_cons]
          omega
      · obtain ⟨construct, named, role, s, ts⟩ := content.tree (valueStart key before after offset)
        exact List.forall_mem_singleton.mpr (show "value" ≠ "key" by decide)
  | group bracket items trail ih =>
    cases hp with
    | group _ _ _ _ hshaped =>
      have hname : bracket.construct ≠ "pair" := by cases bracket <;> decide
      refine GrammarTree.wellNested_node.mpr ⟨⟨(inOrder_trees items [] (offset + 1)).widen (Nat.le_add_right _ _) ?_,
        fun h => absurd h hname⟩, fun t ht => ?_⟩
      · simp only [span, render, List.length_append, List.length_cons]
        omega
      · obtain ⟨i, hi, o, rfl⟩ := exists_of_mem_trees ht
        exact ih i hi (hshaped i hi) o

end Phrase

/-- **The tree of a JSON text is well nested** and inside the text. -/
theorem wellNested_ofText [Interpreter] {text : String} {root : Node} (h : ofText text = .ok root) :
    root.WellNested ∧ root.span.stop ≤ text.length := by
  obtain ⟨w, hw, htext, -⟩ := ofText_eq_ok.mp h
  rw [ofText, ofTextBy, hw.grammarTree?_eq htext] at h
  have hspan : w.start + w.phrase.render.length ≤ text.toList.length := by
    rw [htext, Whole.text, Whole.start]
    simp only [List.length_append]
    omega
  refine wellNested_ofGrammar (GrammarTree.wellNested_node.mpr ⟨⟨?_, fun hpair => absurd hpair ?_⟩,
    List.forall_mem_singleton.mpr (wellNested_tree hw.phrase w.start)⟩) ?_ h
  · rw [List.map_singleton, span_tree]
    exact Span.inOrder_singleton (Nat.zero_le _) (Nat.le_add_right _ _) hspan
  · exact show "document" ≠ "pair" by decide
  · exact (String.length_toList (s := text)).le

end SlotEdit.Json
