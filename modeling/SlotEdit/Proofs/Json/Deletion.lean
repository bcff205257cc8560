import Mathlib
import SlotEdit.Proofs.Syntax.Paths
import SlotEdit.Proofs.Json.Removing
import SlotEdit.Proofs.Json.Nesting

/-!
# Proofs/Json/Deletion — a document with one property taken out

The paths of a tree to what holds children are those of the places in its text
(`exists_place_of_follow`), so that filling a place changes the tree at one path
(`unplaced_node_fill`).  Taking a property out of any object of a JSON text leaves a JSON text whose
tree lacks that property and nothing else (`ofText_edited_deletionEditAt?`).
-/

namespace SlotEdit.Json

open Phrase

/-! ## Trees without offsets -/

/-- The tree of a phrase is the same wherever the phrase stands. -/
theorem unplaced_node (p : Phrase) (o o' : Nat) : (p.node o).unplaced = (p.node o').unplaced := by
  induction p generalizing o o' with
  | word name => rfl
  | string body => rfl
  | number digits => rfl
  | member key before after content ih =>
    rw [Phrase.node, Phrase.node, Node.unplaced_mk, Node.unplaced_mk]
    simp only [List.map_cons, List.map_nil, Node.unplaced_mk]
    rw [ih]
  | group bracket items trail ih =>
    have hitems : ∀ separator o o', (nodes separator o items).map Node.unplaced =
        (nodes separator o' items).map Node.unplaced := by
      induction items with
      | nil => exact fun _ _ _ => rfl
      | cons i rest ihrest =>
        obtain ⟨gap, lead, p⟩ := i
        rw [List.forall_mem_cons] at ih
        intro separator o o'
        rw [nodes, nodes, List.map_cons, List.map_cons, ih.1, ihrest ih.2]
    rw [Phrase.node, Phrase.node, Node.unplaced_mk, Node.unplaced_mk, hitems]

/-- The trees of items do not depend on the layout. -/
theorem map_unplaced_nodes (separator : List Char) (o : Nat) (items : List (Item Phrase)) :
    (nodes separator o items).map Node.unplaced = items.map fun i => (i.content.node 0).unplaced := by
  induction items generalizing separator o with
  | nil => rfl
  | cons i rest ih =>
    obtain ⟨gap, lead, p⟩ := i
    rw [nodes, List.map_cons, ih, List.map_cons, unplaced_node p _ 0]

/-! ## Paths and places -/

namespace Place

/-- **The path of a place** in the syntax tree. -/
def path : Place → List Nat
  | .here => []
  | .inMember _ _ _ place => 1 :: place.path
  | .inGroup _ front _ _ place _ _ => front.length :: place.path

end Place

/-- The children of a bracketed list, split at one of its items. -/
theorem children_group (bracket : Bracket) (front : List (Item Phrase)) (gap lead : List Char) (p : Phrase)
    (back : List (Item Phrase)) (trail : List Char) (o : Nat) :
    ((Phrase.group bracket (front ++ ⟨gap, lead, p⟩ :: back) trail).node o).children =
      nodes [] (o + 1) front ++
        p.node (o + 1 + (renderItems [] front).length + (gap ++ separatorAfter [] front ++ lead).length) ::
        nodes [','] (o + 1 + (renderItems [] front).length + (gap ++ separatorAfter [] front ++ lead).length
          + p.render.length) back := by
  rw [Phrase.node, Node.children, nodes_append, nodes]

theorem getElem?_children_group (bracket : Bracket) (front : List (Item Phrase)) (gap lead : List Char) (p : Phrase)
    (back : List (Item Phrase)) (trail : List Char) (o : Nat) :
    ((Phrase.group bracket (front ++ ⟨gap, lead, p⟩ :: back) trail).node o).children[front.length]? =
      some (p.node (o + 1 + (renderItems [] front).length + (gap ++ separatorAfter [] front ++ lead).length)) := by
  rw [children_group, ← length_nodes [] (o + 1) front, List.getElem?_append_right (Nat.le_refl _), Nat.sub_self,
    List.getElem?_cons_zero]

theorem exists_split {α : Type} {l : List α} {i : Nat} (h : i < l.length) :
    ∃ front a back, l = front ++ a :: back ∧ i = front.length :=
  ⟨l.take i, l[i], l.drop (i + 1), by rw [List.getElem_cons_drop, List.take_append_drop],
    (List.length_take_of_le h.le).symm⟩

/-- **A path to an object is that of a place**, and the object is what fills it. -/
theorem exists_place_of_follow {p : Phrase} {path : List Nat} {o : Nat} {object : Node}
    (h : (p.node o).follow path = some object) (hobject : isObject object = true) :
    ∃ (place : Place) (items : List (Item Phrase)) (trail : List Char), p = place.fill (.group .object items trail) ∧
      path = place.path ∧ object = (Phrase.group .object items trail).node (o + place.before.length) := by
  induction path generalizing p o with
  | nil =>
    rw [Node.follow_nil] at h
    obtain rfl := Option.some.inj h
    rw [isObject_node] at hobject
    cases p with
    | group bracket items trail =>
      cases bracket with
      | object => exact ⟨.here, items, trail, rfl, rfl, rfl⟩
      | array => cases hobject
    | _ => cases hobject
  | cons i path ih =>
    rw [Node.follow_cons] at h
    obtain ⟨child, hchild, h⟩ := Option.bind_eq_some_iff.mp h
    cases p with
    | member key before after content =>
      match i with
      | 0 =>
        -- the key is a string, and has no children
        obtain rfl := Option.some.inj hchild
        cases path with
        | nil =>
          rw [Node.follow_nil] at h
          obtain rfl := Option.some.inj h
          cases hobject
        | cons i path =>
          rw [Node.follow_cons] at h
          cases h
      | 1 =>
        obtain rfl := Option.some.inj hchild
        obtain ⟨place, items, trail, rfl, rfl, rfl⟩ := ih h
        refine ⟨.inMember key before after place, items, trail, rfl, rfl, congrArg (Phrase.node _) ?_⟩
        simp only [valueStart, Place.before, List.length_append, List.length_cons]
        omega
      | i + 2 => cases hchild
    | group bracket items trail =>
      have hlt : i < items.length := by
        rw [← length_nodes [] (o + 1) items]
        exact (List.getElem?_eq_some_iff.mp hchild).1
      obtain ⟨front, ⟨gap, lead, p⟩, back, rfl, rfl⟩ := exists_split hlt
      rw [getElem?_children_group] at hchild
      obtain rfl := Option.some.inj hchild
      obtain ⟨place, items, trail', rfl, rfl, rfl⟩ := ih h
      refine ⟨.inGroup bracket front gap lead place back trail, items, trail', rfl, rfl,
        congrArg (Phrase.node _) ?_⟩
      simp only [Place.before, List.length_append, List.length_cons]
      omega
    | _ => cases hchild

theorem modify_length {α : Type} (f : α → α) (l : List α) (a : α) (r : List α) :
    (l ++ a :: r).modify l.length f = l ++ f a :: r :=
  List.modifyTailIdx_add (List.modifyHead f) 0 l (a :: r)

/-- **Filling a place with something else** changes the tree at the path of the place only. -/
theorem unplaced_node_fill {f : Node → Node} {place : Place} {p q : Phrase} {o : Nat}
    (h : (q.node 0).unplaced = (f (p.node (o + place.before.length))).unplaced) (o' : Nat) :
    ((place.fill q).node o').unplaced = (((place.fill p).node o).changedAt f place.path).unplaced := by
  induction place generalizing o o' with
  | here => exact (unplaced_node q o' 0).trans h
  | inMember key before after place ih =>
    have hstart : o + (Place.inMember key before after place).before.length =
        valueStart key before after o + place.before.length := by
      simp only [valueStart, Place.before, List.length_append, List.length_cons]
      omega
    have hinner := ih (hstart ▸ h) (valueStart key before after o')
    rw [Place.fill, Place.fill, Place.path, Node.changedAt, Phrase.node, Phrase.node, Node.children, Node.unplaced_mk,
      Node.unplaced_mk]
    simp only [List.modify_succ_cons, List.modify_zero_cons, List.map_cons, List.map_nil, Node.unplaced_mk, hinner]
    rfl
  | inGroup bracket front gap lead place back trail ih =>
    have hstart : o + (Place.inGroup bracket front gap lead place back trail).before.length =
        o + 1 + (renderItems [] front).length + (gap ++ separatorAfter [] front ++ lead).length
          + place.before.length := by
      simp only [Place.before, List.length_append, List.length_cons]
      omega
    have hinner := ih (hstart ▸ h) 0
    have hchildren := children_group bracket front gap lead (place.fill p) back trail o
    rw [Phrase.node, Node.children] at hchildren
    rw [Place.fill, Place.fill, Place.path, Node.changedAt, Phrase.node, Phrase.node, Node.children, Node.unplaced_mk,
      Node.unplaced_mk, hchildren, map_unplaced_nodes, ← length_nodes [] (o + 1) front, modify_length]
    simp only [List.map_append, List.map_cons, map_unplaced_nodes]
    rw [hinner]
    rfl

/-! ## Taking a property out -/

/-- What is left of the items of an object. -/
def leftItems (xs : List (Item Phrase)) (i : Item Phrase) (ys : List (Item Phrase)) : List (Item Phrase) :=
  match xs, ys with
  | [], [] => []
  | [], next :: ys => ⟨i.gap, i.lead, next.content⟩ :: ys
  | x :: xs, ys => x :: xs ++ ys

/-- What is left of the blanks behind the last item. -/
def leftTrail (xs ys : List (Item Phrase)) (trail : List Char) : List Char :=
  match xs, ys with
  | [], [] => []
  | [], _ :: _ => trail
  | _ :: _, _ => trail

variable {xs ys : List (Item Phrase)} {i : Item Phrase} {trail : List Char}

/-- What is cut out of an object, with what stands before and behind it. -/
theorem exists_removed (xs ys : List (Item Phrase)) (i : Item Phrase) (trail : List Char) :
    ∃ pre mid post : List Char, (Phrase.group .object (xs ++ i :: ys) trail).render = pre ++ mid ++ post ∧
      (Phrase.group .object (leftItems xs i ys) (leftTrail xs ys trail)).render = pre ++ post ∧
      ∀ o, removalSpan (o + 1) xs i ys trail = ⟨o + pre.length, o + pre.length + mid.length⟩ := by
  obtain ⟨gap, lead, p⟩ := i
  match xs, ys with
  | [], [] =>
    refine ⟨['\x7b'], renderItems [] [⟨gap, lead, p⟩] ++ trail, ['\x7d'], ?_, rfl, fun o => ?_⟩
    · rw [render_group]
      simp only [List.nil_append, List.append_assoc, List.cons_append]
      rfl
    · rw [removalSpan, List.length_append, Nat.add_assoc]
      rfl
  | [], ⟨gap', lead', q⟩ :: ys =>
    refine ⟨'\x7b' :: (gap ++ lead), p.render ++ (gap' ++ [','] ++ lead'),
      q.render ++ renderItems [','] ys ++ trail ++ ['\x7d'], ?_, ?_, fun o => ?_⟩
    · rw [render_group, List.nil_append, renderItems, renderItems]
      simp only [List.append_nil, List.append_assoc, List.cons_append]
      rfl
    · rw [render_group, leftItems, leftTrail, renderItems]
      simp only [List.append_nil, List.append_assoc, List.cons_append]
      rfl
    · rw [removalSpan, renderItems_singleton]
      simp only [List.append_nil, List.length_append, List.length_cons, Span.mk.injEq]
      omega
  | x :: xs, ys =>
    refine ⟨'\x7b' :: renderItems [] (x :: xs), renderItems [','] [⟨gap, lead, p⟩],
      renderItems [','] ys ++ trail ++ ['\x7d'], ?_, ?_, fun o => ?_⟩
    · rw [render_group, renderItems_append, separatorAfter_cons, renderItems_cons [',']]
      simp only [List.append_assoc, List.cons_append]
      rfl
    · rw [render_group, leftItems, leftTrail, renderItems_append, separatorAfter_cons]
      simp only [List.append_assoc, List.cons_append]
      rfl
    · rw [removalSpan, renderItems_append, separatorAfter_cons]
      simp only [List.length_append, List.length_cons, Span.mk.injEq]
      omega

/-- **Cutting an item out** of an object leaves the others. -/
theorem edited_cut {d : Document} {front back : List Char}
    (htext : d.content.toList = front ++ (Phrase.group .object (xs ++ i :: ys) trail).render ++ back) :
    edited d [(cut d (front.length + 1) trail xs i ys).edit] =
      .ok (String.ofList (front ++ (Phrase.group .object (leftItems xs i ys) (leftTrail xs ys trail)).render
        ++ back)) := by
  obtain ⟨pre, mid, post, hwhole, hleft, hspan⟩ := exists_removed xs ys i trail
  have hcontent : d.content.toList = front ++ pre ++ mid ++ (post ++ back) := by
    rw [htext, hwhole]
    simp only [List.append_assoc]
  have hplace : d.spanOf (cut d (front.length + 1) trail xs i ys).edit.range =
      ⟨(front ++ pre).length, (front ++ pre).length + mid.length⟩ := by
    rw [cut, TextEdit.delete, hspan, List.length_append]
    refine d.spanOf_rangeOf (Nat.le_add_right _ _) ?_
    rw [hcontent]
    simp only [List.length_append]
    omega
  have hedited := edited_singleton rfl hplace hcontent
  rw [hedited, hleft]
  simp only [String.toList_empty, List.append_nil, List.append_assoc]

theorem content_leftItems : (leftItems xs i ys).map Item.content = (xs ++ ys).map Item.content := by
  match xs, ys with
  | [], [] => rfl
  | [], next :: ys => rfl
  | x :: xs, ys => rfl

theorem exists_of_mem_leftItems {j : Item Phrase} (h : j ∈ leftItems xs i ys) :
    ∃ k ∈ xs ++ i :: ys, k.content = j.content := by
  have hcontent := List.mem_map_of_mem (f := Item.content) h
  rw [content_leftItems] at hcontent
  obtain ⟨k, hk, heq⟩ := List.mem_map.mp hcontent
  exact ⟨k, List.mem_append.mpr ((List.mem_append.mp hk).imp_right (List.mem_cons_of_mem i)), heq⟩

theorem shaped_leftItems (h : (Phrase.group .object (xs ++ i :: ys) trail).Shaped) :
    (Phrase.group .object (leftItems xs i ys) (leftTrail xs ys trail)).Shaped := by
  cases h with
  | group htrail hfirst hblank hkind h =>
    have hkind' : ∀ j ∈ leftItems xs i ys, j.content.isMember = Bracket.object.holdsMembers := by
      intro j hj
      obtain ⟨k, hk, heq⟩ := exists_of_mem_leftItems hj
      exact heq ▸ hkind k hk
    have hshaped : ∀ j ∈ leftItems xs i ys, j.content.Shaped := by
      intro j hj
      obtain ⟨k, hk, heq⟩ := exists_of_mem_leftItems hj
      exact heq ▸ h k hk
    rw [List.forall_mem_append, List.forall_mem_cons] at hblank
    match xs, ys with
    | [], [] => exact .group (fun c hc => nomatch hc) (fun k hk => nomatch hk) (fun k hk => nomatch hk) hkind' hshaped
    | [], next :: ys =>
      refine .group htrail (fun k hk => ?_) ?_ hkind' hshaped
      · obtain rfl := Option.some.inj hk
        exact hfirst i rfl
      · exact List.forall_mem_cons.mpr ⟨hblank.2.1, (List.forall_mem_cons.mp hblank.2.2).2⟩
    | x :: xs, ys =>
      refine .group htrail (fun k hk => hfirst k hk) ?_ hkind' hshaped
      exact List.forall_mem_append.mpr ⟨hblank.1, hblank.2.2⟩

theorem readable_leftItems [Interpreter] (h : (Phrase.group .object (xs ++ i :: ys) trail).Readable) :
    (Phrase.group .object (leftItems xs i ys) (leftTrail xs ys trail)).Readable := by
  rw [readable_group] at h ⊢
  intro j hj
  obtain ⟨k, hk, heq⟩ := exists_of_mem_leftItems hj
  exact heq ▸ h k hk

theorem frames_leftItems_le :
    (Phrase.group .object (leftItems xs i ys) (leftTrail xs ys trail)).frames ≤
      (Phrase.group .object (xs ++ i :: ys) trail).frames := by
  rw [Phrase.frames, Phrase.frames]
  refine Nat.add_le_add_right (framesOfItems_le_iff.mpr fun j hj => ?_) _
  obtain ⟨k, hk, heq⟩ := exists_of_mem_leftItems hj
  exact heq ▸ framesOfItems_le_iff.mp (Nat.le_refl _) k hk

/-- The tree of what is left is the old one without the child. -/
theorem unplaced_leftItems (o : Nat) :
    ((Phrase.group .object (leftItems xs i ys) (leftTrail xs ys trail)).node 0).unplaced =
      (((Phrase.group .object (xs ++ i :: ys) trail).node o).withoutChild xs.length).unplaced := by
  obtain ⟨gap, lead, p⟩ := i
  have hcontent := congrArg (List.map fun q : Phrase => (q.node 0).unplaced)
    (@content_leftItems xs ys ⟨gap, lead, p⟩)
  rw [List.map_map, List.map_map] at hcontent
  have herased : (((Phrase.group .object (xs ++ ⟨gap, lead, p⟩ :: ys) trail).node o).children.eraseIdx xs.length).map
      Node.unplaced = (xs ++ ys).map fun i => (i.content.node 0).unplaced := by
    rw [children_group, ← length_nodes [] (o + 1) xs, List.eraseIdx_append_of_length_le (Nat.le_refl _), Nat.sub_self,
      List.eraseIdx_cons_zero, List.map_append, map_unplaced_nodes, map_unplaced_nodes, List.map_append]
  rw [Node.withoutChild, Node.unplaced_mk, herased, Phrase.node, Node.unplaced_mk, map_unplaced_nodes]
  exact congrArg (Node.mk _ _) hcontent

/-- **Taking a property out of an object of a JSON text** leaves a JSON text, whose tree is the old
one with that property taken out of that object. -/
theorem ofText_edited_deletionEditAt? [Interpreter] {d : Document} {root object : Node} {path : List Nat} {i : Nat}
    (htree : ofText d.content = .ok root) (hpath : root.follow path = some object)
    (hobject : isObject object = true) (hi : i < object.children.length) :
    ∃ edit content root', deletionEditAt? d object i = some edit ∧ edited d [edit] = .ok content ∧
      ofText content = .ok root' ∧ root'.unplaced = (root.changedAt (Node.withoutChild i) path).unplaced := by
  obtain ⟨w, hw, htext, rfl⟩ := ofText_eq_ok.mp htree
  obtain ⟨place, items, trail, hphrase, rfl, rfl⟩ := exists_place_of_follow hpath hobject
  have hlength : i < items.length := by rwa [Phrase.node, Node.children, length_nodes] at hi
  obtain ⟨xs, item, ys, rfl, rfl⟩ := exists_split hlength
  -- the text around the object, and the object without the item
  rw [Whole.text_fill hphrase] at htext
  have hstart : (w.mark ++ w.lead ++ place.before).length = w.start + place.before.length := List.length_append
  have hcontent := edited_cut htext
  rw [hstart] at hcontent
  have hshaped : (Phrase.group .object (xs ++ item :: ys) trail).Shaped := Place.shaped_of_fill (hphrase ▸ hw.phrase)
  have hreadable : (Phrase.group .object (xs ++ item :: ys) trail).Readable :=
    Place.readable_of_fill (hphrase ▸ hw.readable)
  have hframes : place.frames + (Phrase.group .object (leftItems xs item ys) (leftTrail xs ys trail)).frames ≤
      treeFrames :=
    (Nat.add_le_add_left frames_leftItems_le _).trans ((place.frames_add_frames_le _).trans (hphrase ▸ hw.frames))
  have hsound : (w.holding (place.fill (.group .object (leftItems xs item ys) (leftTrail xs ys trail)))).Sound :=
    ⟨hw.toShaped.holding hphrase (shaped_leftItems hshaped) rfl,
      Place.readable_fill place (hphrase ▸ hw.readable) (readable_leftItems hreadable),
      Place.frames_fill_le (hphrase ▸ hw.frames) hframes⟩
  refine ⟨_, _, _, deletionEditAt?_node d xs ys item trail _, hcontent, ofText_eq_ok.mpr ⟨_, hsound, ?_, rfl⟩, ?_⟩
  · rw [String.toList_ofList, Whole.text_fill rfl]
    rfl
  · rw [Whole.root, Whole.root, hphrase]
    exact unplaced_node_fill (unplaced_leftItems _) _

/-- The first of two properties of an object in a list. -/
theorem ofText_edited_deletionEditAt?_first : ∃ (d : Document) (root object : Node) (edit : TextEdit)
    (content : String) (root' : Node), d.content = "[\x7b\"a\": true, \"b\": null\x7d]" ∧ ofText d.content = .ok root ∧
    root.follow [0] = some object ∧ isObject object = true ∧ 0 < object.children.length ∧
    deletionEditAt? d object 0 = some edit ∧ edited d [edit] = .ok content ∧ ofText content = .ok root' ∧
    root'.unplaced = (root.changedAt (Node.withoutChild 0) [0]).unplaced := by
  let d : Document := ⟨"[\x7b\"a\": true, \"b\": null\x7d]", ⟨"JSON", "json", "json", some .json⟩⟩
  let v : Value := .dict [(.str "a", .bool true), (.str "b", .null)]
  have hv : v.IsJson := @Value.IsJson.dict [("a", .bool true), ("b", .null)] (by decide)
    (List.forall_mem_cons.mpr ⟨.bool true, List.forall_mem_singleton.mpr .null⟩)
  have hw : Whole.Sound ⟨[], [], ofValue (.list [v]), []⟩ :=
    sound_ofValue (.list (List.forall_mem_singleton.mpr hv)) (fun n hn => nomatch hn) (by decide)
  have hroot : ofText d.content = .ok (Whole.mk [] [] (ofValue (.list [v])) []).root :=
    ofText_eq_ok.mpr ⟨_, hw, by cbv, rfl⟩
  have hobject : (Whole.mk [] [] (ofValue (.list [v])) []).root.follow [0] = some ((ofValue v).node 1) := by cbv
  obtain ⟨edit, content, root', hdeletion⟩ :=
    ofText_edited_deletionEditAt? hroot hobject (isObject_node _ _) (Nat.zero_lt_succ _)
  exact ⟨d, _, _, edit, content, root', rfl, hroot, hobject, isObject_node _ _, Nat.zero_lt_succ _, hdeletion⟩

end SlotEdit.Json
