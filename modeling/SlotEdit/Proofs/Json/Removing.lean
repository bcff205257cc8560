import Mathlib.Data.List.Nodup
import SlotEdit.Proofs.Json.Editing

/-!
# Proofs/Json/Removing — what is left of an object when properties are taken out

A property is taken out with the comma before it, the first one with the comma behind it, and the
only one with all blanks around it (`deletionEdit?_node`).  Unless two of these cuts overlap, what is
left are the items of the other properties (`foldr_cuts`).
-/

namespace SlotEdit.Json

open Phrase

variable {key : LooseText} {before after : List Node} {n : Node}

theorem ofString_injective : Function.Injective LooseText.ofString := fun _ _ => LooseText.ofString_inj.mp

theorem lastIndex?_eq_none (h : ∀ n ∈ after, hasKey key n = false) : lastIndex? key after = none := by
  induction after with
  | nil => rfl
  | cons n rest ih =>
    rw [List.forall_mem_cons] at h
    rw [lastIndex?, ih h.2, h.1]
    rfl

/-- The last property with a key stands behind the ones before it. -/
theorem lastIndex?_append (front : List Node) (hkey : hasKey key n = true)
    (h : ∀ n ∈ after, hasKey key n = false) : lastIndex? key (front ++ n :: after) = some front.length := by
  induction front with
  | nil =>
    rw [List.nil_append, lastIndex?, lastIndex?_eq_none h, hkey]
    rfl
  | cons m front ih =>
    rw [List.cons_append, lastIndex?, ih]
    rfl

/-- **The span of an item** that is taken out of an object, given where the items of the object start,
the items before and behind it, and the blanks behind the last item. -/
def removalSpan (start : Nat) (xs : List (Item Phrase)) (i : Item Phrase) (ys : List (Item Phrase))
    (trail : List Char) : Span :=
  match xs, ys with
  | [], [] => ⟨start, start + (renderItems [] [i]).length + trail.length⟩
  | [], next :: _ => ⟨start + (i.gap ++ i.lead).length,
      start + (renderItems [] [i]).length + (next.gap ++ [','] ++ next.lead).length⟩
  | _ :: _, _ => ⟨start + (renderItems [] xs).length, start + (renderItems [] (xs ++ [i])).length⟩

/-- **The edit that takes the item at an index out.** -/
theorem deletionEditAt?_node (d : Document) (xs ys : List (Item Phrase)) (i : Item Phrase) (trail : List Char)
    (o : Nat) : deletionEditAt? d ((Phrase.group .object (xs ++ i :: ys) trail).node o) xs.length =
      some (.delete (d.lines.rangeOf (removalSpan (o + 1) xs i ys trail).start
        (removalSpan (o + 1) xs i ys trail).stop)) := by
  obtain ⟨gap, lead, p⟩ := i
  have hspan : deletionSpan ((Phrase.group .object (xs ++ ⟨gap, lead, p⟩ :: ys) trail).node o)
      (p.node (o + 1 + (renderItems [] xs).length + (gap ++ separatorAfter [] xs ++ lead).length))
      (nodes [] (o + 1) xs).reverse
      (nodes [','] (o + 1 + (renderItems [] xs).length + (gap ++ separatorAfter [] xs ++ lead).length
        + p.render.length) ys) = removalSpan (o + 1) xs ⟨gap, lead, p⟩ ys trail := by
    have hlast := getLast?_nodes xs o
    cases xs with
    | nil =>
      cases ys with
      | nil =>
        have hlength : (Phrase.group .object [⟨gap, lead, p⟩] trail).render.length =
            (renderItems [] [⟨gap, lead, p⟩]).length + trail.length + 2 := by
          rw [render_group]
          simp only [List.length_append, List.length_cons, List.length_nil]
        show (⟨((Phrase.group .object [⟨gap, lead, p⟩] trail).node o).span.start + 1,
          ((Phrase.group .object [⟨gap, lead, p⟩] trail).node o).span.stop - 1⟩ : Span) = _
        rw [span_node, Phrase.span, hlength, removalSpan]
        simp only [Span.mk.injEq, true_and]
        omega
      | cons next ys =>
        obtain ⟨gap', lead', q⟩ := next
        rw [nodes, nodes, List.reverse_nil, deletionSpan, span_node, span_node, removalSpan, renderItems, renderItems]
        simp only [Phrase.span, separatorAfter, renderItems, List.isEmpty_nil, if_true, List.length_append,
          List.length_nil, Nat.add_assoc, Nat.zero_add]
    | cons x xs =>
      cases hreverse : (nodes [] (o + 1) (x :: xs)).reverse with
      | nil =>
        rw [List.getLast?_eq_head?_reverse, hreverse] at hlast
        cases hlast
      | cons m rest =>
        rw [List.getLast?_eq_head?_reverse, hreverse] at hlast
        have hstop : m.span.stop = o + 1 + (renderItems [] (x :: xs)).length := hlast.2
        have hitem : (renderItems [] (x :: xs ++ [⟨gap, lead, p⟩])).length = (renderItems [] (x :: xs)).length
            + (gap ++ separatorAfter [] (x :: xs) ++ lead).length + p.render.length := by
          rw [renderItems_append, renderItems_singleton, List.length_append, List.length_append, Nat.add_assoc]
        rw [deletionSpan, span_node, hstop, removalSpan, hitem, Phrase.span]
        simp only [Nat.add_assoc]
  have hchildren : ((Phrase.group .object (xs ++ ⟨gap, lead, p⟩ :: ys) trail).node o).children =
      nodes [] (o + 1) xs ++
        p.node (o + 1 + (renderItems [] xs).length + (gap ++ separatorAfter [] xs ++ lead).length) ::
        nodes [','] (o + 1 + (renderItems [] xs).length + (gap ++ separatorAfter [] xs ++ lead).length
          + p.render.length) ys := by
    rw [Phrase.node, Node.children, nodes_append, nodes]
  rw [deletionEditAt?, hchildren, ← length_nodes [] (o + 1) xs, List.getElem?_append_right (Nat.le_refl _),
    Nat.sub_self, List.getElem?_cons_zero, Option.map_some, List.take_left, List.drop_length_add_append,
    List.drop_one, List.tail_cons, ← hspan]

/-- **The edit that takes a key out** is that of the last item with it. -/
theorem deletionEdit?_node (d : Document) {xs ys : List (Item Phrase)} {i : Item Phrase} {trail : List Char}
    (o : Nat) (hmember : i.content.isMember = true) (hkey : i.content.key = key)
    (hys : ∀ j ∈ ys, j.content.key ≠ key) :
    deletionEdit? d ((Phrase.group .object (xs ++ i :: ys) trail).node o) key =
      some (.delete (d.lines.rangeOf (removalSpan (o + 1) xs i ys trail).start
        (removalSpan (o + 1) xs i ys trail).stop)) := by
  have hfound (o : Nat) : hasKey key (i.content.node o) = true := by
    rw [hasKey_node, hmember, hkey, Bool.true_and]
    exact beq_self_eq_true key
  have hindex : lastIndex? key ((Phrase.group .object (xs ++ i :: ys) trail).node o).children = some xs.length := by
    obtain ⟨gap, lead, p⟩ := i
    rw [Phrase.node, Node.children, nodes_append, nodes,
      lastIndex?_append _ (hfound _) fun n hn => hasKey_of_mem_nodes hys hn, length_nodes]
  rw [deletionEdit?, hindex, Option.bind_some, deletionEditAt?_node]

/-! ## Several cuts -/

/-- The item is not one of those taken out. -/
def stays (ks : List String) (i : Item Phrase) : Bool :=
  !(ks.map LooseText.ofString).contains i.content.key

/-- The cut of an item between others. -/
def cut (d : Document) (start : Nat) (trail : List Char) (xs : List (Item Phrase)) (i : Item Phrase)
    (ys : List (Item Phrase)) : Placed :=
  ⟨removalSpan start xs i ys trail,
    .delete (d.lines.rangeOf (removalSpan start xs i ys trail).start (removalSpan start xs i ys trail).stop)⟩

/-- **The cuts that take keys out** of some items, in the order of the items, given the items before
them. -/
def cuts (d : Document) (start : Nat) (trail : List Char) (ks : List String) (xs : List (Item Phrase)) :
    List (Item Phrase) → List Placed
  | [] => []
  | i :: ys =>
    if stays ks i then cuts d start trail ks (xs ++ [i]) ys
    else cut d start trail xs i ys :: cuts d start trail ks (xs ++ [i]) ys

/-- The cuts leave each other and an item in peace: not both of the first two items are taken out, and
not the only one. -/
def Apart (ks : List String) : List (Item Phrase) → Prop
  | [] => True
  | [i] => stays ks i = true
  | i :: j :: _ => stays ks i = false → stays ks j = true

/-- **What is left** of items: the ones that stay.  The first one takes the place of a first one that
does not. -/
def kept (ks : List String) : List (Item Phrase) → List (Item Phrase)
  | i :: j :: rest =>
    if stays ks i then i :: (j :: rest).filter (stays ks)
    else ⟨i.gap, i.lead, j.content⟩ :: rest.filter (stays ks)
  | items => items

variable {d : Document} {trail : List Char} {ks : List String} {xs ys : List (Item Phrase)}

theorem splice_cut {p : Placed} {a b c : List Char} (hspan : p.span = ⟨a.length, a.length + b.length⟩)
    (hchars : p.chars = []) : p.splice (a ++ b ++ c) = a ++ c := by
  rw [Placed.splice_append hspan, hchars, List.append_nil]

/-- Behind the first item, what is cut are whole items with the comma before them. -/
theorem foldr_cuts_tail (hxs : xs ≠ []) (front back : List Char) :
    (cuts d front.length trail ks xs ys).foldr Placed.splice
        (front ++ renderItems [] xs ++ (renderItems [','] ys ++ back)) =
      front ++ renderItems [] xs ++ (renderItems [','] (ys.filter (stays ks)) ++ back) := by
  induction ys generalizing xs with
  | nil => rfl
  | cons y ys ih =>
    have hcomma : separatorAfter [] xs = [','] := by
      rw [separatorAfter, List.isEmpty_eq_false_iff.mpr hxs]
      rfl
    have hitem : renderItems [] (xs ++ [y]) = renderItems [] xs ++ renderItems [','] [y] := by
      rw [renderItems_append, hcomma]
    have hrest := ih (List.append_ne_nil_of_right_ne_nil xs (List.cons_ne_nil y []))
    rw [hitem] at hrest
    rw [cuts, renderItems_cons]
    simp only [List.append_assoc] at hrest ⊢
    cases hstays : stays ks y with
    | true =>
      rw [if_pos rfl, hrest, List.filter_cons_of_pos hstays, renderItems_cons _ y (List.filter _ _)]
      simp only [List.append_assoc]
    | false =>
      have hspan : (cut d front.length trail xs y ys).span =
          ⟨(front ++ renderItems [] xs).length,
            (front ++ renderItems [] xs).length + (renderItems [','] [y]).length⟩ := by
        obtain ⟨x, xs, rfl⟩ := List.exists_cons_of_ne_nil hxs
        rw [cut, removalSpan, hitem]
        simp only [List.length_append, Nat.add_assoc]
      have hcut := splice_cut (c := renderItems [','] (ys.filter (stays ks)) ++ back) hspan rfl
      simp only [List.append_assoc] at hcut
      rw [if_neg Bool.false_ne_true, List.foldr_cons, hrest, hcut,
        List.filter_cons_of_neg (Bool.eq_false_iff.mp hstays)]

/-- **The cuts leave the items that stay.** -/
theorem foldr_cuts {items : List (Item Phrase)} (h : Apart ks items) (front back : List Char) :
    (cuts d front.length trail ks [] items).foldr Placed.splice (front ++ (renderItems [] items ++ back)) =
      front ++ (renderItems [] (kept ks items) ++ back) := by
  match items with
  | [] => rfl
  | [i] =>
    rw [cuts, if_pos (show stays ks i = true from h)]
    rfl
  | ⟨gap, lead, p⟩ :: ⟨gap', lead', q⟩ :: rest =>
    rw [cuts, kept]
    cases hstays : stays ks ⟨gap, lead, p⟩ with
    | true =>
      have htail : (cuts d front.length trail ks [⟨gap, lead, p⟩] (⟨gap', lead', q⟩ :: rest)).foldr Placed.splice _
          = _ := foldr_cuts_tail (List.cons_ne_nil _ _) front back
      rw [if_pos rfl, if_pos rfl, renderItems_cons, renderItems_cons _ _ (List.filter _ _)]
      simp only [List.append_assoc] at htail ⊢
      exact htail
    | false =>
      have htail : (cuts d front.length trail ks [⟨gap, lead, p⟩, ⟨gap', lead', q⟩] rest).foldr Placed.splice _
          = _ := foldr_cuts_tail (List.cons_ne_nil _ _) front back
      have hspan : (cut d front.length trail [] ⟨gap, lead, p⟩ (⟨gap', lead', q⟩ :: rest)).span =
          ⟨(front ++ (gap ++ lead)).length,
            (front ++ (gap ++ lead)).length + (p.render ++ (gap' ++ [','] ++ lead')).length⟩ := by
        rw [cut, removalSpan, renderItems_singleton, List.append_nil]
        simp only [List.length_append, Nat.add_assoc]
      have hcut := splice_cut (c := q.render ++ (renderItems [','] (rest.filter (stays ks)) ++ back)) hspan rfl
      rw [if_neg Bool.false_ne_true, if_neg Bool.false_ne_true, cuts, if_pos (h hstays), List.foldr_cons,
        renderItems_cons _ _ (rest.filter _), renderItems_singleton, List.append_nil]
      rw [renderItems_cons, renderItems_singleton, renderItems_singleton, List.append_nil] at htail
      rw [renderItems_cons, renderItems_cons [','], renderItems_singleton, renderItems_singleton, List.append_nil]
      simp only [List.append_assoc, List.nil_append] at htail hcut ⊢
      rw [← hcut]
      exact congrArg _ htail

/-! ## The order of the cuts -/

theorem length_lt_append {i : Item Phrase} (xs : List (Item Phrase)) (h : i.content.render ≠ []) :
    (renderItems [] xs).length < (renderItems [] (xs ++ [i])).length := by
  obtain ⟨gap, lead, p⟩ := i
  have := List.length_pos_iff.mpr h
  rw [renderItems_append, renderItems_singleton]
  simp only [List.length_append] at this ⊢
  omega

/-- A cut starts behind the items before it, and before the item ends. -/
theorem start_cut (start : Nat) {i : Item Phrase} (h : i.content.render ≠ []) :
    start + (renderItems [] xs).length ≤ (cut d start trail xs i ys).span.start ∧
      (cut d start trail xs i ys).span.start < start + (renderItems [] (xs ++ [i])).length := by
  have hlt := length_lt_append xs h
  obtain ⟨gap, lead, p⟩ := i
  cases xs with
  | cons x xs =>
    rw [cut, removalSpan]
    exact ⟨Nat.le_refl _, Nat.add_lt_add_left hlt start⟩
  | nil =>
    rw [List.nil_append] at hlt ⊢
    cases ys with
    | nil =>
      rw [cut, removalSpan]
      exact ⟨Nat.le_refl _, Nat.lt_add_of_pos_right (Nat.zero_lt_of_lt hlt)⟩
    | cons next ys =>
      have := List.length_pos_iff.mpr h
      rw [cut, removalSpan, renderItems_singleton, renderItems]
      simp only [List.length_append, List.length_nil] at this ⊢
      omega

/-- All cuts start behind the items before them, and before the last item ends. -/
theorem start_of_mem_cuts {start : Nat} (h : ∀ i ∈ ys, i.content.render ≠ []) {p : Placed}
    (hp : p ∈ cuts d start trail ks xs ys) : start + (renderItems [] xs).length ≤ p.span.start ∧
      p.span.start < start + (renderItems [] (xs ++ ys)).length := by
  induction ys generalizing xs with
  | nil => cases hp
  | cons i ys ih =>
    rw [List.forall_mem_cons] at h
    have hlt := length_lt_append xs h.1
    have happend : xs ++ i :: ys = xs ++ [i] ++ ys := by rw [List.append_assoc, List.singleton_append]
    have hrest (hp : p ∈ cuts d start trail ks (xs ++ [i]) ys) :
        start + (renderItems [] xs).length ≤ p.span.start ∧
          p.span.start < start + (renderItems [] (xs ++ i :: ys)).length := by
      have hbounds := ih h.2 hp
      rw [happend]
      exact ⟨by omega, hbounds.2⟩
    rw [cuts] at hp
    split at hp
    · exact hrest hp
    · rcases List.mem_cons.mp hp with rfl | hp
      · have hstart := @start_cut d trail xs ys start _ h.1
        rw [happend, renderItems_append, List.length_append]
        exact ⟨hstart.1, by omega⟩
      · exact hrest hp

/-- **The cuts stand in the order of their items.** -/
theorem pairwise_cuts {start : Nat} (h : ∀ i ∈ ys, i.content.render ≠ []) :
    (cuts d start trail ks xs ys).Pairwise fun a b => a.span.start < b.span.start := by
  induction ys generalizing xs with
  | nil => exact List.Pairwise.nil
  | cons i ys ih =>
    rw [List.forall_mem_cons] at h
    rw [cuts]
    split
    · exact ih h.2
    · refine List.pairwise_cons.mpr ⟨fun p hp => ?_, ih h.2⟩
      have hstart := @start_cut d trail xs ys start _ h.1
      have hlater := start_of_mem_cuts h.2 hp
      omega

/-- **Cuts that do not overlap are apart**, when the only item is not taken out. -/
theorem apart_of_pairwise {start : Nat} {items : List (Item Phrase)} (hone : ∀ i, items = [i] → stays ks i = true)
    (h : (cuts d start trail ks [] items).Pairwise fun a b => a.span.stop ≤ b.span.start) : Apart ks items := by
  match items with
  | [] => trivial
  | [i] => exact hone i rfl
  | ⟨gap, lead, p⟩ :: ⟨gap', lead', q⟩ :: rest =>
    intro hfirst
    by_contra hsecond
    rw [cuts, if_neg (ne_true_of_eq_false hfirst), cuts, if_neg hsecond] at h
    have hle := (List.pairwise_cons.mp h).1 _ List.mem_cons_self
    rw [cut, cut, removalSpan, List.nil_append, removalSpan] at hle
    simp only [List.length_append, List.length_cons] at hle
    omega

/-! ## What the object is then -/

variable {items : List (Item Phrase)}

/-- **The properties that are left** are those that stay. -/
theorem map_content_kept (h : Apart ks items) :
    (kept ks items).map Item.content = (items.filter (stays ks)).map Item.content := by
  match items with
  | [] => rfl
  | [i] =>
    rw [List.filter_cons_of_pos (show stays ks i = true from h)]
    rfl
  | i :: j :: rest =>
    rw [kept]
    cases hstays : stays ks i with
    | true => rw [if_pos rfl, List.filter_cons_of_pos hstays]
    | false =>
      rw [if_neg Bool.false_ne_true, List.filter_cons_of_neg (Bool.eq_false_iff.mp hstays),
        List.filter_cons_of_pos (h hstays), List.map_cons, List.map_cons]

theorem kept_eq_nil : kept ks items = [] ↔ items = [] := by
  match items with
  | [] => exact Iff.rfl
  | [i] => exact Iff.rfl
  | i :: j :: rest =>
    rw [kept]
    split <;> simp

/-- What holds of every item, and of an item in the place of another, holds of what is left. -/
theorem forall_mem_kept {P : Item Phrase → Prop} (h : ∀ i ∈ items, P i)
    (hmoved : ∀ i ∈ items, ∀ j ∈ items, P ⟨i.gap, i.lead, j.content⟩) : ∀ i ∈ kept ks items, P i := by
  match items with
  | [] => exact h
  | [i] => exact h
  | i :: j :: rest =>
    have hrest : ∀ k ∈ rest.filter (stays ks), P k := fun k hk =>
      h k (List.mem_cons_of_mem i (List.mem_cons_of_mem j (List.mem_filter.mp hk).1))
    rw [kept]
    split
    · refine List.forall_mem_cons.mpr ⟨h i List.mem_cons_self, fun k hk => ?_⟩
      exact h k (List.mem_cons_of_mem i (List.mem_filter.mp hk).1)
    · exact List.forall_mem_cons.mpr
        ⟨hmoved i List.mem_cons_self j (List.mem_cons_of_mem i List.mem_cons_self), hrest⟩

theorem shaped_kept (ks : List String) (h : (Phrase.group .object items trail).Shaped) :
    (Phrase.group .object (kept ks items) trail).Shaped := by
  cases h with
  | group htrail hfirst hblank hkind h =>
    refine .group htrail ?_ (forall_mem_kept hblank fun i hi _ _ => hblank i hi)
      (forall_mem_kept hkind fun _ _ j hj => hkind j hj) (forall_mem_kept h fun _ _ j hj => h j hj)
    match items with
    | [] => exact hfirst
    | [i] => exact hfirst
    | i :: j :: rest =>
      rw [kept]
      split
      · exact fun k hk => Option.some.inj hk ▸ hfirst i rfl
      · exact fun k hk => Option.some.inj hk ▸ hfirst i rfl

theorem readable_kept [Interpreter] (ks : List String) (h : (Phrase.group .object items trail).Readable) :
    (Phrase.group .object (kept ks items) trail).Readable := by
  rw [readable_group] at h ⊢
  exact forall_mem_kept h fun _ _ j hj => h j hj

theorem lastMember?_eq_find? (key : String) (items : List (Item Phrase)) :
    lastMember? key items = (items.map Item.content).reverse.find? fun p => p.key == (key : LooseText) := by
  rw [lastMember?, ← List.map_reverse, List.find?_map]
  rfl

/-- A key that stays finds what it found. -/
theorem lastMember?_kept_of_stays (h : Apart ks items) {k : String} (hk : k ∉ ks) :
    lastMember? k (kept ks items) = lastMember? k items := by
  rw [lastMember?_eq_find?, map_content_kept h, ← lastMember?_eq_find?, lastMember?, lastMember?,
    ← List.filter_reverse, List.find?_filter]
  refine congrArg _ (congrArg (List.find? · items.reverse) (funext fun i => ?_))
  by_cases hi : i.content.key = k
  · simp [stays, hi, hk, LooseText.ofString_inj]
  · simp [hi]

/-- A key that is taken out finds nothing. -/
theorem lastMember?_kept_of_removed (h : Apart ks items) {k : String} (hk : k ∈ ks) :
    lastMember? k (kept ks items) = none := by
  rw [lastMember?_eq_find?, map_content_kept h, ← lastMember?_eq_find?]
  refine lastMember?_eq_none.mpr fun i hi hkey => ?_
  have hstays := (List.mem_filter.mp hi).2
  rw [stays, hkey, List.contains_iff_mem.mpr (List.mem_map_of_mem hk)] at hstays
  cases hstays

/-! ## Cuts by key -/

/-- The edit that takes a key out of an object, with its offsets. -/
def removal (d : Document) (object : Node) (k : LooseText) : Placed :=
  let edit := (deletionEdit? d object k).getD (.delete (.single ⟨0, 0⟩))
  ⟨d.spanOf edit.range, edit⟩

theorem removalSpan_le {start : Nat} {i : Item Phrase} :
    (removalSpan start xs i ys trail).start ≤ (removalSpan start xs i ys trail).stop ∧
      (removalSpan start xs i ys trail).stop ≤
        start + (renderItems [] (xs ++ i :: ys)).length + trail.length := by
  obtain ⟨gap, lead, p⟩ := i
  cases xs with
  | cons x xs =>
    have happend : x :: xs ++ ⟨gap, lead, p⟩ :: ys = x :: xs ++ [⟨gap, lead, p⟩] ++ ys := by simp
    rw [removalSpan, happend, renderItems_append _ (x :: xs ++ _), renderItems_append _ (x :: xs)]
    simp only [List.length_append]
    omega
  | nil =>
    cases ys with
    | nil =>
      rw [removalSpan, Nat.add_assoc]
      exact ⟨Nat.le_add_right _ _, Nat.le_of_eq (Nat.add_assoc _ _ _).symm⟩
    | cons next ys =>
      obtain ⟨gap', lead', q⟩ := next
      rw [removalSpan, renderItems_singleton, List.nil_append, renderItems_cons, renderItems_cons [','],
        renderItems_singleton, renderItems_singleton]
      simp only [List.length_append, List.length_nil]
      omega

/-- **The cut of a key** is that of its item. -/
theorem removal_eq {front back : List Char} {i : Item Phrase}
    (htext : d.content.toList = front ++ (Phrase.group .object (xs ++ i :: ys) trail).render ++ back)
    (hmember : i.content.isMember = true) (hys : ∀ j ∈ ys, j.content.key ≠ i.content.key) :
    removal d ((Phrase.group .object (xs ++ i :: ys) trail).node front.length) i.content.key =
      cut d (front.length + 1) trail xs i ys := by
  have hle := @removalSpan_le trail xs ys (front.length + 1) i
  have hlength : (removalSpan (front.length + 1) xs i ys trail).stop ≤ d.content.toList.length := by
    rw [htext, render_group]
    simp only [List.length_append, List.length_cons]
    omega
  rw [removal, deletionEdit?_node d front.length hmember rfl hys, Option.getD_some]
  exact congrArg (Placed.mk · _) (d.spanOf_rangeOf hle.1 hlength)

/-- The cuts are those of the keys of the items that are taken out. -/
theorem cuts_eq_map {front back : List Char}
    (htext : d.content.toList = front ++ (Phrase.group .object (xs ++ ys) trail).render ++ back)
    (hmembers : ∀ i ∈ ys, i.content.isMember = true)
    (honce : ∀ k ∈ ks, ((xs ++ ys).map fun i => i.content.key).count (k : LooseText) = 1) :
    cuts d (front.length + 1) trail ks xs ys =
      ((ys.filter fun i => !stays ks i).map fun i => i.content.key).map
        (removal d ((Phrase.group .object (xs ++ ys) trail).node front.length)) := by
  induction ys generalizing xs with
  | nil => rfl
  | cons i ys ih =>
    rw [List.forall_mem_cons] at hmembers
    have happend : xs ++ i :: ys = xs ++ [i] ++ ys := by rw [List.append_assoc, List.singleton_append]
    have hrest := @ih (xs ++ [i]) (happend ▸ htext) hmembers.2 (happend ▸ honce)
    rw [← happend] at hrest
    rw [cuts]
    cases hstays : stays ks i with
    | true => rw [if_pos rfl, hrest, List.filter_cons_of_neg (by simp [hstays])]
    | false =>
      have hys : ∀ j ∈ ys, j.content.key ≠ i.content.key := by
        intro j hj heq
        obtain ⟨k, hk, hkey⟩ : ∃ k ∈ ks, LooseText.ofString k = i.content.key := by simpa [stays] using hstays
        have hcount := honce _ hk
        rw [hkey, List.map_append, List.count_append, List.map_cons, List.count_cons_self] at hcount
        have hmem : i.content.key ∈ ys.map fun i => i.content.key := List.mem_map.mpr ⟨j, hj, heq⟩
        have hpos := List.count_pos_iff.mpr hmem
        omega
      rw [if_neg Bool.false_ne_true, hrest, List.filter_cons_of_pos (by simp [hstays]), List.map_cons, List.map_cons,
        removal_eq htext hmembers.1 hys]

/-- The keys of the items that are taken out are the keys to take out. -/
theorem keys_perm (hks : ks.Nodup) (honce : ∀ k ∈ ks, (items.map fun i => i.content.key).count (k : LooseText) = 1) :
    ((items.filter fun i => !stays ks i).map fun i => i.content.key).Perm (ks.map LooseText.ofString) := by
  have hfilter : (items.filter fun i => !stays ks i).map (fun i => i.content.key) =
      (items.map fun i => i.content.key).filter fun k => (ks.map LooseText.ofString).contains k := by
    rw [List.filter_map]
    refine congrArg _ (List.filter_congr fun i _ => ?_)
    rw [stays, Bool.not_not]
    rfl
  rw [hfilter, List.perm_iff_count]
  intro k
  by_cases hk : k ∈ ks.map LooseText.ofString
  · rw [List.count_filter (List.contains_iff_mem.mpr hk), List.count_eq_one_of_mem (hks.map ofString_injective) hk]
    obtain ⟨name, hname, rfl⟩ := List.mem_map.mp hk
    exact honce name hname
  · rw [List.count_eq_zero_of_not_mem hk]
    exact List.count_eq_zero_of_not_mem fun hmem =>
      hk (List.contains_iff_mem.mp (List.mem_filter.mp hmem).2)

/-- **The keys to take out, cut in the order of the items**, are the cuts. -/
theorem map_removal_perm {front back : List Char}
    (htext : d.content.toList = front ++ (Phrase.group .object items trail).render ++ back)
    (hmembers : ∀ i ∈ items, i.content.isMember = true) (hks : ks.Nodup)
    (honce : ∀ k ∈ ks, (items.map fun i => i.content.key).count (k : LooseText) = 1) :
    (ks.map fun k : String => removal d ((Phrase.group .object items trail).node front.length) k).Perm
      (cuts d (front.length + 1) trail ks [] items) := by
  rw [@cuts_eq_map _ _ _ [] _ _ _ htext hmembers honce]
  have hperm := (keys_perm hks honce).map (removal d ((Phrase.group .object items trail).node front.length))
  rw [List.map_map (l := ks)] at hperm
  exact hperm.symm

end SlotEdit.Json
