import Mathlib.Data.List.Pairwise
import SlotEdit.Syntax.GrammarTree
import SlotEdit.Proofs.Syntax.WellNested
import SlotEdit.Proofs.Text.Cursors

/-!
# Proofs/Syntax/Readings — what a reader lays between two cursors

A reader goes from one cursor to another and gives the trees it has read on the way.  `Laid` says
that these are well nested and stand in order between the two cursors.  Readings one behind the
other are laid as one, and a node over all of a reading is laid where its children are; every reader
that is put together this way lays what it reads.
-/

namespace SlotEdit

namespace GrammarTree

/-- **Induction on a tree**: what passes from the children of every node to the node holds. -/
theorem induct {P : GrammarTree → Prop} (node : ∀ construct named role span children,
    (∀ t ∈ children, P t) → P (.node construct named role span children)) (t : GrammarTree) : P t := by
  obtain ⟨construct, named, role, span, children⟩ := t
  exact node construct named role span children fun t ht => induct node t
termination_by sizeOf t
decreasing_by
  have hlt := List.sizeOf_lt_of_mem ht
  rw [GrammarTree.node.sizeOf_spec]
  omega

section

variable (role : String) (t : GrammarTree)

theorem construct_withRole : (t.withRole role).construct = t.construct := by
  cases t
  rfl

theorem role_withRole : (t.withRole role).role = role := by
  cases t
  rfl

end

theorem mem_walkAll {ts : List GrammarTree} {s : GrammarTree} : s ∈ walkAll ts ↔ ∃ t ∈ ts, s ∈ t.walk := by
  induction ts with
  | nil => rw [walkAll]; exact ⟨fun h => (nomatch h), fun ⟨_, h, _⟩ => (nomatch h)⟩
  | cons t ts ih => simp only [walkAll, List.mem_append, ih, List.mem_cons, exists_eq_or_imp]

theorem forall_mem_walk {P : GrammarTree → Prop} {construct role : String} {named : Bool} {span : Span}
    {ts : List GrammarTree} : (∀ s ∈ (node construct named role span ts).walk, P s) ↔
      P (node construct named role span ts) ∧ ∀ t ∈ ts, ∀ s ∈ t.walk, P s := by
  rw [walk, List.forall_mem_cons]
  refine and_congr_right fun _ => ⟨fun h t ht s hs => h s (mem_walkAll.mpr ⟨t, ht, hs⟩), fun h s hs => ?_⟩
  obtain ⟨t, ht, hs⟩ := mem_walkAll.mp hs
  exact h t ht s hs

theorem mem_walk {s t : GrammarTree} : s ∈ t.walk ↔ s = t ∨ ∃ u ∈ t.children, s ∈ u.walk := by
  obtain ⟨construct, named, role, span, ts⟩ := t
  rw [walk, List.mem_cons, mem_walkAll]
  rfl

theorem mem_walk_self (t : GrammarTree) : t ∈ t.walk := mem_walk.mpr (.inl rfl)

theorem mem_walk_of_mem_children {s t : GrammarTree} (h : s ∈ t.children) : s ∈ t.walk :=
  mem_walk.mpr (.inr ⟨s, h, s.mem_walk_self⟩)

/-- What is inside a node inside a tree is inside the tree. -/
theorem walk_subset {s t : GrammarTree} (h : s ∈ t.walk) : s.walk ⊆ t.walk := by
  induction t using induct with
  | node construct named role span ts ih =>
    rcases mem_walk.mp h with rfl | ⟨u, hu, hs⟩
    · exact List.Subset.refl _
    · exact fun r hr => mem_walk.mpr (.inr ⟨u, hu, ih u hu hs hr⟩)

/-- **A concrete tree in which every node encloses its children**, one behind the other, and has some
property of its own. -/
def WellNested (shape : GrammarTree → Prop) (t : GrammarTree) : Prop :=
  ∀ s ∈ t.walk, Span.InOrder s.span.start s.span.stop (s.children.map span) ∧ shape s

instance (shape : GrammarTree → Prop) [DecidablePred shape] (t : GrammarTree) : Decidable (t.WellNested shape) :=
  inferInstanceAs (Decidable (∀ s ∈ _, _ ∧ shape s))

variable {shape : GrammarTree → Prop}

theorem wellNested_node {construct role : String} {named : Bool} {span : Span} {ts : List GrammarTree} :
    WellNested shape (.node construct named role span ts) ↔
      (Span.InOrder span.start span.stop (ts.map GrammarTree.span) ∧ shape (.node construct named role span ts)) ∧
        ∀ t ∈ ts, WellNested shape t :=
  forall_mem_walk

theorem WellNested.inOrder {t : GrammarTree} (h : t.WellNested shape) :
    Span.InOrder t.span.start t.span.stop (t.children.map span) := by
  obtain ⟨construct, named, role, span, ts⟩ := t
  exact (wellNested_node.mp h).1.1

theorem WellNested.property {t : GrammarTree} (h : t.WellNested shape) : shape t := by
  obtain ⟨construct, named, role, span, ts⟩ := t
  exact (wellNested_node.mp h).1.2

theorem WellNested.of_mem_children {t s : GrammarTree} (h : t.WellNested shape) (hs : s ∈ t.children) :
    s.WellNested shape := by
  obtain ⟨construct, named, role, span, ts⟩ := t
  exact (wellNested_node.mp h).2 s hs

/-- What every node of a tree has is weakened for all. -/
theorem WellNested.mono {shape' : GrammarTree → Prop} {t : GrammarTree} (h : t.WellNested shape)
    (hshape : ∀ ⦃s⦄, shape s → shape' s) : t.WellNested shape' := fun s hs => ⟨(h s hs).1, hshape (h s hs).2⟩

theorem WellNested.of_mem_walk {s t : GrammarTree} (h : t.WellNested shape) (hs : s ∈ t.walk) : s.WellNested shape :=
  fun r hr => h r (walk_subset hs hr)

/-- No node of a tree sticks out of it. -/
theorem WellNested.span_le {t : GrammarTree} (h : t.WellNested shape) : ∀ s ∈ t.walk,
    t.span.start ≤ s.span.start ∧ s.span.stop ≤ t.span.stop := by
  induction t using induct with
  | node construct named role span ts ih =>
    intro s hs
    rcases mem_walk.mp hs with rfl | ⟨u, hu, hs⟩
    · exact ⟨Nat.le_refl _, Nat.le_refl _⟩
    · obtain ⟨hstart, -, hstop⟩ := h.inOrder.mem (List.mem_map_of_mem hu)
      obtain ⟨hstart', hstop'⟩ := ih u hu (h.of_mem_children hu) s hs
      exact ⟨hstart.trans hstart', hstop'.trans hstop⟩

/-- **Two nodes of a tree**: one is inside the other, or one ends where the other starts or before. -/
theorem WellNested.nested_or_apart {t : GrammarTree} (h : t.WellNested shape) {r s : GrammarTree} (hr : r ∈ t.walk)
    (hs : s ∈ t.walk) : r ∈ s.walk ∨ s ∈ r.walk ∨ r.span.stop ≤ s.span.start ∨ s.span.stop ≤ r.span.start := by
  induction t using induct with
  | node construct named role span ts ih =>
    rcases mem_walk.mp hr with rfl | ⟨u, hu, hru⟩
    · exact .inr (.inl hs)
    rcases mem_walk.mp hs with rfl | ⟨v, hv, hsv⟩
    · exact .inl hr
    by_cases huv : u = v
    · subst huv
      exact ih u hu (h.of_mem_children hu) hru hsv
    · -- the children the two are in follow each other
      have hpairwise : ts.Pairwise fun u v => u.span.stop ≤ v.span.start ∨ v.span.stop ≤ u.span.start :=
        (List.pairwise_map.mp h.inOrder.pairwise).imp .inl
      have : Std.Symm fun u v : GrammarTree => u.span.stop ≤ v.span.start ∨ v.span.stop ≤ u.span.start :=
        ⟨fun _ _ => Or.symm⟩
      have hru := (h.of_mem_children hu).span_le r hru
      have hsv := (h.of_mem_children hv).span_le s hsv
      refine .inr (.inr ((hpairwise.forall hu hv huv).imp (fun hle => ?_) fun hle => ?_))
      · exact hru.2.trans (hle.trans hsv.1)
      · exact hsv.2.trans (hle.trans hru.1)

end GrammarTree

/-- **Trees laid between two cursors**: the second stands further along, and the trees are well nested
and in order between them. -/
structure Laid (shape : GrammarTree → Prop) (c : Cursor) (ts : List GrammarTree) (c' : Cursor) : Prop where
  reaches : c.Reaches c'
  inOrder : Span.InOrder c.offset c'.offset (ts.map GrammarTree.span)
  wellNested : ∀ t ∈ ts, t.WellNested shape

namespace Laid

variable {shape : GrammarTree → Prop} {a b c : Cursor} {t : GrammarTree} {ts us : List GrammarTree}

theorem nil (h : a.Reaches b) : Laid shape a [] b := ⟨h, h.offset_le, fun _ ht => nomatch ht⟩

theorem append (ht : Laid shape a ts b) (hu : Laid shape b us c) : Laid shape a (ts ++ us) c where
  reaches := ht.reaches.trans hu.reaches
  inOrder := List.map_append ▸ ht.inOrder.append hu.inOrder
  wellNested := List.forall_mem_append.mpr ⟨ht.wellNested, hu.wellNested⟩

theorem cons (ht : Laid shape a [t] b) (hu : Laid shape b us c) : Laid shape a (t :: us) c := ht.append hu

/-- What is laid behind a cursor is laid behind every cursor before that one. -/
theorem behind (h : a.Reaches b) (ht : Laid shape b ts c) : Laid shape a ts c := (nil h).append ht

/-- Some of the trees are laid as well. -/
theorem sublist (ht : Laid shape a ts b) (hsub : us.Sublist ts) : Laid shape a us b where
  reaches := ht.reaches
  inOrder := ht.inOrder.sublist (hsub.map _)
  wellNested u hu := ht.wellNested u (hsub.subset hu)

/-- A node of any kind over all that is laid. -/
theorem node (h : Laid shape a ts b) {construct role : String} {named : Bool}
    (hshape : shape (.node construct named role ⟨a.offset, b.offset⟩ ts)) :
    Laid shape a [.node construct named role ⟨a.offset, b.offset⟩ ts] b where
  reaches := h.reaches
  inOrder := Span.inOrder_singleton (Nat.le_refl _) h.reaches.offset_le (Nat.le_refl _)
  wellNested := List.forall_mem_singleton.mpr
    (GrammarTree.wellNested_node.mpr ⟨⟨h.inOrder, hshape⟩, h.wellNested⟩)

end Laid

end SlotEdit
