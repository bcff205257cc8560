import Mathlib.Order.Monotone.Basic
import SlotEdit.Proofs.Results
import SlotEdit.Proofs.Syntax.Readings

/-!
# Proofs/Syntax/Converted — what nodes made of concrete trees keep

A concrete tree whose offsets are counted otherwise is as well nested as before, if an offset behind
another does not come to stand in front of it (`GrammarTree.WellNested.mapOffsets`).  Nodes made of
concrete trees one by one, each inside its own (`Node.Inside`), stand in the order of these.
-/

namespace SlotEdit

/-! ## Offsets counted otherwise -/

theorem Span.InOrder.mapOffsets {f : Nat → Nat} (hf : Monotone f) {a b : Nat} {ss : List Span}
    (h : Span.InOrder a b ss) : Span.InOrder (f a) (f b) (ss.map fun s => ⟨f s.start, f s.stop⟩) := by
  induction ss generalizing a with
  | nil => exact hf h
  | cons s ss ih => exact ⟨hf h.1, hf h.2.1, ih h.2.2⟩

namespace GrammarTree

theorem mapOffsetsAll_eq_map (f : Nat → Nat) (ts : List GrammarTree) :
    mapOffsetsAll f ts = ts.map (mapOffsets f) := by
  induction ts with
  | nil => rfl
  | cons t ts ih => rw [mapOffsetsAll, ih, List.map_cons]

theorem span_mapOffsets (f : Nat → Nat) (t : GrammarTree) :
    (t.mapOffsets f).span = ⟨f t.span.start, f t.span.stop⟩ := by
  cases t
  rfl

/-- **A tree stays well nested** when its offsets are counted otherwise. -/
theorem WellNested.mapOffsets {f : Nat → Nat} (hf : Monotone f) {shape : GrammarTree → Prop} {t : GrammarTree}
    (h : t.WellNested fun s => shape (s.mapOffsets f)) : (t.mapOffsets f).WellNested shape := by
  induction t using induct with
  | node construct named role span ts ih =>
    obtain ⟨⟨horder, hshape⟩, hchildren⟩ := wellNested_node.mp h
    rw [GrammarTree.mapOffsets] at hshape ⊢
    refine wellNested_node.mpr ⟨⟨?_, hshape⟩, ?_⟩
    · have hspans : (ts.map (GrammarTree.mapOffsets f)).map GrammarTree.span =
          (ts.map GrammarTree.span).map fun s => ⟨f s.start, f s.stop⟩ := by
        rw [List.map_map, List.map_map]
        exact List.map_congr_left fun t _ => span_mapOffsets f t
      rw [mapOffsetsAll_eq_map, hspans]
      exact horder.mapOffsets hf
    · rw [mapOffsetsAll_eq_map, List.forall_mem_map]
      exact fun t ht => ih t ht (hchildren t ht)

end GrammarTree

/-! ## Nodes inside concrete trees -/

/-- **A node on some of the characters of a concrete tree.** -/
structure Node.Inside (t : GrammarTree) (n : Node) : Prop where
  wellNested : n.WellNested
  start_le : t.span.start ≤ n.span.start
  stop_le : n.span.stop ≤ t.span.stop

/-- **The nodes of trees in order are in order.** -/
theorem Node.inOrder_of_mapM {ε : Type} {make : GrammarTree → Except ε Node} {ts : List GrammarTree} {ns : List Node}
    {a b : Nat} (hmake : ∀ t ∈ ts, ∀ n, make t = .ok n → Inside t n)
    (horder : Span.InOrder a b (ts.map GrammarTree.span)) (h : ts.mapM make = .ok ns) :
    Span.InOrder a b (ns.map span) ∧ ∀ n ∈ ns, n.WellNested := by
  induction ts generalizing a ns with
  | nil =>
    obtain rfl := mapM_nil_eq_ok.mp h
    exact ⟨horder, nofun⟩
  | cons t ts ih =>
    obtain ⟨n, ns, hn, hns, rfl⟩ := mapM_cons_eq_ok.mp h
    rw [List.forall_mem_cons] at hmake
    obtain ⟨hstart, -, hrest⟩ := horder
    have hinside := hmake.1 n hn
    obtain ⟨hbehind, hnested⟩ := ih hmake.2 hrest hns
    exact ⟨⟨hstart.trans hinside.start_le, hinside.wellNested.start_le_stop, hbehind.widen hinside.stop_le (Nat.le_refl b)⟩,
      List.forall_mem_cons.mpr ⟨hinside.wellNested, hnested⟩⟩

end SlotEdit
