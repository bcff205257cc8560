import SlotEdit.Syntax.Node
import SlotEdit.Proofs.Text.Offsets

/-!
# Proofs/Syntax/WellNested — spans in order inside a span

`Span.InOrder` says that spans follow each other between two offsets.  A tree is *well nested* when
the spans of the children of each of its nodes are in order inside the node's own.  In a text that
holds the root, every node of such a tree is then in place (`Node.WellNested.inPlace`): its rows and
columns are those of its offsets, and they nest as the offsets do.
-/

namespace SlotEdit

/-! ## Spans in order -/

/-- **Spans that follow each other** between two offsets; each may be empty. -/
def Span.InOrder (start stop : Nat) : List Span → Prop
  | [] => start ≤ stop
  | s :: rest => start ≤ s.start ∧ s.start ≤ s.stop ∧ Span.InOrder s.stop stop rest

namespace Span.InOrder

instance decidable : (start stop : Nat) → (ss : List Span) → Decidable (Span.InOrder start stop ss)
  | start, stop, [] => inferInstanceAs (Decidable (start ≤ stop))
  | start, stop, s :: rest =>
    have := decidable s.stop stop rest
    inferInstanceAs (Decidable (start ≤ s.start ∧ s.start ≤ s.stop ∧ Span.InOrder s.stop stop rest))

variable {a b c : Nat} {ss ts : List Span} {s : Span}

theorem le (h : Span.InOrder a b ss) : a ≤ b := by
  induction ss generalizing a with
  | nil => exact h
  | cons s ss ih => exact h.1.trans (h.2.1.trans (ih h.2.2))

/-- More room on both sides. -/
theorem widen (h : Span.InOrder a b ss) {a' b' : Nat} (ha : a' ≤ a) (hb : b ≤ b') : Span.InOrder a' b' ss := by
  induction ss generalizing a a' with
  | nil => exact ha.trans (Nat.le_trans h hb)
  | cons s ss ih => exact ⟨ha.trans h.1, h.2.1, ih h.2.2 (Nat.le_refl _)⟩

theorem append (hs : Span.InOrder a b ss) (ht : Span.InOrder b c ts) : Span.InOrder a c (ss ++ ts) := by
  induction ss generalizing a with
  | nil => exact ht.widen hs (Nat.le_refl c)
  | cons s ss ih => exact ⟨hs.1, hs.2.1, ih hs.2.2⟩

theorem of_append (h : Span.InOrder a c (ss ++ s :: ts)) :
    Span.InOrder a s.start ss ∧ s.start ≤ s.stop ∧ Span.InOrder s.stop c ts := by
  induction ss generalizing a with
  | nil => exact h
  | cons s' ss ih =>
    obtain ⟨hss, hs, hts⟩ := ih h.2.2
    exact ⟨⟨h.1, h.2.1, hss⟩, hs, hts⟩

/-- Every span stands between the two offsets. -/
theorem mem (h : Span.InOrder a b ss) (hs : s ∈ ss) : a ≤ s.start ∧ s.start ≤ s.stop ∧ s.stop ≤ b := by
  obtain ⟨front, back, rfl⟩ := List.append_of_mem hs
  obtain ⟨hfront, hle, hback⟩ := of_append h
  exact ⟨hfront.le, hle, hback.le⟩

/-- Some of the spans are in order as well. -/
theorem sublist (h : Span.InOrder a b ts) (hsub : ss.Sublist ts) : Span.InOrder a b ss := by
  induction hsub generalizing a with
  | slnil => exact h
  | cons s _ ih => exact (ih h.2.2).widen (h.1.trans h.2.1) (Nat.le_refl b)
  | cons_cons s _ ih => exact ⟨h.1, h.2.1, ih h.2.2⟩

/-- Each span ends where the next one starts or before. -/
theorem pairwise (h : Span.InOrder a b ss) : ss.Pairwise fun s t => s.stop ≤ t.start := by
  induction ss generalizing a with
  | nil => exact .nil
  | cons s ss ih => exact .cons (fun t ht => (h.2.2.mem ht).1) (ih h.2.2)

end Span.InOrder

theorem Span.inOrder_singleton {a b : Nat} {s : Span} (ha : a ≤ s.start) (hs : s.start ≤ s.stop) (hb : s.stop ≤ b) :
    Span.InOrder a b [s] := ⟨ha, hs, hb⟩

/-! ## Trees -/

namespace Node

theorem walkAll_append (ns ms : List Node) : walkAll (ns ++ ms) = walkAll ns ++ walkAll ms := by
  induction ns with
  | nil => rw [walkAll]; rfl
  | cons n ns ih => rw [List.cons_append, walkAll, walkAll, ih, List.append_assoc]

theorem mem_walkAll {n : Node} {ns : List Node} : n ∈ walkAll ns ↔ ∃ m ∈ ns, n ∈ m.walk := by
  induction ns with
  | nil => rw [walkAll]; exact ⟨fun h => (nomatch h), fun ⟨_, h, _⟩ => (nomatch h)⟩
  | cons m ns ih => simp only [walkAll, List.mem_append, ih, List.mem_cons, exists_eq_or_imp]

theorem forall_mem_walk {P : Node → Prop} {form : Form} {s : Span} {children : List Node} :
    (∀ m ∈ (mk form s children).walk, P m) ↔ P (mk form s children) ∧ ∀ c ∈ children, ∀ m ∈ c.walk, P m := by
  rw [walk, List.forall_mem_cons]
  refine and_congr_right fun _ => ⟨fun h c hc m hm => h m (mem_walkAll.mpr ⟨c, hc, hm⟩), fun h m hm => ?_⟩
  obtain ⟨c, hc, hm⟩ := mem_walkAll.mp hm
  exact h c hc m hm

mutual
/-- What is inside a node inside a tree is inside the tree. -/
theorem walk_subset {m : Node} : (n : Node) → m ∈ n.walk → m.walk ⊆ n.walk
  | .mk form s children, h => by
    rw [walk] at h ⊢
    rcases List.mem_cons.mp h with rfl | h
    · rw [walk]
      exact List.Subset.refl _
    · exact fun k hk => List.mem_cons_of_mem _ (walk_subset_walkAll children h hk)

theorem walk_subset_walkAll {m : Node} : (ns : List Node) → m ∈ walkAll ns → m.walk ⊆ walkAll ns
  | [], h => nomatch h
  | n :: rest, h => fun k hk => by
    rw [walkAll, List.mem_append] at h ⊢
    exact h.imp (fun h => walk_subset n h hk) fun h => walk_subset_walkAll rest h hk
end

/-- **A tree in which every node encloses its children**, one behind the other. -/
def WellNested (n : Node) : Prop :=
  ∀ m ∈ n.walk, Span.InOrder m.span.start m.span.stop (m.children.map span)

theorem wellNested_mk {form : Form} {s : Span} {children : List Node} :
    WellNested (.mk form s children) ↔
      Span.InOrder s.start s.stop (children.map span) ∧ ∀ c ∈ children, c.WellNested :=
  forall_mem_walk

theorem wellNested_leaf {form : Form} {s : Span} (h : s.start ≤ s.stop) : WellNested (.mk form s []) :=
  wellNested_mk.mpr ⟨h, fun _ hc => nomatch hc⟩

namespace WellNested

variable {n : Node}

theorem inOrder (h : n.WellNested) : Span.InOrder n.span.start n.span.stop (n.children.map span) := by
  obtain ⟨form, s, children⟩ := n
  exact (wellNested_mk.mp h).1

theorem start_le_stop (h : n.WellNested) : n.span.start ≤ n.span.stop := h.inOrder.le

theorem of_mem_children (h : n.WellNested) {c : Node} (hc : c ∈ n.children) : c.WellNested := by
  obtain ⟨form, s, children⟩ := n
  exact (wellNested_mk.mp h).2 c hc

theorem of_mem_walk (h : n.WellNested) {m : Node} (hm : m ∈ n.walk) : m.WellNested :=
  fun k hk => h k (walk_subset n hm hk)

/-- No node of a tree sticks out of its root. -/
theorem stop_le (h : n.WellNested) : ∀ m ∈ n.walk, m.span.stop ≤ n.span.stop := by
  induction n using walk.induct (motive_2 := fun ns =>
    (∀ c ∈ ns, c.WellNested) → ∀ m ∈ walkAll ns, ∃ c ∈ ns, m.span.stop ≤ c.span.stop) with
  | case1 form s children ih =>
    obtain ⟨horder, hchildren⟩ := wellNested_mk.mp h
    rw [walk, List.forall_mem_cons]
    refine ⟨Nat.le_refl _, fun m hm => ?_⟩
    obtain ⟨c, hc, hle⟩ := ih hchildren m hm
    exact hle.trans (horder.mem (List.mem_map_of_mem hc)).2.2
  | case2 hnested m hm => exact nomatch hm
  | case3 c ns ihc ihns hnested m hm =>
    rw [walkAll, List.mem_append] at hm
    rw [List.forall_mem_cons] at hnested
    rcases hm with hm | hm
    · exact ⟨c, List.mem_cons_self, ihc hnested.1 m hm⟩
    · obtain ⟨c', hc', hle⟩ := ihns hnested.2 m hm
      exact ⟨c', List.mem_cons_of_mem c hc', hle⟩

end WellNested

/-! ## Rows and columns -/

/-- **A node in its place in a text**: its offsets are in order and inside the text, its rows and
columns are those of its offsets, and both enclose those of its children, each of which ends before
the next one starts. -/
structure InPlace (text : String) (n : Node) : Prop where
  start_le_stop : n.span.start ≤ n.span.stop
  stop_le_length : n.span.stop ≤ text.length
  start_range : (n.range (.ofText text)).start = (LineTable.ofText text).positionAt n.span.start
  stop_range : (n.range (.ofText text)).stop = (LineTable.ofText text).positionAt n.span.stop
  offsets : ∀ c ∈ n.children, n.span.start ≤ c.span.start ∧ c.span.stop ≤ n.span.stop
  ranges : ∀ c ∈ n.children, (n.range (.ofText text)).contains (c.range (.ofText text)) = true
  siblings : n.children.Pairwise fun a b => a.span.stop ≤ b.span.start

/-- The rows and columns of offsets in order are in order. -/
theorem range_eq {n : Node} (text : String) (h : n.span.start ≤ n.span.stop) :
    n.range (.ofText text) = ⟨(LineTable.ofText text).positionAt n.span.start,
      (LineTable.ofText text).positionAt n.span.stop,
      (LineTable.sound_ofList text.toList).positionAt_le_positionAt (Int.ofNat_le.mpr h)⟩ :=
  TextRange.between_of_le _

/-- **Every node of a well-nested tree is in place.** -/
theorem WellNested.inPlace {root : Node} {text : String} (h : root.WellNested)
    (hroot : root.span.stop ≤ text.length) : ∀ n ∈ root.walk, n.InPlace text := by
  intro n hn
  have horder := h n hn
  have hmem {c : Node} (hc : c ∈ n.children) := horder.mem (List.mem_map_of_mem hc)
  have hmono {a b : Nat} (hab : a ≤ b) :
      (LineTable.ofText text).positionAt a ≤ (LineTable.ofText text).positionAt b :=
    (LineTable.sound_ofList text.toList).positionAt_le_positionAt (Int.ofNat_le.mpr hab)
  refine ⟨horder.le, (h.stop_le n hn).trans hroot, ?_, ?_, fun c hc => ⟨(hmem hc).1, (hmem hc).2.2⟩,
    fun c hc => ?_, List.pairwise_map.mp horder.pairwise⟩
  · rw [range_eq text horder.le]
  · rw [range_eq text horder.le]
  · rw [range_eq text horder.le, range_eq text (hmem hc).2.1]
    exact decide_eq_true ⟨hmono (hmem hc).1, hmono (hmem hc).2.2⟩

end Node

end SlotEdit
