import SlotEdit.Pattern.TreePattern
import SlotEdit.Proofs.Syntax.Paths
import SlotEdit.Proofs.Syntax.WellNested

/-!
# Proofs/Pattern/Searching — a search finds what is not cut off, in pre-order

In the lexicographic order of their paths, the nodes of a tree are in pre-order (`pairwise_reached`,
`map_snd_reached`).  A pattern finds a node where it holds, unless it holds at a node above whose
descendants it skips (`Finds`).  The search with a stack lists exactly these nodes, each once and in
pre-order (`search_lists`).
-/

namespace SlotEdit

namespace Node

/-! ## The nodes of a tree with their paths -/

mutual
/-- **The nodes of a tree with the paths that reach them**, parents first. -/
def reached : Node → List (List Nat × Node)
  | .mk f s cs => ([], .mk f s cs) :: reachedFrom 0 cs

/-- The nodes of trees that are children from an index on. -/
def reachedFrom (i : Nat) : List Node → List (List Nat × Node)
  | [] => []
  | n :: rest => n.reached.map (fun x => (i :: x.1, x.2)) ++ reachedFrom (i + 1) rest
end

theorem mem_reachedFrom {i : Nat} {ns : List Node} {x : List Nat × Node} :
    x ∈ reachedFrom i ns ↔ ∃ j path m, x = ((i + j) :: path, m) ∧ ∃ c ∈ ns[j]?, (path, m) ∈ c.reached := by
  induction ns generalizing i with
  | nil => simp [reachedFrom]
  | cons n ns ih =>
    rw [reachedFrom, List.mem_append, List.mem_map, ih]
    constructor
    · rintro (⟨⟨path, m⟩, hx, rfl⟩ | ⟨j, path, m, rfl, c, hc, hx⟩)
      · exact ⟨0, path, m, rfl, n, rfl, hx⟩
      · exact ⟨j + 1, path, m, by rw [Nat.add_right_comm, Nat.add_assoc], c, hc, hx⟩
    · rintro ⟨j | j, path, m, rfl, c, hc, hx⟩
      · exact .inl ⟨_, Option.some.inj hc ▸ hx, rfl⟩
      · exact .inr ⟨j, path, m, by rw [Nat.add_right_comm, Nat.add_assoc], c, hc, hx⟩

/-- A node stands behind the path that reaches it, and behind no other. -/
theorem mem_reached {root m : Node} {path : List Nat} : (path, m) ∈ root.reached ↔ root.follow path = some m := by
  induction path generalizing root with
  | nil =>
    obtain ⟨f, s, cs⟩ := root
    rw [reached, List.mem_cons, mem_reachedFrom, follow_nil, Option.some.injEq]
    simp [eq_comm]
  | cons i path ih =>
    obtain ⟨f, s, cs⟩ := root
    rw [reached, List.mem_cons, mem_reachedFrom, follow_cons, Option.bind_eq_some_iff]
    constructor
    · rintro (h | ⟨j, rest, m', h, c, hc, hm⟩)
      · exact nomatch (Prod.mk.inj h).1
      · obtain ⟨hpath, rfl⟩ := Prod.mk.inj h
        obtain ⟨rfl, rfl⟩ := List.cons.inj hpath
        exact ⟨c, (Nat.zero_add j).symm ▸ hc, ih.mp hm⟩
    · rintro ⟨c, hc, hm⟩
      exact .inr ⟨i, path, m, by rw [Nat.zero_add], c, hc, ih.mpr hm⟩

/-- **The paths are in lexicographic order**: each is there once. -/
theorem pairwise_reached (root : Node) : root.reached.Pairwise fun x y => x.1 < y.1 := by
  induction root using reached.induct
      (motive_2 := fun i ns => (reachedFrom i ns).Pairwise fun x y => x.1 < y.1) with
  | case1 f s cs ih =>
    rw [reached, List.pairwise_cons]
    refine ⟨fun x hx => ?_, ih⟩
    obtain ⟨j, path, m, rfl, -⟩ := mem_reachedFrom.mp hx
    exact List.nil_lt_cons _ _
  | case2 i => exact .nil
  | case3 i n ns ihn ihns =>
    rw [reachedFrom, List.pairwise_append]
    refine ⟨List.pairwise_map.mpr (ihn.imp fun h => List.cons_lt_cons_iff.mpr (.inr ⟨rfl, h⟩)), ihns, ?_⟩
    intro x hx y hy
    obtain ⟨x, -, rfl⟩ := List.mem_map.mp hx
    obtain ⟨j, path, m, rfl, -⟩ := mem_reachedFrom.mp hy
    exact List.cons_lt_cons_iff.mpr (.inl (by omega))

/-- **In the order of their paths, the nodes are in pre-order.** -/
theorem map_snd_reached (root : Node) : root.reached.map Prod.snd = root.walk := by
  induction root using reached.induct
      (motive_2 := fun i ns => (reachedFrom i ns).map Prod.snd = walkAll ns) with
  | case1 f s cs ih => rw [reached, walk, List.map_cons, ih]
  | case2 i => rfl
  | case3 i n ns ihn ihns => rw [reachedFrom, walkAll, List.map_append, List.map_map, ihns, ← ihn]; rfl

/-! ## Where the nodes of a well-nested tree start -/

/-- What a path reaches stands inside the root. -/
theorem WellNested.of_follow {root m : Node} {path : List Nat} (h : root.WellNested) (hm : root.follow path = some m) :
    root.span.start ≤ m.span.start ∧ m.span.start ≤ m.span.stop ∧ m.span.stop ≤ root.span.stop := by
  induction path generalizing root with
  | nil =>
    obtain rfl := Option.some.inj ((follow_nil root).symm.trans hm)
    exact ⟨Nat.le_refl _, h.start_le_stop, Nat.le_refl _⟩
  | cons i path ih =>
    rw [follow_cons, Option.bind_eq_some_iff] at hm
    obtain ⟨c, hc, hm⟩ := hm
    have hmem := List.mem_of_getElem? hc
    obtain ⟨hstart, hle, hstop⟩ := ih (h.of_mem_children hmem) hm
    have hinside := h.inOrder.mem (List.mem_map_of_mem hmem)
    exact ⟨hinside.1.trans hstart, hle, hstop.trans hinside.2.2⟩

/-- **In pre-order, the nodes of a well-nested tree start one behind the other.** -/
theorem WellNested.start_le_start {root m m' : Node} {a b : List Nat} (h : root.WellNested) (hab : a < b)
    (hm : root.follow a = some m) (hm' : root.follow b = some m') : m.span.start ≤ m'.span.start := by
  induction a generalizing root b with
  | nil =>
    obtain rfl := Option.some.inj ((follow_nil root).symm.trans hm)
    exact (h.of_follow hm').1
  | cons i a ih =>
    cases b with
    | nil => exact absurd hab (List.not_lt_nil _)
    | cons j b =>
      rw [follow_cons, Option.bind_eq_some_iff] at hm hm'
      obtain ⟨c, hc, hm⟩ := hm
      obtain ⟨c', hc', hm'⟩ := hm'
      have hnested := h.of_mem_children (List.mem_of_getElem? hc)
      rcases List.cons_lt_cons_iff.mp hab with hij | ⟨rfl, hrest⟩
      · -- of two siblings, the first one ends before the second one starts
        obtain ⟨hi, rfl⟩ := List.getElem?_eq_some_iff.mp hc
        obtain ⟨hj, rfl⟩ := List.getElem?_eq_some_iff.mp hc'
        have happart : (root.children[i].span).stop ≤ (root.children[j].span).start :=
          List.pairwise_iff_getElem.mp (List.pairwise_map.mp h.inOrder.pairwise) i j hi hj hij
        have hfirst := hnested.of_follow hm
        have hsecond := (h.of_mem_children (List.mem_of_getElem? hc')).of_follow hm'
        omega
      · obtain rfl := Option.some.inj (hc.symm.trans hc')
        exact ih hnested hrest hm hm'

end Node

namespace TreePattern

variable {p : TreePattern} {source : String} {root n : Node} {path : List Nat}

/-! ## What a pattern finds -/

/-- A node whose descendants are not looked at. -/
def Cuts (p : TreePattern) (source : String) (n : Node) : Prop :=
  p.holds source n = true ∧ p.descent source n = .skip

instance : Decidable (p.Cuts source n) := inferInstanceAs (Decidable (_ ∧ _))

/-- **A pattern finds a node** at the end of a path: it holds there, and no node above cuts it off. -/
structure Finds (p : TreePattern) (source : String) (root : Node) (path : List Nat) (n : Node) : Prop where
  reached : root.follow path = some n
  holds : p.holds source n = true
  notCut : ∀ above m, above <+: path → above ≠ path → root.follow above = some m → ¬ p.Cuts source m

/-- The root itself is found where the pattern holds. -/
theorem finds_nil : p.Finds source root [] n ↔ root = n ∧ p.holds source n = true := by
  constructor
  · exact fun h => ⟨Option.some.inj ((Node.follow_nil root).symm.trans h.reached), h.holds⟩
  · rintro ⟨rfl, h⟩
    exact ⟨Node.follow_nil root, h, fun above m hle hne => absurd (List.prefix_nil.mp hle) hne⟩

/-- **A node below the root is found** when the root does not cut it off and it is found below a child. -/
theorem finds_cons {i : Nat} : p.Finds source root (i :: path) n ↔
    ¬ p.Cuts source root ∧ ∃ c ∈ root.children[i]?, p.Finds source c path n := by
  constructor
  · intro h
    obtain ⟨c, hc, hn⟩ := Option.bind_eq_some_iff.mp ((Node.follow_cons root i path).symm.trans h.reached)
    refine ⟨h.notCut [] root List.nil_prefix (List.cons_ne_nil i path).symm (Node.follow_nil root), c, hc, hn, h.holds,
      fun above m hle hne hm => h.notCut (i :: above) m (List.cons_prefix_cons.mpr ⟨rfl, hle⟩)
        (fun heq => hne (List.cons.inj heq).2) ?_⟩
    rw [Node.follow_cons, hc, Option.bind_some, hm]
  · rintro ⟨hroot, c, hc, h⟩
    refine ⟨by rw [Node.follow_cons, hc, Option.bind_some, h.reached], h.holds, fun above m hle hne hm => ?_⟩
    cases above with
    | nil => exact Option.some.inj ((Node.follow_nil root).symm.trans hm) ▸ hroot
    | cons j above =>
      obtain ⟨rfl, hbelow⟩ := List.cons_prefix_cons.mp hle
      rw [Node.follow_cons, hc, Option.bind_some] at hm
      exact h.notCut above m hbelow (fun heq => hne (heq ▸ rfl)) hm

/-- What is found, as a test of paths. -/
def finds (p : TreePattern) (source : String) : Node → List Nat → Bool
  | n, [] => p.holds source n
  | n, i :: path => !decide (p.Cuts source n) && n.children[i]?.any fun c => p.finds source c path

theorem finds_iff (h : root.follow path = some n) : p.finds source root path = true ↔ p.Finds source root path n := by
  induction path generalizing root with
  | nil =>
    obtain rfl := Option.some.inj ((Node.follow_nil root).symm.trans h)
    rw [finds, finds_nil]
    exact (and_iff_right rfl).symm
  | cons i path ih =>
    obtain ⟨c, hc, hn⟩ := Option.bind_eq_some_iff.mp ((Node.follow_cons root i path).symm.trans h)
    rw [finds, finds_cons, hc]
    simp [ih hn]

/-! ## What the search lists -/

/-- **The search lists what is found**, in pre-order. -/
theorem map_snd_found (p : TreePattern) (source : String) (root : Node) :
    (root.reached.filter fun x => p.finds source root x.1).map Prod.snd = p.findIn source root := by
  -- below the root, `q` tests the paths from there
  induction root using Node.reached.induct (motive_2 := fun i ns => ∀ q : List Nat → Bool,
      (∀ j path, q ((i + j) :: path) = ns[j]?.any fun c => p.finds source c path) →
      ((Node.reachedFrom i ns).filter fun x => q x.1).map Prod.snd = p.findInAll source ns) with
  | case1 f s cs ih =>
    rw [Node.reached, List.filter_cons, findIn]
    by_cases hcuts : p.Cuts source (.mk f s cs)
    · have hrest : ((Node.reachedFrom 0 cs).filter fun x => p.finds source (.mk f s cs) x.1) = [] := by
        rw [List.filter_eq_nil_iff]
        intro x hx
        obtain ⟨j, path, m, rfl, -⟩ := Node.mem_reachedFrom.mp hx
        simp [finds, hcuts]
      simp [hrest, finds, hcuts.1, hcuts.2]
    · have hrest := ih (p.finds source (.mk f s cs)) fun j path => by simp [finds, hcuts, Node.children]
      have hbelow (h : p.holds source (.mk f s cs) = true) : p.descent source (.mk f s cs) = .below := by
        cases hdescent : p.descent source (.mk f s cs) with
        | below => rfl
        | skip => exact absurd ⟨h, hdescent⟩ hcuts
      rw [finds]
      split
      · next h => rw [List.map_cons, hrest, hbelow h]
      · exact hrest
  | case2 i => rfl
  | case3 i n ns ihn ihns q hq =>
    have hfirst : ∀ path, q (i :: path) = p.finds source n path := fun path => hq 0 path
    have hrest := ihns q fun j path => by rw [Nat.add_right_comm, Nat.add_assoc, hq (j + 1) path, List.getElem?_cons_succ]
    rw [Node.reachedFrom, findInAll, List.filter_append, List.map_append, hrest, ← ihn, List.filter_map, List.map_map]
    simp only [Function.comp_def, hfirst]

/-- On the way to a node where the pattern holds, one is found. -/
theorem exists_found (h : root.follow path = some n) (hn : p.holds source n = true) :
    ∃ above m, above <+: path ∧ p.Finds source root above m := by
  induction path generalizing root with
  | nil =>
    obtain rfl := Option.some.inj ((Node.follow_nil root).symm.trans h)
    exact ⟨[], _, List.nil_prefix, finds_nil.mpr ⟨rfl, hn⟩⟩
  | cons i path ih =>
    obtain ⟨c, hc, hm⟩ := Option.bind_eq_some_iff.mp ((Node.follow_cons root i path).symm.trans h)
    by_cases hcuts : p.Cuts source root
    · exact ⟨[], root, List.nil_prefix, finds_nil.mpr ⟨rfl, hcuts.1⟩⟩
    · obtain ⟨above, m, hle, hfound⟩ := ih hm
      exact ⟨i :: above, m, List.cons_prefix_cons.mpr ⟨rfl, hle⟩, finds_cons.mpr ⟨hcuts, c, hc, hfound⟩⟩

/-- Where nothing is skipped, a pattern finds every node where it holds. -/
theorem finds_iff_of_below (h : ∀ n, p.descent source n = .below) :
    p.Finds source root path n ↔ root.follow path = some n ∧ p.holds source n = true :=
  ⟨fun hn => ⟨hn.reached, hn.holds⟩, fun hn => ⟨hn.1, hn.2, fun _ m _ _ _ hcuts => nomatch (h m).symm.trans hcuts.2⟩⟩

/-- **A search with a stack is pre-order search with pruning.**  It lists the nodes that are found, each once, in
the lexicographic order of their paths.  If nothing is skipped, these are the nodes of the tree where the pattern
holds; if all descendants are, none of them is below another and every node where the pattern holds is one of
them or below one.  In a well-nested tree their ranges start one behind the other. -/
theorem search_lists (p : TreePattern) (source : String) (root : Node) :
    ∃ found : List (List Nat × Node), found.map Prod.snd = p.search source [root] ∧
      (found.Pairwise fun x y => x.1 < y.1) ∧
      (∀ path n, (path, n) ∈ found ↔ p.Finds source root path n) ∧
      ((∀ n, p.descent source n = .below) →
        p.search source [root] = (Node.walkFrom [root]).filter (p.holds source)) ∧
      ((∀ n, p.descent source n = .skip) →
        (∀ x ∈ found, ∀ y ∈ found, x.1 <+: y.1 → x = y) ∧
        ∀ path n, root.follow path = some n → p.holds source n = true → ∃ x ∈ found, x.1 <+: path) ∧
      (root.WellNested → ∀ text, (p.search source [root]).Pairwise fun m n =>
        (m.range (.ofText text)).start ≤ (n.range (.ofText text)).start) := by
  have hmem (path : List Nat) (n : Node) :
      (path, n) ∈ (root.reached.filter fun x => p.finds source root x.1) ↔ p.Finds source root path n := by
    rw [List.mem_filter, Node.mem_reached]
    exact ⟨fun h => (finds_iff h.1).mp h.2, fun h => ⟨h.reached, (finds_iff h.reached).mpr h⟩⟩
  have hsorted := (Node.pairwise_reached root).sublist
    (List.filter_sublist (p := fun x : List Nat × Node => p.finds source root x.1))
  rw [search_singleton]
  refine ⟨_, map_snd_found p source root, hsorted, hmem, fun hbelow => ?_, fun hskip => ⟨?_, ?_⟩, fun hnested text => ?_⟩
  · rw [← map_snd_found, Node.walkFrom_singleton, ← Node.map_snd_reached, List.filter_map]
    refine congrArg (List.map Prod.snd) (List.filter_congr fun x hx => ?_)
    have hx := Node.mem_reached.mp hx
    rw [Bool.eq_iff_iff, finds_iff hx, finds_iff_of_below hbelow]
    exact and_iff_right hx
  · intro x hx y hy hle
    have hx := (hmem x.1 x.2).mp hx
    have hy := (hmem y.1 y.2).mp hy
    by_cases heq : x.1 = y.1
    · exact Prod.ext heq (Option.some.inj (hx.reached.symm.trans (heq ▸ hy.reached)))
    · exact absurd ⟨hx.holds, hskip x.2⟩ (hy.notCut x.1 x.2 hle heq hx.reached)
  · intro path n hn hholds
    obtain ⟨above, m, hle, hfound⟩ := exists_found (p := p) hn hholds
    exact ⟨(above, m), (hmem above m).mpr hfound, hle⟩
  · rw [← map_snd_found, List.pairwise_map]
    refine hsorted.imp_of_mem fun {x y} hx hy hlt => ?_
    have hx := ((hmem x.1 x.2).mp hx).reached
    have hy := ((hmem y.1 y.2).mp hy).reached
    rw [Node.range_eq text (hnested.of_follow hx).2.1, Node.range_eq text (hnested.of_follow hy).2.1]
    exact (LineTable.sound_ofList text.toList).positionAt_le_positionAt
      (Int.ofNat_le.mpr (hnested.start_le_start hlt hx hy))

end TreePattern

end SlotEdit
