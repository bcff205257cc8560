import Mathlib
import SlotEdit.Pattern.Provider
import SlotEdit.Proofs.Language
import SlotEdit.Proofs.Pattern.Searching
import SlotEdit.Proofs.Sorting

/-!
# Proofs/Pattern/Flattening — composites of composites are composites of their leaves

A composite orders the fragments of its providers by where they start (`ByStart`), and the fragments
that start at one place tell a list in that order (`mergeSort_eq_iff`).  So it does not matter whether
the fragments of a provider are ordered before those of others join them (`mergeSort_append`), and a
tree of composites finds what one composite over its leaves finds (`map_fragments_leaves`).
-/

namespace SlotEdit

variable {d : Document}

/-! ## Fragments in the order of where they start -/

/-- **Fragments in the order of where they start**: they are those found, and those that start at one
place keep the order in which they were found. -/
structure ByStart (found fs : List Fragment) : Prop where
  perm : fs.Perm found
  sorted : fs.Pairwise fun f g => f.range.start ≤ g.range.start
  atEach : ∀ p, fs.filter (fun f => f.range.start = p) = found.filter fun f => f.range.start = p

namespace Fragment

theorem startsBefore_iff {f g : Fragment} : f.startsBefore g = true ↔ f.range.start ≤ g.range.start :=
  decide_eq_true_iff

theorem startsBefore_trans (f g h : Fragment) (hfg : f.startsBefore g = true) (hgh : g.startsBefore h = true) :
    f.startsBefore h = true :=
  startsBefore_iff.mpr (Position.le_trans (startsBefore_iff.mp hfg) (startsBefore_iff.mp hgh))

theorem startsBefore_total (f g : Fragment) : (f.startsBefore g || g.startsBefore f) = true := by
  rw [Bool.or_eq_true, startsBefore_iff, startsBefore_iff]
  exact Position.le_total _ _

end Fragment

theorem byStart_mergeSort (found : List Fragment) : ByStart found (found.mergeSort Fragment.startsBefore) where
  perm := List.mergeSort_perm _ _
  sorted := (List.pairwise_mergeSort Fragment.startsBefore_trans Fragment.startsBefore_total found).imp
    Fragment.startsBefore_iff.mp
  atEach _ := filter_mergeSort Fragment.startsBefore_trans Fragment.startsBefore_total
    fun _ _ _ _ hf hg => Fragment.startsBefore_iff.mpr
      (((of_decide_eq_true hf).trans (of_decide_eq_true hg).symm) ▸ Position.le_refl _)

/-- **Lists are ordered alike** just when they hold the same fragments, in the same order, at each place. -/
theorem mergeSort_eq_iff {found found' : List Fragment} :
    found.mergeSort Fragment.startsBefore = found'.mergeSort Fragment.startsBefore ↔
      ∀ p, found.filter (fun f => f.range.start = p) = found'.filter fun f => f.range.start = p := by
  have h := byStart_mergeSort found
  have h' := byStart_mergeSort found'
  constructor
  · intro heq p
    rw [← h.atEach, heq, h'.atEach]
  · intro hsame
    refine eq_of_forall_filter (fun f => f.range.start) (fun _ _ => Position.le_antisymm) h.sorted h'.sorted fun p => ?_
    rw [h.atEach, h'.atEach, hsame]

/-- What is ordered alike stays so beside other fragments. -/
theorem mergeSort_append {fs fs' gs gs' : List Fragment}
    (hfs : fs.mergeSort Fragment.startsBefore = fs'.mergeSort Fragment.startsBefore)
    (hgs : gs.mergeSort Fragment.startsBefore = gs'.mergeSort Fragment.startsBefore) :
    (fs ++ gs).mergeSort Fragment.startsBefore = (fs' ++ gs').mergeSort Fragment.startsBefore := by
  rw [mergeSort_eq_iff] at *
  intro p
  rw [List.filter_append, List.filter_append, hfs, hgs]

/-! ## The leaves of a tree of composites -/

namespace Provider

mutual
/-- **The leaves of a provider**, from left to right: those of all providers of a composite. -/
def leaves : Provider → List Provider
  | .regex finder => [.regex finder]
  | .tree pattern => [.tree pattern]
  | .composite providers => leavesOfAll providers
  | .holding shape provider => [.holding shape provider]

/-- The leaves of several providers. -/
def leavesOfAll : List Provider → List Provider
  | [] => []
  | p :: rest => p.leaves ++ leavesOfAll rest
end

mutual
/-- No leaf is a composite. -/
theorem ne_composite_of_mem_leaves {ps : List Provider} : (p : Provider) → ∀ q ∈ p.leaves, q ≠ .composite ps
  | .regex finder => by simp [leaves]
  | .tree pattern => by simp [leaves]
  | .composite providers => by
    rw [leaves]
    exact ne_composite_of_mem_leavesOfAll providers
  | .holding shape provider => by simp [leaves]

theorem ne_composite_of_mem_leavesOfAll {ps : List Provider} :
    (providers : List Provider) → ∀ q ∈ leavesOfAll providers, q ≠ .composite ps
  | [] => by simp [leavesOfAll]
  | p :: rest => by
    rw [leavesOfAll, List.forall_mem_append]
    exact ⟨ne_composite_of_mem_leaves p, ne_composite_of_mem_leavesOfAll rest⟩
end

/-! ## What several providers find -/

/-- The fragments of two lists, one behind the other, if there are both. -/
def both (x y : Except ShapeFault (List Fragment)) : Except ShapeFault (List Fragment) :=
  x >>= fun fs => y >>= fun gs => pure (fs ++ gs)

theorem fragmentsOfAll_cons [Interpreter] (p : Provider) (rest : List Provider) :
    fragmentsOfAll d (p :: rest) = both (p.fragments d) (fragmentsOfAll d rest) := by
  rw [fragmentsOfAll]
  rfl

theorem fragmentsOfAll_singleton [Interpreter] (p : Provider) : fragmentsOfAll d [p] = p.fragments d := by
  rw [fragmentsOfAll_cons, fragmentsOfAll]
  cases p.fragments d with
  | error fault => rfl
  | ok fs => exact congrArg Except.ok (List.append_nil fs)

theorem fragmentsOfAll_append [Interpreter] (ps qs : List Provider) :
    fragmentsOfAll d (ps ++ qs) = both (fragmentsOfAll d ps) (fragmentsOfAll d qs) := by
  induction ps with
  | nil =>
    rw [List.nil_append, fragmentsOfAll]
    cases fragmentsOfAll d qs <;> rfl
  | cons p ps ih =>
    rw [List.cons_append, fragmentsOfAll_cons, fragmentsOfAll_cons, ih]
    cases p.fragments d with
    | error fault => rfl
    | ok fs =>
      cases fragmentsOfAll d ps with
      | error fault => rfl
      | ok more =>
        cases fragmentsOfAll d qs with
        | error fault => rfl
        | ok gs => exact congrArg Except.ok (List.append_assoc fs more gs).symm

/-- What several providers find is what each of them finds, one behind the other. -/
theorem fragmentsOfAll_eq [Interpreter] (ps : List Provider) :
    fragmentsOfAll d ps = (ps.mapM (Provider.fragments d)).map List.flatten := by
  induction ps with
  | nil => rw [fragmentsOfAll]; rfl
  | cons p ps ih =>
    rw [fragmentsOfAll_cons, ih, List.mapM_cons]
    cases p.fragments d with
    | error fault => rfl
    | ok fs => cases ps.mapM (Provider.fragments d) <;> rfl

/-- The fragments of a result, ordered by where they start. -/
abbrev ordered (x : Except ShapeFault (List Fragment)) : Except ShapeFault (List Fragment) :=
  x.map (List.mergeSort · Fragment.startsBefore)

theorem fragments_composite [Interpreter] (ps : List Provider) :
    Provider.fragments d (.composite ps) = ordered (fragmentsOfAll d ps) := by
  rw [Provider.fragments]
  cases fragmentsOfAll d ps <;> rfl

theorem ordered_ordered (x : Except ShapeFault (List Fragment)) : ordered (ordered x) = ordered x := by
  cases x with
  | error fault => rfl
  | ok fs =>
    exact congrArg Except.ok (mergeSort_eq_iff.mpr (byStart_mergeSort fs).atEach)

theorem ordered_both {x x' y y' : Except ShapeFault (List Fragment)} (hx : ordered x = ordered x')
    (hy : ordered y = ordered y') : ordered (both x y) = ordered (both x' y') := by
  cases x with
  | error fault => cases x' <;> cases hx; rfl
  | ok fs =>
    cases x' with
    | error fault => cases hx
    | ok fs' =>
      cases y with
      | error fault => cases y' <;> cases hy; rfl
      | ok gs =>
        cases y' with
        | error fault => cases hy
        | ok gs' => exact congrArg Except.ok (mergeSort_append (Except.ok.inj hx) (Except.ok.inj hy))

mutual
/-- **A tree of composites finds what its leaves find**, once it is ordered. -/
theorem ordered_fragments [Interpreter] : (p : Provider) → ordered (p.fragments d) = ordered (fragmentsOfAll d p.leaves)
  | .regex finder => by
    rw [leaves, fragmentsOfAll_singleton]
  | .tree pattern => by
    rw [leaves, fragmentsOfAll_singleton]
  | .composite providers => by
    rw [leaves, fragments_composite, ordered_ordered]
    exact ordered_fragmentsOfAll providers
  | .holding shape provider => by
    rw [leaves, fragmentsOfAll_singleton]

theorem ordered_fragmentsOfAll [Interpreter] :
    (ps : List Provider) → ordered (fragmentsOfAll d ps) = ordered (fragmentsOfAll d (leavesOfAll ps))
  | [] => by rw [leavesOfAll]
  | p :: rest => by
    rw [leavesOfAll, fragmentsOfAll_cons, fragmentsOfAll_append]
    exact ordered_both (ordered_fragments p) (ordered_fragmentsOfAll rest)
end

end Provider

/-! ## Nodes in front of those below them -/

namespace TreePattern

variable {p : TreePattern} {tree : SyntaxTree} {above path : List Nat} {m n : Node}

theorem fragments_of_tree [Interpreter] (hd : d.isEmpty = false) (htree : d.syntaxTree? = some tree) :
    p.fragments d = (p.findIn tree.text tree.root).map (Fragment.ofNode d d.lines) := by
  rw [fragments_eq, hd, if_neg Bool.false_ne_true, htree]

/-- **The fragments of a tree pattern** are in the pre-order of their nodes. -/
theorem pair_sublist_fragments [Interpreter] (hd : d.isEmpty = false) (htree : d.syntaxTree? = some tree)
    (hm : p.Finds tree.text tree.root above m) (hn : p.Finds tree.text tree.root path n) (hlt : above < path) :
    [Fragment.ofNode d d.lines m, Fragment.ofNode d d.lines n].Sublist (p.fragments d) := by
  have hmem {path : List Nat} {n : Node} (h : p.Finds tree.text tree.root path n) :
      (path, n) ∈ tree.root.reached.filter fun x => p.finds tree.text tree.root x.1 :=
    List.mem_filter.mpr ⟨Node.mem_reached.mpr h.reached, (finds_iff h.reached).mpr h⟩
  have hsorted := (Node.pairwise_reached tree.root).sublist
    (List.filter_sublist (p := fun x : List Nat × Node => p.finds tree.text tree.root x.1))
  have hpair := pair_sublist_of_pairwise (fun x y hxy => List.lt_asymm hxy) hsorted (hmem hm) (hmem hn) hlt
  rw [fragments_of_tree hd htree, ← map_snd_found]
  exact (hpair.map Prod.snd).map (Fragment.ofNode d d.lines)

/-- What is found further on in pre-order starts further on. -/
theorem start_le_start [Interpreter] (htree : d.syntaxTree? = some tree) (hm : p.Finds tree.text tree.root above m)
    (hn : p.Finds tree.text tree.root path n) (hlt : above < path) :
    (Fragment.ofNode d d.lines m).range.start ≤ (Fragment.ofNode d d.lines n).range.start := by
  obtain ⟨g, -, rfl⟩ := Option.map_eq_some_iff.mp htree
  have hnested := (SyntaxTree.wellNested_root g d.content).1
  have hstart := hnested.start_le_start hlt hm.reached hn.reached
  rw [Fragment.ofNode, Fragment.ofNode, Document.lines, Node.range_eq d.content (hnested.of_follow hm.reached).2.1,
    Node.range_eq d.content (hnested.of_follow hn.reached).2.1]
  exact (LineTable.sound_ofList d.content.toList).positionAt_le_positionAt (Int.ofNat_le.mpr hstart)

end TreePattern

/-- A path is behind those it goes on from. -/
theorem lt_of_isPrefix {above path : List Nat} (h : above <+: path) (hne : above ≠ path) : above < path := by
  induction above generalizing path with
  | nil =>
    cases path with
    | nil => exact absurd rfl hne
    | cons j path => exact List.nil_lt_cons j path
  | cons i above ih =>
    obtain ⟨rest, rfl⟩ := h
    rw [List.cons_append]
    exact List.cons_lt_cons_iff.mpr (.inr ⟨rfl, ih (List.prefix_append above rest) fun heq => hne (by
      rw [List.cons_append, ← heq])⟩)

namespace Provider

/-- **A tree of composites is one composite over its leaves.**  Both find the same, or fail for the same
reason: the first leaf that fails.  What is found are the fragments of all leaves, ordered by where they
start; fragments that start at one place are in the order of the leaves and, of one leaf, in the order in
which it found them.  So a node that a tree pattern finds stays in front of those it finds below it. -/
theorem composite_flattens [Interpreter] (d : Document) (providers : List Provider) :
    (Provider.composite providers).fragments d = (Provider.composite (leavesOfAll providers)).fragments d ∧
    (∀ p ∈ leavesOfAll providers, ∀ ps, p ≠ .composite ps) ∧
    (∀ fault, (Provider.composite providers).fragments d = .error fault ↔
      (leavesOfAll providers).mapM (Provider.fragments d) = .error fault) ∧
    ∀ found, (leavesOfAll providers).mapM (Provider.fragments d) = .ok found →
      ∃ fs, (Provider.composite providers).fragments d = .ok fs ∧ ByStart found.flatten fs ∧
        ∀ pattern tree above path m n, .tree pattern ∈ leavesOfAll providers →
          d.isEmpty = false → d.syntaxTree? = some tree →
          pattern.Finds tree.text tree.root above m → pattern.Finds tree.text tree.root path n →
          above <+: path → above ≠ path →
          [Fragment.ofNode d d.lines m, Fragment.ofNode d d.lines n].Sublist fs := by
  have heq : (Provider.composite providers).fragments d =
      ordered (((leavesOfAll providers).mapM (Provider.fragments d)).map List.flatten) := by
    rw [fragments_composite, ordered_fragmentsOfAll, fragmentsOfAll_eq]
  refine ⟨?_, fun p hp ps => ne_composite_of_mem_leavesOfAll providers p hp, fun fault => ?_, fun found hfound => ?_⟩
  · rw [fragments_composite, fragments_composite, ordered_fragmentsOfAll]
  · rw [heq]
    cases (leavesOfAll providers).mapM (Provider.fragments d) <;> simp [Except.map]
  · rw [hfound] at heq
    refine ⟨_, heq, byStart_mergeSort _, ?_⟩
    intro pattern tree above path m n hpattern hd htree hm hn hle hne
    have hlt := lt_of_isPrefix hle hne
    have hleaf : pattern.fragments d ∈ found := mem_of_mapM_eq_ok hfound hpattern (by rw [Provider.fragments])
    exact List.pair_sublist_mergeSort Fragment.startsBefore_trans Fragment.startsBefore_total
      (Fragment.startsBefore_iff.mpr (TreePattern.start_le_start htree hm hn hlt))
      ((TreePattern.pair_sublist_fragments hd htree hm hn hlt).trans (List.sublist_flatten_of_mem hleaf))

/-- Of a text and its line, which start at one place, the text stays in front. -/
theorem composite_flattens_line : ∃ (d : Document) (tree : SyntaxTree) (all lines : TreePattern) (text line : Node)
    (fs : List Fragment), d.syntaxTree? = some tree ∧ all.Finds tree.text tree.root [] text ∧
      all.Finds tree.text tree.root [0] line ∧
      (Provider.composite [.composite [.tree lines, .composite [.tree all]], .tree lines]).fragments d = .ok fs ∧
      ByStart [.ofNode d d.lines line, .ofNode d d.lines text, .ofNode d d.lines line, .ofNode d d.lines line] fs ∧
      [Fragment.ofNode d d.lines text, Fragment.ofNode d d.lines line].Sublist fs := by
  let d : Document := ⟨"a", ⟨"Plain text", "plaintext", "plaintext", some .plainText⟩⟩
  let all : TreePattern := ⟨fun _ _ => true, fun _ _ => .below⟩
  let lines : TreePattern := .ofType "Line" fun _ _ => .below
  let line : Node := .mk (.line 0) ⟨0, 1⟩ []
  let text : Node := .mk .text ⟨0, 1⟩ [line]
  let tree : SyntaxTree := ⟨"a", text⟩
  have htree : d.syntaxTree? = some tree := by cbv
  have htext : all.Finds tree.text tree.root [] text := TreePattern.finds_nil.mpr ⟨rfl, rfl⟩
  have hline : all.Finds tree.text tree.root [0] line :=
    TreePattern.finds_cons.mpr ⟨by decide, line, rfl, TreePattern.finds_nil.mpr ⟨rfl, rfl⟩⟩
  obtain ⟨-, -, -, hfound⟩ := composite_flattens d [.composite [.tree lines, .composite [.tree all]], .tree lines]
  obtain ⟨fs, hfs, hby, hpairs⟩ := hfound [[.ofNode d d.lines line],
    [.ofNode d d.lines text, .ofNode d d.lines line], [.ofNode d d.lines line]] (by cbv)
  have hleaf : Provider.tree all ∈
      leavesOfAll [.composite [.tree lines, .composite [.tree all]], .tree lines] :=
    List.mem_cons_of_mem _ List.mem_cons_self
  exact ⟨d, tree, all, lines, text, line, fs, htree, htext, hline, hfs, hby,
    hpairs all tree [] [0] text line hleaf rfl htree htext hline List.nil_prefix (List.cons_ne_nil 0 []).symm⟩

end Provider

end SlotEdit
