import SlotEdit.Proofs.CommandLine.Writing
import SlotEdit.Proofs.Syntax.Paths

/-!
# Proofs/CommandLine/Outlines — which nodes of a tree are shown

An outline is compared with the tree it shows along paths of child indexes: the label at the end of a path is that of
the node the tree has there, and there is none below the depth that is asked for (`outline_shows`).  The nodes right
below the root are shown at every depth, also at depth 0.
-/

namespace SlotEdit

namespace Outline

/-- The label on top. -/
def label : Outline → String
  | .mk label _ => label

/-- The outlines below the label. -/
def branches : Outline → List Outline
  | .mk _ branches => branches

/-- **The outline a path reaches**, if there are branches all the way. -/
def follow : Outline → List Nat → Option Outline
  | o, [] => some o
  | o, i :: path => o.branches[i]?.bind fun branch => branch.follow path

theorem follow_nil (o : Outline) : o.follow [] = some o := by rw [follow]

theorem follow_cons (o : Outline) (i : Nat) (path : List Nat) :
    o.follow (i :: path) = o.branches[i]?.bind fun branch => branch.follow path := by rw [follow]

end Outline

/-- A limit allows what stands at a depth. -/
def Allows (limit : Option Int) (depth : Int) : Prop := ∀ d ∈ limit, depth ≤ d

instance (limit : Option Int) (depth : Int) : Decidable (Allows limit depth) :=
  inferInstanceAs (Decidable (∀ d ∈ limit, depth ≤ d))

section

variable {limit : Option Int} {depth depth' : Int} {text : String} {lines : LineTable}

theorem Allows.mono (h : Allows limit depth) (hle : depth' ≤ depth) : Allows limit depth' :=
  fun d hd => hle.trans (h d hd)

theorem showsBelow_iff : showsBelow limit depth = true ↔ Allows limit (depth + 1) := by
  cases limit with
  | none => exact iff_of_true rfl nofun
  | some d =>
    rw [showsBelow, decide_eq_true_iff, Allows, ← Int.add_one_le_iff]
    exact ⟨fun h d' hd => Option.some.inj hd ▸ h, fun h => h d rfl⟩

namespace Node

theorem branches_eq_map (ns : List Node) :
    branches text lines limit depth ns = ns.map (branch text lines limit depth) := by
  induction ns with
  | nil => rw [branches]; rfl
  | cons n ns ih => rw [branches, ih]; rfl

theorem label_branch (n : Node) : (n.branch text lines limit depth).label = n.label text lines := by
  obtain ⟨form, span, children⟩ := n
  rw [branch]
  rfl

theorem branches_branch (n : Node) : (n.branch text lines limit depth).branches =
    if showsBelow limit depth then n.children.map (branch text lines limit (depth + 1)) else [] := by
  obtain ⟨form, span, children⟩ := n
  rw [branch, branches_eq_map]
  rfl

/-- **A branch shows its node and what the limit allows below it.** -/
theorem follow_branch (n : Node) (depth : Int) (path : List Nat) :
    ((n.branch text lines limit depth).follow path).map Outline.label =
      if path = [] ∨ Allows limit (depth + path.length) then (n.follow path).map (Node.label text lines) else none := by
  induction path generalizing n depth with
  | nil =>
    rw [if_pos (Or.inl rfl), Outline.follow_nil, follow_nil, Option.map_some, Option.map_some, label_branch]
  | cons i path ih =>
    have hdepth : depth + (i :: path).length = depth + 1 + path.length := by
      rw [List.length_cons]
      omega
    rw [Outline.follow_cons, follow_cons, branches_branch, hdepth]
    by_cases hshows : Allows limit (depth + 1)
    · rw [if_pos (showsBelow_iff.mpr hshows), List.getElem?_map]
      cases n.children[i]? with
      | none => exact (ite_self none).symm
      | some child =>
        have hallows : (i :: path = [] ∨ Allows limit (depth + 1 + path.length)) ↔
            (path = [] ∨ Allows limit (depth + 1 + path.length)) := by
          refine ⟨fun h => Or.inr (h.resolve_left (List.cons_ne_nil i path)), fun h => Or.inr ?_⟩
          rcases h with rfl | h
          · exact hshows.mono (by simp)
          · exact h
        rw [if_congr hallows rfl rfl]
        exact ih child (depth + 1)
    · rw [if_neg (mt showsBelow_iff.mp hshows), if_neg fun h => ?_]
      · rfl
      · exact hshows ((h.resolve_left (List.cons_ne_nil i path)).mono (by omega))

end Node

end

namespace SyntaxTree

/-- The label of the node at the end of a path. -/
def labelAt? (t : SyntaxTree) (path : List Nat) : Option String :=
  (t.root.follow path).map fun n =>
    if path = [] then n.rootLabel (LineTable.ofText t.text) else n.label t.text (LineTable.ofText t.text)

/-- **An outline shows the root, the nodes right below it, and what the limit allows.** -/
theorem follow_outline (t : SyntaxTree) (limit : Option Int) (path : List Nat) :
    ((t.outline limit).follow path).map Outline.label =
      if path.length ≤ 1 ∨ Allows limit path.length then t.labelAt? path else none := by
  cases path with
  | nil => exact (if_pos (Or.inl Nat.zero_lt_one.le)).symm
  | cons i path =>
    have hcond : ((i :: path).length ≤ 1 ∨ Allows limit (i :: path).length) ↔
        (path = [] ∨ Allows limit (1 + path.length)) := by
      rw [List.length_cons, Nat.succ_le_succ_iff, Nat.le_zero, List.length_eq_zero_iff, Nat.cast_succ, Int.add_comm]
    have hbranches : (t.outline limit).branches =
        t.root.children.map (Node.branch t.text (LineTable.ofText t.text) limit 1) := Node.branches_eq_map _
    rw [if_congr hcond rfl rfl, Outline.follow_cons, hbranches, List.getElem?_map, labelAt?, Node.follow_cons]
    cases t.root.children[i]? with
    | none => exact (ite_self none).symm
    | some child => exact child.follow_branch 1 path

theorem allows_natCast {d depth : Nat} : Allows (some d) depth ↔ depth ≤ d :=
  ⟨fun h => Int.ofNat_le.mp (h d rfl), fun h _ hd => Option.some.inj hd ▸ Int.ofNat_le.mpr h⟩

theorem follow_outline_none (t : SyntaxTree) (path : List Nat) :
    ((t.outline none).follow path).map Outline.label = t.labelAt? path := by
  rw [follow_outline, if_pos (Or.inr nofun)]

theorem follow_outline_some (t : SyntaxTree) (d : Nat) (path : List Nat) :
    ((t.outline (some d)).follow path).map Outline.label = if path.length ≤ max 1 d then t.labelAt? path else none := by
  rw [follow_outline, if_congr (or_congr_right allows_natCast) rfl rfl, if_congr (le_max_iff (b := 1)).symm rfl rfl]

/-- Only at depth 0 nodes below the limit are shown: those right below the root. -/
theorem follow_outline_eq_iff (t : SyntaxTree) (d : Nat) :
    (∀ path, ((t.outline (some d)).follow path).map Outline.label =
      if path.length ≤ d then t.labelAt? path else none) ↔ 0 < d ∨ t.root.children = [] := by
  refine ⟨fun h => Nat.eq_zero_or_pos d |>.symm.imp_right fun hd => ?_, fun h path => ?_⟩
  · cases hchildren : t.root.children with
    | nil => rfl
    | cons child children =>
      have hfirst := (follow_outline_some t d [0]).symm.trans (h [0])
      rw [if_pos (show [0].length ≤ max 1 d from le_max_left 1 d),
        if_neg (show ¬ [0].length ≤ d from by rw [hd]; exact Nat.not_succ_le_zero 0), labelAt?, Node.follow_cons,
        hchildren] at hfirst
      exact nomatch hfirst
  · rw [follow_outline_some]
    rcases h with hd | hleaf
    · rw [max_eq_right hd]
    · -- a path that is not empty reaches nothing
      cases path with
      | nil => exact (if_pos (Nat.zero_le _)).trans (if_pos (Nat.zero_le _)).symm
      | cons i path =>
        have hnone : t.labelAt? (i :: path) = none := by
          rw [labelAt?, Node.follow_cons, hleaf]
          rfl
        rw [hnone, ite_self, ite_self]

/-- The syntax tree of a document is made at any rate. -/
theorem exists_resultIn_syntaxTree [Interpreter] (g : Grammar) (d : Document) (s : Session) :
    ∃ s', (Run.syntaxTree g d).resultIn s = (.ok (SyntaxTree.ofText g d.content), s') := by
  rw [Run.syntaxTree]
  dsimp only
  split
  · exact ⟨_, Run.resultIn_bind_ok rfl⟩
  · exact ⟨s, rfl⟩

theorem mem_output_print {o : Output} {s : Session} (h : o ∈ s.output) (markup : String) :
    o ∈ ((Run.print markup).resultIn s).2.output := by
  rw [Run.print, Run.resultIn_emit]
  split
  · exact h
  · exact List.mem_append_left _ h

/-- The outline of the tree of a file is shown, on a console that can show it. -/
theorem outline_mem_output_tree [Interpreter] {file : Path} {language : Option String} {limit : Option Int}
    {c : Configuration}
    {s s' : Session} {d : Document} {g : Grammar} (hread : (Run.document file language c).resultIn s = (.ok d, s'))
    (hgrammar : d.language.grammar = some g)
    (hshown : s.console.refuses (.outline ((SyntaxTree.ofText g d.content).outline limit)) = false) :
    .outline ((SyntaxTree.ofText g d.content).outline limit) ∈
      ((Run.tree file language limit c).resultIn s).2.output := by
  obtain ⟨s₁, htree⟩ := exists_resultIn_syntaxTree g d s'
  have hkeeps := (Run.reads_document file language c).keeps s
  rw [hread] at hkeeps
  have hkeeps' := (Run.reads_syntaxTree g d).keeps s'
  rw [htree] at hkeeps'
  rw [Run.tree, Run.resultIn_bind_ok hread]
  split
  · next hnone => exact nomatch hnone.symm.trans hgrammar
  · next g' hsome =>
    obtain rfl := Option.some.inj (hsome.symm.trans hgrammar)
    rw [← (hkeeps'.trans hkeeps).console] at hshown
    have hemit := (Run.resultIn_emit _ s₁).trans (if_neg (Bool.eq_false_iff.mp hshown))
    rw [Run.resultIn_bind_ok htree, Run.resultIn_bind_ok hemit]
    cases (SyntaxTree.ofText g' d.content).fault? with
    | none => exact List.mem_append_right _ List.mem_cons_self
    | some message => exact mem_output_print (List.mem_append_right _ List.mem_cons_self) _

/-- **What an outline shows of a tree.**  Without a limit it has all nodes, each at its place below its parent and
among its siblings; with a limit `d` it has those at depth `d` or less, and the nodes right below the root at any
rate.  So it has exactly the nodes at depth `d` or less unless `d` is 0 and there are nodes below the root.  This is the
outline that is shown of the tree of a file, on a console that can show it. -/
theorem outline_shows [Interpreter] (t : SyntaxTree) :
    (∀ path, ((t.outline none).follow path).map Outline.label = t.labelAt? path) ∧
    (∀ (d : Nat) path, ((t.outline (some d)).follow path).map Outline.label =
      if path.length ≤ max 1 d then t.labelAt? path else none) ∧
    (∀ d : Nat, (∀ path, ((t.outline (some d)).follow path).map Outline.label =
      if path.length ≤ d then t.labelAt? path else none) ↔ 0 < d ∨ t.root.children = []) ∧
    ∀ (file : Path) (language : Option String) (limit : Option Int) (c : Configuration) (s s' : Session) (d : Document)
      (g : Grammar), (Run.document file language c).resultIn s = (.ok d, s') → d.language.grammar = some g →
      t = SyntaxTree.ofText g d.content → s.console.refuses (.outline (t.outline limit)) = false →
      .outline (t.outline limit) ∈ ((Run.tree file language limit c).resultIn s).2.output := by
  refine ⟨t.follow_outline_none, t.follow_outline_some, t.follow_outline_eq_iff, ?_⟩
  rintro file language limit c s s' d g hread hgrammar rfl hshown
  exact outline_mem_output_tree hread hgrammar hshown

/-- A list of two numbers, of which a limit of 0 still shows all. -/
theorem outline_shows_list : ∃ (t : SyntaxTree) (file : Path) (c : Configuration) (s s' : Session) (d : Document),
    (Run.document file none c).resultIn s = (.ok d, s') ∧ d.content = "[1, 2]" ∧ t = SyntaxTree.ofText .json d.content ∧
      .outline (t.outline (some 0)) ∈ ((Run.tree file none (some 0) c).resultIn s).2.output ∧
      ((t.outline (some 0)).follow [1]).map Outline.label = t.labelAt? [1] ∧
      (t.labelAt? [1]).isSome = true := by
  let d : Document := ⟨"[1, 2]", ⟨"JSON", "json", "json", some .json⟩⟩
  let s : Session := ⟨.plain, ⟨[(["t.json"], .text "[1, 2]")], []⟩, none, []⟩
  have hread : (Run.document ⟨false, ["t.json"]⟩ none .default).resultIn s = (.ok d, s) := rfl
  obtain ⟨-, hlimit, -, hshown⟩ := outline_shows (.ofText .json d.content)
  exact ⟨_, ⟨false, ["t.json"]⟩, .default, s, s, d, hread, rfl, rfl, hshown _ _ _ _ _ _ _ _ hread rfl rfl rfl,
    (hlimit 0 [1]).trans (if_pos (by decide)), by decide +kernel⟩

end SyntaxTree

end SlotEdit
