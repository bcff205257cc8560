import SlotEdit.Document
import SlotEdit.Syntax.Walking

/-!
# Pattern/TreePattern — matches, and finding nodes of a syntax tree

A `Fragment` is a match with the document it was found in: a node of the syntax tree, or a piece of
text with the named groups that took part in it.  A `TreePattern` says which nodes to find and
whether to look below one that was found.  `search` finds the nodes of the trees on a stack; in one tree
these are the nodes that `findIn` lists, parents first (`search_singleton`).
-/

namespace SlotEdit

/-! ## Fragments -/

/-- A named group that took part in a match. -/
structure MatchedGroup where
  name : String
  value : String
  range : TextRange
deriving DecidableEq, Repr

/-- What was found: a node, or a text with groups. -/
inductive Finding
  | node (n : Node)
  | matched (text : String) (groups : List MatchedGroup)
deriving Repr

/-- **A match in a document.** -/
structure Fragment where
  document : Document
  range : TextRange
  finding : Finding
deriving Repr

namespace Fragment

/-- A node of a document as a fragment. -/
def ofNode (d : Document) (lines : LineTable) (n : Node) : Fragment := ⟨d, n.range lines, .node n⟩

/-- The text of a fragment. -/
def text (f : Fragment) : String :=
  match f.finding with
  | .node _ => f.document.contentIn f.range
  | .matched text _ => text

/-- The node of a fragment, if it is one. -/
def node? (f : Fragment) : Option Node :=
  match f.finding with
  | .node n => some n
  | .matched _ _ => none

/-- The groups of a fragment; a node has none. -/
def groups (f : Fragment) : List MatchedGroup :=
  match f.finding with
  | .node _ => []
  | .matched _ groups => groups

/-- The group of a name. -/
def group? (f : Fragment) (name : String) : Option MatchedGroup :=
  f.groups.find? fun g => g.name == name

end Fragment

/-! ## Tree patterns -/

/-- Whether to look below a node that was found. -/
inductive Descent
  | below
  | skip
deriving DecidableEq, Repr

/-- Which nodes to find, and whether to look below a found one; both may ask for the text the tree
was made of. -/
structure TreePattern where
  holds : String → Node → Bool
  descent : String → Node → Descent

namespace TreePattern

/-- The nodes of a type. -/
def ofType (typeName : String) (descent : String → Node → Descent) : TreePattern :=
  ⟨fun _ n => n.typeName == typeName, descent⟩

mutual
/-- **The nodes found in a tree**, parents first. -/
def findIn (p : TreePattern) (source : String) : Node → List Node
  | .mk form span children =>
    let n := Node.mk form span children
    if p.holds source n then
      match p.descent source n with
      | .below => n :: findInAll p source children
      | .skip => [n]
    else findInAll p source children

/-- The nodes found in a list of trees, in order. -/
def findInAll (p : TreePattern) (source : String) : List Node → List Node
  | [] => []
  | n :: rest => findIn p source n ++ findInAll p source rest
end

/-- **The nodes found in the trees on a stack**, in the order they are come to. -/
def search (p : TreePattern) (source : String) (stack : List Node) : List Node :=
  match stack with
  | [] => []
  | n :: rest =>
    if p.holds source n then
      match p.descent source n with
      | .skip => n :: search p source rest
      | .below => n :: search p source (Node.pushed rest n.children.reverse)
    else search p source (Node.pushed rest n.children.reverse)
termination_by sizeOf stack
decreasing_by
  · rw [List.cons.sizeOf_spec]
    omega
  · exact Node.sizeOf_pushed_lt n rest
  · exact Node.sizeOf_pushed_lt n rest

theorem findInAll_eq_flatMap (p : TreePattern) (source : String) (ns : List Node) :
    p.findInAll source ns = ns.flatMap (p.findIn source) := by
  induction ns with
  | nil => rw [findInAll, List.flatMap_nil]
  | cons n rest ih => rw [findInAll, ih, List.flatMap_cons]

/-- **A stack is searched tree by tree.** -/
theorem search_eq (p : TreePattern) (source : String) (stack : List Node) :
    p.search source stack = stack.flatMap (p.findIn source) := by
  -- what the top node is replaced by is found in its children
  have hchildren (n : Node) (rest : List Node) : (Node.pushed rest n.children.reverse).flatMap (p.findIn source) =
      p.findInAll source n.children ++ rest.flatMap (p.findIn source) := by
    rw [Node.pushed_reverse, List.flatMap_append, findInAll_eq_flatMap]
  induction stack using search.induct p source with
  | case1 => rw [search, List.flatMap_nil]
  | case2 n rest hholds hskip ih =>
    obtain ⟨form, span, children⟩ := n
    rw [search, if_pos hholds, hskip, List.flatMap_cons, findIn, if_pos hholds, hskip, ih]
    rfl
  | case3 n rest hholds hbelow ih =>
    rw [search, if_pos hholds, hbelow, List.flatMap_cons]
    dsimp only
    rw [ih, hchildren]
    obtain ⟨form, span, children⟩ := n
    rw [findIn, if_pos hholds, hbelow]
    rfl
  | case4 n rest hnot ih =>
    rw [search, if_neg hnot, ih, hchildren, List.flatMap_cons]
    obtain ⟨form, span, children⟩ := n
    rw [findIn, if_neg hnot]
    rfl

@[simp] theorem search_singleton (p : TreePattern) (source : String) (root : Node) :
    p.search source [root] = p.findIn source root := by
  rw [search_eq, List.flatMap_cons, List.flatMap_nil, List.append_nil]

variable [Interpreter]

/-- The nodes found in a document; an empty text and a language without a grammar have none. -/
def fragments (p : TreePattern) (d : Document) : List Fragment :=
  if d.isEmpty then []
  else
    match d.syntaxTree? with
    | none => []
    | some tree =>
      let lines := d.lines
      (p.search tree.text [tree.root]).map (Fragment.ofNode d lines)

theorem fragments_eq (p : TreePattern) (d : Document) : p.fragments d =
    if d.isEmpty then []
    else
      match d.syntaxTree? with
      | none => []
      | some tree => (p.findIn tree.text tree.root).map (Fragment.ofNode d d.lines) := by
  simp only [fragments, search_singleton]

end TreePattern

end SlotEdit
