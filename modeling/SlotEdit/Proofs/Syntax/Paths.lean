import SlotEdit.Proofs.Syntax.WellNested
import SlotEdit.Syntax.GrammarTree
import SlotEdit.Syntax.Node

/-!
# Proofs/Syntax/Paths — nodes reached from the root

A path is a list of child indexes; `follow` gives the node that it reaches.  `changedAt` changes a
tree at that node and nowhere else.  `unplaced` forgets where the nodes stand.
-/

namespace SlotEdit.Node

/-- **The node a path reaches**, if there are children all the way. -/
def follow : Node → List Nat → Option Node
  | n, [] => some n
  | n, i :: path => n.children[i]?.bind fun child => child.follow path

theorem follow_nil (n : Node) : n.follow [] = some n := by rw [follow]

theorem follow_cons (n : Node) (i : Nat) (path : List Nat) :
    n.follow (i :: path) = n.children[i]?.bind fun child => child.follow path := by rw [follow]

/-! ## Changing a tree -/

/-- **The tree with the node at the end of a path changed.** -/
def changedAt (f : Node → Node) : List Nat → Node → Node
  | [], n => f n
  | i :: path, n => .mk n.form n.span (n.children.modify i (changedAt f path))

/-- The node with the child at an index taken out. -/
def withoutChild (i : Nat) (n : Node) : Node := .mk n.form n.span (n.children.eraseIdx i)

mutual
/-- **The tree with no word on where its nodes stand.** -/
def unplaced : Node → Node
  | .mk f _ cs => .mk f ⟨0, 0⟩ (unplacedAll cs)

/-- A list of trees with no word on where their nodes stand. -/
def unplacedAll : List Node → List Node
  | [] => []
  | n :: rest => unplaced n :: unplacedAll rest
end

theorem unplacedAll_eq (ns : List Node) : unplacedAll ns = ns.map unplaced := by
  induction ns with
  | nil => rfl
  | cons n rest ih => rw [unplacedAll, ih, List.map_cons]

theorem unplaced_mk (f : Form) (s : Span) (cs : List Node) :
    unplaced (.mk f s cs) = .mk f ⟨0, 0⟩ (cs.map unplaced) := by rw [unplaced, unplacedAll_eq]

end SlotEdit.Node
