import SlotEdit.Syntax.Node

/-!
# Syntax/Walking — trees walked with a stack

The nodes that are still to come are on a stack, the next one on top.  A walk takes the top node off and
puts its children on, the last one first, so that the first one comes next (`walkFrom`).  What is on the
stack at any time is walked one tree after another (`walkFrom_eq`).
-/

namespace SlotEdit.Node

/-- A stack with some nodes put on top, one after another. -/
def pushed (stack : List Node) (ns : List Node) : List Node := ns.foldl (fun stack n => n :: stack) stack

@[simp] theorem pushed_reverse (stack ns : List Node) : pushed stack ns.reverse = ns ++ stack := by
  rw [pushed, List.foldl_reverse]
  exact List.foldr_cons_eq_append'

theorem sizeOf_append (ns stack : List Node) : sizeOf (ns ++ stack) + 1 = sizeOf ns + sizeOf stack := by
  induction ns with
  | nil => rw [List.nil_append, List.nil.sizeOf_spec, Nat.add_comm]
  | cons n rest ih =>
    rw [List.cons_append, List.cons.sizeOf_spec, List.cons.sizeOf_spec]
    omega

/-- With its children in the place of its top node, a stack is smaller. -/
theorem sizeOf_pushed_lt (n : Node) (rest : List Node) :
    sizeOf (pushed rest n.children.reverse) < sizeOf (n :: rest) := by
  have hsize := sizeOf_append n.children rest
  obtain ⟨form, span, children⟩ := n
  rw [pushed_reverse, List.cons.sizeOf_spec, Node.mk.sizeOf_spec]
  rw [Node.children] at hsize ⊢
  omega

/-- **The nodes of the trees on a stack**, in the order they are visited. -/
def walkFrom (stack : List Node) : List Node :=
  match stack with
  | [] => []
  | n :: rest => n :: walkFrom (pushed rest n.children.reverse)
termination_by sizeOf stack
decreasing_by exact sizeOf_pushed_lt n rest

theorem walkAll_eq_flatMap (ns : List Node) : walkAll ns = ns.flatMap walk := by
  induction ns with
  | nil => rw [walkAll, List.flatMap_nil]
  | cons n rest ih => rw [walkAll, ih, List.flatMap_cons]

/-- **A stack is walked tree by tree**, each with its parents first. -/
theorem walkFrom_eq (stack : List Node) : walkFrom stack = stack.flatMap walk := by
  induction stack using walkFrom.induct with
  | case1 => rw [walkFrom, List.flatMap_nil]
  | case2 n rest ih =>
    rw [walkFrom, ih, pushed_reverse, List.flatMap_append, List.flatMap_cons]
    obtain ⟨form, span, children⟩ := n
    rw [walk, Node.children, walkAll_eq_flatMap, List.cons_append]

@[simp] theorem walkFrom_singleton (root : Node) : walkFrom [root] = root.walk := by
  rw [walkFrom_eq, List.flatMap_cons, List.flatMap_nil, List.append_nil]

end SlotEdit.Node
