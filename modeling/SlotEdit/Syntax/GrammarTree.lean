import SlotEdit.Syntax.Span

/-!
# Syntax/GrammarTree — what a grammar makes of a text

A `GrammarTree` is a concrete syntax tree: every node names its construct, the part it plays in
its parent (`role`, empty for most) and the span it stands on.  Punctuation and keywords are kept
as unnamed nodes.
-/

namespace SlotEdit

/-- A node of a concrete syntax tree. -/
inductive GrammarTree
  | node (construct : String) (named : Bool) (role : String) (span : Span)
      (children : List GrammarTree)
deriving Repr, Inhabited

namespace GrammarTree

mutual
/-- Whether two trees are the same. -/
def decEq : (s t : GrammarTree) → Decidable (s = t)
  | .node c n r s cs, .node c' n' r' s' cs' =>
    have := decEqAll cs cs'
    decidable_of_iff (c = c' ∧ n = n' ∧ r = r' ∧ s = s' ∧ cs = cs') (by rw [node.injEq])

/-- Whether two lists of trees are the same. -/
def decEqAll : (ss ts : List GrammarTree) → Decidable (ss = ts)
  | [], [] => isTrue rfl
  | [], _ :: _ => isFalse nofun
  | _ :: _, [] => isFalse nofun
  | s :: ss, t :: ts =>
    have := decEq s t
    have := decEqAll ss ts
    decidable_of_iff (s = t ∧ ss = ts) (by rw [List.cons.injEq])
end

instance : DecidableEq GrammarTree := decEq

/-- A named node without a role. -/
def named (construct : String) (span : Span) (children : List GrammarTree) : GrammarTree :=
  .node construct true "" span children

/-- An unnamed token. -/
def token (text : String) (span : Span) : GrammarTree := .node text false "" span []

/-- The name of the node's construct. -/
def construct : GrammarTree → String
  | .node c _ _ _ _ => c

/-- Whether the node is more than punctuation or a keyword. -/
def isNamed : GrammarTree → Bool
  | .node _ n _ _ _ => n

/-- The part the node plays in its parent. -/
def role : GrammarTree → String
  | .node _ _ r _ _ => r

/-- The offsets the node stands on. -/
def span : GrammarTree → Span
  | .node _ _ _ s _ => s

/-- All children, punctuation included. -/
def children : GrammarTree → List GrammarTree
  | .node _ _ _ _ cs => cs

/-- The children that are more than punctuation. -/
def namedChildren (t : GrammarTree) : List GrammarTree := t.children.filter isNamed

/-- The node with another role. -/
def withRole (role : String) : GrammarTree → GrammarTree
  | .node c n _ s cs => .node c n role s cs

/-- The first child that plays a role. -/
def childWithRole? (t : GrammarTree) (role : String) : Option GrammarTree :=
  t.children.find? fun c => c.role == role

mutual
/-- The node and all its descendants, parents first. -/
def walk : GrammarTree → List GrammarTree
  | .node c n r s cs => .node c n r s cs :: walkAll cs

/-- The nodes of a list of trees, in order. -/
def walkAll : List GrammarTree → List GrammarTree
  | [] => []
  | t :: rest => walk t ++ walkAll rest
end

mutual
/-- The tree with every offset counted otherwise. -/
def mapOffsets (f : Nat → Nat) : GrammarTree → GrammarTree
  | .node c n r s cs => .node c n r ⟨f s.start, f s.stop⟩ (mapOffsetsAll f cs)

/-- The trees of a list, every offset counted otherwise. -/
def mapOffsetsAll (f : Nat → Nat) : List GrammarTree → List GrammarTree
  | [] => []
  | t :: rest => mapOffsets f t :: mapOffsetsAll f rest
end

end GrammarTree

end SlotEdit
