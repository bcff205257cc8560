import SlotEdit.Console.Markup
import SlotEdit.Console.Output
import SlotEdit.Template.Template
import SlotEdit.Configuration.Store

/-!
# CommandLine/Report — results as tables and outlines

What commands show: the languages, the fragments found, the slots of a template, the configuration,
and the syntax tree of a document down to some depth (`Node.outline`).
-/

namespace SlotEdit

/-! ## Syntax trees -/

/-- The label of a node that is shown below another; one without children shows its text too. -/
def Node.label (text : String) (lines : LineTable) (n : Node) : String :=
  let label := "[cyan]" ++ n.typeName ++ "[/cyan] [dim]" ++ (n.range lines).render ++ "[/dim]"
  if n.isLeaf then label ++ " " ++ excerpt (quoted (n.text text)) else label

/-- The label of the root. -/
def Node.rootLabel (lines : LineTable) (n : Node) : String :=
  "[bold cyan]" ++ n.typeName ++ "[/bold cyan] [dim]" ++ (n.range lines).render ++ "[/dim]"

/-- Nodes at `depth` show what is below them. -/
def showsBelow (limit : Option Int) (depth : Int) : Bool :=
  match limit with
  | none => true
  | some d => depth < d

mutual
/-- A node at `depth` with the nodes below it, as far down as `limit` allows. -/
def Node.branch (text : String) (lines : LineTable) (limit : Option Int) (depth : Int) :
    Node → Outline
  | .mk form span children =>
    let n := Node.mk form span children
    .mk (n.label text lines)
      (if showsBelow limit depth then Node.branches text lines limit (depth + 1) children else [])

/-- Some nodes at `depth`, one after another. -/
def Node.branches (text : String) (lines : LineTable) (limit : Option Int) (depth : Int) :
    List Node → List Outline
  | [] => []
  | n :: rest => Node.branch text lines limit depth n :: Node.branches text lines limit depth rest
end

/-- **The outline of a tree.**  The nodes below the root are always shown, those further down
while they are no deeper than `limit`. -/
def SyntaxTree.outline (t : SyntaxTree) (limit : Option Int) : Outline :=
  let lines := LineTable.ofText t.text
  .mk (t.root.rootLabel lines) (Node.branches t.text lines limit 1 t.root.children)

/-! ## Tables -/

/-- The languages there are. -/
def languagesTable (r : Registry) : Output :=
  .table "Languages" ["Id", "Name", "Editor id", "Structural matching"]
    (r.languages.map fun l => [l.id, l.name, l.editorId, if l.isStructural then "yes" else "no"])

/-- As many of some things as a limit allows; a negative one says how many to leave out at the
end. -/
def limited {α : Type} (limit : Int) (xs : List α) : List α :=
  xs.take (if limit < 0 then (xs.length + limit).toNat else limit.toNat)

/-- What there is to say of a fragment: its groups, or the type of its node. -/
def Fragment.details (f : Fragment) : String :=
  match f.finding with
  | .node n => n.typeName
  | .matched _ groups =>
    escapeMarkup (", ".intercalate (groups.map fun g => g.name ++ "=" ++ quoted g.value))

/-- The fragments that were found. -/
def fragmentsTable (fragments : List Fragment) (limit : Int) : Output :=
  .table ("Fragments (" ++ toString fragments.length ++ ")") ["#", "Range", "Text", "Details"]
    ((limited limit fragments).zipIdx.map fun (f, i) =>
      [toString i, f.range.render, excerpt f.text, f.details])

variable [Interpreter]

/-- The value of a slot as it is shown, or why it has none. -/
def Slot.shown (s : Slot) : Except ValueFault String :=
  let display := do
    let v ← s.value
    v.display.mapError .badNumber
  match display with
  | .ok text => .ok (escapeMarkup text)
  | .error fault =>
    if fault.isTooDeep then .error fault
    else .ok ("[red]" ++ escapeMarkup (quoted s.raw) ++ " (" ++ escapeMarkup fault.message
      ++ ")[/red]")

/-- The row of a key of a fragment's slots. -/
def slotRow (index : Nat) (slots : List Slot) (key : String) :
    Except ValueFault (List String) :=
  match Template.findSlot? slots key with
  | none => .ok [toString index, key, "-", "[dim]absent[/dim]"]
  | some s => s.shown.map fun shown => [toString index, key, s.range.render, shown]

/-- The slots of the fragments of a template, one row for each key of each fragment. -/
def slotsTable (t : Template) (limit : Int) : Except ValueFault Output := do
  let rows ← (limited limit t.bound).zipIdx.mapM fun (b, i) =>
    t.specification.mapM fun (key, _) => slotRow i b.slots key
  pure (.table "Slots" ["Fragment", "Key", "Range", "Value"] rows.flatten)

/-- The configuration with where it is kept. -/
def configurationTable (rows : List (String × Value)) : Except NumberFault Output := do
  let rows ← rows.mapM fun (name, v) => do
    let text ← v.plain
    pure [name, text]
  pure (.table "Configuration" ["Setting", "Value"] rows)

end SlotEdit
