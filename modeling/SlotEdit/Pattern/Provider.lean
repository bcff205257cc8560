import SlotEdit.Pattern.TreePattern
import SlotEdit.Regex.Finder
import SlotEdit.Json.Tree
import SlotEdit.Css.Tree

/-!
# Pattern/Provider — where fragments come from

A `Provider` finds the fragments of a document: by a regular expression, by a tree pattern, by
several providers together, or by one whose fragments must all be of a shape.
-/

namespace SlotEdit

variable [Interpreter]

/-- The matches of a regular expression as fragments; an empty document has none. -/
def Regex.Finder.fragments (f : Regex.Finder) (d : Document) : List Fragment :=
  if d.isEmpty then []
  else
    let lines := d.lines
    let group (g : Regex.FoundGroup) : MatchedGroup :=
      ⟨g.name, slice d.content g.span.start g.span.stop,
        lines.rangeOf g.span.start g.span.stop⟩
    (f.findAll d.content).map fun m =>
      ⟨d, lines.rangeOf m.span.start m.span.stop,
        .matched (slice d.content m.span.start m.span.stop) (m.groups.map group)⟩

/-! ## Shapes -/

/-- What a fragment may have to hold. -/
inductive Shape
  | jsonObject
  | cssRule
deriving DecidableEq, Repr

/-- A fragment that does not hold what it has to. -/
structure ShapeFault where
  expected : Shape
  fragment : Fragment
deriving Repr

/-- The wording of a fragment that does not hold what it has to. -/
def ShapeFault.message (e : ShapeFault) : String :=
  e.fragment.range.render ++ match e.expected with
    | .jsonObject => " does not hold a JSON object"
    | .cssRule => " does not hold a CSS rule"

/-- The JSON object of a fragment: its node, or the value of the property it is. -/
def Fragment.object? (f : Fragment) : Option Node :=
  f.node?.bind fun n =>
    let n := (Json.propertyValue? n).getD n
    if Json.isObject n then some n else none

/-- The declaration block of a fragment that is a rule. -/
def Fragment.block? (f : Fragment) : Option Node := f.node?.bind Css.blockOf?

/-- What a fragment holds of a shape. -/
def Shape.of? : Shape → Fragment → Option Node
  | .jsonObject, f => f.object?
  | .cssRule, f => f.block?

/-! ## Providers -/

/-- **Where fragments come from.** -/
inductive Provider
  | regex (finder : Regex.Finder)
  | tree (pattern : TreePattern)
  | composite (providers : List Provider)
  | holding (shape : Shape) (provider : Provider)

/-- The order of fragments by where they start. -/
def Fragment.startsBefore (f g : Fragment) : Bool := f.range.start ≤ g.range.start

/-- A fragment that holds a shape, or the fault of one that does not. -/
def Shape.check (s : Shape) (f : Fragment) : Except ShapeFault Node :=
  match s.of? f with
  | some n => .ok n
  | none => .error ⟨s, f⟩

mutual
/-- **The fragments of a document.**  Those of a composite are ordered by where they start, and
fragments that start together keep the order of their providers. -/
def Provider.fragments (d : Document) : Provider → Except ShapeFault (List Fragment)
  | .regex finder => .ok (finder.fragments d)
  | .tree pattern => .ok (pattern.fragments d)
  | .composite providers => do
    pure ((← Provider.fragmentsOfAll d providers).mergeSort Fragment.startsBefore)
  | .holding shape provider => do
    let fs ← Provider.fragments d provider
    let _ ← fs.mapM shape.check
    pure fs

/-- The fragments of several providers, one after another. -/
def Provider.fragmentsOfAll (d : Document) : List Provider → Except ShapeFault (List Fragment)
  | [] => .ok []
  | p :: rest => do
    let fs ← Provider.fragments d p
    let more ← Provider.fragmentsOfAll d rest
    pure (fs ++ more)
end

end SlotEdit
