import SlotEdit.Json.Tree
import SlotEdit.Json.Encode
import SlotEdit.Edit.Editor
import SlotEdit.Text.Lines

/-!
# Json/Properties — adding properties to objects and taking them out

`insertionEdit` puts a property behind the last one of an object; in an object that spans lines it
gets a line of its own.  `deletionEdit?` takes a property out together with the comma before it, or
behind it when it is the first.
-/

namespace SlotEdit.Json

/-- The properties of an object whose key is one of several, in source order. -/
def findProperties (object : Node) (keys : List String) : List Node :=
  object.children.filter fun p => keys.any fun key => hasKey key p

/-- The property of the first of several keys that an object has. -/
def firstProperty? (object : Node) (keys : List String) : Option Node :=
  keys.findSome? (property? object)

/-- An object spans more than one line. -/
def isMultiline (text : List Char) (n : Node) : Bool :=
  (sliceList text n.span.start n.span.stop).contains '\n'

/-- A property as text. -/
def member (key : String) (valueText : LooseText) : LooseText := encodeString key ++ ": " ++ valueText

/-- **The edit that adds a property to an object.**  A line of its own is indented like the last
property, or deeper than the closing brace when there is none, unless an indentation is given. -/
def insertionEdit (d : Document) (object : Node) (key : String) (valueText : LooseText)
    (indentation : Option LooseText) (lineBreak : String) : TextEdit :=
  let text := d.content.toList
  let multiline := isMultiline text object
  let (offset, newText) : Nat × LooseText :=
    match object.children.getLast? with
    | some last =>
      (last.span.stop,
       if multiline then
         "," ++ lineBreak ++ indentation.getD (lineIndentation text last.span.start)
           ++ member key valueText
       else ", " ++ member key valueText)
    | none =>
      (object.span.start + 1,
       if multiline then
         lineBreak ++ indentation.getD (lineIndentation text (object.span.stop - 1) ++ deeper)
           ++ member key valueText
       else member key valueText)
  .insert (d.lines.positionAt offset) (.ofText newText)

/-- The span of a property with one comma next to it, if there is one: given the properties before
it, last one first, and those behind it. -/
def deletionSpan (object property : Node) (before after : List Node) : Span :=
  match before, after with
  | previous :: _, _ => ⟨previous.span.stop, property.span.stop⟩
  | [], next :: _ => ⟨property.span.start, next.span.start⟩
  | [], [] => ⟨object.span.start + 1, object.span.stop - 1⟩

/-- The place of the last property with a key. -/
def lastIndex? (key : LooseText) : List Node → Option Nat
  | [] => none
  | p :: rest =>
    match lastIndex? key rest with
    | some i => some (i + 1)
    | none => if hasKey key p then some 0 else none

/-- **The edit that takes the property at an index out of an object.** -/
def deletionEditAt? (d : Document) (object : Node) (i : Nat) : Option TextEdit :=
  object.children[i]?.map fun property =>
    let span := deletionSpan object property (object.children.take i).reverse (object.children.drop (i + 1))
    .delete (d.lines.rangeOf span.start span.stop)

/-- The edit that takes the last property with a key out of an object, if there is one. -/
def deletionEdit? (d : Document) (object : Node) (key : LooseText) : Option TextEdit :=
  (lastIndex? key object.children).bind (deletionEditAt? d object)

end SlotEdit.Json
