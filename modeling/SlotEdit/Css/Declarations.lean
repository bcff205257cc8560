import SlotEdit.Css.Tree
import SlotEdit.Edit.Editor
import SlotEdit.Text.Lines

/-!
# Css/Declarations — adding declarations to blocks and taking them out

`insertionEdit` puts a declaration behind the last one of a block, with the semicolon that one may
lack.  `deletionEdit?` takes a declaration out with the blanks behind it, and with its whole line
when nothing else is on it.
-/

namespace SlotEdit.Css

/-- A block spans more than one line. -/
def isMultiline (text : List Char) (n : Node) : Bool :=
  (sliceList text n.span.start n.span.stop).contains '\n'

/-- **The edit that adds a declaration to a block.** -/
def insertionEdit (d : Document) (block : Node) (property : String) (valueText : LooseText)
    (indentation : Option LooseText) (lineBreak : String) : TextEdit :=
  let text := d.content.toList
  let multiline := isMultiline text block
  let declaration : LooseText := property ++ ": " ++ valueText ++ ";"
  let (offset, newText) : Nat × LooseText :=
    match (declarations block).getLast? with
    | some last =>
      let separator : String := if hasSemicolon last then "" else ";"
      (last.span.stop,
       separator ++
         if multiline then
           lineBreak ++ indentation.getD (lineIndentation text last.span.start) ++ declaration
         else " " ++ declaration)
    | none =>
      (block.span.start + 1,
       if multiline then
         lineBreak ++ indentation.getD (lineIndentation text (block.span.stop - 1) ++ deeper)
           ++ declaration
       else " " ++ declaration ++ " ")
  .insert (d.lines.positionAt offset) (.ofText newText)

/-- The span of a declaration with the blanks behind it, and the whole line when it is alone
there. -/
def deletionSpan (text : List Char) (declaration : Span) : Span :=
  let stop := declaration.stop + ((text.drop declaration.stop).takeWhile isIndent).length
  let before := (text.take declaration.start).reverse
  let indent := (before.takeWhile isIndent).length
  let startsLine := ((before.drop indent).head?.map (· == '\n')).getD true
  if startsLine && (text.drop stop).head? == some '\n' then
    ⟨declaration.start - indent, stop + 1⟩
  else ⟨declaration.start, stop⟩

/-- **The edit that takes the last declaration of a property out of a block**, if there is one. -/
def deletionEdit? (d : Document) (block : Node) (property : String) : Option TextEdit :=
  (declaration? d.content block property).map fun declaration =>
    let span := deletionSpan d.content.toList declaration.span
    .delete (d.lines.rangeOf span.start span.stop)

end SlotEdit.Css
