import SlotEdit.Language

/-!
# Document — a text in a language

A `Document` never changes; an edit makes a new one.  What is derived from it (its lines, its
syntax tree) holds for that one document only.
-/

namespace SlotEdit

variable [Interpreter]

/-- A text and the language it is written in. -/
structure Document where
  content : String
  language : Language
deriving DecidableEq, Repr

namespace Document

/-- Where the lines of the document start. -/
def lines (d : Document) : LineTable := LineTable.ofText d.content

/-- The document has no text. -/
def isEmpty (d : Document) : Bool := d.content.isEmpty

/-- The span of the whole text. -/
def range (d : Document) : TextRange :=
  TextRange.between ⟨0, 0⟩ (d.lines.positionAt d.content.length)

/-- The offsets a span stands on. -/
def spanOf (d : Document) (r : TextRange) : Span := ⟨d.lines.offsetAt r.start, d.lines.offsetAt r.stop⟩

/-- The text in a span. -/
def contentIn (d : Document) (r : TextRange) : String :=
  let s := d.spanOf r
  slice d.content s.start s.stop

/-- The syntax tree, if the language has a grammar. -/
def syntaxTree? (d : Document) : Option SyntaxTree :=
  d.language.grammar.map fun g => SyntaxTree.ofText g d.content

/-- A document of the same language with another text. -/
def withContent (d : Document) (content : String) : Document := { d with content }

end Document

end SlotEdit
