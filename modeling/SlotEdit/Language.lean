import SlotEdit.Syntax.PlainText
import SlotEdit.Text.ByteOffsets
import SlotEdit.Json.Tree
import SlotEdit.Css.Tree
import SlotEdit.Math.Tree
import SlotEdit.Script.Tree

/-!
# Language — the languages documents are written in

A `Language` is a name, an identifier and perhaps a `Grammar`; `SyntaxTree.ofText` reads a text by
a grammar and never fails: a text that does not fit becomes one `error` node over all of it.  The concrete
trees may come from any reader (`SyntaxTree.ofTextBy`), also from one that counts bytes (`inCharacters`); the
readers at hand count characters.  A `Registry` looks languages up by identifier.
-/

namespace SlotEdit

variable [Interpreter]

/-- The grammars texts are read by. -/
inductive Grammar
  | json
  | css
  | math
  | python
  | plainText
deriving DecidableEq, Repr

/-- The concrete trees of a text, as some reader gives them. -/
abbrev ConcreteReader := Grammar → String → Option GrammarTree

/-- The readers at hand.  A grammar without concrete trees needs none. -/
def Grammar.concreteTree? : ConcreteReader
  | .json => Json.Grammar.grammarTree?
  | .css => Css.Grammar.grammarTree?
  | .python => Script.grammarTree?
  | .math | .plainText => fun _ => none

/-- **A reader that counts bytes**, its offsets turned into those of characters. -/
def ConcreteReader.inCharacters (read : ConcreteReader) : ConcreteReader := fun g text =>
  (read g text).map (GrammarTree.mapOffsets (ByteOffsets.ofText text).charOffset)

/-- The root node a grammar makes of a text, or the message of the fault. -/
def Grammar.rootNodeBy (read : ConcreteReader) (g : Grammar) (text : String) : Except String Node :=
  match g with
  | .json => (Json.ofTextBy (read .json) text).mapError Json.TreeFault.message
  | .css => (Css.ofTextBy (read .css) text).mapError Css.TreeFault.message
  | .math => (Math.ofText text).mapError Math.Fault.message
  | .python => (Script.ofTextBy (read .python) text).mapError Script.TreeFault.message
  | .plainText => .ok (PlainText.ofText text)

theorem Grammar.rootNodeBy_json (text : String) :
    Grammar.json.rootNodeBy concreteTree? text = (Json.ofText text).mapError Json.TreeFault.message := rfl

theorem Grammar.rootNodeBy_css (text : String) :
    Grammar.css.rootNodeBy concreteTree? text = (Css.ofText text).mapError Css.TreeFault.message := rfl

/-- The name a grammar reports faults under. -/
def Grammar.reporter : Grammar → String
  | .json => "JsonParser"
  | .css => "CssParser"
  | .math => "MathParser"
  | .python => "PythonParser"
  | .plainText => "PlainTextParser"

/-- A text and the root of its tree. -/
structure SyntaxTree where
  text : String
  root : Node

namespace SyntaxTree

/-- **The tree a grammar makes of a text**; a text that does not fit is one `error` node. -/
def ofTextBy (read : ConcreteReader) (g : Grammar) (text : String) : SyntaxTree :=
  match g.rootNodeBy read text with
  | .ok root => ⟨text, root⟩
  | .error message => ⟨text, .mk (.error message) ⟨0, text.length⟩ []⟩

/-- The tree of a text, by the readers at hand. -/
def ofText (g : Grammar) (text : String) : SyntaxTree := ofTextBy Grammar.concreteTree? g text

/-- The message of a text that did not fit. -/
def fault? (t : SyntaxTree) : Option String :=
  match t.root.form with
  | .error message => some message
  | _ => none

end SyntaxTree

/-- A language documents can be written in. -/
structure Language where
  name : String
  id : String
  editorId : String
  grammar : Option Grammar
deriving DecidableEq, Repr

/-- The language has a grammar, so structures can be found in its documents. -/
def Language.isStructural (l : Language) : Bool := l.grammar.isSome

/-- The built-in languages. -/
def builtinLanguages : List Language :=
  [⟨"JSON", "json", "json", some .json⟩,
   ⟨"CSS", "css", "css", some .css⟩,
   ⟨"Mathematics", "math", "plaintext", some .math⟩,
   ⟨"Python (subset)", "python", "python", some .python⟩,
   ⟨"Plain text", "plaintext", "plaintext", some .plainText⟩]

/-- An identifier that is taken. -/
structure AlreadyRegistered where
  id : String
deriving DecidableEq, Repr

/-- The wording of an identifier that is taken. -/
def AlreadyRegistered.message (e : AlreadyRegistered) : String :=
  "A language with id " ++ quoted e.id ++ " is already registered"

/-- Languages by identifier, in the order they were registered. -/
structure Registry where
  languages : List Language
deriving Repr

namespace Registry

/-- No language. -/
def empty : Registry := ⟨[]⟩

/-- The built-in languages. -/
def builtin : Registry := ⟨builtinLanguages⟩

/-- The language with an identifier. -/
def get? (r : Registry) (id : String) : Option Language := r.languages.find? fun l => l.id == id

/-- Some language has the identifier. -/
def contains (r : Registry) (id : String) : Bool := (r.get? id).isSome

/-- The identifiers, in the order of registration. -/
def ids (r : Registry) : List String := r.languages.map Language.id

/-- The registry with one more language, whose identifier must be new. -/
def register (r : Registry) (l : Language) : Except AlreadyRegistered Registry :=
  if r.contains l.id then .error ⟨l.id⟩ else .ok ⟨r.languages ++ [l]⟩

end Registry

end SlotEdit
