import SlotEdit.Template.Binding

/-!
# Tour — the library in three examples

Finding fragments, editing a JSON object through a template that follows an editor, and adding a
declaration to a style rule.  Each example is the lines it shows; one that could not be carried out
would show none.
-/

namespace SlotEdit.Tour

variable [Interpreter]

/-- A document in one of the built-in languages. -/
def document? (content id : String) : Option Document :=
  (Registry.builtin.get? id).map fun language => ⟨content, language⟩

/-- A value as a reader is shown it. -/
def shown (v : Value) : Option String := v.display.toOption

/-- The values of a fragment of a template. -/
def valuesOf (t : Template) (h : Handle) : Option Value :=
  (t.valuesOf h).toOption.map fun values => .dict (values.map fun (key, v) => (.str key, v))

/-! ## Finding fragments -/

/-- The pattern of a length in pixels. -/
def pixels : String := "(?<num>\\d+)px"

/-- The powers in an expression. -/
def powers : Option (List String) := do
  let d ← document? "2 * x^2 - sqrt(y^3 + 1)" "math"
  pure (((TreePattern.ofType "Exponent" fun _ _ => .below).fragments d).map fun f =>
    "• " ++ ((f.node?.map Node.typeName).getD "") ++ " at " ++ f.range.render ++ ": " ++ f.text)

/-- The lengths in a style rule, as groups and as the values of slots. -/
def lengths : Option (List String) := do
  let d ← document? "a { width: 10px; height: 20px; }" "css"
  let finder ← (Regex.Finder.ofPattern pixels []).toOption
  let groups ← (finder.fragments d).mapM fun f => f.group? "num"
  let t := Template.ofSubject (.groups finder) [("num", .number)] (.named Settings.defaultName)
  let t ← (t.compute d).toOption
  let sizes ← t.handles.mapM fun h => do
    let values ← (t.valuesOf h).toOption
    values.lookup "num"
  let sizes ← shown (.list sizes)
  pure ((groups.map fun g => "• num=" ++ g.value ++ " at " ++ g.range.render)
    ++ ["Sizes: " ++ sizes])

/-- **Fragments by the type of their node and by a pattern.** -/
def finding : Option (List String) := do
  let powers ← powers
  let lengths ← lengths
  pure (["=== Example 1: Finding fragments ==="] ++ powers ++ lengths)

/-! ## Editing -/

/-- **Two edits of an object as one batch**, and the template after it. -/
def jsonEditing : Option (List String) := do
  let d ← document? "\x7b\n  \"mark\": \x7b\n    \"fill\": \"red\",\n    \"size\": 10\n  \x7d\n\x7d\n"
    "json"
  let t := Template.ofSubject (Template.objectsOf "mark")
    [("fill", .json), ("size", .number), ("opacity", .number)]
    (.named (Template.objectsName "mark"))
  let b := (Binding.bind ⟨.ofDocument d, t⟩).1
  let h ← b.template.handles.head?
  let before ← valuesOf b.template h >>= shown
  let fill ← (b.template.commit h "fill" (.str "blue")).toOption
  let opacity ← (b.template.commit h "opacity" (.float (.ofRatio false 1 2))).toOption
  let b := (b.queue fill).queue opacity
  let diff ← (b.editor.preview defaultContext).toOption
  let b := b.apply.1
  let h ← b.template.handles.head?
  let after ← valuesOf b.template h >>= shown
  pure ["", "=== Example 2: JSON object template ===", "Slots before: " ++ before, diff,
    "Slots after: " ++ after, b.editor.document.content]

/-- **A declaration added to a style rule.** -/
def cssEditing : Option (List String) := do
  let d ← document? "button \x7b\n    color: red\n\x7d\n" "css"
  let t := Template.ofSubject (Template.rulesOf "button") [("padding", .text)]
    (.named (Template.rulesName "button"))
  let t ← (t.compute d).toOption
  let h ← t.handles.head?
  let edit ← (t.commit h "padding" (.str "4px")).toOption
  let editor : Editor Unit := (Editor.ofDocument d).add edit
  let (editor, _) ← editor.apply.toOption
  pure ["", "=== Example 3: CSS rule template ===", editor.document.content]

/-! ## The whole tour -/

/-- What stands before the examples. -/
def opening : List String := ["Monocle Example", "==============="]

/-- Where to go on. -/
def closing : List String :=
  ["", "To use the command line:", "  monocle find theme.json --node-type Property",
   "  monocle json-set theme.json --object-key mark --key fill --value '\"blue\"' --dry-run"]

/-- **All examples, one after another.** -/
def whole : Option (List String) := do
  let first ← finding
  let second ← jsonEditing
  let third ← cssEditing
  pure (opening ++ first ++ second ++ third ++ closing)

/-- Lines as a text. -/
def text (lines : Option (List String)) : String :=
  String.join ((lines.getD []).map fun line => line ++ "\n")

end SlotEdit.Tour
