import SlotEdit.Pattern.Provider
import SlotEdit.Template.Valuator
import SlotEdit.Template.Settings
import SlotEdit.Json.Properties
import SlotEdit.Css.Declarations

/-!
# Template/Template — named, typed slots of the fragments of a document

A `Template` finds fragments and gives each of them slots: named parts with a value.  Every pass
over a document replaces all fragments and slots of the pass before; a fragment is asked for by a
`Handle`, which belongs to one pass only.
-/

namespace SlotEdit

variable [Interpreter]

/-- What a template is made for: the named groups of a regular expression, the properties of JSON
objects, or the declarations of style rules. -/
inductive Subject
  | groups (finder : Regex.Finder)
  | properties (provider : Provider)
  | declarations (provider : Provider)

/-- The keys of the slots of a template and how their values are read, each key once. -/
abbrev SlotSpecification := List (String × Valuator)

/-- A specification with one more key: one that is there keeps its place. -/
def SlotSpecification.insert (spec : SlotSpecification) (key : String) (v : Valuator) :
    SlotSpecification :=
  match spec with
  | [] => [(key, v)]
  | (k, w) :: rest => if k = key then (k, v) :: rest else (k, w) :: insert rest key v

/-- The specification of a list of keys, a later entry of the same key winning. -/
def SlotSpecification.ofEntries (entries : List (String × Valuator)) : SlotSpecification :=
  entries.foldl (fun spec e => spec.insert e.1 e.2) []

/-- A named part of a fragment, and how its value is read. -/
structure Slot where
  key : String
  raw : String
  range : TextRange
  valuator : Valuator
deriving DecidableEq, Repr

namespace Slot

/-- The value of a slot. -/
def value (s : Slot) : Except ValueFault Value := s.valuator.deserialize s.raw

/-- The edit that gives a slot a value. -/
def commit (s : Slot) (value : Value) : Except ValueFault TextEdit :=
  (s.valuator.serialize value).map (.replace s.range ·)

/-- A slot on one line. -/
def render (s : Slot) : String :=
  "<TemplateSlot " ++ s.key ++ "=" ++ quoted s.raw ++ " at " ++ s.range.render ++ ">"

end Slot

/-! ## One pass over a document -/

/-- A fragment with its slots, in the order of the specification. -/
structure Bound where
  fragment : Fragment
  slots : List Slot
deriving Repr

/-- A node of a document as a slot. -/
def Slot.ofNode (d : Document) (lines : LineTable) (key : String) (v : Valuator) (n : Node) : Slot :=
  ⟨key, n.text d.content, n.range lines, v⟩

/-- The slots of one fragment, given the node of each key. -/
def slotsOfNodes (d : Document) (lines : LineTable) (spec : SlotSpecification)
    (node? : String → Option Node) : List Slot :=
  spec.filterMap fun (key, v) => (node? key).map (Slot.ofNode d lines key v)

namespace Subject

/-- The fragments of a document with what they hold. -/
def held (shape : Shape) (provider : Provider) (d : Document) :
    Except ShapeFault (List (Fragment × Node)) := do
  let fs ← provider.fragments d
  fs.mapM fun f => do pure (f, ← shape.check f)

/-- **The fragments of a document with their slots.** -/
def bound (s : Subject) (spec : SlotSpecification) (d : Document) :
    Except ShapeFault (List Bound) :=
  let lines := d.lines
  match s with
  | .groups finder =>
    .ok ((finder.fragments d).map fun f =>
      ⟨f, spec.filterMap fun (key, v) =>
        (f.group? key).map fun g => ⟨key, g.value, g.range, v⟩⟩)
  | .properties provider => do
    pure ((← held .jsonObject provider d).map fun (f, object) =>
      ⟨f, slotsOfNodes d lines spec fun key =>
        (Json.property? object key).bind Json.propertyValue?⟩)
  | .declarations provider => do
    pure ((← held .cssRule provider d).map fun (f, block) =>
      ⟨f, slotsOfNodes d lines spec fun key =>
        (Css.declaration? d.content block key).bind Css.valueOf?⟩)

/-- A template used as a provider: the fragments it would find. -/
def provider : Subject → Provider
  | .groups finder => .regex finder
  | .properties provider => .holding .jsonObject provider
  | .declarations provider => .holding .cssRule provider

end Subject

/-! ## Templates -/

/-- **A template**, with the document of its last pass and what that pass found. -/
structure Template where
  subject : Subject
  specification : SlotSpecification
  settings : Settings
  pass : Nat
  document : Option Document
  bound : List Bound

/-- A fragment of a pass of a template. -/
structure Handle where
  pass : Nat
  index : Nat
deriving DecidableEq, Repr

/-- Why a template cannot do what it is asked. -/
inductive TemplateFault
  | unknownKey (key : String)
  | staleFragment (templateName : String)
  | noInsertion (templateName key : String)
  | noDeletion (templateName key : String)
  | value (fault : ValueFault)
  | shape (fault : ShapeFault)

/-- The wording of what a template cannot do. -/
def TemplateFault.message : TemplateFault → String
  | .unknownKey key => "Unknown slot key " ++ quoted key
  | .staleFragment name => "the fragment does not belong to the current pass of " ++ name
  | .noInsertion name key =>
    name ++ ": cannot insert missing slot " ++ quoted key ++ " into a regex match"
  | .noDeletion name key => name ++ ": cannot delete slot " ++ quoted key ++ " from a regex match"
  | .value fault => fault.message
  | .shape fault => fault.message

namespace Template

/-- A template that has seen no document. -/
def ofSubject (subject : Subject) (spec : SlotSpecification) (settings : Settings) : Template :=
  ⟨subject, spec, settings, 0, none, []⟩

/-- The predicate of a property with a key whose value is an object. -/
def isObjectAssignment (key : String) (n : Node) : Bool :=
  Json.hasKey key n && (Json.propertyValue? n).any Json.isObject

/-- The objects assigned to properties with a key; those inside another one are left out. -/
def objectsOf (key : String) : Subject :=
  .properties (.tree ⟨fun _ n => isObjectAssignment key n, fun _ _ => .skip⟩)

/-- The default name of a template of the objects assigned to a key. -/
def objectsName (key : String) : String := "JSON object " ++ quoted key

/-- The rules with a selector; those inside another one are left out. -/
def rulesOf (selector : String) : Subject :=
  let normalized := Node.collapseBlanks selector
  .declarations (.tree
    ⟨fun source n => Css.normalizedSelector? source n == some normalized, fun _ _ => .skip⟩)

/-- The default name of a template of the rules with a selector. -/
def rulesName (selector : String) : String :=
  "CSS rule " ++ quoted (Node.collapseBlanks selector)

/-- **A pass over a document**: all fragments and slots are found anew. -/
def compute (t : Template) (d : Document) : Except TemplateFault Template :=
  match t.subject.bound t.specification d with
  | .ok bound => .ok { t with pass := t.pass + 1, document := some d, bound := bound }
  | .error fault => .error (.shape fault)

/-- The fragments of the last pass. -/
def fragments (t : Template) : List Fragment := t.bound.map Bound.fragment

/-- The handles of the fragments of the last pass. -/
def handles (t : Template) : List Handle :=
  (List.range t.bound.length).map fun i => ⟨t.pass, i⟩

/-- A fragment of the last pass with its slots. -/
def boundOf (t : Template) (h : Handle) : Except TemplateFault Bound :=
  match if h.pass = t.pass then t.bound[h.index]? else none with
  | some b => .ok b
  | none => .error (.staleFragment t.settings.name)

/-- **The slots of a fragment** of the last pass. -/
def slotsOf (t : Template) (h : Handle) : Except TemplateFault (List Slot) :=
  (t.boundOf h).map Bound.slots

/-- The slot of a key, if there is one. -/
def findSlot? (slots : List Slot) (key : String) : Option Slot :=
  slots.find? fun s => s.key == key

/-- The slot of a fragment with a key, if there is one. -/
def slotOf (t : Template) (h : Handle) (key : String) : Except TemplateFault (Option Slot) :=
  (t.slotsOf h).map (findSlot? · key)

/-- The values of the slots of a fragment. -/
def valuesOf (t : Template) (h : Handle) : Except TemplateFault (List (String × Value)) := do
  (← t.slotsOf h).mapM fun s =>
    match s.value with
    | .ok v => .ok (s.key, v)
    | .error fault => .error (.value fault)

/-- The edit that adds a slot to a fragment. -/
def insertionEdit (t : Template) (f : Fragment) (key : String) (value : Value) :
    Except TemplateFault TextEdit :=
  match t.subject with
  | .groups _ => .error (.noInsertion t.settings.name key)
  | .properties _ => do
    let object ← (Shape.jsonObject.check f).mapError .shape
    let text ← value.written.mapError fun fault => .value (.badNumber fault)
    pure (Json.insertionEdit f.document object key text t.settings.indentation
      t.settings.lineBreak)
  | .declarations _ => do
    let block ← (Shape.cssRule.check f).mapError .shape
    let text ← value.written.mapError fun fault => .value (.badNumber fault)
    pure (Css.insertionEdit f.document block key text t.settings.indentation
      t.settings.lineBreak)

/-- **The edit that gives a slot of a fragment a value**; a slot that is missing is added. -/
def commit (t : Template) (h : Handle) (key : String) (value : Value) :
    Except TemplateFault TextEdit :=
  match t.specification.lookup key with
  | none => .error (.unknownKey key)
  | some valuator => do
    let b ← t.boundOf h
    match findSlot? b.slots key with
    | some slot => (slot.commit value).mapError .value
    | none =>
      let text ← (valuator.serialize value).mapError .value
      t.insertionEdit b.fragment key text

/-- The edit that takes a slot out of a fragment. -/
def deletionEdit (t : Template) (f : Fragment) (slot : Slot) :
    Except TemplateFault (Option TextEdit) :=
  match t.subject with
  | .groups _ => .error (.noDeletion t.settings.name slot.key)
  | .properties _ => do
    let object ← (Shape.jsonObject.check f).mapError .shape
    pure (Json.deletionEdit? f.document object slot.key)
  | .declarations _ => do
    let block ← (Shape.cssRule.check f).mapError .shape
    pure (Css.deletionEdit? f.document block slot.key)

/-- **The edit that takes a slot out of a fragment**, if it is there. -/
def delete (t : Template) (h : Handle) (key : String) :
    Except TemplateFault (Option TextEdit) := do
  let b ← t.boundOf h
  match findSlot? b.slots key with
  | some slot => t.deletionEdit b.fragment slot
  | none => pure none

end Template

end SlotEdit
