import SlotEdit.Template.Template

/-!
# Template/Binding — templates that follow an editor

A bound template is an observer of an editor: it makes a new pass over every new document.  A
`Binding` is an editor together with one template, which may be bound to it several times and need
not be its only observer.
-/

namespace SlotEdit

variable [Interpreter]

/-- An observer of the editor: the template, or any other, which has no say in what the template
does. -/
inductive Follower
  | template
  | other (name : String)
deriving DecidableEq, Repr

/-- An editor and a template; the template follows the editor as many times as it is among its
observers. -/
structure Binding where
  editor : Editor Follower
  template : Template

/-- Why edits were not applied, or not heard of by the template. -/
inductive ApplyFault
  | batch (fault : BatchFault)
  | template (fault : TemplateFault)

namespace Binding

/-- The template makes a new pass for each of its entries in a list of observers, up to the first
that fails. -/
def notify (d : Document) : List Follower → Template → Template × Option TemplateFault
  | [], t => (t, none)
  | .other _ :: rest, t => notify d rest t
  | .template :: rest, t =>
    match t.compute d with
    | .ok t' => notify d rest t'
    | .error fault => (t, some fault)

/-- The template follows the editor from now on and makes a pass over its document.  It stays an
observer when that pass fails. -/
def bind (b : Binding) : Binding × Option TemplateFault :=
  let editor := b.editor.addObserver .template
  match b.template.compute b.editor.document with
  | .ok t => (⟨editor, t⟩, none)
  | .error fault => (⟨editor, b.template⟩, some fault)

/-- A pass over any document, without the editor. -/
def compute (b : Binding) (d : Document) : Binding × Option TemplateFault :=
  match b.template.compute d with
  | .ok t => (⟨b.editor, t⟩, none)
  | .error fault => (b, some fault)

/-- **The waiting edits applied**, and the template told of the new document.  A failing pass leaves
the editor at the new document and the template where it was. -/
def apply (b : Binding) : Binding × Option ApplyFault :=
  match b.editor.apply with
  | .error fault => (b, some (.batch fault))
  | .ok (editor, done) =>
    let (t, fault) := notify editor.document done.notified b.template
    (⟨editor, t⟩, fault.map .template)

/-- An edit is put to the others that wait. -/
def queue (b : Binding) (edit : TextEdit) : Binding := { b with editor := b.editor.add edit }

end Binding

end SlotEdit
