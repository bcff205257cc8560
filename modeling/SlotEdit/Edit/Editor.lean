import SlotEdit.Edit.Batch
import SlotEdit.Diff.Unified

/-!
# Edit/Editor — a document under edit

An `Editor` holds a document, the edits that are waiting, and who is to hear of a new document.
Nothing changes until `apply`, which applies all waiting edits as one batch; observers are values
of any type, and `apply` lists those to be told.
-/

namespace SlotEdit

/-- A document, the edits that wait to be applied to it, and its observers in the order they came;
one may be there several times. -/
structure Editor (ω : Type) where
  document : Document
  pending : List TextEdit
  observers : List ω

/-- Why an observer cannot be removed. -/
inductive ObserverFault
  | notRegistered
deriving DecidableEq, Repr

/-- The wording of an observer that cannot be removed. -/
def ObserverFault.message : ObserverFault → String
  | .notRegistered => "list.remove(x): x not in list"

/-- What an applied batch did: how many edits it held, and who is to be told of the new document,
in order. -/
structure Applied (ω : Type) where
  count : Nat
  notified : List ω

namespace Editor

variable {ω : Type}

/-- The editor of a document. -/
def ofDocument (d : Document) : Editor ω := ⟨d, [], []⟩

/-- One more edit waits. -/
def add (e : Editor ω) (edit : TextEdit) : Editor ω := { e with pending := e.pending ++ [edit] }

/-- No edit waits. -/
def discard (e : Editor ω) : Editor ω := { e with pending := [] }

/-- One more observer. -/
def addObserver (e : Editor ω) (o : ω) : Editor ω := { e with observers := e.observers ++ [o] }

/-- One observer fewer: the first entry of it is taken out. -/
def removeObserver [BEq ω] (e : Editor ω) (o : ω) : Except ObserverFault (Editor ω) :=
  if e.observers.contains o then .ok { e with observers := e.observers.erase o }
  else .error .notRegistered

/-- The text after the waiting edits. -/
def edited (e : Editor ω) : Except BatchFault String := SlotEdit.edited e.document e.pending

/-- The text after the waiting edits, whose texts may hold halves of surrogate pairs. -/
def editedText (e : Editor ω) : Except BatchFault LooseText :=
  SlotEdit.editedText e.document e.pending

/-- **The waiting edits as a diff**, with `context` equal lines around each change. -/
def preview (e : Editor ω) (context : Nat) : Except BatchFault String :=
  e.edited.map (Diff.unified context e.document.content)

/-- The diff of waiting edits whose texts may hold halves of surrogate pairs. -/
def previewText (e : Editor ω) (context : Nat) : Except BatchFault LooseText :=
  e.editedText.map (Diff.unifiedText context e.document.content)

/-- **The waiting edits applied**: the editor of the new document, in which none waits, and what
was done.  Without edits nothing happens and nobody is told. -/
def apply (e : Editor ω) : Except BatchFault (Editor ω × Applied ω) :=
  if e.pending.isEmpty then .ok (e, ⟨0, []⟩)
  else do
    let content ← e.edited
    pure (⟨e.document.withContent content, [], e.observers⟩,
      ⟨e.pending.length, e.observers⟩)

end Editor

/-- The number of equal lines around a change, unless another is asked for. -/
def defaultContext : Nat := 3

end SlotEdit
