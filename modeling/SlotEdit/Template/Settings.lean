import SlotEdit.Value

/-!
# Template/Settings — what all templates can be told

A template has a name, an indentation for the lines it inserts (none copies the neighbours') and a
line break.  `ofEntries` checks settings that come as names and values and lists everything that is
wrong with them.
-/

namespace SlotEdit

/-- What all templates can be told. -/
structure Settings where
  name : String
  indentation : Option LooseText
  lineBreak : String
deriving DecidableEq, Repr

/-- What is wrong with a setting. -/
inductive SettingProblem
  | unknown
  | notText
deriving DecidableEq, Repr

/-- A setting that is refused. -/
structure SettingFault where
  field : String
  problem : SettingProblem
deriving DecidableEq, Repr

namespace Settings

/-- The settings of a template that is told nothing but its name. -/
def named (name : String) : Settings := ⟨name, none, "\n"⟩

/-- The name of a template that is told nothing. -/
def defaultName : String := "Template"

/-- The names of the settings there are. -/
def fields : List String := ["name", "indentation", "line_break"]

/-- A setting that must be a text when it is given. -/
def textField (entries : List (String × Value)) (field fallback : String) :
    Except SettingFault String :=
  match entries.lookup field with
  | none => .ok fallback
  | some (.str s) => .ok s
  | some _ => .error ⟨field, .notText⟩

/-- A setting that may also be null. -/
def optionalField (entries : List (String × Value)) (field : String) :
    Except SettingFault (Option LooseText) :=
  match entries.lookup field with
  | none => .ok none
  | some .null => .ok none
  | some (.str s) => .ok (some s)
  | some (.loose t) => .ok (some t)
  | some _ => .error ⟨field, .notText⟩

/-- The fault of a setting, if it has one. -/
def faultOf {α : Type} : Except SettingFault α → List SettingFault
  | .ok _ => []
  | .error fault => [fault]

/-- **Settings from names and values**, or all that is wrong with them: known settings first, then
unknown ones in the order given. -/
def ofEntries (defaultName : String) (entries : List (String × Value)) :
    Except (List SettingFault) Settings :=
  let name := textField entries "name" defaultName
  let indentation := optionalField entries "indentation"
  let lineBreak := textField entries "line_break" "\n"
  let unknown := (entries.filter fun e => !fields.contains e.1).map fun e =>
    (⟨e.1, .unknown⟩ : SettingFault)
  match name, indentation, lineBreak, unknown with
  | .ok name, .ok indentation, .ok lineBreak, [] => .ok ⟨name, indentation, lineBreak⟩
  | _, _, _, _ => .error (faultOf name ++ faultOf indentation ++ faultOf lineBreak ++ unknown)

end Settings

end SlotEdit
