import SlotEdit.Value

/-!
# Yaml/Loaded — what a YAML text stands for

A `Loaded` is a scalar or a collection of such: besides lists and mappings there are sets and pairs.  A
name for a collection may be used inside it, so that the collection holds itself.  There `again` stands
for the collection around that has the name; a part that is taken out of the collection gets the whole
in its place (`partOf`).
-/

namespace SlotEdit.Yaml

/-- **What a YAML text stands for.**  The members of a set are in the order they are listed in. -/
inductive Loaded
  | scalar (v : Value)
  | list (name : Option String) (items : List Loaded)
  | pair (first second : Loaded)
  | set (members : List Value)
  | dict (name : Option String) (entries : List (Value × Loaded))
  | again (name : String)
deriving Repr, Inhabited

namespace Loaded

/-- A text. -/
def text (s : String) : Loaded := .scalar (.str s)

/-! ## Parts -/

mutual
/-- A value with a collection in place of its name. -/
def filled (name : String) (whole : Loaded) : Loaded → Loaded
  | .list n items => .list n (filledItems name whole items)
  | .pair first second => .pair (filled name whole first) (filled name whole second)
  | .dict n entries => .dict n (filledEntries name whole entries)
  | .again n => if n = name then whole else .again n
  | v => v

/-- Some values with a collection in place of its name. -/
def filledItems (name : String) (whole : Loaded) : List Loaded → List Loaded
  | [] => []
  | v :: rest => filled name whole v :: filledItems name whole rest

/-- The entries of a mapping with a collection in place of its name. -/
def filledEntries (name : String) (whole : Loaded) : List (Value × Loaded) → List (Value × Loaded)
  | [] => []
  | (k, v) :: rest => (k, filled name whole v) :: filledEntries name whole rest
end

/-- A part of a collection on its own. -/
def partOf (whole : Loaded) (name : Option String) (part : Loaded) : Loaded :=
  match name with
  | some name => filled name whole part
  | none => part

/-- The entries of a mapping. -/
def entries? (v : Loaded) : Option (List (Value × Loaded)) :=
  match v with
  | .scalar (.dict entries) => some (entries.map fun (k, v) => (k, .scalar v))
  | .dict name entries => some (entries.map fun (k, part) => (k, partOf v name part))
  | _ => none

/-- The parts of a value that has parts: items, keys, or characters. -/
def parts? (v : Loaded) : Option (List Loaded) :=
  match v with
  | .scalar (.list items) => some (items.map .scalar)
  | .scalar (.dict entries) => some (entries.map fun e => .scalar e.1)
  | .scalar (.str s) => some (s.toList.map fun c => text (String.singleton c))
  | .scalar (.loose t) => some (t.letters.map fun l => .scalar (.ofText ⟨[l]⟩))
  | .scalar (.bytes content) => some (content.map fun b => .scalar (.int b.toNat))
  | .list name items => some (items.map (partOf v name))
  | .pair first second => some [first, second]
  | .set members => some (members.map .scalar)
  | .dict _ entries => some (entries.map fun e => .scalar e.1)
  | _ => none

/-- A value that counts as nothing. -/
def isFalsy : Loaded → Bool
  | .scalar v => v.isFalsy
  | .list _ items => items.isEmpty
  | .set members => members.isEmpty
  | .dict _ entries => entries.isEmpty
  | _ => false

/-! ## Keys -/

/-- A value that may be a key: no collection but a pair of such values. -/
def isKey : Loaded → Bool
  | .scalar (.list _) | .scalar (.dict _) => false
  | .scalar _ => true
  | .pair first second => isKey first && isKey second
  | _ => false

/-- Two values are the same key. -/
def sameKey : Loaded → Loaded → Bool
  | .scalar a, .scalar b => a.sameKey b
  | .pair a b, .pair c d => sameKey a c && sameKey b d
  | _, _ => false

/-! ## Texts -/

/-- What a collection inside itself is shown as, added to what is known of those around. -/
def aroundWith (name : Option String) (shown : String) (around : List (String × String)) :
    List (String × String) :=
  (name.map fun name => (name, shown)).toList ++ around

mutual
/-- A value as a reader is shown it, inside collections with names. -/
def displayIn (around : List (String × String)) : Loaded → Except NumberFault String
  | .scalar v => v.display
  | .list name items =>
    match name.bind fun name => around.lookup name with
    | some shown => .ok shown
    | none => do
      let parts ← displayItemsIn (aroundWith name "[...]" around) items
      pure ("[" ++ Value.joined ", " parts ++ "]")
  | .pair first second => do
    let first ← displayIn around first
    let second ← displayIn around second
    pure ("(" ++ first ++ ", " ++ second ++ ")")
  | .set [] => .ok "set()"
  | .set members => do
    let parts ← Value.displayItems members
    pure ("\x7b" ++ Value.joined ", " parts ++ "\x7d")
  | .dict name entries =>
    match name.bind fun name => around.lookup name with
    | some shown => .ok shown
    | none => do
      let parts ← displayEntriesIn (aroundWith name "\x7b...\x7d" around) entries
      pure ("\x7b" ++ Value.joined ", " parts ++ "\x7d")
  | .again name => .ok ((around.lookup name).getD name)

/-- Each of some values as a reader is shown it. -/
def displayItemsIn (around : List (String × String)) : List Loaded → Except NumberFault (List String)
  | [] => .ok []
  | v :: rest => do
    let head ← displayIn around v
    let tail ← displayItemsIn around rest
    pure (head :: tail)

/-- Each entry of a mapping as a reader is shown it. -/
def displayEntriesIn (around : List (String × String)) :
    List (Value × Loaded) → Except NumberFault (List String)
  | [] => .ok []
  | (k, v) :: rest => do
    let key ← k.display
    let value ← displayIn around v
    let tail ← displayEntriesIn around rest
    pure ((key ++ ": " ++ value) :: tail)
end

/-- **A value as a reader is shown it.** -/
def display (v : Loaded) : Except NumberFault String := displayIn [] v

/-- A value as plain text. -/
def written : Loaded → Except NumberFault LooseText
  | .scalar v => v.written
  | v => v.display.map LooseText.ofString

mutual
/-- The value without sets and names that this is, if there are none; a pair is a list of two. -/
def value? : Loaded → Option Value
  | .scalar v => some v
  | .list _ items => (values? items).map .list
  | .pair first second => do
    let first ← value? first
    let second ← value? second
    pure (.list [first, second])
  | .dict _ entries => (valueEntries? entries).map .dict
  | .set _ | .again _ => none

/-- The values that some are, if all are. -/
def values? : List Loaded → Option (List Value)
  | [] => some []
  | v :: rest => do
    let head ← value? v
    let tail ← values? rest
    pure (head :: tail)

/-- The entries whose values are such. -/
def valueEntries? : List (Value × Loaded) → Option (List (Value × Value))
  | [] => some []
  | (k, v) :: rest => do
    let value ← value? v
    let tail ← valueEntries? rest
    pure ((k, value) :: tail)
end

/-! Two lists that hold themselves, as their texts show them. -/

example : (list (some "a") [again "a"]).display = .ok "[[...]]" := rfl

example : ((list (some "a") [list (some "b") [again "a"]]).parts?.map fun parts => parts.map display) =
    some [.ok "[[[...]]]"] := rfl

end Loaded

end SlotEdit.Yaml
