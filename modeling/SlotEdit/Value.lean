import SlotEdit.Decimal.Reading
import SlotEdit.Calendar
import SlotEdit.Text.LooseText

/-!
# Value — the typed values of slots and literals

A `Value` is what a slot, a literal or a configuration entry stands for once its text is read.
`display` writes it the way a value is shown to a reader, with quotes around texts; `plain` leaves
the quotes of a bare text out, and `written` keeps halves of surrogate pairs too.  Mappings keep the order in which their keys came
(`insertEntry`).
-/

namespace SlotEdit

/-- A typed value.  A text is `str`, and `loose` when half of a surrogate pair stands alone in it
(`ofText`). -/
inductive Value
  | null
  | bool (b : Bool)
  | int (n : Int)
  | float (x : Binary64)
  | imaginary (x : Binary64)
  | bytes (content : List UInt8)
  | str (s : String)
  | loose (t : LooseText)
  | moment (m : Moment)
  | list (items : List Value)
  | dict (entries : List (Value × Value))
deriving Repr, Inhabited

namespace Value

/-- A text as a value. -/
def ofText (t : LooseText) : Value :=
  match t.toString? with
  | some s => .str s
  | none => .loose t

/-- The text a value is, if it is one. -/
def text? : Value → Option LooseText
  | .str s => some s
  | .loose t => some t
  | _ => none

/-- The characters of a text without halves. -/
def chars? : Value → Option (List Char)
  | .str s => some s.toList
  | _ => none

/-- The letters of a text. -/
def letters? (v : Value) : Option (List Letter) := v.text?.map LooseText.letters

/-- The numeric value of a number or boolean, as a quotient; infinities and what is no number
have none. -/
def ratio? : Value → Option (Int × Nat)
  | .bool b => some (if b then 1 else 0, 1)
  | .int n => some (n, 1)
  | .float x => x.toRatio?
  | _ => none

/-- Two scalars are the same key: numbers by value, whatever their kind, and the rest by kind and
content. -/
def sameKey (a b : Value) : Bool :=
  match a.ratio?, b.ratio? with
  | some (n, d), some (m, e) => n * e == m * d
  | none, none =>
    match a, b with
    | .null, .null => true
    | .str s, .str t => s == t
    | .loose s, .loose t => s == t
    | .bytes s, .bytes t => s == t
    | .float (.infinite s), .float (.infinite t) => s == t
    | .imaginary x, .imaginary y => x == y
    | .moment x, .moment y => x == y
    | _, _ => false
  | _, _ => false

/-- A mapping with one more entry: a key already there keeps its place and takes the new value. -/
def insertEntry {α : Type} : List (Value × α) → Value → α → List (Value × α)
  | [], key, value => [(key, value)]
  | (k, v) :: rest, key, value =>
    if k.sameKey key then (k, value) :: rest else (k, v) :: insertEntry rest key value

/-- The mapping of a list of entries, a later one of the same key winning. -/
def dictOfEntries (entries : List (Value × Value)) : Value :=
  .dict (entries.foldl (fun d e => insertEntry d e.1 e.2) [])

/-- A value that counts as nothing: null, false, zero, and what is empty. -/
def isFalsy : Value → Bool
  | .null => true
  | .bool b => !b
  | .int n => n == 0
  | .float (.finite _ m _) => m == 0
  | .imaginary (.finite _ m _) => m == 0
  | .bytes s => s.isEmpty
  | .str s => s.isEmpty
  | .list xs => xs.isEmpty
  | .dict es => es.isEmpty
  | _ => false

/-- The written form of an integer, refused past the digit limit. -/
def intDisplay (n : Int) : Except NumberFault String :=
  match renderInt? n with
  | some s => .ok s
  | none => .error .tooLongToWrite

/-- Texts with a separator between each two. -/
def joined (separator : String) (parts : List String) : String := separator.intercalate parts

mutual
/-- **A value as a reader is shown it.** -/
def display : Value → Except NumberFault String
  | .null => .ok "None"
  | .bool b => .ok (if b then "True" else "False")
  | .int n => intDisplay n
  | .float x => .ok x.render
  | .imaginary x => .ok (x.renderWhole ++ "j")
  | .bytes s => .ok (quotedBytes s)
  | .str s => .ok (quoted s)
  | .loose t => .ok t.quoted
  | .moment m => .ok m.display
  | .list xs => do
    let parts ← displayItems xs
    pure ("[" ++ joined ", " parts ++ "]")
  | .dict es => do
    let parts ← displayEntries es
    pure ("\x7b" ++ joined ", " parts ++ "\x7d")

/-- Each item of a list as a reader is shown it. -/
def displayItems : List Value → Except NumberFault (List String)
  | [] => .ok []
  | x :: xs => do
    let head ← display x
    let tail ← displayItems xs
    pure (head :: tail)

/-- Each entry of a mapping as a reader is shown it. -/
def displayEntries : List (Value × Value) → Except NumberFault (List String)
  | [] => .ok []
  | (k, v) :: rest => do
    let key ← display k
    let value ← display v
    let tail ← displayEntries rest
    pure ((key ++ ": " ++ value) :: tail)
end

/-- A value as plain text: a text as it is, a moment in its standard form, anything else as a
reader is shown it. -/
def plain : Value → Except NumberFault String
  | .str s => .ok s
  | .loose t => .ok t.shown
  | .moment m => .ok m.plain
  | v => v.display

/-- A value as plain text, with the halves that stand in it. -/
def written : Value → Except NumberFault LooseText
  | .loose t => .ok t
  | v => v.plain.map LooseText.ofString

@[simp] theorem ofText_ofString (s : String) : ofText s = .str s := by
  rw [ofText, LooseText.toString?_ofString]

@[simp] theorem text?_ofText (t : LooseText) : (ofText t).text? = some t := by
  rw [ofText]
  split
  · next s h => exact congrArg some (LooseText.toString?_eq_some.mp h).symm
  · rfl

theorem ofText_inj {s t : LooseText} : ofText s = ofText t ↔ s = t :=
  ⟨fun h => Option.some.inj ((text?_ofText s).symm.trans (h ▸ text?_ofText t)), congrArg _⟩

theorem ofText_eq_str {t : LooseText} {s : String} : ofText t = .str s ↔ t = s := by
  rw [← ofText_ofString, ofText_inj]

@[simp] theorem written_ofText (t : LooseText) : (ofText t).written = .ok t := by
  rw [ofText]
  split
  · next s h => exact congrArg Except.ok (LooseText.toString?_eq_some.mp h).symm
  · rfl

end Value

end SlotEdit
