import SlotEdit.Yaml.Quoted

/-!
# Yaml/Token — marks and texts of a YAML text

The tokens a YAML text is made of, and readers for those that stand behind a mark of their own:
anchors and aliases, tags, and the directives in front of a document.
-/

namespace SlotEdit.Yaml

/-- A tag as it is written: `handle` is looked up, the rest is taken as it is. -/
structure TagName where
  handle : Option String
  rest : String
deriving DecidableEq, Repr

/-- What a directive says. -/
inductive Directive
  | version (major : Nat)
  | handle (name target : String)
  | other
deriving DecidableEq, Repr

/-- A token.  Blocks are the collections that indentation delimits, flows those in brackets. -/
inductive Token
  | directive (d : Directive)
  | documentStart
  | documentEnd
  | blockSequence
  | blockMapping
  | blockEnd
  | flowSequence
  | flowSequenceEnd
  | flowMapping
  | flowMappingEnd
  | entry
  | comma
  | key
  | value
  | alias (name : String)
  | anchor (name : String)
  | tag (name : TagName)
  | scalar (plain : Bool) (text : LooseText)
deriving DecidableEq, Repr, Inhabited

/-! ## Anchors -/

/-- What may follow the name of an anchor. -/
def endsAnchor (c : Option Char) : Bool :=
  endsWord c || (c.map fun c => "?:,]\x7d%@\x60".toList.contains c).getD false

/-- The name of an anchor or alias, from its mark on. -/
def anchorName : Scan String := fun p =>
  let name := p.next.front isNameChar
  let after := p.next.drop name.length
  if name.isEmpty || !endsAnchor after.peek? then invalid .malformedAnchor
  else .ok (String.ofList name, after)

/-! ## Tags -/

/-- A character of a tag's address, escapes apart. -/
def isAddressChar (c : Char) : Bool :=
  isAsciiLetter c || isAsciiDigit c || "-;/?:@&=+$,_.!~*'()[]".toList.contains c

/-- The bytes of a run of percent escapes.  Each turn reads an escape. -/
def percentBytes (turns : Nat) (p : Place) : Except Fault (List UInt8 × Place) :=
  match turns, p.rest with
  | turns + 1, '%' :: a :: b :: _ =>
    match hexValue? a, hexValue? b with
    | some high, some low => do
      let (bytes, last) ← percentBytes turns (p.drop 3)
      pure (UInt8.ofNat (16 * high + low) :: bytes, last)
    | _, _ => invalid .malformedTag
  | _, '%' :: _ => invalid .malformedTag
  | _, _ => .ok ([], p)

/-- A run of percent escapes as the text its bytes encode. -/
def percentText : Scan (List Char) := fun p => do
  let (bytes, after) ← percentBytes p.rest.length p
  match String.fromUTF8? ⟨bytes.toArray⟩ with
  | some s => pure (s.toList, after)
  | none => invalid .malformedTag

/-- The characters of an address.  Each turn reads one at least. -/
def addressChars (turns : Nat) (p : Place) : Except Fault (List Char × Place) :=
  match turns, p.rest with
  | 0, _ => .ok ([], p)
  | _, [] => .ok ([], p)
  | turns + 1, c :: _ =>
    if c == '%' then do
      let (cs, after) ← percentText p
      let (more, last) ← addressChars turns after
      pure (cs ++ more, last)
    else if isAddressChar c then do
      let (more, last) ← addressChars turns p.next
      pure (c :: more, last)
    else .ok ([], p)

/-- The address of a tag, of one character at least. -/
def address : Scan String := fun p => do
  let (cs, after) ← addressChars (p.rest.length + 1) p
  if after.offset = p.offset then invalid .malformedTag
  else pure (String.ofList cs, after)

/-- A handle: an exclamation mark alone, or a name between two of them. -/
def handle : Scan String := fun p =>
  if p.peek? ≠ some '!' then invalid .malformedTag
  else
    let name := p.next.front isNameChar
    let after := p.next.drop name.length
    if p.next.peek? = some ' ' then .ok ("!", p.next)
    else if after.peek? = some '!' then .ok (String.ofList ('!' :: name ++ ['!']), after.next)
    else invalid .malformedTag

/-- The part of a line up to a blank holds an exclamation mark. -/
def namesHandle (p : Place) : Bool := (p.front fun c => !(isBreak c || c == ' ')).contains '!'

/-- A tag, from its exclamation mark on, without a check of what follows. -/
def tagBody : Scan TagName := fun p =>
  let q := p.next
  if q.peek? = some '<' then do
    let (rest, after) ← address q.next
    if after.peek? = some '>' then pure (⟨none, rest⟩, after.next) else invalid .malformedTag
  else if endsWord q.peek? then .ok (⟨none, "!"⟩, q)
  else do
    let (name, after) ← if namesHandle q then handle p else .ok ("!", q)
    let (rest, last) ← address after
    pure (⟨some name, rest⟩, last)

/-- **A tag**, from its exclamation mark on, with a space or the end of the line behind it. -/
def tagName : Scan TagName := fun p => do
  let (tag, after) ← tagBody p
  if endsPart after.peek? then pure (tag, after) else invalid .malformedTag

/-! ## Directives -/

/-- A number of decimal digits. -/
def digits : Scan Nat := fun p =>
  let ds := p.front isAsciiDigit
  if ds.isEmpty then invalid .malformedDirective
  else .ok (digitsValue ds, p.drop ds.length)

/-- The version a directive names: two numbers around a point. -/
def versionDirective : Scan Directive := fun p => do
  let (major, after) ← digits p
  if after.peek? ≠ some '.' then invalid .malformedDirective
  let (_, last) ← digits after.next
  if endsPart last.peek? then pure (.version major, last) else invalid .malformedDirective

/-- The handle a directive defines, and what it stands for. -/
def handleDirective : Scan Directive := fun p => do
  let (name, after) ← handle p
  if after.peek? ≠ some ' ' then invalid .malformedDirective
  let (target, last) ← address (after.skipWhile (· == ' '))
  if endsPart last.peek? then pure (.handle name target, last) else invalid .malformedDirective

/-- **A directive**, from its percent sign to the end of its line. -/
def directive : Scan Directive := fun p => do
  let name := p.next.front isNameChar
  let after := p.next.drop name.length
  if name.isEmpty || !endsPart after.peek? then invalid .malformedDirective
  let arguments := after.skipWhile (· == ' ')
  let (d, last) ←
    if name = "YAML".toList then versionDirective arguments
    else if name = "TAG".toList then handleDirective arguments
    else .ok (.other, after.lineEnd)
  let last := last.skipWhile (· == ' ')
  let last := if last.peek? = some '#' then last.lineEnd else last
  if endsLine last.peek? then pure (d, last.skipBreak) else invalid .malformedDirective

end SlotEdit.Yaml
