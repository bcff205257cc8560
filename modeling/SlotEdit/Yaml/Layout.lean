import SlotEdit.Yaml.Token
import SlotEdit.Yaml.Plain
import SlotEdit.Yaml.BlockText

/-!
# Yaml/Layout — blocks from indentation

Reads a YAML text token by token.  A `Layout` remembers the indentations of the open blocks and
where a key may have started: a text that turns out to be a key, since a colon follows it on its
line, gets its `key` token, and the start of its mapping, put in front of it.  `tokens` gives all
tokens of a text.
-/

namespace SlotEdit.Yaml

/-- A text that may turn out to be a key: its place among the tokens and in the text.  In a block
whose indentation it has it must be one. -/
structure KeyCandidate where
  index : Nat
  required : Bool
  offset : Nat
  line : Nat
  column : Nat

/-- How far a text has been read. -/
structure Layout where
  place : Place
  tokens : Array Token
  indent : Int
  outer : List Int
  depth : Nat
  keyAllowed : Bool
  candidates : List (Nat × KeyCandidate)

/-- What reading the next token gives. -/
abbrev Step := Layout → Except Fault Layout

namespace Layout

/-- Nothing has been read. -/
def ofText (text : String) : Layout := ⟨.ofText text, #[], -1, [], 0, true, []⟩

/-- Inside brackets. -/
def inFlow (l : Layout) : Bool := l.depth ≠ 0

/-- One more token. -/
def push (l : Layout) (t : Token) : Layout := { l with tokens := l.tokens.push t }

/-- One more token, read from as many characters. -/
def take (l : Layout) (t : Token) (count : Nat) : Layout :=
  { l with tokens := l.tokens.push t, place := l.place.drop count }

/-- Keys may or may not start here. -/
def allowKey (l : Layout) (allowed : Bool) : Layout := { l with keyAllowed := allowed }

/-! ## Blank space -/

/-- The place behind blanks, comments and line breaks, and whether a line broke.  Each turn reads a
line break. -/
def skipBlanks (turns : Nat) (p : Place) : Place × Bool :=
  match turns with
  | 0 => (p, false)
  | turns + 1 =>
    let q := p.skipWhile (· == ' ')
    let q := if q.peek? = some '#' then q.lineEnd else q
    match q.lineBreak? with
    | none => (q, false)
    | some (_, after) => ((skipBlanks turns after).1, true)

/-- Goes to the next token; behind a line break, outside brackets, keys may start. -/
def toNextToken (l : Layout) : Layout :=
  let p := if l.place.offset = 0 ∧ l.place.peek? = some '\ufeff' then l.place.next else l.place
  let (q, broken) := skipBlanks (p.rest.length + 1) p
  { l with place := q, keyAllowed := l.keyAllowed || (broken && !l.inFlow) }

/-! ## Blocks -/

/-- The blocks indented further than `column` end. -/
def closeBlocks (column : Int) (tokens : Array Token) (indent : Int) :
    List Int → Array Token × Int × List Int
  | [] => (tokens, indent, [])
  | previous :: outer =>
    if indent > column then closeBlocks column (tokens.push .blockEnd) previous outer
    else (tokens, indent, previous :: outer)

/-- Outside brackets, the blocks indented further than `column` end. -/
def unindent (column : Int) (l : Layout) : Layout :=
  if l.inFlow then l
  else
    let (tokens, indent, outer) := closeBlocks column l.tokens l.indent l.outer
    { l with tokens := tokens, indent := indent, outer := outer }

/-- Opens a block with a token at an index, if `column` is further in than the open one. -/
def openBlock (t : Token) (column index : Nat) (l : Layout) : Layout :=
  if l.indent < column then
    { l with
      tokens := l.tokens.insertIdxIfInBounds index t
      indent := column
      outer := l.indent :: l.outer }
  else l

/-- Opens a block at the next token. -/
def openBlockHere (t : Token) (l : Layout) : Layout :=
  l.openBlock t l.place.column l.tokens.size

/-! ## Keys -/

/-- The text that may be a key at this depth of brackets. -/
def candidate? (l : Layout) : Option KeyCandidate := l.candidates.lookup l.depth

/-- No text at this depth is a key any more; a fault if one has to be. -/
def dropCandidate (l : Layout) : Except Fault Layout :=
  if (l.candidate?.map KeyCandidate.required).getD false then invalid .keyWithoutValue
  else .ok { l with candidates := l.candidates.filter fun c => c.1 ≠ l.depth }

/-- The next token may be a key, if keys may start here. -/
def saveCandidate (l : Layout) : Except Fault Layout :=
  if l.keyAllowed then do
    let l ← l.dropCandidate
    let p := l.place
    let required := !l.inFlow && l.indent == p.column
    let key : KeyCandidate := ⟨l.tokens.size, required, p.offset, p.line, p.column⟩
    pure { l with candidates := (l.depth, key) :: l.candidates }
  else .ok l

/-- How far a key may be from its colon. -/
def keyReach : Nat := 1024

/-- A text on another line, or too far away, is no key for what comes here. -/
def isStale (p : Place) (key : KeyCandidate) : Bool :=
  key.line ≠ p.line || p.offset - key.offset > keyReach

/-- Forgets what is too far away to be a key; a fault if one of them has to be. -/
def dropStale (l : Layout) : Except Fault Layout :=
  if l.candidates.any fun c => c.2.required && isStale l.place c.2 then invalid .keyWithoutValue
  else .ok { l with candidates := l.candidates.filter fun c => !isStale l.place c.2 }

/-! ## Tokens -/

/-- The end of all blocks, and a token of the document's own lines, read from as many
characters. -/
def marker (t : Token) (count : Nat) : Step := fun l => do
  let l ← (l.unindent (-1)).dropCandidate
  pure ((l.allowKey false).take t count)

/-- A directive. -/
def readDirective : Step := fun l => do
  let l ← (l.unindent (-1)).dropCandidate
  let (d, after) ← directive l.place
  pure { l.push (.directive d) with keyAllowed := false, place := after }

/-- An opening bracket. -/
def openFlow (t : Token) : Step := fun l => do
  let l ← l.saveCandidate
  pure { l.take t 1 with depth := l.depth + 1, keyAllowed := true }

/-- A closing bracket. -/
def closeFlow (t : Token) : Step := fun l => do
  let l ← l.dropCandidate
  if l.inFlow then pure { l.take t 1 with depth := l.depth - 1, keyAllowed := false }
  else invalid .unexpectedToken

/-- A comma. -/
def readComma : Step := fun l => do
  let l ← l.dropCandidate
  pure ((l.allowKey true).take .comma 1)

/-- The dash in front of an item. -/
def readEntry : Step := fun l => do
  if !l.inFlow && !l.keyAllowed then invalid .misplacedEntry
  let l ← (if l.inFlow then l else l.openBlockHere .blockSequence).dropCandidate
  pure ((l.allowKey true).take .entry 1)

/-- The question mark in front of a key. -/
def readKey : Step := fun l => do
  if !l.inFlow && !l.keyAllowed then invalid .misplacedKey
  let l ← (if l.inFlow then l else l.openBlockHere .blockMapping).dropCandidate
  pure ((l.allowKey !l.inFlow).take .key 1)

/-- The colon in front of a value: behind a text on its line it makes that text a key, else it
belongs to a key with a question mark or to none. -/
def readValue : Step := fun l =>
  match l.candidate? with
  | some key =>
    let l := { l with
      candidates := l.candidates.filter fun c => c.1 ≠ l.depth
      tokens := l.tokens.insertIdxIfInBounds key.index .key }
    let l := if l.inFlow then l else l.openBlock .blockMapping key.column key.index
    .ok ((l.allowKey false).take .value 1)
  | none => do
    if !l.inFlow && !l.keyAllowed then invalid .misplacedValue
    let l ← (if l.inFlow then l else l.openBlockHere .blockMapping).dropCandidate
    pure ((l.allowKey !l.inFlow).take .value 1)

/-- A token that may start a key, by its reader. -/
def readPart {α : Type} (scan : Scan α) (token : α → Token) : Step := fun l => do
  let l ← l.saveCandidate
  let (a, after) ← scan l.place
  pure { l.push (token a) with keyAllowed := false, place := after }

/-- A plain text; keys may start behind it if its line is over. -/
def readPlain : Step := fun l => do
  let l ← l.saveCandidate
  let (text, gap) := plainText l.inFlow (l.indent + 1).toNat l.place
  pure { l.push (.scalar true text) with keyAllowed := gap.broken, place := gap.after }

/-- A block text. -/
def readBlockText (folded : Bool) : Step := fun l => do
  let l ← l.dropCandidate
  let (text, after) ← blockText folded (l.indent + 1).toNat l.place.next
  pure { l.push (.scalar false text) with keyAllowed := true, place := after }

/-- The token a place starts with. -/
def readToken (c : Char) : Step := fun l =>
  let p := l.place
  let apart := endsWord p.next.peek?
  if c == '%' && p.column == 0 then l.readDirective
  else if p.hasMarker '-' then l.marker .documentStart 3
  else if p.hasMarker '.' then l.marker .documentEnd 3
  else if c == '[' then l.openFlow .flowSequence
  else if c == '\x7b' then l.openFlow .flowMapping
  else if c == ']' then l.closeFlow .flowSequenceEnd
  else if c == '\x7d' then l.closeFlow .flowMappingEnd
  else if c == ',' then l.readComma
  else if c == '-' && apart then l.readEntry
  else if c == '?' && (l.inFlow || apart) then l.readKey
  else if c == ':' && (l.inFlow || apart) then l.readValue
  else if c == '*' then l.readPart anchorName .alias
  else if c == '&' then l.readPart anchorName .anchor
  else if c == '!' then l.readPart tagName .tag
  else if (c == '|' || c == '>') && !l.inFlow then l.readBlockText (c == '>')
  else if c == '\'' || c == '"' then l.readPart quotedText (.scalar false)
  else if startsPlain l.inFlow p then l.readPlain
  else invalid .strayCharacter

/-- Reads on to the end of the text.  Each turn reads a token. -/
def readAll (turns : Nat) : Step := fun l =>
  match turns with
  | 0 => .ok l
  | turns + 1 => do
    let l ← l.toNextToken.dropStale
    let l := l.unindent l.place.column
    match l.place.peek? with
    | some c =>
      let next ← l.readToken c
      readAll turns next
    | none =>
      (l.unindent (-1)).dropCandidate

end Layout

/-- **The tokens of a text.** -/
def tokens (text : String) : Except Fault (List Token) :=
  match text.toList.find? fun c => !isAllowed c with
  | some c => invalid (.unprintable c)
  | none => do
    let l ← (Layout.ofText text).readAll (text.length + 1)
    pure l.tokens.toList

end SlotEdit.Yaml
