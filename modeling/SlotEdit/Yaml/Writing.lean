import SlotEdit.Yaml.Scalar
import SlotEdit.Yaml.Place

/-!
# Yaml/Writing — mappings as YAML texts

`written` writes a mapping in block style: an entry a line, sorted by key, nested collections
indented by two columns, empty ones in brackets.  Texts are plain where they read back as texts,
else in single quotes, and in double quotes with escapes where those do not do; long ones are
folded at single spaces behind column `lineWidth`.
-/

namespace SlotEdit.Yaml

/-- The column behind which texts are folded. -/
def lineWidth : Nat := 80

/-! ## Sheets -/

/-- What has been written, last character first, and where the next character goes.  `blank` says
that white space is in front of it, `indented` that nothing but marks is on its line. -/
structure Sheet where
  written : List Char
  column : Nat
  blank : Bool
  indented : Bool

namespace Sheet

/-- Nothing is written. -/
def empty : Sheet := ⟨[], 0, true, true⟩

/-- Characters, none of them a line break. -/
def put (s : Sheet) (cs : List Char) : Sheet :=
  { s with written := cs.reverse ++ s.written, column := s.column + cs.length }

/-- Characters that belong to a text. -/
def putText (s : Sheet) (cs : List Char) : Sheet :=
  { s.put cs with blank := false, indented := false }

/-- A new line. -/
def newLine (s : Sheet) : Sheet := ⟨'\n' :: s.written, 0, true, true⟩

/-- A line break inside a text. -/
def breakLine (s : Sheet) (c : Char) : Sheet := ⟨c :: s.written, 0, true, true⟩

/-- On to a column, on a new line if something is written up to it. -/
def indentTo (s : Sheet) (column : Nat) : Sheet :=
  let s := if !s.indented || s.column > column || (s.column == column && !s.blank) then s.newLine
    else s
  if s.column < column then
    { s.put (List.replicate (column - s.column) ' ') with blank := true }
  else s

/-- A mark that touches what is in front of it. -/
def mark (s : Sheet) (text : String) : Sheet := s.putText text.toList

/-- A mark set off from what is in front of it. -/
def apart (s : Sheet) (text : String) : Sheet :=
  s.mark (if s.blank then text else " " ++ text)

/-- A mark set off from what is in front of it, behind which a block may start on its line. -/
def opening (s : Sheet) (text : String) : Sheet :=
  { s.apart text with indented := s.indented }

end Sheet

/-! ## What a text allows -/

/-- A line break that folding keeps. -/
def isTextBreak (c : Char) : Bool :=
  c == '\n' || c == '\x85' || c == '\u2028' || c == '\u2029'

/-- White space, or the end of the text. -/
def isBlankOrEnd : Option Char → Bool
  | none => true
  | some c => c == ' ' || c == '\t' || isBreak c

/-- The marks no plain text starts with. -/
def reservedMarks : List Char := "#,[]\x7b\x7d&*!|>'\"%@\x60".toList

/-- A mark that cannot start a plain text, in front of the character that follows it. -/
def isLeadingMark (c : Char) (next : Option Char) : Bool :=
  reservedMarks.contains c || ((c == '?' || c == ':' || c == '-') && isBlankOrEnd next)

/-- A colon before a blank or a number sign behind one, somewhere behind the character
`previous`. -/
def hasInnerMark (previous : Char) : List Char → Bool
  | [] => false
  | c :: rest =>
    (c == ':' && isBlankOrEnd rest.head?) || (c == '#' && isBlankOrEnd (some previous))
      || hasInnerMark c rest

/-- A text holds what ends a plain one or makes it something else. -/
def hasMarks (s : List Char) : Bool :=
  match s with
  | [] => false
  | c :: rest =>
    ['-', '-', '-'].isPrefixOf s || ['.', '.', '.'].isPrefixOf s
      || isLeadingMark c rest.head? || hasInnerMark c rest

/-- A character only an escape shows: any but a line feed and printable ASCII. -/
def needsEscape (c : Char) : Bool := !(c == '\n' || (' ' ≤ c && c ≤ '~'))

/-- Two characters of which the first is in one class and the second in another stand side by
side. -/
def hasPair (first second : Char → Bool) : List Char → Bool
  | c :: d :: rest => (first c && second d) || hasPair first second (d :: rest)
  | _ => false

/-- A text of several lines. -/
def isMultiline (s : List Char) : Bool := s.any isTextBreak

/-- Single quotes keep a text: it has no characters to escape, and no space beside a line break. -/
def allowsQuotes (s : List Char) : Bool :=
  !s.any needsEscape && !hasPair isTextBreak (· == ' ') s && !hasPair (· == ' ') isTextBreak s

/-- A text can stand without quotes: besides, it has one line, no space at its ends, and no
marks. -/
def allowsPlain (s : List Char) : Bool :=
  allowsQuotes s && !isMultiline s && s.head? != some ' ' && s.getLast? != some ' '
    && !hasMarks s

/-! ## Texts -/

/-- A space here becomes the end of the line. -/
def foldsHere (s : Sheet) (folding : Bool) : Bool := folding && s.column > lineWidth

/-- The runs of a text: each is of spaces alone, of line breaks alone, or of neither. -/
def runs (s : List Char) : List (List Char) :=
  s.splitBy fun c d => (c == ' ') == (d == ' ') && isTextBreak c == isTextBreak d

/-- One run of a plain text; a single space may become a line break. -/
def putPlainRun (column : Nat) (folding : Bool) (s : Sheet) (run : List Char) : Sheet :=
  if run == [' '] && foldsHere s folding then
    { s.indentTo column with blank := false, indented := false }
  else s.put run

/-- A text without quotes. -/
def putPlain (column : Nat) (folding : Bool) (text : List Char) (s : Sheet) : Sheet :=
  let s := if s.blank then s else s.put [' ']
  (runs text).foldl (putPlainRun column folding) { s with blank := false, indented := false }

/-- One run of a text in single quotes, in which a quote is written twice; `inside` when it is
neither the first nor the last.  Line breaks are written once more than they count. -/
def putQuotedRun (column : Nat) (folding inside : Bool) (s : Sheet) (run : List Char) : Sheet :=
  if run == [' '] && inside && foldsHere s folding then s.indentTo column
  else if isMultiline run then
    let s := if run.head? = some '\n' then s.newLine else s
    (run.foldl Sheet.breakLine s).indentTo column
  else s.put (run.flatMap fun c => if c = '\'' then ['\'', '\''] else [c])

/-- The runs of a text in single quotes, given whether the first of them starts the text. -/
def putQuotedRuns (column : Nat) (folding first : Bool) (s : Sheet) : List (List Char) → Sheet
  | [] => s
  | run :: rest =>
    putQuotedRuns column folding false
      (putQuotedRun column folding (!first && !rest.isEmpty) s run) rest

/-- A text in single quotes. -/
def putQuoted (column : Nat) (folding : Bool) (text : List Char) (s : Sheet) : Sheet :=
  (putQuotedRuns column folding true (s.apart "'") (runs text)).mark "'"

/-- A number in capital hexadecimal digits. -/
def capitalHex (width n : Nat) : List Char := (hexPadded width n).map upperChar

/-- The letter that stands for a character behind a backslash. -/
def escapeLetter? : Char → Option Char
  | '\x00' => some '0'
  | '\x07' => some 'a'
  | '\x08' => some 'b'
  | '\t' => some 't'
  | '\n' => some 'n'
  | '\x0b' => some 'v'
  | '\x0c' => some 'f'
  | '\r' => some 'r'
  | '\x1b' => some 'e'
  | '"' => some '"'
  | '\\' => some '\\'
  | '\x85' => some 'N'
  | '\xa0' => some '_'
  | '\u2028' => some 'L'
  | '\u2029' => some 'P'
  | _ => none

/-- A character as double quotes hold it. -/
def escaped (c : Char) : List Char :=
  match escapeLetter? c with
  | some letter => ['\\', letter]
  | none =>
    if !needsEscape c then [c]
    else if c.toNat < 0x100 then '\\' :: 'x' :: capitalHex 2 c.toNat
    else if c.toNat < 0x10000 then '\\' :: 'u' :: capitalHex 4 c.toNat
    else '\\' :: 'U' :: capitalHex 8 c.toNat

/-- The characters of a text in double quotes, of which `pending`, last one first, are not written
yet.  A line is folded at a space, behind an escape or in front of the character that follows one:
a backslash ends it, and another stands before a space at the start of the next. -/
def putEscaped (column : Nat) (folding first : Bool) (pending : List Char) (s : Sheet) :
    List Char → Sheet
  | [] => s.put pending.reverse
  | c :: rest =>
    let special := escaped c != [c]
    let s := if special then (s.put pending.reverse).put (escaped c) else s
    let pending := if special then [] else pending
    let width := if special then s.column - 1 else s.column + pending.length
    let inside := !first && rest.length ≥ 1
    if inside && folding && (c == ' ' || pending.isEmpty) && width > lineWidth then
      let s := (s.put (pending.reverse ++ ['\\'])).indentTo column
      let s := { s with blank := false, indented := false }
      let next := if special then rest.head? else some c
      let s := if next = some ' ' then s.put ['\\'] else s
      putEscaped column folding false (if special then [] else [c]) s rest
    else putEscaped column folding false (if special then [] else c :: pending) s rest

/-- A text in double quotes. -/
def putDoubleQuoted (column : Nat) (folding : Bool) (text : List Char) (s : Sheet) : Sheet :=
  (putEscaped column folding true [] (s.apart "\"") text).mark "\""

/-- **A text** in the plainest of the three ways that keeps it; a key stays on one line. -/
def putString (column : Nat) (asKey : Bool) (text : String) (s : Sheet) : Sheet :=
  let cs := text.toList
  if (typeOf? text).isNone && allowsPlain cs then putPlain column (!asKey) cs s
  else if allowsQuotes cs && !(asKey && isMultiline cs) then putQuoted column (!asKey) cs s
  else putDoubleQuoted column (!asKey) cs s

/-! ## Scalars -/

/-- A floating-point number; it always has a point. -/
def floatText (x : Binary64) : List Char :=
  match x with
  | .nan => ".nan".toList
  | .infinite negative => if negative then "-.inf".toList else ".inf".toList
  | .finite _ _ _ =>
    let cs := x.chars
    if cs.contains '.' then cs
    else cs.flatMap fun c => if c = 'e' then ['.', '0', 'e'] else [c]

/-- A scalar that is no text, and the name of its tag. -/
def scalarText : Value → List Char × String
  | .null => ("null".toList, "null")
  | .bool b => ((if b then "true" else "false").toList, "bool")
  | .int n => (intText n, "int")
  | .float x => (floatText x, "float")
  | .moment m => (m.plain.toList, "timestamp")
  | .imaginary x => (x.renderWhole.toList ++ ['j'], "str")
  | .bytes content => ((quotedBytes content).toList, "str")
  | .str text => (text.toList, "str")
  | .loose text => (text.shown.toList, "str")
  | .list _ => ([], "seq")
  | .dict _ => ([], "map")

/-- A scalar at a column. -/
def putScalar (column : Nat) (asKey : Bool) (v : Value) (s : Sheet) : Sheet :=
  match v with
  | .str text => putString column asKey text s
  | v => putPlain column (!asKey) (scalarText v).1 s

/-- How long a key and its tag may be to stand in front of its colon. -/
def keyLimit : Nat := 128

/-- A key that stands in front of its colon: not empty, on one line, and not too long. -/
def isShortKey (key : Value) : Bool :=
  let (text, tag) := scalarText key
  !text.isEmpty && !isMultiline text && text.length + tag.length + 2 < keyLimit

/-! ## Order -/

/-- The order of keys: texts by their characters, numbers by value; keys of other kinds have
none. -/
def keyBefore? (a b : Value) : Option Bool :=
  match a, b with
  | .str s, .str t => some (s < t)
  | _, _ =>
    match a.ratio?, b.ratio? with
    | some (n, d), some (m, e) => some (n * e < m * d)
    | _, _ => none

/-- Entries in the order of their keys, or as they came when two keys have no order. -/
def sortedEntries (entries : List (Value × Value)) : List (Value × Value) :=
  let comparable := entries.all fun a => entries.all fun b => (keyBefore? a.1 b.1).isSome
  if comparable then entries.mergeSort fun a b => !(keyBefore? b.1 a.1).getD false else entries

mutual
/-- A value with all its mappings in order. -/
def sorted : Value → Value
  | .list items => .list (sortedItems items)
  | .dict entries => .dict (sortedEntries (sortedValues entries))
  | v => v

/-- Each of some values with its mappings in order. -/
def sortedItems : List Value → List Value
  | [] => []
  | v :: rest => sorted v :: sortedItems rest

/-- Entries whose values have their mappings in order. -/
def sortedValues : List (Value × Value) → List (Value × Value)
  | [] => []
  | (k, v) :: rest => (k, sorted v) :: sortedValues rest
end

/-! ## Collections -/

/-- How much deeper a nested block is indented. -/
def indentWidth : Nat := 2

mutual
/-- A value inside a block at `column`; `asEntry` when a key is in front of it, where the items of
a list need not be indented. -/
def putValue (column : Nat) (asEntry : Bool) (v : Value) (s : Sheet) : Sheet :=
  match v with
  | .list [] => (s.apart "[").mark "]"
  | .dict [] => (s.apart "\x7b").mark "\x7d"
  | .list items =>
    putItems (if asEntry && !s.indented then column else column + indentWidth) items s
  | .dict entries => putEntries (column + indentWidth) entries s
  | v => putScalar (column + indentWidth) false v s

/-- The items of a list, a line each. -/
def putItems (column : Nat) (items : List Value) (s : Sheet) : Sheet :=
  match items with
  | [] => s
  | v :: rest => putItems column rest (putValue column false v ((s.indentTo column).opening "-"))

/-- The entries of a mapping, a line each; a key that is not short has a line of its own. -/
def putEntries (column : Nat) (entries : List (Value × Value)) (s : Sheet) : Sheet :=
  match entries with
  | [] => s
  | (key, v) :: rest =>
    let s := s.indentTo column
    let s :=
      if isShortKey key then (putScalar (column + indentWidth) true key s).mark ":"
      else
        ((putScalar (column + indentWidth) false key (s.opening "?")).indentTo column).opening ":"
    putEntries column rest (putValue column true v s)
end

/-- **A mapping as a text.** -/
def written (entries : List (Value × Value)) : String :=
  let s := match sorted (.dict entries) with
    | .dict (e :: es) => putEntries 0 (e :: es) .empty
    | _ => Sheet.empty.mark "\x7b\x7d"
  String.ofList (s.indentTo 0).written.reverse

end SlotEdit.Yaml
