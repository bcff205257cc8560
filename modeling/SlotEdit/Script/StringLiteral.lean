import SlotEdit.Script.Lexeme

/-!
# Script/StringLiteral — where string literals end

`stringLiteral` reads a string literal from its opening to its closing quotes.  Escapes are passed
over, not read; a line break ends a literal in single quotes unless nothing but an escape or the
opening stands before it.  A formatted literal holds interpolations, read by a given reader.
-/

namespace SlotEdit.Script

/-- A construct as a node and the cursor behind it, where it fits. -/
abbrev Reading := Option (GrammarTree × Cursor)

/-- A node over all from one cursor to another. -/
def nodeOver (construct : String) (first last : Cursor) (children : List GrammarTree) :
    GrammarTree :=
  .named construct ⟨first.offset, last.offset⟩ children

/-- How many characters an escape takes, without its backslash. -/
def escapeLength (s : List Char) : Nat :=
  let hex (n : Nat) : Nat := if s.length ≤ n then 0
    else if ((s.drop 1).take n).all isHexDigit then n + 1 else 0
  match s with
  | 'u' :: _ => hex 4
  | 'U' :: _ => hex 8
  | 'x' :: _ => hex 2
  | '\r' :: '\n' :: _ => 2
  | 'N' :: '\x7b' :: rest =>
    let name := (rest.takeWhile fun c => c != '\x7d').length
    if name = 0 ∨ rest.length = name then 0 else name + 3
  | c :: _ =>
    if isAsciiDigit c then ((s.take 3).takeWhile isAsciiDigit).length
    else if "\n'\"abfnrtv\\".toList.contains c then 1 else 0
  | [] => 0

/-- How many characters a backslash in a raw literal takes with it. -/
def rawEscapeLength (quote : Char) (s : List Char) : Nat :=
  let quoted := match s with
    | c :: _ => if c = quote ∨ c = '\\' then 1 else 0
    | [] => 0
  match s.drop quoted with
  | '\r' :: '\n' :: _ => quoted + 2
  | '\r' :: _ => quoted + 1
  | '\n' :: _ => quoted + 1
  | _ => quoted

/-- The interpolations up to the closing quotes and the cursor behind those.  `started` tells that
a character that is no escape stands before on this line.  Each turn passes a character, an escape
or an interpolation. -/
def stringBody (kind : Quoting) (interpolation : Cursor → Reading) (turns : Nat) (started : Bool)
    (c : Cursor) : Option (List GrammarTree × Cursor) :=
  match turns, c.rest with
  | turns + 1, first :: rest =>
    let go := stringBody kind interpolation turns
    if first.toNat = 0 then none
    else if kind.formatted && (first == '\x7b' || first == '\x7d') then
      if rest.head? = some first then go false (c.drop 2)
      else if first = '\x7b' then do
        let (tree, after) ← interpolation c
        let (more, last) ← go false after
        pure (tree :: more, last)
      else none
    else if first = '\\' then
      if kind.raw then go started (c.drop (1 + rawEscapeLength kind.quote rest))
      else if kind.bytes && ((rest.head?.map "NuU".toList.contains).getD false) then
        go started (c.drop 2)
      else go false (c.drop (1 + escapeLength rest))
    else if first = kind.quote then
      if !kind.triple then some ([], c.drop 1)
      else
        match rest with
        | second :: third :: _ =>
          if second = kind.quote then
            if third = kind.quote then some ([], c.drop 3) else go false (c.drop 2)
          else go false (c.drop 1)
        | _ => none
    else if first = '\n' && started && !kind.triple then none
    else go true (c.drop 1)
  | _, _ => none

/-- **A string literal**: its opening and its interpolations are its children. -/
def stringLiteral (interpolation : Cursor → Reading) (c : Cursor) : Reading := do
  let (kind, inside) ← quoting? c
  let (pieces, last) ← stringBody kind interpolation inside.rest.length false inside
  pure (nodeOver "string" c last (nodeOver "string_start" c inside [] :: pieces), last)

/-- The text that tells how a value is written, up to the brace that ends it: interpolations may
stand in it.  Each turn passes a character or an interpolation. -/
def formatSpecifier (interpolation : Cursor → Reading) (turns : Nat) (c : Cursor) :
    Option (List GrammarTree × Cursor) :=
  match turns, c.rest with
  | turns + 1, first :: _ =>
    if first = '\x7d' then some ([], c)
    else if first = '\x7b' then do
      let (tree, after) ← interpolation c
      let (more, last) ← formatSpecifier interpolation turns after
      pure (tree :: more, last)
    else formatSpecifier interpolation turns (c.drop 1)
  | _, _ => none

end SlotEdit.Script
