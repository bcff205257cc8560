import SlotEdit.Css.Lexeme

/-!
# Css/Extent — how far values, selectors and queries reach

Each function takes the cursor at the front of a construct and gives the cursor right behind its
last piece, or `none` where the construct does not fit.  Constructs nest through a reader for the
inner ones, so depth is the only recursion.
-/

namespace SlotEdit.Css

/-- The cursor behind a construct that fits here. -/
abbrev Extent := Cursor → Option Cursor

/-- The cursor behind `n` characters, `n` not zero. -/
def taken? (c : Cursor) (n : Nat) : Option Cursor := if n = 0 then none else some (c.drop n)

/-- The cursor behind one expected character. -/
def char? (expected : Char) (c : Cursor) : Option Cursor :=
  if c.peek? = some expected then some (c.drop 1) else none

/-- The cursor behind an identifier. -/
def ident? : Extent := fun c => taken? c (identLength c.rest)

/-- The cursor behind an identifier that is a given word. -/
def keyword? (word : String) (c : Cursor) : Option Cursor :=
  if c.startsWith word && identLength c.rest == word.length then some (c.drop word.length)
  else none

/-! ## Values -/

/-- An operator between values. -/
def operator? : Extent := fun c =>
  match c.peek? with
  | some o => if o ∈ ['+', '-', '*', '/'] then some (c.drop 1) else none
  | none => none

/-- Operators and operands behind a value, as far as they go.  Each turn reads an operator. -/
def operands (atom : Extent) (turns : Nat) (c : Cursor) : Option Cursor :=
  match turns, operator? (skipToValue c) with
  | turns + 1, some after => do
    let last ← atom (skipToValue after)
    operands atom turns last
  | _, _ => some c

/-- One value, with operators and operands behind it. -/
def single (atom : Extent) : Extent := fun c => do
  let after ← atom c
  operands atom after.rest.length after

/-- The way a value goes on: another value, or an operator and its operand. -/
def another? (atom : Extent) (c : Cursor) : Option Cursor :=
  let next := skipToValue c
  (atom next).or ((operator? next).bind fun after => atom (skipToValue after))

/-- Values and operators behind a value, as far as they go.  Each turn reads a value. -/
def run (atom : Extent) (turns : Nat) (c : Cursor) : Cursor :=
  match turns, another? atom c with
  | turns + 1, some after => run atom turns after
  | _, _ => c

/-- One or more values. -/
def values (atom : Extent) : Extent := fun c =>
  (atom c).map fun after => run atom after.rest.length after

/-- Items with separators between them, up to and over a closing character.  Each turn reads an
item. -/
def separated (item : Extent) (separators : List Char) (close : Char) (turns : Nat)
    (c : Cursor) : Option Cursor :=
  match turns with
  | 0 => none
  | turns + 1 => do
    let after := skipToValue (← item c)
    match after.peek? with
    | some x =>
      if x = close then some (after.drop 1)
      else if x ∈ separators then
        separated item separators close turns (skipToValue (after.drop 1))
      else none
    | none => none

/-- Items in brackets, after the opening one: none when `mayBeEmpty`, or some with separators
between them. -/
def bracketed (item : Extent) (separators : List Char) (close : Char) (mayBeEmpty : Bool) :
    Extent := fun c =>
  let c := skipToValue c
  if mayBeEmpty && c.peek? == some close then some (c.drop 1)
  else separated item separators close (c.rest.length + 1) c

/-- A word, an identifier, or a call of one: an identifier with a parenthesis right behind it. -/
def wordOrCall (arguments : Extent) : Extent := fun c =>
  let ident := identLength c.rest
  let word := wordLength c.rest
  if ident = 0 ∧ word = 0 then none
  else if word ≤ ident ∧ (c.drop ident).peek? = some '(' then arguments (c.drop (ident + 1))
  else some (c.drop (max ident word))

/-- **One value without operators**, nested at most `depth` deep. -/
def atom (depth : Nat) : Extent := fun c =>
  match depth with
  | 0 => none
  | depth + 1 =>
    let inner := atom depth
    match c.peek? with
    | none => none
    | some '!' => c.accept? "!important"
    | some '#' => taken? c (colorLength c.rest)
    | some '"' => taken? c (stringLength c.rest)
    | some '\'' => taken? c (stringLength c.rest)
    | some '(' => bracketed (single inner) [] ')' false (c.drop 1)
    | some '[' => bracketed (single inner) [','] ']' false (c.drop 1)
    | some _ =>
      match numberLength c.rest with
      | 0 => wordOrCall (bracketed (values inner) [',', ';'] ')' true) c
      | n =>
        let after := c.drop n
        some (after.drop (unitLength after.rest))

/-! ## The colon of a pseudo-class -/

/-- An opening brace stands before the next semicolon, closing brace or end. -/
def braceAhead : List Char → Bool
  | [] => false
  | c :: rest => if c = ';' ∨ c = '}' then false else c = '{' || braceAhead rest

/-- As `braceAhead`, but braces in block comments do not count. -/
def braceAheadOfComments (inComment : Bool) : List Char → Bool
  | [] => false
  | '/' :: '*' :: rest => braceAheadOfComments true rest
  | '*' :: '/' :: rest => braceAheadOfComments false rest
  | c :: rest =>
    if c = ';' ∨ c = '}' then false
    else (c = '{' && !inComment) || braceAheadOfComments inComment rest

/-- The colon in front, its character already read, opens a pseudo-class: no second colon follows,
and a block does. -/
def opensPseudoClass (afterColon : List Char) : Bool :=
  match afterColon with
  | [] => false
  | c :: rest =>
    if c = ':' ∨ c = ';' ∨ c = '}' then false else braceAheadOfComments false rest

/-- White space is followed by a character that starts a descendant. -/
def startsDescendant (s : List Char) : Bool :=
  match s with
  | ':' :: c :: rest => !isAsciiBlank c && braceAhead (c :: rest)
  | c :: _ => c ∈ ['#', '.', '[', '-', '*', '&'] || (isWord c && c != '_')
  | [] => false

/-! ## Selectors -/

/-- The cursor behind the arguments of a pseudo-class: selectors or values, with commas, and for
counted children a selector behind `of`. -/
def pseudoArguments (selector value : Extent) : Extent :=
  let item : Extent := fun c =>
    let ends (after : Cursor) : Bool :=
      let next := skip after
      next.peek? == some ',' || next.peek? == some ')'
    let bySelector := (selector c).filter ends
    let ofSelector (after : Cursor) : Option Cursor :=
      (keyword? "of" (skip after)).bind fun behind => selector (skip behind)
    bySelector.or ((values value c).bind fun after =>
      if ends after then some after else (ofSelector after).filter ends)
  bracketed item [','] ')' true

/-- The name of an attribute or tag, perhaps in a namespace. -/
def qualifiedName : Extent := fun c =>
  let name : Extent := fun c => (ident? c).or (char? '*' c)
  let bare := name c
  let bar (c : Cursor) : Option Cursor :=
    if (skip c).peek? = some '|' ∧ ((skip c).drop 1).peek? ≠ some '=' then
      name (skip ((skip c).drop 1))
    else none
  match bare with
  | some after => some ((bar after).getD after)
  | none => bar c

/-- The comparison in an attribute selector. -/
def comparison? (c : Cursor) : Option Cursor :=
  ["=", "~=", "^=", "|=", "*=", "$="].findSome? c.accept?

/-- The cursor behind an attribute selector, after its opening bracket. -/
def attributeTest (value : Extent) : Extent := fun c => do
  let named ← qualifiedName (skip c)
  let next := skip named
  match comparison? next with
  | some after => do
    let tested ← single value (skipToValue after)
    char? ']' (skipToValue tested)
  | none => char? ']' next

/-- The cursor behind one qualification of a selector: a class, an identity, a pseudo-class, a
pseudo-element, an attribute or a namespace. -/
def qualification (selector value : Extent) : Extent := fun c =>
  let withArguments (after : Cursor) : Option Cursor :=
    if after.peek? = some '(' then pseudoArguments selector value (after.drop 1) else some after
  match c.rest with
  | '.' :: _ => ident? (skip (c.drop 1))
  | '#' :: _ => ident? (skip (c.drop 1))
  | '[' :: _ => attributeTest value (c.drop 1)
  | ':' :: ':' :: _ => (ident? (skip (c.drop 2))).bind withArguments
  | ':' :: rest =>
    if opensPseudoClass rest then (ident? (skip (c.drop 1))).bind withArguments else none
  | _ => none

/-- Where the parts of a selector are joined. -/
inductive Joint
  | descendant (next : Cursor)
  | combinator (next : Cursor)
  | qualified (next : Cursor)
  | bar (next : Cursor)
  | done

/-- What follows a part of a selector.  Each turn passes a comment over. -/
def joint (turns : Nat) (c : Cursor) : Joint :=
  let next := c.skipWhile isAsciiBlank
  let blank := next.offset ≠ c.offset
  if blank && startsDescendant next.rest then .descendant next
  else
    match next.rest with
    | ':' :: ':' :: _ => .qualified next
    | ':' :: _ => if blank then .done else .qualified next
    | x :: _ =>
      if x ∈ ['.', '#', '['] then .qualified next
      else if x ∈ ['>', '+', '~'] then .combinator (next.drop 1)
      else if x = '|' then .bar (next.drop 1)
      else
        match turns, comment? next with
        | turns + 1, some (_, after) => joint turns after
        | _, _ => .done
    | [] => .done

/-- The cursor behind the first piece of a selector's part. -/
def simple (selector value : Extent) : Extent := fun c =>
  match c.rest with
  | '*' :: _ => some (c.drop 1)
  | '&' :: _ => some (c.drop 1)
  | '"' :: _ => taken? c (stringLength c.rest)
  | '\'' :: _ => taken? c (stringLength c.rest)
  | '|' :: _ => none
  | _ => (ident? c).or (qualification selector value c)

/-- The cursor behind the rest of a selector whose first part is read.  Each turn reads a part. -/
def moreParts (selector value : Extent) (turns : Nat) (c : Cursor) : Option Cursor :=
  match turns with
  | 0 => some c
  | turns + 1 =>
    match joint c.rest.length c with
    | .done => some c
    | .descendant next => do
      let after ← simple selector value next
      moreParts selector value turns after
    | .qualified next => do
      let after ← qualification selector value next
      moreParts selector value turns after
    | .bar next => do
      let after ← simple selector value (skip next)
      moreParts selector value turns after
    | .combinator next => do
      let start := combinators turns next
      let after ← simple selector value start
      moreParts selector value turns after
where
  /-- Combinators that follow each other are passed over. -/
  combinators (turns : Nat) (c : Cursor) : Cursor :=
    let next := skip c
    match turns, next.peek? with
    | turns + 1, some x => if x ∈ ['>', '+', '~'] then combinators turns (next.drop 1) else next
    | _, _ => next

/-- **One selector**, with arguments nested at most `depth` deep; a combinator may lead it. -/
def selector (value : Extent) (depth : Nat) : Extent := fun c =>
  match depth with
  | 0 => none
  | depth + 1 =>
    let inner := selector value depth
    let start := moreParts.combinators c.rest.length c
    match simple inner value start with
    | none => none
    | some after => moreParts inner value after.rest.length after

/-- The cursor behind selectors with commas between them.  Each turn reads a selector. -/
def selectorsFrom (one : Extent) (turns : Nat) (c : Cursor) : Option Cursor :=
  match turns with
  | 0 => none
  | turns + 1 => do
    let after ← one c
    let next := skip after
    if next.peek? = some ',' then selectorsFrom one turns (skip (next.drop 1)) else some after

/-- The cursor behind one or more selectors. -/
def selectors (one : Extent) : Extent := fun c => selectorsFrom one (c.rest.length + 1) c

/-! ## Queries -/

/-- A feature in parentheses, after the opening one: a name, a colon and values. -/
def feature (value : Extent) : Extent := fun c => do
  let named ← ident? (skip c)
  let colon ← char? ':' (skip named)
  let after ← values value (skipToValue colon)
  char? ')' (skipToValue after)

/-- Words that join queries, each with a query behind it, as far as they go.  Each turn reads a
query. -/
def joinedQueries (primary : Extent) (turns : Nat) (c : Cursor) : Option Cursor :=
  let next := skip c
  match turns, (keyword? "and" next).or (keyword? "or" next) with
  | turns + 1, some after => do
    let last ← primary (skip after)
    joinedQueries primary turns last
  | _, _ => some c

/-- A query that is joined to no other: another query behind a word, a selector in parentheses, a
feature, a query in parentheses, or a name. -/
def primaryQuery (value oneSelector inner : Extent) : Extent := fun c =>
  match (keyword? "not" c).or (keyword? "only" c) with
  | some after => inner (skip after)
  | none =>
    match keyword? "selector" c with
    | some after => do
      let inside ← char? '(' (skip after)
      let behind ← oneSelector (skip inside)
      char? ')' (skip behind)
    | none =>
      match c.peek? with
      | some '(' =>
        (feature value (c.drop 1)).or do
          let behind ← inner (skip (c.drop 1))
          char? ')' (skip behind)
      | _ => ident? c

/-- **One query**, nested at most `depth` deep. -/
def query (value oneSelector : Extent) (depth : Nat) : Extent := fun c =>
  match depth with
  | 0 => none
  | depth + 1 =>
    let primary := primaryQuery value oneSelector (query value oneSelector depth)
    (primary c).bind fun after => joinedQueries primary after.rest.length after

end SlotEdit.Css
