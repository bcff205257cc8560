import SlotEdit.Regex.Fault
import SlotEdit.Regex.Term

/-!
# Regex/Piece — an expression cut into characters and escapes, and the state of reading it

A `Piece` is one character, or a backslash with the character after it.  A `Reading` knows the
pieces that are left and what has been said so far: the switches, the groups and their widths.
The basic readers look at the next piece, take it, or refuse the expression at a place.
-/

namespace SlotEdit.Regex

/-- A character, an escaped character, or a backslash with nothing after it. -/
inductive Glyph
  | plain (c : Char)
  | escaped (c : Char)
  | loneBackslash
deriving DecidableEq, Repr, Inhabited

/-- The characters of a piece. -/
def Glyph.text : Glyph → String
  | .plain c => String.singleton c
  | .escaped c => String.ofList ['\\', c]
  | .loneBackslash => "\\"

/-- How many characters a piece takes. -/
def Glyph.length : Glyph → Nat
  | .plain _ => 1
  | .escaped _ => 2
  | .loneBackslash => 1

/-- A piece is a character of a class, and not escaped. -/
def Glyph.isPlain (p : Char → Bool) : Glyph → Bool
  | .plain c => p c
  | _ => false

/-- A piece of an expression and its offset. -/
structure Piece where
  offset : Nat
  glyph : Glyph
deriving DecidableEq, Repr, Inhabited

/-- The pieces of an expression that starts at an offset. -/
def piecesFrom (offset : Nat) : List Char → List Piece
  | [] => []
  | ['\\'] => [⟨offset, .loneBackslash⟩]
  | '\\' :: c :: rest => ⟨offset, .escaped c⟩ :: piecesFrom (offset + 2) rest
  | c :: rest => ⟨offset, .plain c⟩ :: piecesFrom (offset + 1) rest

/-- Where the reading of an expression is, and what has been read so far.  A group without a width
is still open. -/
structure Reading where
  pieces : List Piece
  length : Nat
  flags : Flags
  names : List (String × Nat)
  widths : Array (Option Width)
  lookBehindGroups : Option Nat
  references : List (Nat × Nat)
deriving Repr

/-- The start of an expression. -/
def Reading.start (text : List Char) (flags : Flags) : Reading :=
  ⟨piecesFrom 0 text, text.length, flags, [], #[none], none, []⟩

/-- A step of reading an expression. -/
abbrev Reader := StateT Reading (Except Fault)

/-- The offset of the next piece. -/
def tell : Reader Nat := do
  let s ← get
  pure (s.pieces.head?.elim s.length Piece.offset)

/-- The expression is refused, a number of characters before the next piece. -/
def refuse {α : Type} (cause : Cause) (back : Nat) : Reader α := do
  throw (.malformed cause (some ((← tell) - back)))

/-- The expression is refused at an offset. -/
def refuseAt {α : Type} (cause : Cause) (offset : Nat) : Reader α :=
  throw (.malformed cause (some offset))

/-- A backslash that ends the expression is refused as soon as it is next. -/
def checkNext : Reader Unit := do
  match (← get).pieces with
  | ⟨offset, .loneBackslash⟩ :: _ => refuseAt .loneBackslash offset
  | _ => pure ()

/-- The next piece, if any. -/
def peek : Reader (Option Glyph) := do
  pure ((← get).pieces.head?.map Piece.glyph)

/-- The next piece, if any, is taken. -/
def take : Reader (Option Glyph) := do
  let glyph ← peek
  modify fun s => { s with pieces := s.pieces.drop 1 }
  checkNext
  pure glyph

/-- The next piece is a certain character. -/
def isNext (c : Char) : Reader Bool := do
  pure ((← peek) == some (.plain c))

/-- The next piece is taken if it is a certain character. -/
def accept (c : Char) : Reader Bool := do
  if ← isNext c then
    let _ ← take
    pure true
  else pure false

/-- Characters of a class, at most as many as there are turns. -/
def takeWhile (p : Char → Bool) (turns : Nat) : Reader (List Char) := do
  match turns with
  | 0 => pure []
  | turns + 1 =>
    match ← peek with
    | some (.plain c) =>
      if p c then
        let _ ← take
        pure (c :: (← takeWhile p turns))
      else pure []
    | _ => pure []

/-- A name without its closing character is refused. -/
def refuseName (terminator : Char) (what : String) (soFar : String) : Reader String :=
  if soFar.isEmpty then refuse (.missingName what) 0
  else refuse (.unterminatedName terminator) soFar.length

/-- The characters up to and over a closing one, which must not be the first.  Each turn reads a
piece. -/
def nameUntil (terminator : Char) (what : String) (turns : Nat) (soFar : String) :
    Reader String := do
  match turns with
  | 0 => refuseName terminator what soFar
  | turns + 1 =>
    match ← take with
    | none => refuseName terminator what soFar
    | some glyph =>
      if glyph == .plain terminator then
        if soFar.isEmpty then refuse (.missingName what) 1 else pure soFar
      else nameUntil terminator what turns (soFar ++ glyph.text)

/-- A name up to and over a closing character. -/
def name (terminator : Char) (what : String) : Reader String := do
  nameUntil terminator what (← get).pieces.length ""

/-! ## Groups -/

/-- The groups so far, the whole expression among them. -/
def groupCount : Reader Nat := do
  pure (← get).widths.size

/-- A group that is closed. -/
def isClosed (index : Nat) : Reader Bool := do
  pure ((← get).widths.getD index none).isSome

/-- Inside a look-behind, only groups closed before it can be referred to. -/
def checkLookBehind (index : Nat) : Reader Unit := do
  match (← get).lookBehindGroups with
  | none => pure ()
  | some limit =>
    if !(← isClosed index) then refuse .openGroup 0
    else if index ≥ limit then refuse .groupOfSameLookBehind 0

/-- The widths of the groups that are closed. -/
def Reading.widthOf (s : Reading) (index : Nat) : Width :=
  ((s.widths.getD index none)).getD ⟨0, 0⟩

/-- A new group is opened, perhaps under a name, which must be new. -/
def openGroup (name : Option String) : Reader Nat := do
  let s ← get
  let index := s.widths.size
  match name with
  | none => set { s with widths := s.widths.push none }
  | some n =>
    match s.names.lookup n with
    | some earlier => refuse (.redefinedGroup n index earlier) (n.length + 1)
    | none =>
      set { s with widths := s.widths.push none, names := s.names ++ [(n, index)] }
  pure index

/-- A group is closed. -/
def closeGroup (index : Nat) (body : Term) : Reader Unit :=
  modify fun s => { s with widths := s.widths.set! index (some (width s.widthOf body)) }

/-- A name that is an identifier. -/
def checkName (n : String) : Reader Unit :=
  if isIdentifier n.toList then pure () else refuse (.badGroupName n) (n.length + 1)

end SlotEdit.Regex
