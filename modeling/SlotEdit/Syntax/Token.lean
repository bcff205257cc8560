import SlotEdit.Text.Quoted
import SlotEdit.Syntax.Span

/-!
# Syntax/Token — cutting a text into tokens

`tokenize` cuts a text by rules tried in order at each place; the first one that takes at least one
character wins.  Tokens of a skipped kind are dropped and an end token closes the list.  A
`TokenStream` reads the list one token at a time and never passes its end.
-/

namespace SlotEdit

/-- A piece of text of some kind, and where it stands. -/
structure Token where
  kind : String
  value : String
  start : Nat
  stop : Nat
deriving DecidableEq, Repr, Inhabited

/-- A rule for one kind of token: how many characters it takes, given the text before, last
character first, and the text that follows.  Zero means none. -/
structure TokenRule where
  kind : String
  length : List Char → List Char → Nat

/-- No rule takes the character at an offset. -/
structure UnexpectedCharacter where
  character : Char
  offset : Nat
deriving DecidableEq, Repr

/-- The wording of a character that no rule takes. -/
def UnexpectedCharacter.message (e : UnexpectedCharacter) : String :=
  "Unexpected character " ++ quoted (String.singleton e.character) ++ atOffset e.offset

/-- The token that closes every list. -/
def Token.atEnd (offset : Nat) : Token := ⟨"EOF", "", offset, offset⟩

/-- The first rule that takes at least one character, and how many. -/
def firstMatch (rules : List TokenRule) (before rest : List Char) : Option (String × Nat) :=
  rules.findSome? fun rule =>
    let n := rule.length before rest
    if 0 < n then some (rule.kind, n) else none

/-- The tokens of the rest of a text, given the text before it, last character first. -/
def tokenizeFrom (rules : List TokenRule) (skip : List String) (offset : Nat)
    (before rest : List Char) : Except UnexpectedCharacter (List Token) :=
  match rest with
  | [] => .ok [Token.atEnd offset]
  | c :: tail =>
    match firstMatch rules before (c :: tail) with
    | none => .error ⟨c, offset⟩
    | some (kind, n) => do
      let lexeme := c :: tail.take (n - 1)
      let more ← tokenizeFrom rules skip (offset + n) (lexeme.reverse ++ before)
        (tail.drop (n - 1))
      pure (if kind ∈ skip then more
        else ⟨kind, String.ofList lexeme, offset, offset + n⟩ :: more)
termination_by rest.length
decreasing_by simp only [List.length_drop, List.length_cons]; omega

/-- **The tokens of a text.** -/
def tokenize (rules : List TokenRule) (skip : List String) (text : String) :
    Except UnexpectedCharacter (List Token) :=
  tokenizeFrom rules skip 0 [] text.toList

/-! ## Reading a list of tokens -/

/-- What was expected instead of a token. -/
structure UnexpectedToken where
  expected : String
  found : Token
deriving DecidableEq, Repr

/-- The wording of a token that was not expected. -/
def UnexpectedToken.message (e : UnexpectedToken) : String :=
  "Expected " ++ e.expected ++ ", got " ++ e.found.kind ++ " (" ++ quoted e.found.value ++ ")"
    ++ atOffset e.found.start

/-- The token is of a kind and, when a value is given, has it. -/
def Token.fits (t : Token) (kind : String) (value : Option String) : Bool :=
  t.kind == kind && (match value with
    | none => true
    | some v => t.value == v)

/-- A list of tokens and the index of the next one. -/
structure TokenStream where
  tokens : List Token
  position : Nat
deriving Repr

namespace TokenStream

/-- The start of a list. -/
def ofTokens (tokens : List Token) : TokenStream := ⟨tokens, 0⟩

/-- The next token. -/
def current (s : TokenStream) : Token := s.tokens.getD s.position (Token.atEnd 0)

/-- The token `lookahead` places on, the last one when the list ends before; an index below zero
counts from the end. -/
def peek? (s : TokenStream) (lookahead : Int) : Option Token :=
  let index := min (s.position + lookahead) (s.tokens.length - 1)
  if 0 ≤ index then s.tokens[index.toNat]?
  else if 0 ≤ index + s.tokens.length then s.tokens[(index + s.tokens.length).toNat]?
  else none

/-- The next token is taken, unless it is the last. -/
def advance (s : TokenStream) : Token × TokenStream :=
  (s.current, if s.position + 1 < s.tokens.length then { s with position := s.position + 1 } else s)

/-- The next token is taken when it fits. -/
def accept? (s : TokenStream) (kind : String) (value : Option String) :
    Option (Token × TokenStream) :=
  if s.current.fits kind value then some s.advance else none

/-- The next token is taken, and must fit. -/
def expect (s : TokenStream) (kind : String) (value : Option String) :
    Except UnexpectedToken (Token × TokenStream) :=
  match s.accept? kind value with
  | some taken => .ok taken
  | none => .error ⟨value.getD kind, s.current⟩

/-- Only the end token is left. -/
def isAtEnd (s : TokenStream) : Bool := s.current.kind == "EOF"

end TokenStream

end SlotEdit
