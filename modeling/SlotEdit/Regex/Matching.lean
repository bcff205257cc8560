import SlotEdit.Regex.Reading
import SlotEdit.Regex.CharTest
import SlotEdit.Syntax.Token

/-!
# Regex/Matching — where an expression matches

A term is tried at an offset by backtracking: `run` takes what is to follow as an argument and
tries the ways the term can match in order of preference, until what follows succeeds.  `matchAt`
runs a whole expression at one offset and `search` looks for the first offset where that works.

An expression is also a rule for one kind of token: it takes what it matches at the place it is tried.
The expression sees the text before that place, so anchors and look-behinds hold as they do in the
whole text.
-/

namespace SlotEdit.Regex

/-- Where a group last opened and last closed. -/
structure Capture where
  opened : Option Nat
  closed : Option Nat
deriving DecidableEq, Repr, Inhabited

/-- The characters a group stands on; a group that never closed behind where it opened has none. -/
def Capture.span? (c : Capture) : Option (Nat × Nat) :=
  match c.opened, c.closed with
  | some a, some b => if a ≤ b then some (a, b) else none
  | _, _ => none

/-- How far a match has come, and what its groups have captured. -/
structure Progress where
  offset : Nat
  captures : Array Capture
deriving Repr

namespace Progress

/-- What a group has captured. -/
def capture (s : Progress) (index : Nat) : Capture := s.captures.getD index ⟨none, none⟩

/-- A group opens here. -/
def opened (s : Progress) (index : Nat) : Progress :=
  { s with captures := s.captures.modify index fun c => { c with opened := some s.offset } }

/-- A group closes here. -/
def closed (s : Progress) (index : Nat) : Progress :=
  { s with captures := s.captures.modify index fun c => { c with closed := some s.offset } }

end Progress

/-- A way to match at a place: given what is to follow, the end of the first way that works. -/
abbrev Matcher := Progress → (Progress → Option Progress) → Option Progress

/-- The text that is searched, and the widths of the groups of the expression. -/
structure Setting where
  text : Array Char
  widths : Nat → Width

namespace Setting

/-- The next character passes a test. -/
def one (g : Setting) (test : Char → Bool) : Matcher := fun s k =>
  match g.text[s.offset]? with
  | some c => if test c then k { s with offset := s.offset + 1 } else none
  | none => none

/-- How many of at most `turns` characters from an offset pass a test. -/
def runLength (g : Setting) (test : Char → Bool) (turns offset : Nat) : Nat :=
  match turns, g.text[offset]? with
  | turns + 1, some c => if test c then g.runLength test turns (offset + 1) + 1 else 0
  | _, _ => 0

/-- The next character is a word character. -/
def isWordAt (g : Setting) (flags : Flags) (offset : Nat) : Bool :=
  match g.text[offset]? with
  | some c => isWordChar flags c
  | none => false

/-- The character before is a word character. -/
def isWordBefore (g : Setting) (flags : Flags) (offset : Nat) : Bool :=
  0 < offset && g.isWordAt flags (offset - 1)

/-- The character at an offset is a line feed. -/
def isLineFeedAt (g : Setting) (offset : Nat) : Bool := g.text[offset]? == some '\n'

/-- An anchor holds at an offset.  An empty text has neither boundaries nor places between them. -/
def holds (g : Setting) (flags : Flags) (offset : Nat) : Anchor → Bool
  | .lineStart =>
    offset = 0 || (flags.contains .multiline && g.isLineFeedAt (offset - 1))
  | .lineEnd =>
    offset = g.text.size || (g.isLineFeedAt offset
      && (flags.contains .multiline || offset + 1 = g.text.size))
  | .textStart => offset = 0
  | .textEnd => offset = g.text.size
  | .wordBoundary =>
    !g.text.isEmpty && g.isWordBefore flags offset != g.isWordAt flags offset
  | .noWordBoundary =>
    !g.text.isEmpty && g.isWordBefore flags offset == g.isWordAt flags offset

/-- The characters from `first` up to `last` stand again at an offset. -/
def repeats (g : Setting) (flags : Flags) (first last offset : Nat) : Bool :=
  (List.range (last - first)).all fun i =>
    match g.text[first + i]?, g.text[offset + i]? with
    | some c, some d => sameChar flags c d
    | _, _ => false

end Setting

/-! ## Repetitions -/

/-- One more turn is allowed. -/
def below (count : Nat) (most : Option Nat) : Bool :=
  match most with
  | some n => count < n
  | none => true

/-- As many turns as possible first.  Past the least number, a turn that would start where the last
one did is not taken. -/
def greedyTurns (body : Matcher) (least : Nat) (most : Option Nat) (turns count : Nat)
    (last : Option Nat) : Matcher := fun s k =>
  match turns with
  | 0 => k s
  | turns + 1 =>
    if count < least then
      body s fun s' => greedyTurns body least most turns (count + 1) last s' k
    else if below count most && last != some s.offset then
      match body s fun s' =>
        greedyTurns body least most turns (count + 1) (some s.offset) s' k with
      | some r => some r
      | none => k s
    else k s

/-- As few turns as possible first. -/
def lazyTurns (body : Matcher) (least : Nat) (most : Option Nat) (turns count : Nat)
    (last : Option Nat) : Matcher := fun s k =>
  match turns with
  | 0 => k s
  | turns + 1 =>
    if count < least then
      body s fun s' => lazyTurns body least most turns (count + 1) last s' k
    else
      match k s with
      | some r => some r
      | none =>
        if below count most && last != some s.offset then
          body s fun s' => lazyTurns body least most turns (count + 1) (some s.offset) s' k
        else none

/-- As many turns as possible, each one settled before the next. -/
def settledTurns (body : Matcher) (least : Nat) (most : Option Nat) (turns count : Nat)
    (last : Option Nat) (s : Progress) : Option Progress :=
  match turns with
  | 0 => some s
  | turns + 1 =>
    if count < least then
      match body s some with
      | some s' => settledTurns body least most turns (count + 1) last s'
      | none => none
    else if below count most && last != some s.offset then
      match body s some with
      | some s' => settledTurns body least most turns (count + 1) (some s.offset) s'
      | none => some s
    else some s

/-- How many turns a repetition can take at an offset: the least number, and after that one for
each character that is left and one that takes none. -/
def turnsFrom (g : Setting) (least : Nat) (s : Progress) : Nat :=
  least + (g.text.size - s.offset) + 2

/-- A repetition of a term. -/
def turnsOf (g : Setting) (eagerness : Eagerness) (least : Nat) (most : Option Nat)
    (body : Matcher) : Matcher := fun s k =>
  match eagerness with
  | .greedy => greedyTurns body least most (turnsFrom g least s) 0 none s k
  | .lazy => lazyTurns body least most (turnsFrom g least s) 0 none s k
  | .possessive => (settledTurns body least most (turnsFrom g least s) 0 none s).bind k

/-- What follows, tried behind `least + extra` characters, then behind one fewer, down to
`least`. -/
def givingBack (s : Progress) (k : Progress → Option Progress) (least extra : Nat) :
    Option Progress :=
  match k { s with offset := s.offset + (least + extra) } with
  | some r => some r
  | none =>
    match extra with
    | extra + 1 => givingBack s k least extra
    | 0 => none

/-- What follows, tried behind `taken` characters, then behind one more, `extra` times. -/
def takingMore (s : Progress) (k : Progress → Option Progress) (taken extra : Nat) :
    Option Progress :=
  match k { s with offset := s.offset + taken } with
  | some r => some r
  | none =>
    match extra with
    | extra + 1 => takingMore s k (taken + 1) extra
    | 0 => none

/-- **A repetition of a one-character term.** -/
def charTurns (g : Setting) (eagerness : Eagerness) (least : Nat) (most : Option Nat)
    (test : Char → Bool) : Matcher := fun s k =>
  let left := g.text.size - s.offset
  let run := g.runLength test (match most with
    | some n => min n left
    | none => left) s.offset
  if run < least then none
  else
    match eagerness with
    | .greedy => givingBack s k least (run - least)
    | .lazy => takingMore s k least (run - least)
    | .possessive => k { s with offset := s.offset + run }

/-! ## Terms -/

mutual
/-- **The ways a term can match at a place**, the preferred one first. -/
def run (g : Setting) (flags : Flags) : Term → Matcher
  | .code n negated => g.one fun c => isCode flags n c != negated
  | .any => g.one fun c => flags.contains .dotAll || c != '\n'
  | .oneOf negated ms => g.one fun c => (ms.any fun m => m.holds flags c) != negated
  | .anchor place => fun s k => if g.holds flags s.offset place then k s else none
  | .sequence ts => runAll g flags ts
  | .choice ts => runAny g flags ts
  | .group (some index) added removed body => fun s k =>
    run g (flags.within added removed) body (s.opened index) fun s' => k (s'.closed index)
  | .group none added removed body => run g (flags.within added removed) body
  | .atomic body => fun s k => (run g flags body s some).bind k
  | .look behind negated body => fun s k =>
    let back := if behind then (width g.widths body).least else 0
    if s.offset < back then if negated then k s else none
    else
      match run g flags body { s with offset := s.offset - back } some with
      | some r => if negated then none else k { r with offset := s.offset }
      | none => if negated then k s else none
  | .backReference index => fun s k =>
    match (s.capture index).span? with
    | some (a, b) =>
      if g.repeats flags a b s.offset then k { s with offset := s.offset + (b - a) } else none
    | none => none
  | .conditional index present absent => fun s k =>
    if (s.capture index).span?.isSome then run g flags present s k else run g flags absent s k
  | .repeated eagerness least most body =>
    match charTest? flags body with
    | some test => charTurns g eagerness least most test
    | none => turnsOf g eagerness least most (run g flags body)

/-- Terms in a row. -/
def runAll (g : Setting) (flags : Flags) : List Term → Matcher
  | [] => fun s k => k s
  | t :: ts => fun s k => run g flags t s fun s' => runAll g flags ts s' k

/-- The first of several terms that works. -/
def runAny (g : Setting) (flags : Flags) : List Term → Matcher
  | [] => fun _ _ => none
  | t :: ts => fun s k =>
    match run g flags t s k with
    | some r => some r
    | none => runAny g flags ts s k
end

namespace Expression

/-- The setting of an expression in a text. -/
def setting (e : Expression) (text : Array Char) : Setting := ⟨text, e.widthOf⟩

/-- **The expression at an offset**: where its match ends and what its groups captured. -/
def matchAt (e : Expression) (text : Array Char) (offset : Nat) : Option Progress :=
  run (e.setting text) e.flags e.term
    ⟨offset, Array.replicate (e.groups + 1) ⟨none, none⟩⟩ some

/-- The first of `turns` offsets where the expression matches, and its match. -/
def searchFrom (e : Expression) (text : Array Char) (turns offset : Nat) :
    Option (Nat × Progress) :=
  match turns with
  | 0 => none
  | turns + 1 =>
    match e.matchAt text offset with
    | some r => some (offset, r)
    | none => e.searchFrom text turns (offset + 1)

/-- **The first match that starts at an offset or behind it.** -/
def search (e : Expression) (text : Array Char) (offset : Nat) : Option (Nat × Progress) :=
  e.searchFrom text (text.size + 1 - offset) offset

end Expression

/-! ## Token rules -/

/-- **The rule of an expression.** -/
def tokenRule (kind : String) (e : Expression) : TokenRule :=
  ⟨kind, fun before rest =>
    match e.matchAt (before.reverse ++ rest).toArray before.length with
    | some r => r.offset - before.length
    | none => 0⟩

/-- The rules of kinds and expressions, in order. -/
def tokenRules [Interpreter] (patterns : List (String × String)) : Except Fault (List TokenRule) :=
  patterns.mapM fun (kind, pattern) => (Expression.ofText pattern []).map (tokenRule kind)

end SlotEdit.Regex
