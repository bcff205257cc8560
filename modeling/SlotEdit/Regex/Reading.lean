import SlotEdit.Regex.Escape
import SlotEdit.Regex.InlineFlags

/-!
# Regex/Reading — regular expressions from their text

From loosest to tightest: branches between bars, sequences, counts, single items.  The readers take
the readers of what is nested as an argument; `readersTo` ties the knot for a nesting depth, and
`ofText?` reads a whole expression.
-/

namespace SlotEdit.Regex

variable [Interpreter]

/-- The readers of what a group may hold, given whether blanks and comments are passed over:
branches, or one sequence. -/
structure Readers where
  branches : Bool → Reader Term
  sequence : Bool → Reader Term

/-! ## Character sets -/

/-- One end of a range, or a class of characters. -/
def member (glyph : Glyph) : Reader Member :=
  match glyph with
  | .escaped c => memberEscape c
  | .plain c => pure (.code c.toNat)
  | .loneBackslash => pure (.code 92)

/-- A range between two codes in order. -/
def memberRange (first last : Glyph) (low high : Member) : Reader Member := do
  let reversed := refuse (.badRange first.text last.text) (first.length + 1 + last.length)
  match low, high with
  | .code a, .code b => if b < a then reversed else pure (.span a b)
  | _, _ => reversed

/-- The members of a set up to and over its closing bracket, which is a member where no other is.
Each turn reads a member or a range. -/
def members (here : Nat) (turns : Nat) (soFar : List Member) : Reader (List Member) := do
  match turns with
  | 0 => refuseAt .unterminatedSet here
  | turns + 1 =>
    match ← take with
    | none => refuseAt .unterminatedSet here
    | some glyph =>
      if glyph == .plain ']' && !soFar.isEmpty then pure soFar
      else
        let low ← member glyph
        if ← accept '-' then
          match ← take with
          | none => refuseAt .unterminatedSet here
          | some (.plain ']') => pure (soFar ++ [low, .code '-'.toNat])
          | some last =>
            let high ← member last
            members here turns (soFar ++ [← memberRange glyph last low high])
        else members here turns (soFar ++ [low])

/-- A character set after its opening bracket. -/
def characterSet (here : Nat) : Reader Term := do
  let negated ← accept '^'
  let ms ← members here ((← get).pieces.length + 1) []
  pure (Term.ofMembers negated ms)

/-! ## Counts -/

/-- The counts that repeat without bound. -/
def countLimit : Nat := 4294967295

/-- A count of turns. -/
def count (digits : List Char) : Reader Nat :=
  match readInt (String.ofList digits) with
  | .ok n => if n.toNat ≥ countLimit then throw .countTooLarge else pure n.toNat
  | .error fault => throw (.unreadableCount fault)

/-- The digits of the larger count: those behind a comma, or those of the smaller one. -/
def digitsOfMost (digitsOfLeast : List Char) (turns : Nat) : Reader (List Char) := do
  if ← accept ',' then takeWhile isAsciiDigit turns else pure digitsOfLeast

/-- The counts that two runs of digits write: none at all stand for zero and for no bound. -/
def countsOf (here : Nat) (low high : List Char) : Reader (Nat × Option Nat) := do
  let least ← if low.isEmpty then pure 0 else count low
  if high.isEmpty then pure (least, none)
  else
    let most ← count high
    if most < least then refuseAt .leastAboveMost here else pure (least, some most)

/-- Counts in braces, after the opening one; none when what follows are no counts. -/
def bracedCounts : Reader (Option (Nat × Option Nat)) := do
  let before ← get
  let here ← tell
  if ← isNext '\x7d' then pure none
  else
    let low ← takeWhile isAsciiDigit before.pieces.length
    let high ← digitsOfMost low before.pieces.length
    if ← accept '\x7d' then some <$> countsOf here low high
    else
      set before
      pure none

/-- The counts a piece stands for, once it is taken. -/
def counts? (c : Char) : Reader (Option (Nat × Option Nat)) := do
  match c with
  | '?' => pure (some (0, some 1))
  | '*' => pure (some (0, none))
  | '+' => pure (some (1, none))
  | '\x7b' => bracedCounts
  | _ => pure none

/-- The mark behind counts for how eager they are; without one they are greedy. -/
def eagernessMark : Reader Eagerness := do
  if ← accept '?' then pure .lazy
  else if ← accept '+' then pure .possessive
  else pure .greedy

/-- An item repeated, with the mark for its eagerness if there is one.  `here` is the offset of the
counts. -/
def repetition (here : Nat) (item : Option Term) (least : Nat) (most : Option Nat) :
    Reader Term := do
  match item with
  | none => refuseAt .nothingToRepeat here
  | some (.anchor _) => refuseAt .nothingToRepeat here
  | some (.repeated ..) => refuseAt .multipleRepeat here
  | some body =>
    pure (.repeated (← eagernessMark) least most (.sequence (Term.dissolved [body])))

/-! ## Groups -/

/-- The closing parenthesis of a group that opened at an offset. -/
def closing (start : Nat) : Reader Unit := do
  if ← accept ')' then pure () else refuseAt .unterminatedGroup start

/-- A comment up to and over its closing parenthesis. -/
def comment (start : Nat) (turns : Nat) : Reader Unit := do
  match turns with
  | 0 => refuseAt .unterminatedComment start
  | turns + 1 =>
    match ← peek with
    | none => refuseAt .unterminatedComment start
    | some glyph =>
      let _ ← take
      if glyph == .plain ')' then pure () else comment start turns

/-- A look ahead or behind. -/
def lookAround (inner : Readers) (verbose : Bool) (start : Nat) (behind negated : Bool) :
    Reader Term := do
  let outer := (← get).lookBehindGroups
  if behind && outer.isNone then
    modify fun s => { s with lookBehindGroups := some s.widths.size }
  let body ← inner.branches verbose
  if behind && outer.isNone then
    modify fun s => { s with lookBehindGroups := none }
  closing start
  pure (.look behind negated body)

/-- The group of a name that a reference uses. -/
def namedGroup (n : String) : Reader Nat := do
  match (← get).names.lookup n with
  | some index => pure index
  | none => refuse (.unknownGroupName n) (n.length + 1)

/-- A reference by name, after `(?P=`. -/
def namedReference : Reader Term := do
  let n ← name ')' "group name"
  checkName n
  let index ← namedGroup n
  if ← isClosed index then
    checkLookBehind index
    pure (.backReference index)
  else refuse .openGroup (n.length + 1)

/-- The largest group number that can be referred to. -/
def groupLimit : Nat := 2147483647

/-- The group of a number that a condition uses; that there is one is checked at the end. -/
def numberedGroup (n : String) : Reader Nat := do
  match readInt n with
  | .ok number =>
    if number < 0 then refuse (.badGroupName n) (n.length + 1)
    else if number = 0 then refuse .badGroupNumber (n.length + 1)
    else
      let index := number.toNat
      if index ≥ groupLimit then refuse (.invalidReference index) (n.length + 1)
      else
        let place := (← tell) - n.length - 1
        modify fun s =>
          if (s.references.lookup index).isSome then s
          else { s with references := s.references ++ [(index, place)] }
        pure index
  | .error _ => refuse (.badGroupName n) (n.length + 1)

/-- The group of a condition, by its name or its number. -/
def conditionGroup (n : String) : Reader Nat :=
  if isIdentifier n.toList then namedGroup n else numberedGroup n

/-- What a condition chooses when its group is absent: nothing, or what stands behind a bar. -/
def absentBranch (inner : Readers) (verbose : Bool) : Reader Term := do
  if ← accept '|' then
    let absent ← inner.sequence verbose
    if ← isNext '|' then refuse .tooManyBranches 0 else pure absent
  else pure (.sequence [])

/-- A condition on a group and what it chooses between, after `(?(`. -/
def conditionalGroup (inner : Readers) (verbose : Bool) (start : Nat) : Reader Term := do
  let n ← name ')' "group name"
  let index ← conditionGroup n
  checkLookBehind index
  let present ← inner.sequence verbose
  let absent ← absentBranch inner verbose
  closing start
  pure (.conditional index present absent)

/-- A group whose number, if it captures, and switches are known. -/
def groupBody (inner : Readers) (verbose : Bool) (start : Nat) (index : Option Nat)
    (added removed : Flags) : Reader Term := do
  let inside := (verbose || added.contains .verbose) && !removed.contains .verbose
  let body ← inner.branches inside
  closing start
  match index with
  | some i => closeGroup i body
  | none => pure ()
  pure (.group index added removed body)

/-- A group that captures. -/
def capturing (inner : Readers) (verbose : Bool) (start : Nat) (name : Option String) :
    Reader Term := do
  let index ← openGroup name
  groupBody inner verbose start (some index) [] []

/-- What a parenthesis with a question mark can be: an item, nothing, or switches for the whole
expression. -/
inductive GroupResult
  | item (t : Term)
  | nothing
  | switches

/-- A group with `P` after its question mark: a named group or a reference by name. -/
def namedForm (inner : Readers) (verbose : Bool) (start : Nat) : Reader GroupResult := do
  if ← accept '<' then
    let n ← name '>' "group name"
    checkName n
    .item <$> capturing inner verbose start (some n)
  else if ← accept '=' then .item <$> namedReference
  else
    match ← take with
    | none => refuse .unexpectedEnd 0
    | some glyph => refuse (.unknownExtension ("P" ++ glyph.text)) (glyph.length + 2)

/-- A look-behind, after `(?<`. -/
def lookBehindForm (inner : Readers) (verbose : Bool) (start : Nat) : Reader GroupResult := do
  match ← take with
  | none => refuse .unexpectedEnd 0
  | some (.plain '=') => .item <$> lookAround inner verbose start true false
  | some (.plain '!') => .item <$> lookAround inner verbose start true true
  | some glyph => refuse (.unknownExtension ("<" ++ glyph.text)) (glyph.length + 2)

/-- A group with a question mark. -/
def extension (inner : Readers) (verbose : Bool) (start : Nat) : Reader GroupResult := do
  match ← take with
  | none => refuse .unexpectedEnd 0
  | some (.plain 'P') => namedForm inner verbose start
  | some (.plain ':') => .item <$> groupBody inner verbose start none [] []
  | some (.plain '#') =>
    comment start ((← get).pieces.length + 1)
    pure .nothing
  | some (.plain '=') => .item <$> lookAround inner verbose start false false
  | some (.plain '!') => .item <$> lookAround inner verbose start false true
  | some (.plain '<') => lookBehindForm inner verbose start
  | some (.plain '(') => .item <$> conditionalGroup inner verbose start
  | some (.plain '>') => do
    let body ← inner.branches verbose
    closing start
    pure (.item (.atomic body))
  | some glyph =>
    match glyph with
    | .plain c =>
      if isFlagLetter c || c == '-' then
        match ← inlineFlags c with
        | .everywhere => pure .switches
        | .inGroup added removed =>
          .item <$> groupBody inner verbose start none added removed
      else refuse (.unknownExtension glyph.text) (glyph.length + 1)
    | _ => refuse (.unknownExtension glyph.text) (glyph.length + 1)

/-- What an opening parenthesis starts. -/
def opening (inner : Readers) (verbose : Bool) (start : Nat) : Reader GroupResult := do
  if ← accept '?' then extension inner verbose start
  else .item <$> capturing inner verbose start none

/-! ## Sequences -/

/-- The blanks that the verbose form passes over. -/
def isVerboseBlank (c : Char) : Bool := isAsciiBlank c

/-- The rest of a line is passed over. -/
def skipLine (turns : Nat) : Reader Unit := do
  match turns with
  | 0 => pure ()
  | turns + 1 =>
    match ← take with
    | none => pure ()
    | some glyph => if glyph == .plain '\n' then pure () else skipLine turns

/-- The items so far, the last one first, behind a piece that is taken: what it stands for is added
to them.  With them goes whether blanks and comments are passed over from here on; `outermost` allows
switches for the whole expression. -/
def itemsBehind (inner : Readers) (outermost verbose : Bool) (here : Nat) (soFar : List Term)
    (glyph : Glyph) : Reader (Bool × List Term) := do
  match glyph with
  | .escaped c => pure (verbose, (← expressionEscape c) :: soFar)
  | .loneBackslash => pure (verbose, soFar)
  | .plain c =>
    if verbose && isVerboseBlank c then pure (verbose, soFar)
    else if verbose && c == '#' then
      skipLine ((← get).pieces.length + 1)
      pure (verbose, soFar)
    else if c = '[' then pure (verbose, (← characterSet here) :: soFar)
    else if c = '(' then
      match ← opening inner verbose here with
      | .item t => pure (verbose, t :: soFar)
      | .nothing => pure (verbose, soFar)
      | .switches =>
        if !outermost || !soFar.isEmpty then refuseAt .lateGlobalFlags here
        else pure ((← get).flags.contains .verbose, soFar)
    else if c = '.' then pure (verbose, .any :: soFar)
    else if c = '^' then pure (verbose, .anchor .lineStart :: soFar)
    else if c = '$' then pure (verbose, .anchor .lineEnd :: soFar)
    else
      match ← counts? c with
      | some (least, most) =>
        pure (verbose, (← repetition here soFar.head? least most) :: soFar.drop 1)
      | none => pure (verbose, .code c.toNat false :: soFar)

/-- The items of a sequence, the last one first, up to a bar, a closing parenthesis or the end.
Each turn reads a piece or a group. -/
def items (inner : Readers) (outermost : Bool) (turns : Nat) (verbose : Bool)
    (soFar : List Term) : Reader (List Term) := do
  match turns with
  | 0 => pure soFar
  | turns + 1 =>
    match ← peek with
    | none => pure soFar
    | some glyph =>
      if glyph == .plain '|' || glyph == .plain ')' then pure soFar
      else
        let here ← tell
        let _ ← take
        let (verbose, soFar) ← itemsBehind inner outermost verbose here soFar glyph
        items inner outermost turns verbose soFar

/-- A sequence. -/
def sequence (inner : Readers) (outermost verbose : Bool) : Reader Term := do
  let backwards ← items inner outermost ((← get).pieces.length + 1) verbose []
  pure (.sequence (Term.dissolved backwards.reverse))

/-- Sequences between bars, each turn reading one.  At the outermost level, switches for the whole
expression take effect with the next branch. -/
def branches (inner : Readers) (outermost : Bool) (turns : Nat) (verbose first : Bool) :
    Reader (List Term) := do
  let t ← sequence inner (outermost && first) verbose
  if ← accept '|' then
    match turns with
    | 0 => pure [t]
    | turns + 1 =>
      let atTop := (← get).flags.contains .verbose
      let more ← branches inner outermost turns (if outermost then atTop else verbose) false
      pure (t :: more)
  else pure [t]

/-- A choice between sequences. -/
def choice (inner : Readers) (outermost verbose : Bool) : Reader Term := do
  let turns := (← get).pieces.length
  let ts ← branches inner outermost turns verbose true
  pure (.ofBranches ts)

/-- The readers of what is nested at most `depth` deep. -/
def readersTo (depth : Nat) : Readers :=
  match depth with
  | 0 => ⟨fun _ => throw .tooDeep, fun _ => throw .tooDeep⟩
  | depth + 1 =>
    ⟨fun verbose => choice (readersTo depth) false verbose,
     fun verbose => sequence (readersTo depth) false verbose⟩

/-- How deep groups may nest. -/
def nestingLimit : Nat := Interpreter.regexLevels

/-! ## Whole expressions -/

/-- A whole expression: its term, and what was said on the way. -/
structure Expression where
  term : Term
  flags : Flags
  names : List (String × Nat)
  groups : Nat
  widths : Array (Option Width)
deriving Repr

/-- The width of a closed group. -/
def Expression.widthOf (e : Expression) (index : Nat) : Width :=
  (e.widths.getD index none).getD ⟨0, 0⟩

/-- The expression of a term, once nothing is left to read and all groups it refers to are known. -/
def expressionOf (term : Term) : Reader Expression := do
  let s ← get
  if s.flags.contains .ascii && s.flags.contains .unicode then throw .incompatibleFlags
  else if (← peek).isSome then refuse .unbalancedParenthesis 0
  else
    match s.references.find? fun r => r.1 ≥ s.widths.size with
    | some (index, place) => refuseAt (.invalidReference index) place
    | none =>
      pure ⟨term, if s.flags.contains .ascii then s.flags else s.flags ++ [.unicode], s.names,
        s.widths.size - 1, s.widths⟩

/-- A whole expression, up to the end of its text. -/
def wholeExpression : Reader Expression := do
  checkNext
  expressionOf (← choice (readersTo nestingLimit) true ((← get).flags.contains .verbose))

/-! ## Terms that cannot be matched -/

/-- The name of a kind of repetition in the refusal of a template. -/
def Eagerness.operator : Eagerness → String
  | .greedy => "MAX_REPEAT"
  | .lazy => "MIN_REPEAT"
  | .possessive => "POSSESSIVE_REPEAT"

/-- The largest width of a look-behind. -/
def lookBehindLimit : Nat := 4294967295

mutual
/-- What makes a term impossible to match: a look-behind without a fixed width, or a repetition in
a template. -/
def obstacle? (groups : Nat → Width) (template : Bool) : Term → Option Cause
  | .sequence ts => obstacleOfAny? groups template ts
  | .choice ts => obstacleOfAny? groups template ts
  | .group _ _ _ body => obstacle? groups template body
  | .atomic body => obstacle? groups template body
  | .look behind _ body =>
    let w := (width groups body).capped
    if behind && w.least > lookBehindLimit then some .lookBehindTooFar
    else if behind && w.least ≠ w.most then some .lookBehindWidth
    else obstacle? groups template body
  | .conditional _ present absent =>
    (obstacle? groups template present).or (obstacle? groups template absent)
  | .repeated eagerness _ _ body =>
    if template then some (.templateRepeat eagerness.operator)
    else obstacle? groups template body
  | _ => none

/-- What makes the first of several terms impossible to match. -/
def obstacleOfAny? (groups : Nat → Width) (template : Bool) : List Term → Option Cause
  | [] => none
  | t :: ts => (obstacle? groups template t).or (obstacleOfAny? groups template ts)
end

/-- **A regular expression from its text.** -/
def Expression.ofText (text : String) (flags : Flags) : Except Fault Expression := do
  let (e, _) ← wholeExpression.run (Reading.start text.toList flags)
  match obstacle? e.widthOf (e.flags.contains .template) e.term with
  | some cause => throw (.malformed cause none)
  | none => pure e

end SlotEdit.Regex
