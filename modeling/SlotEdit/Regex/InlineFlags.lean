import SlotEdit.Regex.Piece

/-!
# Regex/InlineFlags — switches written inside an expression

`inlineFlags` reads what follows `(?` when it is a letter of a switch or a minus: switches for the
whole expression, up to a closing parenthesis, or switches that a group turns on and off, up to its
colon.
-/

namespace SlotEdit.Regex

/-- The switch of a letter; the letter `L` has none here. -/
def flagOf? (c : Char) : Option Flag :=
  match c with
  | 'i' => some .ignoreCase
  | 'm' => some .multiline
  | 's' => some .dotAll
  | 'x' => some .verbose
  | 'a' => some .ascii
  | 'u' => some .unicode
  | 't' => some .template
  | _ => none

/-- A letter of a switch. -/
def isFlagLetter (c : Char) : Bool := c == 'L' || (flagOf? c).isSome

/-- A letter of any script. -/
def isLetter (c : Char) : Bool := isNameStart c && c != '_'

/-- What stands where a letter of a switch should is refused: a letter as an unknown switch,
anything else as what is missing. -/
def refuseFlag {α : Type} (missing : Cause) (found : Option Glyph) : Reader α := do
  match found with
  | none => refuse missing 0
  | some glyph =>
    refuse (if glyph.isPlain isLetter then .unknownFlag else missing) glyph.length

/-- The switches that follow a letter, and the character that ends them. -/
def flagsOn (turns : Nat) (letter : Char) (on : Flags) : Reader (Flags × Char) := do
  match turns, flagOf? letter with
  | turns + 1, some flag =>
    let on := on ++ [flag]
    if flag.isCharset && on.any (fun f => f.isCharset && f != flag) then
      refuse .incompatibleInlineFlags 0
    else
      match ← take with
      | some (.plain c) =>
        if c = ')' ∨ c = '-' ∨ c = ':' then pure (on, c)
        else if isFlagLetter c then flagsOn turns c on
        else refuseFlag .missingFlagEnd (some (.plain c))
      | other => refuseFlag .missingFlagEnd other
  | _, _ => refuse .localeFlag 0

/-- The switches that a letter behind a minus starts, up to and over the colon. -/
def flagsOff (turns : Nat) (letter : Char) (off : Flags) : Reader Flags := do
  match turns, flagOf? letter with
  | turns + 1, some flag =>
    if flag.isCharset then refuse .charsetFlagOff 0
    else
      let off := off ++ [flag]
      match ← take with
      | some (.plain c) =>
        if c = ':' then pure off
        else if isFlagLetter c then flagsOff turns c off
        else refuseFlag .missingColon (some (.plain c))
      | other => refuseFlag .missingColon other
  | _, _ => refuse .charsetFlagOff 0

/-- What the switches written in an expression apply to. -/
inductive InlineFlags
  | everywhere
  | inGroup (added removed : Flags)

/-- The switches turned off behind a minus. -/
def flagsRemoved : Reader Flags := do
  match ← take with
  | some (.plain c) =>
    if isFlagLetter c then flagsOff ((← get).pieces.length + 1) c []
    else refuseFlag .missingFlag (some (.plain c))
  | other => refuseFlag .missingFlag other

/-- What switches apply to that are turned on in front of a character. -/
def inlineFlagsBefore (added : Flags) (stop : Char) : Reader InlineFlags := do
  if stop = ')' then
    modify fun s => { s with flags := s.flags ++ added }
    pure .everywhere
  else if added.any Flag.isGlobal then refuse .globalFlagOn 1
  else
    let removed ← if stop = '-' then flagsRemoved else pure []
    if removed.any Flag.isGlobal then refuse .globalFlagOff 1
    else if added.any removed.contains then refuse .flagOnAndOff 1
    else pure (.inGroup added removed)

/-- **Switches written in an expression**, given the first character after the question mark. -/
def inlineFlags (first : Char) : Reader InlineFlags := do
  if first = '-' then inlineFlagsBefore [] '-'
  else
    let (added, stop) ← flagsOn ((← get).pieces.length + 1) first []
    inlineFlagsBefore added stop

end SlotEdit.Regex
