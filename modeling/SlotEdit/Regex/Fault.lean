import SlotEdit.Text.Quoted
import SlotEdit.Decimal.Reading

/-!
# Regex/Fault — why a text is no regular expression

A `Cause` names what is wrong and a `Fault` adds the place, or reports one of the refusals that are
about a limit and not about the syntax.
-/

namespace SlotEdit.Regex

/-- What is wrong with an expression. -/
inductive Cause
  | loneBackslash
  | incompleteEscape (text : String)
  | badEscape (text : String)
  | octalTooLarge (text : String)
  | missingBrace
  | unknownCharacterName (name : String)
  | missingName (what : String)
  | unterminatedName (terminator : Char)
  | badGroupName (name : String)
  | unknownGroupName (name : String)
  | redefinedGroup (name : String) (index earlier : Nat)
  | badGroupNumber
  | invalidReference (index : Nat)
  | openGroup
  | groupOfSameLookBehind
  | unterminatedSet
  | badRange (first last : String)
  | nothingToRepeat
  | multipleRepeat
  | leastAboveMost
  | unexpectedEnd
  | unknownExtension (text : String)
  | unterminatedGroup
  | unterminatedComment
  | tooManyBranches
  | unbalancedParenthesis
  | lateGlobalFlags
  | localeFlag
  | incompatibleInlineFlags
  | unknownFlag
  | missingFlagEnd
  | missingFlag
  | missingColon
  | globalFlagOn
  | globalFlagOff
  | charsetFlagOff
  | flagOnAndOff
  | lookBehindWidth
  | lookBehindTooFar
  | templateRepeat (operator : String)
deriving DecidableEq, Repr

/-- The wording of what is wrong. -/
def Cause.message : Cause → String
  | .loneBackslash => "bad escape (end of pattern)"
  | .incompleteEscape text => "incomplete escape " ++ text
  | .badEscape text => "bad escape " ++ text
  | .octalTooLarge text => "octal escape value " ++ text ++ " outside of range 0-0o377"
  | .missingBrace => "missing \x7b"
  | .unknownCharacterName name => "undefined character name " ++ quoted name
  | .missingName what => "missing " ++ what
  | .unterminatedName terminator =>
    "missing " ++ String.singleton terminator ++ ", unterminated name"
  | .badGroupName name => "bad character in group name " ++ quoted name
  | .unknownGroupName name => "unknown group name " ++ quoted name
  | .redefinedGroup name index earlier =>
    "redefinition of group name " ++ quoted name ++ " as group " ++ toString index
      ++ "; was group " ++ toString earlier
  | .badGroupNumber => "bad group number"
  | .invalidReference index => "invalid group reference " ++ toString index
  | .openGroup => "cannot refer to an open group"
  | .groupOfSameLookBehind =>
    "cannot refer to group defined in the same lookbehind subpattern"
  | .unterminatedSet => "unterminated character set"
  | .badRange first last => "bad character range " ++ first ++ "-" ++ last
  | .nothingToRepeat => "nothing to repeat"
  | .multipleRepeat => "multiple repeat"
  | .leastAboveMost => "min repeat greater than max repeat"
  | .unexpectedEnd => "unexpected end of pattern"
  | .unknownExtension text => "unknown extension ?" ++ text
  | .unterminatedGroup => "missing ), unterminated subpattern"
  | .unterminatedComment => "missing ), unterminated comment"
  | .tooManyBranches => "conditional backref with more than two branches"
  | .unbalancedParenthesis => "unbalanced parenthesis"
  | .lateGlobalFlags => "global flags not at the start of the expression"
  | .localeFlag => "bad inline flags: cannot use 'L' flag with a str pattern"
  | .incompatibleInlineFlags =>
    "bad inline flags: flags 'a', 'u' and 'L' are incompatible"
  | .unknownFlag => "unknown flag"
  | .missingFlagEnd => "missing -, : or )"
  | .missingFlag => "missing flag"
  | .missingColon => "missing :"
  | .globalFlagOn => "bad inline flags: cannot turn on global flag"
  | .globalFlagOff => "bad inline flags: cannot turn off global flag"
  | .charsetFlagOff => "bad inline flags: cannot turn off flags 'a', 'u' and 'L'"
  | .flagOnAndOff => "bad inline flags: flag turned on and off"
  | .lookBehindWidth => "look-behind requires fixed-width pattern"
  | .lookBehindTooFar => "looks too much behind"
  | .templateRepeat operator => "internal: unsupported template operator " ++ operator

/-- Why a text is no regular expression: something wrong at a place or in the whole, a count past
what can be repeated, a count too long to read, switches that exclude each other, or groups nested
too deep. -/
inductive Fault
  | malformed (cause : Cause) (offset : Option Nat)
  | countTooLarge
  | unreadableCount (fault : NumberFault)
  | incompatibleFlags
  | tooDeep
deriving DecidableEq, Repr

/-- The wording of a refusal. -/
def Fault.message : Fault → String
  | .malformed cause _ => cause.message
  | .countTooLarge => "the repetition number is too large"
  | .unreadableCount fault => fault.message
  | .incompatibleFlags => "ASCII and UNICODE flags are incompatible"
  | .tooDeep => "maximum recursion depth exceeded"

/-- The row, counted from one, and the column, likewise, of an offset. -/
def rowAndColumn (text : List Char) (offset : Nat) : Nat × Nat :=
  let before := text.take offset
  (before.count '\n' + 1, (before.reverse.takeWhile (· ≠ '\n')).length + 1)

/-- What is wrong, and where in the expression; the row and column are told when there is more than
one row. -/
def Cause.located (cause : Cause) (offset : Option Nat) (expression : String) : String :=
  match offset with
  | none => cause.message
  | some o =>
    let text := expression.toList
    let (row, column) := rowAndColumn text o
    cause.message ++ " at position " ++ toString o
      ++ (if text.contains '\n' then
            " (line " ++ toString row ++ ", column " ++ toString column ++ ")"
          else "")

end SlotEdit.Regex
