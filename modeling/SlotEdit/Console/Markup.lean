/-!
# Console/Markup — texts among styles

A console reads `[style]` in what it prints as a style.  `escapeMarkup` puts a backslash in front of
whatever would be read so, and `excerpt` makes one short line of a text first.
-/

namespace SlotEdit

/-- A character a style starts with. -/
def startsStyle (c : Char) : Bool := ('a' ≤ c && c ≤ 'z') || c == '#' || c == '/' || c == '@'

/-- How many characters behind an opening bracket belong to a style: up to and over the next
bracket, if that closes it. -/
def styleLength? (s : List Char) : Option Nat :=
  match s with
  | [] => none
  | c :: rest =>
    let inside := rest.takeWhile fun d => d != '[' && d != ']'
    if startsStyle c && (rest.drop inside.length).head? == some ']' then some (inside.length + 2)
    else none

/-- The rest of a text behind some backslashes, escaped: those in front of a style are doubled, and
the style gets one more. -/
def escapeBehind (backslashes : Nat) (s : List Char) : List Char :=
  match s with
  | [] => List.replicate backslashes '\\'
  | c :: rest =>
    if c = '\\' then escapeBehind (backslashes + 1) rest
    else
      match if c = '[' then styleLength? rest else none with
      | some n =>
        List.replicate (2 * backslashes + 1) '\\' ++ c :: rest.take n
          ++ escapeBehind 0 (rest.drop n)
      | none => List.replicate backslashes '\\' ++ c :: escapeBehind 0 rest
termination_by s.length
decreasing_by all_goals simp only [List.length_cons, List.length_drop]; omega

/-- A text that ends in one backslash alone gets a second one. -/
def closeBackslash (s : List Char) : List Char :=
  match s.reverse with
  | '\\' :: '\\' :: _ => s
  | '\\' :: _ => s ++ ['\\']
  | _ => s

/-- **A text that a console prints as it is.** -/
def escapeMarkup (text : String) : String :=
  String.ofList (closeBackslash (escapeBehind 0 text.toList))

/-- How long an excerpt is at most. -/
def excerptLength : Nat := 40

/-- A text on one line, cut with three points if it is too long. -/
def shortened (text : String) : String :=
  let cs := text.toList.flatMap fun c => if c = '\n' then ['\\', 'n'] else [c]
  String.ofList (if cs.length > excerptLength then cs.take (excerptLength - 3) ++ ['.', '.', '.']
    else cs)

/-- A short form of a text that a console prints as it is. -/
def excerpt (text : String) : String := escapeMarkup (shortened text)

end SlotEdit
