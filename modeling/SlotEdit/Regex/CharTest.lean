import SlotEdit.Regex.Term
import SlotEdit.Text.CharClass

/-!
# Regex/CharTest — the terms that take one character

Whether a character is the one a term names, or of its set, under the switches in force.  With
`ignoreCase` both sides are folded to lower case, and letters that share an upper case are the
same.
-/

namespace SlotEdit.Regex

/-- The character of a code, if it is one. -/
def charOf? (n : Nat) : Option Char := if h : n.isValidChar then some (Char.ofNatAux n h) else none

/-- The lower case of a character, of ASCII letters only where the Unicode classes are off. -/
def fold (flags : Flags) (c : Char) : Char :=
  if flags.contains .unicode then lowerChar c else asciiLowerChar c

/-- The other characters that count as the same as a folded one. -/
def variants (flags : Flags) (c : Char) : List Char :=
  if flags.contains .unicode then caseVariants c else []

/-- The codes that fold to a character. -/
def unfolded (flags : Flags) (c : Char) : List Nat :=
  if flags.contains .unicode then lowerSources c.toNat
  else if 'a' ≤ c ∧ c ≤ 'z' then [c.toNat, c.toNat - 32]
  else if 'A' ≤ c ∧ c ≤ 'Z' then []
  else [c.toNat]

/-- A folded character is the same as another character once that is folded. -/
def sameFolded (flags : Flags) (folded other : Char) : Bool :=
  let y := fold flags other
  folded == y || (variants flags y).contains folded

/-- A character is a word character under the switches. -/
def isWordChar (flags : Flags) (c : Char) : Bool :=
  if flags.contains .unicode then isWord c else isAsciiWord c

/-- A character is of a class under the switches. -/
def Category.holds (flags : Flags) (kind : Category) (c : Char) : Bool :=
  match kind with
  | .digit => if flags.contains .unicode then isDecimalDigit c else isAsciiDigit c
  | .blank => if flags.contains .unicode then isBlank c else isAsciiBlank c
  | .word => isWordChar flags c

/-- The codes below this one are compared by their folded forms in a set; those above are only
compared as they are. -/
def foldingLimit : Nat := 0x10000

/-- A folded character is of a range: because it is the same as one of the range below the folding
limit, or because the range reaches past the limit and holds it or its upper case. -/
def inFoldedSpan (flags : Flags) (first last : Nat) (folded : Char) : Bool :=
  let same := folded :: variants flags folded
  (same.any fun y => (unfolded flags y).any fun i => first ≤ i && i ≤ last && i < foldingLimit)
    || (foldingLimit ≤ last
        && ((first ≤ folded.toNat && folded.toNat ≤ last)
          || (first ≤ (upperChar folded).toNat && (upperChar folded).toNat ≤ last)))

/-- A character is the one a member of a set names, or of its class. -/
def Member.holds (flags : Flags) (m : Member) (c : Char) : Bool :=
  if flags.contains .ignoreCase then
    let folded := fold flags c
    match m with
    | .code n =>
      if n < foldingLimit then (charOf? n).any (sameFolded flags folded) else folded.toNat == n
    | .span first last => inFoldedSpan flags first last folded
    | .category kind negated => kind.holds flags folded != negated
  else
    match m with
    | .code n => c.toNat == n
    | .span first last => first ≤ c.toNat && c.toNat ≤ last
    | .category kind negated => kind.holds flags c != negated

/-- A character is the one a code names. -/
def isCode (flags : Flags) (n : Nat) (c : Char) : Bool :=
  if flags.contains .ignoreCase then (charOf? n).any (sameFolded flags (fold flags c))
  else c.toNat == n

/-- Two characters are the same under the switches. -/
def sameChar (flags : Flags) (c d : Char) : Bool :=
  if flags.contains .ignoreCase then fold flags c == fold flags d else c == d

/-- **The test a one-character term makes**; other terms have none. -/
def charTest? (flags : Flags) : Term → Option (Char → Bool)
  | .code n negated => some fun c => isCode flags n c != negated
  | .any => some fun c => flags.contains .dotAll || c != '\n'
  | .oneOf negated ms => some fun c => (ms.any fun m => m.holds flags c) != negated
  | .sequence [t] =>
    match t with
    | .code n negated => some fun c => isCode flags n c != negated
    | .any => some fun c => flags.contains .dotAll || c != '\n'
    | .oneOf negated ms => some fun c => (ms.any fun m => m.holds flags c) != negated
    | _ => none
  | _ => none

end SlotEdit.Regex
