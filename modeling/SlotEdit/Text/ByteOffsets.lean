import SlotEdit.Syntax.Span
import SlotEdit.Text.LooseText

/-!
# Text/ByteOffsets — letters counted in bytes

Tools that work on the UTF-8 encoding of a text count bytes.  `ByteOffsets.charOffset` turns such an
offset into one of letters; one inside the encoding of a letter becomes that of the next letter.
Half of a surrogate pair is encoded as a character of its code point would be.  A text whose letters
take one byte each needs no table.
-/

namespace SlotEdit

/-! ## The encoding of a text -/

namespace Letter

/-- The code point of a letter. -/
def codePoint : Letter → Nat
  | .char c => c.toNat
  | .half code => code

/-- A letter that a text can hold: half of a surrogate pair has one of the code points set aside for
halves. -/
def IsProper : Letter → Prop
  | .char _ => True
  | .half code => 0xd800 ≤ code ∧ code < 0xe000

instance : DecidablePred IsProper
  | .char _ => inferInstanceAs (Decidable True)
  | .half code => inferInstanceAs (Decidable (0xd800 ≤ code ∧ code < 0xe000))

/-- **The bytes of a letter.**  Half of a surrogate pair takes three. -/
def encoded : Letter → List UInt8
  | .char c => String.utf8EncodeChar c
  | .half code =>
    [UInt8.ofNat (code / 4096 % 16 + 0xe0), UInt8.ofNat (code / 64 % 64 + 0x80), UInt8.ofNat (code % 64 + 0x80)]

end Letter

/-- The bytes of some letters. -/
def encodeLetters (ls : List Letter) : List UInt8 := ls.flatMap Letter.encoded

/-! ## Where letters start -/

/-- How many bytes encode a code point. -/
def encodedLength (code : Nat) : Nat :=
  if code < 0x80 then 1
  else if code < 0x800 then 2
  else if code < 0x10000 then 3
  else 4

/-- Where each of some letters starts when the first starts at a byte, and where the last
ends. -/
def byteStarts (first : Nat) : List Letter → List Nat
  | [] => [first]
  | l :: rest => first :: byteStarts (first + encodedLength l.codePoint) rest

/-- The first index from `lo` on, but before `hi`, at which a sorted array holds `x` or more; `hi` if
there is none. -/
def lowerBound (a : Array Nat) (x lo hi : Nat) : Nat :=
  if lo < hi then
    let mid := (lo + hi) / 2
    if a.getD mid 0 < x then lowerBound a x (mid + 1) hi else lowerBound a x lo mid
  else lo
termination_by hi - lo

/-- A text, its bytes, and where its letters start in them; no such table when bytes and letters are
as many. -/
structure ByteOffsets where
  text : LooseText
  encoded : List UInt8
  starts : Option (Array Nat)
deriving Repr

namespace ByteOffsets

/-- The byte offsets of a text. -/
def ofText (text : LooseText) : ByteOffsets :=
  let encoded := encodeLetters text.letters
  ⟨text, encoded, if encoded.length = text.letters.length then none else some (byteStarts 0 text.letters).toArray⟩

/-- **The letter a byte offset stands at**, or the next one. -/
def charOffset (t : ByteOffsets) (offset : Nat) : Nat :=
  match t.starts with
  | none => offset
  | some starts => lowerBound starts offset 0 starts.size

/-- The letters that stand on some bytes. -/
def span (t : ByteOffsets) (bytes : Span) : Span := ⟨t.charOffset bytes.start, t.charOffset bytes.stop⟩

/-- **The text that stands on some bytes.** -/
def textOn (t : ByteOffsets) (bytes : Span) : LooseText := ⟨(t.span bytes).of t.text.letters⟩

end ByteOffsets

end SlotEdit
