import SlotEdit.Json.Decode

/-!
# Json/Encode — values as JSON texts

`encode` writes a value as JSON: `", "` between items, `": "` after keys, only quotes, backslashes
and control characters escaped.  Keys that are no texts are written as texts; bytes and imaginary
numbers have no written form, and neither has a value that nests deeper than one is read.
-/

namespace SlotEdit.Json

/-- Why a value cannot be written. -/
inductive EncodeFault
  | notSerializable
  | number (fault : NumberFault)
  | tooDeep
deriving DecidableEq, Repr

/-- One character inside a JSON string. -/
def escapeChar : Char → List Char
  | '"' => ['\\', '"']
  | '\\' => ['\\', '\\']
  | '\n' => ['\\', 'n']
  | '\r' => ['\\', 'r']
  | '\t' => ['\\', 't']
  | '\x0c' => ['\\', 'f']
  | '\x08' => ['\\', 'b']
  | c => if c.toNat < 32 then '\\' :: 'u' :: hexPadded 4 c.toNat else [c]

/-- A text as a JSON string, quotes included. -/
def encodeString (s : String) : String :=
  String.ofList ('"' :: s.toList.flatMap escapeChar ++ ['"'])

/-- One letter inside a JSON string; half of a surrogate pair stays as it is. -/
def escapeLetter : Letter → List Letter
  | .char c => (escapeChar c).map .char
  | .half code => [.half code]

/-- A text in which halves may stand as a JSON string, quotes included. -/
def encodeText (t : LooseText) : LooseText :=
  ⟨.char '"' :: t.letters.flatMap escapeLetter ++ [.char '"']⟩

/-- A floating-point number; the ones without digits are written as words. -/
def encodeFloat : Binary64 → String
  | .nan => "NaN"
  | .infinite negative => if negative then "-Infinity" else "Infinity"
  | x => x.render

/-- The decimal text of an integer, refused past the digit limit. -/
def encodeInt (n : Int) : Except EncodeFault String :=
  match renderInt? n with
  | some s => .ok s
  | none => .error (.number .tooLongToWrite)

/-- A key as the text it is written as. -/
def keyText : Value → Except EncodeFault LooseText
  | .str s => .ok s
  | .loose t => .ok t
  | .null => .ok "null"
  | .bool b => .ok (if b then "true" else "false" : String)
  | .int n => (encodeInt n).map LooseText.ofString
  | .float x => .ok (encodeFloat x)
  | _ => .error .notSerializable

mutual
/-- **A value as JSON**, with lists and mappings nested at most `levels` deep. -/
def encodeWithin (levels : Nat) : Value → Except EncodeFault LooseText
  | .null => .ok "null"
  | .bool b => .ok (if b then "true" else "false" : String)
  | .int n => (encodeInt n).map LooseText.ofString
  | .float x => .ok (encodeFloat x)
  | .str s => .ok (encodeString s)
  | .loose t => .ok (encodeText t)
  | .list xs =>
    match levels with
    | 0 => .error .tooDeep
    | levels + 1 => do
      let parts ← encodeItems levels xs
      pure ("[" ++ LooseText.joined ", " parts ++ "]")
  | .dict es =>
    match levels with
    | 0 => .error .tooDeep
    | levels + 1 => do
      let parts ← encodeEntries levels es
      pure ("\x7b" ++ LooseText.joined ", " parts ++ "\x7d")
  | .imaginary _ => .error .notSerializable
  | .bytes _ => .error .notSerializable
  | .moment _ => .error .notSerializable

/-- Each item of a list as JSON. -/
def encodeItems (levels : Nat) : List Value → Except EncodeFault (List LooseText)
  | [] => .ok []
  | x :: xs => do
    let head ← encodeWithin levels x
    let tail ← encodeItems levels xs
    pure (head :: tail)

/-- Each entry of a mapping as JSON. -/
def encodeEntries (levels : Nat) : List (Value × Value) → Except EncodeFault (List LooseText)
  | [] => .ok []
  | (k, v) :: rest => do
    let key ← keyText k
    let value ← encodeWithin levels v
    let tail ← encodeEntries levels rest
    pure ((encodeText key ++ ": " ++ value) :: tail)
end

/-- **A value as JSON.** -/
def encode [Interpreter] (v : Value) : Except EncodeFault LooseText := encodeWithin nestingLimit v

end SlotEdit.Json
