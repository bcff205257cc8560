import SlotEdit.Text.Quoted

/-!
# Text/LooseText — texts in which half of a surrogate pair may stand alone

An escape can name half of a surrogate pair, which is no character and has no encoding.  A
`LooseText` is a text in which such halves may stand among the characters; it is a `String` just
when there is none (`toString?_eq_some`).
-/

namespace SlotEdit

/-- A character, or half of a surrogate pair that stands alone. -/
inductive Letter
  | char (c : Char)
  | half (code : Nat)
deriving DecidableEq, Repr

namespace Letter

/-- The character of a letter, if it is one. -/
def char? : Letter → Option Char
  | .char c => some c
  | .half _ => none

/-- A letter as it is shown: half of a pair as the replacement character. -/
def shown : Letter → Char
  | .char c => c
  | .half _ => '\ufffd'

/-- A letter in upper case. -/
def upper : Letter → List Letter
  | .char c => (upperChars c).map .char
  | .half code => [.half code]

/-- One letter inside quotes. -/
def quoted (quote : Char) : Letter → List Char
  | .char c => escapeChar quote c
  | .half code => '\\' :: 'u' :: hexPadded 4 code

end Letter

/-- A text in which half of a surrogate pair may stand alone. -/
structure LooseText where
  letters : List Letter
deriving DecidableEq, Repr, Inhabited

namespace LooseText

/-- A text of characters only. -/
def ofChars (cs : List Char) : LooseText := ⟨cs.map .char⟩

/-- A text without halves. -/
def ofString (s : String) : LooseText := ofChars s.toList

instance : Coe String LooseText := ⟨ofString⟩

/-- One text behind another. -/
def append (s t : LooseText) : LooseText := ⟨s.letters ++ t.letters⟩

instance : Append LooseText := ⟨append⟩

/-- The characters of some letters, unless one of them is half of a pair. -/
def chars? : List Letter → Option (List Char)
  | [] => some []
  | l :: rest => do
    let c ← l.char?
    let cs ← chars? rest
    pure (c :: cs)

/-- **The text without halves that a text is**, if it has none. -/
def toString? (t : LooseText) : Option String := (chars? t.letters).map String.ofList

/-- A text as it is shown. -/
def shown (t : LooseText) : String := String.ofList (t.letters.map Letter.shown)

/-- A text in upper case. -/
def upper (t : LooseText) : LooseText := ⟨t.letters.flatMap Letter.upper⟩

/-- The quoted form of a text. -/
def quoted (t : LooseText) : String :=
  let quote := quoteMark (t.letters.map Letter.shown)
  String.ofList (quote :: t.letters.flatMap (Letter.quoted quote) ++ [quote])

/-- Texts with a separator between each two. -/
def joined (separator : String) (parts : List LooseText) : LooseText :=
  ⟨(ofString separator).letters.intercalate (parts.map letters)⟩

theorem ext_iff {s t : LooseText} : s = t ↔ s.letters = t.letters := by
  cases s
  cases t
  exact LooseText.mk.injEq _ _ ▸ Iff.rfl

theorem append_eq (s t : LooseText) : s ++ t = ⟨s.letters ++ t.letters⟩ := rfl

@[simp] theorem letters_append (s t : LooseText) : (s ++ t).letters = s.letters ++ t.letters := rfl

@[simp] theorem letters_ofString (s : String) : (ofString s).letters = s.toList.map .char := rfl

@[simp] theorem ofString_ofList (cs : List Char) : ofString (String.ofList cs) = ofChars cs := by
  rw [ofString, String.toList_ofList]

@[simp] theorem chars?_map_char (cs : List Char) : chars? (cs.map .char) = some cs := by
  induction cs with
  | nil => rfl
  | cons c rest ih => rw [List.map_cons, chars?, ih]; rfl

theorem eq_map_char_of_chars? {ls : List Letter} {cs : List Char} (h : chars? ls = some cs) :
    ls = cs.map .char := by
  induction ls generalizing cs with
  | nil => cases h; rfl
  | cons l rest ih =>
    obtain ⟨c, hc, h⟩ := Option.bind_eq_some_iff.mp h
    obtain ⟨cs', hrest, h⟩ := Option.bind_eq_some_iff.mp h
    cases h
    cases l with
    | char d => rw [ih hrest, ← Option.some.inj hc]; rfl
    | half code => cases hc

@[simp] theorem toString?_ofString (s : String) : toString? s = some s := by
  rw [toString?, letters_ofString, chars?_map_char, Option.map_some, String.ofList_toList]

/-- **A text is a `String` just when no half stands in it.** -/
theorem toString?_eq_some {t : LooseText} {s : String} : t.toString? = some s ↔ t = s := by
  constructor
  · intro h
    obtain ⟨cs, hcs, rfl⟩ := Option.map_eq_some_iff.mp h
    rw [ofString_ofList]
    exact ext_iff.mpr (eq_map_char_of_chars? hcs)
  · rintro rfl
    exact toString?_ofString s

theorem chars?_append (a b : List Letter) :
    chars? (a ++ b) = (chars? a).bind fun cs => (chars? b).map (cs ++ ·) := by
  induction a with
  | nil => cases h : chars? b <;> simp [chars?, h]
  | cons l rest ih =>
    rw [List.cons_append, chars?, chars?, ih]
    cases l.char? with
    | none => rfl
    | some c => cases chars? rest <;> cases chars? b <;> rfl

/-- A half stands in one text behind another just when it stands in one of them. -/
theorem toString?_append_eq_none {s t : LooseText} :
    (s ++ t).toString? = none ↔ s.toString? = none ∨ t.toString? = none := by
  simp only [toString?, letters_append, chars?_append, Option.map_eq_none_iff, Option.bind_eq_none_iff]
  cases chars? s.letters <;> simp

/-- Characters around a text make a `String` just when the text is one. -/
theorem toString?_around (a b : List Char) (t : LooseText) :
    (ofChars a ++ t ++ ofChars b).toString? = t.toString?.map fun s => String.ofList (a ++ s.toList ++ b) := by
  rw [toString?, letters_append, letters_append, ofChars, ofChars, chars?_append, chars?_append, chars?_map_char,
    chars?_map_char, toString?]
  cases chars? t.letters <;> simp

theorem ofString_inj {s t : String} : ofString s = ofString t ↔ s = t :=
  ⟨fun h => Option.some.inj ((toString?_ofString s).symm.trans (h ▸ toString?_ofString t)), congrArg _⟩

@[simp] theorem ofString_append (s t : String) : ofString s ++ ofString t = ofString (s ++ t) := by
  rw [append_eq, ext_iff]
  simp

theorem empty_append (t : LooseText) : ofString "" ++ t = t := rfl

@[simp] theorem joined_map_ofString (separator : String) (parts : List String) :
    joined separator (parts.map ofString) = ofString (separator.intercalate parts) := by
  have hmap (xs : List Char) (ys : List (List Char)) :
      (xs.map Letter.char).intercalate (ys.map (List.map .char)) = (xs.intercalate ys).map .char := by
    induction ys with
    | nil => rfl
    | cons y rest ih =>
      cases rest with
      | nil => simp [List.intercalate]
      | cons z rest =>
        rw [List.map_cons, List.map_cons, List.intercalate_cons_cons, List.intercalate_cons_cons, ← List.map_cons,
          ih, List.map_append, List.map_append]
  rw [joined, ext_iff, letters_ofString, letters_ofString, String.toList_intercalate, ← hmap, List.map_map,
    List.map_map]
  rfl

end LooseText

end SlotEdit
