import SlotEdit.Json.Tree

/-!
# Proofs/Json/Phrase — JSON texts as trees that keep their layout

A `Phrase` is a literal, a member of an object, or a bracketed list of phrases, with all blanks
kept: `render` writes it back character for character.  `tree` and `node` are the concrete and the
abstract syntax tree of a phrase that stands at some offset, `value` is what it stands for, and
none of the three needs the text around it.
-/

namespace SlotEdit.Json

/-- White space between tokens. -/
def Blank (s : List Char) : Prop := ∀ c ∈ s, isAsciiBlank c = true

/-- What a bracketed list is: an array of values or an object of members. -/
inductive Bracket
  | array
  | object
deriving DecidableEq, Repr

namespace Bracket

/-- The character that opens the list. -/
def opening : Bracket → Char
  | .array => '['
  | .object => '\x7b'

/-- The character that closes the list. -/
def closing : Bracket → Char
  | .array => ']'
  | .object => '\x7d'

/-- The frames that a list takes on the way to what is in it. -/
def frames : Bracket → Nat
  | .array => 2
  | .object => 3

theorem two_le_frames (bracket : Bracket) : 2 ≤ bracket.frames := by
  cases bracket <;> decide

/-- The construct of the grammar. -/
def construct : Bracket → String
  | .array => "array"
  | .object => "object"

/-- The form of the node. -/
def form : Bracket → JsonForm
  | .array => .array
  | .object => .object

/-- The list holds members and not values. -/
def holdsMembers : Bracket → Bool
  | .array => false
  | .object => true

end Bracket

/-- One of the things in a bracketed list: the blanks before the comma in front of it, the blanks
behind that comma, and the thing itself. -/
structure Item (α : Type) where
  gap : List Char
  lead : List Char
  content : α
deriving Repr

/-- **A piece of JSON with its layout.**  A string and a key are kept without their opening quote,
but with the closing one. -/
inductive Phrase
  | word (name : String)
  | string (body : List Char)
  | number (digits : List Char)
  | member (key before after : List Char) (content : Phrase)
  | group (bracket : Bracket) (items : List (Item Phrase)) (trail : List Char)
deriving Repr

/-- The text a string literal stands for, given without its opening quote. -/
def textOf (body : List Char) : LooseText :=
  match scanString 0 1 body with
  | .ok (letters, _) => ⟨letters⟩
  | .error _ => ""

/-- The value a number literal stands for. -/
def numberOf (digits : List Char) : Value :=
  match readScalar ⟨0, digits⟩ with
  | .ok (v, _) => v
  | .error _ => .null

namespace Phrase

/-- **Induction on phrases**: a list is reached from each of its items. -/
@[induction_eliminator]
theorem induct {P : Phrase → Prop} (word : ∀ name, P (.word name))
    (string : ∀ body, P (.string body)) (number : ∀ digits, P (.number digits))
    (member : ∀ key before after content, P content → P (.member key before after content))
    (group : ∀ bracket items trail, (∀ i ∈ items, P i.content) → P (.group bracket items trail)) :
    ∀ p, P p
  | .word _ => word _
  | .string _ => string _
  | .number _ => number _
  | .member _ _ _ v => member _ _ _ _ (induct word string number member group v)
  | .group _ items _ => group _ items _ (all items)
where
  /-- The items of a list, one after another. -/
  all : ∀ items : List (Item Phrase), ∀ i ∈ items, P i.content
  | [], _, h => nomatch h
  | ⟨_, _, p⟩ :: rest, i, h => by
    rcases List.mem_cons.mp h with rfl | h
    · exact induct word string number member group p
    · exact all rest i h

/-- The phrase is a member of an object. -/
def isMember : Phrase → Bool
  | .member .. => true
  | _ => false

/-- The phrase is an object. -/
def isObject : Phrase → Bool
  | .group .object .. => true
  | _ => false

/-- The key of a member. -/
def key : Phrase → LooseText
  | .member k .. => textOf k
  | _ => ""

/-! ## Writing -/

mutual
/-- **The text of a phrase.** -/
def render : Phrase → List Char
  | .word name => name.toList
  | .string body => '"' :: body
  | .number digits => digits
  | .member key before after content => '"' :: key ++ before ++ ':' :: after ++ render content
  | .group bracket items trail => bracket.opening :: (renderItems [] items ++ trail) ++ [bracket.closing]

/-- The text of items, the first one behind a separator. -/
def renderItems (separator : List Char) : List (Item Phrase) → List Char
  | [] => []
  | ⟨gap, lead, p⟩ :: rest => gap ++ separator ++ lead ++ render p ++ renderItems [','] rest
end

theorem render_group (bracket : Bracket) (items : List (Item Phrase)) (trail : List Char) :
    (group bracket items trail).render =
      bracket.opening :: (renderItems [] items ++ trail) ++ [bracket.closing] := by
  rw [render]

theorem renderItems_singleton (separator gap lead : List Char) (p : Phrase) :
    renderItems separator [⟨gap, lead, p⟩] = gap ++ separator ++ lead ++ p.render := by
  rw [renderItems, renderItems, List.append_nil]

theorem renderItems_cons (separator : List Char) (i : Item Phrase) (rest : List (Item Phrase)) :
    renderItems separator (i :: rest) = renderItems separator [i] ++ renderItems [','] rest := by
  obtain ⟨gap, lead, p⟩ := i
  rw [renderItems, renderItems_singleton]

/-- What separates an item from the ones before it, if any. -/
def separatorAfter (separator : List Char) (before : List (Item Phrase)) : List Char :=
  if before.isEmpty then separator else [',']

theorem separatorAfter_cons (separator : List Char) (i : Item Phrase) (rest : List (Item Phrase)) :
    separatorAfter separator (i :: rest) = [','] := rfl

theorem separatorAfter_comma (before : List (Item Phrase)) : separatorAfter [','] before = [','] := by
  rw [separatorAfter]
  split <;> rfl

theorem renderItems_append (separator : List Char) (xs ys : List (Item Phrase)) :
    renderItems separator (xs ++ ys)
      = renderItems separator xs ++ renderItems (separatorAfter separator xs) ys := by
  induction xs generalizing separator with
  | nil => rfl
  | cons i rest ih =>
    obtain ⟨gap, lead, p⟩ := i
    rw [List.cons_append, renderItems, renderItems, ih, separatorAfter_cons, separatorAfter_comma]
    simp only [List.append_assoc]

/-! ## Nesting -/

mutual
/-- How deep arrays and objects nest. -/
def height : Phrase → Nat
  | .member _ _ _ content => height content
  | .group _ items _ => heightItems items + 1
  | _ => 0

/-- The greatest height of some items. -/
def heightItems : List (Item Phrase) → Nat
  | [] => 0
  | ⟨_, _, p⟩ :: rest => max (height p) (heightItems rest)
end

theorem heightItems_le_iff {items : List (Item Phrase)} {n : Nat} :
    heightItems items ≤ n ↔ ∀ i ∈ items, i.content.height ≤ n := by
  induction items with
  | nil => simp [heightItems]
  | cons i rest ih =>
    obtain ⟨gap, lead, p⟩ := i
    rw [heightItems, Nat.max_le, ih, List.forall_mem_cons]

mutual
/-- How many frames the arrays and objects that nest in a phrase take at most at once. -/
def frames : Phrase → Nat
  | .member _ _ _ content => frames content
  | .group bracket items _ => framesOfItems items + bracket.frames
  | _ => 0

/-- The most frames that one of some items takes. -/
def framesOfItems : List (Item Phrase) → Nat
  | [] => 0
  | ⟨_, _, p⟩ :: rest => max (frames p) (framesOfItems rest)
end

theorem framesOfItems_le_iff {items : List (Item Phrase)} {n : Nat} :
    framesOfItems items ≤ n ↔ ∀ i ∈ items, i.content.frames ≤ n := by
  induction items with
  | nil => simp [framesOfItems]
  | cons i rest ih =>
    obtain ⟨gap, lead, p⟩ := i
    rw [framesOfItems, Nat.max_le, ih, List.forall_mem_cons]

/-- Every level takes two frames or more. -/
theorem two_mul_height_le (p : Phrase) : 2 * p.height ≤ p.frames := by
  induction p with
  | word | string | number => exact Nat.le_refl _
  | member _ _ _ _ ih => exact ih
  | group bracket items _ ih =>
    have hitems : 2 * heightItems items ≤ framesOfItems items := by
      have hall := framesOfItems_le_iff.mp (Nat.le_refl (framesOfItems items))
      have hhalf : heightItems items ≤ framesOfItems items / 2 := heightItems_le_iff.mpr fun i hi => by
        have := ih i hi
        have := hall i hi
        omega
      omega
    have := bracket.two_le_frames
    rw [height, frames]
    omega

/-- **A phrase that does not nest too deep for a tree** does not for a value. -/
theorem height_le_nestingLimit [Interpreter] {p : Phrase} (h : p.frames ≤ treeFrames) : p.height ≤ nestingLimit :=
  Nat.le_of_mul_le_mul_left (Nat.le_trans (Nat.le_trans p.two_mul_height_le h) Interpreter.jsonFrames_le) Nat.two_pos

/-! ## Well-formed phrases -/

/-- **A phrase that the grammar can read**: words, strings and numbers are ones of the grammar, and
arrays hold values and objects hold members. -/
inductive Shaped : Phrase → Prop
  | word {name : String} (h : name ∈ ["true", "false", "null"]) : Shaped (.word name)
  | string {body : List Char} (h : Grammar.stringEnd? body = some body.length) :
      Shaped (.string body)
  | number {digits : List Char} (hne : digits ≠ []) (h : Grammar.numberLength digits = digits.length) :
      Shaped (.number digits)
  | member {key before after : List Char} {content : Phrase}
      (hkey : Grammar.stringEnd? key = some key.length) (hbefore : Blank before)
      (hafter : Blank after) (hvalue : content.isMember = false) (h : Shaped content) :
      Shaped (.member key before after content)
  | group {bracket : Bracket} {items : List (Item Phrase)} {trail : List Char}
      (htrail : Blank trail) (hfirst : ∀ i ∈ items.head?, i.gap = [])
      (hblank : ∀ i ∈ items, Blank i.gap ∧ Blank i.lead)
      (hkind : ∀ i ∈ items, i.content.isMember = bracket.holdsMembers)
      (h : ∀ i ∈ items, Shaped i.content) : Shaped (.group bracket items trail)

mutual
/-- The string and number literals of a phrase, keys included. -/
def literals : Phrase → List (List Char)
  | .word _ => []
  | .string body => ['"' :: body]
  | .number digits => [digits]
  | .member key _ _ content => ('"' :: key) :: literals content
  | .group _ items _ => literalsOf items

/-- The literals of some items. -/
def literalsOf : List (Item Phrase) → List (List Char)
  | [] => []
  | ⟨_, _, p⟩ :: rest => literals p ++ literalsOf rest
end

/-- **Every literal of the phrase decodes.** -/
def Readable [Interpreter] (p : Phrase) : Prop := ∀ s ∈ p.literals, ∃ v, decode (String.ofList s) = .ok v

theorem mem_literalsOf {items : List (Item Phrase)} {s : List Char} :
    s ∈ literalsOf items ↔ ∃ i ∈ items, s ∈ i.content.literals := by
  induction items with
  | nil => simp [literalsOf]
  | cons i rest ih =>
    obtain ⟨gap, lead, p⟩ := i
    rw [literalsOf, List.mem_append, ih]
    simp

theorem readable_group [Interpreter] {bracket : Bracket} {items : List (Item Phrase)} {trail : List Char} :
    (group bracket items trail).Readable ↔ ∀ i ∈ items, i.content.Readable := by
  simp only [Readable, literals, mem_literalsOf]
  exact ⟨fun h i hi s hs => h s ⟨i, hi, hs⟩, fun h s ⟨i, hi, hs⟩ => h i hi s hs⟩

theorem readable_member [Interpreter] {key before after : List Char} {content : Phrase} :
    (member key before after content).Readable
      ↔ (∃ v, decode (String.ofList ('"' :: key)) = .ok v) ∧ content.Readable := by
  simp only [Readable, literals, List.forall_mem_cons]

/-! ## What stands where -/

/-- The offsets of a phrase that starts at one. -/
def span (p : Phrase) (offset : Nat) : Span := ⟨offset, offset + p.render.length⟩

/-- The contents of items, the first item behind a separator, with their offsets. -/
def spots (separator : List Char) (offset : Nat) : List (Item Phrase) → List (Nat × Phrase)
  | [] => []
  | ⟨gap, lead, p⟩ :: rest =>
    let start := offset + (gap ++ separator ++ lead).length
    (start, p) :: spots [','] (start + p.render.length) rest

theorem spots_append (separator : List Char) (offset : Nat) (xs ys : List (Item Phrase)) :
    spots separator offset (xs ++ ys) = spots separator offset xs
      ++ spots (separatorAfter separator xs) (offset + (renderItems separator xs).length) ys := by
  induction xs generalizing separator offset with
  | nil => rfl
  | cons i rest ih =>
    obtain ⟨gap, lead, p⟩ := i
    rw [List.cons_append, spots, spots, ih, renderItems, separatorAfter_cons, separatorAfter_comma]
    simp only [List.length_append, List.cons_append, Nat.add_assoc]

theorem map_snd_spots (separator : List Char) (offset : Nat) (items : List (Item Phrase)) :
    (spots separator offset items).map Prod.snd = items.map Item.content := by
  induction items generalizing separator offset with
  | nil => rfl
  | cons i rest ih =>
    obtain ⟨gap, lead, p⟩ := i
    rw [spots, List.map_cons, List.map_cons, ih]

theorem content_of_mem_spots {separator : List Char} {offset : Nat} {items : List (Item Phrase)}
    {s : Nat × Phrase} (h : s ∈ spots separator offset items) : ∃ i ∈ items, i.content = s.2 := by
  have hmem := List.mem_map_of_mem (f := Prod.snd) h
  rw [map_snd_spots] at hmem
  exact List.mem_map.mp hmem

/-- Where the value of a member starts. -/
def valueStart (key before after : List Char) (offset : Nat) : Nat :=
  offset + ('"' :: key ++ before ++ ':' :: after).length

end Phrase

/-! ## Places -/

/-- **A phrase with a hole**: the way from a phrase down to one inside it. -/
inductive Place
  | here
  | inMember (key before after : List Char) (place : Place)
  | inGroup (bracket : Bracket) (front : List (Item Phrase)) (gap lead : List Char) (place : Place)
      (back : List (Item Phrase)) (trail : List Char)

namespace Place

/-- The phrase with something in the hole. -/
def fill : Place → Phrase → Phrase
  | .here, p => p
  | .inMember key before after place, p => .member key before after (place.fill p)
  | .inGroup bracket front gap lead place back trail, p =>
    .group bracket (front ++ ⟨gap, lead, place.fill p⟩ :: back) trail

/-- The text before the hole. -/
def before : Place → List Char
  | .here => []
  | .inMember key before after place => '"' :: key ++ before ++ ':' :: after ++ place.before
  | .inGroup bracket front gap lead place _ _ =>
    bracket.opening :: Phrase.renderItems [] front
      ++ (gap ++ Phrase.separatorAfter [] front ++ lead) ++ place.before

/-- The text behind the hole. -/
def behind : Place → List Char
  | .here => []
  | .inMember _ _ _ place => place.behind
  | .inGroup bracket _ _ _ place back trail =>
    place.behind ++ Phrase.renderItems [','] back ++ trail ++ [bracket.closing]

/-- **Filling a hole changes nothing around it.** -/
theorem render_fill (place : Place) (p : Phrase) :
    (place.fill p).render = place.before ++ p.render ++ place.behind := by
  induction place with
  | here => simp [fill, before, behind]
  | inMember key before' after place ih =>
    rw [fill, Phrase.render, ih, before, behind]
    simp only [List.append_assoc, List.cons_append]
  | inGroup bracket front gap lead place back trail ih =>
    rw [fill, Phrase.render, Phrase.renderItems_append, Phrase.renderItems, ih, before, behind]
    simp only [List.append_assoc, List.cons_append]

theorem isMember_fill (place : Place) {p q : Phrase} (h : q.isMember = p.isMember) :
    (place.fill q).isMember = (place.fill p).isMember := by
  cases place with
  | here => exact h
  | inMember => rfl
  | inGroup => rfl

theorem shaped_of_fill {place : Place} {p : Phrase} (h : (place.fill p).Shaped) : p.Shaped := by
  induction place with
  | here => exact h
  | inMember key before after place ih =>
    cases h with
    | member _ _ _ _ h => exact ih h
  | inGroup bracket front gap lead place back trail ih =>
    cases h with
    | group _ _ _ _ h =>
      exact ih (h _ (List.mem_append_right front List.mem_cons_self))

/-- A hole takes every well-formed phrase of the kind that fits. -/
theorem shaped_fill {place : Place} {p q : Phrase} (h : (place.fill p).Shaped) (hq : q.Shaped)
    (hkind : q.isMember = p.isMember) : (place.fill q).Shaped := by
  induction place with
  | here => exact hq
  | inMember key before after place ih =>
    cases h with
    | member hkey hbefore hafter hvalue h =>
      exact .member hkey hbefore hafter (isMember_fill place hkind ▸ hvalue) (ih h)
  | inGroup bracket front gap lead place back trail ih =>
    cases h with
    | group htrail hfirst hblank hitems h =>
      rw [List.forall_mem_append, List.forall_mem_cons] at hblank hitems h
      refine .group htrail ?_ ?_ ?_ ?_
      · intro i hi
        cases front with
        | nil =>
          obtain rfl := Option.some.inj hi
          exact hfirst ⟨gap, lead, place.fill p⟩ rfl
        | cons j front => exact hfirst i hi
      · exact List.forall_mem_append.mpr ⟨hblank.1, List.forall_mem_cons.mpr hblank.2⟩
      · have hkind := (isMember_fill place hkind).trans hitems.2.1
        exact List.forall_mem_append.mpr
          ⟨hitems.1, List.forall_mem_cons.mpr ⟨hkind, hitems.2.2⟩⟩
      · exact List.forall_mem_append.mpr
          ⟨h.1, List.forall_mem_cons.mpr ⟨ih h.2.1, h.2.2⟩⟩

theorem readable_of_fill [Interpreter] {place : Place} {p : Phrase} (h : (place.fill p).Readable) :
    p.Readable := by
  induction place with
  | here => exact h
  | inMember key before after place ih => exact ih (Phrase.readable_member.mp h).2
  | inGroup bracket front gap lead place back trail ih =>
    exact ih (Phrase.readable_group.mp h _ (List.mem_append_right front List.mem_cons_self))

theorem readable_fill [Interpreter] (place : Place) {p q : Phrase} (h : (place.fill p).Readable)
    (hq : q.Readable) : (place.fill q).Readable := by
  induction place with
  | here => exact hq
  | inMember key before after place ih =>
    have h := Phrase.readable_member.mp h
    exact Phrase.readable_member.mpr ⟨h.1, ih h.2⟩
  | inGroup bracket front gap lead place back trail ih =>
    rw [fill, Phrase.readable_group, List.forall_mem_append, List.forall_mem_cons] at h ⊢
    exact ⟨h.1, ih h.2.1, h.2.2⟩

/-! ## Places within places -/

/-- The way down to one hole and on to another one inside what fills it. -/
def into : Place → Place → Place
  | .here, q => q
  | .inMember key before after place, q => .inMember key before after (place.into q)
  | .inGroup bracket front gap lead place back trail, q =>
    .inGroup bracket front gap lead (place.into q) back trail

theorem fill_into (place q : Place) (p : Phrase) : (place.into q).fill p = place.fill (q.fill p) := by
  induction place with
  | here => rfl
  | inMember key before after place ih => rw [into, fill, ih, fill]
  | inGroup bracket front gap lead place back trail ih => rw [into, fill, ih, fill]

theorem into_here (place : Place) : place.into .here = place := by
  induction place with
  | here => rfl
  | inMember key before after place ih => rw [into, ih]
  | inGroup bracket front gap lead place back trail ih => rw [into, ih]

theorem into_assoc (place q r : Place) : (place.into q).into r = place.into (q.into r) := by
  induction place with
  | here => rfl
  | inMember key before after place ih => rw [into, into, ih, into]
  | inGroup bracket front gap lead place back trail ih => rw [into, into, ih, into]

theorem before_into (place q : Place) : (place.into q).before = place.before ++ q.before := by
  induction place with
  | here => rfl
  | inMember key before' after place ih =>
    rw [into, before, ih, before]
    simp only [List.append_assoc, List.cons_append]
  | inGroup bracket front gap lead place back trail ih =>
    rw [into, before, ih, before]
    simp only [List.append_assoc, List.cons_append]

end Place

end SlotEdit.Json
