import SlotEdit.Proofs.Template.Passes
import SlotEdit.Proofs.Json.Forks

/-!
# Proofs/Template/Slots — the slots of a pass are places in the text

A slot that a pass finds in a JSON text is named by the index of its fragment and by its key.  Its
value stands in a place of the text, and the place alone says which slot it is (`Place.slot?`,
`exists_place_of_slot`).  Two slots of a text lie side by side: each keeps its name, and how deep it
lies, whatever is put in the other (`Holds.exists_beside`).
-/

namespace SlotEdit

open Json Json.Phrase

namespace Json.Phrase

variable {key : String}

theorem length_assignments (p : Phrase) (o o' : Nat) :
    (assignments key p o).length = (assignments key p o').length := by
  rw [← List.length_map Prod.snd, map_snd_assignments p o o', List.length_map]

theorem length_assignmentsOf (separator : List Char) (items : List (Item Phrase)) (o o' : Nat) :
    (assignmentsOf key separator o items).length = (assignmentsOf key separator o' items).length := by
  rw [← List.length_map Prod.snd, map_snd_assignmentsOf separator items o o', List.length_map]

end Json.Phrase

namespace Json.Place

/-- The place lies in an object, which is the whole phrase. -/
def inObject : Place → Bool
  | .inGroup .object .. => true
  | _ => false

/-- The key that finds the hole in an object: that of a member whose value it is, if no later member
has the same. -/
def valueKey? : Place → Option String
  | .inGroup .object _ _ _ (.inMember k _ _ .here) back _ =>
    if ∀ i ∈ back, i.content.key ≠ textOf k then (textOf k).toString? else none
  | _ => none

/-- **The slot whose value fills the hole**, if there is one: the index of the object among those
assigned to a key, and the key of the slot. -/
def slot? (key : String) : Place → Option (Nat × String)
  | .here => none
  | .inMember k _ _ place =>
    if textOf k = key ∧ place.inObject = true then place.valueKey?.map fun k' => (0, k')
    else place.slot? key
  | .inGroup _ front _ _ place _ _ =>
    (place.slot? key).map fun s => ((assignmentsOf key [] 0 front).length + s.1, s.2)

variable {key : String} {place : Place} {s : Nat × String}

theorem ne_here_of_inObject (h : place.inObject = true) : place ≠ .here := by
  rintro rfl
  cases h

theorem ne_here_of_slot? (h : place.slot? key = some s) : place ≠ .here := by
  rintro rfl
  cases h

theorem isObject_fill_of_ne_here (h : place ≠ .here) (p : Phrase) : (place.fill p).isObject = place.inObject := by
  cases place with
  | here => exact absurd rfl h
  | inMember => rfl
  | inGroup bracket => cases bracket <;> rfl

theorem inObject_into (h : place ≠ .here) (r : Place) : (place.into r).inObject = place.inObject := by
  cases place with
  | here => exact absurd rfl h
  | inMember => rfl
  | inGroup bracket => cases bracket <;> rfl

/-- The place of a slot's value in an object. -/
theorem exists_of_valueKey? {k : String} (h : place.valueKey? = some k) :
    ∃ front gap lead k' before after, ∃ back : List (Item Phrase), ∃ trail,
      place = valuePlace front gap lead k' before after back trail ∧ textOf k' = k ∧
        ∀ i ∈ back, i.content.key ≠ k := by
  rw [valueKey?.eq_def] at h
  split at h
  · next front gap lead k' before after back trail =>
    split at h
    · next hback =>
      have hkey := LooseText.toString?_eq_some.mp h
      exact ⟨front, gap, lead, k', before, after, back, trail, rfl, hkey, hkey ▸ hback⟩
    · cases h
  · cases h

theorem valueKey?_valuePlace {front back : List (Item Phrase)} {k' : List Char} {k : String} (hkey : textOf k' = k)
    (hback : ∀ i ∈ back, i.content.key ≠ k) (gap lead before after trail : List Char) :
    (valuePlace front gap lead k' before after back trail).valueKey? = some k := by
  rw [valuePlace, valueKey?, if_pos (hkey ▸ hback), hkey, LooseText.toString?_ofString]

/-- **The two ways a slot lies in a member**: the member assigns the object of the slot, or the slot is
one of its value. -/
theorem slot?_inMember {k before after : List Char} (h : (inMember k before after place).slot? key = some s) :
    place ≠ .here ∧ ((textOf k = key ∧ place.inObject = true) ∧ s.1 = 0 ∧ place.valueKey? = some s.2 ∨
      ¬ (textOf k = key ∧ place.inObject = true) ∧ place.slot? key = some s) := by
  rw [slot?] at h
  split at h
  · next hassigns =>
    obtain ⟨k', hk', rfl⟩ := Option.map_eq_some_iff.mp h
    exact ⟨ne_here_of_inObject hassigns.2, .inl ⟨hassigns, rfl, hk'⟩⟩
  · next hassigns => exact ⟨ne_here_of_slot? h, .inr ⟨hassigns, h⟩⟩

theorem slot?_inMember_of_assigns {k before after : List Char} (hassigns : textOf k = key ∧ place.inObject = true)
    (hs : s.1 = 0) (hk : place.valueKey? = some s.2) : (inMember k before after place).slot? key = some s := by
  rw [slot?, if_pos hassigns, hk]
  exact congrArg some (Prod.ext hs.symm rfl)

theorem slot?_inMember_of_not {k before after : List Char} (hassigns : ¬ (textOf k = key ∧ place.inObject = true)) :
    (inMember k before after place).slot? key = place.slot? key := if_neg hassigns

/-- Whether a member assigns an object does not depend on what fills a hole inside its value. -/
theorem isAssignment_fill (h : place ≠ .here) (k before after : List Char) (p : Phrase) :
    isAssignment key (.member k before after (place.fill p)) = true ↔ textOf k = key ∧ place.inObject = true := by
  rw [isAssignment, Bool.and_eq_true, beq_iff_eq, isObject_fill_of_ne_here h]

/-- How many objects a list assigns, by one of its items. -/
theorem length_assignmentsOf_item (separator gap lead : List Char) (o : Nat) (front back : List (Item Phrase))
    (p : Phrase) : (assignmentsOf key separator o (front ++ ⟨gap, lead, p⟩ :: back)).length =
      (assignmentsOf key separator 0 front).length +
        ((assignments key p 0).length + (assignmentsOf key [','] 0 back).length) := by
  rw [assignmentsOf_append, assignmentsOf, List.length_append, List.length_append, length_assignmentsOf separator,
    length_assignments p, length_assignmentsOf [',']]

/-- What fills the place of a slot does not change how many objects are assigned. -/
theorem length_assignments_fill (h : place.slot? key = some s) (p p' : Phrase) :
    (assignments key (place.fill p) 0).length = (assignments key (place.fill p') 0).length := by
  induction place generalizing s with
  | here => cases h
  | inMember k before after place ih =>
    obtain ⟨hne, ⟨hassigns, -⟩ | ⟨hassigns, h⟩⟩ := slot?_inMember h
    · rw [fill, fill, assignments, assignments, if_pos ((isAssignment_fill hne ..).mpr hassigns),
        if_pos ((isAssignment_fill hne ..).mpr hassigns)]
      rfl
    · rw [fill, fill, assignments, assignments, if_neg fun h => hassigns ((isAssignment_fill hne ..).mp h),
        if_neg fun h => hassigns ((isAssignment_fill hne ..).mp h), length_assignments _ _ 0, ih h,
        length_assignments _ 0]
  | inGroup bracket front gap lead place back trail ih =>
    obtain ⟨s, h, -⟩ := Option.map_eq_some_iff.mp h
    rw [fill, fill, assignments, assignments, length_assignmentsOf_item, length_assignmentsOf_item, ih h]

/-! ## A slot of a place is a slot of a pass -/

/-- **The slot that a place is the value of** is found by a pass, at that place. -/
theorem exists_assignment {i : Nat} {k : String} (h : place.slot? key = some (i, k)) (p : Phrase) (o : Nat) :
    ∃ s, (assignments key (place.fill p) o)[i]? = some s ∧
      (property? (Template.objectNode s) k).bind propertyValue? = some (p.node (o + place.before.length)) := by
  induction place generalizing i o with
  | here => cases h
  | inMember k' before after place ih =>
    have hstart : o + (inMember k' before after place).before.length =
        valueStart k' before after o + place.before.length := by
      rw [Place.before, valueStart, List.length_append, Nat.add_assoc]
    rw [hstart, fill, assignments]
    obtain ⟨hne, ⟨hassigns, hi, hk⟩ | ⟨hassigns, h⟩⟩ := slot?_inMember h
    · obtain rfl : i = 0 := hi
      obtain ⟨front, gap, lead, k'', before', after', back, trail, rfl, hkey, hback⟩ := exists_of_valueKey? hk
      rw [if_pos ((isAssignment_fill hne ..).mpr hassigns)]
      exact ⟨_, rfl, propertyValue?_eq_some hkey hback trail _⟩
    · rw [if_neg fun h => hassigns ((isAssignment_fill hne ..).mp h)]
      exact ih h _
  | inGroup bracket front gap lead place back trail ih =>
    obtain ⟨⟨i, k⟩, hslot, heq⟩ := Option.map_eq_some_iff.mp h
    obtain ⟨rfl, rfl⟩ := Prod.mk.inj heq
    have hstart : o + (inGroup bracket front gap lead place back trail).before.length =
        o + 1 + (renderItems [] front).length + (gap ++ separatorAfter [] front ++ lead).length
          + place.before.length := by
      simp only [Place.before, List.length_append, List.length_cons]
      omega
    obtain ⟨s, hs, hvalue⟩ := ih hslot (o + 1 + (renderItems [] front).length
      + (gap ++ separatorAfter [] front ++ lead).length)
    refine ⟨s, ?_, hstart ▸ hvalue⟩
    rw [fill, assignments, assignmentsOf_append, assignmentsOf, length_assignmentsOf [] front 0 (o + 1),
      List.getElem?_append_right (Nat.le_add_right _ _), Nat.add_sub_cancel_left,
      List.getElem?_append_left (List.getElem?_eq_some_iff.mp hs).1]
    exact hs

/-- **Every slot that a pass finds** is the value in a place of the text. -/
theorem exists_place_of_assignment {p : Phrase} (hp : p.Shaped) {i o : Nat} {k : String} {s : Nat × Phrase} {n : Node}
    (hs : (assignments key p o)[i]? = some s)
    (hn : (property? (Template.objectNode s) k).bind propertyValue? = some n) :
    ∃ (place : Place) (old : Phrase), p = place.fill old ∧ place.slot? key = some (i, k) := by
  induction p generalizing i o with
  | word name => cases hs
  | string body => cases hs
  | number digits => cases hs
  | member k' before after content ih =>
    cases hp with
    | member _ _ _ _ hcontent =>
      rw [assignments] at hs
      split at hs
      · next hassignment =>
        obtain ⟨hi, hs⟩ := List.getElem?_eq_some_iff.mp hs
        obtain rfl : i = 0 := Nat.lt_one_iff.mp hi
        obtain rfl : (o, Phrase.member k' before after content) = s := hs
        obtain ⟨_, _, _, items, trail, heq, hkey⟩ := exists_of_isAssignment hassignment
        obtain ⟨rfl, rfl, rfl, rfl⟩ := Phrase.member.inj heq
        cases hlast : lastMember? k items with
        | none =>
          rw [Template.objectNode, property?_eq_none (lastMember?_eq_none.mp hlast)] at hn
          cases hn
        | some m =>
          obtain ⟨front, gap, lead, back, rfl, hm, hback⟩ := exists_of_lastMember? hlast
          obtain ⟨k'', before', after', old, rfl⟩ := exists_member
            (isMember_of_shaped hcontent ⟨gap, lead, m⟩ (List.mem_append_right front List.mem_cons_self))
          refine ⟨.inMember k' before after (valuePlace front gap lead k'' before' after' back trail), old, rfl, ?_⟩
          rw [slot?, if_pos ⟨hkey, rfl⟩, valueKey?_valuePlace hm hback]
          rfl
      · next hassignment =>
        obtain ⟨place, old, rfl, hslot⟩ := ih hcontent hs
        refine ⟨.inMember k' before after place, old, rfl, ?_⟩
        rwa [slot?_inMember_of_not fun h =>
          hassignment ((isAssignment_fill (ne_here_of_slot? hslot) ..).mpr h)]
  | group bracket items trail ih =>
    cases hp with
    | group _ _ _ _ hitems =>
      obtain ⟨before, after, hlist, rfl⟩ := Template.exists_append_of_getElem? hs
      obtain ⟨front, gap, lead, q, back, before', after', rfl, rfl, hq, -⟩ := exists_item hlist
      have hmem : (⟨gap, lead, q⟩ : Item Phrase) ∈ front ++ ⟨gap, lead, q⟩ :: back :=
        List.mem_append_right front List.mem_cons_self
      have hs' : (before' ++ s :: after')[before'.length]? = some s := by simp
      rw [← hq] at hs'
      obtain ⟨place, old, rfl, hslot⟩ := ih _ hmem (hitems _ hmem) hs'
      refine ⟨.inGroup bracket front gap lead place back trail, old, rfl, ?_⟩
      rw [slot?, hslot, List.length_append, length_assignmentsOf [] front 0 (o + 1)]
      rfl

/-! ## Two slots of a text -/

theorem valueKey?_valuePlace_into {r : Place} (h : r ≠ .here) (front : List (Item Phrase))
    (gap lead k before after : List Char) (back : List (Item Phrase)) (trail : List Char) :
    ((valuePlace front gap lead k before after back trail).into r).valueKey? = none := by
  cases r with
  | here => exact absurd rfl h
  | _ => rfl

/-- The value of a slot has no slot in it. -/
theorem slot?_into {r : Place} (h : place.slot? key = some s) (hr : r ≠ .here) :
    (place.into r).slot? key = none := by
  induction place generalizing s with
  | here => cases h
  | inMember k before after place ih =>
    obtain ⟨hne, h⟩ := slot?_inMember h
    rw [into, slot?, inObject_into hne]
    rcases h with ⟨hassigns, -, hk⟩ | ⟨hassigns, h⟩
    · obtain ⟨front, gap, lead, k', before', after', back, trail, rfl, -⟩ := exists_of_valueKey? hk
      rw [if_pos hassigns, valueKey?_valuePlace_into hr]
      rfl
    · rw [if_neg hassigns, ih h]
  | inGroup bracket front gap lead place back trail ih =>
    obtain ⟨s, h, -⟩ := Option.map_eq_some_iff.mp h
    rw [into, slot?, ih h]
    rfl

/-- A list behind a way is not where the value of a slot stands. -/
theorem valueKey?_into_inGroup {way : Place} (h : way ≠ .here) (bracket : Bracket) (front : List (Item Phrase))
    (gap lead : List Char) (place : Place) (back : List (Item Phrase)) (trail : List Char) :
    (way.into (.inGroup bracket front gap lead place back trail)).valueKey? = none := by
  cases way with
  | here => exact absurd rfl h
  | inMember => rfl
  | inGroup bracket' front' gap' lead' way back' trail' =>
    cases bracket' with
    | array => rfl
    | object =>
      cases way with
      | inMember k before after way => cases way <;> rfl
      | _ => rfl

theorem key_of_isMember {p : Phrase} (h : p.isMember = false) : p.key = "" := by
  cases p with
  | member => cases h
  | _ => rfl

theorem key_fill (place : Place) {p p' : Phrase} (hp : p.isMember = false) (hp' : p'.isMember = false) :
    (place.fill p).key = (place.fill p').key := by
  cases place with
  | here => exact (key_of_isMember hp).trans (key_of_isMember hp').symm
  | _ => rfl

theorem inObject_fork (f : Fork) (p q : Phrase) : (f.left q).inObject = (f.right p).inObject := by
  obtain ⟨way, bracket, front, first, middle, second, back, trail⟩ := f
  cases way with
  | here => cases bracket <;> rfl
  | inMember => rfl
  | inGroup bracket' => cases bracket' <;> rfl

/-- The key of a slot is found whatever value stands behind it. -/
theorem valueKey?_left {f : Fork} {y y' : Phrase} {k : String} (h : (f.left y).valueKey? = some k)
    (hy : y.isMember = false) (hy' : y'.isMember = false) : (f.left y').valueKey? = some k := by
  obtain ⟨way, bracket, front, first, middle, second, back, trail⟩ := f
  by_cases hway : way = .here
  · subst hway
    obtain ⟨front', gap, lead, k', before, after, back', trail', hplace, hkey, hback⟩ := exists_of_valueKey? h
    obtain ⟨rfl, rfl, rfl, rfl, hfirst, rfl, rfl⟩ := Place.inGroup.inj hplace
    rw [Fork.left, into, hfirst]
    refine valueKey?_valuePlace hkey ?_ _ _ _ _ _
    rw [List.forall_mem_append, List.forall_mem_cons] at hback ⊢
    exact ⟨hback.1, (key_fill second.content hy' hy).trans_ne hback.2.1, hback.2.2⟩
  · rw [Fork.left, valueKey?_into_inGroup hway] at h
    cases h

/-- The key of a slot is found whatever value stands before it. -/
theorem valueKey?_right {f : Fork} {x : Phrase} {k : String} (h : (f.right x).valueKey? = some k) (x' : Phrase) :
    (f.right x').valueKey? = some k := by
  obtain ⟨way, bracket, front, first, middle, second, back, trail⟩ := f
  by_cases hway : way = .here
  · subst hway
    obtain ⟨front', gap, lead, k', before, after, back', trail', hplace, hkey, hback⟩ := exists_of_valueKey? h
    obtain ⟨rfl, -, rfl, rfl, hsecond, rfl, rfl⟩ := Place.inGroup.inj hplace
    rw [Fork.right, into, hsecond]
    exact valueKey?_valuePlace hkey hback _ _ _ _ _
  · rw [Fork.right, valueKey?_into_inGroup hway] at h
    cases h

/-- **Two slots of a fork** stay what they are, whatever value fills the holes. -/
theorem slot?_of_fork {f : Fork} {x y y' : Phrase} {s s' : Nat × String} (x' : Phrase)
    (hleft : (f.left y).slot? key = some s) (hright : (f.right x).slot? key = some s') (hy : y.isMember = false)
    (hy' : y'.isMember = false) :
    (f.left y').slot? key = some s ∧ (f.right x').slot? key = some s' := by
  obtain ⟨way, bracket, front, first, middle, second, back, trail⟩ := f
  induction way generalizing s s' with
  | here =>
    refine ⟨hleft, ?_⟩
    -- the first item assigns as many objects as before, so the second slot keeps its index
    obtain ⟨s₁, hfirst, -⟩ := Option.map_eq_some_iff.mp hleft
    have hcount : (assignmentsOf key [] 0 (front ++ first.fill x' :: middle)).length =
        (assignmentsOf key [] 0 (front ++ first.fill x :: middle)).length := by
      rw [Item.fill, Item.fill, length_assignmentsOf_item, length_assignmentsOf_item, length_assignments_fill hfirst]
    rw [Fork.right, into, slot?] at hright ⊢
    rwa [hcount]
  | inGroup bracket' front' gap' lead' way back' trail' ih =>
    obtain ⟨s₁, h₁, rfl⟩ := Option.map_eq_some_iff.mp hleft
    obtain ⟨s₂, h₂, rfl⟩ := Option.map_eq_some_iff.mp hright
    obtain ⟨hl, hr⟩ := ih h₁ h₂
    exact ⟨congrArg (Option.map _) hl, congrArg (Option.map _) hr⟩
  | inMember k before after way ih =>
    let f : Fork := ⟨way, bracket, front, first, middle, second, back, trail⟩
    have hl : (inMember k before after (f.left y)).slot? key = some s := hleft
    have hr : (inMember k before after (f.right x)).slot? key = some s' := hright
    suffices (inMember k before after (f.left y')).slot? key = some s ∧
      (inMember k before after (f.right x')).slot? key = some s' from this
    have hsame : (f.left y').inObject = (f.left y).inObject := (inObject_fork f x y').trans (inObject_fork f x y).symm
    have hsame' (p : Phrase) : (f.right p).inObject = (f.left y).inObject := (inObject_fork f p y).symm
    obtain ⟨-, ⟨hassigns, hs, hk⟩ | ⟨hassigns, hl⟩⟩ := slot?_inMember hl
    · obtain ⟨-, ⟨-, hs', hk'⟩ | ⟨hnot, -⟩⟩ := slot?_inMember hr
      · exact ⟨slot?_inMember_of_assigns (hsame ▸ hassigns) hs (valueKey?_left hk hy hy'),
          slot?_inMember_of_assigns (hsame' x' ▸ hassigns) hs' (valueKey?_right hk' x')⟩
      · exact absurd (hsame' x ▸ hassigns) hnot
    · obtain ⟨-, ⟨hassigns', -⟩ | ⟨-, hr⟩⟩ := slot?_inMember hr
      · exact absurd (hsame' x ▸ hassigns') hassigns
      · obtain ⟨hl, hr⟩ := ih hl hr
        exact ⟨(slot?_inMember_of_not (hsame ▸ hassigns)).trans hl,
          (slot?_inMember_of_not (hsame' x' ▸ hassigns)).trans hr⟩

/-- The first of two places stands before the second, whatever fills them. -/
def Leads (A B : Phrase → Place) : Prop :=
  (∀ q q', (A q).before = (A q').before) ∧ ∀ p q, (A q).before.length + p.render.length < (B p).before.length

/-- **Two slots that lie side by side**: where each of them stands, by what fills the other. -/
structure Beside (key : String) (s s' : Nat × String) (A B : Phrase → Place) : Prop where
  fill : ∀ p q, (A q).fill p = (B p).fill q
  slot : ∀ q, q.isMember = false → (A q).slot? key = some s
  slot' : ∀ p, p.isMember = false → (B p).slot? key = some s'
  frames : ∀ q q', (A q).frames = (A q').frames
  frames' : ∀ p p', (B p).frames = (B p').frames
  order : Leads A B ∨ Leads B A

theorem Beside.symm {s s' : Nat × String} {A B : Phrase → Place} (h : Beside key s s' A B) : Beside key s' s B A :=
  ⟨fun p q => (h.fill q p).symm, h.slot', h.slot, h.frames', h.frames, h.order.symm⟩

theorem beside_of_fork {f : Fork} {x y : Phrase} {s s' : Nat × String} (hleft : (f.left y).slot? key = some s)
    (hright : (f.right x).slot? key = some s') (hy : y.isMember = false) : Beside key s s' f.left f.right where
  fill p q := f.fill_left p q
  slot _ hq := (slot?_of_fork x hleft hright hy hq).1
  slot' p _ := (slot?_of_fork p hleft hright hy hy).2
  frames q q' := f.frames_left q q'
  frames' p p' := f.frames_right p p'
  order := .inl ⟨fun q q' => f.before_left q q', fun p q => f.left_before_right p q⟩

/-- **A slot of a phrase**: the place of its value, and the value. -/
structure Holds (key : String) (p : Phrase) (s : Nat × String) (place : Place) (value : Phrase) : Prop where
  fill : p = place.fill value
  slot : place.slot? key = some s
  value : value.isMember = false

/-- What stands in the place of a slot is a value. -/
theorem isMember_of_slot? {value : Phrase} (h : place.slot? key = some s) (hp : (place.fill value).Shaped) :
    value.isMember = false := by
  induction place generalizing s with
  | here => cases h
  | inMember k before after place ih =>
    cases hp with
    | member _ _ _ _ hp =>
      obtain ⟨-, ⟨-, -, hk⟩ | ⟨-, h⟩⟩ := slot?_inMember h
      · obtain ⟨front, gap, lead, k', before', after', back, trail, rfl, -⟩ := exists_of_valueKey? hk
        cases hp with
        | group _ _ _ _ hp =>
          cases hp _ (List.mem_append_right front List.mem_cons_self) with
          | member _ _ _ hvalue _ => exact hvalue
      · exact ih h hp
  | inGroup bracket front gap lead place back trail ih =>
    obtain ⟨s, h, -⟩ := Option.map_eq_some_iff.mp h
    cases hp with
    | group _ _ _ _ hp => exact ih h (hp _ (List.mem_append_right front List.mem_cons_self))

/-- **Any two slots of a phrase** lie side by side. -/
theorem Holds.exists_beside {p x y : Phrase} {a b : Place} {s' : Nat × String} (h : Holds key p s a x)
    (h' : Holds key p s' b y) (hne : s ≠ s') : ∃ A B, Beside key s s' A B ∧ A y = a ∧ B x = b := by
  have hnot {a b r : Place} {s s' : Nat × String} (ha : a.slot? key = some s) (hb : b.slot? key = some s')
      (hne : s ≠ s') (heq : b = a.into r) : False := by
    by_cases hr : r = .here
    · rw [heq, hr, into_here, ha] at hb
      exact hne (Option.some.inj hb)
    · rw [heq, slot?_into ha hr] at hb
      cases hb
  rcases exists_fork (h.fill.symm.trans h'.fill) with ⟨r, heq⟩ | ⟨r, heq⟩ | ⟨f, rfl, rfl⟩ | ⟨f, rfl, rfl⟩
  · exact (hnot h.slot h'.slot hne heq).elim
  · exact (hnot h'.slot h.slot hne.symm heq).elim
  · exact ⟨_, _, beside_of_fork h.slot h'.slot h'.value, rfl, rfl⟩
  · exact ⟨_, _, (beside_of_fork h'.slot h.slot h.value).symm, rfl, rfl⟩

end Json.Place

end SlotEdit
