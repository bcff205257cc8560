import SlotEdit.Proofs.Json.Nesting

/-!
# Proofs/Json/Forks — two places in one phrase

Two places that are filled to the same phrase lie one in the other, or their ways part at a list
(`exists_fork`).  In the second case either of them can be filled anew without moving what stands
before it, or how deep the other one lies.
-/

namespace SlotEdit.Json

open Phrase

/-- An item with something in its hole. -/
def Item.fill (i : Item Place) (p : Phrase) : Item Phrase := ⟨i.gap, i.lead, i.content.fill p⟩

/-- **A phrase with two holes**: the way to a list, and two of its items with a hole in each. -/
structure Fork where
  way : Place
  bracket : Bracket
  front : List (Item Phrase)
  first : Item Place
  middle : List (Item Phrase)
  second : Item Place
  back : List (Item Phrase)
  trail : List Char

namespace Fork

/-- The place of the first hole, with something in the second. -/
def left (f : Fork) (q : Phrase) : Place :=
  f.way.into (.inGroup f.bracket f.front f.first.gap f.first.lead f.first.content
    (f.middle ++ f.second.fill q :: f.back) f.trail)

/-- The place of the second hole, with something in the first. -/
def right (f : Fork) (p : Phrase) : Place :=
  f.way.into (.inGroup f.bracket (f.front ++ f.first.fill p :: f.middle) f.second.gap f.second.lead
    f.second.content f.back f.trail)

/-- A fork further down a way. -/
def under (f : Fork) (place : Place) : Fork := { f with way := place.into f.way }

variable (f : Fork) (p q : Phrase)

theorem fill_left : (f.left q).fill p = (f.right p).fill q := by
  rw [left, right, Place.fill_into, Place.fill_into, Place.fill, Place.fill, List.append_assoc, List.cons_append]
  rfl

/-- What stands before the first hole does not depend on the second. -/
theorem before_left (q' : Phrase) : (f.left q).before = (f.left q').before := by
  rw [left, left, Place.before_into, Place.before_into]
  rfl

/-- The first hole ends before the second starts. -/
theorem left_before_right :
    (f.left q).before.length + p.render.length < (f.right p).before.length := by
  have hitem : (f.first.fill p).content.render = f.first.content.before ++ p.render ++ f.first.content.behind :=
    Place.render_fill f.first.content p
  have hfirst (separator : List Char) : renderItems separator (f.first.fill p :: f.middle) =
      f.first.gap ++ separator ++ f.first.lead ++ (f.first.fill p).content.render ++ renderItems [','] f.middle :=
    rfl
  have hcomma : separatorAfter [] (f.front ++ f.first.fill p :: f.middle) = [','] := by
    rw [separatorAfter, if_neg (by simp)]
  rw [left, right, Place.before_into, Place.before_into, Place.before, Place.before, renderItems_append, hfirst,
    hitem, hcomma]
  simp only [List.length_append, List.length_cons, List.length_nil]
  omega

theorem frames_left (q' : Phrase) : (f.left q).frames = (f.left q').frames := by
  rw [left, left, Place.frames_into, Place.frames_into]
  rfl

theorem frames_right (p' : Phrase) : (f.right p).frames = (f.right p').frames := by
  rw [right, right, Place.frames_into, Place.frames_into]
  rfl

end Fork

namespace Place

/-- Two places are those of a fork, the first one in front. -/
def Parts (a b : Place) (x y : Phrase) : Prop := ∃ f : Fork, a = f.left y ∧ b = f.right x

theorem Parts.under {a b : Place} {x y : Phrase} (h : Parts a b x y) (place : Place) :
    Parts (place.into a) (place.into b) x y := by
  obtain ⟨f, rfl, rfl⟩ := h
  exact ⟨f.under place, (into_assoc place f.way _).symm, (into_assoc place f.way _).symm⟩

/-- **Two places in one phrase**: one lies in the other, or their ways part at a list. -/
theorem exists_fork {a b : Place} {x y : Phrase} (h : a.fill x = b.fill y) :
    (∃ r, b = a.into r) ∨ (∃ r, a = b.into r) ∨ Parts a b x y ∨ Parts b a y x := by
  -- what is found below an item is found below the list
  have hunder {a b : Place} (place : Place)
      (h : (∃ r, b = a.into r) ∨ (∃ r, a = b.into r) ∨ Parts a b x y ∨ Parts b a y x) :
      (∃ r, place.into b = (place.into a).into r) ∨ (∃ r, place.into a = (place.into b).into r) ∨
        Parts (place.into a) (place.into b) x y ∨ Parts (place.into b) (place.into a) y x := by
    rcases h with ⟨r, rfl⟩ | ⟨r, rfl⟩ | h | h
    · exact .inl ⟨r, (into_assoc place a r).symm⟩
    · exact .inr (.inl ⟨r, (into_assoc place b r).symm⟩)
    · exact .inr (.inr (.inl (h.under place)))
    · exact .inr (.inr (.inr (h.under place)))
  induction a generalizing b with
  | here => exact .inl ⟨b, rfl⟩
  | inMember k before after a ih =>
    cases b with
    | here => exact .inr (.inl ⟨_, rfl⟩)
    | inMember k' before' after' b =>
      obtain ⟨rfl, rfl, rfl, hcontent⟩ := Phrase.member.inj h
      exact hunder (.inMember k before after .here) (ih hcontent)
    | inGroup => cases h
  | inGroup bracket front gap lead a back trail ih =>
    cases b with
    | here => exact .inr (.inl ⟨_, rfl⟩)
    | inMember => cases h
    | inGroup bracket' front' gap' lead' b back' trail' =>
      obtain ⟨rfl, hitems, rfl⟩ := Phrase.group.inj h
      rcases List.append_eq_append_iff.mp hitems with ⟨middle, rfl, hrest⟩ | ⟨middle, rfl, hrest⟩
      · cases middle with
        | nil =>
          obtain ⟨hitem, rfl⟩ := List.cons.inj hrest
          obtain ⟨rfl, rfl, hcontent⟩ := Item.mk.inj hitem
          rw [List.append_nil]
          exact hunder (.inGroup bracket front gap lead .here back trail) (ih hcontent)
        | cons i middle =>
          obtain ⟨rfl, rfl⟩ := List.cons.inj hrest
          exact .inr (.inr (.inl
            ⟨⟨.here, bracket, front, ⟨gap, lead, a⟩, middle, ⟨gap', lead', b⟩, back', trail⟩, rfl, rfl⟩))
      · cases middle with
        | nil =>
          obtain ⟨hitem, rfl⟩ := List.cons.inj hrest
          obtain ⟨rfl, rfl, hcontent⟩ := Item.mk.inj hitem
          rw [List.append_nil]
          exact hunder (.inGroup bracket front' gap' lead' .here back' trail) (ih hcontent.symm)
        | cons i middle =>
          obtain ⟨rfl, rfl⟩ := List.cons.inj hrest
          exact .inr (.inr (.inr
            ⟨⟨.here, bracket, front', ⟨gap', lead', b⟩, middle, ⟨gap, lead, a⟩, back, trail⟩, rfl, rfl⟩))

end Place

end SlotEdit.Json
