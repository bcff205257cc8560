import SlotEdit.Template.Template
import SlotEdit.Proofs.Json.Nodes

/-!
# Proofs/Json/Assignments — the objects assigned to a key

`assignments` lists the members with a key whose value is an object, those inside another one left
out; a template of objects finds exactly their nodes (`findIn_node`).  Each stands in a `Place`,
and filling that with another such member changes this one entry of the list and no other
(`exists_place`).
-/

namespace SlotEdit.Json

/-- The pattern of the objects assigned to a key. -/
def assignmentPattern (key : String) : TreePattern :=
  ⟨fun _ n => Template.isObjectAssignment key n, fun _ _ => .skip⟩

namespace Phrase

/-- The phrase is a member with a key whose value is an object. -/
def isAssignment (key : String) : Phrase → Bool
  | .member k _ _ content => textOf k == key && content.isObject
  | _ => false

/-- The members of the object that is the value of a member. -/
def properties : Phrase → List (Item Phrase)
  | .member _ _ _ (.group .object items _) => items
  | _ => []

theorem exists_of_isAssignment {key : String} {m : Phrase} (h : m.isAssignment key = true) :
    ∃ k before after items trail,
      m = .member k before after (.group .object items trail) ∧ textOf k = key := by
  cases m with
  | member k before after content =>
    rw [isAssignment, Bool.and_eq_true, beq_iff_eq] at h
    cases content with
    | group bracket items trail =>
      cases bracket with
      | object => exact ⟨k, before, after, items, trail, rfl, h.1⟩
      | array => cases h.2
    | _ => cases h.2
  | _ => cases h

mutual
/-- **The objects assigned to a key** in a phrase at an offset, with their offsets. -/
def assignments (key : String) : Phrase → Nat → List (Nat × Phrase)
  | .member k before after content, o =>
    if isAssignment key (.member k before after content) then [(o, .member k before after content)]
    else assignments key content (valueStart k before after o)
  | .group _ items _, o => assignmentsOf key [] (o + 1) items
  | _, _ => []

/-- The objects assigned to a key in some items, the first item behind a separator. -/
def assignmentsOf (key : String) (separator : List Char) (offset : Nat) :
    List (Item Phrase) → List (Nat × Phrase)
  | [] => []
  | ⟨gap, lead, p⟩ :: rest =>
    let start := offset + (gap ++ separator ++ lead).length
    assignments key p start ++ assignmentsOf key [','] (start + p.render.length) rest
end

theorem isObject_node (p : Phrase) (o : Nat) : Json.isObject (p.node o) = p.isObject := by
  cases p with
  | group bracket items trail => cases bracket <;> rfl
  | word name =>
    rw [Phrase.node, wordForm.eq_def]
    split <;> rfl
  | _ => rfl

/-- A member, and nothing else, has the key of its node. -/
theorem hasKey_node (key : LooseText) (p : Phrase) (o : Nat) :
    hasKey key (p.node o) = (p.isMember && p.key == key) := by
  cases p with
  | member k before after content => rfl
  | group bracket items trail => cases bracket <;> rfl
  | word name =>
    rw [Phrase.node, wordForm.eq_def]
    split <;> rfl
  | _ => rfl

theorem isObjectAssignment_node (key : String) (p : Phrase) (o : Nat) :
    Template.isObjectAssignment key (p.node o) = p.isAssignment key := by
  rw [Template.isObjectAssignment, hasKey_node]
  cases p with
  | member k before after content =>
    rw [isAssignment, ← isObject_node content (valueStart k before after o)]
    rfl
  | _ => rfl

variable (key source : String)

theorem findIn_string (s : LooseText) (span : Span) :
    (assignmentPattern key).findIn source (.mk (.json (.string s)) span []) = [] := by
  rw [TreePattern.findIn]
  rfl

/-- **A template of objects finds the objects assigned to its key.** -/
theorem findIn_node (p : Phrase) (o : Nat) :
    (assignmentPattern key).findIn source (p.node o) =
      (assignments key p o).map fun s => s.2.node s.1 := by
  have hfind (p : Phrase) (o : Nat) : (assignmentPattern key).findIn source (p.node o) =
      if p.isAssignment key then [p.node o]
      else (assignmentPattern key).findInAll source (p.node o).children := by
    rw [← isObjectAssignment_node key p o]
    cases p.node o with
    | mk form span children => rw [TreePattern.findIn]; rfl
  rw [hfind]
  induction p generalizing o with
  | word name => rfl
  | string body => rfl
  | number digits => rfl
  | member k before after content ih =>
    rw [assignments]
    split
    · rfl
    · rw [Phrase.node, Node.children, TreePattern.findInAll, findIn_string, TreePattern.findInAll, hfind, ih]
      simp only [TreePattern.findInAll, List.nil_append, List.append_nil]
  | group bracket items trail ih =>
    have hitems (separator : List Char) (offset : Nat) :
        (assignmentPattern key).findInAll source (nodes separator offset items) =
          (assignmentsOf key separator offset items).map fun s => s.2.node s.1 := by
      induction items generalizing separator offset with
      | nil => rfl
      | cons i rest ihrest =>
        obtain ⟨gap, lead, q⟩ := i
        rw [List.forall_mem_cons] at ih
        rw [nodes, TreePattern.findInAll, assignmentsOf, List.map_append, hfind, ih.1, ihrest ih.2]
    exact hitems [] (o + 1)

theorem assignmentsOf_append (separator : List Char) (offset : Nat) (xs ys : List (Item Phrase)) :
    assignmentsOf key separator offset (xs ++ ys) = assignmentsOf key separator offset xs
      ++ assignmentsOf key (separatorAfter separator xs)
        (offset + (renderItems separator xs).length) ys := by
  induction xs generalizing separator offset with
  | nil => rfl
  | cons i rest ih =>
    obtain ⟨gap, lead, p⟩ := i
    rw [List.cons_append, assignmentsOf, assignmentsOf, ih, renderItems, separatorAfter_cons,
      separatorAfter_comma]
    simp only [List.length_append, List.append_assoc, Nat.add_assoc]

variable {key}

/-- What is found does not depend on where the phrase stands. -/
theorem map_snd_assignments (p : Phrase) (o o' : Nat) :
    (assignments key p o).map Prod.snd = (assignments key p o').map Prod.snd := by
  induction p generalizing o o' with
  | word name => rfl
  | string body => rfl
  | number digits => rfl
  | member k before after content ih =>
    rw [assignments, assignments]
    split
    · rfl
    · exact ih _ _
  | group bracket items trail ih =>
    have hitems (separator : List Char) (o o' : Nat) :
        (assignmentsOf key separator o items).map Prod.snd
          = (assignmentsOf key separator o' items).map Prod.snd := by
      induction items generalizing separator o o' with
      | nil => rfl
      | cons i rest ihrest =>
        obtain ⟨gap, lead, q⟩ := i
        rw [List.forall_mem_cons] at ih
        rw [assignmentsOf, assignmentsOf, List.map_append, List.map_append, ih.1 _ _, ihrest ih.2 _ _]
    exact hitems [] (o + 1) (o' + 1)

theorem map_snd_assignmentsOf (separator : List Char) (items : List (Item Phrase)) (o o' : Nat) :
    (assignmentsOf key separator o items).map Prod.snd
      = (assignmentsOf key separator o' items).map Prod.snd := by
  induction items generalizing separator o o' with
  | nil => rfl
  | cons i rest ih =>
    obtain ⟨gap, lead, q⟩ := i
    rw [assignmentsOf, assignmentsOf, List.map_append, List.map_append, map_snd_assignments, ih]

/-! ## Where they stand -/

/-- What is found in a list is found in one of its items. -/
theorem exists_item {separator : List Char} {o : Nat} {items : List (Item Phrase)}
    {before after : List (Nat × Phrase)} {found : Nat × Phrase}
    (h : assignmentsOf key separator o items = before ++ found :: after) :
    ∃ front gap lead q back before' after', items = front ++ ⟨gap, lead, q⟩ :: back ∧
      before = assignmentsOf key separator o front ++ before' ∧
      assignments key q (o + (renderItems separator front).length
        + (gap ++ separatorAfter separator front ++ lead).length) = before' ++ found :: after' ∧
      after = after' ++ assignmentsOf key [','] (o + (renderItems separator front).length
        + (gap ++ separatorAfter separator front ++ lead).length + q.render.length) back := by
  induction items generalizing separator o before with
  | nil => exact absurd h.symm (by simp [assignmentsOf])
  | cons i rest ih =>
    obtain ⟨gap, lead, p⟩ := i
    have hlater {before' : List (Nat × Phrase)}
        (hb : before = assignments key p (o + (gap ++ separator ++ lead).length) ++ before')
        (hr : assignmentsOf key [','] (o + (gap ++ separator ++ lead).length + p.render.length) rest
          = before' ++ found :: after) :
        ∃ front gap' lead' q back before' after',
          (⟨gap, lead, p⟩ : Item Phrase) :: rest = front ++ ⟨gap', lead', q⟩ :: back ∧
          before = assignmentsOf key separator o front ++ before' ∧
          assignments key q (o + (renderItems separator front).length
            + (gap' ++ separatorAfter separator front ++ lead').length) = before' ++ found :: after' ∧
          after = after' ++ assignmentsOf key [','] (o + (renderItems separator front).length
            + (gap' ++ separatorAfter separator front ++ lead').length + q.render.length) back := by
      obtain ⟨front, gap', lead', q, back, before'', after'', rfl, rfl, hq, rfl⟩ := ih hr
      have hoffset : o + (renderItems separator (⟨gap, lead, p⟩ :: front)).length
          = o + (gap ++ separator ++ lead).length + p.render.length
            + (renderItems [','] front).length := by
        simp only [renderItems, List.length_append, Nat.add_assoc]
      refine ⟨⟨gap, lead, p⟩ :: front, gap', lead', q, back, before'', after'', rfl, ?_, ?_, ?_⟩
      · rw [hb, assignmentsOf, ← List.append_assoc]
      · rw [hoffset, separatorAfter_cons]
        rwa [separatorAfter_comma] at hq
      · rw [hoffset, separatorAfter_cons, separatorAfter_comma]
    rw [assignmentsOf] at h
    rcases List.append_eq_append_iff.mp h with ⟨before', hb, hr⟩ | ⟨after', hp, hr⟩
    · exact hlater hb hr
    · cases after' with
      | nil =>
        rw [List.append_nil] at hp
        exact hlater (hp.symm.trans (List.append_nil _).symm) hr.symm
      | cons x after' =>
        obtain ⟨rfl, rfl⟩ := List.cons.inj hr
        exact ⟨[], gap, lead, p, rest, before, after', rfl, rfl, hp, rfl⟩

theorem isObject_of_isAssignment {m : Phrase} (h : m.isAssignment key = true) : m.isObject = false := by
  cases m with
  | member => rfl
  | _ => cases h

theorem isObject_fill (place : Place) {m m' : Phrase} (h : m'.isObject = m.isObject) :
    (place.fill m').isObject = (place.fill m).isObject := by
  cases place with
  | here => exact h
  | inMember => rfl
  | inGroup bracket => cases bracket <;> rfl

/-- **Each object assigned to a key stands in a place**, and another one put there takes its place
in the list; the others stay what they are. -/
theorem exists_place {p m : Phrase} {o off : Nat} {before after : List (Nat × Phrase)}
    (h : assignments key p o = before ++ (off, m) :: after) :
    ∃ place : Place, p = place.fill m ∧ off = o + place.before.length ∧ m.isAssignment key = true ∧
      ∀ m', m'.isAssignment key = true → ∃ after',
        assignments key (place.fill m') o = before ++ (off, m') :: after' ∧
          after'.map Prod.snd = after.map Prod.snd := by
  induction p generalizing o before after with
  | word name => exact absurd h.symm (by simp [assignments])
  | string body => exact absurd h.symm (by simp [assignments])
  | number digits => exact absurd h.symm (by simp [assignments])
  | member k before' after' content ih =>
    rw [assignments] at h
    split at h
    · next hassignment =>
      obtain ⟨rfl, rfl, rfl, rfl⟩ : before = [] ∧ off = o ∧ m = .member k before' after' content ∧
          after = [] := by
        rcases List.append_eq_singleton_iff.mp h.symm with ⟨hb, hf⟩ | ⟨-, hf⟩
        · obtain ⟨hf, ha⟩ := List.cons.inj hf
          exact ⟨hb, congrArg Prod.fst hf, congrArg Prod.snd hf, ha⟩
        · cases hf
      refine ⟨.here, rfl, rfl, hassignment, fun m' hm' => ⟨[], ?_, rfl⟩⟩
      cases m' with
      | member k' b' a' c' => exact if_pos hm'
      | _ => cases hm'
    · next hnot =>
      obtain ⟨place, rfl, hoff, hm, hplace⟩ := ih h
      refine ⟨.inMember k before' after' place, rfl, ?_, hm, fun m' hm' => ?_⟩
      · rw [hoff, valueStart, Place.before]
        simp only [List.length_append, Nat.add_assoc]
      · have hobject := isObject_fill place
          ((isObject_of_isAssignment hm').trans (isObject_of_isAssignment hm).symm)
        obtain ⟨after'', hafter, hsame⟩ := hplace m' hm'
        refine ⟨after'', ?_, hsame⟩
        rw [isAssignment, ← hobject] at hnot
        rw [Place.fill, assignments]
        exact (if_neg hnot).trans hafter
  | group bracket items trail ih =>
    rw [assignments] at h
    obtain ⟨front, gap, lead, q, back, before', after', rfl, rfl, hq, rfl⟩ := exists_item h
    obtain ⟨place, rfl, hoff, hm, hplace⟩ :=
      ih ⟨gap, lead, q⟩ (List.mem_append_right front List.mem_cons_self) hq
    refine ⟨.inGroup bracket front gap lead place back trail, rfl, ?_, hm, fun m' hm' => ?_⟩
    · rw [hoff, Place.before]
      simp only [List.length_append, List.length_cons]
      omega
    · obtain ⟨after'', hafter, hsame⟩ := hplace m' hm'
      refine ⟨after'' ++ assignmentsOf key [','] (o + 1 + (renderItems [] front).length
        + (gap ++ separatorAfter [] front ++ lead).length + (place.fill m').render.length) back, ?_, ?_⟩
      · rw [Place.fill, assignments, assignmentsOf_append, assignmentsOf, hafter]
        simp only [List.append_assoc, List.cons_append]
      · rw [List.map_append, List.map_append, hsame, map_snd_assignmentsOf]

end Phrase

end SlotEdit.Json
