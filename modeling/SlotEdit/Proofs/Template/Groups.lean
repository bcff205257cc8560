import SlotEdit.Template.Template
import SlotEdit.Proofs.Results

/-!
# Proofs/Template/Groups — slots that are groups of a regular expression

The slot of a key is the group of that name of a match (`findSlot?_groups`), and the edit that
gives it a value replaces the group (`commit_groups`).
-/

namespace SlotEdit.Template

variable {f : Regex.Finder} {spec : SlotSpecification} {settings : Settings} {d : Document} {t : Template}
  {key : String}

/-- **The slot of a key** is the group of that name, read as the specification says. -/
theorem findSlot?_groups (fragment : Fragment) (spec : SlotSpecification) (key : String) :
    findSlot? (spec.filterMap fun e => (fragment.group? e.1).map fun g => ⟨e.1, g.value, g.range, e.2⟩) key =
      (fragment.group? key).bind fun g => (spec.lookup key).map fun v => ⟨key, g.value, g.range, v⟩ := by
  induction spec with
  | nil => cases fragment.group? key <;> rfl
  | cons e rest ih =>
    obtain ⟨k, v⟩ := e
    rw [findSlot?] at ih ⊢
    rw [List.lookup_cons]
    cases hkey : key == k with
    | true =>
      obtain rfl := beq_iff_eq.mp hkey
      cases hgroup : fragment.group? key with
      | none =>
        rw [List.filterMap_cons_none (by rw [hgroup]; rfl), ih, hgroup]
        rfl
      | some g =>
        rw [List.filterMap_cons_some (by rw [hgroup]; rfl)]
        exact List.find?_cons_of_pos (beq_iff_eq.mpr rfl)
    | false =>
      cases hgroup : fragment.group? k with
      | none => rw [List.filterMap_cons_none (by rw [hgroup]; rfl), ih]
      | some g =>
        have hne : k ≠ key := fun heq => (beq_eq_false_iff_ne.mp hkey) heq.symm
        rw [List.filterMap_cons_some (by rw [hgroup]; rfl), List.find?_cons_of_neg (by simpa using hne), ih]

/-- The groups of a fragment are those of a match, and there are none in an empty text. -/
theorem group?_of_getElem? {i : Nat} {fragment : Fragment} (h : (f.fragments d)[i]? = some fragment) :
    d.content ≠ "" ∧ ∃ m, (f.findAll d.content)[i]? = some m ∧ ∀ key, fragment.group? key =
      (m.groups.find? fun g => g.name == key).map fun g =>
        ⟨g.name, slice d.content g.span.start g.span.stop, d.lines.rangeOf g.span.start g.span.stop⟩ := by
  rw [Regex.Finder.fragments] at h
  split at h
  · cases h
  · next hempty =>
    rw [List.getElem?_map] at h
    obtain ⟨m, hm, rfl⟩ := Option.map_eq_some_iff.mp h
    refine ⟨fun heq => hempty (by rw [Document.isEmpty, heq]; rfl), m, hm, fun key => ?_⟩
    rw [Fragment.group?, Fragment.groups, List.find?_map]
    rfl

/-- **Giving a slot a value** replaces the group of the key in a match. -/
theorem commit_groups [Interpreter] {pass : Template}
    (hcompute : (ofSubject (.groups f) spec settings).compute d = .ok pass)
    {i : Nat} {h : Handle} (hi : pass.handles[i]? = some h) {v : Value} {edit : TextEdit}
    (hcommit : pass.commit h key v = .ok edit) :
    d.content ≠ "" ∧ ∃ m group valuator written, (f.findAll d.content)[i]? = some m ∧
      (m.groups.find? fun g => g.name == key) = some group ∧ spec.lookup key = some valuator ∧
      valuator.serialize v = .ok written ∧
      edit = .replace (d.lines.rangeOf group.span.start group.span.stop) written := by
  obtain rfl := Except.ok.inj hcompute
  rw [handles, List.getElem?_map] at hi
  obtain ⟨j, hj, rfl⟩ := Option.map_eq_some_iff.mp hi
  obtain ⟨hlt, rfl⟩ := List.getElem?_eq_some_iff.mp hj
  rw [List.length_range, List.length_map] at hlt
  obtain ⟨hcontent, m, hm, hgroup⟩ := group?_of_getElem? (List.getElem?_eq_getElem hlt)
  rw [commit] at hcommit
  split at hcommit
  · cases hcommit
  · next valuator hlookup =>
    obtain ⟨b, hb, hcommit⟩ := bind_eq_ok.mp hcommit
    have hget : ((f.fragments d).map fun fragment => Bound.mk fragment (spec.filterMap fun e =>
        (fragment.group? e.1).map fun g => ⟨e.1, g.value, g.range, e.2⟩))[i]? = some b := by
      rw [boundOf, List.getElem_range] at hb
      dsimp only at hb
      rw [if_pos rfl] at hb
      split at hb
      · next b' hb' => exact (Except.ok.inj hb) ▸ hb'
      · cases hb
    rw [List.getElem?_map, List.getElem?_eq_getElem hlt] at hget
    obtain rfl := Option.some.inj hget
    rw [findSlot?_groups, hgroup] at hcommit
    cases hfind : m.groups.find? fun g => g.name == key with
    | none =>
      rw [hfind] at hcommit
      obtain ⟨written, -, hcommit⟩ := bind_eq_ok.mp hcommit
      cases hcommit
    | some group =>
      have hlookup' : spec.lookup key = some valuator := hlookup
      rw [hfind, Option.map_some, Option.bind_some, hlookup', Option.map_some] at hcommit
      obtain ⟨written, hwritten, rfl⟩ := map_eq_ok.mp (mapError_eq_ok.mp hcommit)
      exact ⟨hcontent, m, group, valuator, written, hm, hfind, hlookup, hwritten, rfl⟩

end SlotEdit.Template
