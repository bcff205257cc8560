import Mathlib
import SlotEdit.Proofs.Template.Passes
import SlotEdit.Proofs.Json.Refusals

/-!
# Proofs/Template/Committing — what was put into a slot is read back, and nothing else changes

A committed value replaces the value of the last property with the key or adds a property
(`exists_commit`).  The text that comes out has a tree again, its object holds the value, and all
other slots and fragments are what they were (`commit_put_get`).
-/

namespace SlotEdit

open Json Json.Phrase

namespace Template

/-- A template that puts blanks only between and before what it inserts. -/
structure InsertsBlanks (t : Template) : Prop where
  indentation : ∀ s ∈ t.settings.indentation, BlankText s
  lineBreak : Spaces t.settings.lineBreak.toList

variable {t : Template} {key : String} {d : Document} {w : Whole} {i : Nat} {s : Nat × Phrase}
  {k : String} {v : Value}

theorem serialize_json [Interpreter] (hv : v.IsJson) (hfits : v.FitsWithin nestingLimit) :
    Valuator.json.serialize v = .ok (.str (String.ofList (ofValue v).render)) := by
  rw [Valuator.serialize, (encode_eq_ok hv).mpr ⟨hfits, rfl⟩]
  exact congrArg Except.ok (Value.ofText_ofString _)

theorem deserialize_json [Interpreter] (hv : v.IsJson) (hfits : v.FitsWithin nestingLimit) :
    Valuator.json.deserialize (String.ofList (ofValue v).render) = .ok v := by
  rw [Valuator.deserialize, decode_encode hv ((encode_eq_ok hv).mpr ⟨hfits, rfl⟩)]
  rfl

theorem commit_of_lookup [Interpreter] {b : Bound} {h : Handle} {valuator : Valuator}
    (hk : t.specification.lookup k = some valuator)
    (hb : t.boundOf h = .ok b) : t.commit h k v =
    match findSlot? b.slots k with
    | some slot => (slot.commit v).mapError TemplateFault.value
    | none => (valuator.serialize v).mapError TemplateFault.value >>= fun text => t.insertionEdit b.fragment k text := by
  rw [commit, hk, hb]
  rfl

theorem commit_eq [Interpreter] {b : Bound} {h : Handle} (hk : (k, .json) ∈ t.specification)
    (hdistinct : (t.specification.map Prod.fst).Nodup) (hb : t.boundOf h = .ok b) : t.commit h k v =
    match findSlot? b.slots k with
    | some slot => (slot.commit v).mapError TemplateFault.value
    | none => (Valuator.json.serialize v).mapError TemplateFault.value >>= fun text =>
        t.insertionEdit b.fragment k text :=
  commit_of_lookup (lookup_of_mem hdistinct hk) hb

theorem delete_eq {b : Bound} {h : Handle} {k : String} (hb : t.boundOf h = .ok b) : t.delete h k =
    match findSlot? b.slots k with
    | some slot => t.deletionEdit b.fragment slot
    | none => pure none := by
  rw [delete, hb]
  rfl

/-- A slot that is there is given the value. -/
theorem commit_of_slot [Interpreter] {b : Bound} {slot : Slot} {h : Handle} (hk : (k, .json) ∈ t.specification)
    (hdistinct : (t.specification.map Prod.fst).Nodup) (hb : t.boundOf h = .ok b)
    (hslot : findSlot? b.slots k = some slot) (hjson : slot.valuator = .json) {raw : String}
    (hserialize : Valuator.json.serialize v = .ok (.str raw)) :
    t.commit h k v = .ok (.replace slot.range (.str raw)) := by
  rw [commit_eq hk hdistinct hb, hslot]
  show (slot.commit v).mapError TemplateFault.value = _
  rw [Slot.commit, hjson, hserialize]
  rfl

/-- A slot that is missing is added to the object of the fragment. -/
theorem commit_of_none [Interpreter] {b : Bound} {object : Node} {h : Handle} (hsubject : t.subject = objectsOf key)
    (hk : (k, .json) ∈ t.specification) (hdistinct : (t.specification.map Prod.fst).Nodup)
    (hb : t.boundOf h = .ok b) (hslot : findSlot? b.slots k = none)
    (hobject : Shape.jsonObject.check b.fragment = .ok object) {raw : String}
    (hserialize : Valuator.json.serialize v = .ok (.str raw)) :
    t.commit h k v = .ok (Json.insertionEdit b.fragment.document object k raw t.settings.indentation
      t.settings.lineBreak) := by
  rw [commit_eq hk hdistinct hb, hslot, hserialize]
  show t.insertionEdit b.fragment k _ = _
  rw [insertionEdit, hsubject]
  show ((Shape.jsonObject.check b.fragment).mapError TemplateFault.shape >>= fun object => _) = _
  rw [hobject]
  rfl

/-- **A text and the one with a key set in it**, to a phrase, in the object that is assigned at an
index; all other objects stay where they are. -/
inductive SetIn (key : String) (i : Nat) (k : String) (p : Phrase) (w : Whole) : Whole → Prop
  | intro {place : Place} {name gap lead trail : List Char} {items items' : List (Item Phrase)}
      (hphrase : w.phrase = place.fill (.group .object items trail)) (hsets : Sets k p items items')
      (hfound : (assigned key w)[i]? = some (.member name gap lead (.group .object items trail)))
      (hother : assigned key (w.holding (place.fill (.group .object items' trail))) =
        (assigned key w).set i (.member name gap lead (.group .object items' trail))) :
      SetIn key i k p w (w.holding (place.fill (.group .object items' trail)))

/-- **A commit is one edit** that sets the key in the object, to what the value is written as. -/
theorem exists_commit [Interpreter] (ht : t.OfObjects key) (hblank : t.InsertsBlanks) (h : t.Saw key d w)
    (hs : (assignments key w.phrase w.start)[i]? = some s) (hk : k ∈ t.specification.map Prod.fst) {p : Phrase}
    (hserialize : Valuator.json.serialize v = .ok (.str (String.ofList p.render))) :
    ∃ edit w', t.commit ⟨t.pass, i⟩ k v = .ok edit ∧ SetIn key i k p w w' ∧
      edited d [edit] = .ok (String.ofList w'.text) := by
  obtain ⟨place, name, gap, lead, items, trail, hm, hphrase, hnode, hother⟩ := exists_object hs
  have htext := h.text.trans (Whole.text_fill hphrase)
  have hmembers := isMember_of_shaped (Place.shaped_of_fill (hphrase ▸ h.shaped.phrase))
  have hfound : (assigned key w)[i]? = some (.member name gap lead (.group .object items trail)) := by
    rw [assigned, List.getElem?_map, hs, ← hm]
    rfl
  obtain ⟨⟨k, valuator⟩, hmem, rfl⟩ := List.mem_map.mp hk
  obtain rfl : valuator = .json := ht.json _ hmem
  have hslot := findSlot?_boundAt (d := d) ht.distinct hmem s
  rw [hnode] at hslot
  obtain ⟨edit, items', hcommit, hsets, hedited⟩ : ∃ edit items', t.commit ⟨t.pass, i⟩ k v = .ok edit ∧
      Sets k p items items' ∧ edited d [edit] = .ok (String.ofList ((w.mark ++ w.lead ++ place.before) ++
        (Phrase.group .object items' trail).render ++ (place.behind ++ w.trail))) := by
    cases hlast : lastMember? k items with
    | some m =>
      obtain ⟨xs, gap, lead, ys, rfl, hkey, hback⟩ := exists_of_lastMember? hlast
      obtain ⟨key', before, after, old, rfl⟩ :=
        exists_member (hmembers ⟨gap, lead, m⟩ (List.mem_append_right xs List.mem_cons_self))
      rw [propertyValue?_eq_some hkey hback] at hslot
      exact ⟨_, _, commit_of_slot hmem ht.distinct (h.boundOf_eq hs) hslot rfl hserialize,
        .replaced xs ys gap lead key' before after old hkey hback, edited_replacement htext⟩
    | none =>
      rw [property?_eq_none (lastMember?_eq_none.mp hlast)] at hslot
      obtain ⟨layout, hlayout, hedited⟩ :=
        exists_edited_insertion htext k p hblank.indentation hblank.lineBreak
      rw [← hnode] at hedited
      exact ⟨_, _, commit_of_none ht.subject hmem ht.distinct (h.boundOf_eq hs) hslot
          (check_eq (isAssignment_of_mem (List.mem_of_getElem? hs))) hserialize,
        .appended items layout hlayout (lastMember?_eq_none.mp hlast), hedited⟩
  refine ⟨edit, _, hcommit, .intro hphrase hsets hfound (hother items' trail), ?_⟩
  rw [Whole.text_fill (w := w.holding (place.fill (.group .object items' trail))) rfl]
  exact hedited

theorem serialize_json_eq_ok [Interpreter] {written : Value} :
    Valuator.json.serialize v = .ok written ↔ ∃ text, encode v = .ok text ∧ written = .ofText text := by
  rw [Valuator.serialize]
  cases encode v with
  | ok text => simp [eq_comm]
  | error fault => cases fault <;> simp

/-- **Whatever value a slot is given**, the edit ends with the value as it is written; a half stands in front of it
only if the indentation has one. -/
theorem exists_of_commit_eq_ok [Interpreter] (ht : t.OfObjects key) (h : t.Saw key d w)
    (hs : (assignments key w.phrase w.start)[i]? = some s) {edit : TextEdit}
    (hcommit : t.commit ⟨t.pass, i⟩ k v = .ok edit) :
    ∃ text front : LooseText, encode v = .ok text ∧ edit.text = .ofText (front ++ text) ∧
      (front.toString? = none → ∃ s ∈ t.settings.indentation, s.toString? = none) := by
  rw [commit, h.boundOf_eq hs] at hcommit
  split at hcommit
  · cases hcommit
  next valuator hlookup =>
  obtain rfl : valuator = .json := by
    obtain ⟨front, back, hspec, -⟩ := List.lookup_eq_some_iff.mp hlookup
    exact ht.json (k, valuator) (hspec ▸ List.mem_append_right front List.mem_cons_self)
  obtain ⟨b, hb, hcommit⟩ := bind_eq_ok.mp hcommit
  obtain rfl := Except.ok.inj hb
  split at hcommit
  · next slot hslot =>
    have hjson : slot.valuator = .json := by
      obtain ⟨e, he, hmake⟩ := List.mem_filterMap.mp (List.mem_of_find?_eq_some hslot)
      obtain ⟨n, -, rfl⟩ := Option.map_eq_some_iff.mp hmake
      exact ht.json e he
    rw [mapError_eq_ok, Slot.commit, hjson] at hcommit
    obtain ⟨written, hwritten, rfl⟩ := map_eq_ok.mp hcommit
    obtain ⟨text, htext, rfl⟩ := serialize_json_eq_ok.mp hwritten
    exact ⟨text, "", htext, rfl, nofun⟩
  · obtain ⟨written, hwritten, hinsert⟩ := bind_eq_ok.mp hcommit
    obtain ⟨text, htext, rfl⟩ := serialize_json_eq_ok.mp (mapError_eq_ok.mp hwritten)
    rw [insertionEdit, ht.subject, objectsOf] at hinsert
    obtain ⟨object, -, hinsert⟩ := bind_eq_ok.mp hinsert
    obtain ⟨text', hplain, hinsert⟩ := bind_eq_ok.mp hinsert
    obtain rfl := Except.ok.inj hinsert
    obtain rfl := Except.ok.inj ((Value.written_ofText text).symm.trans (mapError_eq_ok.mp hplain))
    obtain ⟨front, hfront⟩ := exists_text_insertionEdit (boundAt d t.specification s).fragment.document object k text
      t.settings.indentation t.settings.lineBreak
    exact ⟨text, front, htext, hfront⟩

/-- An editor with one edit waiting applies it. -/
theorem apply_add {ω : Type} {e : Editor ω} {edit : TextEdit} {content : String} (hpending : e.pending = [])
    (h : edited e.document [edit] = .ok content) : (e.add edit).apply =
      .ok (⟨e.document.withContent content, [], e.observers⟩, ⟨1, e.observers⟩) := by
  obtain ⟨document, pending, observers⟩ := e
  obtain rfl : pending = [] := hpending
  show (edited document [edit] >>= fun content => _) = _
  rw [h]
  rfl

/-! ## What the next pass finds -/

section Next

variable {t' : Template} {d' : Document} {w' : Whole} {m m' : Phrase}

theorem rawValue?_of_sets {items items' : List (Item Phrase)} {p : Phrase} (hsets : Sets k p items items') :
    rawValue? k items' = some (String.ofList p.render) := by
  obtain ⟨m, hm, rfl⟩ := Option.map_eq_some_iff.mp hsets.lastMember?_self
  rw [rawValue?, hm]
  rfl

theorem rawValue?_of_ne {items items' : List (Item Phrase)} {p : Phrase} (hsets : Sets k p items items')
    {k' : String} (hne : k' ≠ k) : rawValue? k' items' = rawValue? k' items := by
  rw [rawValue?, rawValue?, hsets.lastMember?_of_ne hne]

/-- The slot of a set key reads the value; every other slot reads what it read. -/
theorem readingOf_of_sets [Interpreter] (h : t.Saw key d w) (h' : t'.Saw key d' w')
    (hspec : t'.specification = t.specification) (ht : t.OfObjects key)
    (hm : (assigned key w)[i]? = some m) (hm' : (assigned key w')[i]? = some m')
    (hsets : Sets k (ofValue v) m.properties m'.properties) (hk : (k, .json) ∈ t.specification)
    (hv : Valuator.json.deserialize (String.ofList (ofValue v).render) = .ok v) :
    t'.readingOf ⟨t'.pass, i⟩ k = .ok (some (.ok v)) ∧
      ∀ k' ≠ k, t'.readingOf ⟨t'.pass, i⟩ k' = t.readingOf ⟨t.pass, i⟩ k' := by
  have hdistinct := ht.distinct
  constructor
  · rw [h'.readingOf_eq (hspec ▸ hdistinct) hm', hspec, lookup_of_mem hdistinct hk, Option.bind_some,
      rawValue?_of_sets hsets, Option.map_some, hv]
  · intro k' hne
    rw [h'.readingOf_eq (hspec ▸ hdistinct) hm', h.readingOf_eq hdistinct hm, hspec,
      rawValue?_of_ne hsets hne]

/-- The values of the object are the old ones with the key set. -/
theorem valuesOf_of_sets [Interpreter] (h : t.Saw key d w) (h' : t'.Saw key d' w')
    (hspec : t'.specification = t.specification) (ht : t.OfObjects key)
    (hm : (assigned key w)[i]? = some m) (hm' : (assigned key w')[i]? = some m')
    (hsets : Sets k (ofValue v) m.properties m'.properties) (hk : (k, .json) ∈ t.specification)
    (hv : Valuator.json.deserialize (String.ofList (ofValue v).render) = .ok v)
    {values : List (String × Value)} (hvalues : t.valuesOf ⟨t.pass, i⟩ = .ok values) :
    ∃ values', t'.valuesOf ⟨t'.pass, i⟩ = .ok values' ∧ values'.lookup k = some v ∧
      ∀ k' ≠ k, values'.lookup k' = values.lookup k' := by
  have hold : valuesIn t.specification m.properties = .ok values := by
    rw [h.valuesOf_eq, hm] at hvalues
    exact hvalues
  obtain ⟨values', hnew⟩ : ∃ values', valuesIn t.specification m'.properties = .ok values' := by
    refine exists_valuesIn_iff.mpr fun e he raw hraw => ?_
    by_cases hkey : e.1 = k
    · obtain ⟨k', valuator⟩ := e
      obtain rfl : k' = k := hkey
      obtain rfl : valuator = .json := ht.json _ he
      rw [rawValue?_of_sets hsets, Option.mem_some] at hraw
      exact ⟨v, hraw ▸ hv⟩
    · rw [rawValue?_of_ne hsets hkey] at hraw
      exact exists_valuesIn_iff.mp ⟨values, hold⟩ e he raw hraw
  refine ⟨values', ?_, ?_, fun k' hne => ?_⟩
  · rw [h'.valuesOf_eq, hm', hspec]
    exact hnew
  · rw [lookup_valuesIn ht.distinct hnew, lookup_of_mem ht.distinct hk, Option.bind_some,
      rawValue?_of_sets hsets, Option.bind_some, hv]
    rfl
  · rw [lookup_valuesIn ht.distinct hnew, lookup_valuesIn ht.distinct hold, rawValue?_of_ne hsets hne]

end Next

namespace SetIn

variable {p : Phrase} {w' : Whole}

/-- **The text keeps having a tree** when it is given a well-formed phrase, unless it then nests too deep. -/
theorem sound [Interpreter] (h : SetIn key i k p w w') (hw : w.Sound) (hp : p.Shaped) (hvalue : p.isMember = false)
    (hread : p.Readable) (hdepth : nesting w'.text ≤ treeFrames) : w'.Sound := by
  obtain ⟨hphrase, hsets, -, -⟩ := h
  exact hw.holding hphrase (hsets.shaped (Place.shaped_of_fill (hphrase ▸ hw.phrase)) hp hvalue)
    (hsets.readable (Place.readable_of_fill (hphrase ▸ hw.readable)) hread) rfl hdepth

/-- The object before and after. -/
theorem exists_object (h : SetIn key i k p w w') : ∃ m m', (assigned key w)[i]? = some m ∧
    assigned key w' = (assigned key w).set i m' ∧ (assigned key w')[i]? = some m' ∧
      Sets k p m.properties m'.properties := by
  obtain ⟨-, hsets, hfound, hother⟩ := h
  refine ⟨_, _, hfound, hother, ?_, hsets⟩
  rw [hother, List.getElem?_set_self (List.getElem?_eq_some_iff.mp hfound).1]

/-- What is over the tokens of values stays so. -/
theorem over_written [Interpreter] (h : SetIn key i k p w w') (hw : w.Sound) (hp : p.Over .written)
    (hvalue : p.isMember = false) :
    w'.Over .written := by
  have hold := (Whole.sound_iff_over.mp hw).1.of_bare parsed_sub_written trivial
  obtain ⟨hphrase, hsets, -, -⟩ := h
  have hover := hold.phrase
  have hkind := hold.isValue
  rw [hphrase] at hover hkind
  refine ⟨hold.mark, hold.lead, Place.over_fill hover (hsets.over_written (over_of_fill hover) hp hvalue) rfl, ?_, hold.trail⟩
  rw [← hkind]
  exact Place.isMember_fill _ rfl

theorem bare_infix (h : SetIn key i k p w w') : p.bare <:+: w'.phrase.bare := by
  obtain ⟨-, hsets, -, -⟩ := h
  exact (hsets.bare_infix _).trans (Place.bare_infix_fill _ _)

/-- **The text keeps having a tree** when the key is set to a value whose numbers the grammar has a form for. -/
theorem sound_of_strict [Interpreter] (h : SetIn key i k (ofValue v) w w') (hw : w.Sound) (hv : v.IsPlain)
    (hfits : v.Fits)
    (hstrict : v.Strict) (hdepth : nesting w'.text ≤ treeFrames) : w'.Sound :=
  h.sound hw (shaped_of_strict hv hstrict) (isMember_ofValue v) (readable_of_strict hv hfits hstrict) hdepth

/-- **It has none any more** when the grammar has no form for one of them. -/
theorem strict_of_ofText [Interpreter] (h : SetIn key i k (ofValue v) w w') (hw : w.Sound) (hv : v.IsPlain)
    (hfits : v.Fits)
    {text : String} (htext : text.toList = w'.text) {root : Node} (hroot : Json.ofText text = .ok root) : v.Strict := by
  by_contra hstrict
  obtain ⟨c, hc, hrefused⟩ := exists_refused hv hstrict
  have hover := h.over_written hw (over_ofValue hv hfits) (isMember_ofValue v)
  exact Bool.false_ne_true ((not_refused_of_ofText hover htext hroot h.bare_infix c hc).symm.trans hrefused)

end SetIn

/-- **JSON put-get with frame.**  In a text with a tree, each fragment of a pass takes every JSON
value that can be written for every declared key; applied by an editor, the commit gives a text that,
unless it nests too deep, has a tree again.  The next pass finds as many fragments; the key of the fragment reads the
value; every other slot, and the values of every other fragment, are what they were; and the key is
set in the property list of the object. -/
theorem commit_put_get [Interpreter] (ht : t.OfObjects key) (hblank : t.InsertsBlanks) {root : Node}
    (hgrammar : d.language.grammar = some .json) (hparse : Json.ofText d.content = .ok root) :
    ∃ pass, t.compute d = .ok pass ∧ ∀ i < pass.handles.length, ∀ k ∈ t.specification.map Prod.fst,
      ∀ v : Value, v.IsJson → v.FitsWithin nestingLimit → ∀ {ω : Type} (e : Editor ω), e.document = d → e.pending = [] →
      ∃ edit e' applied, pass.commit ⟨pass.pass, i⟩ k v = .ok edit ∧
        (e.add edit).apply = .ok (e', applied) ∧
        (nesting e'.document.content.toList ≤ treeFrames →
          ∃ root' next, Json.ofText e'.document.content = .ok root' ∧
            pass.compute e'.document = .ok next ∧
            next.handles.length = pass.handles.length ∧
            next.readingOf ⟨next.pass, i⟩ k = .ok (some (.ok v)) ∧
            (∀ k' ≠ k, next.readingOf ⟨next.pass, i⟩ k' = pass.readingOf ⟨pass.pass, i⟩ k') ∧
            (∀ values, pass.valuesOf ⟨pass.pass, i⟩ = .ok values →
              ∃ values', next.valuesOf ⟨next.pass, i⟩ = .ok values' ∧ values'.lookup k = some v ∧
                ∀ k' ≠ k, values'.lookup k' = values.lookup k') ∧
            (∀ j ≠ i, next.valuesOf ⟨next.pass, j⟩ = pass.valuesOf ⟨pass.pass, j⟩) ∧
            ∃ es es', pass.properties? i = some es ∧ next.properties? i = some es' ∧
              Put (.str k) v es es') := by
  obtain ⟨w, hw, htext, -⟩ := ofText_eq_ok.mp hparse
  refine ⟨_, compute_eq ht.subject hgrammar hw htext, ?_⟩
  generalize hpass : t.after d (assignments key w.phrase w.start) = pass
  have hsaw : pass.Saw key d w := ⟨hw.toShaped, htext, hpass ▸ rfl⟩
  have hobjects : pass.OfObjects key := hpass ▸ ⟨ht.subject, ht.distinct, ht.json⟩
  have hblanks : pass.InsertsBlanks := hpass ▸ ⟨hblank.indentation, hblank.lineBreak⟩
  have hspec : t.specification = pass.specification := hpass ▸ rfl
  intro i hi k hk v hv hfits ω e he hpending
  subst he
  rw [hsaw.length_handles] at hi
  rw [hspec] at hk
  obtain ⟨s, hs⟩ : ∃ s, (assignments key w.phrase w.start)[i]? = some s :=
    ⟨_, List.getElem?_eq_getElem (by rwa [assigned, List.length_map] at hi)⟩
  obtain ⟨edit, w', hcommit, hset, hedited⟩ :=
    exists_commit hobjects hblanks hsaw hs hk (serialize_json hv hfits)
  refine ⟨edit, _, _, hcommit, apply_add hpending hedited, fun hdepth => ?_⟩
  have htext' : (e.document.withContent (String.ofList w'.text)).content.toList = w'.text := String.toList_ofList
  have hsound := hset.sound hw (shaped_ofValue hv) (isMember_ofValue v) (readable_ofValue hv hfits.1) (htext' ▸ hdepth)
  obtain ⟨next, hnext, hspec', hset', hsaw'⟩ := exists_recompute hobjects.subject hgrammar hsound htext'
  obtain ⟨m, m', hfound, hlist', hfound', hsets⟩ := hset.exists_object
  have hdecode := deserialize_json hv hfits
  obtain ⟨⟨k, valuator⟩, hmem, rfl⟩ := List.mem_map.mp hk
  obtain rfl : valuator = .json := hobjects.json _ hmem
  obtain ⟨hreading, hothers⟩ :=
    readingOf_of_sets hsaw hsaw' hspec' hobjects hfound hfound' hsets hmem hdecode
  refine ⟨_, next, ofText_eq_ok.mpr ⟨_, hsound, htext', rfl⟩, hnext, ?_, hreading, hothers, ?_, ?_, ?_⟩
  · rw [hsaw'.length_handles, hsaw.length_handles, hlist', List.length_set]
  · exact fun values hvalues =>
      valuesOf_of_sets hsaw hsaw' hspec' hobjects hfound hfound' hsets hmem hdecode hvalues
  · intro j hj
    rw [hsaw'.valuesOf_eq, hsaw.valuesOf_eq, hspec', hset', hlist', List.getElem?_set_ne hj.symm]
  · exact ⟨_, _, hsaw.properties?_eq hfound, hsaw'.properties?_eq hfound', value_ofValue hv hfits.1 ▸ hsets.put⟩

/-- A list put in the place of a text. -/
theorem commit_put_get_replaced : ∃ (t pass next : Template) (d : Document) (e : Editor Unit),
    t.compute d = .ok pass ∧
    pass.commit ⟨pass.pass, 0⟩ "a" (.list [.bool true]) =
      .ok (.replace (.between ⟨0, 12⟩ ⟨0, 15⟩) (.str "[true]")) ∧
    e.document.content = "\x7b\"m\": \x7b\"a\": [true]\x7d\x7d" ∧ pass.compute e.document = .ok next ∧
    next.readingOf ⟨next.pass, 0⟩ "a" = .ok (some (.ok (.list [.bool true]))) ∧
    next.readingOf ⟨next.pass, 0⟩ "b" = pass.readingOf ⟨pass.pass, 0⟩ "b" := by
  let t : Template := .ofSubject (objectsOf "m") [("a", .json), ("b", .json)] (.named "marks")
  let d : Document := ⟨"\x7b\"m\": \x7b\"a\": \"x\"\x7d\x7d", ⟨"JSON", "json", "json", some .json⟩⟩
  let w : Whole := ⟨[], [], ofValue (.dict [(.str "m", .dict [(.str "a", .str "x")])]), []⟩
  have hx : (Value.dict [(.str "a", .str "x")]).IsJson :=
    @Value.IsJson.dict [("a", .str "x")] (by decide) (List.forall_mem_singleton.mpr (.str "x"))
  have hw : w.Sound := sound_ofValue (@Value.IsJson.dict [("m", .dict [(.str "a", .str "x")])] (by decide)
    (List.forall_mem_singleton.mpr hx)) (fun n hn => absurd hn List.not_mem_nil) (by decide)
  have htext : d.content.toList = w.text := by cbv
  have ht : t.OfObjects "m" := ⟨rfl, by decide, by decide⟩
  have hblank : t.InsertsBlanks :=
    ⟨fun s hs => absurd hs (Option.some_ne_none s).symm, List.all_eq_true.mp (show "\n".toList.all isSpace = true from rfl)⟩
  obtain ⟨pass, hpass, h⟩ := commit_put_get (d := d) ht hblank rfl (ofText_eq_ok.mpr ⟨w, hw, htext, rfl⟩)
  obtain rfl := Except.ok.inj ((compute_eq ht.subject rfl hw htext).symm.trans hpass)
  obtain ⟨edit, e', applied, hcommit, happly, hnext⟩ := h 0 (by cbv) "a" (by decide) (.list [.bool true])
    (.list (List.forall_mem_singleton.mpr (.bool true))) ⟨fun n hn => absurd hn List.not_mem_nil, by decide⟩
    (.ofDocument d : Editor Unit) rfl rfl
  have hedit : (t.after d (assignments "m" w.phrase w.start)).commit ⟨1, 0⟩ "a" (.list [.bool true]) =
      .ok (.replace (.between ⟨0, 12⟩ ⟨0, 15⟩) (.str "[true]")) := by cbv
  obtain rfl := Except.ok.inj (hedit.symm.trans hcommit)
  have hedited : edited d [.replace (.between ⟨0, 12⟩ ⟨0, 15⟩) (.str "[true]")] =
      .ok "\x7b\"m\": \x7b\"a\": [true]\x7d\x7d" := by cbv
  obtain ⟨rfl, -⟩ := Prod.mk.inj (Except.ok.inj ((apply_add (e := .ofDocument d) rfl hedited).symm.trans happly))
  obtain ⟨-, next, -, hcompute, -, hread, hothers, -⟩ := hnext (by cbv)
  exact ⟨t, _, next, d, _, hpass, hcommit, rfl, hcompute, hread, hothers "b" (by decide)⟩

end Template

end SlotEdit
