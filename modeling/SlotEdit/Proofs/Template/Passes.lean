import SlotEdit.Template.Template
import SlotEdit.Proofs.Json.Nesting
import SlotEdit.Proofs.Json.Objects

/-!
# Proofs/Template/Passes — what a template of objects finds in a JSON text

A pass over a text with a tree never fails and binds one fragment for each object assigned to the
key (`compute_eq`).  The values of a fragment come from the text of its object and from nothing else
of the document (`valuesOf_eq`).
-/

namespace SlotEdit

open Json Json.Phrase

namespace Template

/-- **A template of the objects assigned to a key**, all slots of which are read as JSON. -/
structure OfObjects (t : Template) (key : String) : Prop where
  subject : t.subject = objectsOf key
  distinct : (t.specification.map Prod.fst).Nodup
  json : ∀ e ∈ t.specification, e.2 = .json

/-- The node of the object that is the value of a member at an offset. -/
def objectNode (s : Nat × Phrase) : Node :=
  match s.2 with
  | .member k before after content => content.node (valueStart k before after s.1)
  | p => p.node s.1

/-- What a pass binds for a member at an offset. -/
def boundAt (d : Document) (spec : SlotSpecification) (s : Nat × Phrase) : Bound :=
  ⟨Fragment.ofNode d d.lines (s.2.node s.1),
    slotsOfNodes d d.lines spec fun key => (property? (objectNode s) key).bind propertyValue?⟩

/-- The template after a pass over a document with some members that assign an object. -/
def after (t : Template) (d : Document) (found : List (Nat × Phrase)) : Template :=
  { t with pass := t.pass + 1, document := some d, bound := found.map (boundAt d t.specification) }

variable {key : String} {d : Document} {w : Whole}

/-- **A pass** keeps the template but for its document and what is found there. -/
theorem compute_eq_ok_iff [Interpreter] {t t' : Template} : t.compute d = .ok t' ↔ ∃ bound,
    t.subject.bound t.specification d = .ok bound ∧ { t with pass := t.pass + 1, document := some d, bound := bound } = t' := by
  rw [compute]
  cases t.subject.bound t.specification d <;> simp

/-- The fragment of an assigned object holds it. -/
theorem check_eq {s : Nat × Phrase} (h : s.2.isAssignment key = true) :
    Shape.jsonObject.check (.ofNode d d.lines (s.2.node s.1)) = .ok (objectNode s) := by
  obtain ⟨o, m⟩ := s
  obtain ⟨k, before, after, items, trail, rfl, -⟩ := exists_of_isAssignment h
  rfl

theorem isAssignment_of_mem {p : Phrase} {o : Nat} {s : Nat × Phrase} (h : s ∈ assignments key p o) :
    s.2.isAssignment key = true := by
  obtain ⟨before, after, heq⟩ := List.append_of_mem h
  obtain ⟨-, -, -, hm, -⟩ := exists_place heq
  exact hm

/-- A text with a phrase in it is not empty. -/
theorem isEmpty_eq_false (hw : w.Shaped) (htext : d.content.toList = w.text) : d.isEmpty = false := by
  have hne : d.content.toList ≠ [] := by
    rw [htext, Whole.text]
    exact List.append_ne_nil_of_right_ne_nil _ (List.append_ne_nil_of_right_ne_nil _
      (List.append_ne_nil_of_left_ne_nil (Grammar.render_ne_nil hw.phrase) _))
  rw [Document.isEmpty]
  exact Bool.eq_false_iff.mpr fun h => hne (by rw [String.isEmpty_iff.mp h]; rfl)

/-- A pass binds what its pattern finds. -/
theorem compute_of_fragments [Interpreter] {t : Template} (ht : t.subject = objectsOf key) {found : List (Nat × Phrase)}
    (hfound : ∀ s ∈ found, s.2.isAssignment key = true)
    (hfragments : (assignmentPattern key).fragments d = found.map fun s => .ofNode d d.lines (s.2.node s.1)) :
    t.compute d = .ok (t.after d found) := by
  have hheld : Subject.held .jsonObject (.tree (assignmentPattern key)) d =
      .ok (found.map fun s => (.ofNode d d.lines (s.2.node s.1), objectNode s)) := by
    rw [Subject.held, Provider.fragments, hfragments]
    refine (List.mapM_map).trans (mapM_eq_ok_of_forall fun s hs => ?_)
    rw [Function.comp_apply, check_eq (hfound s hs)]
    rfl
  have hbound : t.subject.bound t.specification d = .ok (found.map (boundAt d t.specification)) := by
    rw [ht]
    show (Subject.held .jsonObject (.tree (assignmentPattern key)) d >>= fun found => _) = _
    rw [hheld]
    exact congrArg Except.ok List.map_map
  rw [compute, hbound]
  rfl

/-- **A pass over a text with a tree** binds the objects assigned to the key. -/
theorem compute_eq [Interpreter] {t : Template} (ht : t.subject = objectsOf key)
    (hgrammar : d.language.grammar = some .json) (hw : w.Sound) (htext : d.content.toList = w.text) :
    t.compute d = .ok (t.after d (assignments key w.phrase w.start)) := by
  have hroot : (SyntaxTree.ofText .json d.content).root = w.root := by
    rw [SyntaxTree.ofText, SyntaxTree.ofTextBy, SlotEdit.Grammar.rootNodeBy_json, ofText_eq_ok.mpr ⟨w, hw, htext, rfl⟩]
    rfl
  refine compute_of_fragments ht (fun s hs => isAssignment_of_mem hs) ?_
  rw [TreePattern.fragments_eq, isEmpty_eq_false hw.toShaped htext, Document.syntaxTree?, hgrammar]
  simp only [Bool.false_eq_true, if_false, Option.map_some, hroot, Whole.root, findIn_node, List.map_map]
  rfl

/-- A pass over a text without a tree binds nothing. -/
theorem compute_of_error [Interpreter] {t : Template} (ht : t.subject = objectsOf key)
    (hgrammar : d.language.grammar = some .json) (hnone : ∀ root, Json.ofText d.content ≠ .ok root) :
    t.compute d = .ok (t.after d []) := by
  refine compute_of_fragments ht (fun s hs => nomatch hs) ?_
  rw [TreePattern.fragments_eq, Document.syntaxTree?, hgrammar, Option.map_some, SyntaxTree.ofText,
    SyntaxTree.ofTextBy, SlotEdit.Grammar.rootNodeBy_json]
  cases h : Json.ofText d.content with
  | ok root => exact absurd h (hnone root)
  | error fault =>
    have hfind (message : String) : (assignmentPattern key).findIn d.content
        (.mk (.error message) ⟨0, d.content.length⟩ []) = [] := by
      rw [TreePattern.findIn]
      rfl
    simp only [Except.mapError, hfind]
    split <;> rfl

/-! ## The values of a fragment -/

/-- The text of the value a key finds among some members. -/
def rawValue? (key : String) (items : List (Item Phrase)) : Option String :=
  (lastMember? key items).map fun m => String.ofList m.inner.render

/-- A value read from a text as a slot reads it. -/
def readRaw [Interpreter] (s : String × Valuator × String) : Except TemplateFault (String × Value) :=
  match s.2.1.deserialize s.2.2 with
  | .ok v => .ok (s.1, v)
  | .error fault => .error (.value fault)

/-- **The values of the slots** of an object with some members. -/
def valuesIn [Interpreter] (spec : SlotSpecification) (items : List (Item Phrase)) :
    Except TemplateFault (List (String × Value)) :=
  (spec.filterMap fun (key, v) => (rawValue? key items).map fun raw => (key, v, raw)).mapM readRaw

/-- The members of a text that assign an object to a key. -/
def assigned (key : String) (w : Whole) : List Phrase := (assignments key w.phrase w.start).map Prod.snd

/-- An element of a list, with what stands before and behind it. -/
theorem exists_append_of_getElem? {α : Type} {l : List α} {i : Nat} {a : α} (h : l[i]? = some a) :
    ∃ before after, l = before ++ a :: after ∧ before.length = i := by
  obtain ⟨hi, rfl⟩ := List.getElem?_eq_some_iff.mp h
  exact ⟨l.take i, l.drop (i + 1), by rw [List.getElem_cons_drop, List.take_append_drop], List.length_take_of_le hi.le⟩

/-- **An assigned object stands in a place**, and another one put there takes its place among the
assigned objects. -/
theorem exists_object {i : Nat} {s : Nat × Phrase} (hs : (assignments key w.phrase w.start)[i]? = some s) :
    ∃ (place : Place) (k gap lead : List Char) (items : List (Item Phrase)) (trail : List Char),
      s.2 = .member k gap lead (.group .object items trail) ∧
      w.phrase = place.fill (.group .object items trail) ∧
      objectNode s = (Phrase.group .object items trail).node (w.mark ++ w.lead ++ place.before).length ∧
      ∀ items' trail', assigned key (w.holding (place.fill (.group .object items' trail'))) =
        (assigned key w).set i (.member k gap lead (.group .object items' trail')) := by
  obtain ⟨front, back, hlist, rfl⟩ := exists_append_of_getElem? hs
  obtain ⟨o, m⟩ := s
  obtain ⟨place, hphrase, rfl, hm, hother⟩ := exists_place hlist
  obtain ⟨k, gap, lead, items, trail, rfl, hkey⟩ := exists_of_isAssignment hm
  refine ⟨place.into (.inMember k gap lead .here), k, gap, lead, items, trail, rfl, ?_, ?_, ?_⟩
  · rw [hphrase, Place.fill_into]
    rfl
  · have hstart : valueStart k gap lead (w.start + place.before.length) =
        (w.mark ++ w.lead ++ (place.into (.inMember k gap lead .here)).before).length := by
      rw [Place.before_into, valueStart, Place.before, Place.before, List.append_nil, Whole.start,
        ← List.length_append, ← List.length_append, List.append_assoc]
    exact congrArg (Phrase.group .object items trail).node hstart
  · intro items' trail'
    obtain ⟨after', hafter, hsame⟩ := hother (.member k gap lead (.group .object items' trail')) (by
      rw [isAssignment, hkey, beq_self_eq_true]
      rfl)
    rw [Place.fill_into, assigned, assigned]
    show (assignments key (place.fill (.member k gap lead (.group .object items' trail'))) w.start).map Prod.snd
      = _
    rw [hafter, hlist, List.map_append, List.map_append, List.map_cons, List.map_cons, hsame,
      List.set_append_right _ _ (Nat.le_of_eq (List.length_map _)), List.length_map, Nat.sub_self, List.set_cons_zero]

/-- The value node a key finds in an assigned object has the text of the value. -/
theorem map_text_node? (hw : w.Shaped) (htext : d.content.toList = w.text) {s : Nat × Phrase}
    (h : s ∈ assignments key w.phrase w.start) (k : String) :
    ((property? (objectNode s) k).bind propertyValue?).map (fun n => n.text d.content) =
      rawValue? k s.2.properties := by
  obtain ⟨i, hs⟩ := List.mem_iff_getElem?.mp h
  obtain ⟨place, k', gap, lead, items, trail, hm, hphrase, hnode, -⟩ := exists_object hs
  rw [hm, hnode]
  exact text_propertyValue? (isMember_of_shaped (Place.shaped_of_fill (hphrase ▸ hw.phrase)))
    (htext.trans (Whole.text_fill hphrase)) k

/-- What the slots of a fragment are read from. -/
theorem map_slots_boundAt (spec : SlotSpecification) (hw : w.Shaped) (htext : d.content.toList = w.text)
    {s : Nat × Phrase} (h : s ∈ assignments key w.phrase w.start) :
    (boundAt d spec s).slots.map (fun s => (s.key, s.valuator, s.raw)) =
      spec.filterMap fun (key, v) => (rawValue? key s.2.properties).map fun raw => (key, v, raw) := by
  rw [boundAt, slotsOfNodes, List.map_filterMap]
  refine List.filterMap_congr fun (k, v) _ => ?_
  simp only [← map_text_node? hw htext h, Option.map_map]
  rfl

/-- **The last pass of a template** was over a document with a text, for a key. -/
structure Saw (t : Template) (key : String) (d : Document) (w : Whole) : Prop where
  shaped : w.Shaped
  text : d.content.toList = w.text
  bound : t.bound = (assignments key w.phrase w.start).map (boundAt d t.specification)

variable {t : Template} {k : String}

theorem Saw.boundOf_eq (h : t.Saw key d w) {i : Nat} {s : Nat × Phrase}
    (hs : (assignments key w.phrase w.start)[i]? = some s) :
    t.boundOf ⟨t.pass, i⟩ = .ok (boundAt d t.specification s) := by
  rw [boundOf, if_pos rfl, h.bound, List.getElem?_map, hs]
  rfl

theorem Saw.length_handles (h : t.Saw key d w) :
    t.handles.length = (assigned key w).length := by
  rw [handles, List.length_map, List.length_range, h.bound, List.length_map, assigned, List.length_map]

/-- **The values of a fragment** are those in the members of its object. -/
theorem Saw.valuesOf_eq [Interpreter] (h : t.Saw key d w) (i : Nat) : t.valuesOf ⟨t.pass, i⟩ =
    match (assigned key w)[i]? with
    | some m => valuesIn t.specification m.properties
    | none => .error (.staleFragment t.settings.name) := by
  rw [valuesOf, slotsOf, assigned, List.getElem?_map]
  cases hs : (assignments key w.phrase w.start)[i]? with
  | none =>
    rw [boundOf, if_pos rfl, h.bound, List.getElem?_map, hs]
    rfl
  | some s =>
    rw [h.boundOf_eq hs]
    have hslots := map_slots_boundAt t.specification h.shaped h.text (List.mem_of_getElem? hs)
    show (boundAt d t.specification s).slots.mapM _ = valuesIn t.specification s.2.properties
    rw [valuesIn, ← hslots, List.mapM_map]
    rfl

theorem slotsOfNodes_cons (lines : LineTable) (k : String) (v : Valuator) (spec : SlotSpecification)
    (node? : String → Option Node) : slotsOfNodes d lines ((k, v) :: spec) node? =
      ((node? k).map (Slot.ofNode d lines k v)).toList ++ slotsOfNodes d lines spec node? := by
  rw [slotsOfNodes, List.filterMap_cons]
  dsimp only
  cases node? k <;> rfl

/-- The slot of a key is made of the node of the key. -/
theorem findSlot?_slotsOfNodes (lines : LineTable) {spec : SlotSpecification}
    (hdistinct : (spec.map Prod.fst).Nodup) {k : String} {v : Valuator} (hk : (k, v) ∈ spec)
    (node? : String → Option Node) :
    findSlot? (slotsOfNodes d lines spec node?) k = (node? k).map (Slot.ofNode d lines k v) := by
  induction spec with
  | nil => cases hk
  | cons e spec ih =>
    obtain ⟨k', v'⟩ := e
    rw [List.map_cons, List.nodup_cons] at hdistinct
    rw [slotsOfNodes_cons, findSlot?, List.find?_append]
    rcases List.mem_cons.mp hk with heq | hk'
    · obtain ⟨rfl, rfl⟩ := Prod.mk.inj heq
      have hrest : (slotsOfNodes d lines spec node?).find? (fun s => s.key == k) = none := by
        refine List.find?_eq_none.mpr fun s hs => ?_
        obtain ⟨e, he, hs⟩ := List.mem_filterMap.mp hs
        obtain ⟨n, -, rfl⟩ := Option.map_eq_some_iff.mp hs
        exact fun hkey => hdistinct.1 (List.mem_map.mpr ⟨e, he, beq_iff_eq.mp hkey⟩)
      rw [hrest, Option.or_none]
      cases node? k with
      | none => rfl
      | some n => exact List.find?_cons_of_pos (beq_self_eq_true k)
    · have hne : k' ≠ k := fun heq => hdistinct.1 (List.mem_map.mpr ⟨(k, v), hk', heq.symm⟩)
      have hfirst : ((node? k').map (Slot.ofNode d lines k' v')).toList.find? (fun s => s.key == k) = none := by
        cases node? k' with
        | none => rfl
        | some n => exact List.find?_cons_of_neg (ne_true_of_eq_false (beq_eq_false_iff_ne.mpr hne))
      rw [hfirst, Option.none_or]
      exact ih hdistinct.2 hk'

/-- The slot of a fragment is made of the value node its key finds in the object. -/
theorem findSlot?_boundAt {spec : SlotSpecification} (hdistinct : (spec.map Prod.fst).Nodup) {k : String}
    {v : Valuator} (hk : (k, v) ∈ spec) (s : Nat × Phrase) : findSlot? (boundAt d spec s).slots k =
      ((property? (objectNode s) k).bind propertyValue?).map (Slot.ofNode d d.lines k v) :=
  findSlot?_slotsOfNodes d.lines hdistinct hk fun key => (property? (objectNode s) key).bind propertyValue?

theorem readRaw_eq_ok [Interpreter] {k : String} {v : Valuator} {raw : String} {e : String × Value} :
    readRaw (k, v, raw) = .ok e ↔ v.deserialize raw = .ok e.2 ∧ e.1 = k := by
  obtain ⟨k', value⟩ := e
  rw [readRaw]
  cases h : v.deserialize raw with
  | error fault => simp
  | ok value' => simp [eq_comm, and_comm]

theorem valuesIn_cons [Interpreter] (k : String) (v : Valuator) (spec : SlotSpecification)
    (items : List (Item Phrase)) : valuesIn ((k, v) :: spec) items =
      match rawValue? k items with
      | none => valuesIn spec items
      | some raw =>
        readRaw (k, v, raw) >>= fun e => valuesIn spec items >>= fun rest => pure (e :: rest) := by
  rw [valuesIn, List.filterMap_cons]
  dsimp only
  cases rawValue? k items with
  | none => rfl
  | some raw => exact List.mapM_cons

/-- **What the values of an object say about a key**: what its slot reads, if there is one. -/
theorem lookup_valuesIn [Interpreter] {spec : SlotSpecification} {items : List (Item Phrase)}
    {values : List (String × Value)} (hdistinct : (spec.map Prod.fst).Nodup)
    (h : valuesIn spec items = .ok values) (k : String) :
    values.lookup k = (spec.lookup k).bind fun v =>
      (rawValue? k items).bind fun raw => (v.deserialize raw).toOption := by
  induction spec generalizing values with
  | nil =>
    obtain rfl := mapM_nil_eq_ok.mp h
    rfl
  | cons e spec ih =>
    obtain ⟨k', v⟩ := e
    rw [List.map_cons, List.nodup_cons] at hdistinct
    have hnone : spec.lookup k' = none :=
      List.lookup_eq_none_iff.mpr fun e he => bne_iff_ne.mpr fun heq =>
        hdistinct.1 (List.mem_map.mpr ⟨e, he, heq.symm⟩)
    rw [valuesIn_cons] at h
    cases hraw : rawValue? k' items with
    | none =>
      rw [hraw] at h
      rw [ih hdistinct.2 h, List.lookup_cons]
      split
      · next hkey =>
        obtain rfl := beq_iff_eq.mp hkey
        rw [hnone, hraw]
        rfl
      · rfl
    | some raw =>
      rw [hraw] at h
      obtain ⟨⟨k'', value⟩, hread, h⟩ := bind_eq_ok.mp h
      obtain ⟨rest, hrest, hvalues⟩ := bind_eq_ok.mp h
      obtain ⟨hvalue, rfl⟩ : v.deserialize raw = .ok value ∧ k'' = k' := readRaw_eq_ok.mp hread
      rw [← pure_eq_ok.mp hvalues, List.lookup_cons, List.lookup_cons, ih hdistinct.2 hrest]
      split
      · next hkey =>
        obtain rfl := beq_iff_eq.mp hkey
        rw [Option.bind_some, hraw, Option.bind_some, hvalue]
        rfl
      · rfl

/-- The values of an object are read when each slot is. -/
theorem exists_valuesIn_iff [Interpreter] {spec : SlotSpecification} {items : List (Item Phrase)} :
    (∃ values, valuesIn spec items = .ok values) ↔
      ∀ e ∈ spec, ∀ raw ∈ rawValue? e.1 items, ∃ value, e.2.deserialize raw = .ok value := by
  induction spec with
  | nil => exact ⟨fun _ _ he => (nomatch he), fun _ => ⟨[], rfl⟩⟩
  | cons e spec ih =>
    obtain ⟨k, v⟩ := e
    rw [List.forall_mem_cons, ← ih, valuesIn_cons]
    cases rawValue? k items with
    | none => exact ⟨fun h => ⟨fun _ hraw => (nomatch hraw), h⟩, fun h => h.2⟩
    | some raw =>
      simp only [bind_eq_ok, pure_eq_ok, Option.mem_some, forall_eq']
      constructor
      · rintro ⟨_, e, he, rest, hrest, rfl⟩
        exact ⟨⟨e.2, (readRaw_eq_ok.mp he).1⟩, rest, hrest⟩
      · rintro ⟨⟨value, hvalue⟩, rest, hrest⟩
        exact ⟨_, (k, value), readRaw_eq_ok.mpr ⟨hvalue, rfl⟩, rest, hrest, rfl⟩

/-! ## What a slot reads -/

/-- What the slot of a key reads in a fragment, if the fragment has it. -/
def readingOf [Interpreter] (t : Template) (h : Handle) (k : String) :
    Except TemplateFault (Option (Except ValueFault Value)) :=
  (t.slotOf h k).map (Option.map Slot.value)

theorem lookup_of_mem {β : Type} {entries : List (String × β)} (hdistinct : (entries.map Prod.fst).Nodup)
    {v : β} (h : (k, v) ∈ entries) : entries.lookup k = some v := by
  obtain ⟨front, back, rfl⟩ := List.append_of_mem h
  rw [List.map_append, List.nodup_append] at hdistinct
  refine List.lookup_eq_some_iff.mpr ⟨front, back, rfl, fun e he => bne_iff_ne.mpr fun heq => ?_⟩
  exact hdistinct.2.2 e.1 (List.mem_map_of_mem he) k List.mem_cons_self heq.symm

/-- The slot of a key that is not declared is not there. -/
theorem findSlot?_eq_none {lines : LineTable} {spec : SlotSpecification} {node? : String → Option Node}
    (h : spec.lookup k = none) : findSlot? (slotsOfNodes d lines spec node?) k = none := by
  refine List.find?_eq_none.mpr fun s hs hkey => ?_
  obtain ⟨e, he, hs⟩ := List.mem_filterMap.mp hs
  obtain ⟨n, -, rfl⟩ := Option.map_eq_some_iff.mp hs
  exact bne_iff_ne.mp (List.lookup_eq_none_iff.mp h e he) (beq_iff_eq.mp hkey).symm

/-- **What a slot reads** comes from the members of the object. -/
theorem Saw.readingOf_eq [Interpreter] (h : t.Saw key d w) (hdistinct : (t.specification.map Prod.fst).Nodup) {i : Nat}
    {m : Phrase} (hm : (assigned key w)[i]? = some m) (k : String) :
    t.readingOf ⟨t.pass, i⟩ k = .ok ((t.specification.lookup k).bind fun v =>
      (rawValue? k m.properties).map v.deserialize) := by
  rw [assigned, List.getElem?_map] at hm
  obtain ⟨s, hs, rfl⟩ := Option.map_eq_some_iff.mp hm
  rw [readingOf, slotOf, slotsOf, h.boundOf_eq hs]
  show Except.ok ((findSlot? (boundAt d t.specification s).slots k).map Slot.value) = _
  cases hlookup : t.specification.lookup k with
  | none =>
    rw [boundAt, findSlot?_eq_none hlookup]
    rfl
  | some v =>
    obtain ⟨front, back, hspec, -⟩ := List.lookup_eq_some_iff.mp hlookup
    have hmem : (k, v) ∈ t.specification := hspec ▸ List.mem_append_right front List.mem_cons_self
    rw [findSlot?_boundAt hdistinct hmem, Option.bind_some,
      ← map_text_node? h.shaped h.text (List.mem_of_getElem? hs), Option.map_map, Option.map_map]
    rfl

/-- The properties of the object of a fragment, as keys and values. -/
def properties? (t : Template) (i : Nat) : Option (List (Value × Value)) :=
  t.fragments[i]?.bind fun f => f.object?.bind fun object => entries? object.children

/-- **The property list of a fragment** is that of the members of its object. -/
theorem Saw.properties?_eq (h : t.Saw key d w) {i : Nat} {m : Phrase}
    (hm : (assigned key w)[i]? = some m) :
    t.properties? i = some (m.properties.map fun i => entry i.content) := by
  rw [assigned, List.getElem?_map] at hm
  obtain ⟨s, hs, rfl⟩ := Option.map_eq_some_iff.mp hm
  obtain ⟨place, k, gap, lead, items, trail, hm', hphrase, hnode, -⟩ := exists_object hs
  have hfragment : t.fragments[i]? = some (.ofNode d d.lines (s.2.node s.1)) := by
    rw [fragments, h.bound, List.getElem?_map, List.getElem?_map, hs]
    rfl
  have hobject : (Fragment.ofNode d d.lines (s.2.node s.1)).object? = some (objectNode s) := by
    obtain ⟨o, m⟩ := s
    obtain rfl : m = _ := hm'
    rfl
  have hshaped := Place.shaped_of_fill (hphrase ▸ h.shaped.phrase)
  have hmembers := isMember_of_shaped hshaped
  rw [properties?, hfragment, Option.bind_some, hobject, Option.bind_some, hnode, hm']
  cases hshaped with
  | group _ _ _ _ hitems => exact entries?_nodes hitems hmembers [] _

/-- The property lists of all fragments. -/
theorem Saw.properties?_eq_map (h : t.Saw key d w) (i : Nat) :
    t.properties? i = (assigned key w)[i]?.map fun m => m.properties.map fun i => entry i.content := by
  cases hm : (assigned key w)[i]? with
  | some m => exact h.properties?_eq hm
  | none =>
    rw [assigned, List.getElem?_map, Option.map_eq_none_iff] at hm
    rw [properties?, fragments, h.bound, List.getElem?_map, List.getElem?_map, hm]
    rfl

/-! ## From one pass to the next -/

/-- **The next pass** over a text with a tree sees it. -/
theorem exists_recompute [Interpreter] (ht : t.subject = objectsOf key) (hgrammar : d.language.grammar = some .json)
    (hw : w.Sound)
    {content : String} (htext : content.toList = w.text) : ∃ t', t.compute (d.withContent content) = .ok t' ∧
      t'.specification = t.specification ∧ t'.settings = t.settings ∧ t'.Saw key (d.withContent content) w :=
  ⟨_, compute_eq ht hgrammar hw htext, rfl, rfl, hw.toShaped, htext, rfl⟩

/-- **The next pass**, when another object stands in the place of one and the text does not nest too
deep: the text has a tree again, and the template sees it. -/
theorem exists_compute_holding [Interpreter] (ht : t.subject = objectsOf key) (hw : w.Sound) {place : Place}
    {p q : Phrase} (hphrase : w.phrase = place.fill p) (hq : q.Shaped) (hread : q.Readable)
    (hkind : q.isMember = p.isMember) (hgrammar : d.language.grammar = some .json) {content : String}
    (htext : content.toList = (w.mark ++ w.lead ++ place.before) ++ q.render ++ (place.behind ++ w.trail))
    (hdepth : nesting content.toList ≤ treeFrames) :
    (w.holding (place.fill q)).Sound ∧ content.toList = (w.holding (place.fill q)).text ∧
      ∃ t', t.compute (d.withContent content) = .ok t' ∧ t'.specification = t.specification ∧
        t'.settings = t.settings ∧ t'.Saw key (d.withContent content) (w.holding (place.fill q)) := by
  have htext' : content.toList = (w.holding (place.fill q)).text :=
    htext.trans (Whole.text_fill (w := w.holding (place.fill q)) rfl).symm
  have hsound := hw.holding hphrase hq hread hkind (htext' ▸ hdepth)
  exact ⟨hsound, htext', exists_recompute ht hgrammar hsound htext'⟩

end Template

end SlotEdit
