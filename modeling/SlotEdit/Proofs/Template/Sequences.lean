import Mathlib.Data.List.Nodup
import SlotEdit.Template.Binding
import SlotEdit.Proofs.Template.Committing
import SlotEdit.Proofs.Template.Slots
import SlotEdit.Proofs.Edit.Splicing

/-!
# Proofs/Template/Sequences — values committed as one batch, or one after another

A batch is made in one pass; values committed one after another are each committed in a pass over the
text that the one before it left.  Both put the values into the same slots (`Puts`), and the order in
which this is done does not matter (`Puts.perm`).
-/

namespace SlotEdit

open Json Json.Phrase Json.Place

/-- A value for a slot. -/
structure Commitment where
  index : Nat
  key : String
  value : Value

namespace Commitment

/-- The slot: the index of its fragment, and its key. -/
def slot (c : Commitment) : Nat × String := (c.index, c.key)

/-- What stands in the slot when the value is in it. -/
def phrase (c : Commitment) : Phrase := ofValue c.value

/-- **A value that suits a pass**: a JSON value for a slot that is there. -/
structure Suits (c : Commitment) (t : Template) : Prop where
  isSlot : ∃ slot, t.slotOf ⟨t.pass, c.index⟩ c.key = .ok (some slot)
  isJson : c.value.IsJson

end Commitment

/-! ## Values put into slots -/

/-- **Values put into the slots of a phrase**, one after another. -/
inductive Puts (key : String) : Phrase → List Commitment → Phrase → Prop
  | nil (p : Phrase) : Puts key p [] p
  | cons {p old p' : Phrase} {place : Place} {c : Commitment} {cs : List Commitment}
      (hold : Holds key p c.slot place old) (h : Puts key (place.fill c.phrase) cs p') : Puts key p (c :: cs) p'

variable {key : String} {p p' : Phrase} {c : Commitment} {cs cs' : List Commitment}

theorem Json.Place.Holds.put {place : Place} {old : Phrase} (h : Holds key p c.slot place old) :
    Holds key (place.fill c.phrase) c.slot place c.phrase :=
  ⟨rfl, h.slot, isMember_ofValue c.value⟩

/-- Another slot is still there when a value is put into one, and takes as many frames as it did. -/
theorem Json.Place.Holds.exists_of_put {a b : Place} {x y : Phrase} {s : Nat × String} (h : Holds key p c.slot a x)
    (h' : Holds key p s b y) (hne : c.slot ≠ s) : ∃ b', Holds key (a.fill c.phrase) s b' y ∧ b'.frames = b.frames := by
  obtain ⟨A, B, hbeside, rfl, rfl⟩ := h.exists_beside h' hne
  exact ⟨B c.phrase, ⟨hbeside.fill _ _, hbeside.slot' _ (isMember_ofValue c.value), h'.value⟩, hbeside.frames' _ _⟩

/-- Every slot was there, and took as many frames, before a value was put into another one. -/
theorem Json.Place.Holds.exists_before_put {a b : Place} {x y : Phrase} {s : Nat × String} (h : Holds key p c.slot a x)
    (h' : Holds key (a.fill c.phrase) s b y) (hne : c.slot ≠ s) : ∃ b', Holds key p s b' y ∧ b'.frames = b.frames ∧
      (b'.before = b.before ∨ a.before.length + x.render.length < b'.before.length) := by
  obtain ⟨A, B, hbeside, rfl, rfl⟩ := h.put.exists_beside h' hne
  refine ⟨B x, ⟨h.fill.trans (hbeside.fill _ _), hbeside.slot' _ h.value, h'.value⟩, hbeside.frames' _ _, ?_⟩
  exact hbeside.order.symm.imp (fun h => h.1 _ _) fun h => h.2 _ _

theorem exists_puts (h : ∀ c ∈ cs, ∃ place old, Holds key p c.slot place old)
    (hdistinct : (cs.map Commitment.slot).Nodup) : ∃ p', Puts key p cs p' := by
  induction cs generalizing p with
  | nil => exact ⟨p, .nil p⟩
  | cons c cs ih =>
    rw [List.map_cons, List.nodup_cons] at hdistinct
    rw [List.forall_mem_cons] at h
    obtain ⟨⟨place, old, hold⟩, h⟩ := h
    obtain ⟨p', hp'⟩ := ih (p := place.fill c.phrase) (fun c' hc' => by
      obtain ⟨place', old', hold'⟩ := h c' hc'
      obtain ⟨place'', h'', -⟩ := hold.exists_of_put hold' fun heq =>
        hdistinct.1 (heq ▸ List.mem_map_of_mem hc')
      exact ⟨place'', old', h''⟩) hdistinct.2
    exact ⟨p', .cons hold hp'⟩

/-- **The order does not matter.** -/
theorem Puts.perm (h : Puts key p cs p') (hperm : cs.Perm cs') (hdistinct : (cs.map Commitment.slot).Nodup) :
    Puts key p cs' p' := by
  induction hperm generalizing p with
  | nil => exact h
  | cons c _ ih =>
    cases h with
    | cons hold h => exact .cons hold (ih h (List.nodup_cons.mp hdistinct).2)
  | swap c c' cs =>
    cases h with
    | @cons _ x _ a _ _ hold h =>
      cases h with
      | @cons _ y _ b _ _ hold' h =>
        have hne : c'.slot ≠ c.slot := fun heq => (List.nodup_cons.mp hdistinct).1 (heq ▸ List.mem_cons_self)
        obtain ⟨A, B, hbeside, rfl, rfl⟩ := hold.put.exists_beside hold' hne
        have hvalue : c.phrase.isMember = false := isMember_ofValue c.value
        have hfirst : Holds key p c.slot (B x) y :=
          ⟨hold.fill.trans (hbeside.fill _ _), hbeside.slot' _ hold.value, hold'.value⟩
        have hsecond : Holds key ((B x).fill c.phrase) c'.slot (A c.phrase) x :=
          ⟨(hbeside.fill _ _).symm, hbeside.slot _ hvalue, hold.value⟩
        rw [← hbeside.fill] at h
        exact .cons hfirst (.cons hsecond h)
  | trans hperm _ ih ih' =>
    exact ih' (ih h hdistinct) ((hperm.map Commitment.slot).nodup_iff.mp hdistinct)

/-- A slot that gets no value keeps what it holds. -/
theorem Puts.exists_holds (h : Puts key p cs p') {a : Place} {x : Phrase} {s : Nat × String}
    (hs : s ∉ cs.map Commitment.slot) (hold : Holds key p s a x) : ∃ b, Holds key p' s b x ∧ b.frames = a.frames := by
  induction h generalizing a with
  | nil => exact ⟨a, hold, rfl⟩
  | cons hput _ ih =>
    rw [List.map_cons, List.mem_cons, not_or] at hs
    obtain ⟨b, hb, hframes⟩ := hput.exists_of_put hold (Ne.symm hs.1)
    obtain ⟨b', hb', hframes'⟩ := ih hs.2 hb
    exact ⟨b', hb', hframes'.trans hframes⟩

/-- What is put into a slot takes no more frames, with those around it, than all of the phrase in the end. -/
theorem Puts.frames_add_frames_le {place : Place} {old : Phrase} (hold : Holds key p c.slot place old)
    (h : Puts key (place.fill c.phrase) cs p') (hc : c.slot ∉ cs.map Commitment.slot) :
    place.frames + c.phrase.frames ≤ p'.frames := by
  obtain ⟨b, hb, hframes⟩ := h.exists_holds hc hold.put
  rw [← hframes, hb.fill]
  exact b.frames_add_frames_le c.phrase

/-- **How deep a phrase nests with all values in their slots**: not too deep, when none of them alone
nests too deep. -/
theorem Puts.frames_le (h : Puts key p cs p') (hdistinct : (cs.map Commitment.slot).Nodup) {n : Nat}
    (hp : p.frames ≤ n) (hcs : ∀ c ∈ cs, ∀ place old, Holds key p c.slot place old →
      place.frames + c.phrase.frames ≤ n) : p'.frames ≤ n := by
  induction h with
  | nil => exact hp
  | @cons p old p' place c cs hold _ ih =>
    rw [List.map_cons, List.nodup_cons] at hdistinct
    rw [List.forall_mem_cons] at hcs
    refine ih hdistinct.2 (frames_fill_le (hold.fill ▸ hp) (hcs.1 _ _ hold)) fun c' hc' b y hold' => ?_
    obtain ⟨b', hb', hframes, -⟩ := hold.exists_before_put hold' fun heq =>
      hdistinct.1 (heq ▸ List.mem_map_of_mem hc')
    rw [← hframes]
    exact hcs.2 c' hc' b' y hb'

theorem Puts.shaped (h : Puts key p cs p') (hcs : ∀ c ∈ cs, c.value.IsJson) (hp : p.Shaped) : p'.Shaped := by
  induction h with
  | nil => exact hp
  | cons hold _ ih =>
    rw [List.forall_mem_cons] at hcs
    exact ih hcs.2 (shaped_fill (hold.fill ▸ hp) (shaped_ofValue hcs.1) ((isMember_ofValue _).trans hold.value.symm))

theorem Puts.isMember (h : Puts key p cs p') : p'.isMember = p.isMember := by
  induction h with
  | nil => rfl
  | cons hold _ ih =>
    rw [ih, hold.fill]
    exact isMember_fill _ ((isMember_ofValue _).trans hold.value.symm)

/-! ## The text with all values in it -/

/-- **The edit of a commitment in a text** stands on the value of its slot and puts the new one in. -/
structure Covers (key : String) (w : Whole) (c : Commitment) (edit : Placed) : Prop where
  chars : edit.chars = c.phrase.render
  span : ∀ place old, Holds key w.phrase c.slot place old → edit.span =
    ⟨(w.mark ++ w.lead ++ place.before).length, (w.mark ++ w.lead ++ place.before).length + old.render.length⟩

variable {w : Whole}

/-- The edits of two slots do not overlap. -/
theorem Covers.apart {a b : Placed} {c' : Commitment} (h : Covers key w c a) (h' : Covers key w c' b) {place place' : Place}
    {old old' : Phrase} (hold : Holds key w.phrase c.slot place old) (hold' : Holds key w.phrase c'.slot place' old')
    (hne : c.slot ≠ c'.slot) : a.span.stop < b.span.start ∨ b.span.stop < a.span.start := by
  obtain ⟨A, B, hbeside, rfl, rfl⟩ := hold.exists_beside hold' hne
  rw [h.span _ _ hold, h'.span _ _ hold']
  simp only [List.length_append]
  rcases hbeside.order with horder | horder
  · have := horder.2 old old'
    omega
  · have := horder.2 old' old
    omega

/-- **Edits spliced in from the last to the first** put their values into the slots. -/
theorem Puts.foldl_splice (h : Puts key w.phrase cs p') (hdistinct : (cs.map Commitment.slot).Nodup)
    {edit : Commitment → Placed} (hcovers : ∀ c ∈ cs, Covers key w c (edit c))
    (horder : cs.Pairwise fun c c' => (edit c').span.stop ≤ (edit c).span.start) :
    cs.foldl (fun s c => (edit c).splice s) w.text = (w.holding p').text := by
  obtain ⟨p, hp⟩ : ∃ p, p = w.phrase := ⟨_, rfl⟩
  rw [← hp] at h
  induction h generalizing w with
  | nil => rw [hp]; rfl
  | @cons p old p' place c cs hold _ ih =>
    subst hp
    rw [List.map_cons, List.nodup_cons] at hdistinct
    rw [List.forall_mem_cons] at hcovers
    rw [List.pairwise_cons] at horder
    have hspan := hcovers.1.span _ _ hold
    have hnext : (edit c).splice w.text = (w.holding (place.fill c.phrase)).text := by
      rw [Whole.text_fill hold.fill, Placed.splice_append hspan, hcovers.1.chars]
      exact (Whole.text_fill (w := w.holding (place.fill c.phrase)) rfl).symm
    rw [List.foldl_cons, hnext]
    refine (ih hdistinct.2 (fun c' hc' => ⟨(hcovers.2 c' hc').chars, fun b y hold' => ?_⟩) horder.2 rfl)
    -- the slot stood where it stands now, since the value that was put in is behind it
    obtain ⟨b', hb', -, hbefore | hbehind⟩ := hold.exists_before_put hold' fun heq =>
      hdistinct.1 (heq ▸ List.mem_map_of_mem hc')
    · rw [(hcovers.2 c' hc').span b' y hb', hbefore]
      rfl
    · have hle := horder.1 c' hc'
      rw [(hcovers.2 c' hc').span b' y hb', hspan] at hle
      simp only [List.length_append] at hle
      omega

namespace Template

/-! ## The edit of a commitment -/

/-- The edit that commits a value in a pass. -/
def editOf [Interpreter] (t : Template) (c : Commitment) :
    Except TemplateFault TextEdit := t.commit ⟨t.pass, c.index⟩ c.key c.value

variable {t : Template} {d : Document}

theorem Saw.slotOf_eq_ok (ht : t.OfObjects key) (h : t.Saw key d w) {i : Nat} {k : String} {slot : Slot}
    (hslot : t.slotOf ⟨t.pass, i⟩ k = .ok (some slot)) : ∃ s n, (assignments key w.phrase w.start)[i]? = some s ∧
      (k, .json) ∈ t.specification ∧ (property? (objectNode s) k).bind propertyValue? = some n ∧
      slot = .ofNode d d.lines k .json n := by
  obtain ⟨slots, hslots, hfind⟩ := map_eq_ok.mp hslot
  obtain ⟨b, hb, rfl⟩ := map_eq_ok.mp hslots
  cases hs : (assignments key w.phrase w.start)[i]? with
  | none =>
    rw [boundOf, if_pos rfl, h.bound, List.getElem?_map, hs] at hb
    cases hb
  | some s =>
    obtain rfl := Except.ok.inj (hb.symm.trans (h.boundOf_eq hs))
    cases hlookup : t.specification.lookup k with
    | none =>
      rw [boundAt, findSlot?_eq_none hlookup] at hfind
      cases hfind
    | some v =>
      obtain ⟨front, back, hspec, -⟩ := List.lookup_eq_some_iff.mp hlookup
      have hmem : (k, v) ∈ t.specification := hspec ▸ List.mem_append_right front List.mem_cons_self
      obtain rfl : v = .json := ht.json _ hmem
      rw [findSlot?_boundAt ht.distinct hmem] at hfind
      obtain ⟨n, hn, hslot⟩ := Option.map_eq_some_iff.mp hfind
      exact ⟨s, n, rfl, hmem, hn, hslot.symm⟩

/-- **A slot of a pass holds a value of the text.** -/
theorem Saw.exists_holds (ht : t.OfObjects key) (h : t.Saw key d w) (hc : c.Suits t) :
    (c.key, .json) ∈ t.specification ∧ ∃ place old, Holds key w.phrase c.slot place old := by
  obtain ⟨slot, hslot⟩ := hc.isSlot
  obtain ⟨s, n, hs, hmem, hn, -⟩ := h.slotOf_eq_ok ht hslot
  obtain ⟨place, old, hphrase, hplace⟩ := exists_place_of_assignment h.shaped.phrase hs hn
  exact ⟨hmem, place, old, hphrase, hplace, isMember_of_slot? hplace (hphrase ▸ h.shaped.phrase)⟩

/-- The edit of a value that is written. -/
theorem Saw.editOf_eq [Interpreter] (ht : t.OfObjects key) (h : t.Saw key d w) (hmem : (c.key, .json) ∈ t.specification)
    (hv : c.value.IsJson) (hfits : c.value.FitsWithin nestingLimit) {place : Place} {old : Phrase}
    (hold : Holds key w.phrase c.slot place old) : t.editOf c =
      .ok (.replace ((old.node (w.mark ++ w.lead ++ place.before).length).range d.lines)
        (.str (String.ofList c.phrase.render))) := by
  obtain ⟨s, hs, hnode⟩ := exists_assignment hold.slot old w.start
  rw [← hold.fill] at hs
  have hslot := findSlot?_boundAt (d := d) ht.distinct hmem s
  have hstart : w.start + place.before.length = (w.mark ++ w.lead ++ place.before).length := by
    rw [Whole.start, ← List.length_append]
  rw [hnode, hstart] at hslot
  exact commit_of_slot hmem ht.distinct (h.boundOf_eq hs) hslot rfl (serialize_json hv hfits)

/-- A commitment whose edit can be made: the key is declared, and the value is written as JSON. -/
structure Written [Interpreter] (t : Template) (c : Commitment) : Prop where
  declared : (c.key, .json) ∈ t.specification
  isJson : c.value.IsJson
  fits : c.value.FitsWithin nestingLimit

theorem Saw.text_of_holds (h : t.Saw key d w) {s : Nat × String} {place : Place} {old : Phrase}
    (hold : Holds key w.phrase s place old) :
    d.content.toList = (w.mark ++ w.lead ++ place.before) ++ old.render ++ (place.behind ++ w.trail) :=
  h.text.trans (Whole.text_fill hold.fill)

/-- **Every commitment of a pass has its edit**, which stands on the value of the slot. -/
theorem Saw.exists_editOf [Interpreter] (ht : t.OfObjects key) (h : t.Saw key d w) (hc : t.Written c)
    (hold : ∃ place old, Holds key w.phrase c.slot place old) : ∃ edit, t.editOf c = .ok edit ∧
      edit.text = .str (String.ofList c.phrase.render) ∧ Covers key w c ⟨d.spanOf edit.range, edit⟩ := by
  obtain ⟨place, old, hold⟩ := hold
  have hedit := h.editOf_eq ht hc.declared hc.isJson hc.fits hold
  refine ⟨_, hedit, rfl, String.toList_ofList, fun place' old' hold' => ?_⟩
  -- the slot has one edit, so it stands on every place that the slot has
  rw [Except.ok.inj (hedit.symm.trans (h.editOf_eq ht hc.declared hc.isJson hc.fits hold'))]
  exact spanOf_range_node (h.text_of_holds hold')

theorem fits_of_serialize [Interpreter] {v : Value} (hv : v.IsJson) {text : Value}
    (h : Valuator.json.serialize v = .ok text) :
    v.FitsWithin nestingLimit := by
  rw [Valuator.serialize] at h
  split at h
  · next hencode => exact ((encode_eq_ok_text (isPlain_of_isJson hv)).mp hencode).1
  · cases h
  · cases h
  · cases h

/-- **An edit of a slot is only made of a value that is written.** -/
theorem Saw.written_of_editOf [Interpreter] (ht : t.OfObjects key) (h : t.Saw key d w) (hc : c.Suits t)
    {edit : TextEdit}
    (hedit : t.editOf c = .ok edit) : t.Written c := by
  obtain ⟨slot, hslot⟩ := hc.isSlot
  obtain ⟨s, n, -, hmem, -, rfl⟩ := h.slotOf_eq_ok ht hslot
  obtain ⟨slots, hslots, hfind⟩ := map_eq_ok.mp hslot
  obtain ⟨b, hb, rfl⟩ := map_eq_ok.mp hslots
  rw [editOf, commit_eq hmem ht.distinct hb, hfind] at hedit
  obtain ⟨text, htext, -⟩ := map_eq_ok.mp (mapError_eq_ok.mp hedit)
  exact ⟨hmem, hc.isJson, fits_of_serialize hc.isJson htext⟩

/-! ## One batch -/

variable {ω : Type} {e : Editor ω}

/-- **Values committed as one batch**: all edits are made in one pass and applied together. -/
def commitAll [Interpreter] (t : Template) (e : Editor ω) (cs : List Commitment) : Except ApplyFault (Editor ω) := do
  let edits ← (cs.mapM t.editOf).mapError .template
  let (e', _) ← (edits.foldl Editor.add e).apply.mapError .batch
  pure e'

/-- **Values committed one after another**: each edit is applied before a pass over the new text is made
and the next slot is looked up in it. -/
def commitEach [Interpreter] (t : Template) (e : Editor ω) : List Commitment → Except ApplyFault (Editor ω)
  | [] => pure e
  | c :: cs => do
    let edit ← (t.editOf c).mapError .template
    let (e', _) ← (e.add edit).apply.mapError .batch
    let t' ← (t.compute e'.document).mapError .template
    t'.commitEach e' cs

/-- The editor with a new text, in which no edit waits. -/
def showing (e : Editor ω) (text : List Char) : Editor ω :=
  ⟨e.document.withContent (String.ofList text), [], e.observers⟩

theorem foldl_add (e : Editor ω) (edits : List TextEdit) :
    edits.foldl Editor.add e = { e with pending := e.pending ++ edits } := by
  induction edits generalizing e with
  | nil => rw [List.foldl_nil, List.append_nil]
  | cons edit edits ih =>
    rw [List.foldl_cons, ih, Editor.add]
    simp only [List.append_assoc, List.singleton_append]

theorem showing_of_text {text : List Char} (hpending : e.pending = []) (h : e.document.content.toList = text) :
    showing e text = e := by
  obtain ⟨document, pending, observers⟩ := e
  obtain rfl : pending = [] := hpending
  rw [showing, ← h, String.ofList_toList]
  rfl

/-- A batch whose edits make a text. -/
theorem commitAll_eq [Interpreter] {edits : List TextEdit} {content : String} (hpending : e.pending = [])
    (hedits : cs.mapM t.editOf = .ok edits) (hcontent : edited e.document edits = .ok content) :
    t.commitAll e cs = .ok (showing e content.toList) := by
  have hadded : edits.foldl Editor.add e = { e with pending := edits } := by
    rw [foldl_add, hpending]
    rfl
  obtain ⟨applied, happly⟩ := @Editor.exists_apply _ { e with pending := edits } content hcontent
  rw [commitAll, hedits, showing, String.ofList_toList]
  show ((edits.foldl Editor.add e).apply.mapError ApplyFault.batch >>= fun x => pure x.1) = _
  rw [hadded, happly]
  rfl

/-- Edits of distinct slots that are sorted stand apart. -/
theorem pairwise_apart {cs : List Commitment} {edit : Commitment → Placed} (hdistinct : (cs.map Commitment.slot).Nodup)
    (hcovers : ∀ c ∈ cs, Covers key w c (edit c)) (hholds : ∀ c ∈ cs, ∃ place old, Holds key w.phrase c.slot place old)
    (hsorted : cs.Pairwise fun c c' => Placed.le (edit c) (edit c') = true) :
    cs.Pairwise fun c c' => (edit c).span.stop ≤ (edit c').span.start := by
  refine (hsorted.and (List.pairwise_map.mp hdistinct)).imp_of_mem fun {c c'} hc hc' h => ?_
  obtain ⟨place, old, hold⟩ := hholds c hc
  obtain ⟨place', old', hold'⟩ := hholds c' hc'
  have hle := Placed.start_le_of_le h.1
  rcases (hcovers c hc).apart (hcovers c' hc') hold hold' h.2 with hlt | hlt
  · exact hlt.le
  · have hspan := (hcovers c hc).span _ _ hold
    have hspan' := (hcovers c' hc').span _ _ hold'
    rw [hspan, hspan'] at hlt hle
    simp only at hlt hle
    omega

/-- **A batch of commitments** puts all values into their slots. -/
theorem commitAll_of_puts [Interpreter] (ht : t.OfObjects key) (h : t.Saw key e.document w) (hpending : e.pending = [])
    (hdistinct : (cs.map Commitment.slot).Nodup) (hcs : ∀ c ∈ cs, t.Written c)
    (hholds : ∀ c ∈ cs, ∃ place old, Holds key w.phrase c.slot place old) (hputs : Puts key w.phrase cs p') :
    t.commitAll e cs = .ok (showing e (w.holding p').text) := by
  have : Nonempty TextEdit := ⟨.insert ⟨0, 0⟩ (.str "")⟩
  choose! edit hedit using fun c hc => h.exists_editOf ht (hcs c hc) (hholds c hc)
  let place (c : Commitment) : Placed := ⟨e.document.spanOf (edit c).range, edit c⟩
  -- the batch is sorted as the commitments are, by where their edits stand
  let le (c c' : Commitment) : Bool := Placed.le (place c) (place c')
  have hsort := List.mergeSort_perm cs le
  have hplaced : placed e.document (cs.map edit) = (cs.mergeSort le).map place :=
    (congrArg (List.mergeSort · Placed.le) List.map_map).trans
      (List.map_mergeSort (f := place) (r := le) fun _ _ _ _ => rfl).symm
  have hdistinct' := (hsort.map Commitment.slot).nodup_iff.mpr hdistinct
  have hcovers : ∀ c ∈ cs.mergeSort le, Covers key w c (place c) := fun c hc => (hedit c (hsort.mem_iff.mp hc)).2.2
  have hapart := pairwise_apart hdistinct' hcovers (fun c hc => hholds c (hsort.mem_iff.mp hc))
    (List.pairwise_mergeSort (fun a b c => Placed.le_trans (place a) (place b) (place c))
      (fun a b => Placed.le_total (place a) (place b)) cs)
  obtain ⟨content, hcontent⟩ : ∃ content, edited e.document (cs.map edit) = .ok content :=
    exists_edited (by rw [hplaced]; exact List.pairwise_map.mpr hapart) fun _ he => by
      obtain ⟨c, hc, rfl⟩ := List.mem_map.mp he
      exact ⟨_, (hedit c hc).2.1⟩
  have htext : content.toList = (w.holding p').text := by
    rw [toList_of_edited hcontent, hplaced, List.foldr_map, h.text, ← List.foldl_reverse]
    refine Puts.foldl_splice (hputs.perm (hsort.symm.trans (List.reverse_perm _).symm) hdistinct) ?_ ?_ ?_
    · exact ((List.reverse_perm _).map Commitment.slot).nodup_iff.mpr hdistinct'
    · exact fun c hc => hcovers c (List.mem_reverse.mp hc)
    · exact List.pairwise_reverse.mpr hapart
  rw [commitAll_eq hpending (mapM_eq_ok_of_forall fun c hc => (hedit c hc).1) hcontent, htext]

/-! ## One after another -/

theorem Saw.exists_apply_add [Interpreter] (ht : t.OfObjects key) (h : t.Saw key e.document w)
    (hpending : e.pending = [])
    (hc : t.Written c) {place : Place} {old : Phrase} (hold : Holds key w.phrase c.slot place old) :
    ∃ edit applied, t.editOf c = .ok edit ∧
      (e.add edit).apply = .ok (showing e (w.holding (place.fill c.phrase)).text, applied) := by
  have htext := h.text_of_holds hold
  have hedited := edited_singleton (e := .replace ((old.node _).range e.document.lines)
    (.str (String.ofList c.phrase.render))) rfl (spanOf_range_node htext) htext
  have hnew : w.mark ++ w.lead ++ place.before ++ (String.ofList c.phrase.render).toList ++ (place.behind ++ w.trail) =
      (w.holding (place.fill c.phrase)).text := by
    rw [Whole.text_fill (w := w.holding (place.fill c.phrase)) rfl, String.toList_ofList]
    rfl
  rw [hnew] at hedited
  exact ⟨_, _, h.editOf_eq ht hc.declared hc.isJson hc.fits hold, apply_add hpending hedited⟩

/-- What is done with the rest of the commitments once the first one is applied. -/
theorem commitEach_cons [Interpreter] (ht : t.OfObjects key) (h : t.Saw key e.document w) (hpending : e.pending = [])
    (hc : t.Written c) {place : Place} {old : Phrase} (hold : Holds key w.phrase c.slot place old)
    {t' : Template} (hnext : t.compute (showing e (w.holding (place.fill c.phrase)).text).document = .ok t') :
    t.commitEach e (c :: cs) = t'.commitEach (showing e (w.holding (place.fill c.phrase)).text) cs := by
  obtain ⟨edit, applied, hedit, happly⟩ := h.exists_apply_add ht hpending hc hold
  rw [commitEach, hedit]
  show ((e.add edit).apply.mapError ApplyFault.batch >>= fun x =>
    (t.compute x.1.document).mapError ApplyFault.template >>= fun t' => t'.commitEach x.1 cs) = _
  rw [happly]
  show ((t.compute _).mapError ApplyFault.template >>= fun t' => t'.commitEach _ cs) = _
  rw [hnext]
  rfl

/-- Behind a value that does not nest too deep, the next pass is over a text with a tree. -/
theorem exists_next [Interpreter] (ht : t.OfObjects key) (hw : w.Sound) (hgrammar : d.language.grammar = some .json)
    (hc : t.Written c) {place : Place} {old : Phrase} (hold : Holds key w.phrase c.slot place old)
    (hframes : (place.fill c.phrase).frames ≤ treeFrames) {content : String}
    (hcontent : content.toList = (w.holding (place.fill c.phrase)).text) :
    (w.holding (place.fill c.phrase)).Sound ∧ ∃ t', t.compute (d.withContent content) = .ok t' ∧ t'.OfObjects key ∧
      t'.specification = t.specification ∧ t'.Saw key (d.withContent content) (w.holding (place.fill c.phrase)) := by
  have hkind := (isMember_ofValue c.value).trans hold.value.symm
  have hnesting := nesting_text (hw.toShaped.holding hold.fill (shaped_ofValue hc.isJson) hkind)
  have hsound := hw.holding hold.fill (shaped_ofValue hc.isJson) (readable_ofValue hc.isJson hc.fits.1) hkind
    (hnesting ▸ hframes)
  exact ⟨hsound, _, compute_eq ht.subject hgrammar hsound hcontent, ⟨ht.subject, ht.distinct, ht.json⟩, rfl,
    hsound.toShaped, hcontent, rfl⟩

/-- **Commitments one after another** put all values into their slots, when the text does not nest too
deep in the end. -/
theorem commitEach_of_puts [Interpreter] (ht : t.OfObjects key) (hw : w.Sound) (h : t.Saw key e.document w)
    (hgrammar : e.document.language.grammar = some .json) (hpending : e.pending = [])
    (hdistinct : (cs.map Commitment.slot).Nodup) (hcs : ∀ c ∈ cs, t.Written c) (hputs : Puts key w.phrase cs p')
    (hframes : p'.frames ≤ treeFrames) : t.commitEach e cs = .ok (showing e (w.holding p').text) := by
  obtain ⟨p, hp⟩ : ∃ p, p = w.phrase := ⟨_, rfl⟩
  rw [← hp] at hputs
  induction hputs generalizing w t e with
  | nil =>
    subst hp
    exact congrArg Except.ok (showing_of_text hpending h.text).symm
  | @cons p old p' place c cs hold hputs ih =>
    subst hp
    rw [List.map_cons, List.nodup_cons] at hdistinct
    rw [List.forall_mem_cons] at hcs
    have hnext : (place.fill c.phrase).frames ≤ treeFrames :=
      frames_fill_le (hold.fill ▸ hw.frames) ((hputs.frames_add_frames_le hold hdistinct.1).trans hframes)
    obtain ⟨hsound, t', hnext, ht', hspec, h'⟩ :=
      exists_next ht hw hgrammar hcs.1 hold hnext String.toList_ofList
    have hcs' : ∀ c ∈ cs, t'.Written c := fun c hc =>
      ⟨hspec ▸ (hcs.2 c hc).declared, (hcs.2 c hc).isJson, (hcs.2 c hc).fits⟩
    rw [commitEach_cons ht h hpending hcs.1 hold hnext]
    exact ih (w := w.holding (place.fill c.phrase)) (e := showing e _) ht' hsound h' hgrammar rfl hdistinct.2 hcs'
      hframes rfl

/-- A text that nests too deep has no tree. -/
theorem ofText_ne_ok [Interpreter] (hw : w.Shaped) {content : String} (hcontent : content.toList = w.text)
    (hframes : treeFrames < w.phrase.frames) (root : Node) : Json.ofText content ≠ .ok root := by
  intro hroot
  have hnesting := nesting_le hroot
  rw [hcontent, nesting_text hw] at hnesting
  exact absurd hnesting (Nat.not_le_of_lt hframes)

/-- In a pass that found nothing there is no slot. -/
theorem editOf_of_empty [Interpreter] (hdistinct : (t.specification.map Prod.fst).Nodup)
    (hmem : (c.key, .json) ∈ t.specification)
    (hbound : t.bound = []) : t.editOf c = .error (.staleFragment t.settings.name) := by
  have hnone : t.boundOf ⟨t.pass, c.index⟩ = .error (.staleFragment t.settings.name) := by
    rw [boundOf, if_pos rfl, hbound]
    rfl
  rw [editOf, commit, lookup_of_mem hdistinct hmem, hnone]
  rfl

/-- Behind a value that nests too deep no slot is found. -/
theorem commitEach_of_deep [Interpreter] (ht : t.OfObjects key) (h : t.Saw key e.document w)
    (hgrammar : e.document.language.grammar = some .json) (hpending : e.pending = []) {c' : Commitment}
    (hc : t.Written c) (hc' : t.Written c') {place : Place} {old : Phrase} (hold : Holds key w.phrase c.slot place old)
    (hframes : treeFrames < (place.fill c.phrase).frames) (cs : List Commitment) :
    t.commitEach e (c :: c' :: cs) = .error (.template (.staleFragment t.settings.name)) := by
  have hshaped := h.shaped.holding hold.fill (shaped_ofValue hc.isJson) ((isMember_ofValue c.value).trans hold.value.symm)
  have hnext := compute_of_error (d := (showing e (w.holding (place.fill c.phrase)).text).document) ht.subject hgrammar
    (ofText_ne_ok hshaped String.toList_ofList hframes)
  rw [commitEach_cons ht h hpending hc hold hnext, commitEach, editOf_of_empty (t := t.after _ []) ht.distinct
    hc'.declared rfl]
  rfl

/-- One value is committed whether or not it nests too deep. -/
theorem commitEach_singleton [Interpreter] (ht : t.OfObjects key) (hw : w.Sound) (h : t.Saw key e.document w)
    (hgrammar : e.document.language.grammar = some .json) (hpending : e.pending = []) (hc : t.Written c)
    {place : Place} {old : Phrase} (hold : Holds key w.phrase c.slot place old) :
    t.commitEach e [c] = .ok (showing e (w.holding (place.fill c.phrase)).text) := by
  obtain ⟨t', hnext⟩ : ∃ t', t.compute (showing e (w.holding (place.fill c.phrase)).text).document = .ok t' := by
    by_cases hframes : (place.fill c.phrase).frames ≤ treeFrames
    · obtain ⟨-, t', hnext, -⟩ := exists_next ht hw hgrammar hc hold hframes String.toList_ofList
      exact ⟨t', hnext⟩
    · exact ⟨_, compute_of_error ht.subject hgrammar (ofText_ne_ok
        (h.shaped.holding hold.fill (shaped_ofValue hc.isJson) ((isMember_ofValue c.value).trans hold.value.symm))
        String.toList_ofList (Nat.lt_of_not_le hframes))⟩
  rw [commitEach_cons ht h hpending hc hold hnext]
  rfl

/-- **When the order does not matter**: with more than one value, just when the text does not nest too
deep in the end. -/
theorem commitEach_iff [Interpreter] (ht : t.OfObjects key) (hw : w.Sound) (h : t.Saw key e.document w)
    (hgrammar : e.document.language.grammar = some .json) (hpending : e.pending = [])
    (hdistinct : (cs.map Commitment.slot).Nodup) (hcs : ∀ c ∈ cs, t.Written c) (hputs : Puts key w.phrase cs p') :
    (∀ cs' : List Commitment, cs'.Perm cs → t.commitEach e cs' = .ok (showing e (w.holding p').text)) ↔
      cs.length ≤ 1 ∨ p'.frames ≤ treeFrames := by
  constructor
  · intro hall
    by_contra hdeep
    rw [not_or, Nat.not_le, Nat.not_le] at hdeep
    -- one of the values nests too deep on its own; committed first, it hides all slots
    obtain ⟨c, hc, place, old, hold, hframes⟩ : ∃ c ∈ cs, ∃ place old, Holds key w.phrase c.slot place old ∧
        treeFrames < place.frames + c.phrase.frames := by
      by_contra hnone
      refine absurd (hputs.frames_le hdistinct hw.frames fun c hc place old hold => ?_) (Nat.not_le_of_lt hdeep.2)
      exact Nat.le_of_not_lt fun hlt => hnone ⟨c, hc, place, old, hold, hlt⟩
    obtain ⟨front, back, rfl⟩ := List.append_of_mem hc
    cases hrest : front ++ back with
    | nil =>
      have hlength := congrArg List.length hrest
      simp only [List.length_append, List.length_cons, List.length_nil] at hlength hdeep
      omega
    | cons c' rest =>
      have hperm : (c :: c' :: rest).Perm (front ++ c :: back) := hrest ▸ List.perm_middle.symm
      have herror := commitEach_of_deep ht h hgrammar hpending (hcs c hc)
        (hcs c' (hperm.mem_iff.mp (List.mem_cons_of_mem c List.mem_cons_self))) hold
        (Nat.lt_of_lt_of_le hframes (place.frames_add_frames_le _)) rest
      cases herror.symm.trans (hall _ hperm)
  · rintro (hfew | hframes) cs' hperm
    · match cs, hputs, hfew with
      | [], .nil _, _ =>
        obtain rfl := hperm.eq_nil
        exact commitEach_of_puts ht hw h hgrammar hpending .nil (fun c hc => nomatch hc) (.nil _) hw.frames
      | [c], .cons hold (.nil _), _ =>
        obtain rfl := List.perm_singleton.mp hperm
        exact commitEach_singleton ht hw h hgrammar hpending (hcs c List.mem_cons_self) hold
    · exact commitEach_of_puts ht hw h hgrammar hpending ((hperm.map Commitment.slot).nodup_iff.mpr hdistinct)
        (fun c hc => hcs c (hperm.mem_iff.mp hc)) (hputs.perm hperm.symm hdistinct) hframes

/-- A template with two slots. -/
def marks : Template := .ofSubject (objectsOf "m") [("a", .json), ("b", .json)] (.named "marks")

/-- A text with both of them. -/
def marked : Document :=
  ⟨"\x7b\"m\": \x7b\"a\": true, \"b\": null\x7d\x7d", ⟨"JSON", "json", "json", some .json⟩⟩

/-- The text, with its layout. -/
def layout : Whole :=
  ⟨[], [], ofValue (.dict [(.str "m", .dict [(.str "a", .bool true), (.str "b", .null)])]), []⟩

/-- The template behind a pass over the text. -/
def passed : Template := marks.after marked (assignments "m" layout.phrase layout.start)

theorem sound_layout : layout.Sound := by
  have hinner : (Value.dict [(.str "a", .bool true), (.str "b", .null)]).IsJson :=
    @Value.IsJson.dict [("a", .bool true), ("b", .null)] (by decide)
      (List.forall_mem_cons.mpr ⟨.bool true, List.forall_mem_singleton.mpr .null⟩)
  exact sound_ofValue (@Value.IsJson.dict [("m", .dict [(.str "a", .bool true), (.str "b", .null)])] (by decide)
    (List.forall_mem_singleton.mpr hinner)) (fun n hn => (nomatch hn)) (by decide)

theorem text_layout : marked.content.toList = layout.text := by cbv

theorem compute_marked : marks.compute marked = .ok passed := compute_eq rfl rfl sound_layout text_layout

theorem ofObjects_passed : passed.OfObjects "m" := ⟨rfl, by decide, by decide⟩

theorem saw_passed : passed.Saw "m" marked layout := ⟨sound_layout.toShaped, text_layout, rfl⟩

theorem slotsOf_passed : passed.slotsOf ⟨passed.pass, 0⟩ =
    .ok [⟨"a", "true", .between ⟨0, 12⟩ ⟨0, 16⟩, .json⟩, ⟨"b", "null", .between ⟨0, 23⟩ ⟨0, 27⟩, .json⟩] := by cbv

/-- JSON values for either slot suit the pass. -/
theorem suits_passed {v : Value} (hv : v.IsJson) :
    Commitment.Suits ⟨0, "a", v⟩ passed ∧ Commitment.Suits ⟨0, "b", v⟩ passed :=
  ⟨⟨⟨_, map_eq_ok.mpr ⟨_, slotsOf_passed, rfl⟩⟩, hv⟩, ⟨_, map_eq_ok.mpr ⟨_, slotsOf_passed, rfl⟩⟩, hv⟩

/-- **Values for the slots of one pass, committed as a batch or one after another.**  In a text with a
tree, JSON values for slots that are there and distinct are always accepted as a batch when they can be
written, and in every order they give the same text.  Committed one after another, each to a pass over
the text that the one before it left, more than one value gives this text in every order just when it
does not nest too deep. -/
theorem commitEach_eq_commitAll_iff [Interpreter] (ht : t.OfObjects key) {root : Node}
    (hgrammar : d.language.grammar = some .json) (hparse : Json.ofText d.content = .ok root) :
    ∃ pass, t.compute d = .ok pass ∧ ∀ {ω : Type} (e : Editor ω), e.document = d → e.pending = [] →
      ∀ cs : List Commitment, (cs.map Commitment.slot).Nodup → (∀ c ∈ cs, c.Suits pass) →
        ((∃ e', pass.commitAll e cs = .ok e') ↔ ∀ c ∈ cs, c.value.FitsWithin nestingLimit) ∧
        ∀ e', pass.commitAll e cs = .ok e' →
          (∀ cs' : List Commitment, cs'.Perm cs → pass.commitAll e cs' = .ok e') ∧
          ((∀ cs' : List Commitment, cs'.Perm cs → pass.commitEach e cs' = .ok e') ↔
            cs.length ≤ 1 ∨ nesting e'.document.content.toList ≤ treeFrames) := by
  obtain ⟨w, hw, htext, -⟩ := ofText_eq_ok.mp hparse
  refine ⟨_, compute_eq ht.subject hgrammar hw htext, ?_⟩
  generalize hpass : t.after d (assignments key w.phrase w.start) = pass
  have hsaw : pass.Saw key d w := ⟨hw.toShaped, htext, hpass ▸ rfl⟩
  have hobjects : pass.OfObjects key := hpass ▸ ⟨ht.subject, ht.distinct, ht.json⟩
  intro ω e he hpending cs hdistinct hcs
  subst he
  have hholds := fun c hc => (hsaw.exists_holds hobjects (hcs c hc)).2
  obtain ⟨p', hputs⟩ := exists_puts hholds hdistinct
  -- a batch is accepted when its values can be written, in whatever order they come
  have hall (hwritten : ∀ c ∈ cs, pass.Written c) (cs' : List Commitment) (hperm : cs'.Perm cs) :
      pass.commitAll e cs' = .ok (showing e (w.holding p').text) :=
    commitAll_of_puts hobjects hsaw hpending ((hperm.map Commitment.slot).nodup_iff.mpr hdistinct)
      (fun c hc => hwritten c (hperm.mem_iff.mp hc)) (fun c hc => hholds c (hperm.mem_iff.mp hc))
      (hputs.perm hperm.symm hdistinct)
  have hwritten (e' : Editor ω) (he' : pass.commitAll e cs = .ok e') : ∀ c ∈ cs, pass.Written c := by
    obtain ⟨edits, hedits, -⟩ := bind_eq_ok.mp he'
    intro c hc
    obtain ⟨edit, hedit⟩ := exists_of_mapM_eq_ok (mapError_eq_ok.mp hedits) c hc
    exact hsaw.written_of_editOf hobjects (hcs c hc) hedit
  refine ⟨⟨fun ⟨e', he'⟩ c hc => (hwritten e' he' c hc).fits, fun hfits => ⟨_, hall (fun c hc =>
    ⟨(hsaw.exists_holds hobjects (hcs c hc)).1, (hcs c hc).isJson, hfits c hc⟩) cs (.refl cs)⟩⟩, fun e' he' => ?_⟩
  have hwritten := hwritten e' he'
  obtain rfl := Except.ok.inj ((hall hwritten cs (.refl cs)).symm.trans he')
  refine ⟨hall hwritten, ?_⟩
  have hshaped : (w.holding p').Shaped := ⟨hw.mark, hw.lead, hputs.shaped (fun c hc => (hcs c hc).isJson) hw.phrase,
    hputs.isMember.trans hw.isValue, hw.trail⟩
  have hnesting : nesting (showing e (w.holding p').text).document.content.toList = p'.frames :=
    (congrArg nesting String.toList_ofList).trans (nesting_text hshaped)
  rw [hnesting]
  exact commitEach_iff hobjects hw hsaw hgrammar hpending hdistinct hwritten hputs

/-- A list and a text put into two slots of an object, in both orders. -/
theorem commitEach_eq_commitAll_iff_swapped : ∃ (e e' : Editor Unit) (a b : Commitment),
    marks.compute e.document = .ok passed ∧ e.document.content = "\x7b\"m\": \x7b\"a\": true, \"b\": null\x7d\x7d" ∧
    passed.commitAll e [a, b] = .ok e' ∧
    e'.document.content = "\x7b\"m\": \x7b\"a\": [null], \"b\": \"x\"\x7d\x7d" ∧
    passed.commitEach e [a, b] = .ok e' ∧ passed.commitEach e [b, a] = .ok e' := by
  let e : Editor Unit := .ofDocument marked
  let a : Commitment := ⟨0, "a", .list [.null]⟩
  let b : Commitment := ⟨0, "b", .str "x"⟩
  have hedits : [a, b].mapM passed.editOf = .ok [.replace (.between ⟨0, 12⟩ ⟨0, 16⟩) (.str "[null]"),
      .replace (.between ⟨0, 23⟩ ⟨0, 27⟩) (.str "\"x\"")] := by cbv
  have hedited : edited marked [.replace (.between ⟨0, 12⟩ ⟨0, 16⟩) (.str "[null]"),
      .replace (.between ⟨0, 23⟩ ⟨0, 27⟩) (.str "\"x\"")] =
        .ok "\x7b\"m\": \x7b\"a\": [null], \"b\": \"x\"\x7d\x7d" := by cbv
  have hall := commitAll_eq (e := e) rfl hedits hedited
  have hsuits : ∀ c ∈ [a, b], c.Suits passed := List.forall_mem_cons.mpr
    ⟨(suits_passed (.list (List.forall_mem_singleton.mpr .null))).1, List.forall_mem_singleton.mpr (suits_passed (.str "x")).2⟩
  obtain ⟨pass, hpass, h⟩ := commitEach_eq_commitAll_iff (t := marks) ⟨rfl, by decide, by decide⟩ rfl
    (ofText_eq_ok.mpr ⟨layout, sound_layout, text_layout, rfl⟩)
  obtain rfl := Except.ok.inj (compute_marked.symm.trans hpass)
  obtain ⟨-, h⟩ := h e rfl rfl [a, b] (by decide) hsuits
  have heach := (h _ hall).2.mpr (.inr (by cbv))
  exact ⟨e, _, a, b, hpass, rfl, hall, String.ofList_toList, heach _ (.refl _), heach _ (.swap a b [])⟩

/-- **A value that nests too deep hides the other slots**: lists nested seven hundred deep and another
value are accepted as a batch, but not one after another.  An integer with too many digits is not
accepted at all. -/
theorem commitEach_ne_commitAll : ∃ (e e' : Editor Unit) (a b c : Commitment),
    marks.OfObjects "m" ∧ (∃ root, Json.ofText e.document.content = .ok root) ∧ e.pending = [] ∧
    marks.compute e.document = .ok passed ∧ a.Suits passed ∧ b.Suits passed ∧ c.Suits passed ∧ a.slot ≠ b.slot ∧
    passed.commitAll e [a, b] = .ok e' ∧ passed.commitEach e [a, b] ≠ .ok e' ∧
    ∀ e'', passed.commitAll e [c] ≠ .ok e'' := by
  let e : Editor Unit := .ofDocument marked
  let a : Commitment := ⟨0, "a", nested 700⟩
  let b : Commitment := ⟨0, "b", .bool false⟩
  let c : Commitment := ⟨0, "a", .int ((10 ^ digitLimit : Nat) : Int)⟩
  have ha : a.Suits passed := (suits_passed (isJson_nested 700)).1
  have hb : b.Suits passed := (suits_passed (.bool false)).2
  have hc : c.Suits passed := (suits_passed (.int _)).1
  have hdistinct : ([a, b].map Commitment.slot).Nodup := by decide
  obtain ⟨hmem, hold⟩ := saw_passed.exists_holds ofObjects_passed ha
  obtain ⟨hmem', hold'⟩ := saw_passed.exists_holds ofObjects_passed hb
  have hwritten : passed.Written a := ⟨hmem, ha.isJson, ⟨fits_nested 700, (depth_nested 700).trans_le (by decide)⟩⟩
  have hwritten' : passed.Written b := ⟨hmem', hb.isJson, fun n hn => (nomatch hn), Nat.zero_le _⟩
  have hholds : ∀ c ∈ [a, b], ∃ place old, Holds "m" layout.phrase c.slot place old :=
    List.forall_mem_cons.mpr ⟨hold, List.forall_mem_singleton.mpr hold'⟩
  obtain ⟨p', hputs⟩ := exists_puts hholds hdistinct
  obtain ⟨place, old, hold⟩ := hold
  have hdeep : treeFrames < (place.fill a.phrase).frames :=
    Nat.lt_of_lt_of_le (by rw [Commitment.phrase, frames_nested]; decide) (place.frames_le_fill a.phrase)
  refine ⟨e, _, a, b, c, ⟨rfl, by decide, by decide⟩, ⟨_, ofText_eq_ok.mpr ⟨layout, sound_layout, text_layout, rfl⟩⟩, rfl,
    compute_marked, ha, hb, hc, by decide,
    commitAll_of_puts (e := e) ofObjects_passed saw_passed rfl hdistinct
      (List.forall_mem_cons.mpr ⟨hwritten, List.forall_mem_singleton.mpr hwritten'⟩) hholds hputs, fun h => ?_, fun e'' h => ?_⟩
  · cases (commitEach_of_deep (e := e) ofObjects_passed saw_passed rfl rfl hwritten hwritten' hold hdeep []).symm.trans h
  · obtain ⟨edits, hedits, -⟩ := bind_eq_ok.mp h
    obtain ⟨edit, hedit⟩ := exists_of_mapM_eq_ok (mapError_eq_ok.mp hedits) c List.mem_cons_self
    have hfits := (saw_passed.written_of_editOf ofObjects_passed hc hedit).fits.1 _ List.mem_cons_self
    exact absurd hfits (Nat.lt_irrefl _)

end Template

end SlotEdit
