import SlotEdit.Proofs.Template.Committing
import SlotEdit.Proofs.Json.Removing
import SlotEdit.Proofs.Json.Punctuation
import SlotEdit.Proofs.Edit.Splicing

/-!
# Proofs/Template/Batches — properties added and taken out in one batch

Each edit is made as if it were the only one: an addition to an empty object has no comma, and any
other addition has one in front of it.  So a batch that adds twice to an empty object, or adds to an
object whose only property it takes out, leaves no JSON (`Clash`).  Every other batch that is accepted
does what each of its requests asks for (`batch_has_tree_iff`).
-/

namespace SlotEdit

open Json Json.Phrase

/-- What is asked of the object of a fragment: a slot that is missing is given a value, or one that is
there is taken out. -/
inductive Request
  | add (key : String) (value : Value)
  | remove (key : String)

namespace Request

/-- The key of the slot. -/
def key : Request → String
  | .add k _ => k
  | .remove k => k

/-- The keys and values that are added, in the order of the requests. -/
def additions (requests : List Request) : List (String × Value) :=
  requests.filterMap fun
    | .add k v => some (k, v)
    | .remove _ => none

/-- The keys that are taken out. -/
def removals (requests : List Request) : List String :=
  requests.filterMap fun
    | .add _ _ => none
    | .remove k => some k

/-- **A request that suits an object** with some properties: the slot is declared; an added one is
missing and gets a JSON value, one that is taken out is there just once. -/
inductive Suits [Interpreter] (spec : SlotSpecification) (es : List (Value × Value)) : Request → Prop
  | add {k : String} {v : Value} (hk : k ∈ spec.map Prod.fst) (hmissing : ∀ e ∈ es, e.1 ≠ .str k)
      (hv : v.IsJson) (hfits : v.FitsWithin nestingLimit) : Suits spec es (.add k v)
  | remove {k : String} {front back : List (Value × Value)} {v : Value} (hk : k ∈ spec.map Prod.fst)
      (hes : es = front ++ (.str k, v) :: back) (honce : ∀ e ∈ front ++ back, e.1 ≠ .str k) :
      Suits spec es (.remove k)

/-- The edit a template makes of a request for a fragment. -/
def Makes [Interpreter] (t : Template) (h : Handle) : Request → TextEdit → Prop
  | .add k v, e => t.commit h k v = .ok e
  | .remove k, e => t.delete h k = .ok (some e)

/-- **Where the edit of a request stands**: an addition at a point, with a separator and blanks before
the member; a removal where the object has the key. -/
def Stands (d : Document) (object : Node) (stop : Nat) (separator : List Char) : Request → Placed → Prop
  | .add k v, p => p.span = ⟨stop, stop⟩ ∧
      ∃ layout, Spaces layout ∧ p.chars = renderItems separator [added layout k (ofValue v)]
  | .remove k, p => p = removal d object k

end Request

namespace Template

variable {t : Template} {key : String} {d : Document} {w : Whole} {i : Nat} {s : Nat × Phrase}

/-- A slot that is there is taken out of the object of the fragment. -/
theorem delete_of_slot {b : Bound} {slot : Slot} {object : Node} {h : Handle} {k : String}
    (hsubject : t.subject = objectsOf key) (hb : t.boundOf h = .ok b)
    (hslot : findSlot? b.slots k = some slot) (hkey : slot.key = k)
    (hobject : Shape.jsonObject.check b.fragment = .ok object) :
    t.delete h k = .ok (Json.deletionEdit? b.fragment.document object k) := by
  rw [delete_eq hb, hslot]
  show t.deletionEdit b.fragment slot = _
  rw [deletionEdit, hsubject, hkey]
  show ((Shape.jsonObject.check b.fragment).mapError TemplateFault.shape >>= fun object => _) = _
  rw [hobject]
  rfl

/-- **Every request that suits the object becomes an edit.** -/
theorem exists_edit [Interpreter] (ht : t.OfObjects key) (hblank : t.InsertsBlanks) (h : t.Saw key d w)
    (hs : (assignments key w.phrase w.start)[i]? = some s) {items : List (Item Phrase)}
    {trail front back : List Char}
    (htext : d.content.toList = front ++ (Phrase.group .object items trail).render ++ back)
    (hnode : objectNode s = (Phrase.group .object items trail).node front.length)
    (hmembers : ∀ i ∈ items, i.content.isMember = true) {r : Request}
    (hr : r.Suits t.specification (items.map fun i => entry i.content)) :
    ∃ edit, r.Makes t ⟨t.pass, i⟩ edit ∧
      r.Stands d (objectNode s) (front.length + 1 + (renderItems [] items).length) (separatorAfter [] items)
        ⟨d.spanOf edit.range, edit⟩ := by
  have hcheck := check_eq (d := d) (isAssignment_of_mem (List.mem_of_getElem? hs))
  cases hr with
  | @add k v hk hmissing hv hfits =>
    obtain ⟨⟨k, valuator⟩, hmem, rfl⟩ := List.mem_map.mp hk
    obtain rfl : valuator = .json := ht.json _ hmem
    have hnone : ∀ i ∈ items, i.content.key ≠ k := fun i hi heq =>
      hmissing (entry i.content) (List.mem_map_of_mem hi) (Value.ofText_eq_str.mpr heq)
    have hslot := findSlot?_boundAt (d := d) ht.distinct hmem s
    rw [hnode, property?_eq_none hnone] at hslot
    obtain ⟨layout, text, hlayout, hrender, hedit⟩ := exists_layout d
      front.length items trail k (ofValue v) hblank.indentation hblank.lineBreak
    refine ⟨_, commit_of_none ht.subject hmem ht.distinct (h.boundOf_eq hs) hslot hcheck (serialize_json hv hfits), ?_⟩
    rw [hnode]
    show Request.Stands d _ _ _ _ ⟨d.spanOf (Json.insertionEdit d _ _ _ _ _).range, Json.insertionEdit d _ _ _ _ _⟩
    rw [hedit]
    refine ⟨d.spanOf_single ?_, layout, hlayout, ?_⟩
    · rw [htext, render_group]
      simp only [List.length_append, List.length_cons]
      omega
    · rw [renderItems_added, ← hrender]
      rfl
  | @remove k es es' v hk hes honce =>
    obtain ⟨⟨k, valuator⟩, hmem, rfl⟩ := List.mem_map.mp hk
    obtain ⟨xs, rest, rfl, rfl, hrest⟩ := List.map_eq_append_iff.mp hes
    obtain ⟨⟨gap, lead, m⟩, ys, rfl, hentry, rfl⟩ := List.map_eq_cons_iff.mp hrest
    have hkey : m.key = k := Value.ofText_eq_str.mp (congrArg Prod.fst hentry)
    have hys : ∀ j ∈ ys, j.content.key ≠ k := fun j hj heq =>
      honce (entry j.content) (List.mem_append_right _ (List.mem_map_of_mem hj)) (Value.ofText_eq_str.mpr heq)
    have hmember := hmembers ⟨gap, lead, m⟩ (List.mem_append_right xs List.mem_cons_self)
    obtain ⟨key', before, after, content, rfl⟩ := exists_member hmember
    have hslot := findSlot?_boundAt (d := d) ht.distinct hmem s
    rw [hnode, propertyValue?_eq_some hkey hys] at hslot
    have hedit := @deletionEdit?_node _ d xs _ _ trail front.length hmember hkey hys
    rw [← hnode] at hedit
    refine ⟨_, (delete_of_slot ht.subject (h.boundOf_eq hs) hslot rfl hcheck).trans (congrArg Except.ok hedit), ?_⟩
    show _ = removal d _ k
    rw [removal, hedit, Option.getD_some]

/-- The edits of all requests that suit the object. -/
theorem exists_edits [Interpreter] (ht : t.OfObjects key) (hblank : t.InsertsBlanks) (h : t.Saw key d w)
    (hs : (assignments key w.phrase w.start)[i]? = some s) {items : List (Item Phrase)}
    {trail front back : List Char}
    (htext : d.content.toList = front ++ (Phrase.group .object items trail).render ++ back)
    (hnode : objectNode s = (Phrase.group .object items trail).node front.length)
    (hmembers : ∀ i ∈ items, i.content.isMember = true) {requests : List Request}
    (hr : ∀ r ∈ requests, r.Suits t.specification (items.map fun i => entry i.content)) :
    ∃ edits, List.Forall₂ (Request.Makes t ⟨t.pass, i⟩) requests edits ∧
      List.Forall₂ (Request.Stands d (objectNode s) (front.length + 1 + (renderItems [] items).length)
        (separatorAfter [] items)) requests (located d edits) := by
  induction requests with
  | nil => exact ⟨[], .nil, .nil⟩
  | cons r requests ih =>
    rw [List.forall_mem_cons] at hr
    obtain ⟨edit, hmakes, hstands⟩ := exists_edit ht hblank h hs htext hnode hmembers hr.1
    obtain ⟨edits, hmake, hstand⟩ := ih hr.2
    exact ⟨edit :: edits, .cons hmakes hmake, .cons hstands hstand⟩

/-- A member that was added for a key and a value. -/
def IsAdded (a : String × Value) (i : Item Phrase) : Prop :=
  ∃ layout, Spaces layout ∧ i = added layout a.1 (ofValue a.2)

/-- **The edits of a batch** are the cuts of the keys taken out and, at one point, the members added. -/
theorem edits_of_stands {object : Node} {stop : Nat} {separator : List Char} {requests : List Request}
    {ps : List Placed} (h : List.Forall₂ (Request.Stands d object stop separator) requests ps)
    (hlt : ∀ k ∈ Request.removals requests, (removal d object k).span.start < stop) :
    (∀ p ∈ ps, p.span.start < stop ∨ p.span = ⟨stop, stop⟩) ∧
      (ps.filter fun p => p.span.start < stop) =
        (Request.removals requests).map (fun k : String => removal d object k) ∧
      ∃ addeds, List.Forall₂ IsAdded (Request.additions requests) addeds ∧
        (ps.filter fun p => !decide (p.span.start < stop)).flatMap Placed.chars =
          addeds.flatMap fun i => renderItems separator [i] := by
  induction h with
  | nil => exact ⟨fun p hp => (nomatch hp), rfl, [], .nil, rfl⟩
  | @cons r p requests ps hr _ ih =>
    cases r with
    | add k v =>
      obtain ⟨hall, hcuts, addeds, hadded, hchars⟩ := ih hlt
      obtain ⟨hspan, layout, hlayout, htext⟩ := hr
      have hge : ¬ p.span.start < stop := by rw [hspan]; exact Nat.lt_irrefl stop
      refine ⟨List.forall_mem_cons.mpr ⟨.inr hspan, hall⟩, ?_, added layout k (ofValue v) :: addeds,
        .cons ⟨layout, hlayout, rfl⟩ hadded, ?_⟩
      · rw [List.filter_cons_of_neg (by simpa using hge), hcuts]
        rfl
      · rw [List.filter_cons_of_pos (by simpa using hge), List.flatMap_cons, List.flatMap_cons, hchars, htext]
    | remove k =>
      have hlt := List.forall_mem_cons.mp hlt
      obtain ⟨hall, hcuts, addeds, hadded, hchars⟩ := ih hlt.2
      obtain rfl : p = removal d object k := hr
      refine ⟨List.forall_mem_cons.mpr ⟨.inl hlt.1, hall⟩, ?_, addeds, hadded, ?_⟩
      · rw [List.filter_cons_of_pos (by simpa using hlt.1), hcuts]
        rfl
      · rw [List.filter_cons_of_neg (by simpa using hlt.1), hchars]

/-! ## What the object is then -/

/-- **The members of an object whose requests are answered**: those whose keys are not taken out, and
behind them the added ones. -/
structure Answers (requests : List Request) (items items' : List (Item Phrase)) : Prop where
  exists_append : ∃ stay addeds, items' = stay ++ addeds ∧
    List.Forall₂ IsAdded (Request.additions requests) addeds ∧
    (∀ k ∈ Request.removals requests, lastMember? k stay = none) ∧
    ∀ k ∉ Request.removals requests, lastMember? k stay = lastMember? k items

theorem shaped_append_addeds {adds : List (String × Value)} {addeds items : List (Item Phrase)} {trail : List Char}
    (h : List.Forall₂ IsAdded adds addeds) (hv : ∀ a ∈ adds, a.2.IsJson)
    (hitems : (Phrase.group .object items trail).Shaped) : (Phrase.group .object (items ++ addeds) trail).Shaped := by
  induction h generalizing items with
  | nil => rwa [List.append_nil]
  | @cons a i adds addeds hadded _ ih =>
    obtain ⟨layout, hlayout, rfl⟩ := hadded
    rw [List.forall_mem_cons] at hv
    have hnext := ih hv.2 (shaped_append_added hitems hlayout a.1 (shaped_ofValue hv.1) (isMember_ofValue a.2))
    rwa [List.append_assoc, List.singleton_append] at hnext

theorem readable_append_addeds [Interpreter] {adds : List (String × Value)} {addeds items : List (Item Phrase)}
    {trail : List Char}
    (h : List.Forall₂ IsAdded adds addeds) (hv : ∀ a ∈ adds, a.2.IsJson ∧ a.2.Fits)
    (hitems : (Phrase.group .object items trail).Readable) :
    (Phrase.group .object (items ++ addeds) trail).Readable := by
  rw [readable_group] at hitems ⊢
  refine List.forall_mem_append.mpr ⟨hitems, ?_⟩
  induction h with
  | nil => exact fun i hi => nomatch hi
  | @cons a i adds addeds hadded _ ih =>
    obtain ⟨layout, -, rfl⟩ := hadded
    rw [List.forall_mem_cons] at hv
    exact List.forall_mem_cons.mpr ⟨readable_added a.1 (readable_ofValue hv.1.1 hv.1.2), ih hv.2⟩

theorem flatMap_renderItems (addeds : List (Item Phrase)) :
    addeds.flatMap (fun i => renderItems [','] [i]) = renderItems [','] addeds := by
  induction addeds with
  | nil => rfl
  | cons i addeds ih => rw [List.flatMap_cons, ih, ← renderItems_cons]

/-- **Two requests of a batch clash**: two members are added to an empty object, or one is added to an
object whose only member is taken out. -/
def Clash (count : Nat) (requests : List Request) : Prop :=
  count = 0 ∧ 2 ≤ (Request.additions requests).length ∨
    count = 1 ∧ Request.removals requests ≠ [] ∧ Request.additions requests ≠ []

section Answer

variable {items : List (Item Phrase)} {trail front back : List Char} {requests : List Request}
  {edits : List TextEdit} {content : String}

/-- **The text of an accepted batch**: the cuts, with the added members behind the last item. -/
theorem exists_foldr_cuts
    (htext : d.content.toList = front ++ (Phrase.group .object items trail).render ++ back)
    (hobject : (Phrase.group .object items trail).Shaped) (hks : (Request.removals requests).Nodup)
    (honce : ∀ k ∈ Request.removals requests, (items.map fun i => i.content.key).count (k : LooseText) = 1)
    (hstands : List.Forall₂ (Request.Stands d ((Phrase.group .object items trail).node front.length)
      (front.length + 1 + (renderItems [] items).length) (separatorAfter [] items)) requests (located d edits))
    (hedited : edited d edits = .ok content) :
    ∃ addeds insertions, List.Forall₂ IsAdded (Request.additions requests) addeds ∧
      insertions.flatMap Placed.chars = addeds.flatMap (fun i => renderItems (separatorAfter [] items) [i]) ∧
      (∀ p ∈ insertions, p.span.start = front.length + 1 + (renderItems [] items).length) ∧
      (cuts d (front.length + 1) trail (Request.removals requests) [] items ++ insertions).Pairwise
        (fun a b => a.span.stop ≤ b.span.start) ∧
      content.toList = (cuts d (front.length + 1) trail (Request.removals requests) [] items).foldr Placed.splice
        (front ++ ['\x7b'] ++ (renderItems [] items ++
          (insertions.flatMap Placed.chars ++ (trail ++ '\x7d' :: back)))) := by
  have hmembers := isMember_of_shaped hobject
  have hrender : ∀ i ∈ items, i.content.render ≠ [] := fun i hi => by
    obtain ⟨k, before, after, content, hcontent⟩ := exists_member (hmembers i hi)
    rw [hcontent, render]
    simp
  have hperm := map_removal_perm htext hmembers hks honce
  have hlt : ∀ k ∈ Request.removals requests, (removal d ((Phrase.group .object items trail).node front.length) k).span.start <
      front.length + 1 + (renderItems [] items).length := fun k hk =>
    (start_of_mem_cuts hrender (hperm.mem_iff.mp (List.mem_map_of_mem hk))).2
  obtain ⟨hall, hcuts, addeds, hadded, hchars⟩ := edits_of_stands hstands hlt
  have hplaced := placed_eq_append hall (hcuts ▸ hperm) (pairwise_cuts hrender)
  have hinsertions : ∀ p ∈ (located d edits).filter fun p =>
      !decide (p.span.start < front.length + 1 + (renderItems [] items).length),
      p.span = ⟨(front ++ ['\x7b'] ++ renderItems [] items).length,
        (front ++ ['\x7b'] ++ renderItems [] items).length⟩ := by
    intro p hp
    obtain ⟨hp, hge⟩ := List.mem_filter.mp hp
    have hspan := (hall p hp).resolve_left (by simpa using hge)
    rw [hspan]
    simp only [List.length_append, List.length_singleton]
  refine ⟨addeds, _, hadded, hchars, fun p hp => ?_, hplaced ▸ (inOrder_placed hedited).apart, ?_⟩
  · rw [hinsertions p hp]
    simp only [List.length_append, List.length_singleton]
  · have hsplit : d.content.toList = front ++ ['\x7b'] ++ renderItems [] items ++ (trail ++ '\x7d' :: back) := by
      rw [htext, render_group, Bracket.opening, Bracket.closing]
      simp only [List.append_assoc, List.cons_append, List.nil_append]
    rw [toList_of_edited hedited, hplaced, List.foldr_append, hsplit, foldr_insertions hinsertions]
    simp only [List.append_assoc]

/-- What is added begins with a comma when there was a property, and with a quote behind blanks when
there was none; neither may stand where it then stands. -/
theorem punctuated_of_clash {addeds : List (Item Phrase)} {adds : List (String × Value)}
    (h : List.Forall₂ IsAdded adds addeds) (hv : ∀ a ∈ adds, a.2.IsJson) (rest : List Char) :
    (adds ≠ [] → punctuated .plain true (addeds.flatMap (fun i => renderItems [','] [i]) ++ rest) = false) ∧
      (2 ≤ adds.length → punctuated .plain true (addeds.flatMap (fun i => renderItems [] [i]) ++ rest) = false) := by
  cases h with
  | nil => exact ⟨fun h => absurd rfl h, fun h => absurd h (by decide)⟩
  | @cons a i adds addeds ha htail =>
    obtain ⟨layout, hlayout, rfl⟩ := ha
    refine ⟨fun _ => ?_, fun hlen => ?_⟩
    · rw [List.flatMap_cons, renderItems_added]
      rfl
    · cases htail with
      | nil => exact absurd hlen (show ¬ 2 ≤ 1 by decide)
      | @cons a' i' adds addeds ha' _ =>
        obtain ⟨layout', hlayout', rfl⟩ := ha'
        have hfirst : (Phrase.member (escaped a.1) [] [' '] (ofValue a.2)).Shaped :=
          .member (stringEnd?_escaped a.1) (fun c hc => nomatch hc) (List.forall_mem_singleton.mpr rfl)
            (isMember_ofValue a.2) (shaped_ofValue (hv a List.mem_cons_self))
        rw [List.flatMap_cons, List.flatMap_cons, renderItems_added, renderItems_added]
        simp only [List.append_assoc, List.nil_append]
        rw [punctuated_blank (isSilent_of_blank hlayout.blank), punctuated_render hfirst,
          punctuated_blank (isSilent_of_blank hlayout'.blank), render]
        rfl

/-- What a batch makes of an object when it adds to the members it leaves, of which there is one if
there was one. -/
theorem exists_answer_of_apart [Interpreter] {addeds : List (Item Phrase)}
    (hapart : Apart (Request.removals requests) items)
    (hobject : (Phrase.group .object items trail).Shaped) (hread : (Phrase.group .object items trail).Readable)
    (hvalues : ∀ a ∈ Request.additions requests, a.2.IsJson ∧ a.2.Fits)
    (hadded : List.Forall₂ IsAdded (Request.additions requests) addeds)
    (hfew : items = [] → addeds.length ≤ 1) {s : List Char}
    (hs : s = front ++ ['\x7b'] ++ (renderItems [] (kept (Request.removals requests) items) ++
      (addeds.flatMap (fun i => renderItems (separatorAfter [] items) [i]) ++ (trail ++ '\x7d' :: back)))) :
    ∃ items' trail', s = front ++ (Phrase.group .object items' trail').render ++ back ∧
      (Phrase.group .object items' trail').Shaped ∧ (Phrase.group .object items' trail').Readable ∧
      Answers requests items items' := by
  refine ⟨kept (Request.removals requests) items ++ addeds, trail, ?_,
    shaped_append_addeds hadded (fun a ha => (hvalues a ha).1) (shaped_kept _ hobject),
    readable_append_addeds hadded hvalues (readable_kept _ hread),
    ⟨_, _, rfl, hadded, fun k hk => lastMember?_kept_of_removed hapart hk,
      fun k hk => lastMember?_kept_of_stays hapart hk⟩⟩
  have hinserted : addeds.flatMap (fun i => renderItems (separatorAfter [] items) [i]) =
      renderItems (separatorAfter [] (kept (Request.removals requests) items)) addeds := by
    cases items with
    | nil =>
      match addeds, hfew rfl with
      | [], _ => rfl
      | [i], _ => exact List.append_nil _
    | cons i items =>
      have hne : kept (Request.removals requests) (i :: items) ≠ [] := fun h => nomatch kept_eq_nil.mp h
      obtain ⟨j, rest, hkept⟩ := List.exists_cons_of_ne_nil hne
      rw [hkept]
      exact flatMap_renderItems addeds
  rw [hs, hinserted, render_group, renderItems_append, Bracket.opening, Bracket.closing]
  simp only [List.append_assoc, List.cons_append, List.nil_append]

/-- What a batch makes of an object whose only member it takes out and to which it adds nothing. -/
theorem answers_nil {i : Item Phrase} {k : String} (hk : k ∈ Request.removals requests) (hkey : k = i.content.key)
    (hadd : Request.additions requests = []) : Answers requests [i] [] := by
  refine ⟨[], [], rfl, hadd ▸ .nil, fun k _ => rfl, fun k' hk' => ?_⟩
  rw [lastMember?_singleton, if_neg]
  · rfl
  · exact fun h => hk' (LooseText.ofString_inj.mp (hkey.trans (beq_iff_eq.mp h)) ▸ hk)

/-- **What an accepted batch makes of an object**: when two of its requests clash, a text with a comma
or a quote where none may stand; otherwise an object in which the requests are answered. -/
theorem exists_answer [Interpreter]
    (htext : d.content.toList = front ++ (Phrase.group .object items trail).render ++ back)
    (hobject : (Phrase.group .object items trail).Shaped) (hread : (Phrase.group .object items trail).Readable)
    (hks : (Request.removals requests).Nodup)
    (honce : ∀ k ∈ Request.removals requests, (items.map fun i => i.content.key).count (k : LooseText) = 1)
    (hvalues : ∀ a ∈ Request.additions requests, a.2.IsJson ∧ a.2.Fits)
    (hstands : List.Forall₂ (Request.Stands d ((Phrase.group .object items trail).node front.length)
      (front.length + 1 + (renderItems [] items).length) (separatorAfter [] items)) requests (located d edits))
    (hedited : edited d edits = .ok content) :
    (Clash items.length requests → ∃ rest, content.toList = front ++ '\x7b' :: rest ∧
      punctuated .plain true rest = false) ∧
    (¬ Clash items.length requests → ∃ items' trail',
      content.toList = front ++ (Phrase.group .object items' trail').render ++ back ∧
        (Phrase.group .object items' trail').Shaped ∧ (Phrase.group .object items' trail').Readable ∧
        Answers requests items items') := by
  obtain ⟨addeds, insertions, hadded, hchars, hstart, horder, hcontent⟩ :=
    exists_foldr_cuts htext hobject hks honce hstands hedited
  have hlength : (front ++ ['\x7b']).length = front.length + 1 := List.length_append
  by_cases hone : ∃ i, items = [i] ∧ stays (Request.removals requests) i = false
  · obtain ⟨i, rfl, hstays⟩ := hone
    obtain ⟨k, hk, hkey⟩ : ∃ k ∈ Request.removals requests, LooseText.ofString k = i.content.key := by
      simpa [stays] using hstays
    have hspan : (cut d (front.length + 1) trail [] i []).span = ⟨(front ++ ['\x7b']).length,
        (front ++ ['\x7b']).length + (renderItems [] [i] ++ trail).length⟩ := by
      rw [cut, removalSpan, hlength, List.length_append, Nat.add_assoc _ _ trail.length]
    rw [cuts, if_neg (by simp [hstays]), cuts] at hcontent horder
    by_cases hadd : Request.additions requests = []
    · -- the braces are all that is left
      refine ⟨fun hclash => ?_, fun _ => ⟨[], [], ?_, .group (List.forall_mem_nil _) (fun i hi => absurd hi (Option.not_mem_none i))
        (List.forall_mem_nil _) (List.forall_mem_nil _) (List.forall_mem_nil _),
        readable_group.mpr (List.forall_mem_nil _), answers_nil hk hkey hadd⟩⟩
      · exact hclash.elim (fun h => absurd h.1 Nat.one_ne_zero) fun h => absurd hadd h.2.2
      · have hsplice := splice_cut (c := '\x7d' :: back) hspan rfl
        rw [hadd] at hadded
        obtain rfl := List.forall₂_nil_left_iff.mp hadded
        rw [hcontent, hchars, render_group, Bracket.opening, Bracket.closing]
        simp only [List.append_assoc, List.cons_append, List.nil_append, List.foldr_cons, List.foldr_nil,
          List.flatMap_nil, renderItems] at hsplice ⊢
        exact hsplice
    · -- the additions stand behind the brace, the first one with its comma
      refine ⟨fun _ => ?_, fun hclash => absurd (.inr ⟨rfl, List.ne_nil_of_mem hk, hadd⟩) hclash⟩
      obtain ⟨p, hp⟩ : ∃ p, p ∈ insertions := by
        refine List.exists_mem_of_ne_nil insertions fun hnil => ?_
        obtain ⟨a, adds, hadds⟩ := List.exists_cons_of_ne_nil hadd
        rw [hadds] at hadded
        obtain ⟨_, rest, ⟨layout, -, rfl⟩, -, rfl⟩ := List.forall₂_cons_left_iff.mp hadded
        rw [hnil, List.flatMap_cons, renderItems_added] at hchars
        cases hchars
      obtain rfl : trail = [] := by
        have hle := (List.pairwise_cons.mp horder).1 p (List.mem_append_right _ hp)
        rw [hspan, hstart p hp] at hle
        simp only [List.length_append, List.length_singleton] at hle
        exact List.length_eq_zero_iff.mp (by omega)
      refine ⟨_, ?_, (punctuated_of_clash hadded (fun a ha => (hvalues a ha).1) ('\x7d' :: back)).1 hadd⟩
      have hsplice := splice_cut (c := insertions.flatMap Placed.chars ++ '\x7d' :: back) hspan rfl
      rw [hchars] at hcontent hsplice
      simp only [List.append_assoc, List.cons_append, List.nil_append, List.foldr_cons, List.foldr_nil,
        List.append_nil] at hcontent hsplice
      exact hcontent.trans hsplice
  · have hapart : Apart (Request.removals requests) items := by
      refine apart_of_pairwise (fun i hi => ?_) (List.pairwise_append.mp horder).1
      by_contra hstays
      exact hone ⟨i, hi, Bool.eq_false_iff.mpr hstays⟩
    rw [← hlength, foldr_cuts hapart, hchars] at hcontent
    refine ⟨fun hclash => ?_, fun hclash => exists_answer_of_apart hapart hobject hread hvalues hadded
      (fun hnil => ?_) hcontent⟩
    · rcases hclash with ⟨hzero, htwo⟩ | ⟨hcount, hremove, -⟩
      · obtain rfl := List.length_eq_zero_iff.mp hzero
        refine ⟨_, ?_, (punctuated_of_clash hadded (fun a ha => (hvalues a ha).1) (trail ++ '\x7d' :: back)).2 htwo⟩
        rw [hcontent]
        simp only [List.append_assoc, List.cons_append, List.nil_append]
        rfl
      · obtain ⟨i, rfl⟩ := List.length_eq_one_iff.mp hcount
        obtain ⟨k, hk⟩ := List.exists_mem_of_ne_nil _ hremove
        have hmem := List.count_pos_iff.mp (Nat.lt_of_lt_of_eq Nat.one_pos (honce k hk).symm)
        have hkey : LooseText.ofString k = i.content.key := List.mem_singleton.mp hmem
        exact absurd ⟨i, rfl, by simpa [stays] using ⟨k, hk, hkey⟩⟩ hone
    · by_contra hmany
      have := hadded.length_eq
      exact hclash (.inl ⟨by rw [hnil]; rfl, by omega⟩)

end Answer

/-! ## What the next pass reads -/

section Reads

variable {items items' : List (Item Phrase)} {requests : List Request} {k : String} {v : Value}

theorem mem_additions : (k, v) ∈ Request.additions requests ↔ Request.add k v ∈ requests := by
  rw [Request.additions, List.mem_filterMap]
  constructor
  · rintro ⟨r, hr, h⟩
    cases r with
    | add k' v' =>
      obtain ⟨rfl, rfl⟩ := Prod.mk.inj (Option.some.inj h)
      exact hr
    | remove k' => cases h
  · exact fun h => ⟨_, h, rfl⟩

theorem mem_removals : k ∈ Request.removals requests ↔ Request.remove k ∈ requests := by
  rw [Request.removals, List.mem_filterMap]
  constructor
  · rintro ⟨r, hr, h⟩
    cases r with
    | add k' v' => cases h
    | remove k' => exact Option.some.inj h ▸ hr
  · exact fun h => ⟨_, h, rfl⟩

theorem additions_sublist (requests : List Request) :
    ((Request.additions requests).map Prod.fst).Sublist (requests.map Request.key) := by
  induction requests with
  | nil => exact List.Sublist.refl []
  | cons r requests ih =>
    cases r with
    | add k v => exact ih.cons_cons k
    | remove k => exact ih.cons k

theorem removals_sublist (requests : List Request) :
    (Request.removals requests).Sublist (requests.map Request.key) := by
  induction requests with
  | nil => exact List.Sublist.refl []
  | cons r requests ih =>
    cases r with
    | add k v => exact ih.cons k
    | remove k => exact ih.cons_cons k

/-- Among added members a key finds the value added for it. -/
theorem lastMember?_addeds {adds : List (String × Value)} {addeds : List (Item Phrase)}
    (h : List.Forall₂ IsAdded adds addeds) (hdistinct : (adds.map Prod.fst).Nodup) (k : String) :
    (lastMember? k addeds).map inner = (adds.lookup k).map ofValue := by
  induction h with
  | nil => rfl
  | @cons a i adds addeds ha hrest ih =>
    obtain ⟨k', v⟩ := a
    obtain ⟨layout, -, rfl⟩ := ha
    rw [List.map_cons, List.nodup_cons] at hdistinct
    have hnone : adds.lookup k' = none := List.lookup_eq_none_iff.mpr fun e he =>
      bne_iff_ne.mpr fun heq => hdistinct.1 (List.mem_map.mpr ⟨e, he, heq.symm⟩)
    have hih := ih hdistinct.2
    rw [← List.singleton_append, lastMember?_append, lastMember?_singleton, key_added, List.lookup_cons]
    by_cases hkey : k' = k
    · subst hkey
      rw [hnone, Option.map_none, Option.map_eq_none_iff] at hih
      rw [hih, beq_self_eq_true, beq_self_eq_true]
      rfl
    · rw [if_neg (by simpa [LooseText.ofString_inj] using hkey), Option.or_none, hih, beq_eq_false_iff_ne.mpr (Ne.symm hkey)]

/-- A key that is taken out is there just once. -/
theorem count_of_suits [Interpreter] {spec : SlotSpecification}
    (h : (Request.remove k).Suits spec (items.map fun i => entry i.content)) :
    (items.map fun i => i.content.key).count (k : LooseText) = 1 := by
  cases h with
  | remove hk hes honce =>
    obtain ⟨xs, rest, rfl, rfl, hrest⟩ := List.map_eq_append_iff.mp hes
    obtain ⟨i, ys, rfl, hentry, rfl⟩ := List.map_eq_cons_iff.mp hrest
    have hkey : i.content.key = k := Value.ofText_eq_str.mp (congrArg Prod.fst hentry)
    have hnot {zs : List (Item Phrase)} (hzs : ∀ j ∈ zs, j ∈ xs ++ ys) :
        (zs.map fun i => i.content.key).count (k : LooseText) = 0 := by
      refine List.count_eq_zero_of_not_mem fun hmem => ?_
      obtain ⟨j, hj, heq⟩ := List.mem_map.mp hmem
      refine honce (entry j.content) ?_ (Value.ofText_eq_str.mpr heq)
      rw [← List.map_append]
      exact List.mem_map_of_mem (hzs j hj)
    rw [List.map_append, List.map_cons, List.count_append, hkey, List.count_cons_self,
      hnot fun j hj => List.mem_append_left ys hj, hnot fun j hj => List.mem_append_right xs hj]

theorem values_of_suits [Interpreter] {spec : SlotSpecification} {es : List (Value × Value)}
    (h : ∀ r ∈ requests, r.Suits spec es) : ∀ a ∈ Request.additions requests, a.2.IsJson ∧ a.2.Fits := by
  intro a ha
  cases h _ (mem_additions.mp ha) with
  | add _ _ hv hfits => exact ⟨hv, hfits.1⟩

/-- **What a key finds** in an object whose requests are answered. -/
theorem Answers.rawValue?_eq (h : Answers requests items items') (hdistinct : (requests.map Request.key).Nodup) :
    (∀ k v, Request.add k v ∈ requests → rawValue? k items' = some (String.ofList (ofValue v).render)) ∧
      (∀ k, Request.remove k ∈ requests → rawValue? k items' = none) ∧
      ∀ k ∉ requests.map Request.key, rawValue? k items' = rawValue? k items := by
  obtain ⟨stay, addeds, rfl, hadded, hremoved, hstays⟩ := h.exists_append
  have hadds := hdistinct.sublist (additions_sublist requests)
  have hfound := lastMember?_addeds hadded hadds
  have hnone {k : String} (hk : k ∉ (Request.additions requests).map Prod.fst) : lastMember? k addeds = none := by
    have hlookup : (Request.additions requests).lookup k = none := List.lookup_eq_none_iff.mpr fun e he =>
      bne_iff_ne.mpr fun heq => hk (List.mem_map.mpr ⟨e, he, heq.symm⟩)
    have hmap := hfound k
    rw [hlookup] at hmap
    exact Option.map_eq_none_iff.mp hmap
  refine ⟨fun k v hadd => ?_, fun k hremove => ?_, fun k hk => ?_⟩
  · have hmap := hfound k
    rw [lookup_of_mem hadds (mem_additions.mpr hadd)] at hmap
    obtain ⟨m, hm, hinner⟩ := Option.map_eq_some_iff.mp hmap
    rw [rawValue?, lastMember?_append, hm, Option.some_or, Option.map_some, hinner]
  · have hnot : k ∉ (Request.additions requests).map Prod.fst := by
      rintro hmem
      obtain ⟨⟨k', v⟩, hadd, rfl⟩ := List.mem_map.mp hmem
      have heq := List.inj_on_of_nodup_map hdistinct (mem_additions.mp hadd) hremove rfl
      cases heq
    rw [rawValue?, lastMember?_append, hnone hnot, hremoved k (mem_removals.mpr hremove)]
    rfl
  · rw [rawValue?, lastMember?_append, hnone fun hmem => hk ((additions_sublist requests).subset hmem),
      hstays k fun hmem => hk ((removals_sublist requests).subset hmem)]
    rfl

end Reads

/-- **Which batches leave a text with a tree.**  Every set of requests that suit the object of a
fragment, with distinct keys, becomes a batch of edits.  When an editor accepts the batch, its text has
a tree just when no two requests clash and it does not nest too deep.  The next pass then finds as many
fragments; in the object the added keys read their values, those taken out are gone, and all other
slots and fragments are what they were. -/
theorem batch_has_tree_iff [Interpreter] (ht : t.OfObjects key) (hblank : t.InsertsBlanks) {root : Node}
    (hgrammar : d.language.grammar = some .json) (hparse : Json.ofText d.content = .ok root) :
    ∃ pass, t.compute d = .ok pass ∧ ∀ i < pass.handles.length, ∃ es, pass.properties? i = some es ∧
      ∀ requests : List Request, (requests.map Request.key).Nodup →
        (∀ r ∈ requests, r.Suits t.specification es) →
      ∃ edits, List.Forall₂ (Request.Makes pass ⟨pass.pass, i⟩) requests edits ∧
        ∀ {ω : Type} (e e' : Editor ω) (applied : Applied ω), e.document = d → e.pending = edits →
          e.apply = .ok (e', applied) →
        ((∃ root', Json.ofText e'.document.content = .ok root') ↔
          ¬ Clash es.length requests ∧ nesting e'.document.content.toList ≤ treeFrames) ∧
        ((∃ root', Json.ofText e'.document.content = .ok root') →
          ∃ next, pass.compute e'.document = .ok next ∧
            next.handles.length = pass.handles.length ∧
            (∀ k v, Request.add k v ∈ requests → next.readingOf ⟨next.pass, i⟩ k = .ok (some (.ok v))) ∧
            (∀ k, Request.remove k ∈ requests → next.readingOf ⟨next.pass, i⟩ k = .ok none) ∧
            (∀ k ∉ requests.map Request.key,
              next.readingOf ⟨next.pass, i⟩ k = pass.readingOf ⟨pass.pass, i⟩ k) ∧
            ∀ j ≠ i, next.valuesOf ⟨next.pass, j⟩ = pass.valuesOf ⟨pass.pass, j⟩) := by
  obtain ⟨w, hw, htext, -⟩ := ofText_eq_ok.mp hparse
  refine ⟨_, compute_eq ht.subject hgrammar hw htext, ?_⟩
  generalize hpass : t.after d (assignments key w.phrase w.start) = pass
  have hsaw : pass.Saw key d w := ⟨hw.toShaped, htext, hpass ▸ rfl⟩
  have hobjects : pass.OfObjects key := hpass ▸ ⟨ht.subject, ht.distinct, ht.json⟩
  have hblanks : pass.InsertsBlanks := hpass ▸ ⟨hblank.indentation, hblank.lineBreak⟩
  have hspec : t.specification = pass.specification := hpass ▸ rfl
  intro i hi
  rw [hsaw.length_handles] at hi
  obtain ⟨s, hs⟩ : ∃ s, (assignments key w.phrase w.start)[i]? = some s :=
    ⟨_, List.getElem?_eq_getElem (by rwa [assigned, List.length_map] at hi)⟩
  obtain ⟨place, k', gap, lead, items, trail, hm, hphrase, hnode, hother⟩ := exists_object hs
  have hobject := Place.shaped_of_fill (hphrase ▸ hw.phrase)
  have hread := Place.readable_of_fill (hphrase ▸ hw.readable)
  have hmembers := isMember_of_shaped hobject
  have hfound : (assigned key w)[i]? = some (.member k' gap lead (.group .object items trail)) := by
    rw [assigned, List.getElem?_map, hs, ← hm]
    rfl
  refine ⟨_, hsaw.properties?_eq hfound, fun requests hdistinct hsuits => ?_⟩
  rw [hspec] at hsuits
  have htext' := htext.trans (Whole.text_fill hphrase)
  obtain ⟨edits, hmakes, hstands⟩ := exists_edits hobjects hblanks hsaw hs htext' hnode hmembers hsuits
  refine ⟨edits, hmakes, fun e e' applied he hpending happly => ?_⟩
  obtain ⟨hedited, hdocument⟩ := Editor.edited_of_apply happly
  rw [he, hpending] at hedited
  rw [he] at hdocument
  rw [hnode] at hstands
  obtain ⟨hclash, hanswer⟩ := exists_answer htext' hobject hread (hdistinct.sublist (removals_sublist requests))
    (fun k hk => count_of_suits (hsuits _ (mem_removals.mp hk))) (values_of_suits hsuits) hstands hedited
  rw [List.length_map]
  by_cases hc : Clash items.length requests
  · have hnone : ¬ ∃ root', Json.ofText e'.document.content = .ok root' := by
      rintro ⟨root', hroot⟩
      obtain ⟨w', hw', htext'', -⟩ := ofText_eq_ok.mp hroot
      obtain ⟨rest, hrest, hbad⟩ := hclash hc
      have hgood := punctuated_text hw'.toShaped
      rw [← htext'', hrest, List.append_assoc, punctuated_mark hw.toShaped,
        punctuated_before (hphrase ▸ hw.phrase)] at hgood
      exact Bool.false_ne_true (hbad.symm.trans hgood)
    exact ⟨⟨fun h => absurd h hnone, fun h => absurd hc h.1⟩, fun h => absurd h hnone⟩
  · obtain ⟨items', trail', hcontent, hshaped', hread', hanswers⟩ := hanswer hc
    refine ⟨⟨fun h => ⟨hc, nesting_le h.choose_spec⟩, fun h => ?_⟩, fun htree => ?_⟩
    · obtain ⟨hsound, htext'', -⟩ :=
        exists_compute_holding hobjects.subject hw hphrase hshaped' hread' rfl hgrammar hcontent h.2
      exact ⟨_, ofText_eq_ok.mpr ⟨_, hsound, htext'', rfl⟩⟩
    · obtain ⟨hsound, -, next, hnext, hspec', hset', hsaw'⟩ := exists_compute_holding hobjects.subject hw
        hphrase hshaped' hread' rfl hgrammar hcontent (nesting_le htree.choose_spec)
      have hlist' := hother items' trail'
      have hfound' : (assigned key (w.holding (place.fill (.group .object items' trail'))))[i]? =
          some (.member k' gap lead (.group .object items' trail')) := by
        rw [hlist', List.getElem?_set_self hi]
      have hreading (k : String) : next.readingOf ⟨next.pass, i⟩ k = .ok ((next.specification.lookup k).bind
          fun v => (rawValue? k items').map v.deserialize) :=
        hsaw'.readingOf_eq (hspec' ▸ hobjects.distinct) hfound' k
      have hreading' (k : String) : pass.readingOf ⟨pass.pass, i⟩ k = .ok ((pass.specification.lookup k).bind
          fun v => (rawValue? k items).map v.deserialize) := hsaw.readingOf_eq hobjects.distinct hfound k
      rw [hspec'] at hreading
      obtain ⟨hadds, hremoves, hothers⟩ := hanswers.rawValue?_eq hdistinct
      refine ⟨next, hdocument ▸ hnext, ?_, fun k v hadd => ?_, fun k hremove => ?_, fun k hk => ?_, ?_⟩
      · rw [hsaw'.length_handles, hsaw.length_handles, hlist', List.length_set]
      · obtain ⟨hk, hv, hfits⟩ : k ∈ pass.specification.map Prod.fst ∧ v.IsJson ∧ v.FitsWithin nestingLimit := by
          cases hsuits _ hadd with
          | add hk _ hv hfits => exact ⟨hk, hv, hfits⟩
        obtain ⟨⟨k, valuator⟩, hmem, rfl⟩ := List.mem_map.mp hk
        obtain rfl : valuator = .json := hobjects.json _ hmem
        rw [hreading, lookup_of_mem hobjects.distinct hmem, Option.bind_some, hadds k v hadd, Option.map_some,
          deserialize_json hv hfits]
      · rw [hreading, hremoves k hremove]
        cases pass.specification.lookup k <;> rfl
      · rw [hreading, hreading', hothers k hk]
      · intro j hj
        rw [hsaw'.valuesOf_eq, hsaw.valuesOf_eq, hspec', hset', hlist', List.getElem?_set_ne hj.symm]

/-- Two properties added to an empty object: the second comes without a comma. -/
theorem batch_has_tree_iff_clash : ∃ (t pass : Template) (d : Document) (edits : List TextEdit)
    (e' : Editor Unit) (applied : Applied Unit), t.compute d = .ok pass ∧
    List.Forall₂ (Request.Makes pass ⟨pass.pass, 0⟩) [.add "a" (.bool true), .add "b" .null] edits ∧
    (⟨d, edits, []⟩ : Editor Unit).apply = .ok (e', applied) ∧
    e'.document.content = "\x7b\"m\": \x7b\"a\": true\"b\": null\x7d\x7d" ∧
    ¬ ∃ root, Json.ofText e'.document.content = .ok root := by
  let t : Template := .ofSubject (objectsOf "m") [("a", .json), ("b", .json)] (.named "marks")
  let d : Document := ⟨"\x7b\"m\": \x7b\x7d\x7d", ⟨"JSON", "json", "json", some .json⟩⟩
  let w : Whole := ⟨[], [], ofValue (.dict [(.str "m", .dict [])]), []⟩
  let s : Nat × Phrase := (1, .member ['m', '"'] [] [' '] (.group .object [] []))
  have hempty : (Value.dict []).IsJson := @Value.IsJson.dict [] (by decide) (by simp)
  have hw : w.Sound := sound_ofValue (@Value.IsJson.dict [("m", .dict [])] (by decide)
    (List.forall_mem_singleton.mpr hempty)) (fun n hn => absurd hn List.not_mem_nil) (by decide)
  have htext : d.content.toList = w.text := by cbv
  have hs : assignments "m" w.phrase w.start = [s] := by cbv
  have ht : t.OfObjects "m" := ⟨rfl, by decide, by decide⟩
  have hblank : t.InsertsBlanks :=
    ⟨fun s hs => absurd hs (Option.some_ne_none s).symm, List.all_eq_true.mp (show "\n".toList.all isSpace = true from rfl)⟩
  obtain ⟨pass, hpass, h⟩ := batch_has_tree_iff (d := d) ht hblank rfl (ofText_eq_ok.mpr ⟨w, hw, htext, rfl⟩)
  obtain rfl := Except.ok.inj ((compute_eq ht.subject rfl hw htext).symm.trans hpass)
  rw [hs] at hpass h
  obtain ⟨es, hes, h⟩ := h 0 (by cbv)
  obtain rfl : es = [] := by
    have hnone : (t.after d [s]).properties? 0 = some [] := by cbv
    exact Option.some.inj (hes.symm.trans hnone)
  have htrue : (Value.bool true).FitsWithin nestingLimit := ⟨fun n hn => absurd hn List.not_mem_nil, Nat.zero_le _⟩
  have hnull : Value.null.FitsWithin nestingLimit := ⟨fun n hn => absurd hn List.not_mem_nil, Nat.zero_le _⟩
  have hsuits : ∀ r ∈ [Request.add "a" (.bool true), .add "b" .null], r.Suits t.specification [] :=
    List.forall_mem_cons.mpr ⟨.add (by decide) (by simp) (.bool true) htrue,
      List.forall_mem_singleton.mpr (.add (by decide) (by simp) .null hnull)⟩
  obtain ⟨edits, hmakes, h⟩ := h _ (by decide) hsuits
  have hline : isMultiline d.content.toList (objectNode s) = false := by cbv
  have hposition : d.lines.positionAt 7 = ⟨0, 7⟩ := by cbv
  have hcommit {k : String} {v : Value} (hmem : (k, Valuator.json) ∈ t.specification)
      (hnone : findSlot? (boundAt d t.specification s).slots k = none) (hv : v.IsJson)
      (hfits : v.FitsWithin nestingLimit) :
      (t.after d [s]).commit ⟨1, 0⟩ k v =
        .ok (.insert ⟨0, 7⟩ (.ofText (Json.member k (String.ofList (ofValue v).render)))) := by
    refine (commit_of_none (t := t.after d [s]) rfl hmem (by decide) rfl hnone rfl (serialize_json hv hfits)).trans ?_
    show Except.ok (Json.insertionEdit d (objectNode s) _ _ _ _) = _
    simp only [Json.insertionEdit, hline]
    exact congrArg (fun p => Except.ok (TextEdit.insert p _)) hposition
  have ha := hcommit (k := "a") (by decide) (by cbv) (.bool true) htrue
  have hb := hcommit (k := "b") (by decide) (by cbv) .null hnull
  rw [show Value.ofText (Json.member "a" (String.ofList (ofValue (.bool true)).render)) = .str "\"a\": true" by cbv]
    at ha
  rw [show Value.ofText (Json.member "b" (String.ofList (ofValue .null).render)) = .str "\"b\": null" by cbv] at hb
  obtain rfl : edits = [.insert ⟨0, 7⟩ (.str "\"a\": true"), .insert ⟨0, 7⟩ (.str "\"b\": null")] := by
    rcases hmakes with _ | ⟨h1, _ | ⟨h2, _ | _⟩⟩
    rw [Except.ok.inj (h1.symm.trans ha), Except.ok.inj (h2.symm.trans hb)]
  have hedited : edited d [.insert ⟨0, 7⟩ (.str "\"a\": true"), .insert ⟨0, 7⟩ (.str "\"b\": null")] =
      .ok "\x7b\"m\": \x7b\"a\": true\"b\": null\x7d\x7d" := by cbv
  have happly : (⟨d, [.insert ⟨0, 7⟩ (.str "\"a\": true"), .insert ⟨0, 7⟩ (.str "\"b\": null")], []⟩ :
      Editor Unit).apply =
        .ok (⟨d.withContent "\x7b\"m\": \x7b\"a\": true\"b\": null\x7d\x7d", [], []⟩, ⟨2, []⟩) := by
    show (edited d _ >>= fun content => _) = _
    rw [hedited]
    rfl
  obtain ⟨htree, -⟩ := h _ _ _ rfl rfl happly
  exact ⟨t, _, d, _, _, _, hpass, hmakes, happly, rfl, fun hroot =>
    (htree.mp hroot).1 (.inl ⟨rfl, by decide⟩)⟩

end Template

end SlotEdit
