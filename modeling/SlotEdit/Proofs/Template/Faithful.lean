import SlotEdit.Proofs.Language
import SlotEdit.Proofs.Regex.Scanning
import SlotEdit.Proofs.Template.Committing

/-!
# Proofs/Template/Faithful — fragments and slots hold the text they stand on

Nodes and matches are cut out of a text by offsets, their ranges are rows and columns.  The ranges of
nodes that stand in the text, of matches and of groups lead back to the offsets, so every fragment of
every provider is faithful to the document (`Fragment.Faithful`), and so are the slots of a template
(`fragments_and_slots_faithful`).  A slot that is read as text and given its own value is replaced by
what stands there, so nothing changes.
-/

namespace SlotEdit

variable {d : Document}

/-! ## Pieces of a text -/

/-- **The text in the range of two offsets** is the piece between them. -/
theorem Document.contentIn_rangeOf (d : Document) {a b : Nat} (hab : a ≤ b) (hb : b ≤ d.content.toList.length) :
    d.contentIn (d.lines.rangeOf a b) = slice d.content a b := by
  rw [contentIn, d.spanOf_rangeOf hab hb]

/-- **Putting what stands in a range in its place** changes nothing. -/
theorem edited_contentIn (d : Document) (r : TextRange) :
    edited d [.replace r (.str (d.contentIn r))] = .ok d.content := by
  have hle : (d.spanOf r).start ≤ (d.spanOf r).stop := d.sound_lines.offsetAt_le_offsetAt r.start_le_stop
  have hlength : (d.spanOf r).stop ≤ d.content.toList.length := d.sound_lines.offsetAt_le_length r.stop
  have hwhole : d.content.toList = d.content.toList.take (d.spanOf r).start ++ (d.contentIn r).toList ++
      d.content.toList.drop (d.spanOf r).stop := by
    rw [Document.contentIn, toList_slice, take_append_sliceList _ hle, List.take_append_drop]
  have hspan : d.spanOf r = ⟨(d.content.toList.take (d.spanOf r).start).length,
      (d.content.toList.take (d.spanOf r).start).length + (d.contentIn r).toList.length⟩ := by
    rw [Document.contentIn, toList_slice, length_sliceList _ hlength, List.length_take_of_le (hle.trans hlength),
      Nat.add_sub_cancel' hle]
  rw [edited_singleton (e := .replace r (.str (d.contentIn r))) rfl hspan hwhole, ← hwhole, String.ofList_toList]

/-! ## Nodes that stand in a text -/

/-- **A node that stands in a text**: it encloses its children and does not stick out of the text. -/
structure Node.Stands (text : String) (n : Node) : Prop where
  wellNested : n.WellNested
  stop_le : n.span.stop ≤ text.length

namespace Node.Stands

variable {text : String} {n m : Node}

theorem of_mem_children (h : n.Stands text) (hm : m ∈ n.children) : m.Stands text where
  wellNested := h.wellNested.of_mem_children hm
  stop_le := (h.wellNested.inOrder.mem (List.mem_map_of_mem hm)).2.2.trans h.stop_le

theorem of_mem_walk (h : n.Stands text) (hm : m ∈ n.walk) : m.Stands text where
  wellNested := h.wellNested.of_mem_walk hm
  stop_le := (h.wellNested.stop_le m hm).trans h.stop_le

/-- **The text in the range of a node** is the text of the node. -/
theorem contentIn_range (h : n.Stands d.content) : d.contentIn (n.range d.lines) = n.text d.content :=
  d.contentIn_rangeOf h.wellNested.start_le_stop (String.length_toList ▸ h.stop_le)

theorem propertyValue? (h : n.Stands text) (hm : Json.propertyValue? n = some m) : m.Stands text := by
  rw [Json.propertyValue?.eq_def] at hm
  split at hm
  · obtain rfl := Option.some.inj hm
    exact h.of_mem_children (List.mem_cons_of_mem _ List.mem_cons_self)
  · cases hm

theorem property? {key : String} (h : n.Stands text) (hm : Json.property? n key = some m) : m.Stands text :=
  h.of_mem_children (List.mem_reverse.mp (List.mem_of_find?_eq_some hm))

theorem blockOf? (h : n.Stands text) (hm : Css.blockOf? n = some m) : m.Stands text := by
  rw [Css.blockOf?.eq_def] at hm
  split at hm
  · obtain rfl := Option.some.inj hm
    exact h.of_mem_children (List.mem_cons_of_mem _ List.mem_cons_self)
  · cases hm

theorem declaration? {source key : String} (h : n.Stands text) (hm : Css.declaration? source n key = some m) :
    m.Stands text :=
  h.of_mem_children (List.mem_of_mem_filter (List.mem_reverse.mp (List.mem_of_find?_eq_some hm)))

theorem valueOf? (h : n.Stands text) (hm : Css.valueOf? n = some m) : m.Stands text :=
  h.of_mem_children (List.mem_of_getElem? hm)

end Node.Stands

/-- The root of a document's tree stands in its text. -/
theorem Document.stands_root [Interpreter] {tree : SyntaxTree} (h : d.syntaxTree? = some tree) :
    tree.root.Stands d.content := by
  obtain ⟨g, -, rfl⟩ := Option.map_eq_some_iff.mp h
  obtain ⟨hnested, hstop⟩ := SyntaxTree.wellNested_root g d.content
  exact ⟨hnested, hstop⟩

mutual
/-- **What is found in a tree** is a node of it. -/
theorem TreePattern.mem_walk_of_mem_findIn {p : TreePattern} {source : String} {m : Node} :
    (n : Node) → m ∈ p.findIn source n → m ∈ n.walk
  | .mk form span children, h => by
    rw [findIn] at h
    rw [Node.walk]
    split at h
    · split at h
      · rcases List.mem_cons.mp h with rfl | h
        · exact List.mem_cons_self
        · exact List.mem_cons_of_mem _ (mem_walkAll_of_mem_findInAll children h)
      · exact List.mem_singleton.mp h ▸ List.mem_cons_self
    · exact List.mem_cons_of_mem _ (mem_walkAll_of_mem_findInAll children h)

theorem TreePattern.mem_walkAll_of_mem_findInAll {p : TreePattern} {source : String} {m : Node} :
    (ns : List Node) → m ∈ p.findInAll source ns → m ∈ Node.walkAll ns
  | [], h => nomatch h
  | n :: rest, h => by
    rw [findInAll, List.mem_append] at h
    rw [Node.walkAll, List.mem_append]
    exact h.imp (mem_walk_of_mem_findIn n) (mem_walkAll_of_mem_findInAll rest)
end

/-! ## Fragments -/

/-- **A fragment that is faithful to a document**: its text is what the document has in its range, the node
it is stands there and has this text, and its groups have the texts in theirs. -/
structure Fragment.Faithful (d : Document) (f : Fragment) : Prop where
  document : f.document = d
  text : f.text = d.contentIn f.range
  node : ∀ n, f.node? = some n → n.Stands d.content ∧ f.text = n.text d.content
  groups : ∀ g ∈ f.groups, g.value = d.contentIn g.range

theorem Regex.Finder.faithful_of_mem_fragments {finder : Regex.Finder} :
    ∀ f ∈ finder.fragments d, f.Faithful d := by
  intro f h
  rw [fragments] at h
  split at h
  · cases h
  · obtain ⟨m, hm, rfl⟩ := List.mem_map.mp h
    have hscan : Scan finder.expression d.content.toList.toArray 0 (finder.findAll d.content) :=
      scan_findAllFrom (by rw [Nat.zero_add])
    have hinside := hscan.inside m hm
    refine ⟨rfl, ?_, nofun, fun g hg => ?_⟩
    · exact (d.contentIn_rangeOf hinside.2.1 hinside.2.2).symm
    · obtain ⟨group, hgroup, rfl⟩ := List.mem_map.mp hg
      obtain ⟨hle, hlength⟩ := within_of_mem_findAll hm hgroup
      exact (d.contentIn_rangeOf hle hlength).symm

theorem TreePattern.faithful_of_mem_fragments [Interpreter] {p : TreePattern} : ∀ f ∈ p.fragments d, f.Faithful d := by
  intro f h
  rw [fragments_eq] at h
  split at h
  · cases h
  · split at h
    · cases h
    · next tree htree =>
      obtain ⟨n, hn, rfl⟩ := List.mem_map.mp h
      have hstands := (d.stands_root htree).of_mem_walk (mem_walk_of_mem_findIn tree.root hn)
      refine ⟨rfl, rfl, fun m hm => ?_, List.forall_mem_nil _⟩
      obtain rfl := Option.some.inj hm
      exact ⟨hstands, hstands.contentIn_range⟩

mutual
/-- **The fragments of all providers** are those of regular expressions and tree patterns. -/
theorem Provider.forall_fragments [Interpreter] {P : Fragment → Prop}
    (hregex : ∀ finder : Regex.Finder, ∀ f ∈ finder.fragments d, P f)
    (htree : ∀ pattern : TreePattern, ∀ f ∈ pattern.fragments d, P f) :
    (p : Provider) → {fs : List Fragment} → p.fragments d = .ok fs → ∀ f ∈ fs, P f
  | .regex finder, fs, h => by
    rw [fragments] at h
    exact Except.ok.inj h ▸ hregex finder
  | .tree pattern, fs, h => by
    rw [fragments] at h
    exact Except.ok.inj h ▸ htree pattern
  | .composite providers, fs, h => by
    rw [fragments] at h
    obtain ⟨all, hall, h⟩ := bind_eq_ok.mp h
    obtain rfl := pure_eq_ok.mp h
    exact fun f hf => forall_fragmentsOfAll hregex htree providers hall f (List.mem_mergeSort.mp hf)
  | .holding shape provider, fs, h => by
    rw [fragments] at h
    obtain ⟨found, hfound, h⟩ := bind_eq_ok.mp h
    obtain ⟨nodes, -, h⟩ := bind_eq_ok.mp h
    obtain rfl := pure_eq_ok.mp h
    exact forall_fragments hregex htree provider hfound

theorem Provider.forall_fragmentsOfAll [Interpreter] {P : Fragment → Prop}
    (hregex : ∀ finder : Regex.Finder, ∀ f ∈ finder.fragments d, P f)
    (htree : ∀ pattern : TreePattern, ∀ f ∈ pattern.fragments d, P f) :
    (ps : List Provider) → {fs : List Fragment} → Provider.fragmentsOfAll d ps = .ok fs → ∀ f ∈ fs, P f
  | [], fs, h => by
    rw [fragmentsOfAll] at h
    exact Except.ok.inj h ▸ nofun
  | p :: rest, fs, h => by
    rw [fragmentsOfAll] at h
    obtain ⟨found, hfound, h⟩ := bind_eq_ok.mp h
    obtain ⟨more, hmore, h⟩ := bind_eq_ok.mp h
    obtain rfl := pure_eq_ok.mp h
    exact List.forall_mem_append.mpr
      ⟨forall_fragments hregex htree p hfound, forall_fragmentsOfAll hregex htree rest hmore⟩
end

/-- **All fragments of all providers are faithful** to the document. -/
theorem Provider.faithful_of_mem_fragments [Interpreter] (p : Provider) {fs : List Fragment}
    (h : p.fragments d = .ok fs) :
    ∀ f ∈ fs, f.Faithful d :=
  Provider.forall_fragments (fun finder => finder.faithful_of_mem_fragments)
    (fun pattern => pattern.faithful_of_mem_fragments) p h

/-! ## Slots -/

/-- **A slot that is faithful to a document**: it has the text in its range. -/
def Slot.Faithful (d : Document) (s : Slot) : Prop := s.raw = d.contentIn s.range

/-- A fragment and its slots that are faithful, the slots being for keys of a specification. -/
structure Bound.Faithful (d : Document) (spec : SlotSpecification) (b : Bound) : Prop where
  fragment : b.fragment.Faithful d
  slots : ∀ s ∈ b.slots, s.Faithful d
  keys : ∀ s ∈ b.slots, s.key ∈ spec.map Prod.fst

/-- A fragment that passes the check for a shape holds it. -/
theorem Shape.check_eq_ok {shape : Shape} {f : Fragment} {n : Node} : shape.check f = .ok n ↔ shape.of? f = some n := by
  rw [check]
  cases shape.of? f <;> simp

theorem Shape.stands_of_check {shape : Shape} {f : Fragment} {n : Node} (hf : f.Faithful d)
    (h : shape.check f = .ok n) : n.Stands d.content := by
  have hheld := check_eq_ok.mp h
  cases shape with
  | jsonObject =>
    obtain ⟨m, hm, hheld⟩ := Option.bind_eq_some_iff.mp hheld
    have hm := (hf.node m hm).1
    dsimp only at hheld
    split at hheld
    · obtain rfl := Option.some.inj hheld
      cases hvalue : Json.propertyValue? m with
      | none => exact hm
      | some value => exact hm.propertyValue? hvalue
    · cases hheld
  | cssRule =>
    obtain ⟨m, hm, hheld⟩ := Option.bind_eq_some_iff.mp hheld
    exact (hf.node m hm).1.blockOf? hheld

namespace Subject

theorem faithful_of_mem_held [Interpreter] {shape : Shape} {provider : Provider} {held : List (Fragment × Node)}
    (h : Subject.held shape provider d = .ok held) : ∀ x ∈ held, x.1.Faithful d ∧ x.2.Stands d.content := by
  obtain ⟨fs, hfs, h⟩ := bind_eq_ok.mp h
  intro x hx
  obtain ⟨f, hf, hcheck⟩ := exists_mem_of_mapM_eq_ok h x hx
  obtain ⟨n, hn, hcheck⟩ := bind_eq_ok.mp hcheck
  obtain rfl := pure_eq_ok.mp hcheck
  have hfaithful := provider.faithful_of_mem_fragments hfs f hf
  exact ⟨hfaithful, Shape.stands_of_check hfaithful hn⟩

/-- A fragment with slots that are nodes standing in the text. -/
theorem faithful_of_nodes {f : Fragment} (hf : f.Faithful d) {spec : SlotSpecification} {node? : String → Option Node}
    (hnode : ∀ key n, node? key = some n → n.Stands d.content) :
    (⟨f, slotsOfNodes d d.lines spec node?⟩ : Bound).Faithful d spec := by
  have hslot : ∀ s ∈ slotsOfNodes d d.lines spec node?, s.Faithful d ∧ s.key ∈ spec.map Prod.fst := by
    intro s hs
    obtain ⟨⟨key, v⟩, hentry, hs⟩ := List.mem_filterMap.mp hs
    obtain ⟨n, hn, rfl⟩ := Option.map_eq_some_iff.mp hs
    exact ⟨(hnode key n hn).contentIn_range.symm, List.mem_map_of_mem hentry⟩
  exact ⟨hf, fun s hs => (hslot s hs).1, fun s hs => (hslot s hs).2⟩

/-- **A pass finds faithful fragments with faithful slots.** -/
theorem faithful_of_mem_bound [Interpreter] {subject : Subject} {spec : SlotSpecification} {bound : List Bound}
    (h : subject.bound spec d = .ok bound) : ∀ b ∈ bound, b.Faithful d spec := by
  intro b hb
  cases subject with
  | groups finder =>
    obtain rfl := Except.ok.inj h
    obtain ⟨f, hf, rfl⟩ := List.mem_map.mp hb
    have hfaithful := finder.faithful_of_mem_fragments f hf
    have hslot : ∀ s ∈ spec.filterMap fun e => (f.group? e.1).map fun g => (⟨e.1, g.value, g.range, e.2⟩ : Slot),
        s.Faithful d ∧ s.key ∈ spec.map Prod.fst := by
      intro s hs
      obtain ⟨⟨key, v⟩, hentry, hs⟩ := List.mem_filterMap.mp hs
      obtain ⟨g, hg, rfl⟩ := Option.map_eq_some_iff.mp hs
      exact ⟨hfaithful.groups g (List.mem_of_find?_eq_some hg), List.mem_map_of_mem hentry⟩
    exact ⟨hfaithful, fun s hs => (hslot s hs).1, fun s hs => (hslot s hs).2⟩
  | properties provider =>
    obtain ⟨held, hheld, h⟩ := bind_eq_ok.mp h
    obtain rfl := pure_eq_ok.mp h
    obtain ⟨⟨f, object⟩, hmem, rfl⟩ := List.mem_map.mp hb
    obtain ⟨hf, hobject⟩ := faithful_of_mem_held hheld _ hmem
    refine faithful_of_nodes hf fun key n hn => ?_
    obtain ⟨property, hproperty, hn⟩ := Option.bind_eq_some_iff.mp hn
    exact (hobject.property? hproperty).propertyValue? hn
  | declarations provider =>
    obtain ⟨held, hheld, h⟩ := bind_eq_ok.mp h
    obtain rfl := pure_eq_ok.mp h
    obtain ⟨⟨f, block⟩, hmem, rfl⟩ := List.mem_map.mp hb
    obtain ⟨hf, hblock⟩ := faithful_of_mem_held hheld _ hmem
    refine faithful_of_nodes hf fun key n hn => ?_
    obtain ⟨declaration, hdeclaration, hn⟩ := Option.bind_eq_some_iff.mp hn
    exact (hblock.declaration? hdeclaration).valueOf? hn

end Subject

/-! ## Passes of templates -/

namespace Template

variable {t t' : Template} {h : Handle} {key : String} {s : Slot}

theorem faithful_of_mem_bound [Interpreter] (hcompute : t.compute d = .ok t') :
    ∀ b ∈ t'.bound, b.Faithful d t'.specification := by
  obtain ⟨bound, hbound, rfl⟩ := compute_eq_ok_iff.mp hcompute
  exact Subject.faithful_of_mem_bound hbound

theorem mem_of_boundOf {b : Bound} (hb : t.boundOf h = .ok b) : b ∈ t.bound := by
  rw [boundOf] at hb
  split at hb
  · next found hfound =>
    obtain rfl := Except.ok.inj hb
    split at hfound
    · exact List.mem_of_getElem? hfound
    · cases hfound
  · cases hb

/-- **A slot is committed** by the edit that puts the written value in its place. -/
theorem commit_of_slotOf [Interpreter] (hcompute : t.compute d = .ok t') (hslot : t'.slotOf h key = .ok (some s))
    (v : Value) :
    s.Faithful d ∧ t'.commit h key v = (s.commit v).mapError .value := by
  obtain ⟨slots, hslots, hfind⟩ := map_eq_ok.mp hslot
  obtain ⟨b, hb, rfl⟩ := map_eq_ok.mp hslots
  have hfaithful := faithful_of_mem_bound hcompute b (mem_of_boundOf hb)
  rw [findSlot?] at hfind
  have hmem : s ∈ b.slots := List.mem_of_find?_eq_some hfind
  obtain rfl : s.key = key := by simpa using List.find?_some hfind
  refine ⟨hfaithful.slots s hmem, ?_⟩
  cases hlookup : t'.specification.lookup s.key with
  | none =>
    obtain ⟨entry, hentry, hkey⟩ := List.mem_map.mp (hfaithful.keys s hmem)
    have hne := List.lookup_eq_none_iff.mp hlookup entry hentry
    rw [hkey, bne_self_eq_false] at hne
    cases hne
  | some valuator => rw [commit_of_lookup hlookup hb, findSlot?, hfind]

end Template

/-- **Fragments and slots are faithful to the document.**  Every fragment of every provider, and of every
pass of every template, has the text in its range, which is that of its node if it is one, and groups with
the texts in theirs; so has every slot of a pass.  Giving a slot that is read as text its own value therefore
changes nothing. -/
theorem fragments_and_slots_faithful [Interpreter] (d : Document) :
    (∀ (p : Provider) fs, p.fragments d = .ok fs → ∀ f ∈ fs, f.Faithful d) ∧
    ∀ t t' : Template, t.compute d = .ok t' →
      (∀ f ∈ t'.fragments, f.Faithful d) ∧
      (∀ h slots, t'.slotsOf h = .ok slots → ∀ s ∈ slots, s.Faithful d) ∧
      ∀ h key s, t'.slotOf h key = .ok (some s) → s.valuator = .text →
        ∃ v edit, s.value = .ok v ∧ t'.commit h key v = .ok edit ∧
          ∀ {ω : Type} (e : Editor ω), e.document = d → e.pending = [] →
            ∃ e' applied, (e.add edit).apply = .ok (e', applied) ∧ e'.document = d := by
  refine ⟨fun p fs => p.faithful_of_mem_fragments, fun t t' hcompute => ⟨?_, fun h slots hslots => ?_, ?_⟩⟩
  · exact List.forall_mem_map.mpr fun b hb => (Template.faithful_of_mem_bound hcompute b hb).fragment
  · obtain ⟨b, hb, rfl⟩ := map_eq_ok.mp hslots
    exact (Template.faithful_of_mem_bound hcompute b (Template.mem_of_boundOf hb)).slots
  · intro h key s hslot htext
    obtain ⟨hraw, hcommit⟩ := Template.commit_of_slotOf hcompute hslot (.str s.raw)
    refine ⟨.str s.raw, .replace s.range (.str s.raw), ?_, ?_, fun e hd hpending => ?_⟩
    · rw [Slot.value, htext, Valuator.deserialize]
    · rw [hcommit, Slot.commit, htext]
      rfl
    · subst hd
      have hsame := edited_contentIn e.document s.range
      rw [← hraw] at hsame
      exact ⟨_, _, Template.apply_add hpending hsame, rfl⟩

/-- The value of a declaration on a line of its own, behind a letter of two bytes. -/
theorem fragments_and_slots_faithful_declaration :
    ∃ (d : Document) (t t' : Template) (f : Fragment) (s : Slot) (v : Value) (edit : TextEdit),
      d.content = "\u00e4 \x7b\n  b: \u00fc;\n\x7d" ∧ t.compute d = .ok t' ∧ t'.fragments = [f] ∧
      f.text = d.content ∧ f.Faithful d ∧ t'.slotOf ⟨1, 0⟩ "b" = .ok (some s) ∧ s.valuator = .text ∧
      s.raw = "\u00fc" ∧ s.value = .ok v ∧ t'.commit ⟨1, 0⟩ "b" v = .ok edit ∧
      ∃ (e' : Editor Unit) (applied : Applied Unit),
        ((Editor.ofDocument d).add edit).apply = .ok (e', applied) ∧ e'.document = d := by
  let d : Document := ⟨"\u00e4 \x7b\n  b: \u00fc;\n\x7d", ⟨"CSS", "css", "css", some .css⟩⟩
  let t : Template := .ofSubject (.declarations (.tree (.ofType "Rule" fun _ _ => .skip))) [("b", .text)] (.named "rules")
  have hread : (t.compute d).toOption.bind (fun t' => (t'.slotOf ⟨1, 0⟩ "b").toOption.join.map fun s =>
      (t'.fragments.map Fragment.text, s.valuator, s.raw)) = some ([d.content], .text, "\u00fc") := by decide +kernel
  cases hcompute : t.compute d with
  | error fault => rw [hcompute] at hread; cases hread
  | ok t' =>
    rw [hcompute] at hread
    obtain ⟨s, hjoin, hpair⟩ := Option.map_eq_some_iff.mp hread
    obtain ⟨hfragments, hpair⟩ := Prod.mk.inj hpair
    obtain ⟨hvaluator, hraw⟩ := Prod.mk.inj hpair
    obtain ⟨f, hf, htext⟩ := List.map_eq_singleton_iff.mp hfragments
    have hslot : t'.slotOf ⟨1, 0⟩ "b" = .ok (some s) := by
      cases hfound : t'.slotOf ⟨1, 0⟩ "b" with
      | error fault => rw [hfound] at hjoin; cases hjoin
      | ok found =>
        rw [hfound] at hjoin
        exact congrArg Except.ok (Option.join_eq_some_iff.mp hjoin |> Option.some.inj)
    obtain ⟨hfaithful, -, hsame⟩ := (fragments_and_slots_faithful d).2 t t' hcompute
    obtain ⟨v, edit, hvalue, hcommit, happly⟩ := hsame _ _ _ hslot hvaluator
    exact ⟨d, t, t', f, s, v, edit, rfl, hcompute, hf, htext, hfaithful f (hf ▸ List.mem_cons_self), hslot, hvaluator,
      hraw, hvalue, hcommit, happly (Editor.ofDocument d) rfl rfl⟩

end SlotEdit
