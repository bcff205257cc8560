import SlotEdit.Proofs.Css.Deletion
import SlotEdit.Proofs.Edit.Overlaps
import SlotEdit.Proofs.Template.Faithful

/-!
# Proofs/Template/Deletions — declarations taken out by a template

The fragments of rules are rules of the tree of the document, so each slot of a rule stands for the last
declaration of a block that has a body in the text.  Taking the slot out takes this declaration, with blanks
around it and nothing else, and slots that are taken out together never get in each other's way
(`delete_takes_declaration`).
-/

namespace SlotEdit

variable {d : Document}

/-! ## Rules of a document -/

/-- The fragments of all providers that are nodes are nodes of the tree. -/
theorem Provider.exists_tree_of_mem_fragments [Interpreter] {p : Provider} {fs : List Fragment}
    (h : p.fragments d = .ok fs) {f : Fragment}
    (hf : f ∈ fs) : ∀ n, f.node? = some n → ∃ tree, d.syntaxTree? = some tree ∧ n ∈ tree.root.walk := by
  refine Provider.forall_fragments (P := fun f => ∀ n, f.node? = some n → ∃ tree, d.syntaxTree? = some tree ∧ n ∈ tree.root.walk)
    (fun finder f hf n hn => ?_) (fun pattern f hf n hn => ?_) p h f hf
  · rw [Regex.Finder.fragments] at hf
    split at hf
    · cases hf
    · obtain ⟨m, -, rfl⟩ := List.mem_map.mp hf
      cases hn
  · rw [TreePattern.fragments_eq] at hf
    split at hf
    · cases hf
    · split at hf
      · cases hf
      · next tree htree =>
        obtain ⟨m, hm, rfl⟩ := List.mem_map.mp hf
        obtain rfl := Option.some.inj hn
        exact ⟨tree, htree, TreePattern.mem_walk_of_mem_findIn tree.root hm⟩

/-- **A document with a rule** has a text that a style sheet is made of. -/
theorem Document.ofText_of_block [Interpreter] {tree : SyntaxTree} {n block : Node}
    (hgrammar : d.language.grammar = some .css)
    (htree : d.syntaxTree? = some tree) (hn : n ∈ tree.root.walk) (hblock : Css.blockOf? n = some block) :
    Css.ofText d.content = .ok tree.root := by
  rw [syntaxTree?, hgrammar, Option.map_some, SyntaxTree.ofText, SyntaxTree.ofTextBy, Grammar.rootNodeBy_css] at htree
  obtain rfl := Option.some.inj htree
  split at hn
  · next root hroot => exact mapError_eq_ok.mp hroot
  · -- the one node of a text that does not fit is no rule
    obtain rfl := List.mem_singleton.mp hn
    cases hblock

/-- **A rule that a pass found**: its block is that of the fragment and has a body in the text, and the slots are for
declarations of this block. -/
structure Bound.IsRule (d : Document) (b : Bound) (sheet body : GrammarTree) (block : Node) : Prop where
  grammarTree : Css.Grammar.grammarTree? d.content = some sheet
  mem_walk : body ∈ sheet.walk
  isBody : Css.IsBodyOf d.content body block
  document : b.fragment.document = d
  held : Shape.cssRule.check b.fragment = .ok block
  slots : ∀ key slot, Template.findSlot? b.slots key = some slot → slot.key = key ∧
    ∃ declaration, Css.declaration? d.content block key = some declaration

namespace Subject

/-- A slot of a node is there only for a key that has a node. -/
theorem exists_of_findSlot? {lines : LineTable} {spec : SlotSpecification} {node? : String → Option Node} {key : String}
    {slot : Slot} (h : Template.findSlot? (slotsOfNodes d lines spec node?) key = some slot) : slot.key = key ∧ ∃ n, node? key = some n := by
  obtain ⟨⟨k, v⟩, -, hslot⟩ := List.mem_filterMap.mp (List.mem_of_find?_eq_some h)
  obtain ⟨n, hn, rfl⟩ := Option.map_eq_some_iff.mp hslot
  obtain rfl : (Slot.ofNode d lines k v n).key = key := by simpa using List.find?_some h
  exact ⟨rfl, n, hn⟩

/-- **What a pass for rules finds are rules** of the text. -/
theorem isRule_of_mem_bound [Interpreter] {provider : Provider} {spec : SlotSpecification} {bound : List Bound}
    {b : Bound}
    (hgrammar : d.language.grammar = some .css) (h : (Subject.declarations provider).bound spec d = .ok bound) (hb : b ∈ bound) :
    ∃ sheet body block, b.IsRule d sheet body block := by
  obtain ⟨held, hheld, h⟩ := bind_eq_ok.mp h
  obtain rfl := pure_eq_ok.mp h
  obtain ⟨⟨f, block⟩, hmem, rfl⟩ := List.mem_map.mp hb
  obtain ⟨fs, hfs, hheld⟩ := bind_eq_ok.mp hheld
  obtain ⟨f, hf, hcheck⟩ := exists_mem_of_mapM_eq_ok hheld _ hmem
  obtain ⟨n, hn, hcheck⟩ := bind_eq_ok.mp hcheck
  obtain ⟨rfl, rfl⟩ := Prod.mk.inj (pure_eq_ok.mp hcheck)
  obtain ⟨m, hm, hrule⟩ := Option.bind_eq_some_iff.mp (Shape.check_eq_ok.mp hn)
  obtain ⟨tree, htree, hwalk⟩ := Provider.exists_tree_of_mem_fragments hfs hf m hm
  obtain ⟨sheet, body, hsheet, hbody, hisBody⟩ :=
    Css.exists_body_of_ofText (d.ofText_of_block hgrammar htree hwalk hrule) hwalk hrule
  refine ⟨sheet, body, n, hsheet, hbody, hisBody, (provider.faithful_of_mem_fragments hfs f hf).document, hn, ?_⟩
  intro key slot hslot
  dsimp only at hslot
  obtain ⟨hkey, value, hvalue⟩ := exists_of_findSlot? hslot
  obtain ⟨declaration, hdeclaration, -⟩ := Option.bind_eq_some_iff.mp hvalue
  exact ⟨hkey, declaration, hdeclaration⟩

end Subject

/-! ## Batches of deletions -/

/-- **A batch that only takes out** stretches that do not overlap is applied. -/
theorem exists_edited_of_not_overlaps {edits : List TextEdit} (htexts : ∀ e ∈ edits, e.text = .str "")
    (h : edits.Pairwise fun e f => ¬Span.Overlaps (d.spanOf e.range) (d.spanOf f.range)) : ∃ content, edited d edits = .ok content := by
  refine exists_edited (pairwise_of_firstOverlap? (firstOverlap?_placed_eq_none.mpr h) fun p hp => ?_) fun e he => ⟨_, htexts e he⟩
  exact (located_inside ((placed_perm d edits).mem_iff.mp hp)).1

namespace Template

variable {t t' : Template} {provider : Provider} {h : Handle} {b : Bound} {key key' : String} {slot : Slot}
  {sheet body : GrammarTree} {block n n' : Node}

/-- The edit that takes a slot of a rule out: that of the last declaration with its key. -/
theorem delete_of_isRule (hsubject : t.subject = .declarations provider) (hb : t.boundOf h = .ok b)
    (hrule : b.IsRule d sheet body block) (hslot : findSlot? b.slots key = some slot) :
    t.delete h key = .ok (Css.deletionEdit? d block key) := by
  rw [delete_eq hb, hslot]
  show t.deletionEdit b.fragment slot = _
  rw [deletionEdit, hsubject, (hrule.slots key slot hslot).1, hrule.document]
  show ((Shape.cssRule.check b.fragment).mapError TemplateFault.shape >>= fun block => _) = _
  rw [hrule.held]
  rfl

/-- **Taking a slot of a rule out** takes its declaration. -/
theorem exists_delete_of_isRule (hsubject : t.subject = .declarations provider) (hb : t.boundOf h = .ok b)
    (hrule : b.IsRule d sheet body block) (hslot : findSlot? b.slots key = some slot) :
    ∃ declaration edit, Css.declaration? d.content block key = some declaration ∧ t.delete h key = .ok (some edit) ∧
      edit.text = .str "" ∧ d.spanOf edit.range = Css.deletionSpan d.content.toList declaration.span := by
  obtain ⟨-, declaration, hdeclaration⟩ := hrule.slots key slot hslot
  have hdeletes := hrule.isBody.deletes hrule.grammarTree hrule.mem_walk hdeclaration
  have hdelete := delete_of_isRule hsubject hb hrule hslot
  rw [Css.deletionEdit?, hdeclaration] at hdelete
  exact ⟨declaration, _, hdeclaration, hdelete, rfl,
    d.spanOf_rangeOf (hdeletes.le hrule.grammarTree) hdeletes.takes.stop_le_length⟩

/-- **Taking slots with distinct keys out of a rule** is a batch that is applied. -/
theorem exists_edited_of_isRule (hsubject : t.subject = .declarations provider) (hb : t.boundOf h = .ok b)
    (hrule : b.IsRule d sheet body block) {keys : List String} (hdistinct : keys.Nodup)
    (hslots : ∀ key ∈ keys, ∃ slot, findSlot? b.slots key = some slot) :
    ∃ edits content, List.Forall₂ (fun key edit => t.delete h key = .ok (some edit)) keys edits ∧ edited d edits = .ok content := by
  have hdelete : ∀ key ∈ keys, ∃ edit declaration, Css.declaration? d.content block key = some declaration ∧
      t.delete h key = .ok (some edit) ∧ edit.text = .str "" ∧
      d.spanOf edit.range = Css.deletionSpan d.content.toList declaration.span := fun key hkey => by
    obtain ⟨slot, hslot⟩ := hslots key hkey
    obtain ⟨declaration, edit, hedit⟩ := exists_delete_of_isRule hsubject hb hrule hslot
    exact ⟨edit, declaration, hedit⟩
  have : Nonempty TextEdit := ⟨.insert ⟨0, 0⟩ (.str "")⟩
  choose! edit hedit using hdelete
  obtain ⟨content, hcontent⟩ : ∃ content, edited d (keys.map edit) = .ok content := by
    refine exists_edited_of_not_overlaps (List.forall_mem_map.mpr fun key hkey => ?_) (List.pairwise_map.mpr ?_)
    · obtain ⟨_, -, -, htext, -⟩ := hedit key hkey
      exact htext
    · refine hdistinct.imp_of_mem fun {key key'} hkey hkey' hne => ?_
      obtain ⟨n, hn, -, -, hspan⟩ := hedit key hkey
      obtain ⟨n', hn', -, -, hspan'⟩ := hedit key' hkey'
      have hapart := hrule.isBody.deletions_apart hrule.grammarTree hrule.mem_walk hn hn' hne
      rw [hspan, hspan', Span.Overlaps]
      omega
  refine ⟨keys.map edit, content, List.forall₂_map_right_iff.mpr (List.forall₂_same.mpr fun key hkey => ?_), hcontent⟩
  obtain ⟨_, -, hdelete, -⟩ := hedit key hkey
  exact hdelete

/-- **Taking a slot of a rule out takes its declaration**, the last one with the key, with blanks around it and
nothing else; slots with distinct keys can always be taken out together. -/
theorem delete_takes_declaration [Interpreter] (hsubject : t.subject = .declarations provider)
    (hgrammar : d.language.grammar = some .css)
    (hcompute : t.compute d = .ok t') (hb : t'.boundOf h = .ok b) :
    ∃ sheet block, Css.Grammar.grammarTree? d.content = some sheet ∧ b.fragment.block? = some block ∧
      (∀ key slot, t'.slotOf h key = .ok (some slot) → ∃ edit declaration, t'.delete h key = .ok (some edit) ∧
        edit.text = .str "" ∧ Css.Deletes d.content sheet block key declaration (d.spanOf edit.range)) ∧
      ∀ keys : List String, keys.Nodup → (∀ key ∈ keys, ∃ slot, t'.slotOf h key = .ok (some slot)) →
        ∃ edits, List.Forall₂ (fun key edit => t'.delete h key = .ok (some edit)) keys edits ∧
          ∀ {ω : Type} (e : Editor ω), e.document = d → e.pending = edits → ∃ e' applied, e.apply = .ok (e', applied) := by
  obtain ⟨bound, hbound, ht⟩ := compute_eq_ok_iff.mp hcompute
  have hsubject' : t'.subject = .declarations provider := ht ▸ hsubject
  have hmem := mem_of_boundOf hb
  rw [← ht] at hmem
  obtain ⟨sheet, body, block, hrule⟩ := Subject.isRule_of_mem_bound hgrammar (hsubject ▸ hbound) hmem
  have hslot {key slot} (hfound : t'.slotOf h key = .ok (some slot)) : findSlot? b.slots key = some slot := by
    rw [slotOf, slotsOf, hb] at hfound
    exact Except.ok.inj hfound
  refine ⟨sheet, block, hrule.grammarTree, Shape.check_eq_ok.mp hrule.held, fun key slot hfound => ?_, fun keys hdistinct hfound => ?_⟩
  · obtain ⟨declaration, edit, hdeclaration, hdelete, htext, hspan⟩ :=
      exists_delete_of_isRule hsubject' hb hrule (hslot hfound)
    exact ⟨edit, declaration, hdelete, htext, hspan ▸ hrule.isBody.deletes hrule.grammarTree hrule.mem_walk hdeclaration⟩
  · obtain ⟨edits, content, hdelete, hedited⟩ := exists_edited_of_isRule hsubject' hb hrule hdistinct
      fun key hkey => (hfound key hkey).imp fun _ => hslot
    refine ⟨edits, hdelete, fun e hd hpending => ?_⟩
    rw [← hd, ← hpending] at hedited
    exact ⟨_, Editor.exists_apply hedited⟩

/-- Two declarations on lines of their own, taken out together. -/
theorem delete_takes_declaration_lines : ∃ (provider : Provider) (t t' : Template) (d : Document) (b : Bound),
    t.subject = .declarations provider ∧ d.language.grammar = some .css ∧ t.compute d = .ok t' ∧ t'.boundOf ⟨1, 0⟩ = .ok b ∧
    d.content = "a \x7b\n  b: c;\n  d: e\n\x7d" ∧ (∀ key ∈ ["b", "d"], ∃ slot, t'.slotOf ⟨1, 0⟩ key = .ok (some slot)) ∧
    ∃ edits, List.Forall₂ (fun key edit => t'.delete ⟨1, 0⟩ key = .ok (some edit)) ["b", "d"] edits ∧
      ∃ e' applied, (⟨d, edits, []⟩ : Editor Unit).apply = .ok (e', applied) := by
  let d : Document := ⟨"a \x7b\n  b: c;\n  d: e\n\x7d", ⟨"CSS", "css", "css", some .css⟩⟩
  let declaration (semicolon : Bool) (start stop : Nat) : Node := .mk (.css (.declaration semicolon)) ⟨start, stop⟩
    [.mk (.css .propertyName) ⟨start, start + 1⟩ [], .mk (.css .propertyValue) ⟨start + 3, start + 4⟩ []]
  let block : Node := .mk (.css .declarationBlock) ⟨2, 20⟩ [declaration true 6 11, declaration false 14 18]
  let rule : Node := .mk (.css .rule) ⟨0, 20⟩ [.mk (.css .selector) ⟨0, 1⟩ [], block]
  have hroot : Css.ofText d.content = .ok (.mk (.css .stylesheet) ⟨0, 20⟩ [rule]) := by cbv
  let pattern : TreePattern := .ofType "Rule" fun _ _ => .skip
  have hfragments : pattern.fragments d = [.ofNode d d.lines rule] := by
    rw [TreePattern.fragments_eq, Document.syntaxTree?, Option.map_some, SyntaxTree.ofText, SyntaxTree.ofTextBy,
      Grammar.rootNodeBy_css, hroot]
    rfl
  let specification : SlotSpecification := [("b", .text), ("d", .text)]
  let b : Bound := ⟨.ofNode d d.lines rule, slotsOfNodes d d.lines specification fun key =>
    (Css.declaration? d.content block key).bind Css.valueOf?⟩
  let t : Template := .ofSubject (.declarations (.tree pattern)) specification (.named "rules")
  let t' : Template := { t with pass := 1, document := some d, bound := [b] }
  have hbound : t.subject.bound specification d = .ok [b] := by
    show (Subject.held .cssRule (.tree pattern) d >>= fun held => _) = _
    rw [Subject.held, Provider.fragments, hfragments]
    rfl
  have hcompute : t.compute d = .ok t' := compute_eq_ok_iff.mpr ⟨_, hbound, rfl⟩
  have hslots : ∀ key ∈ ["b", "d"], ∃ slot, t'.slotOf ⟨1, 0⟩ key = .ok (some slot) := by
    have hfound : ["b", "d"].all fun key => (findSlot? b.slots key).isSome := by cbv
    intro key hkey
    obtain ⟨slot, hslot⟩ := Option.isSome_iff_exists.mp (List.all_eq_true.mp hfound key hkey)
    exact ⟨slot, congrArg Except.ok hslot⟩
  obtain ⟨-, -, -, -, -, hbatch⟩ := delete_takes_declaration rfl rfl hcompute (rfl : t'.boundOf ⟨1, 0⟩ = .ok b)
  obtain ⟨edits, hedits, happly⟩ := hbatch ["b", "d"] (by decide) hslots
  exact ⟨.tree pattern, t, t', d, b, rfl, rfl, hcompute, rfl, rfl, hslots, edits, hedits, happly ⟨d, edits, []⟩ rfl rfl⟩

end Template

end SlotEdit
