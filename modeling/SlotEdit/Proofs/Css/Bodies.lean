import SlotEdit.Proofs.Css.WellNested

/-!
# Proofs/Css/Bodies — the concrete syntax a block is made of

The block of every rule of a tree is made of a body in braces (`exists_body_of_ofText`), and each of its
declarations of one that stands there on the very same characters, its semicolon included
(`exists_declaration_of_mem`).
-/

namespace SlotEdit.Css

open Grammar

variable {text : String} {t body : GrammarTree} {ts : List GrammarTree} {n m block : Node} {depth : Nat}

theorem exists_of_atRuleNode {make : GrammarTree → Except TreeFault Node} (h : atRuleNode text.toList make t = .ok n) :
    ∃ name span, n = .mk (.css (.atRule name)) t.span [.mk (.css .atRulePrelude) span []] ∨
      ∃ body ∈ significant t.children, ∃ items, make body = .ok items ∧
        n = .mk (.css (.atRule name)) t.span [.mk (.css .atRulePrelude) span [], items] := by
  rw [atRuleNode] at h
  split at h
  · cases h
  · next keyword rest hchildren =>
    dsimp only at h
    cases hlast : rest.getLast?.filter isBody with
    | none =>
      rw [hlast] at h
      exact ⟨_, _, .inl (Except.ok.inj h).symm⟩
    | some body =>
      rw [hlast] at h
      obtain ⟨items, hitems, h⟩ := bind_eq_ok.mp h
      refine ⟨_, _, .inr ⟨body, ?_, items, hitems, (Except.ok.inj h).symm⟩⟩
      exact hchildren ▸ List.mem_cons_of_mem _ (List.mem_of_getLast? (Option.mem_filter_iff.mp hlast).1)

/-! ## Bodies of blocks -/

/-- **The body of a block**: the block stands on it, and its children are made of the items there. -/
structure IsBodyOf (text : String) (body : GrammarTree) (block : Node) : Prop where
  construct : body.construct = "block"
  span : block.span = body.span
  items : ∃ depth, (significant body.namedChildren).mapM (itemNode text.toList depth) = .ok block.children

/-- Items are made in the order they are kept in. -/
theorem blockChildren_of_mapM {ns : List Node} (h : t.WellNested (Solid text))
    (hns : (significant t.namedChildren).mapM (itemNode text.toList depth) = .ok ns) : blockChildren ns = ns :=
  have h := h.mono fun _ => Solid.start_lt_stop
  blockChildren_eq
    (inOrder_mapM (keepsWithin_itemNode _ depth) (inOrder_namedChildren h).1 (inOrder_namedChildren h).2 hns).2.2

theorem blockOf?_eq_some (h : blockOf? m = some block) : ∃ span selector, m = .mk (.css .rule) span [selector, block] := by
  rw [blockOf?.eq_def] at h
  split at h
  · exact ⟨_, _, by rw [Option.some.inj h]⟩
  · cases h

/-- **The block of every rule inside an item has a body** inside the item. -/
theorem exists_body_of_itemNode (depth : Nat) (h : t.WellNested (Solid text)) (hn : itemNode text.toList depth t = .ok n) :
    ∀ m ∈ n.walk, ∀ block, blockOf? m = some block → ∃ body ∈ t.walk, IsBodyOf text body block := by
  induction depth generalizing t n with
  | zero => cases hn
  | succ depth ih =>
    have hitems {body : GrammarTree} {ns : List Node} (hbody : body ∈ significant t.children)
        (hns : (significant body.namedChildren).mapM (itemNode text.toList depth) = .ok ns) :
        ∀ n ∈ ns, ∀ m ∈ n.walk, ∀ block, blockOf? m = some block → ∃ body ∈ t.walk, IsBodyOf text body block := by
      intro n hn m hm block hblock
      obtain ⟨item, hitem, hmake⟩ := exists_mem_of_mapM_eq_ok hns n hn
      have hmem : item ∈ body.children := List.mem_of_mem_filter (List.mem_of_mem_filter hitem)
      have hnested := (h.of_mem_children (List.mem_of_mem_filter hbody)).of_mem_children hmem
      obtain ⟨b, hb, hisBody⟩ := ih hnested hmake m hm block hblock
      have hinside := GrammarTree.walk_subset (GrammarTree.mem_walk_of_mem_children (List.mem_of_mem_filter hbody))
      exact ⟨b, hinside (GrammarTree.walk_subset (GrammarTree.mem_walk_of_mem_children hmem) hb), hisBody⟩
    have hleaf (form : Form) (span : Span) : ∀ m ∈ (Node.mk form span []).walk, ∀ block, blockOf? m = some block →
        ∃ body ∈ t.walk, IsBodyOf text body block := by
      refine Node.forall_mem_walk.mpr ⟨fun block hblock => ?_, List.forall_mem_nil _⟩
      obtain ⟨_, _, heq⟩ := blockOf?_eq_some hblock
      cases heq
    have hrule (hn : ruleNode (fun body => do
        let items ← (significant body.namedChildren).mapM (itemNode text.toList depth)
        pure (.mk (.css .declarationBlock) body.span (blockChildren items))) t = .ok n) :
        ∀ m ∈ n.walk, ∀ block, blockOf? m = some block → ∃ body ∈ t.walk, IsBodyOf text body block := by
      obtain ⟨head, body, made, hchildren, hconstruct, hmade, rfl⟩ := exists_of_ruleNode hn
      obtain ⟨ns, hns, hmade⟩ := bind_eq_ok.mp hmade
      obtain rfl := pure_eq_ok.mp hmade
      have hbody : body ∈ significant t.children := hchildren ▸ List.mem_cons_of_mem _ List.mem_cons_self
      rw [blockChildren_of_mapM (h.of_mem_children (List.mem_of_mem_filter hbody)) hns]
      refine Node.forall_mem_walk.mpr ⟨fun block hblock => ?_, List.forall_mem_cons.mpr ⟨hleaf _ _,
        List.forall_mem_singleton.mpr (Node.forall_mem_walk.mpr ⟨fun block hblock => ?_, hitems hbody hns⟩)⟩⟩
      · obtain rfl := Option.some.inj hblock
        exact ⟨body, GrammarTree.mem_walk_of_mem_children (List.mem_of_mem_filter hbody), hconstruct, rfl, depth, hns⟩
      · cases hblock
    rw [itemNode] at hn
    dsimp only at hn
    split at hn
    · exact hrule hn
    · exact hrule hn
    · obtain ⟨_, _, _, _, _, _, -, -, -, -, -, -, -, rfl⟩ := exists_of_declarationNode hn
      refine Node.forall_mem_walk.mpr ⟨fun block hblock => (by cases hblock), ?_⟩
      exact List.forall_mem_cons.mpr ⟨hleaf _ _, List.forall_mem_singleton.mpr (hleaf _ _)⟩
    · split at hn
      · obtain ⟨name, span, rfl | ⟨body, hbody, made, hmade, rfl⟩⟩ := exists_of_atRuleNode hn
        · exact Node.forall_mem_walk.mpr ⟨fun block hblock => (by cases hblock), List.forall_mem_singleton.mpr (hleaf _ _)⟩
        · obtain ⟨ns, hns, hmade⟩ := bind_eq_ok.mp hmade
          obtain rfl := pure_eq_ok.mp hmade
          refine Node.forall_mem_walk.mpr ⟨fun block hblock => (by cases hblock), List.forall_mem_cons.mpr ⟨hleaf _ _, ?_⟩⟩
          exact List.forall_mem_singleton.mpr
            (Node.forall_mem_walk.mpr ⟨fun block hblock => (by cases hblock), hitems hbody hns⟩)
      · cases hn

/-- **The block of every rule of a style sheet has a body.** -/
theorem exists_body_of_ofText [Interpreter] {root : Node} (h : ofText text = .ok root) (hm : m ∈ root.walk)
    (hblock : blockOf? m = some block) : ∃ sheet body, grammarTree? text = some sheet ∧ body ∈ sheet.walk ∧ IsBodyOf text body block := by
  rw [ofText, ofTextBy] at h
  split at h
  · cases h
  · next sheet hsheet =>
    have hnested := (wellNested_grammarTree? hsheet).1
    obtain ⟨items, hitems, h⟩ := bind_eq_ok.mp h
    obtain rfl := pure_eq_ok.mp h
    have hall : ∀ m ∈ (Node.mk (.css .stylesheet) ⟨0, text.length⟩ items).walk, ∀ block, blockOf? m = some block →
        ∃ body ∈ sheet.walk, IsBodyOf text body block := by
      refine Node.forall_mem_walk.mpr ⟨fun block hblock => (by cases hblock), fun n hn m hm block hblock => ?_⟩
      obtain ⟨item, hitem, hmake⟩ := exists_mem_of_mapM_eq_ok hitems n hn
      have hmem : item ∈ sheet.children := List.mem_of_mem_filter (List.mem_of_mem_filter hitem)
      rw [outerNode] at hmake
      split at hmake
      · cases hmake
      · obtain ⟨body, hbody, hisBody⟩ :=
          exists_body_of_itemNode treeDepth (hnested.of_mem_children hmem) hmake m hm block hblock
        exact ⟨body, GrammarTree.walk_subset (GrammarTree.mem_walk_of_mem_children hmem) hbody, hisBody⟩
    obtain ⟨body, hbody, hisBody⟩ := hall m hm block hblock
    exact ⟨sheet, body, hsheet, hbody, hisBody⟩

/-! ## Declarations -/

/-- The first piece of a tree that counts, where the first one is no comment. -/
theorem head?_significant {u : GrammarTree} (h : ts.head? = some u) (hu : u.construct ≠ "comment") :
    (significant ts).head? = some u := by
  obtain ⟨rest, rfl⟩ := List.head?_eq_some_iff.mp h
  rw [significant, List.filter_cons_of_pos (by simpa using hu), List.head?_cons]

theorem getLast?_significant {u : GrammarTree} (h : ts.getLast? = some u) (hu : u.construct ≠ "comment") :
    (significant ts).getLast? = some u := by
  obtain ⟨front, rfl⟩ := List.getLast?_eq_some_iff.mp h
  rw [significant, List.filter_append, List.filter_cons_of_pos (by simpa using hu), List.filter_nil, List.getLast?_concat]

/-- **A declaration stands on all of its concrete one**, and with a semicolon it ends in one. -/
theorem span_of_declarationNode (h : t.WellNested (Solid text)) (hconstruct : t.construct = "declaration")
    (hn : declarationNode t = .ok n) : n.span = t.span ∧
      (hasSemicolon n = true → ∃ m, n.span.stop = m + 1 ∧ text.toList[m]? = some ';') := by
  obtain ⟨⟨first, hfirst, hname, hstart⟩, last, hlast, hmark, hstop, hsemicolon⟩ := h.property.spanned hconstruct
  have hhead := head?_significant hfirst (by rw [hname]; decide)
  have hend := getLast?_significant hlast fun hcomment => absurd (hcomment ▸ hmark) (by decide)
  obtain ⟨name, colon, rest, semicolon, values, stop, hchildren, -, -, hsemi, hvalues, hne, hstop', rfl⟩ :=
    exists_of_declarationNode hn
  rw [hchildren] at hhead hend
  obtain rfl := Option.some.inj hhead
  obtain rfl : rest.getLastD colon = last := by
    simpa [List.getLast?_cons, List.getLastD_eq_getLast?] using hend
  have hspan : stop = t.span.stop → (⟨name.span.start, stop⟩ : Span) = t.span := fun hstop => by rw [hstart, hstop]
  cases semicolon with
  | true =>
    obtain ⟨m, hm, hmark⟩ := hsemicolon (eq_of_beq hsemi.symm)
    exact ⟨hspan hstop', fun _ => ⟨m, hstop'.trans hm, hmark⟩⟩
  | false =>
    -- without a semicolon the last value is the last piece
    refine ⟨hspan ?_, by rintro ⟨⟩⟩
    obtain rfl : values = rest := hvalues
    cases values with
    | nil => exact absurd rfl hne
    | cons v vs =>
      rw [List.getLastD_cons] at hstop
      exact hstop'.trans hstop

/-- What is made a declaration is one. -/
theorem construct_of_itemNode (h : itemNode text.toList depth t = .ok n) (hdeclaration : isDeclaration n = true) :
    t.construct = "declaration" ∧ declarationNode t = .ok n := by
  cases depth with
  | zero => cases h
  | succ depth =>
    rw [itemNode] at h
    dsimp only at h
    split at h
    · obtain ⟨_, _, _, -, -, -, rfl⟩ := exists_of_ruleNode h
      cases hdeclaration
    · obtain ⟨_, _, _, -, -, -, rfl⟩ := exists_of_ruleNode h
      cases hdeclaration
    · next hconstruct => exact ⟨hconstruct, h⟩
    · split at h
      · obtain ⟨_, _, rfl | ⟨_, -, _, -, rfl⟩⟩ := exists_of_atRuleNode h <;> cases hdeclaration
      · cases h

/-- A comment up to the end of its line is no item. -/
theorem itemNode_comment (hconstruct : t.construct = "js_comment") (hchildren : t.children = []) :
    itemNode text.toList depth t ≠ .ok n := by
  have hstarts : startsAtRule text.toList t = false := by rw [startsAtRule, hchildren]; rfl
  obtain ⟨construct, named, role, span, children⟩ := t
  obtain rfl : construct = "js_comment" := hconstruct
  intro h
  cases depth with
  | zero => cases h
  | succ depth =>
    rw [itemNode] at h
    simp only [GrammarTree.construct, hstarts] at h
    cases h

/-- **The declaration of the body** that a declaration of the block is made of. -/
theorem IsBodyOf.exists_declaration (h : IsBodyOf text body block) (hbody : body.WellNested (Solid text)) (hn : n ∈ declarations block) :
    ∃ t ∈ body.children, t.construct = "declaration" ∧ declarationNode t = .ok n ∧ n.span = t.span ∧
      (hasSemicolon n = true → ∃ m, n.span.stop = m + 1 ∧ text.toList[m]? = some ';') := by
  obtain ⟨depth, hitems⟩ := h.items
  obtain ⟨hmem, hdeclaration⟩ := List.mem_filter.mp hn
  obtain ⟨t, ht, hmake⟩ := exists_mem_of_mapM_eq_ok hitems n hmem
  obtain ⟨hconstruct, hnode⟩ := construct_of_itemNode hmake hdeclaration
  have ht : t ∈ body.children := List.mem_of_mem_filter (List.mem_of_mem_filter ht)
  exact ⟨t, ht, hconstruct, hnode, span_of_declarationNode (hbody.of_mem_children ht) hconstruct hnode⟩

/-- **The pieces of a body in front of an item** all end in a character that is no blank. -/
theorem IsBodyOf.shuts (h : IsBodyOf text body block) (hbody : body.WellNested (Solid text)) {front back : List GrammarTree}
    (hchildren : body.children = front ++ t :: back) (ht : t.construct ∉ trailingConstructs) :
    ∀ u ∈ front, Shuts text.toList u.span.stop := by
  intro u hu
  have hparted := (hbody.property.enclosed h.construct).outlined.parted
  rw [hchildren] at hparted
  have hclosed := ((List.pairwise_append.mp hparted).2.2 u hu t List.mem_cons_self).resolve_right ht
  refine hclosed.resolve_left fun ⟨hconstruct, hnamed, hbare⟩ => ?_
  obtain ⟨depth, hitems⟩ := h.items
  have hmem : u ∈ significant body.namedChildren := by
    refine List.mem_filter.mpr ⟨List.mem_filter.mpr ⟨hchildren ▸ List.mem_append_left _ hu, hnamed⟩, ?_⟩
    rw [hconstruct]
    rfl
  obtain ⟨m, hmake⟩ := exists_of_mapM_eq_ok hitems u hmem
  exact itemNode_comment hconstruct hbare hmake

end SlotEdit.Css
