import Mathlib.Data.List.Sort
import SlotEdit.Css.Tree
import SlotEdit.Proofs.Css.Grammar
import SlotEdit.Proofs.Syntax.Converted

/-!
# Proofs/Css/WellNested — style sheet trees are well nested

The node of an item stands on characters of the item (`Within`): declarations hold a colon, rules a
block, and neither is empty (`Tangible`); an at-rule starts with an at sign.  So the items of a block
start one behind the other, and sorting its declarations and rules by where they start gives the order
they stand in (`blockChildren_eq`), which is the one point where the tree is put together otherwise than
it is read.  All this is said of any concrete tree that is nested as it should be.
-/

namespace SlotEdit.Css

open Grammar

/-- **A block and a colon are never empty.** -/
def Tangible (t : GrammarTree) : Prop := t.construct ∈ ["block", ":"] → t.span.start < t.span.stop

instance (t : GrammarTree) : Decidable (Tangible t) := inferInstanceAs (Decidable (_ → _))

/-- **A node on some of the characters of a concrete tree**, and on one at least. -/
structure Within (t : GrammarTree) (n : Node) : Prop extends n.Inside t where
  start_lt_stop : n.span.start < n.span.stop

/-- The maker of nodes keeps to the trees it is given. -/
def KeepsWithin (make : GrammarTree → Except TreeFault Node) : Prop :=
  ∀ ⦃t n⦄, t.WellNested Tangible → make t = .ok n → Within t n

variable {text : List Char} {t : GrammarTree} {ts : List GrammarTree} {n : Node} {ns : List Node} {a b : Nat}

/-- The pieces of a tree that count stand in order inside it. -/
theorem inOrder_significant (h : t.WellNested Tangible) :
    Span.InOrder t.span.start t.span.stop ((significant t.children).map GrammarTree.span) :=
  h.inOrder.sublist (List.filter_sublist.map _)

theorem wellNested_of_mem_significant (h : t.WellNested Tangible) {s : GrammarTree} (hs : s ∈ significant t.children) :
    s.WellNested Tangible :=
  h.of_mem_children (List.mem_of_mem_filter hs)

/-- **The nodes of trees in order are in order**, each behind the start of the one before. -/
theorem inOrder_mapM {make : GrammarTree → Except TreeFault Node} (hmake : KeepsWithin make)
    (horder : Span.InOrder a b (ts.map GrammarTree.span)) (hts : ∀ t ∈ ts, t.WellNested Tangible)
    (h : ts.mapM make = .ok ns) :
    Span.InOrder a b (ns.map Node.span) ∧ (∀ n ∈ ns, n.WellNested) ∧
      ns.Pairwise fun m n => m.span.start < n.span.start := by
  obtain ⟨hinside, hnested⟩ := Node.inOrder_of_mapM (fun t ht n hn => (hmake (hts t ht) hn).toInside) horder h
  refine ⟨hinside, hnested, (List.pairwise_map.mp hinside.pairwise).imp_of_mem fun hm _ hle => ?_⟩
  obtain ⟨t, ht, hn⟩ := exists_mem_of_mapM_eq_ok h _ hm
  exact Nat.lt_of_lt_of_le (hmake (hts t ht) hn).start_lt_stop hle

/-- **Sorting changes nothing** where each item starts behind the one before. -/
theorem blockChildren_eq (h : ns.Pairwise fun m n => m.span.start < n.span.start) : blockChildren ns = ns := by
  have hperm : (blockChildren ns).Perm ns :=
    (List.mergeSort_perm _ _).trans (List.filter_append_perm isDeclaration ns)
  have hsorted : (blockChildren ns).Pairwise fun m n => decide (m.span.start ≤ n.span.start) = true := by
    refine List.pairwise_mergeSort (fun a b c hab hbc => ?_) (fun a b => ?_) _
    · exact decide_eq_true ((of_decide_eq_true hab).trans (of_decide_eq_true hbc))
    · rw [Bool.or_eq_true, decide_eq_true_eq, decide_eq_true_eq]
      exact Nat.le_total _ _
  refine hperm.eq_of_pairwise (fun m n hm hn hle hge => ?_) hsorted (h.imp fun hlt => decide_eq_true hlt.le)
  -- two items that start together are one
  have heq := Nat.le_antisymm (of_decide_eq_true hle) (of_decide_eq_true hge)
  have hstarts : (ns.map fun n => n.span.start).Nodup := List.pairwise_map.mpr (h.imp Nat.ne_of_lt)
  exact List.inj_on_of_nodup_map hstarts (hperm.mem_iff.mp hm) hn heq

/-- What is left when the last tree may be taken off. -/
theorem sublist_withoutLast (taken : Bool) (ts : List GrammarTree) :
    (if taken then ts.dropLast else ts).Sublist ts := by
  split
  · exact List.dropLast_sublist ts
  · exact List.Sublist.refl ts

/-- The span from the first tree to the last is where the trees are. -/
theorem inOrder_spanOf {whenNone : Nat} (h : Span.InOrder a b (ts.map GrammarTree.span))
    (hnone : ts = [] → whenNone = a) : Span.InOrder a b [spanOf ts whenNone] := by
  cases ts with
  | nil =>
    obtain rfl := hnone rfl
    exact Span.inOrder_singleton (Nat.le_refl _) (Nat.le_refl _) h
  | cons first rest =>
    have hmem : rest.getLastD first ∈ first :: rest := List.getLastD_mem_cons
    have hlast := h.mem (List.mem_map_of_mem hmem)
    refine Span.inOrder_singleton h.1 ?_ hlast.2.2
    rw [spanOf]
    rcases List.mem_cons.mp hmem with heq | hmem
    · rw [heq]
      exact h.2.1
    · exact h.2.1.trans ((h.2.2.mem (List.mem_map_of_mem hmem)).1.trans hlast.2.1)

/-! ## Declarations -/

/-- The node of a declaration: a name, a colon and values, with a semicolon behind them or without. -/
theorem exists_of_declarationNode (h : declarationNode t = .ok n) : ∃ name colon rest semicolon values stop,
    significant t.children = name :: colon :: rest ∧ name.construct = "property_name" ∧ colon.construct = ":" ∧
      semicolon = ((rest.getLastD colon).construct == ";") ∧ values = (if semicolon then rest.dropLast else rest) ∧
      values ≠ [] ∧ stop = (if semicolon then t.span.stop else (spanOf values 0).stop) ∧
      n = .mk (.css (.declaration semicolon)) ⟨name.span.start, stop⟩
        [.mk (.css .propertyName) name.span [], .mk (.css .propertyValue) (spanOf values 0) []] := by
  rw [declarationNode] at h
  split at h
  · next name colon rest hchildren =>
    dsimp only at h
    generalize hsemicolon : ((rest.getLastD colon).construct == ";") = semicolon at h
    generalize hvalues : (if semicolon then rest.dropLast else rest) = values at h
    generalize hstop : (if semicolon then t.span.stop else (spanOf values 0).stop) = stop at h
    rcases Bool.eq_false_or_eq_true
      (name.construct == "property_name" && colon.construct == ":" && !values.isEmpty) with hcond | hcond
    · rw [hcond, if_pos rfl] at h
      simp only [Bool.and_eq_true, beq_iff_eq, Bool.not_eq_true', List.isEmpty_eq_false_iff] at hcond
      exact ⟨name, colon, rest, semicolon, values, stop, hchildren, hcond.1.1, hcond.1.2, hsemicolon.symm, hvalues.symm,
        hcond.2, hstop.symm, (Except.ok.inj h).symm⟩
    · rw [hcond, if_neg Bool.false_ne_true] at h
      cases h
  · cases h

/-- A declaration goes from its name to its value, or to its end when a semicolon closes it; the colon
between the two is a character. -/
theorem within_declaration (h : t.WellNested Tangible) (hn : declarationNode t = .ok n) : Within t n := by
  obtain ⟨name, colon, rest, semicolon, values, stop, hchildren, -, hcolonMark, -, hvalues, hne, hstop, rfl⟩ :=
    exists_of_declarationNode hn
  have horder := inOrder_significant h
  have hcolon : colon.WellNested Tangible :=
    wellNested_of_mem_significant h (hchildren ▸ List.mem_cons_of_mem _ List.mem_cons_self)
  rw [hchildren] at horder
  have hsublist := hvalues ▸ sublist_withoutLast semicolon rest
  obtain ⟨hname, hnameSpan, hcolonStart, hcolonSpan, hrest⟩ := horder
  have hcolonLt := hcolon.property (by rw [hcolonMark]; decide)
  obtain ⟨hvalueStart, hvalueSpan, hvalueStop⟩ :=
    inOrder_spanOf (hrest.sublist (hsublist.map _)) fun hnil => absurd hnil hne
  have hle : (spanOf values 0).stop ≤ stop ∧ stop ≤ t.span.stop := by
    rw [hstop]
    split
    · exact ⟨hvalueStop, Nat.le_refl _⟩
    · exact ⟨Nat.le_refl _, hvalueStop⟩
  refine ⟨⟨Node.wellNested_mk.mpr ⟨⟨Nat.le_refl _, hnameSpan, ?_, hvalueSpan, hle.1⟩, ?_⟩, hname, hle.2⟩, ?_⟩
  · exact hcolonStart.trans (hcolonLt.le.trans hvalueStart)
  · exact List.forall_mem_cons.mpr ⟨Node.wellNested_leaf hnameSpan,
      List.forall_mem_singleton.mpr (Node.wellNested_leaf hvalueSpan)⟩
  · calc name.span.start ≤ name.span.stop := hnameSpan
      _ ≤ colon.span.start := hcolonStart
      _ < colon.span.stop := hcolonLt
      _ ≤ (spanOf values 0).start := hvalueStart
      _ ≤ (spanOf values 0).stop := hvalueSpan
      _ ≤ stop := hle.1

/-! ## Rules and at-rules -/

/-- The maker of the node of a body, which stands on all of the body. -/
def KeepsBody (make : GrammarTree → Except TreeFault Node) : Prop :=
  ∀ ⦃t n⦄, t.WellNested Tangible → make t = .ok n → n.WellNested ∧ n.span = t.span

/-- The node of a rule: a head and a block. -/
theorem exists_of_ruleNode {make : GrammarTree → Except TreeFault Node} (h : ruleNode make t = .ok n) :
    ∃ head body block, significant t.children = [head, body] ∧ body.construct = "block" ∧ make body = .ok block ∧
      n = .mk (.css .rule) ⟨head.span.start, block.span.stop⟩ [.mk (.css .selector) head.span [], block] := by
  rw [ruleNode] at h
  split at h
  · next head body hchildren =>
    split at h
    · next hconstruct =>
      obtain ⟨block, hblock, h⟩ := bind_eq_ok.mp h
      exact ⟨head, body, block, hchildren, eq_of_beq hconstruct, hblock, (Except.ok.inj h).symm⟩
    · cases h
  · cases h

/-- A rule goes from its selector to the end of its block, and the block is not empty. -/
theorem within_rule {block : GrammarTree → Except TreeFault Node} (hblock : KeepsBody block)
    (h : t.WellNested Tangible) (hn : ruleNode block t = .ok n) : Within t n := by
  obtain ⟨head, body, blockNode, hchildren, hconstruct, hmade, rfl⟩ := exists_of_ruleNode hn
  have horder := inOrder_significant h
  have hbody : body.WellNested Tangible :=
    wellNested_of_mem_significant h (hchildren ▸ List.mem_cons_of_mem _ List.mem_cons_self)
  rw [hchildren] at horder
  obtain ⟨hhead, hheadSpan, hbodyStart, hbodySpan, hbodyStop⟩ := horder
  obtain ⟨hnested, hspan⟩ := hblock hbody hmade
  have hbodyLt := hbody.property (by rw [hconstruct]; decide)
  refine ⟨⟨Node.wellNested_mk.mpr ⟨⟨Nat.le_refl _, hheadSpan, ?_⟩, ?_⟩, hhead, ?_⟩, ?_⟩
  · rw [List.map_singleton, hspan]
    exact Span.inOrder_singleton hbodyStart hbodySpan (Nat.le_refl _)
  · exact List.forall_mem_cons.mpr ⟨Node.wellNested_leaf hheadSpan, List.forall_mem_singleton.mpr hnested⟩
  · exact hspan ▸ hbodyStop
  · exact hspan ▸ (hheadSpan.trans hbodyStart).trans_lt hbodyLt

/-- What starts with an at sign is not empty. -/
theorem start_lt_stop_of_startsAtRule (h : t.WellNested Tangible) (hstarts : startsAtRule text t = true) :
    t.span.start < t.span.stop := by
  obtain ⟨first, hfirst, hmark⟩ := (Option.any_eq_true ..).mp hstarts
  have hinside := h.inOrder.mem (List.mem_map_of_mem (List.mem_of_head? hfirst))
  have hlt : first.span.start < first.span.stop := by
    refine Nat.lt_of_not_le fun hle => ?_
    rw [Span.of, Nat.sub_eq_zero_of_le hle, List.take_zero] at hmark
    exact absurd hmark (by decide)
  exact (hinside.1.trans_lt hlt).trans_le hinside.2.2

/-- An at-rule stands on all of its tree: its prelude first, which may be empty, and then its body. -/
theorem within_atRule {list : GrammarTree → Except TreeFault Node} (hlist : KeepsBody list)
    (h : t.WellNested Tangible) (hstarts : startsAtRule text t = true) (hn : atRuleNode text list t = .ok n) :
    Within t n := by
  have hlt := start_lt_stop_of_startsAtRule h hstarts
  rw [atRuleNode] at hn
  split at hn
  · cases hn
  · next keyword rest hchildren =>
    have horder := inOrder_significant h
    have hrestNested : ∀ s ∈ rest, s.WellNested Tangible := fun s hs =>
      wellNested_of_mem_significant h (hchildren ▸ List.mem_cons_of_mem _ hs)
    rw [hchildren] at horder
    obtain ⟨hkeyword, hkeywordSpan, hrest⟩ := horder
    dsimp only at hn
    cases hlast : rest.getLast?.filter isBody with
    | none =>
      rw [hlast] at hn
      obtain rfl := Except.ok.inj hn
      have hprelude (taken : Bool) :=
        inOrder_spanOf (hrest.sublist ((sublist_withoutLast taken rest).map _)) fun _ => rfl
      refine ⟨⟨Node.wellNested_mk.mpr ⟨(hprelude _).widen (hkeyword.trans hkeywordSpan) (Nat.le_refl _), ?_⟩,
        Nat.le_refl _, Nat.le_refl _⟩, hlt⟩
      exact List.forall_mem_singleton.mpr (Node.wellNested_leaf (hprelude _).2.1)
    | some body =>
      rw [hlast] at hn
      obtain ⟨items, hmade, hn⟩ := bind_eq_ok.mp hn
      obtain rfl := Except.ok.inj hn
      have hmem := (Option.mem_filter_iff.mp hlast).1
      obtain ⟨hnested, hspan⟩ := hlist (hrestNested body (List.mem_of_getLast? hmem)) hmade
      rw [← List.dropLast_append_getLast? body hmem, List.map_append] at hrest
      obtain ⟨hvalues, hbodySpan, hbodyStop⟩ := hrest.of_append
      have hprelude := inOrder_spanOf hvalues fun _ => rfl
      refine ⟨⟨Node.wellNested_mk.mpr ⟨(hprelude.append ?_).widen (hkeyword.trans hkeywordSpan) (Nat.le_refl _), ?_⟩,
        Nat.le_refl _, Nat.le_refl _⟩, hlt⟩
      · rw [hspan]
        exact Span.inOrder_singleton (Nat.le_refl _) hbodySpan hbodyStop
      · exact List.forall_mem_cons.mpr ⟨Node.wellNested_leaf hprelude.2.1, List.forall_mem_singleton.mpr hnested⟩

/-! ## Items nested in each other -/

/-- A block's children are its items in their order. -/
theorem inOrder_namedChildren (h : t.WellNested Tangible) :
    Span.InOrder t.span.start t.span.stop ((significant t.namedChildren).map GrammarTree.span) ∧
      ∀ s ∈ significant t.namedChildren, s.WellNested Tangible :=
  ⟨h.inOrder.sublist ((List.filter_sublist.trans List.filter_sublist).map _),
    fun _ hs => h.of_mem_children (List.mem_of_mem_filter (List.mem_of_mem_filter hs))⟩

/-- **Items keep within their trees**, at every depth. -/
theorem keepsWithin_itemNode (text : List Char) (depth : Nat) : KeepsWithin (itemNode text depth) := by
  induction depth with
  | zero => exact fun t n _ hn => nomatch hn
  | succ depth ih =>
    intro t n h hn
    rw [itemNode] at hn
    have hitems {body : GrammarTree} {ns : List Node} (hbody : body.WellNested Tangible)
        (hns : (significant body.namedChildren).mapM (itemNode text depth) = .ok ns) :=
      inOrder_mapM ih (inOrder_namedChildren hbody).1 (inOrder_namedChildren hbody).2 hns
    have hblock : KeepsBody (fun body => do
        let items ← (significant body.namedChildren).mapM (itemNode text depth)
        pure (.mk (.css .declarationBlock) body.span (blockChildren items))) := by
      intro body n hbody hn
      obtain ⟨ns, hns, hn⟩ := bind_eq_ok.mp hn
      obtain rfl := Except.ok.inj hn
      obtain ⟨horder, hnested, hstarts⟩ := hitems hbody hns
      rw [blockChildren_eq hstarts]
      exact ⟨Node.wellNested_mk.mpr ⟨horder, hnested⟩, rfl⟩
    have hlist : KeepsBody (fun body => do
        let items ← (significant body.namedChildren).mapM (itemNode text depth)
        pure (.mk (.css .ruleList) body.span items)) := by
      intro body n hbody hn
      obtain ⟨ns, hns, hn⟩ := bind_eq_ok.mp hn
      obtain rfl := Except.ok.inj hn
      obtain ⟨horder, hnested, -⟩ := hitems hbody hns
      exact ⟨Node.wellNested_mk.mpr ⟨horder, hnested⟩, rfl⟩
    dsimp only at hn
    split at hn
    · exact within_rule hblock h hn
    · exact within_rule hblock h hn
    · exact within_declaration h hn
    · split at hn
      · next hstarts => exact within_atRule hlist h hstarts hn
      · cases hn

theorem keepsWithin_outerNode [Interpreter] (text : List Char) : KeepsWithin (outerNode text) := by
  intro t n ht hn
  rw [outerNode] at hn
  split at hn
  · cases hn
  · exact keepsWithin_itemNode text treeDepth ht hn

/-- **The tree of a concrete tree is well nested** when that is, inside the text. -/
theorem wellNested_ofGrammar [Interpreter] {text : String} {raw : GrammarTree} {root : Node}
    (hraw : raw.WellNested Tangible)
    (hstop : raw.span.stop ≤ text.length) (h : ofGrammar text raw = .ok root) :
    root.WellNested ∧ root.span.stop ≤ text.length := by
  obtain ⟨items, hitems, h⟩ := bind_eq_ok.mp h
  obtain rfl := pure_eq_ok.mp h
  obtain ⟨horder, hall, -⟩ := inOrder_mapM (keepsWithin_outerNode text.toList) (inOrder_namedChildren hraw).1
    (inOrder_namedChildren hraw).2 hitems
  exact ⟨Node.wellNested_mk.mpr ⟨horder.widen (Nat.zero_le _) hstop, hall⟩, Nat.le_refl _⟩

/-- **The tree of a style sheet is well nested**, and inside the text. -/
theorem wellNested_ofText [Interpreter] {text : String} {root : Node} (h : ofText text = .ok root) :
    root.WellNested ∧ root.span.stop ≤ text.length := by
  rw [ofText, ofTextBy] at h
  split at h
  · cases h
  · next sheet hsheet =>
    obtain ⟨hnested, hspan⟩ := wellNested_grammarTree? hsheet
    have hstop : sheet.span.stop ≤ text.length := hspan ▸ (String.length_toList (s := text)).le
    exact wellNested_ofGrammar (hnested.mono fun _ => Solid.start_lt_stop) hstop h

end SlotEdit.Css
