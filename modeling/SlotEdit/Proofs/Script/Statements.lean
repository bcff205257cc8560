import SlotEdit.Script.Block
import SlotEdit.Proofs.Script.Expressions

/-!
# Proofs/Script/Statements — a whole text is laid in order

Patterns, simple statements, compound statements and blocks lay what they read when the readers of
expressions do, so the concrete tree of a text is well nested, inside the text, and the definition
behind decorators is the last of their node (`wellNested_grammarTree?`).
-/

namespace SlotEdit.Script

open Cursor
open Option (bind_eq_some_iff map_eq_some_iff or_eq_some_iff)

/-- **A reader that lays its trees** between where it starts and the cursor it gives. -/
def LaysAll (read : Place → Cursor → ReadingAll) : Prop :=
  ∀ ⦃p c ts c'⦄, read p c = some (ts, c') → LaidOut c ts c'

variable {p : Place} {a b c c' : Cursor} {t : GrammarTree} {ts us : List GrammarTree}

/-! ## Patterns -/

theorem dottedNames_eq (p : Place) (turns : Nat) (c : Cursor) :
    dottedNames p turns c = (identifier? c).bind fun (first, after) =>
      match turns, (onward? p after).bind (mark? ".") with
      | turns + 1, some dot =>
        ((onward? p.inner dot).bind (dottedNames p turns)).bind fun (more, last) => some (first :: more, last)
      | _, _ => some ([first], after) := by
  delta dottedNames
  cases turns <;>
  · refine congrArg (Option.bind (identifier? c)) (funext fun (first, after) => ?_)
    dsimp only
    cases (onward? p after).bind (mark? ".") <;> rfl

theorem laid_dottedNames {turns : Nat} (h : dottedNames p turns c = some (ts, c')) : LaidOut c ts c' := by
  induction turns generalizing c ts with
  | zero =>
    obtain ⟨⟨t, after⟩, ht, h⟩ := bind_eq_some_iff.mp h
    cases h
    exact laid_identifier? ht
  | succ turns ih =>
    rw [dottedNames_eq] at h
    obtain ⟨⟨t, after⟩, ht, h⟩ := bind_eq_some_iff.mp h
    have ht := laid_identifier? ht
    dsimp only at h
    split at h
    · next heq hdot =>
      cases heq
      obtain ⟨⟨more, last⟩, hmore, h⟩ := bind_eq_some_iff.mp h
      obtain ⟨next, hnext, hmore⟩ := bind_eq_some_iff.mp hmore
      cases h
      exact ht.cons ((ih hmore).behind ((reaches_of_markAhead? hdot).trans (reaches_of_onward? hnext)))
    · cases h
      exact ht

theorem lays_dottedName : Lays dottedName := by
  intro p c t c' h
  obtain ⟨⟨names, last⟩, hnames, h⟩ := bind_eq_some_iff.mp h
  cases h
  exact laid_over (by decide) (laid_dottedNames hnames)

theorem lays_splatPattern : Lays splatPattern := by
  intro p c t c' h
  obtain ⟨stars, hstars, h⟩ := bind_eq_some_iff.mp h
  obtain ⟨next, hnext, h⟩ := bind_eq_some_iff.mp h
  have hnext : c.Reaches next :=
    (reaches_of_or reaches_of_mark? reaches_of_mark? hstars).trans (reaches_of_onward? hnext)
  split at h
  · next hblank =>
    cases h
    exact laid_leaf (by decide) (hnext.trans (reaches_of_keyword? hblank))
  · obtain ⟨⟨name, last⟩, hname, h⟩ := bind_eq_some_iff.mp h
    cases h
    exact laid_over (by decide) ((laid_identifier? hname).behind hnext)

/-- A number, perhaps with another one behind it, is laid from in front of its sign. -/
theorem laid_numbers {start : Cursor} (hstart : c.Reaches start)
    (h : (do
      let (first, after) ← number? start
      let sign? := (onward? p after).bind fun next => (mark? "+" next).or (mark? "-" next)
      match sign?.bind fun sign => (onward? p.inner sign).bind number? with
      | some (second, last) => pure ([nodeOver "complex_pattern" c last [first, second]], last)
      | none => pure ([first], after)) = some (ts, c')) :
    LaidOut c ts c' := by
  obtain ⟨⟨first, after⟩, hfirst, h⟩ := bind_eq_some_iff.mp h
  have hfirst := (laid_number? hfirst).behind hstart
  dsimp only at h
  split at h
  · next hsecond =>
    cases h
    obtain ⟨sign, hsign, hsecond⟩ := bind_eq_some_iff.mp hsecond
    obtain ⟨next, hnext, hsign⟩ := bind_eq_some_iff.mp hsign
    obtain ⟨start, hstart, hsecond⟩ := bind_eq_some_iff.mp hsecond
    have hsign := (reaches_of_onward? hnext).trans (reaches_of_or reaches_of_mark? reaches_of_mark? hsign)
    exact laid_over (by decide)
      (hfirst.cons ((laid_number? hsecond).behind (hsign.trans (reaches_of_onward? hstart))))
  · cases h
    exact hfirst

theorem laysAll_numberPattern : LaysAll numberPattern := by
  intro p c ts c' h
  rw [numberPattern] at h
  split at h
  · next hminus =>
    obtain ⟨start, hstart, h⟩ := bind_eq_some_iff.mp h
    exact laid_numbers ((reaches_of_mark? hminus).trans (reaches_of_onward? hstart)) h
  · exact laid_numbers (.refl c) h

theorem laid_patternsIn {pattern : ExpressionReader} (hpattern : Lays pattern) {closing : String}
    (h : patternsIn pattern closing p c = some (ts, c')) : LaidOut c ts c' := by
  obtain ⟨start, hstart, h⟩ := bind_eq_some_iff.mp h
  have hstart : c.Reaches start := (reaches_drop 1 c).trans (reaches_of_operandAt? hstart)
  dsimp only at h
  split at h
  · next hlast =>
    cases h
    exact .nil (hstart.trans (reaches_of_mark? hlast))
  · obtain ⟨⟨first, after⟩, hfirst, h⟩ := bind_eq_some_iff.mp h
    obtain ⟨⟨more, comma, last⟩, hmore, h⟩ := bind_eq_some_iff.mp h
    cases h
    exact ((hpattern hfirst).cons (laid_itemsBehind hpattern hmore)).behind hstart

/-- **Entries give way to their keys and values**, which stand in their place. -/
theorem laid_flatMap_children {entry : String} (hentry : isOpen entry = true) (h : LaidOut a ts b) :
    LaidOut a (ts.flatMap fun t => if t.construct == entry then t.children else [t]) b := by
  obtain ⟨⟨hreaches, horder, hnested⟩, hroles⟩ := h
  refine ⟨⟨hreaches, ?_, fun u hu => ?_⟩, fun u hu => ?_⟩
  · generalize a.offset = start at horder
    clear hreaches hroles
    induction ts generalizing start with
    | nil => exact horder
    | cons t ts ih =>
      obtain ⟨ht, hts⟩ := List.forall_mem_cons.mp hnested
      rw [List.flatMap_cons, List.map_append]
      refine Span.InOrder.append ?_ (ih hts _ horder.2.2)
      split
      · exact ht.inOrder.widen horder.1 (Nat.le_refl _)
      · exact Span.inOrder_singleton horder.1 horder.2.1 (Nat.le_refl _)
  · obtain ⟨t, ht, hu⟩ := List.mem_flatMap.mp hu
    split at hu
    · exact (hnested t ht).of_mem_children hu
    · exact List.mem_singleton.mp hu ▸ hnested t ht
  · obtain ⟨t, ht, hu⟩ := List.mem_flatMap.mp hu
    split at hu
    · next hconstruct => exact (hnested t ht).property.others (eq_of_beq hconstruct ▸ hentry) u hu
    · exact List.mem_singleton.mp hu ▸ hroles t ht

section

variable {r : Readers} (hr : r.Lay)

include hr

theorem lays_constantPattern : Lays (constantPattern r) := by
  intro p c t c' h
  rw [constantPattern] at h
  split at h
  · exact lays_strings hr h
  · split at h
    · next hword =>
      split at h
      · cases h
      · cases h
        exact laid_wordOperand hword
    · cases h

theorem laysAll_closedPattern {pattern entry : ExpressionReader} (hpattern : Lays pattern) (hentry : Lays entry) :
    LaysAll (closedPattern r pattern entry) := by
  intro p c ts c' h
  have hlisted {construct closing : String} (hc : isOpen construct = true) {item : ExpressionReader}
      (hitem : Lays item)
      (h : (do
        let (items, last) ← patternsIn item closing p c
        pure ([nodeOver construct c last items], last)) = some (ts, c')) : LaidOut c ts c' := by
    obtain ⟨⟨items, last⟩, hitems, h⟩ := bind_eq_some_iff.mp h
    cases h
    exact laid_over hc (laid_patternsIn hitem hitems)
  rw [closedPattern] at h
  dsimp only at h
  split at h
  · obtain ⟨⟨t, last⟩, ht, heq⟩ := map_eq_some_iff.mp h
    cases heq
    exact lays_splatPattern ht
  · exact hlisted (by decide) hpattern h
  · exact hlisted (by decide) hpattern h
  · obtain ⟨⟨entries, last⟩, hentries, h⟩ := bind_eq_some_iff.mp h
    cases h
    exact laid_over (by decide) (laid_flatMap_children (by decide) (laid_patternsIn hentry hentries))
  · split at h
    · next hnumber => exact laysAll_numberPattern (hnumber.trans h)
    · next hconstant =>
      cases h
      exact lays_constantPattern hr hconstant
    · next hblank =>
      cases h
      exact .nil (reaches_of_keyword? hblank)
    · obtain ⟨⟨name, after⟩, hname, h⟩ := bind_eq_some_iff.mp h
      have hname := lays_dottedName hname
      dsimp only at h
      split at h
      · next inside hinside =>
        obtain ⟨⟨items, last⟩, hitems, h⟩ := bind_eq_some_iff.mp h
        cases h
        obtain ⟨opening, hopening, hinside⟩ := bind_eq_some_iff.mp hinside
        rw [hopening, Option.getD_some] at hitems
        exact laid_over (by decide)
          (hname.cons ((laid_patternsIn hpattern hitems).behind (reaches_of_onward? hopening)))
      · cases h
        exact hname

end

theorem laid_alternatives {closed : Place → Cursor → ReadingAll} (hclosed : LaysAll closed) {turns : Nat}
    (h : alternatives closed p turns c = some (ts, c')) : LaidOut c ts c' := by
  induction turns generalizing c ts with
  | zero =>
    cases h
    exact .nil (.refl _)
  | succ turns ih =>
    rw [alternatives.eq_def] at h
    split at h
    · next heq hbar =>
      cases heq
      obtain ⟨⟨first, behind⟩, hfirst, h⟩ := bind_eq_some_iff.mp h
      obtain ⟨start, hstart, hfirst⟩ := bind_eq_some_iff.mp hfirst
      obtain ⟨⟨more, last⟩, hmore, h⟩ := bind_eq_some_iff.mp h
      cases h
      exact ((hclosed hfirst).append (ih hmore)).behind
        ((reaches_of_markAhead? hbar).trans (reaches_of_operandAt? hstart))
    · cases h
      exact .nil (.refl _)

theorem laysAll_openPattern {closed : Place → Cursor → ReadingAll} (hclosed : LaysAll closed) :
    LaysAll (openPattern closed) := by
  intro p c ts c' h
  obtain ⟨⟨first, after⟩, hfirst, h⟩ := bind_eq_some_iff.mp h
  have hfirst := hclosed hfirst
  dsimp only at h
  split at h
  · obtain ⟨⟨more, last⟩, hmore, h⟩ := bind_eq_some_iff.mp h
    cases h
    exact laid_over (by decide) (hfirst.append (laid_alternatives hclosed hmore))
  · cases h
    exact hfirst

theorem laid_boundPattern {turns : Nat} {tree : GrammarTree} {after : Cursor} (htree : LaidOut c [tree] after)
    (h : boundPattern p turns c tree after = some (t, c')) : LaidOut c [t] c' := by
  induction turns generalizing tree after with
  | zero =>
    cases h
    exact htree
  | succ turns ih =>
    rw [boundPattern.eq_def] at h
    split at h
    · next heq has =>
      cases heq
      obtain ⟨⟨name, last⟩, hname, h⟩ := bind_eq_some_iff.mp h
      have hname := (laid_identifierAhead? hname).behind (reaches_of_keywordAhead? has)
      exact ih (laid_over (by decide) (laid_over (by decide) (htree.cons hname))) h
    · cases h
      exact htree

/-- **Patterns nested to any depth** are laid. -/
theorem lays_casePattern {r : Readers} (hr : r.Lay) {depth : Nat} : Lays (casePattern r depth) := by
  induction depth with
  | zero => exact fun _ _ _ _ h => nomatch h
  | succ depth ih =>
    have hentry : Lays (fun p c =>
        if c.startsWith "*" then splatPattern p c
        else do
          let (key, after) ← closedPattern r (casePattern r depth) (casePattern r depth) p c
          let colon ← (onward? p after).bind (mark? ":")
          let (value, last) ← operand (casePattern r depth) p colon
          pure (nodeOver "key_value_pattern" c last (key ++ [value]), last)) := by
      intro p c t c' h
      dsimp only at h
      split at h
      · exact lays_splatPattern h
      · obtain ⟨⟨key, after⟩, hkey, h⟩ := bind_eq_some_iff.mp h
        obtain ⟨colon, hcolon, h⟩ := bind_eq_some_iff.mp h
        obtain ⟨⟨value, last⟩, hvalue, h⟩ := bind_eq_some_iff.mp h
        cases h
        exact laid_over (by decide) ((laysAll_closedPattern hr ih ih hkey).append
          ((laid_operand ih hvalue).behind (reaches_of_markAhead? hcolon)))
    have hopen := laysAll_openPattern (laysAll_closedPattern hr ih hentry)
    intro p c t c' h
    rw [casePattern] at h
    dsimp only at h
    split at h
    · next hkeyword =>
      obtain ⟨⟨name, after⟩, hname, hkeyword⟩ := bind_eq_some_iff.mp hkeyword
      obtain ⟨equals, hequals, hkeyword⟩ := bind_eq_some_iff.mp hkeyword
      cases hkeyword
      obtain ⟨⟨value, last⟩, hvalue, h⟩ := bind_eq_some_iff.mp h
      obtain ⟨start, hstart, hvalue⟩ := bind_eq_some_iff.mp hvalue
      cases h
      exact laid_over (by decide) (laid_over (by decide) ((laid_identifier? hname).cons
        ((hopen hvalue).behind ((reaches_of_equalsAhead? hequals).trans (reaches_of_operandAt? hstart)))))
    · obtain ⟨⟨trees, after⟩, htrees, h⟩ := bind_eq_some_iff.mp h
      exact laid_boundPattern (laid_over (by decide) (hopen htrees)) h

/-! ## Assignments and expressions -/

section

variable {r : Readers} (hr : r.Lay)

include hr

/-- What is assigned is laid when the assignments in it are. -/
theorem laid_assigned {turns : Nat} {behind last : Cursor} {right : GrammarTree}
    (hassignment : ∀ {c targets t c'}, LaidOut c targets.trees targets.last →
      assignment r p turns c targets = some (t, c') → LaidOut c [t] c')
    (h : (do
      let start ← operandAt? p false behind
      match yieldExpression r p start with
      | some found => some found
      | none => do
        let expressions ← r.list p start
        match assignment r p turns start expressions with
        | some found => some found
        | none => do
          let tree ← expressions.node "expression_list" start
          pure (tree, expressions.last)) = some (right, last)) : LaidOut behind [right] last := by
  obtain ⟨start, hstart, h⟩ := bind_eq_some_iff.mp h
  refine LaidOut.behind (reaches_of_operandAt? hstart) ?_
  split at h
  · next hyield =>
    cases h
    exact lays_yieldExpression hr hyield
  · obtain ⟨expressions, hexpressions, h⟩ := bind_eq_some_iff.mp h
    have hexpressions := hr.laid_list hexpressions
    split at h
    · next hfound =>
      cases h
      exact hassignment hexpressions hfound
    · obtain ⟨tree, htree, h⟩ := bind_eq_some_iff.mp h
      cases h
      exact laid_node hexpressions (by decide) htree

/-- An assignment is laid from where its targets start. -/
theorem laid_assignment {turns : Nat} {targets : Several} (htargets : LaidOut c targets.trees targets.last)
    (h : assignment r p turns c targets = some (t, c')) : LaidOut c [t] c' := by
  induction turns generalizing c c' t targets with
  | zero => cases h
  | succ turns ih =>
    rw [assignment] at h
    obtain ⟨next, hnext, h⟩ := bind_eq_some_iff.mp h
    obtain ⟨target, htarget, h⟩ := bind_eq_some_iff.mp h
    have htarget := laid_target? htargets htarget
    have hnext := reaches_of_onward? hnext
    dsimp only at h
    split at h
    · next hequals =>
      obtain ⟨⟨right, last⟩, hright, h⟩ := bind_eq_some_iff.mp h
      cases h
      exact laid_over (by decide)
        (htarget.cons ((laid_assigned hr ih hright).behind (hnext.trans (reaches_of_equals? hequals))))
    · next haugmented _ =>
      obtain ⟨⟨right, last⟩, hright, h⟩ := bind_eq_some_iff.mp h
      cases h
      exact laid_over (by decide)
        (htarget.cons ((laid_assigned hr ih hright).behind (hnext.trans (reaches_of_augmentedMark? haugmented))))
    · next hcolon _ _ =>
      obtain ⟨⟨type, after⟩, htype, h⟩ := bind_eq_some_iff.mp h
      have htype := (laid_operand (lays_typeReader hr.whole) htype).behind (hnext.trans (reaches_of_colon? hcolon))
      dsimp only at h
      split at h
      · next hequals =>
        obtain ⟨⟨right, last⟩, hright, h⟩ := bind_eq_some_iff.mp h
        cases h
        exact laid_over (by decide)
          (htarget.cons (htype.cons ((laid_assigned hr ih hright).behind (reaches_of_equalsAhead? hequals))))
      · cases h
        exact laid_over (by decide) (htarget.cons htype)
    · cases h

theorem lays_expressionStatement : Lays (expressionStatement r) := by
  intro p c t c' h
  rw [expressionStatement] at h
  dsimp only at h
  split at h
  · next hyield =>
    cases h
    exact laid_over (by decide) (lays_yieldExpression hr hyield)
  · obtain ⟨expressions, hexpressions, h⟩ := bind_eq_some_iff.mp h
    have hexpressions := hr.laid_list hexpressions
    split at h
    · next hassignment =>
      cases h
      exact laid_over (by decide) (laid_assignment hr hexpressions hassignment)
    · cases h
      exact laid_over (by decide) hexpressions

end

/-! ## Imports -/

theorem lays_imported : Lays imported := by
  intro p c t c' h
  obtain ⟨⟨name, after⟩, hname, h⟩ := bind_eq_some_iff.mp h
  have hname := lays_dottedName hname
  dsimp only at h
  split at h
  · next has =>
    obtain ⟨⟨second, last⟩, hsecond, h⟩ := bind_eq_some_iff.mp h
    cases h
    exact laid_over (by decide)
      (hname.cons ((laid_identifierAhead? hsecond).behind (reaches_of_keywordAhead? has)))
  · cases h
    exact hname

theorem laid_importList {s : Several} (h : importList p c = some s) : LaidOut c s.trees s.last :=
  laid_several lays_imported h

theorem laysAll_importedNames : LaysAll importedNames := by
  intro p c ts c' h
  rw [importedNames] at h
  split at h
  · next hinside =>
    obtain ⟨names, hnames, h⟩ := bind_eq_some_iff.mp h
    obtain ⟨next, hnext, hnames⟩ := bind_eq_some_iff.mp hnames
    obtain ⟨last, hlast, h⟩ := bind_eq_some_iff.mp h
    cases h
    exact ((laid_importList hnames).upTo (reaches_of_closing? hlast)).behind
      ((reaches_of_mark? hinside).trans (reaches_of_onward? hnext))
  · obtain ⟨names, hnames, h⟩ := bind_eq_some_iff.mp h
    cases h
    exact laid_importList hnames

theorem reaches_dotsEnd (p : Place) (turns : Nat) (c : Cursor) : c.Reaches (dotsEnd p turns c) := by
  induction turns generalizing c with
  | zero => exact .refl c
  | succ turns ih =>
    rw [dotsEnd.eq_def]
    split
    · next heq hdot =>
      cases heq
      exact (reaches_of_markAhead? hdot).trans (ih _)
    · exact .refl c

theorem lays_importSource : Lays importSource := by
  intro p c t c' h
  rw [importSource] at h
  split at h
  · next behind hdot =>
    have hdots : LaidOut c [nodeOver "import_prefix" c (dotsEnd p behind.rest.length behind) []]
        (dotsEnd p behind.rest.length behind) :=
      laid_leaf (by decide) ((reaches_of_mark? hdot).trans (reaches_dotsEnd p _ behind))
    dsimp only at h
    split at h
    · next hname =>
      cases h
      obtain ⟨next, hnext, hname⟩ := bind_eq_some_iff.mp hname
      exact laid_over (by decide) (hdots.cons ((lays_dottedName hname).behind (reaches_of_onward? hnext)))
    · cases h
      exact laid_over (by decide) hdots
  · exact lays_dottedName h

variable {behind : Cursor}

theorem laid_importStatement (hbehind : c.Reaches behind) (h : importStatement p c behind = some (t, c')) :
    LaidOut c [t] c' := by
  obtain ⟨names, hnames, h⟩ := bind_eq_some_iff.mp h
  obtain ⟨next, hnext, hnames⟩ := bind_eq_some_iff.mp hnames
  cases h
  exact laid_over (by decide) ((laid_importList hnames).behind (hbehind.trans (reaches_of_onward? hnext)))

theorem laid_importFromStatement (hbehind : c.Reaches behind) (h : importFromStatement p c behind = some (t, c')) :
    LaidOut c [t] c' := by
  obtain ⟨next, hnext, h⟩ := bind_eq_some_iff.mp h
  have hnext := hbehind.trans (reaches_of_onward? hnext)
  split at h
  · next hfuture =>
    obtain ⟨import_, himport, h⟩ := bind_eq_some_iff.mp h
    obtain ⟨⟨names, last⟩, hnames, h⟩ := bind_eq_some_iff.mp h
    obtain ⟨start, hstart, hnames⟩ := bind_eq_some_iff.mp hnames
    cases h
    exact laid_over (by decide) ((laysAll_importedNames hnames).behind ((hnext.trans (reaches_of_keyword? hfuture)).trans
      ((reaches_of_keywordAhead? himport).trans (reaches_of_onward? hstart))))
  · obtain ⟨⟨source, after⟩, hsource, h⟩ := bind_eq_some_iff.mp h
    obtain ⟨import_, himport, h⟩ := bind_eq_some_iff.mp h
    obtain ⟨start, hstart, h⟩ := bind_eq_some_iff.mp h
    have hsource := (lays_importSource hsource).behind hnext
    have hstart : after.Reaches start := (reaches_of_keywordAhead? himport).trans (reaches_of_onward? hstart)
    dsimp only at h
    split at h
    · next hstar =>
      cases h
      exact laid_over (by decide)
        (hsource.cons ((laid_leaf (by decide) (reaches_of_mark? hstar)).behind hstart))
    · obtain ⟨⟨names, last⟩, hnames, h⟩ := bind_eq_some_iff.mp h
      cases h
      exact laid_over (by decide) (hsource.cons ((laysAll_importedNames hnames).behind hstart))

/-! ## Statements led by a word -/

theorem laid_bareStatement {construct : String} (hc : standsAlone construct = true) (hbehind : c.Reaches behind)
    (h : bareStatement construct c behind = some (t, c')) : LaidOut c [t] c' := by
  cases h
  exact laid_leaf hc hbehind

theorem laid_listStatement {construct : String} (hc : isOpen construct = true) {item : ExpressionReader}
    (hitem : Lays item) (hbehind : c.Reaches behind) (h : listStatement construct item p c behind = some (t, c')) :
    LaidOut c [t] c' := by
  obtain ⟨start, hstart, h⟩ := bind_eq_some_iff.mp h
  obtain ⟨items, hitems, h⟩ := bind_eq_some_iff.mp h
  split at h
  · cases h
  · cases h
    exact laid_over hc ((laid_several hitem hitems).behind (hbehind.trans (reaches_of_operandAt? hstart)))

section

variable {r : Readers} (hr : r.Lay) (hbehind : c.Reaches behind)

include hr hbehind

theorem laid_returnStatement (h : returnStatement r p c behind = some (t, c')) : LaidOut c [t] c' := by
  rw [returnStatement] at h
  split at h
  · next hvalue =>
    cases h
    obtain ⟨next, hnext, hvalue⟩ := bind_eq_some_iff.mp hvalue
    exact laid_over (by decide) ((hr.listNode hvalue).behind (hbehind.trans (reaches_of_onwardString? hnext)))
  · exact laid_bareStatement (by decide) hbehind h

omit hbehind in
/-- What is raised is laid with its cause. -/
theorem laid_raised {raised : List GrammarTree} {after : Cursor} (hraised : LaidOut c raised after)
    (h : (match (onward? p after).bind (keyword? "from") with
      | some from_ => do
        let (cause, last) ← operand r.whole p from_
        pure (nodeOver "raise_statement" c last (raised ++ [cause]), last)
      | none => pure (nodeOver "raise_statement" c after raised, after)) = some (t, c')) :
    LaidOut c [t] c' := by
  split at h
  · next hfrom =>
    obtain ⟨⟨cause, last⟩, hcause, h⟩ := bind_eq_some_iff.mp h
    cases h
    exact laid_over (by decide)
      (hraised.append ((laid_operand hr.whole hcause).behind (reaches_of_keywordAhead? hfrom)))
  · cases h
    exact laid_over (by decide) hraised

theorem laid_raiseStatement (h : raiseStatement r p c behind = some (t, c')) : LaidOut c [t] c' := by
  rw [raiseStatement] at h
  cases hvalue : (onwardString? p behind).bind (r.listNode p) with
  | none =>
    rw [hvalue] at h
    exact laid_raised hr (.nil hbehind) h
  | some found =>
    rw [hvalue] at h
    obtain ⟨next, hnext, hvalue⟩ := bind_eq_some_iff.mp hvalue
    exact laid_raised hr ((hr.listNode hvalue).behind (hbehind.trans (reaches_of_onwardString? hnext))) h

theorem laid_deleteStatement (h : deleteStatement r p c behind = some (t, c')) : LaidOut c [t] c' := by
  obtain ⟨⟨value, last⟩, hvalue, h⟩ := bind_eq_some_iff.mp h
  cases h
  exact laid_over (by decide) ((laid_operand hr.listNode hvalue).behind hbehind)

theorem laid_printStatement (h : printStatement r p c behind = some (t, c')) : LaidOut c [t] c' := by
  obtain ⟨start, hstart, h⟩ := bind_eq_some_iff.mp h
  have hstart := hbehind.trans (reaches_of_onwardString? hstart)
  split at h
  · next hchevron =>
    obtain ⟨⟨file, after⟩, hfile, h⟩ := bind_eq_some_iff.mp h
    have hfile : LaidOut c [nodeOver "chevron" start after [file]] after :=
      (laid_over (by decide) ((laid_operand hr.whole hfile).behind (reaches_of_mark? hchevron))).behind hstart
    dsimp only at h
    split at h
    · cases h
      exact laid_over (by decide) hfile
    · next comma hcomma =>
      have hcomma := reaches_of_markAhead? hcomma
      split at h
      · next hvalues =>
        cases h
        obtain ⟨next, hnext, hvalues⟩ := bind_eq_some_iff.mp hvalues
        exact laid_over (by decide)
          (hfile.cons ((hr.laid_list hvalues).behind (hcomma.trans (reaches_of_onwardString? hnext))))
      · cases h
        exact laid_over (by decide) (hfile.upTo hcomma)
  · obtain ⟨values, hvalues, h⟩ := bind_eq_some_iff.mp h
    cases h
    exact laid_over (by decide) ((hr.laid_list hvalues).behind hstart)

theorem laid_execStatement (h : execStatement r p c behind = some (t, c')) : LaidOut c [t] c' := by
  obtain ⟨start, hstart, h⟩ := bind_eq_some_iff.mp h
  obtain ⟨⟨code, after⟩, hcode, h⟩ := bind_eq_some_iff.mp h
  have hcode : LaidOut c [code] after := by
    refine LaidOut.behind (hbehind.trans (reaches_of_onwardString? hstart)) ?_
    rcases or_eq_some_iff.mp hcode with hcode | ⟨-, hcode⟩
    · exact laid_stringLiteral (fun _ _ _ => laid_interpolation hr) hcode
    · exact laid_identifier? hcode
  dsimp only at h
  split at h
  · next hin =>
    obtain ⟨next, hnext, h⟩ := bind_eq_some_iff.mp h
    obtain ⟨scopes, hscopes, h⟩ := bind_eq_some_iff.mp h
    split at h
    · cases h
    · cases h
      exact laid_over (by decide) (hcode.cons
        ((hr.laid_list hscopes).behind ((reaches_of_keywordAhead? hin).trans (reaches_of_operandAt? hnext))))
  · cases h
    exact laid_over (by decide) hcode

theorem laid_typeAliasStatement (h : typeAliasStatement r p c behind = some (t, c')) :
    LaidOut c [t] c' := by
  obtain ⟨⟨left, after⟩, hleft, h⟩ := bind_eq_some_iff.mp h
  obtain ⟨equals, hequals, h⟩ := bind_eq_some_iff.mp h
  obtain ⟨⟨right, last⟩, hright, h⟩ := bind_eq_some_iff.mp h
  cases h
  have hleft := (laid_operand (lays_typeReader hr.whole) hleft).behind hbehind
  exact laid_over (by decide) (hleft.cons
    ((laid_operand (lays_typeReader hr.whole) hright).behind (reaches_of_equalsAhead? hequals)))

end

section

variable {r : Readers} (hr : r.Lay)

include hr

/-- **Every way to read a simple statement** lays it. -/
theorem laid_of_mem_simpleStatements (h : (t, c') ∈ simpleStatements r p c) : LaidOut c [t] c' := by
  have hbehind : c.Reaches (c.drop (word c).length) := reaches_drop _ c
  have hplain (h : (t, c') ∈ (expressionStatement r p c).toList) : LaidOut c [t] c' :=
    lays_expressionStatement hr (Option.mem_toList.mp h)
  rw [simpleStatements] at h
  dsimp only at h
  split at h
  · exact laid_importStatement hbehind (Option.mem_toList.mp h)
  · exact laid_importFromStatement hbehind (Option.mem_toList.mp h)
  · exact laid_listStatement (by decide) hr.whole hbehind (Option.mem_toList.mp h)
  · exact laid_returnStatement hr hbehind (Option.mem_toList.mp h)
  · exact laid_deleteStatement hr hbehind (Option.mem_toList.mp h)
  · exact laid_raiseStatement hr hbehind (Option.mem_toList.mp h)
  · exact laid_bareStatement (by decide) hbehind (Option.mem_toList.mp h)
  · exact laid_bareStatement (by decide) hbehind (Option.mem_toList.mp h)
  · exact laid_bareStatement (by decide) hbehind (Option.mem_toList.mp h)
  · exact laid_listStatement (by decide) lays_identifier? hbehind (Option.mem_toList.mp h)
  · exact laid_listStatement (by decide) lays_identifier? hbehind (Option.mem_toList.mp h)
  · have hprinted (h : (t, c') ∈ (printStatement r p c (c.drop (word c).length)).toList) :
        LaidOut c [t] c' := laid_printStatement hr hbehind (Option.mem_toList.mp h)
    split at h
    · exact (List.mem_append.mp h).elim hprinted hplain
    · exact (List.mem_append.mp h).elim hplain hprinted
  · exact (List.mem_append.mp h).elim (fun h => laid_execStatement hr hbehind (Option.mem_toList.mp h)) hplain
  · exact (List.mem_append.mp h).elim (fun h => laid_typeAliasStatement hr hbehind (Option.mem_toList.mp h)) hplain
  · exact hplain h

/-! ## Lines -/

omit hr in
theorem reaches_of_lineEnd? (h : lineEnd? p c = some c') : c.Reaches c' := by
  rw [lineEnd?] at h
  split at h
  · next hgap => exact Option.some.inj h ▸ reaches_of_gap hgap
  · cases h

omit hr in
theorem statementLine_eq (r : Readers) (p : Place) (turns : Nat) (c : Cursor) :
    statementLine r p turns c =
      ((simpleStatements r p c).find? fun (_, after) => endsStatement p after).bind fun (first, after) =>
        match lineEnd? p after, turns with
        | some last, _ => some ([first], last)
        | none, 0 => none
        | none, turns + 1 => ((onward? p after).bind (mark? ";")).bind fun behind =>
          match gap p .operand behind with
          | .lineEnd last => some ([first], last)
          | .token next => (statementLine r p turns next).bind fun (more, last) => some (first :: more, last)
          | _ => none := by
  delta statementLine
  cases turns <;>
  · refine congrArg (Option.bind ((simpleStatements r p c).find? _)) (funext fun (first, after) => ?_)
    dsimp only
    cases lineEnd? p after <;> rfl

theorem laid_statementLine {p : Place} {turns : Nat} {c c' : Cursor} {ts : List GrammarTree}
    (h : statementLine r p turns c = some (ts, c')) : LaidOut c ts c' := by
  rw [statementLine_eq] at h
  obtain ⟨⟨t, after⟩, ht, h⟩ := bind_eq_some_iff.mp h
  have ht := laid_of_mem_simpleStatements hr (List.mem_of_find?_eq_some ht)
  dsimp only at h
  split at h
  · cases h
    exact ht.upTo (reaches_of_lineEnd? ‹_›)
  · cases h
  · obtain ⟨behind, hbehind, h⟩ := bind_eq_some_iff.mp h
    have hbehind := reaches_of_markAhead? hbehind
    split at h
    · next hgap =>
      cases h
      exact ht.upTo (hbehind.trans (reaches_of_gap hgap))
    · next hgap =>
      obtain ⟨⟨more, last⟩, hmore, h⟩ := bind_eq_some_iff.mp h
      cases h
      exact ht.cons ((laid_statementLine hmore).behind (hbehind.trans (reaches_of_gap hgap)))
    · cases h

end

/-! ## Compound statements -/

theorem reaches_of_continuation? {expected : String} {start behind : Cursor}
    (h : continuation? expected p c = some (start, behind)) : c.Reaches start ∧ start.Reaches behind := by
  rw [continuation?] at h
  split at h
  · next hgap =>
    obtain ⟨after, hafter, heq⟩ := map_eq_some_iff.mp h
    cases heq
    exact ⟨reaches_of_gap hgap, reaches_of_keyword? hafter⟩
  · cases h

section

variable {block : BlockReader} (hblock : Lays block)

include hblock

theorem laid_headEnd (h : headEnd block p c = some (t, c')) : LaidOut c [t] c' := by
  obtain ⟨colon, hcolon, h⟩ := bind_eq_some_iff.mp h
  exact (hblock h).behind (reaches_of_markAhead? hcolon)

theorem laid_bareClause? {expected construct : String} (hc : isOpen construct = true)
    (h : bareClause? block expected construct p c = some (ts, c')) : LaidOut c ts c' := by
  rw [bareClause?] at h
  split at h
  · next hword =>
    obtain ⟨hstart, hbehind⟩ := reaches_of_continuation? hword
    obtain ⟨⟨body, last⟩, hbody, heq⟩ := map_eq_some_iff.mp h
    cases heq
    exact (laid_over hc ((laid_headEnd hblock hbody).behind hbehind)).behind hstart
  · cases h
    exact .nil (.refl c)

variable {r : Readers} (hr : r.Lay) {behind : Cursor}

include hr

/-! ## Branches and loops -/

theorem laid_elifClauses {turns : Nat} (h : elifClauses r block p turns c = some (ts, c')) :
    LaidOut c ts c' := by
  induction turns generalizing c ts with
  | zero =>
    cases h
    exact .nil (.refl _)
  | succ turns ih =>
    rw [elifClauses.eq_def] at h
    split at h
    · next heq hword =>
      cases heq
      obtain ⟨hstart, hbehind⟩ := reaches_of_continuation? hword
      obtain ⟨⟨condition, middle⟩, hcondition, h⟩ := bind_eq_some_iff.mp h
      obtain ⟨⟨body, next⟩, hbody, h⟩ := bind_eq_some_iff.mp h
      obtain ⟨⟨more, last⟩, hmore, h⟩ := bind_eq_some_iff.mp h
      cases h
      have hcondition := (laid_operand hr.whole hcondition).behind hbehind
      exact ((laid_over (by decide) (hcondition.cons (laid_headEnd hblock hbody))).cons (ih hmore)).behind hstart
    · cases h
      exact .nil (.refl _)

theorem laid_ifStatement (hbehind : c.Reaches behind) (h : ifStatement r block p c behind = some (t, c')) :
    LaidOut c [t] c' := by
  obtain ⟨⟨condition, middle⟩, hcondition, h⟩ := bind_eq_some_iff.mp h
  obtain ⟨⟨body, next⟩, hbody, h⟩ := bind_eq_some_iff.mp h
  obtain ⟨⟨branches, after⟩, hbranches, h⟩ := bind_eq_some_iff.mp h
  obtain ⟨⟨otherwise, last⟩, hotherwise, h⟩ := bind_eq_some_iff.mp h
  cases h
  have hcondition := (laid_operand hr.whole hcondition).behind hbehind
  have hbranches := (laid_elifClauses hblock hr hbranches).append (laid_bareClause? hblock (by decide) hotherwise)
  exact laid_over (by decide) (hcondition.cons ((laid_headEnd hblock hbody).cons hbranches))

theorem laid_whileStatement (hbehind : c.Reaches behind) (h : whileStatement r block p c behind = some (t, c')) :
    LaidOut c [t] c' := by
  obtain ⟨⟨condition, middle⟩, hcondition, h⟩ := bind_eq_some_iff.mp h
  obtain ⟨⟨body, next⟩, hbody, h⟩ := bind_eq_some_iff.mp h
  obtain ⟨⟨otherwise, last⟩, hotherwise, h⟩ := bind_eq_some_iff.mp h
  cases h
  have hcondition := (laid_operand hr.whole hcondition).behind hbehind
  have hotherwise := laid_bareClause? hblock (by decide) hotherwise
  exact laid_over (by decide) (hcondition.cons ((laid_headEnd hblock hbody).cons hotherwise))

theorem laid_forStatement (hbehind : c.Reaches behind) (h : forStatement r block p c behind = some (t, c')) :
    LaidOut c [t] c' := by
  obtain ⟨⟨target, after⟩, htarget, h⟩ := bind_eq_some_iff.mp h
  obtain ⟨in_, hin, h⟩ := bind_eq_some_iff.mp h
  obtain ⟨⟨values, middle⟩, hvalues, h⟩ := bind_eq_some_iff.mp h
  obtain ⟨⟨body, next⟩, hbody, h⟩ := bind_eq_some_iff.mp h
  obtain ⟨⟨otherwise, last⟩, hotherwise, h⟩ := bind_eq_some_iff.mp h
  cases h
  have htarget := (laid_operand (lays_loopTarget hr) htarget).behind hbehind
  have hvalues := (laid_operand hr.listNode hvalues).behind (reaches_of_keywordAhead? hin)
  have hotherwise := laid_bareClause? hblock (by decide) hotherwise
  exact laid_over (by decide) (htarget.cons (hvalues.cons ((laid_headEnd hblock hbody).cons hotherwise)))

/-! ## Exceptions and contexts -/

theorem laid_exceptClauses {turns : Nat} (h : exceptClauses r block p turns c = some (ts, c')) :
    LaidOut c ts c' := by
  induction turns generalizing c ts with
  | zero =>
    cases h
    exact .nil (.refl _)
  | succ turns ih =>
    rw [exceptClauses.eq_def] at h
    split at h
    · next start word heq hword =>
      cases heq
      obtain ⟨hstart, hword⟩ := reaches_of_continuation? hword
      have hbehind : start.Reaches (((onward? p.inner word).bind (mark? "*")).getD word) := by
        cases hstar : (onward? p.inner word).bind (mark? "*") with
        | none => exact hword
        | some behind => exact hword.trans (reaches_of_markAhead? hstar)
      have hbody {values : List GrammarTree} {middle : Cursor} (hvalues : LaidOut start values middle)
          (h : (do
            let (body, next) ← headEnd block p middle
            let (more, last) ← exceptClauses r block p turns next
            pure (nodeOver "except_clause" start next (values ++ [body]) :: more, last)) = some (ts, c')) :
          LaidOut c ts c' := by
        obtain ⟨⟨body, next⟩, hbody, h⟩ := bind_eq_some_iff.mp h
        obtain ⟨⟨more, last⟩, hmore, h⟩ := bind_eq_some_iff.mp h
        cases h
        exact ((laid_over (by decide) (hvalues.append (laid_headEnd hblock hbody))).cons (ih hmore)).behind hstart
      dsimp only at h
      split at h
      · next hvalues =>
        obtain ⟨next, hnext, hvalues⟩ := bind_eq_some_iff.mp hvalues
        split at h
        · cases h
        · exact hbody ((hr.laid_list hvalues).behind (hbehind.trans (reaches_of_onwardString? hnext))) h
      · exact hbody (.nil hbehind) h
    · cases h
      exact .nil (.refl _)

theorem laid_tryStatement (hbehind : c.Reaches behind) (h : tryStatement r block p c behind = some (t, c')) :
    LaidOut c [t] c' := by
  obtain ⟨⟨body, next⟩, hbody, h⟩ := bind_eq_some_iff.mp h
  obtain ⟨⟨handlers, next⟩, hhandlers, h⟩ := bind_eq_some_iff.mp h
  obtain ⟨⟨otherwise, next⟩, hotherwise, h⟩ := bind_eq_some_iff.mp h
  obtain ⟨⟨final, last⟩, hfinal, h⟩ := bind_eq_some_iff.mp h
  cases h
  have hbody := (laid_headEnd hblock hbody).behind hbehind
  have hhandlers := hbody.cons (laid_exceptClauses hblock hr hhandlers)
  have hotherwise := hhandlers.append (laid_bareClause? hblock (by decide) hotherwise)
  exact laid_over (by decide) (hotherwise.append (laid_bareClause? hblock (by decide) hfinal))

omit hblock in
theorem lays_withItem : Lays (withItem r) := by
  intro p c t c' h
  obtain ⟨⟨value, last⟩, hvalue, heq⟩ := map_eq_some_iff.mp h
  cases heq
  exact laid_over (by decide) (hr.whole hvalue)

omit hblock in
theorem lays_withParenthesized : Lays (withParenthesized r) := by
  intro p c t c' h
  obtain ⟨inside, hinside, h⟩ := bind_eq_some_iff.mp h
  obtain ⟨start, hstart, h⟩ := bind_eq_some_iff.mp h
  obtain ⟨⟨first, after⟩, hfirst, h⟩ := bind_eq_some_iff.mp h
  obtain ⟨⟨more, comma, last⟩, hmore, h⟩ := bind_eq_some_iff.mp h
  obtain ⟨colon, -, h⟩ := bind_eq_some_iff.mp h
  have hfirst := (lays_withItem hr hfirst).behind ((reaches_of_mark? hinside).trans (reaches_of_operandAt? hstart))
  split at h
  · cases h
  · cases h
    exact laid_over (by decide) (hfirst.cons (laid_itemsBehind (lays_withItem hr) hmore))

theorem laid_withStatement (hbehind : c.Reaches behind) (h : withStatement r block p c behind = some (t, c')) :
    LaidOut c [t] c' := by
  obtain ⟨start, hstart, h⟩ := bind_eq_some_iff.mp h
  have hbody {contexts : GrammarTree} {middle : Cursor} (hcontexts : LaidOut start [contexts] middle)
      (h : (do
        let (body, last) ← headEnd block p middle
        pure (nodeOver "with_statement" c last [contexts, body], last)) = some (t, c')) :
      LaidOut c [t] c' := by
    obtain ⟨⟨body, last⟩, hbody, h⟩ := bind_eq_some_iff.mp h
    cases h
    exact laid_over (by decide)
      ((hcontexts.cons (laid_headEnd hblock hbody)).behind (hbehind.trans (reaches_of_operandAt? hstart)))
  split at h
  · next hfound => exact hbody (lays_withParenthesized hr hfound) h
  · obtain ⟨items, hitems, h⟩ := bind_eq_some_iff.mp h
    exact hbody (laid_over (by decide) (laid_several (lays_withItem hr) hitems)) h

/-! ## Definitions -/

omit hblock in
theorem laid_typeParameters? (h : typeParameters? r p c = some (ts, c')) : LaidOut c ts c' := by
  rw [typeParameters?] at h
  split at h
  · obtain ⟨next, hnext, h⟩ := bind_eq_some_iff.mp h
    obtain ⟨⟨types, last⟩, htypes, h⟩ := bind_eq_some_iff.mp h
    cases h
    exact (lays_typeParameter (lays_typeReader hr.whole) htypes).behind (reaches_of_onward? hnext)
  · cases h
    exact .nil (.refl c)

omit hblock in
theorem lays_parameters : Lays (parameters r) := by
  intro p c t c' h
  obtain ⟨inside, hinside, h⟩ := bind_eq_some_iff.mp h
  obtain ⟨start, hstart, h⟩ := bind_eq_some_iff.mp h
  have hstart := (reaches_of_mark? hinside).trans (reaches_of_operandAt? hstart)
  split at h
  · next hlast =>
    cases h
    exact laid_leaf (by decide) (hstart.trans (reaches_of_mark? hlast))
  · obtain ⟨⟨items, after⟩, hitems, h⟩ := bind_eq_some_iff.mp h
    obtain ⟨last, hlast, h⟩ := bind_eq_some_iff.mp h
    cases h
    exact laid_over (by decide)
      (((laid_parameterList hr.whole hitems).upTo (reaches_of_closing? hlast)).behind hstart)

theorem laid_functionDefinition (hbehind : c.Reaches behind)
    (h : functionDefinition r block p c behind = some (t, c')) :
    LaidOut c [t] c' ∧ isNamedConstruct t.construct = true := by
  obtain ⟨⟨name, afterName⟩, hname, h⟩ := bind_eq_some_iff.mp h
  obtain ⟨⟨types, afterTypes⟩, htypes, h⟩ := bind_eq_some_iff.mp h
  obtain ⟨⟨params, afterParams⟩, hparams, h⟩ := bind_eq_some_iff.mp h
  obtain ⟨next, hnext, hparams⟩ := bind_eq_some_iff.mp hparams
  have hidentifier := construct_of_identifierAhead? hname
  have hname := (laid_identifierAhead? hname).behind hbehind
  have hparams := (lays_parameters hr hparams).behind (reaches_of_onward? hnext)
  have hbody {result : List GrammarTree} {after : Cursor} (hresult : LaidOut afterParams result after)
      (h : (do
        let (body, last) ← headEnd block p after
        pure (nodeOver "function_definition" c last
          (name.withRole "name" :: types ++ params :: result ++ [body]), last)) = some (t, c')) :
      LaidOut c [t] c' ∧ isNamedConstruct t.construct = true := by
    obtain ⟨⟨body, last⟩, hbody, h⟩ := bind_eq_some_iff.mp h
    cases h
    rw [List.append_assoc, List.cons_append]
    exact ⟨laid_named (by decide) hname hidentifier ((laid_typeParameters? hr htypes).append
      ((hparams.cons hresult).append (laid_headEnd hblock hbody))), rfl⟩
  dsimp only at h
  split at h
  · next harrow =>
    obtain ⟨⟨type, last⟩, htype, h⟩ := bind_eq_some_iff.mp h
    exact hbody ((laid_operand (lays_typeReader hr.whole) htype).behind (reaches_of_markAhead? harrow)) h
  · exact hbody (.nil (.refl _)) h

theorem laid_classDefinition (hbehind : c.Reaches behind)
    (h : classDefinition r block p c behind = some (t, c')) :
    LaidOut c [t] c' ∧ isNamedConstruct t.construct = true := by
  obtain ⟨⟨name, afterName⟩, hname, h⟩ := bind_eq_some_iff.mp h
  obtain ⟨⟨types, afterTypes⟩, htypes, h⟩ := bind_eq_some_iff.mp h
  have hidentifier := construct_of_identifierAhead? hname
  have hname := (laid_identifierAhead? hname).behind hbehind
  have hbody {bases : List GrammarTree} {middle : Cursor} (hbases : LaidOut afterTypes bases middle)
      (h : (do
        let (body, last) ← headEnd block p middle
        pure (nodeOver "class_definition" c last (name.withRole "name" :: types ++ bases ++ [body]), last)) =
          some (t, c')) : LaidOut c [t] c' ∧ isNamedConstruct t.construct = true := by
    obtain ⟨⟨body, last⟩, hbody, h⟩ := bind_eq_some_iff.mp h
    cases h
    rw [List.append_assoc, List.cons_append]
    exact ⟨laid_named (by decide) hname hidentifier ((laid_typeParameters? hr htypes).append
      (hbases.append (laid_headEnd hblock hbody))), rfl⟩
  dsimp only at h
  split at h
  · obtain ⟨next, hnext, h⟩ := bind_eq_some_iff.mp h
    obtain ⟨⟨list, last⟩, hlist, h⟩ := bind_eq_some_iff.mp h
    exact hbody ((lays_argumentList hr hlist).behind (reaches_of_onward? hnext)) h
  · exact hbody (.nil (.refl _)) h

/-- What decorators stand before is laid, and has a name. -/
theorem laid_definition (h : definition r block p c = some (t, c')) :
    LaidOut c [t] c' ∧ isNamedConstruct t.construct = true := by
  rw [definition] at h
  split at h
  · next hdef =>
    refine laid_functionDefinition hblock hr ?_ h
    refine reaches_of_or (fun hasync => ?_) reaches_of_keyword? hdef
    obtain ⟨behind, hbehind, hasync⟩ := bind_eq_some_iff.mp hasync
    exact (reaches_of_keyword? hbehind).trans (reaches_of_keywordAhead? hasync)
  · next hclass => exact laid_classDefinition hblock hr (reaches_of_keyword? hclass) h
  · cases h

/-- **Decorators stand before the definition**, which alone plays its part. -/
theorem laid_decorated {p : Place} {turns : Nat} {c c' : Cursor} {ts : List GrammarTree}
    (h : decorated r block p turns c = some (ts, c')) :
    Laid Regular c ts c' ∧ ∃ front definition, ts = front ++ [definition] ∧ definition.role = "definition" ∧
      isNamedConstruct definition.construct = true ∧ ∀ t ∈ front, t.role = "" ∧ t.construct = "decorator" := by
  rw [decorated.eq_def] at h
  split at h
  · next hat =>
    obtain ⟨⟨value, after⟩, hvalue, h⟩ := bind_eq_some_iff.mp h
    obtain ⟨line, hline, h⟩ := bind_eq_some_iff.mp h
    obtain ⟨next, hnext, h⟩ := bind_eq_some_iff.mp h
    obtain ⟨⟨more, last⟩, hmore, h⟩ := bind_eq_some_iff.mp h
    cases h
    obtain ⟨hlaid, front, definition, rfl, hrole, hconstruct, hfront⟩ := laid_decorated hmore
    have hvalue := (laid_operand hr.whole hvalue).behind (reaches_of_mark? hat)
    have hdecorator : LaidOut c [nodeOver "decorator" c after [value]] after := laid_over (by decide) hvalue
    refine ⟨hdecorator.toLaid.cons (hlaid.behind ((reaches_of_lineEnd? hline).trans (reaches_of_onward? hnext))),
      _ :: front, definition, rfl, hrole, hconstruct, List.forall_mem_cons.mpr ⟨⟨rfl, rfl⟩, hfront⟩⟩
  · cases h
  · obtain ⟨⟨tree, last⟩, htree, h⟩ := bind_eq_some_iff.mp h
    cases h
    obtain ⟨hlaid, hconstruct⟩ := laid_definition hblock hr htree
    exact ⟨laid_withRole hlaid, [], _, rfl, tree.role_withRole "definition",
      (tree.construct_withRole "definition").symm ▸ hconstruct, nofun⟩

theorem lays_decoratedDefinition : Lays (decoratedDefinition r block) := by
  intro p c t c' h
  obtain ⟨⟨trees, last⟩, htrees, h⟩ := bind_eq_some_iff.mp h
  cases h
  obtain ⟨hlaid, hparts⟩ := laid_decorated hblock hr htrees
  exact laid_nodeOver hlaid ⟨rfl, rfl, nofun, nofun, fun _ => hparts, nofun⟩

/-! ## Matching -/

theorem lays_caseClause : Lays (caseClause r block) := by
  intro p c t c' h
  obtain ⟨behind, hbehind, h⟩ := bind_eq_some_iff.mp h
  obtain ⟨start, hstart, h⟩ := bind_eq_some_iff.mp h
  obtain ⟨patterns, hpatterns, h⟩ := bind_eq_some_iff.mp h
  have hpatterns := (laid_several (lays_casePattern hr) hpatterns).behind
    ((reaches_of_keyword? hbehind).trans (reaches_of_operandAt? hstart))
  have hbody {guard : List GrammarTree} {after : Cursor} (hguard : LaidOut patterns.last guard after)
      (h : (do
        let (body, last) ← headEnd block p after
        pure (nodeOver "case_clause" c last (patterns.trees ++ guard ++ [body]), last)) = some (t, c')) :
      LaidOut c [t] c' := by
    obtain ⟨⟨body, last⟩, hbody, h⟩ := bind_eq_some_iff.mp h
    cases h
    exact laid_over (by decide) ((hpatterns.append hguard).append (laid_headEnd hblock hbody))
  cases hguard : (onward? p.inner patterns.last).bind (ifClause r p.inner) with
  | none =>
    rw [hguard] at h
    exact hbody (.nil (.refl _)) h
  | some guard =>
    rw [hguard] at h
    obtain ⟨next, hnext, hguard⟩ := bind_eq_some_iff.mp hguard
    exact hbody ((lays_ifClause hr hguard).behind (reaches_of_onward? hnext)) h

theorem laid_caseClauses {p : Place} {turns : Nat} {c c' : Cursor} {ts : List GrammarTree}
    (h : caseClauses r block p turns c = some (ts, c')) : LaidOut c ts c' := by
  rw [caseClauses.eq_def] at h
  split at h
  · next hgap =>
    cases h
    exact .nil (reaches_of_gap hgap)
  · next hgap =>
    obtain ⟨⟨clause, after⟩, hclause, h⟩ := bind_eq_some_iff.mp h
    obtain ⟨⟨more, last⟩, hmore, h⟩ := bind_eq_some_iff.mp h
    cases h
    exact ((lays_caseClause hblock hr hclause).cons (laid_caseClauses hmore)).behind (reaches_of_gap hgap)
  · cases h

theorem laid_matchStatement (hbehind : c.Reaches behind) (h : matchStatement r block p c behind = some (t, c')) :
    LaidOut c [t] c' := by
  obtain ⟨start, hstart, h⟩ := bind_eq_some_iff.mp h
  obtain ⟨subjects, hsubjects, h⟩ := bind_eq_some_iff.mp h
  obtain ⟨colon, hcolon, h⟩ := bind_eq_some_iff.mp h
  have hsubjects := ((laid_several hr.whole hsubjects).behind (hbehind.trans (reaches_of_operandAt? hstart))).upTo
    (reaches_of_markAhead? hcolon)
  dsimp only at h
  split at h
  · next hgap =>
    cases h
    exact laid_over (by decide)
      (hsubjects.append ((laid_leaf (by decide) (.refl _)).behind (reaches_of_gap hgap)))
  · next hgap =>
    obtain ⟨⟨clauses, last⟩, hclauses, h⟩ := bind_eq_some_iff.mp h
    cases h
    exact laid_over (by decide) (hsubjects.append
      ((laid_over (by decide) (laid_caseClauses hblock hr hclauses)).behind (reaches_of_gap hgap)))
  · cases h

/-! ## Statements and blocks -/

theorem laid_compound? {reading : Reading} (hcompound : compound? r block p c = some reading)
    (h : reading = some (t, c')) : LaidOut c [t] c' := by
  have hbehind : c.Reaches (c.drop (word c).length) := reaches_drop _ c
  rw [compound?] at hcompound
  dsimp only at hcompound
  split at hcompound
  · exact laid_ifStatement hblock hr hbehind (Option.some.inj hcompound ▸ h)
  · exact laid_forStatement hblock hr hbehind (Option.some.inj hcompound ▸ h)
  · exact laid_whileStatement hblock hr hbehind (Option.some.inj hcompound ▸ h)
  · exact laid_tryStatement hblock hr hbehind (Option.some.inj hcompound ▸ h)
  · exact laid_withStatement hblock hr hbehind (Option.some.inj hcompound ▸ h)
  · exact (laid_functionDefinition hblock hr hbehind (Option.some.inj hcompound ▸ h)).1
  · exact (laid_classDefinition hblock hr hbehind (Option.some.inj hcompound ▸ h)).1
  · obtain ⟨found, hfound, rfl⟩ := map_eq_some_iff.mp hcompound
    exact laid_matchStatement hblock hr hbehind (h ▸ hfound)
  · split at hcompound
    · cases hcompound
    · next next hnext =>
      have hafter := hbehind.trans ((reaches_of_onward? hnext).trans (reaches_drop (word next).length next))
      split at hcompound
      · exact (laid_functionDefinition hblock hr hafter (Option.some.inj hcompound ▸ h)).1
      · exact laid_forStatement hblock hr hafter (Option.some.inj hcompound ▸ h)
      · exact laid_withStatement hblock hr hafter (Option.some.inj hcompound ▸ h)
      · cases hcompound
  · split at hcompound
    · exact lays_decoratedDefinition hblock hr (Option.some.inj hcompound ▸ h)
    · cases hcompound

theorem laysAll_statement : LaysAll (statement r block) := by
  intro p c ts c' h
  rw [statement] at h
  split at h
  · next hcompound =>
    obtain ⟨⟨t, last⟩, hreading, heq⟩ := map_eq_some_iff.mp h
    cases heq
    exact laid_compound? hblock hr hcompound hreading
  · exact laid_statementLine hr h

theorem laid_statements {p : Place} {turns : Nat} {c c' : Cursor} {ts : List GrammarTree}
    (h : statements r block p turns c = some (ts, c')) : LaidOut c ts c' := by
  rw [statements.eq_def] at h
  split at h
  · next hgap =>
    cases h
    exact .nil (reaches_of_gap hgap)
  · next hgap =>
    split at h
    · cases h
      exact .nil (reaches_of_gap hgap)
    · split at h
      · cases h
      · obtain ⟨⟨first, after⟩, hfirst, h⟩ := bind_eq_some_iff.mp h
        obtain ⟨⟨more, last⟩, hmore, h⟩ := bind_eq_some_iff.mp h
        cases h
        exact ((laysAll_statement hblock hr hfirst).append (laid_statements hmore)).behind (reaches_of_gap hgap)
  · cases h

end

/-- **Blocks nested to any depth** are laid. -/
theorem lays_block {r : Readers} (hr : r.Lay) (depth : Nat) : Lays (block r depth) := by
  induction depth with
  | zero => exact fun _ _ _ _ h => nomatch h
  | succ depth ih =>
    intro p c t c' h
    have hwhole {first : Cursor} (hfirst : c.Reaches first) {reading : ReadingAll}
        (hreading : ∀ ⦃ts last⦄, reading = some (ts, last) → LaidOut first ts last)
        (h : (reading.map fun (trees, last) => (nodeOver "block" first last trees, last)) = some (t, c')) :
        LaidOut c [t] c' := by
      obtain ⟨⟨trees, last⟩, htrees, heq⟩ := map_eq_some_iff.mp h
      cases heq
      exact (laid_over (by decide) (hreading htrees)).behind hfirst
    rw [block.eq_def] at h
    dsimp only at h
    split at h
    · next hgap =>
      cases h
      exact (laid_leaf (by decide) (.refl _)).behind (reaches_of_gap hgap)
    · next hgap => exact hwhole (reaches_of_gap hgap) (fun _ _ => laid_statements ih hr) h
    · next hgap => exact hwhole (reaches_of_gap hgap) (fun _ _ => laid_statementLine hr) h
    · cases h

/-- **The concrete tree of a text is well nested** and inside the text, and every construct in it is
put together as the grammar does it. -/
theorem regular_grammarTree? {text : String} {raw : GrammarTree} (h : grammarTree? text = some raw) :
    raw.WellNested Regular ∧ raw.span.stop ≤ text.length := by
  obtain ⟨⟨trees, last⟩, htrees, rfl⟩ := map_eq_some_iff.mp h
  have hr := lays_readersTo ((Cursor.ofText text).rest.length + 2)
  have hlaid := laid_statements (lays_block hr _) hr htrees
  have hmodule : LaidOut (Cursor.ofText text) [nodeOver "module" (Cursor.ofText text) last trees] last :=
    laid_over (by decide) hlaid
  refine ⟨List.forall_mem_singleton.mp hmodule.wellNested, ?_⟩
  have htotal := hlaid.reaches.total
  rw [Cursor.ofText, String.length_toList] at htotal
  exact Nat.le_of_add_right_le (htotal.trans (Nat.zero_add _)).le

/-- No decorator stands behind what it decorates. -/
theorem wellNested_grammarTree? {text : String} {raw : GrammarTree} (h : grammarTree? text = some raw) :
    raw.WellNested DecoratorsFirst ∧ raw.span.stop ≤ text.length :=
  ⟨(regular_grammarTree? h).1.mono fun _ => Regular.decoratorsFirst, (regular_grammarTree? h).2⟩

end SlotEdit.Script
