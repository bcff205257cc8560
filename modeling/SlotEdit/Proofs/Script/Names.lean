import Mathlib.Data.List.Perm.Basic
import SlotEdit.Proofs.Script.Statements

/-!
# Proofs/Script/Names — no name is lost and none is told twice

The identifiers of the concrete tree of a text become the identifier nodes of its syntax tree, in the
same order, but for those inside strings and those that name a definition or a keyword argument; each
of the latter is the name that the node of its construct carries (`keepsNames_of_ofTextBy`).

The concrete tree is that of any reader.  Of its constructs only what the grammar itself promises is
taken for granted (`Lawful`): they may have comments, continued lines, punctuation and any parts among
their children.  The trees that `grammarTree?` reads are such (`lawful_grammarTree?`).

What stands in a concrete tree is listed as `Occurrence`s, and `KeepsNames` says what some of these have
to do with some nodes.  It holds of what stands in a row when it holds of each, so it is carried
through the constructs that only group others; a decorated definition takes its decorators between its
own node and the parts of the definition, which changes the order of the named nodes only.
-/

namespace SlotEdit

/-- **A concrete node of a tree**, with those above it, the nearest first. -/
structure Occurrence where
  tree : GrammarTree
  above : List GrammarTree

namespace GrammarTree

mutual
/-- **What stands in a tree below some nodes**, parents first. -/
def occurrences (above : List GrammarTree) : GrammarTree → List Occurrence
  | .node c n r s cs => ⟨.node c n r s cs, above⟩ :: occurrencesInAll (.node c n r s cs :: above) cs

/-- What stands in a list of trees, in order. -/
def occurrencesInAll (above : List GrammarTree) : List GrammarTree → List Occurrence
  | [] => []
  | t :: rest => occurrences above t ++ occurrencesInAll above rest
end

variable {t : GrammarTree} {ts us above : List GrammarTree} {o : Occurrence}

theorem occurrences_eq (above : List GrammarTree) (t : GrammarTree) :
    t.occurrences above = ⟨t, above⟩ :: occurrencesInAll (t :: above) t.children := by
  cases t
  rw [occurrences]
  rfl

theorem occurrencesInAll_append (above ts us : List GrammarTree) :
    occurrencesInAll above (ts ++ us) = occurrencesInAll above ts ++ occurrencesInAll above us := by
  induction ts with
  | nil =>
    rw [occurrencesInAll]
    rfl
  | cons t ts ih => rw [List.cons_append, occurrencesInAll, occurrencesInAll, ih, List.append_assoc]

theorem mem_occurrencesInAll : o ∈ occurrencesInAll above ts ↔ ∃ t ∈ ts, o ∈ t.occurrences above := by
  induction ts with
  | nil => simp [occurrencesInAll]
  | cons t ts ih => simp [occurrencesInAll, ih]

/-- What stands in a tree stands below what the tree does. -/
theorem suffix_of_mem_occurrences (h : o ∈ t.occurrences above) : above <:+ o.above := by
  induction t using induct generalizing above with
  | node construct named role span ts ih =>
    rw [occurrences_eq, List.mem_cons] at h
    rcases h with rfl | h
    · exact List.suffix_refl above
    · obtain ⟨u, hu, ho⟩ := mem_occurrencesInAll.mp h
      exact (List.suffix_cons _ above).trans (ih u hu ho)

theorem mem_walk_of_mem_occurrences (h : o ∈ t.occurrences above) : o.tree ∈ t.walk := by
  induction t using induct generalizing above with
  | node construct named role span ts ih =>
    rw [occurrences_eq, List.mem_cons] at h
    rcases h with rfl | h
    · exact mem_walk_self _
    · obtain ⟨u, hu, ho⟩ := mem_occurrencesInAll.mp h
      exact mem_walk.mpr (.inr ⟨u, hu, ih u hu ho⟩)

end GrammarTree

/-- The constructs of strings, single ones and those next to each other. -/
def Script.isString (construct : String) : Bool := construct == "string" || construct == "concatenated_string"

/-- Whether one of some nodes is a string. -/
def Script.inString (above : List GrammarTree) : Bool := above.any fun t => Script.isString t.construct

/-- The offsets and the name of an identifier. -/
def Node.identifier? (n : Node) : Option (Span × String) :=
  match n.form with
  | .python (.identifier name) => some (n.span, name)
  | _ => none

/-- Whether a node is that of a definition or of a keyword argument. -/
def Node.carriesName (n : Node) : Bool :=
  match n.form with
  | .python (.functionDefinition _) | .python (.classDefinition _) | .python (.keywordArgument _) => true
  | _ => false

theorem Node.identifier?_of_carriesName {n : Node} (h : n.carriesName = true) : n.identifier? = none := by
  rw [Node.carriesName] at h
  rw [Node.identifier?]
  grind

namespace Occurrence

/-- Whether a string is above. -/
def isInString (o : Occurrence) : Bool := Script.inString o.above

/-- Whether it is the name of a definition or of a keyword argument. -/
def isName (o : Occurrence) : Bool :=
  o.tree.role == "name" && o.above.head?.any fun parent => Script.isNamedConstruct parent.construct

def isIdentifier (o : Occurrence) : Bool := o.tree.construct == "identifier"

/-- An identifier that has a node of its own. -/
def isKept (o : Occurrence) : Bool := o.isIdentifier && !o.isInString && !o.isName

/-- An identifier that is the name of another node. -/
def isExcepted (o : Occurrence) : Bool := o.isIdentifier && !o.isInString && o.isName

theorem isKept_of_isExcepted {o : Occurrence} (h : o.isExcepted = true) : o.isKept = false := by
  rw [isExcepted, Bool.and_eq_true] at h
  rw [isKept, h.2, Bool.not_true, Bool.and_false]

/-- A construct other than an identifier is no name. -/
theorem nameless_of_ne {t : GrammarTree} (h : t.construct ≠ "identifier") (above : List GrammarTree) :
    (⟨t, above⟩ : Occurrence).isKept = false ∧ (⟨t, above⟩ : Occurrence).isExcepted = false := by
  rw [isKept, isExcepted, isIdentifier, beq_eq_false_iff_ne.mpr h]
  exact ⟨rfl, rfl⟩

/-- Nothing in a string is a name. -/
theorem nameless_of_isInString {o : Occurrence} (h : o.isInString = true) :
    o.isKept = false ∧ o.isExcepted = false := by
  rw [isKept, isExcepted, h]
  simp

/-- Whether it is what is decorated. -/
def isDefinition (o : Occurrence) : Bool :=
  o.tree.role == "definition" && o.above.head?.any fun parent => parent.construct == "decorated_definition"

/-- **A construct that plays no part** in the node of the one above. -/
structure IsPlain (o : Occurrence) : Prop where
  name : o.isName = false
  definition : o.isDefinition = false

theorem IsPlain.of_parent {t parent : GrammarTree} {above : List GrammarTree}
    (hname : t.role ≠ "name" ∨ Script.isNamedConstruct parent.construct = false)
    (hdefinition : t.role ≠ "definition" ∨ parent.construct ≠ "decorated_definition") :
    IsPlain ⟨t, parent :: above⟩ where
  name := by
    rw [isName, Bool.and_eq_false_iff, beq_eq_false_iff_ne]
    exact hname
  definition := by
    rw [isDefinition, Bool.and_eq_false_iff, beq_eq_false_iff_ne]
    exact hdefinition.imp_right beq_eq_false_iff_ne.mpr

/-- The construct that has the node of the one above: what is decorated, if that is a decorated
definition. -/
def owner? (o : Occurrence) : Option GrammarTree :=
  match o.above with
  | parent :: outer :: _ =>
    if outer.construct == "decorated_definition" && parent.role == "definition" then some outer else some parent
  | [parent] => some parent
  | [] => none

/-- The text it stands on. -/
def text (source : String) (o : Occurrence) : String := slice source o.tree.span.start o.tree.span.stop

end Occurrence

namespace Script

open GrammarTree (occurrences occurrencesInAll occurrences_eq mem_occurrencesInAll suffix_of_mem_occurrences
  mem_walk_of_mem_occurrences)

/-- **A node that carries a name**: it is made of the construct that has the name, or of the decorated
one around that, and its form is that of the construct with the name. -/
structure NamedBy [Interpreter] (source : String) (o : Occurrence) (n : Node) : Prop where
  form : ∃ parent, o.above.head? = some parent ∧ n.form = .python (formOf parent.construct (o.text source))
  owner : ∃ owner levels, o.owner? = some owner ∧ nodeOf source levels owner = .ok n ∧ n.span = owner.span

/-- **What concrete nodes have to do with nodes**: the identifier nodes are the kept identifiers, in
order, and those that carry a name are, in some order, named by the excepted ones. -/
structure KeepsNames [Interpreter] (source : String) (os : List Occurrence) (ns : List Node) : Prop where
  identifiers : ns.filterMap Node.identifier? =
    (os.filter Occurrence.isKept).map fun o => (o.tree.span, o.text source)
  names : ∃ named, named.Perm (ns.filter Node.carriesName) ∧
    List.Forall₂ (NamedBy source) (os.filter Occurrence.isExcepted) named

variable {source : String} {levels : Nat} {os os' : List Occurrence} {ns ns' : List Node}

namespace KeepsNames

theorem append [Interpreter] (h : KeepsNames source os ns) (h' : KeepsNames source os' ns') :
    KeepsNames source (os ++ os') (ns ++ ns') where
  identifiers := by rw [List.filterMap_append, h.identifiers, h'.identifiers, List.filter_append, List.map_append]
  names := by
    obtain ⟨named, hperm, hnamed⟩ := h.names
    obtain ⟨named', hperm', hnamed'⟩ := h'.names
    rw [List.filter_append, List.filter_append]
    exact ⟨named ++ named', hperm.append hperm', List.rel_append hnamed hnamed'⟩

/-- Concrete nodes that are no names have nothing to do with nodes that carry none. -/
theorem of_nameless [Interpreter] (hos : ∀ o ∈ os, o.isKept = false ∧ o.isExcepted = false)
    (hns : ∀ n ∈ ns, n.identifier? = none ∧ n.carriesName = false) : KeepsNames source os ns where
  identifiers := by
    rw [List.filterMap_eq_nil_iff.mpr fun n hn => (hns n hn).1,
      List.filter_eq_nil_iff.mpr fun o ho => Bool.eq_false_iff.mp (hos o ho).1, List.map_nil]
  names := by
    refine ⟨[], ?_, ?_⟩
    · rw [List.filter_eq_nil_iff.mpr fun n hn => Bool.eq_false_iff.mp (hns n hn).2]
    · rw [List.filter_eq_nil_iff.mpr fun o ho => Bool.eq_false_iff.mp (hos o ho).2]
      exact .nil

theorem nil [Interpreter] : KeepsNames source [] [] := of_nameless nofun nofun

/-- More that has no nodes. -/
theorem append_nil [Interpreter] (h : KeepsNames source os ns) (h' : KeepsNames source os' []) :
    KeepsNames source (os ++ os') ns :=
  List.append_nil ns ▸ h.append h'

/-- A node without a name may stand in front of all. -/
theorem cons_nameless [Interpreter] {n : Node} (hn : n.identifier? = none ∧ n.carriesName = false)
    (h : KeepsNames source os ns) :
    KeepsNames source os (n :: ns) := by
  have hnode : KeepsNames source [] [n] := of_nameless nofun (List.forall_mem_singleton.mpr hn)
  exact hnode.append h

/-- A construct other than an identifier stands anywhere. -/
theorem skip [Interpreter] (os : List Occurrence) {t : GrammarTree} {above : List GrammarTree}
    (ht : t.construct ≠ "identifier")
    (h : KeepsNames source (os ++ os') ns) : KeepsNames source (os ++ ⟨t, above⟩ :: os') ns := by
  obtain ⟨hkept, hexcepted⟩ := Occurrence.nameless_of_ne ht above
  refine ⟨?_, ?_⟩
  · rw [h.identifiers, List.filter_append, List.filter_append, List.filter_cons_of_neg (Bool.eq_false_iff.mp hkept)]
  · obtain ⟨named, hperm, hnamed⟩ := h.names
    rw [List.filter_append] at hnamed
    rw [List.filter_append, List.filter_cons_of_neg (Bool.eq_false_iff.mp hexcepted)]
    exact ⟨named, hperm, hnamed⟩

/-- A construct other than an identifier has the names of its children. -/
theorem below [Interpreter] {t : GrammarTree} {above : List GrammarTree} (ht : t.construct ≠ "identifier")
    (h : KeepsNames source (occurrencesInAll (t :: above) t.children) ns) :
    KeepsNames source (t.occurrences above) ns := by
  rw [occurrences_eq]
  exact skip [] ht h

/-- A node may stand in front of all when its name stands anywhere. -/
theorem name [Interpreter] {o : Occurrence} {n : Node} (h : KeepsNames source (os ++ os') ns)
    (hexcepted : o.isExcepted = true)
    (hnamed : NamedBy source o n) (hcarries : n.carriesName = true) : KeepsNames source (os ++ o :: os') (n :: ns) where
  identifiers := by
    rw [List.filterMap_cons_none (Node.identifier?_of_carriesName hcarries), h.identifiers, List.filter_append,
      List.filter_append, List.filter_cons_of_neg (Bool.eq_false_iff.mp (Occurrence.isKept_of_isExcepted hexcepted))]
  names := by
    obtain ⟨named, hperm, hall⟩ := h.names
    rw [List.filter_append] at hall
    rw [List.filter_append, List.filter_cons_of_pos hexcepted]
    obtain ⟨named', hall', hperm'⟩ := List.perm_comp_forall₂ List.perm_middle (hall.cons hnamed)
    rw [List.filter_cons_of_pos hcarries]
    exact ⟨named', hperm'.trans (hperm.cons n), hall'⟩

end KeepsNames

/-! ## What the grammar promises -/

/-- No identifier stands in the tree. -/
def NoIdentifiers (t : GrammarTree) : Prop := ∀ s ∈ t.walk, s.construct ≠ "identifier"

instance (t : GrammarTree) : Decidable (NoIdentifiers t) := inferInstanceAs (Decidable (∀ s ∈ _, _))

/-- **Just one child plays a part**, and it has some property. -/
def HasOne (t : GrammarTree) (role : String) (P : GrammarTree → Prop) : Prop :=
  ∃ c ∈ t.children, t.children.filter (fun d => d.role == role) = [c] ∧ P c

instance (t : GrammarTree) (role : String) (P : GrammarTree → Prop) [DecidablePred P] : Decidable (HasOne t role P) :=
  inferInstanceAs (Decidable (∃ c ∈ _, _ ∧ _))

/-- The constructs of constants other than strings. -/
def isAtom (construct : String) : Bool := isConstant construct && !isString construct

/-- **What the grammar promises of a construct**: an identifier has no children, and none stands in
punctuation, in a comment or in a number; a definition and a keyword argument have one name, an
identifier; and a decorated definition has one definition, with nothing else around it than decorators,
which stand in front, and constructs without identifiers. -/
structure Lawful (t : GrammarTree) : Prop where
  leaf : t.construct = "identifier" → t.children = []
  blank : t.isNamed = false ∨ isSkipped t.construct = true ∨ isAtom t.construct = true → NoIdentifiers t
  name : isNamedConstruct t.construct = true → HasOne t "name" fun c => c.construct = "identifier"
  definition : t.construct = "decorated_definition" →
    HasOne t "definition" fun c => isNamedConstruct c.construct = true
  decorators : t.construct = "decorated_definition" →
    ∀ c ∈ t.children, c.role = "definition" ∨ c.construct = "decorator" ∨ NoIdentifiers c
  decoratorsFirst : DecoratorsFirst t

instance (t : GrammarTree) : Decidable (Lawful t) :=
  decidable_of_iff
    ((t.construct = "identifier" → t.children = []) ∧
      (t.isNamed = false ∨ isSkipped t.construct = true ∨ isAtom t.construct = true → NoIdentifiers t) ∧
      (isNamedConstruct t.construct = true → HasOne t "name" fun c => c.construct = "identifier") ∧
      (t.construct = "decorated_definition" →
        HasOne t "definition" fun c => isNamedConstruct c.construct = true) ∧
      (t.construct = "decorated_definition" →
        ∀ c ∈ t.children, c.role = "definition" ∨ c.construct = "decorator" ∨ NoIdentifiers c) ∧
      DecoratorsFirst t)
    ⟨fun ⟨leaf, blank, name, definition, decorators, first⟩ => ⟨leaf, blank, name, definition, decorators, first⟩,
      fun ⟨leaf, blank, name, definition, decorators, first⟩ => ⟨leaf, blank, name, definition, decorators, first⟩⟩

variable {t d : GrammarTree} {ts front above : List GrammarTree}

/-- The only child that plays a part stands between children that do not. -/
theorem HasOne.split {role : String} {P : GrammarTree → Prop} (h : HasOne t role P) : ∃ front c back,
    t.children = front ++ c :: back ∧ c.role = role ∧ P c ∧ (∀ d ∈ front, d.role ≠ role) ∧ ∀ d ∈ back, d.role ≠ role := by
  obtain ⟨c, -, hfilter, hc⟩ := h
  obtain ⟨front, back, hsplit, hfront, hrole, hback⟩ := List.filter_eq_cons_iff.mp hfilter
  rw [List.filter_eq_nil_iff] at hback
  exact ⟨front, c, back, hsplit, eq_of_beq hrole, hc, fun d hd h => hfront d hd (beq_iff_eq.mpr h),
    fun d hd h => hback d hd (beq_iff_eq.mpr h)⟩

theorem HasOne.of_split {role : String} {P : GrammarTree → Prop} {c : GrammarTree} {back : List GrammarTree}
    (hsplit : t.children = front ++ c :: back) (hrole : c.role = role) (hc : P c) (hfront : ∀ d ∈ front, d.role ≠ role)
    (hback : ∀ d ∈ back, d.role ≠ role) : HasOne t role P := by
  refine ⟨c, hsplit ▸ List.mem_append_right front List.mem_cons_self, ?_, hc⟩
  rw [hsplit, List.filter_append, List.filter_eq_nil_iff.mpr fun d hd h => hfront d hd (eq_of_beq h),
    List.filter_cons, if_pos (beq_iff_eq.mpr hrole),
    List.filter_eq_nil_iff.mpr fun d hd h => hback d hd (eq_of_beq h)]
  rfl

/-- **The constructs of a text are lawful.** -/
theorem Regular.lawful (h : Regular t) : Lawful t where
  leaf hidentifier := h.bare (hidentifier ▸ rfl)
  blank := by
    rintro (hunnamed | hskipped | hatom)
    · exact absurd (h.named.symm.trans hunnamed) (by decide)
    · exact absurd (h.spoken.symm.trans hskipped) (by decide)
    · -- an atom has no children
      have hbare : isBare t.construct = true ∧ t.construct ≠ "identifier" := by
        simp only [isAtom, isConstant, isString, List.contains_cons, List.contains_nil, Bool.and_eq_true,
          Bool.or_eq_true, beq_iff_eq, Bool.not_eq_true', Bool.or_eq_false_iff, beq_eq_false_iff_ne] at hatom
        grind [isBare]
      intro s hs
      rcases GrammarTree.mem_walk.mp hs with rfl | ⟨u, hu, -⟩
      · exact hbare.2
      · rw [h.bare hbare.1] at hu
        cases hu
  name hname := by
    obtain ⟨name, rest, hsplit, hrole, hidentifier, hrest⟩ := h.name hname
    have hsplit : t.children = [] ++ name :: rest := hsplit
    exact .of_split hsplit hrole hidentifier (List.forall_mem_nil _) fun c hc => by rw [hrest c hc]; decide
  definition hdecorated := by
    obtain ⟨front, definition, hsplit, hrole, hname, hfront⟩ := h.decorated hdecorated
    exact .of_split hsplit hrole hname (fun c hc => by rw [(hfront c hc).1]; decide)
      (List.forall_mem_nil _)
  decorators hdecorated := by
    obtain ⟨front, definition, hsplit, hrole, -, hfront⟩ := h.decorated hdecorated
    rw [hsplit, List.forall_mem_append, List.forall_mem_singleton]
    exact ⟨fun c hc => .inr (.inl (hfront c hc).2), .inl hrole⟩
  decoratorsFirst := h.decoratorsFirst

theorem lawful_grammarTree? {text : String} {tree : GrammarTree} (h : grammarTree? text = some tree) :
    tree.WellNested Lawful ∧ tree.span.stop ≤ text.length :=
  ⟨(regular_grammarTree? h).1.mono fun _ => Regular.lawful, (regular_grammarTree? h).2⟩

/-! ## Constructs -/

theorem isConstant_cases {construct : String} (h : isConstant construct = true) :
    construct ≠ "identifier" ∧ (isString construct = true ∨ isAtom construct = true) := by
  refine ⟨?_, ?_⟩
  · rintro rfl
    exact absurd h (by decide)
  · rw [isAtom, h, Bool.true_and, Bool.not_eq_true']
    exact (Bool.eq_false_or_eq_true _)

theorem isString_eq_false {construct : String} (h : isConstant construct = false) : isString construct = false := by
  simp only [isConstant, List.contains_cons, Bool.or_eq_false_iff] at h
  rw [isString, h.1, h.2.1, Bool.or_self]

theorem isConstant_eq_false_of_isNamedConstruct {construct : String} (h : isNamedConstruct construct = true) :
    isConstant construct = false := by
  rw [isNamedConstruct, List.contains_iff_mem] at h
  simp only [List.mem_cons, List.not_mem_nil, or_false] at h
  rcases h with rfl | rfl | rfl <;> decide

/-- The constructs that give way are neither names nor strings, and none has a part in its form. -/
theorem givesWay_cases {construct : String} (h : givesWay construct = true) : construct ≠ "identifier" ∧
    isString construct = false ∧ isNamedConstruct construct = false ∧ construct ≠ "decorated_definition" := by
  rw [givesWay, List.contains_iff_mem] at h
  simp only [List.mem_cons, List.not_mem_nil, or_false] at h
  rcases h with rfl | rfl | rfl | rfl | rfl | rfl | rfl | rfl | rfl <;> decide

/-- Only identifiers and constructs with a name have a form with one. -/
theorem formOf_nameless {construct name : String} (hidentifier : construct ≠ "identifier")
    (hname : isNamedConstruct construct = false) (span : Span) (ns : List Node) :
    (Node.mk (.python (formOf construct name)) span ns).identifier? = none ∧
      (Node.mk (.python (formOf construct name)) span ns).carriesName = false := by
  simp only [isNamedConstruct, List.contains_cons, List.contains_nil, Bool.or_false, Bool.or_eq_false_iff,
    beq_eq_false_iff_ne] at hname
  unfold formOf
  split <;> first | exact ⟨rfl, rfl⟩ | simp_all

theorem carriesName_formOf {construct name : String} (h : isNamedConstruct construct = true) (span : Span)
    (ns : List Node) : (Node.mk (.python (formOf construct name)) span ns).carriesName = true := by
  rw [isNamedConstruct, List.contains_iff_mem] at h
  simp only [List.mem_cons, List.not_mem_nil, or_false] at h
  rcases h with rfl | rfl | rfl <;> rfl

theorem constant_nameless {form : PythonForm} (h : form.isConstant = true) (span : Span) (ns : List Node) :
    (Node.mk (.python form) span ns).identifier? = none ∧ (Node.mk (.python form) span ns).carriesName = false := by
  cases form <;> first | exact ⟨rfl, rfl⟩ | cases h

/-! ## Children with and without nodes -/

section

variable {kept : Kept}

/-- A child without a node. -/
theorem nodesOf_cons_of_left [Interpreter] (ht : kept.keeps t = false) :
    nodesOf source levels kept (t :: ts) = nodesOf source levels (kept.behind t) ts := by
  rw [nodesOf_cons, if_neg (Bool.eq_false_iff.mp ht)]
  cases nodesOf source levels (kept.behind t) ts <;> rfl

/-- Children none of which has a node. -/
theorem nodesOf_eq_nil [Interpreter] (hkept : kept ≠ .allButName) (hts : ∀ t ∈ ts, kept.keeps t = false) :
    nodesOf source levels kept ts = .ok [] := by
  induction ts with
  | nil => rw [nodesOf]
  | cons t ts ih =>
    rw [List.forall_mem_cons] at hts
    rw [nodesOf_cons_of_left hts.1, Kept.behind_of_ne hkept, ih hts.2]

/-- The nodes of children in front of others, when the same is kept behind each. -/
theorem exists_of_nodesOf_append [Interpreter] {us : List GrammarTree} (hts : ∀ t ∈ ts, kept.behind t = kept)
    (h : nodesOf source levels kept (ts ++ us) = .ok ns) : ∃ first more,
      nodesOf source levels kept ts = .ok first ∧ nodesOf source levels kept us = .ok more ∧ ns = first ++ more := by
  induction ts generalizing ns with
  | nil => exact ⟨[], ns, by rw [nodesOf], h, rfl⟩
  | cons t ts ih =>
    rw [List.forall_mem_cons] at hts
    rw [List.cons_append, nodesOf_cons, hts.1] at h
    obtain ⟨first, hfirst, h⟩ := bind_eq_ok.mp h
    obtain ⟨all, hall, h⟩ := bind_eq_ok.mp h
    obtain rfl := pure_eq_ok.mp h
    obtain ⟨middle, more, hmiddle, hmore, rfl⟩ := ih hts.2 hall
    refine ⟨first ++ middle, more, ?_, hmore, (List.append_assoc ..).symm⟩
    rw [nodesOf_cons, hts.1, hfirst, hmiddle]
    rfl

theorem behind_of_role (h : t.role ≠ "name") : kept.behind t = kept := if_neg fun hname => h hname.2

/-- A lawful child that has no node, though only a name is left out, holds no identifier. -/
theorem Lawful.noIdentifiers (h : Lawful t) (hkept : kept = .all ∨ kept = .allButName ∧ t.role ≠ "name")
    (hleft : kept.keeps t = false) : NoIdentifiers t := by
  refine h.blank ?_
  obtain rfl | ⟨rfl, hrole⟩ := hkept
  · rw [Kept.keeps, Bool.and_true, Bool.and_eq_false_iff, Bool.not_eq_false'] at hleft
    exact hleft.imp_right .inl
  · rw [Kept.keeps, bne_iff_ne.mpr hrole, Bool.and_true, Bool.and_eq_false_iff, Bool.not_eq_false'] at hleft
    exact hleft.imp_right .inl

end

/-! ## Trees -/

theorem inString_cons (ht : isString t.construct = false) (hstring : inString above = false) :
    inString (t :: above) = false := by
  rw [inString, List.any_cons, ht, Bool.false_or]
  exact hstring

/-- Nothing in a tree without identifiers is a name. -/
theorem KeepsNames.of_noIdentifiers [Interpreter] (h : NoIdentifiers t) : KeepsNames source (t.occurrences above) [] :=
  .of_nameless (fun o ho => Occurrence.nameless_of_ne (h o.tree (mem_walk_of_mem_occurrences ho)) o.above)
    nofun

/-- **A construct whose nodes keep its names**, in a place where it plays no part.  The parts of a
definition are told by themselves, since the node over them may be that of what decorates it. -/
structure Converts [Interpreter] (source : String) (t : GrammarTree) : Prop where
  node : ∀ ⦃levels above n⦄, Occurrence.IsPlain ⟨t, above⟩ → inString above = false →
    nodeOf source levels t = .ok n → KeepsNames source (t.occurrences above) n.walk
  group : ∀ ⦃levels above ns⦄, Occurrence.IsPlain ⟨t, above⟩ → inString above = false →
    groupOf source levels t = .ok ns → KeepsNames source (t.occurrences above) (Node.walkAll ns)
  parts : isNamedConstruct t.construct = true → ∀ ⦃levels above form s parts⦄,
    inString above = false → nodeOf source levels t = .ok (.mk form s parts) →
      ∃ front name back, t.children = front ++ name :: back ∧ name.role = "name" ∧ name.construct = "identifier" ∧
        name.children = [] ∧ form = .python (formOf t.construct (slice source name.span.start name.span.stop)) ∧
        KeepsNames source (occurrencesInAll (t :: above) front ++ occurrencesInAll (t :: above) back)
          (Node.walkAll parts)

/-- **Children** keep their names in the nodes that they stand for, when those that have a node play no
part and the others hold no identifier. -/
theorem keepsNames_nodesOf [Interpreter] {kept : Kept} (hts : ∀ t ∈ ts, Converts source t)
    (hsame : ∀ t ∈ ts, kept.behind t = kept)
    (hplain : ∀ t ∈ ts, kept.keeps t = true → Occurrence.IsPlain ⟨t, above⟩)
    (hleft : ∀ t ∈ ts, kept.keeps t = false → NoIdentifiers t)
    (hstring : inString above = false) (h : nodesOf source levels kept ts = .ok ns) :
    KeepsNames source (occurrencesInAll above ts) (Node.walkAll ns) := by
  induction ts generalizing ns with
  | nil =>
    rw [nodesOf] at h
    obtain rfl := Except.ok.inj h
    rw [occurrencesInAll, Node.walkAll]
    exact .nil
  | cons u ts ih =>
    rw [List.forall_mem_cons] at hts hsame hplain hleft
    rw [nodesOf_cons, hsame.1] at h
    obtain ⟨first, hfirst, h⟩ := bind_eq_ok.mp h
    obtain ⟨more, hmore, h⟩ := bind_eq_ok.mp h
    obtain rfl := pure_eq_ok.mp h
    rw [occurrencesInAll, Node.walkAll_append]
    refine .append ?_ (ih hts.2 hsame.2 hplain.2 hleft.2 hmore)
    split at hfirst
    · next hkept => exact hts.1.group (hplain.1 hkept) hstring hfirst
    · next hkept =>
      obtain rfl := pure_eq_ok.mp hfirst
      rw [Node.walkAll]
      exact .of_noIdentifiers (hleft.1 (Bool.eq_false_iff.mpr hkept))

section

variable {construct role : String} {named : Bool} {span : Span} {children : List GrammarTree} {n : Node}

/-- Nothing in a constant is a name. -/
theorem nameless_of_isConstant (ht : Lawful t) (hconstant : isConstant t.construct = true) :
    ∀ o ∈ t.occurrences above, o.isKept = false ∧ o.isExcepted = false := by
  obtain ⟨hidentifier, hstring | hatom⟩ := isConstant_cases hconstant
  · rw [occurrences_eq, List.forall_mem_cons]
    refine ⟨Occurrence.nameless_of_ne hidentifier above, fun o ho => Occurrence.nameless_of_isInString ?_⟩
    -- all that stands below a string is in it
    obtain ⟨u, -, ho⟩ := mem_occurrencesInAll.mp ho
    exact List.any_eq_true.mpr ⟨t, (suffix_of_mem_occurrences ho).mem List.mem_cons_self, hstring⟩
  · have hnone := ht.blank (.inr (.inr hatom))
    exact fun o ho => Occurrence.nameless_of_ne (hnone o.tree (mem_walk_of_mem_occurrences ho)) o.above

/-- The name of a construct is the text of the child that plays that part. -/
theorem nameText_of_name {name : GrammarTree} {back : List GrammarTree} (hname : isNamedConstruct t.construct = true)
    (hsplit : t.children = front ++ name :: back) (hrole : name.role = "name") (hfront : ∀ c ∈ front, c.role ≠ "name") :
    nameText source t = slice source name.span.start name.span.stop := by
  have hfind : t.childWithRole? "name" = some name := by
    rw [GrammarTree.childWithRole?, hsplit, List.find?_append,
      List.find?_eq_none.mpr fun c hc h => hfront c hc (eq_of_beq h), Option.none_or, List.find?_cons, hrole]
    rfl
  rw [nameText, if_pos hname, hfind]
  rfl

/-- **The parts of a construct with a name** keep all names but that one, which is in the form. -/
theorem parts_of_isNamedConstruct [Interpreter] {form : Form} {s : Span} {parts : List Node}
    (ht : t.WellNested Lawful) (hchildren : ∀ c ∈ t.children, Converts source c)
    (hname : isNamedConstruct t.construct = true) (hstring : inString above = false)
    (h : nodeOf source levels t = .ok (.mk form s parts)) :
    ∃ front name back, t.children = front ++ name :: back ∧ name.role = "name" ∧ name.construct = "identifier" ∧
      name.children = [] ∧ form = .python (formOf t.construct (slice source name.span.start name.span.stop)) ∧
      KeepsNames source (occurrencesInAll (t :: above) front ++ occurrencesInAll (t :: above) back)
        (Node.walkAll parts) := by
  obtain ⟨front, name, back, hsplit, hrole, hidentifier, hfront, hback⟩ := (ht.property.name hname).split
  have hbelow : ∀ c ∈ t.children, c.WellNested Lawful := fun c hc => ht.of_mem_children hc
  rw [hsplit, List.forall_mem_append, List.forall_mem_cons] at hchildren hbelow
  refine ⟨front, name, back, hsplit, hrole, hidentifier, hbelow.2.1.property.leaf hidentifier, ?_⟩
  have htext : nameText source t = _ := nameText_of_name hname hsplit hrole hfront
  obtain ⟨construct, named, role, span, children⟩ := t
  obtain rfl : children = front ++ name :: back := hsplit
  change isNamedConstruct construct = true at hname
  have hplain : construct ≠ "decorated_definition" := (standsApart_of_isNamedConstruct hname).2.2
  rcases nodeOf_cases h with ⟨hconstant, -⟩ | ⟨hdecorated, -⟩ | ⟨hconstant, -, levels, parts, hparts, hn⟩
  · exact absurd hconstant (Bool.eq_false_iff.mp (isConstant_eq_false_of_isNamedConstruct hname))
  · exact absurd hdecorated hplain
  · obtain ⟨rfl, rfl, rfl⟩ := Node.mk.inj hn
    rw [Kept.ofConstruct, if_pos hname] at hparts
    obtain ⟨first, more, hfirst, hmore, rfl⟩ := exists_of_nodesOf_append (fun c hc => behind_of_role (hfront c hc)) hparts
    rw [nodesOf_cons_of_left (by rw [Kept.keeps, hrole]; simp), Kept.behind, if_pos ⟨rfl, hrole⟩] at hmore
    have hinside := inString_cons (t := .node construct named role span (front ++ name :: back))
      (isString_eq_false hconstant) hstring
    rw [Node.walkAll_append]
    refine ⟨by rw [htext]; rfl, .append ?_ ?_⟩
    · exact keepsNames_nodesOf hchildren.1 (fun c hc => behind_of_role (hfront c hc))
        (fun c hc _ => .of_parent (.inl (hfront c hc)) (.inr hplain))
        (fun c hc => (hbelow.1 c hc).property.noIdentifiers (.inr ⟨rfl, hfront c hc⟩)) hinside hfirst
    · exact keepsNames_nodesOf hchildren.2.2 (fun c _ => Kept.behind_of_ne (by decide) c)
        (fun c hc _ => .of_parent (.inl (hback c hc)) (.inr hplain))
        (fun c hc => (hbelow.2.2 c hc).property.noIdentifiers (.inl rfl)) hinside hmore

/-- **An identifier** keeps its name in its own node. -/
theorem keepsNames_identifier [Interpreter] (ht : Lawful (.node "identifier" named role span children))
    (hplain : Occurrence.IsPlain ⟨.node "identifier" named role span children, above⟩)
    (hstring : inString above = false)
    (h : nodeOf source levels (.node "identifier" named role span children) = .ok n) :
    KeepsNames source ((GrammarTree.node "identifier" named role span children).occurrences above) n.walk := by
  obtain rfl : children = [] := ht.leaf rfl
  rcases nodeOf_cases h with ⟨hconstant, -⟩ | ⟨hdecorated, -⟩ | ⟨-, -, levels, parts, hparts, rfl⟩
  · exact absurd hconstant (by decide)
  · exact absurd hdecorated (by decide)
  · rw [nodesOf] at hparts
    obtain rfl := Except.ok.inj hparts
    have hkept : (⟨.node "identifier" named role span [], above⟩ : Occurrence).isKept = true := by
      rw [Occurrence.isKept, Occurrence.isInString, hstring, hplain.name]
      rfl
    have hexcepted : (⟨.node "identifier" named role span [], above⟩ : Occurrence).isExcepted = false := by
      rw [Occurrence.isExcepted, hplain.name, Bool.and_false]
    rw [occurrences_eq, GrammarTree.children, occurrencesInAll, Node.walk, Node.walkAll]
    refine ⟨?_, [], ?_, ?_⟩
    · rw [List.filter_cons_of_pos hkept]
      rfl
    · exact .nil
    · rw [List.filter_cons_of_neg (Bool.eq_false_iff.mp hexcepted)]
      exact .nil

/-- **A node with a name of its own**: the name stands among the children, and the node in front of the
nodes of all else. -/
theorem keepsNames_named [Interpreter] {name : GrammarTree} {back : List GrammarTree}
    (hstring : inString (t :: above) = false) (hname : isNamedConstruct t.construct = true)
    (hidentifier : name.construct = "identifier") (hrole : name.role = "name") (hbare : name.children = [])
    (hsplit : t.children = front ++ name :: back) (hnamed : NamedBy source ⟨name, t :: above⟩ n)
    (hcarries : n.carriesName = true)
    (h : KeepsNames source
      (os ++ (occurrencesInAll (t :: above) front ++ occurrencesInAll (t :: above) back) ++ os') ns) :
    KeepsNames source (os ++ t.occurrences above ++ os') (n :: ns) := by
  have hexcepted : (⟨name, t :: above⟩ : Occurrence).isExcepted = true := by
    rw [Occurrence.isExcepted, Occurrence.isIdentifier, Occurrence.isInString, hstring, Occurrence.isName,
      hidentifier, hrole]
    simpa using hname
  have hne : t.construct ≠ "identifier" := fun heq => absurd (heq ▸ hname) (by decide)
  rw [occurrences_eq, hsplit, GrammarTree.occurrencesInAll_append, occurrencesInAll, occurrences_eq, hbare,
    occurrencesInAll]
  simp only [← List.append_assoc] at h
  simp only [List.append_assoc, List.cons_append, List.nil_append]
  refine KeepsNames.skip os hne ?_
  rw [← List.append_assoc]
  refine KeepsNames.name ?_ hexcepted hnamed hcarries
  simpa only [← List.append_assoc] using h

/-- The definition of a decorated one is the child that plays that part. -/
theorem definitionOf_append [Interpreter] {offset : Nat} {back : List GrammarTree}
    (hfront : ∀ c ∈ front, c.role ≠ "definition")
    (hrole : d.role = "definition") :
    definitionOf source levels offset (front ++ d :: back) = nodeOf source levels d := by
  induction front with
  | nil => rw [List.nil_append, definitionOf, if_pos (beq_iff_eq.mpr hrole)]
  | cons c front ih =>
    rw [List.forall_mem_cons] at hfront
    rw [List.cons_append, definitionOf, if_neg (beq_eq_false_iff_ne.mpr hfront.1 ▸ Bool.false_ne_true), ih hfront.2]

/-- A construct that plays no part has its own node. -/
theorem owner?_of_isPlain {name : GrammarTree} (h : Occurrence.IsPlain ⟨t, above⟩) :
    (⟨name, t :: above⟩ : Occurrence).owner? = some t := by
  rw [Occurrence.owner?]
  cases above with
  | nil => rfl
  | cons outer above =>
    refine if_neg (Bool.eq_false_iff.mp ?_)
    rw [Bool.and_comm]
    exact h.definition

/-- **A decorated definition** has the name of the definition. -/
theorem keepsNames_decorated [Interpreter]
    (ht : (GrammarTree.node "decorated_definition" named role span children).WellNested Lawful)
    (hchildren : ∀ c ∈ children, Converts source c) (hstring : inString above = false)
    (h : nodeOf source levels (.node "decorated_definition" named role span children) = .ok n) :
    KeepsNames source ((GrammarTree.node "decorated_definition" named role span children).occurrences above) n.walk := by
  obtain ⟨front, d, back, hsplit, hrole, hname, hfront, hback⟩ := (ht.property.definition rfl).split
  obtain rfl : children = front ++ d :: back := hsplit
  have hspan := ((keepsPlace (ht.mono fun _ => Lawful.decoratorsFirst)).node h).2
  have hothers := ht.property.decorators rfl
  have hfirst := ht.property.decoratorsFirst rfl
  rw [GrammarTree.children, List.dropWhile_append_of_pos fun c hc => bne_iff_ne.mpr (hfront c hc),
    List.dropWhile_cons_of_neg (by rw [hrole]; decide), List.forall_mem_cons] at hfirst
  rw [GrammarTree.children, List.forall_mem_append, List.forall_mem_cons] at hothers
  rw [List.forall_mem_append, List.forall_mem_cons] at hchildren
  have hinside : inString (.node "decorated_definition" named role span (front ++ d :: back) :: above) = false :=
    inString_cons rfl hstring
  rcases nodeOf_cases h with ⟨hconstant, -⟩ | ⟨-, levels, form, s, parts, decorators, hdefinition, hdecorators, rfl⟩ |
    ⟨-, hplain, -⟩
  · exact absurd hconstant (by decide)
  · rw [definitionOf_append hfront hrole] at hdefinition
    obtain ⟨first, more, hfirstNodes, hmore, rfl⟩ :=
      exists_of_nodesOf_append (fun c _ => Kept.behind_of_ne (by decide) c) hdecorators
    -- nothing from the definition on is a decorator
    have hnone : ∀ c ∈ d :: back, Kept.decorators.keeps c = false := fun c hc => by
      rw [Kept.keeps, Bool.and_eq_false_iff, beq_eq_false_iff_ne]
      exact .inr ((List.mem_cons.mp hc).elim (fun heq => heq ▸ hfirst.1) (hfirst.2 c))
    rw [nodesOf_eq_nil (by decide) hnone] at hmore
    obtain rfl := Except.ok.inj hmore
    rw [List.append_nil] at h hspan ⊢
    obtain ⟨before, name, behind, hrest, hnameRole, hidentifier, hbare, rfl, hparts⟩ :=
      hchildren.2.1.parts hname hinside hdefinition
    have hfrontNames : KeepsNames source
        (occurrencesInAll (.node "decorated_definition" named role span (front ++ d :: back) :: above) front)
        (Node.walkAll first) := keepsNames_nodesOf hchildren.1 (fun c _ => Kept.behind_of_ne (by decide) c)
      (fun c hc _ => .of_parent (.inr rfl) (.inl (hfront c hc))) (fun c hc hleft => ?_) hinside hfirstNodes
    · have hbackNames : KeepsNames source
          (occurrencesInAll (.node "decorated_definition" named role span (front ++ d :: back) :: above) back) [] := by
        refine .of_nameless (fun o ho => ?_) (List.forall_mem_nil _)
        obtain ⟨c, hc, ho⟩ := mem_occurrencesInAll.mp ho
        rcases hothers.2.2 c hc with hdefinition | hdecorator | hnone
        · exact absurd hdefinition (hback c hc)
        · exact absurd hdecorator (hfirst.2 c hc)
        · exact Occurrence.nameless_of_ne (hnone o.tree (mem_walk_of_mem_occurrences ho)) o.above
      refine .below (by rw [GrammarTree.construct]; decide) ?_
      rw [GrammarTree.children, GrammarTree.occurrencesInAll_append, occurrencesInAll, ← List.append_assoc, Node.walk,
        Node.walkAll_append]
      refine keepsNames_named
        (inString_cons (isString_eq_false (isConstant_eq_false_of_isNamedConstruct hname)) hinside)
        hname hidentifier hnameRole hbare hrest ⟨⟨d, rfl, rfl⟩, _, _, ?_, h, hspan⟩ (carriesName_formOf hname _ _)
        ((hfrontNames.append hparts).append_nil hbackNames)
      rw [Occurrence.owner?]
      exact if_pos (by rw [hrole]; rfl)
    · -- a child in front of the definition that is no decorator
      rcases hothers.1 c hc with hdefinition | hdecorator | hnone
      · exact absurd hdefinition (hfront c hc)
      · rw [Kept.keeps, hdecorator] at hleft
        exact (ht.of_mem_children (List.mem_append_left _ hc)).property.blank (.inl (by simpa [isSkipped] using hleft))
      · exact hnone
  · exact absurd rfl hplain

/-- **Every construct keeps its names.** -/
theorem converts [Interpreter] (ht : t.WellNested Lawful) : Converts source t := by
  induction t using GrammarTree.induct with
  | node construct named role span children ih =>
    have hchildren : ∀ c ∈ children, Converts source c := fun c hc => ih c hc (ht.of_mem_children hc)
    -- the children of a construct that has no part of theirs in its form
    have hbelow ⦃levels above ns⦄ (hidentifier : construct ≠ "identifier") (hstringless : isString construct = false)
        (hname : isNamedConstruct construct = false) (hdecorated : construct ≠ "decorated_definition")
        (hstring : inString above = false) (h : nodesOf source levels .all children = .ok ns) :
        KeepsNames source ((GrammarTree.node construct named role span children).occurrences above)
          (Node.walkAll ns) :=
      .below hidentifier (keepsNames_nodesOf hchildren (fun c _ => Kept.behind_of_ne (by decide) c)
        (fun _ _ _ => .of_parent (.inr hname) (.inr hdecorated))
        (fun c hc => (ht.of_mem_children hc).property.noIdentifiers (.inl rfl))
        (inString_cons (t := .node construct named role span children) hstringless hstring) h)
    have hnode ⦃levels above n⦄ (hplain : Occurrence.IsPlain ⟨.node construct named role span children, above⟩)
        (hstring : inString above = false)
        (h : nodeOf source levels (.node construct named role span children) = .ok n) :
        KeepsNames source ((GrammarTree.node construct named role span children).occurrences above) n.walk := by
      have hspan := ((keepsPlace (ht.mono fun _ => Lawful.decoratorsFirst)).node h).2
      cases hname : isNamedConstruct construct with
      | true =>
        obtain ⟨form, s, parts⟩ := n
        obtain ⟨front, name, back, hsplit, hrole, hidentifier, hbare, rfl, hparts⟩ :=
          parts_of_isNamedConstruct ht hchildren hname hstring h
        have hinside := inString_cons (t := .node construct named role span children)
          (isString_eq_false (isConstant_eq_false_of_isNamedConstruct hname)) hstring
        rw [← List.nil_append (_ ++ _), ← List.append_nil ([] ++ _)] at hparts
        have hall := keepsNames_named hinside hname hidentifier hrole hbare hsplit
          ⟨⟨_, rfl, rfl⟩, _, _, owner?_of_isPlain hplain, h, hspan⟩ (carriesName_formOf hname _ _) hparts
        rwa [List.append_nil] at hall
      | false =>
        rcases nodeOf_cases h with ⟨hconstant, form, hform, rfl⟩ | ⟨rfl, -⟩ |
          ⟨hconstant, hdecorated, levels, parts, hparts, rfl⟩
        · refine .of_nameless (nameless_of_isConstant ht.property hconstant) ?_
          rw [Node.walk, Node.walkAll]
          exact List.forall_mem_singleton.mpr (constant_nameless hform span [])
        · exact keepsNames_decorated ht hchildren hstring h
        · rcases eq_or_ne construct "identifier" with rfl | hidentifier
          · exact keepsNames_identifier ht.property hplain hstring h
          · rw [Kept.ofConstruct, if_neg (Bool.eq_false_iff.mp hname)] at hparts
            exact .cons_nameless (formOf_nameless hidentifier hname _ parts)
              (hbelow hidentifier (isString_eq_false hconstant) hname hdecorated hstring hparts)
    refine ⟨hnode, fun levels above ns hplain hstring h => ?_, fun hname levels above form s parts hstring h => ?_⟩
    · rw [groupOf] at h
      split at h
      · obtain ⟨n, hn, rfl⟩ := map_eq_ok.mp h
        rw [Node.walkAll, Node.walkAll, List.append_nil]
        exact hnode hplain hstring hn
      · next hway =>
        obtain ⟨hidentifier, hstringless, hname, hdecorated⟩ := givesWay_cases (by simpa using hway)
        split at h
        · cases h
        · exact hbelow hidentifier hstringless hname hdecorated hstring h
    · exact parts_of_isNamedConstruct ht hchildren hname hstring h

/-! ## Source order -/

/-- The spans of the identifiers among some concrete nodes. -/
def identifierSpans (os : List Occurrence) : List Span :=
  (os.filter Occurrence.isIdentifier).map fun o => o.tree.span

/-- Trees in order have their identifiers in order, when each of them has. -/
theorem inOrder_identifierSpans_all {a b : Nat} (horder : Span.InOrder a b (ts.map GrammarTree.span))
    (hts : ∀ t ∈ ts, Span.InOrder t.span.start t.span.stop (identifierSpans (t.occurrences above))) :
    Span.InOrder a b (identifierSpans (occurrencesInAll above ts)) := by
  induction ts generalizing a with
  | nil =>
    rw [occurrencesInAll]
    exact horder
  | cons t ts ih =>
    rw [List.forall_mem_cons] at hts
    rw [occurrencesInAll, identifierSpans, List.filter_append, List.map_append]
    exact (hts.1.append (ih horder.2.2 hts.2)).widen horder.1 (Nat.le_refl _)

/-- **The identifiers of a tree stand in order**, since each is without children. -/
theorem inOrder_identifierSpans (ht : t.WellNested Lawful) (above : List GrammarTree) :
    Span.InOrder t.span.start t.span.stop (identifierSpans (t.occurrences above)) := by
  induction t using GrammarTree.induct generalizing above with
  | node construct named role span children ih =>
    obtain ⟨⟨horder, hlawful⟩, hnested⟩ := GrammarTree.wellNested_node.mp ht
    rw [occurrences]
    rcases eq_or_ne construct "identifier" with rfl | hidentifier
    · obtain rfl : children = [] := hlawful.leaf rfl
      rw [occurrencesInAll]
      exact Span.inOrder_singleton (Nat.le_refl _) horder.le (Nat.le_refl _)
    · have hhead : (⟨.node construct named role span children, above⟩ : Occurrence).isIdentifier = false :=
        beq_eq_false_iff_ne.mpr hidentifier
      rw [identifierSpans, List.filter_cons_of_neg (Bool.eq_false_iff.mp hhead)]
      exact inOrder_identifierSpans_all horder fun c hc => ih c hc (hnested c hc) _

end

/-- **Names are neither lost nor told twice**, whatever reads the concrete tree of a text, as long as that
is well nested and lawful.  The identifiers of the syntax tree are those of the concrete one that stand
outside strings and name no definition or keyword argument, in source order, each with its own offsets
and text; and the nodes with a name are those of the constructs that the others name, one for each. -/
theorem keepsNames_of_ofTextBy [Interpreter] {read : String → Option GrammarTree} {text : String} {root : Node}
    (hread : ∀ tree, read text = some tree → tree.WellNested Lawful ∧ tree.construct = "module")
    (h : ofTextBy read text = .ok root) :
    ∃ tree, read text = some tree ∧ KeepsNames text (tree.occurrences []) root.walk ∧
      ((tree.occurrences []).filter Occurrence.isKept).Pairwise fun o o' => o.tree.span.stop ≤ o'.tree.span.start := by
  rw [ofTextBy] at h
  split at h
  · cases h
  · next tree htree =>
    obtain ⟨parts, hparts, h⟩ := bind_eq_ok.mp h
    obtain rfl := pure_eq_ok.mp h
    obtain ⟨hlawful, hmodule⟩ := hread tree htree
    refine ⟨tree, htree, ?_, ?_⟩
    · have hconstruct : tree.construct ≠ "identifier" := by rw [hmodule]; decide
      have hinside : inString [tree] = false := inString_cons (by rw [hmodule]; decide) rfl
      exact .below hconstruct (.cons_nameless ⟨rfl, rfl⟩ (keepsNames_nodesOf
        (fun c hc => converts (hlawful.of_mem_children hc)) (fun c _ => Kept.behind_of_ne (by decide) c)
        (fun c _ _ => .of_parent (.inr (by rw [hmodule]; rfl)) (.inr (by rw [hmodule]; decide)))
        (fun c hc => (hlawful.of_mem_children hc).property.noIdentifiers (.inl rfl)) hinside hparts))
    · have hkept : ((tree.occurrences []).filter Occurrence.isKept).Sublist
          ((tree.occurrences []).filter Occurrence.isIdentifier) := by
        refine List.monotone_filter_right _ fun o ho => ?_
        rw [Occurrence.isKept, Bool.and_eq_true, Bool.and_eq_true] at ho
        exact ho.1.1
      exact List.pairwise_map.mp ((inOrder_identifierSpans hlawful []).sublist (hkept.map _)).pairwise

/-- The concrete tree of a decorated function: a comment between the decorator and the definition, a
parameter with a default, and a call with a keyword argument. -/
def decoratedFunction : GrammarTree :=
  .named "module" ⟨0, 49⟩ [
    .named "decorated_definition" ⟨0, 49⟩ [
      .named "decorator" ⟨0, 5⟩ [.token "@" ⟨0, 1⟩, .named "identifier" ⟨1, 5⟩ []],
      .named "comment" ⟨6, 13⟩ [],
      .node "function_definition" true "definition" ⟨14, 49⟩ [
        .token "def" ⟨14, 17⟩,
        .node "identifier" true "name" ⟨18, 19⟩ [],
        .node "parameters" true "parameters" ⟨19, 27⟩ [
          .token "(" ⟨19, 20⟩,
          .named "identifier" ⟨20, 21⟩ [],
          .token "," ⟨21, 22⟩,
          .named "default_parameter" ⟨23, 26⟩ [
            .node "identifier" true "name" ⟨23, 24⟩ [],
            .token "=" ⟨24, 25⟩,
            .node "integer" true "value" ⟨25, 26⟩ []],
          .token ")" ⟨26, 27⟩],
        .token ":" ⟨27, 28⟩,
        .node "block" true "body" ⟨33, 49⟩ [
          .named "return_statement" ⟨33, 49⟩ [
            .token "return" ⟨33, 39⟩,
            .named "call" ⟨40, 49⟩ [
              .node "identifier" true "function" ⟨40, 41⟩ [],
              .node "argument_list" true "arguments" ⟨41, 49⟩ [
                .token "(" ⟨41, 42⟩,
                .named "identifier" ⟨42, 43⟩ [],
                .token "," ⟨43, 44⟩,
                .named "keyword_argument" ⟨45, 48⟩ [
                  .node "identifier" true "name" ⟨45, 46⟩ [],
                  .token "=" ⟨46, 47⟩,
                  .node "identifier" true "value" ⟨47, 48⟩ []],
                .token ")" ⟨48, 49⟩]]]]]]]

theorem keepsNames_of_ofTextBy_decoratedFunction : ∃ root,
    ofTextBy (fun _ => some decoratedFunction) "@wrap\n# twice\ndef f(a, b=1):\n    return g(a, k=b)" = .ok root ∧
      root.walk.filterMap Node.identifier? = [(⟨1, 5⟩, "wrap"), (⟨20, 21⟩, "a"), (⟨23, 24⟩, "b"), (⟨40, 41⟩, "g"),
        (⟨42, 43⟩, "a"), (⟨47, 48⟩, "b")] ∧
      ∃ f k, (root.walk.filter Node.carriesName).Perm [f, k] ∧ f.form = .python (.functionDefinition "f") ∧
        f.span = ⟨0, 49⟩ ∧ k.form = .python (.keywordArgument "k") ∧ k.span = ⟨45, 48⟩ := by
  have hlawful : ∀ tree, some decoratedFunction = some tree → tree.WellNested Lawful ∧ tree.construct = "module" := by
    rintro tree ⟨⟩
    decide +kernel
  obtain ⟨root, hroot⟩ : ∃ root, ofTextBy (fun _ => some decoratedFunction)
      "@wrap\n# twice\ndef f(a, b=1):\n    return g(a, k=b)" = .ok root := ⟨_, rfl⟩
  obtain ⟨tree, ⟨⟩, ⟨hidentifiers, named, hperm, hnamed⟩, -⟩ := keepsNames_of_ofTextBy hlawful hroot
  refine ⟨root, hroot, hidentifiers.trans (by decide +kernel), ?_⟩
  obtain ⟨f, rest, ⟨⟨parent, hparent, hf⟩, owner, levels, howner, -, hspan⟩, hrest, rfl⟩ :=
    List.forall₂_cons_left_iff.mp hnamed
  obtain ⟨k, rest, ⟨⟨parent', hparent', hk⟩, owner', levels', howner', -, hspan'⟩, hnone, rfl⟩ :=
    List.forall₂_cons_left_iff.mp hrest
  obtain rfl := List.forall₂_nil_left_iff.mp hnone
  obtain rfl := Option.some.inj hparent
  obtain rfl := Option.some.inj howner
  obtain rfl := Option.some.inj hparent'
  obtain rfl := Option.some.inj howner'
  exact ⟨f, k, hperm.symm, hf, hspan, hk, hspan'⟩

end Script

end SlotEdit
